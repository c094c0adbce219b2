import LogicalScheme.Failure

/-!
This module contains trees of files that are held in memory, and how paths are resolved in them.
-/

namespace LogicalScheme

/--
Files and directories by the names on the way to them from the working directory. A directory has no
content. The directories on the way to an entry need no entries. The first entry of a place counts.
-/
structure FileTree where
  entries : List (List String × Option (List UInt8))
  deriving DecidableEq

namespace FileTree

def nameLimit : Nat :=
  255

def pathLimit : Nat :=
  4095

/--
The names in a path. A slash at the end leaves an empty name.
-/
def names (path : String) : List String :=
  (path.toList.splitOn '/').map String.ofList

def stays (name : String) : Bool :=
  name == "" || name == "."

/--
The tree with the given contents. A path with a slash at its end is a directory. The last content of
a place counts.
-/
def ofContents (contents : List (String × List UInt8)) : FileTree :=
  ⟨contents.reverse.map fun (path, bytes) =>
    let names := names path
    (names.filter (!stays ·), if names.getLast? = some "" then none else some bytes)⟩

def content? (t : FileTree) (place : List String) : Option (List UInt8) :=
  (t.entries.lookup place).join

def isDirectory (t : FileTree) (place : List String) : Bool :=
  t.entries.any fun (entry, content) =>
    place.isPrefixOf entry && (content.isNone || place.length < entry.length)

/--
Follow names from a directory to the content of a file. Places that are not below the working
directory are directories without files.
-/
def follow (t : FileTree) : Option (List String) → List String → Except InputError (List UInt8)
  | _, [] => .error .directory
  | place?, name :: names =>
    if stays name then
      follow t place? names
    else if name = ".." then
      follow t (place?.bind fun place => if place = [] then none else some place.dropLast) names
    else if nameLimit < name.utf8ByteSize then
      .error .longName
    else
      match place? with
      | none => .error .missing
      | some place =>
        let place := place ++ [name]
        match t.content? place with
        | some bytes => if names.isEmpty then .ok bytes else .error .notDirectory
        | none => if t.isDirectory place then follow t (some place) names else .error .missing

def refusal? (path : String) : Option InputError :=
  if path.toList.contains '\x00' then some .brokenPath
  else if pathLimit < path.utf8ByteSize then some .longName
  else none

def read (t : FileTree) (path : String) : Except InputError (List UInt8) :=
  match refusal? path, names path with
  | some e, _ => .error e
  | none, [""] => .error .missing
  | none, "" :: names => t.follow none names
  | none, names => t.follow (some []) names

end FileTree

end LogicalScheme
