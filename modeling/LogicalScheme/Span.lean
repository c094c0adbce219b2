import LogicalScheme.Text

/-!
This module contains spans: half open ranges of UTF-8 byte offsets into scheme text.
-/

namespace LogicalScheme

/--
The bytes from `start` up to but not including `stop`.
-/
structure Span where
  start : Nat
  stop : Nat
  deriving DecidableEq, Inhabited

namespace Span

def empty (offset : Nat) : Span :=
  ⟨offset, offset⟩

def length (s : Span) : Nat :=
  s.stop - s.start

def isEmpty (s : Span) : Bool :=
  s.start == s.stop

def union (s t : Span) : Span :=
  ⟨min s.start t.start, max s.stop t.stop⟩

/--
A span covers the part `part` of a text, so both of its ends lie between characters of the text.
-/
def Covers (s : Span) (text part : List Char) : Prop :=
  ∃ before after, text = before ++ part ++ after ∧
    s.start = Text.width before ∧ s.stop = Text.width before + Text.width part

end Span

end LogicalScheme
