import LogicalScheme.Proofs.Spelling

/-!
This module contains the grammar of text: blanks with spellings of tokens between them. A text has
at most one division into these, and the tokenizer accepts exactly the texts that have one.
-/

namespace LogicalScheme

abbrev Gap := { cs : List Char // ∀ c ∈ cs, Text.isBlank c = true }

/--
A token in the spelling `word` and the blanks in front of it.
-/
structure Block where
  gap : Gap
  token : Token
  word : List Char
  spells : token.Spells word

structure Division where
  blocks : List Block
  last : Gap

theorem Text.not_isDigit_of_isBlank {c : Char} (h : isBlank c = true) : c.isDigit = false := by
  simp only [isBlank, Char.toNat, Bool.or_eq_true, Bool.and_eq_true, decide_eq_true_eq, beq_iff_eq] at h
  simp only [Char.isDigit, Bool.and_eq_false_imp, decide_eq_true_eq, decide_eq_false_iff_not]
  intro hlow hhigh
  have hlow : 48 ≤ c.val.toNat := UInt32.le_iff_toNat_le.mp hlow
  have hhigh : c.val.toNat ≤ 57 := UInt32.le_iff_toNat_le.mp hhigh
  omega

theorem Token.Spells.not_isBlank_head {t : Token} {word : List Char} (h : t.Spells word) (rest : List Char)
    : ∀ c ∈ (word ++ rest).head?, Text.isBlank c = false := by
  obtain ⟨c, cs, rfl, hblank, _⟩ := h.exists_cons
  intro x hx
  cases hx
  exact hblank

namespace Piece

@[simp]
theorem split_nil (offset : Nat) : split offset [] = [] := by
  rw [split.eq_def]

theorem split_blank {c : Char} (h : Text.isBlank c = true) (offset : Nat) (cs : List Char)
    : split offset (c :: cs) = split (offset + c.utf8Size) cs := by
  rw [split.eq_def]
  simp only [h, ↓reduceIte]

theorem split_match {cs : List Char} {m : Token.Match} (h : Token.scan? cs = some m)
    (hblank : ∀ c ∈ cs.head?, Text.isBlank c = false) (offset : Nat)
    : split offset cs =
        .lexeme ⟨m.token, ⟨offset, offset + Text.width m.text⟩, String.ofList m.text⟩ ::
          split (offset + Text.width m.text) m.rest := by
  cases cs with
  | nil => contradiction
  | cons c cs =>
    rw [split.eq_def]
    simp only [hblank c rfl, Bool.false_eq_true, ↓reduceIte]
    split
    . next m' hscan =>
      rw [h] at hscan
      cases hscan
      rfl
    . next hscan =>
      rw [h] at hscan
      contradiction

theorem split_gap (gap : Gap) (offset : Nat) (cs : List Char)
    : split offset (gap.val ++ cs) = split (offset + Text.width gap.val) cs := by
  obtain ⟨gap, hgap⟩ := gap
  dsimp only
  induction gap generalizing offset with
  | nil => simp
  | cons c gap ih =>
    rw [List.cons_append, split_blank (hgap c (List.mem_cons_self ..)), Text.width_cons]
    rw [ih _ (fun x hx => hgap x (List.mem_cons_of_mem c hx)), Nat.add_assoc]

theorem split_word {t : Token} {word rest : List Char} (h : t.Spells word)
    (hrest : ∀ c ∈ rest.head?, c.isDigit = false) (offset : Nat)
    : split offset (word ++ rest) =
        .lexeme ⟨t, ⟨offset, offset + Text.width word⟩, String.ofList word⟩ ::
          split (offset + Text.width word) rest := by
  exact split_match (h.scan? hrest) (h.not_isBlank_head rest) offset

end Piece

namespace Block

theorem ext_word {b b' : Block} (hgap : b.gap.val = b'.gap.val) (htoken : b.token = b'.token)
    (hword : b.word = b'.word) : b = b' := by
  obtain ⟨⟨gap, _⟩, token, word, _⟩ := b
  cases hgap
  cases htoken
  cases hword
  rfl

def chars (b : Block) : List Char :=
  b.gap.val ++ b.word

def start (offset : Nat) (b : Block) : Nat :=
  offset + Text.width b.gap.val

def stop (offset : Nat) (b : Block) : Nat :=
  b.start offset + Text.width b.word

def lexeme (offset : Nat) (b : Block) : Lexeme :=
  ⟨b.token, ⟨b.start offset, b.stop offset⟩, String.ofList b.word⟩

def lexemes (offset : Nat) : List Block → List Lexeme
  | [] => []
  | b :: bs => b.lexeme offset :: lexemes (b.stop offset) bs

def canonical (gap : Gap) (t : Token) : Block :=
  ⟨gap, t, t.chars, t.spells_chars⟩

theorem map_lexemes (bs : List Block) (offset : Nat)
    : (lexemes offset bs).map (fun l => (l.token, l.text)) =
        bs.map fun b => (b.token, String.ofList b.word) := by
  induction bs generalizing offset with
  | nil => rfl
  | cons b bs ih => simp [lexemes, lexeme, ih]

theorem map_token_lexemes (bs : List Block) (offset : Nat)
    : (lexemes offset bs).map (·.token) = bs.map (·.token) := by
  induction bs generalizing offset with
  | nil => rfl
  | cons b bs ih => simp [lexemes, lexeme, ih]

end Block

namespace Division

def chars (v : Division) : List Char :=
  v.blocks.flatMap Block.chars ++ v.last.val

def lexemes (v : Division) : List Lexeme :=
  Block.lexemes 0 v.blocks

def canonical (tokens : List (Gap × Token)) (last : Gap) : Division :=
  ⟨tokens.map fun (gap, t) => .canonical gap t, last⟩

@[simp]
theorem chars_nil (last : Gap) : chars ⟨[], last⟩ = last.val := rfl

@[simp]
theorem chars_cons (b : Block) (bs : List Block) (last : Gap)
    : chars ⟨b :: bs, last⟩ = b.gap.val ++ (b.word ++ chars ⟨bs, last⟩) := by
  simp [chars, Block.chars]

theorem not_isDigit_head (v : Division) : ∀ c ∈ v.chars.head?, c.isDigit = false := by
  intro c hc
  obtain ⟨blocks, last⟩ := v
  cases blocks with
  | nil => exact Text.not_isDigit_of_isBlank (last.property c (List.mem_of_mem_head? hc))
  | cons b bs =>
    rw [chars_cons] at hc
    obtain ⟨gap, token, word, spells⟩ := b
    obtain ⟨gap, hgap⟩ := gap
    cases gap with
    | nil =>
      obtain ⟨w, ws, hword, _, hdigit⟩ := spells.exists_cons
      subst hword
      cases hc
      exact hdigit
    | cons g gs =>
      cases hc
      exact Text.not_isDigit_of_isBlank (hgap c (List.mem_cons_self ..))

theorem split_chars (v : Division) (offset : Nat)
    : Piece.split offset v.chars = (Block.lexemes offset v.blocks).map .lexeme := by
  obtain ⟨blocks, last⟩ := v
  induction blocks generalizing offset with
  | nil =>
    rw [chars_nil, ← List.append_nil last.val, Piece.split_gap, Piece.split_nil]
    rfl
  | cons b bs ih =>
    -- no digit is in front of what follows, so the longest number ends with the word
    rw [chars_cons, Piece.split_gap, Piece.split_word b.spells (not_isDigit_head _), ih]
    rfl

theorem exists_behind (gap : Gap) (v : Division)
    : ∃ w : Division, w.chars = gap.val ++ v.chars ∧
        w.blocks.map (fun b => (b.token, b.word)) = v.blocks.map fun b => (b.token, b.word) := by
  have hgap (rest : Gap) : ∀ c ∈ gap.val ++ rest.val, Text.isBlank c = true := by
    intro c hc
    cases List.mem_append.mp hc with
    | inl h => exact gap.property c h
    | inr h => exact rest.property c h
  obtain ⟨blocks, last⟩ := v
  cases blocks with
  | nil => exact ⟨⟨[], ⟨gap.val ++ last.val, hgap last⟩⟩, rfl, rfl⟩
  | cons b bs =>
    refine ⟨⟨{ b with gap := ⟨gap.val ++ b.gap.val, hgap b.gap⟩ } :: bs, last⟩, ?_, rfl⟩
    rw [chars_cons, chars_cons, List.append_assoc]

theorem exists_append_word {t : Token} {word : List Char} (h : t.Spells word) (v : Division)
    : ∃ w : Division, w.chars = word ++ v.chars :=
  ⟨⟨⟨⟨[], by simp⟩, t, word, h⟩ :: v.blocks, v.last⟩, chars_cons ..⟩

theorem exists_of_split (offset : Nat) (cs : List Char)
    : ∀ ls : List Lexeme, Piece.split offset cs = ls.map .lexeme → ∃ v : Division, v.chars = cs := by
  fun_induction Piece.split offset cs with
  | case1 =>
    intros
    exact ⟨⟨[], ⟨[], by simp⟩⟩, rfl⟩
  | case2 offset c cs hblank ih =>
    intro ls h
    obtain ⟨v, hv⟩ := ih ls h
    obtain ⟨w, hw, _⟩ := v.exists_behind ⟨[c], by simp [hblank]⟩
    rw [← hv]
    exact ⟨w, hw⟩
  | case3 offset c cs hblank m hscan stop ih =>
    intro ls h
    cases ls with
    | nil => contradiction
    | cons l ls =>
      obtain ⟨v, hv⟩ := ih ls (List.cons.inj h).right
      rw [← Token.scan?_text_append_rest hscan, ← hv]
      exact exists_append_word (Token.spells_of_scan? hscan) v
  | case4 offset c cs hblank hscan r start stop ih =>
    intro ls h
    cases ls with
    | nil => contradiction
    | cons l ls =>
      have hpiece := (List.cons.inj h).left
      contradiction

theorem takeWhile_chars_nil (last : Gap) : (chars ⟨[], last⟩).takeWhile Text.isBlank = last.val := by
  rw [chars_nil, List.takeWhile_eq_self_iff]
  exact last.property

theorem dropWhile_chars_nil (last : Gap) : (chars ⟨[], last⟩).dropWhile Text.isBlank = [] := by
  rw [List.dropWhile_eq_nil_iff]
  exact last.property

theorem takeWhile_chars_cons (b : Block) (bs : List Block) (last : Gap)
    : (chars ⟨b :: bs, last⟩).takeWhile Text.isBlank = b.gap.val := by
  rw [chars_cons]
  exact Text.takeWhile_run b.gap.property (b.spells.not_isBlank_head _)

theorem dropWhile_chars_cons (b : Block) (bs : List Block) (last : Gap)
    : (chars ⟨b :: bs, last⟩).dropWhile Text.isBlank = b.word ++ chars ⟨bs, last⟩ := by
  rw [chars_cons]
  exact Text.dropWhile_run b.gap.property (b.spells.not_isBlank_head _)

theorem scan?_chars_cons (b : Block) (bs : List Block) (last : Gap)
    : Token.scan? ((chars ⟨b :: bs, last⟩).dropWhile Text.isBlank) =
        some ⟨b.token, b.word, chars ⟨bs, last⟩⟩ := by
  rw [dropWhile_chars_cons]
  exact b.spells.scan? (not_isDigit_head _)

theorem chars_injective : Function.Injective chars := by
  intro v w h
  obtain ⟨bs, last⟩ := v
  obtain ⟨bs', last'⟩ := w
  -- the blanks in front decide where a token starts, and what is scanned there where it ends
  have htake := congrArg (List.takeWhile Text.isBlank) h
  have hscan := congrArg (fun cs => Token.scan? (cs.dropWhile Text.isBlank)) h
  induction bs generalizing bs' with
  | nil =>
    rw [takeWhile_chars_nil] at htake
    rw [dropWhile_chars_nil] at hscan
    cases bs' with
    | nil =>
      rw [takeWhile_chars_nil] at htake
      rw [Subtype.ext htake]
    | cons b' bs' =>
      rw [scan?_chars_cons] at hscan
      contradiction
  | cons b bs ih =>
    rw [takeWhile_chars_cons] at htake
    rw [scan?_chars_cons] at hscan
    cases bs' with
    | nil =>
      rw [dropWhile_chars_nil] at hscan
      contradiction
    | cons b' bs' =>
      rw [takeWhile_chars_cons] at htake
      rw [scan?_chars_cons] at hscan
      simp only [Option.some.injEq, Token.Match.mk.injEq] at hscan
      obtain ⟨htoken, hword, hrest⟩ := hscan
      have hblock : b = b' := Block.ext_word htake htoken hword
      have htail := ih bs' hrest (by rw [hrest]) (by rw [hrest])
      cases htail
      rw [hblock]

end Division

namespace Piece

theorem diagnostics_eq_nil_iff {pieces : List Piece} {position : Nat}
    : diagnostics position pieces = [] ↔ pieces = (lexemes pieces).map .lexeme := by
  induction pieces generalizing position with
  | nil => simp [diagnostics, lexemes]
  | cons piece pieces ih =>
    cases piece with
    | lexeme l =>
      simp only [diagnostics, ih]
      simp [lexemes]
    | unrecognized span =>
      constructor
      . intro h
        contradiction
      . intro h
        have hmem : unrecognized span ∈ (lexemes (unrecognized span :: pieces)).map lexeme := by
          rw [← h]
          exact List.mem_cons_self ..
        simp at hmem

@[simp]
theorem lexemes_map (ls : List Lexeme) : lexemes (ls.map .lexeme) = ls := by
  simp only [lexemes, List.filterMap_map, Function.comp_def, List.filterMap_some]

end Piece

theorem tokenize_eq_ok_iff {text : String} {ls : List Lexeme}
    : tokenize text = .ok ls ↔ Piece.ofText text = ls.map .lexeme := by
  have hnil : Piece.diagnostics 0 (Piece.ofText text) = [] ↔ _ := Piece.diagnostics_eq_nil_iff
  unfold tokenize
  dsimp only
  constructor
  . intro h
    split at h
    . next heq =>
      cases h
      exact hnil.mp heq
    . contradiction
  . intro h
    rw [hnil.mpr (by simp [h]), h, Piece.lexemes_map]

/--
The tokenizer accepts exactly the texts that are blanks with spellings of tokens between them, and finds
these tokens where they stand. There is never more than one way to see a text so, and tokens lex
back from their texts whatever blanks are written around them.
-/
theorem tokenize_exact
    : (∀ (text : String) (ls : List Lexeme),
          tokenize text = .ok ls ↔ ∃ v : Division, v.chars = text.toList ∧ v.lexemes = ls)
        ∧ Function.Injective Division.chars
        ∧ ∀ (tokens : List (Gap × Token)) (last : Gap),
            ∃ ls,
              tokenize (String.ofList (Division.canonical tokens last).chars) = .ok ls
                ∧ ls.map (·.token) = tokens.map (·.snd) := by
  have haccept (text : String) (ls : List Lexeme)
      : tokenize text = .ok ls ↔ ∃ v : Division, v.chars = text.toList ∧ v.lexemes = ls := by
    rw [tokenize_eq_ok_iff]
    unfold Piece.ofText
    constructor
    . intro h
      obtain ⟨v, hv⟩ := Division.exists_of_split 0 text.toList ls h
      refine ⟨v, hv, ?_⟩
      rw [← hv, Division.split_chars] at h
      rw [← Piece.lexemes_map ls, ← h, Piece.lexemes_map]
      rfl
    . rintro ⟨v, hv, rfl⟩
      rw [← hv]
      exact v.split_chars 0
  refine ⟨haccept, Division.chars_injective, ?_⟩
  intro tokens last
  refine ⟨(Division.canonical tokens last).lexemes, ?_, ?_⟩
  . rw [haccept]
    exact ⟨_, String.toList_ofList.symm, rfl⟩
  . simp [Division.lexemes, Division.canonical, Block.map_token_lexemes, Function.comp_def, Block.canonical]

end LogicalScheme
