import LogicalScheme.Piece
import Mathlib.Data.List.TakeWhile

/-!
This module contains the spellings of tokens: what the scanner finds is exactly a spelling that no
digit follows, and the lexemes that are found in a text are spelled by their texts.
-/

namespace LogicalScheme

namespace Text

variable {p : Char → Bool} {run rest : List Char}

theorem takeWhile_run (hrun : ∀ c ∈ run, p c = true) (hrest : ∀ c ∈ rest.head?, p c = false)
    : (run ++ rest).takeWhile p = run := by
  rw [List.takeWhile_append_of_pos hrun]
  cases rest with
  | nil => simp
  | cons c rest => simp [hrest c rfl]

theorem dropWhile_run (hrun : ∀ c ∈ run, p c = true) (hrest : ∀ c ∈ rest.head?, p c = false)
    : (run ++ rest).dropWhile p = rest := by
  rw [List.dropWhile_append_of_pos hrun]
  cases rest with
  | nil => rfl
  | cons c rest => simp [hrest c rfl]

end Text

namespace Token

/--
The characters that spell a token: its mark, and behind it for a token with a number one or more
digits that have the number as their value. Leading zeros are allowed.
-/
inductive Spells : Token → List Char → Prop
  | marker {t : Token} (hnumber : t.number? = none) : Spells t t.mark
  | numbered {t : Token} {n : UInt32} {digits : List Char} (hnumber : t.number? = some n)
      (hne : digits ≠ []) (hdigits : ∀ c ∈ digits, c.isDigit = true)
      (hvalue : Nat.ofDigitChars 10 digits 0 = n.toNat) : Spells t (t.mark ++ digits)

theorem Spells.eq_mark {t : Token} {cs : List Char} (h : t.Spells cs) (hnumber : t.number? = none)
    : cs = t.mark := by
  cases h with
  | marker _ => rfl
  | numbered hsome =>
    rw [hnumber] at hsome
    contradiction

theorem spells_of_scanNumber? {mark cs : List Char} {token : UInt32 → Token} {m : Match}
    (h : scanNumber? mark token cs = some m) (hmark : ∀ n, (token n).mark = mark)
    (hnumber : ∀ n, (token n).number? = some n) : m.token.Spells m.text := by
  unfold scanNumber? at h
  simp only [Option.dite_none_right_eq_some, Option.some.injEq] at h
  obtain ⟨⟨hne, hlt⟩, rfl⟩ := h
  dsimp only
  rw [← hmark (UInt32.ofNatLT _ hlt)]
  apply Spells.numbered (hnumber _) hne
  . intro c hc
    exact List.mem_takeWhile_imp hc
  . rw [UInt32.toNat_ofNatLT]

theorem spells_of_scan? {cs : List Char} {m : Match} (h : scan? cs = some m)
    : m.token.Spells m.text := by
  unfold scan? at h
  split at h
  . cases h
    exact .marker rfl
  . cases h
    exact .marker rfl
  all_goals first
    | exact spells_of_scanNumber? h (fun _ => rfl) (fun _ => rfl)
    | contradiction

theorem scanNumber?_append {mark digits rest : List Char} {token : UInt32 → Token} {n : UInt32}
    (hne : digits ≠ []) (hdigits : ∀ c ∈ digits, c.isDigit = true)
    (hvalue : Nat.ofDigitChars 10 digits 0 = n.toNat)
    (hrest : ∀ c ∈ rest.head?, c.isDigit = false)
    : scanNumber? mark token (digits ++ rest) = some ⟨token n, mark ++ digits, rest⟩ := by
  have hlt : n.toNat < UInt32.size := n.toNat_lt_size
  unfold scanNumber?
  simp only [Text.takeWhile_run hdigits hrest, Text.dropWhile_run hdigits hrest, hvalue]
  simp [hne, hlt]

theorem scan?_operator {d : Char} {cs : List Char} (hd : d.isDigit = true)
    : scan? ('Y' :: d :: cs) = scanNumber? ['Y'] .operator (d :: cs) := by
  -- the markers share the letter, but no digit ends a marker
  have hstart : d ≠ 'н' := by
    intro h
    rw [h] at hd
    contradiction
  have hfinish : d ≠ 'к' := by
    intro h
    rw [h] at hd
    contradiction
  unfold scan?
  split <;> simp_all

theorem Spells.scan? {t : Token} {cs rest : List Char} (h : t.Spells cs)
    (hrest : ∀ c ∈ rest.head?, c.isDigit = false)
    : Token.scan? (cs ++ rest) = some ⟨t, cs, rest⟩ := by
  cases h with
  | marker hnumber =>
    cases t with
    | start => rfl
    | finish => rfl
    | _ => contradiction
  | @numbered n digits hnumber hne hdigits hvalue =>
    rw [List.append_assoc]
    have hscan (mark token) : scanNumber? mark token (digits ++ rest) = _ :=
      scanNumber?_append hne hdigits hvalue hrest
    cases t with
    | start => contradiction
    | finish => contradiction
    | operator k =>
      cases hnumber
      rw [← hscan]
      obtain ⟨d, ds, rfl⟩ := List.exists_cons_of_ne_nil hne
      exact scan?_operator (hdigits d (List.mem_cons_self ..))
    | conditional letter k =>
      cases hnumber
      cases letter with
      | x => exact hscan ['X'] _
      | p => exact hscan ['P'] _
    | jumpPoint k =>
      cases hnumber
      exact hscan ['↓'] _
    | conditionalJump k =>
      cases hnumber
      exact hscan ['↑'] _
    | unconditionalJump k =>
      cases hnumber
      exact hscan ['w', '↑'] _

theorem spells_chars (t : Token) : t.Spells t.chars := by
  unfold chars
  split
  . next hnumber => exact .marker hnumber
  . next n hnumber =>
    apply Spells.numbered hnumber
    . exact Nat.toDigits_ne_nil
    . intro c hc
      exact Nat.isDigit_of_mem_toDigits (by decide) (by decide) hc
    . exact Nat.ofDigitChars_toDigits (by decide) (by decide)

theorem Spells.exists_cons {t : Token} {cs : List Char} (h : t.Spells cs)
    : ∃ c rest, cs = c :: rest ∧ Text.isBlank c = false ∧ c.isDigit = false := by
  have hmark : ∃ c rest, t.mark = c :: rest ∧ Text.isBlank c = false ∧ c.isDigit = false := by
    cases t with
    | conditional letter n =>
      cases letter <;> exact ⟨_, _, rfl, rfl, rfl⟩
    | _ => exact ⟨_, _, rfl, rfl, rfl⟩
  obtain ⟨c, rest, hcons, hclass⟩ := hmark
  cases h with
  | marker hnumber => exact ⟨c, rest, hcons, hclass⟩
  | @numbered _ digits hnumber hne hdigits hvalue =>
    refine ⟨c, rest ++ digits, ?_, hclass⟩
    rw [hcons, List.cons_append]

end Token

namespace Piece

theorem spells_of_mem_split {offset : Nat} {cs : List Char} {l : Lexeme}
    (h : .lexeme l ∈ split offset cs) : l.token.Spells l.text.toList := by
  fun_induction split offset cs with
  | case1 => contradiction
  | case2 offset c cs hblank ih => exact ih h
  | case3 offset c cs hblank m hscan stop ih =>
    cases List.mem_cons.mp h with
    | inl heq =>
      cases heq
      rw [String.toList_ofList]
      exact Token.spells_of_scan? hscan
    | inr hmem => exact ih hmem
  | case4 offset c cs hblank hscan r start stop ih =>
    cases List.mem_cons.mp h with
    | inl heq => contradiction
    | inr hmem => exact ih hmem

theorem spells_of_mem_lexemes {text : String} {l : Lexeme} (h : l ∈ lexemes (ofText text))
    : l.token.Spells l.text.toList :=
  spells_of_mem_split (mem_of_mem_lexemes h)

end Piece

end LogicalScheme
