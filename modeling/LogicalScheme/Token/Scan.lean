import LogicalScheme.Token

/-!
This module contains the scanner for the single token at the head of a text.
-/

namespace LogicalScheme.Token

structure Match where
  token : Token
  text : List Char
  rest : List Char
  deriving DecidableEq

/--
All the digits at the head of `cs`, read as the number of a token. There has to be a digit, and
the value has to fit 32 bits.
-/
def scanNumber? (mark : List Char) (token : UInt32 → Token) (cs : List Char) : Option Match :=
  let digits := cs.takeWhile Char.isDigit
  if h : digits ≠ [] ∧ Nat.ofDigitChars 10 digits 0 < UInt32.size then
    some
      { token := token (UInt32.ofNatLT (Nat.ofDigitChars 10 digits 0) h.right)
        text := mark ++ digits
        rest := cs.dropWhile Char.isDigit }
  else
    none

/--
Scan the token at the head of a text. The markers go before the operators, which share their
letter.
-/
def scan? : List Char → Option Match
  | 'Y' :: 'н' :: cs => some ⟨.start, ['Y', 'н'], cs⟩
  | 'Y' :: 'к' :: cs => some ⟨.finish, ['Y', 'к'], cs⟩
  | 'w' :: '↑' :: cs => scanNumber? ['w', '↑'] .unconditionalJump cs
  | '↑' :: cs => scanNumber? ['↑'] .conditionalJump cs
  | '↓' :: cs => scanNumber? ['↓'] .jumpPoint cs
  | 'X' :: cs => scanNumber? ['X'] (.conditional .x) cs
  | 'P' :: cs => scanNumber? ['P'] (.conditional .p) cs
  | 'Y' :: cs => scanNumber? ['Y'] .operator cs
  | _ => none

theorem scanNumber?_text_append_rest {mark cs : List Char} {token : UInt32 → Token} {m : Match}
    (h : scanNumber? mark token cs = some m) : m.text ++ m.rest = mark ++ cs := by
  simp only [scanNumber?, Option.dite_none_right_eq_some, Option.some.injEq] at h
  obtain ⟨_, rfl⟩ := h
  simp [List.takeWhile_append_dropWhile]

theorem scanNumber?_text_ne_nil {mark cs : List Char} {token : UInt32 → Token} {m : Match}
    (h : scanNumber? mark token cs = some m) : m.text ≠ [] := by
  simp only [scanNumber?, Option.dite_none_right_eq_some, Option.some.injEq] at h
  obtain ⟨hdigits, rfl⟩ := h
  simp [hdigits.left]

theorem scan?_text_append_rest {cs : List Char} {m : Match} (h : scan? cs = some m)
    : m.text ++ m.rest = cs := by
  unfold scan? at h
  split at h
  . cases h; rfl
  . cases h; rfl
  all_goals first
    | exact scanNumber?_text_append_rest h
    | contradiction

theorem scan?_text_ne_nil {cs : List Char} {m : Match} (h : scan? cs = some m) : m.text ≠ [] := by
  unfold scan? at h
  split at h
  . cases h; simp
  . cases h; simp
  all_goals first
    | exact scanNumber?_text_ne_nil h
    | contradiction

theorem scan?_rest_length_lt {cs : List Char} {m : Match} (h : scan? cs = some m)
    : m.rest.length < cs.length := by
  have hlength := congrArg List.length (scan?_text_append_rest h)
  have hpos := List.length_pos_iff.mpr (scan?_text_ne_nil h)
  simp at hlength
  omega

end LogicalScheme.Token
