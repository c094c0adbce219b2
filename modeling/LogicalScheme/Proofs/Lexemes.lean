import LogicalScheme.Proofs.Grammar
import LogicalScheme.Proofs.Pointing
import Mathlib.Data.String.Basic

/-!
This module contains what holds of every lexeme, also in texts that have more than lexemes: its span cuts
its text out of the whole text, and the tokenizer reads that part alone as the same token.
-/

namespace LogicalScheme

theorem Text.utf8Len_eq_width (cs : List Char) : String.utf8Len cs = width cs := by
  induction cs with
  | nil => rfl
  | cons c cs ih => rw [String.utf8Len_cons, ih, width_cons, Nat.add_comm]

namespace Span

variable {s : Span} {text : String} {part : List Char}

theorem liesIn_iff
    : s.LiesIn text ↔
        s.start ≤ s.stop ∧ s.stop ≤ text.utf8ByteSize ∧ String.Pos.Raw.IsValid text ⟨s.start⟩ ∧
          String.Pos.Raw.IsValid text ⟨s.stop⟩ :=
  ⟨fun h => ⟨h.ordered, h.inside, h.startValid, h.stopValid⟩,
    fun ⟨ordered, inside, startValid, stopValid⟩ => ⟨ordered, inside, startValid, stopValid⟩⟩

instance : Decidable (s.LiesIn text) :=
  decidable_of_iff' _ liesIn_iff

/--
The part of a text at a span. Nothing can be cut out where the span leaves the text or ends inside of a
character.
-/
def cut? (s : Span) (text : String) : Option String :=
  if s.LiesIn text then some (String.Pos.Raw.extract text ⟨s.start⟩ ⟨s.stop⟩) else none

theorem cut?_of_covers (h : s.Covers text.toList part) : s.cut? text = some (String.ofList part) := by
  unfold cut?
  rw [if_pos h.liesIn]
  obtain ⟨before, after, htext, hstart, hstop⟩ := h
  have hextract := String.extract_of_valid before part after
  rw [← htext, String.ofList_toList, Text.utf8Len_eq_width, Text.utf8Len_eq_width] at hextract
  rw [hstart, hstop, hextract]

end Span

namespace Token

theorem not_isDigit_of_scanNumber? {mark cs : List Char} {token : UInt32 → Token} {m : Match}
    (h : scanNumber? mark token cs = some m) : ∀ c ∈ m.rest.head?, c.isDigit = false := by
  simp only [scanNumber?, Option.dite_none_right_eq_some, Option.some.injEq] at h
  obtain ⟨_, rfl⟩ := h
  intro c hc
  have hhead := List.head?_dropWhile_not Char.isDigit cs
  rw [Option.mem_def.mp hc] at hhead
  simpa using hhead

theorem not_isDigit_of_scan? {cs : List Char} {m : Match} (h : scan? cs = some m)
    (hnumber : m.token.number?.isSome) : ∀ c ∈ m.rest.head?, c.isDigit = false := by
  unfold scan? at h
  split at h
  . cases h
    contradiction
  . cases h
    contradiction
  all_goals first
    | exact not_isDigit_of_scanNumber? h
    | contradiction

end Token

theorem tokenize_of_spells {t : Token} {word : List Char} (h : t.Spells word)
    : tokenize (String.ofList word) = .ok [⟨t, ⟨0, Text.width word⟩, String.ofList word⟩] := by
  have hend : ∀ c ∈ ([] : List Char).head?, c.isDigit = false := by simp
  have hsplit := Piece.split_word h hend 0
  rw [List.append_nil, Piece.split_nil, Nat.zero_add] at hsplit
  rw [tokenize_eq_ok_iff, Piece.ofText, String.toList_ofList, hsplit]
  rfl

/--
A lexeme is read from a text if its span has one or more whole characters of the text, which are what its
text says, spell its token and stop only where its number has no further digits.
-/
structure Lexeme.ReadFrom (l : Lexeme) (text : String) : Prop where
  nonempty : l.span.start < l.span.stop
  inside : l.span.LiesIn text
  cut : l.span.cut? text = some l.text
  spelled : l.token.Spells l.text.toList
  longest : l.token.number?.isSome →
    ∃ rest, Text.Place 0 text.toList l.span.stop rest ∧ ∀ c ∈ rest.head?, c.isDigit = false
  alone : tokenize l.text = .ok [⟨l.token, ⟨0, l.text.utf8ByteSize⟩, l.text⟩]

namespace Piece

variable {offset : Nat} {cs : List Char} {l : Lexeme} {text : String}

theorem exists_scan?_of_mem_split (h : .lexeme l ∈ split offset cs)
    : ∃ place rest m, Text.Place offset cs place rest ∧ Token.scan? rest = some m ∧
        l = ⟨m.token, ⟨place, place + Text.width m.text⟩, String.ofList m.text⟩ := by
  fun_induction split offset cs with
  | case1 => contradiction
  | case2 offset c cs hblank ih =>
    obtain ⟨place, rest, m, hplace, hread⟩ := ih h
    exact ⟨place, rest, m, hplace.append [c], hread⟩
  | case3 offset c cs hblank m hscan stop ih =>
    cases List.mem_cons.mp h with
    | inl heq =>
      cases heq
      exact ⟨offset, c :: cs, m, ⟨[], rfl, rfl⟩, hscan, rfl⟩
    | inr hmem =>
      obtain ⟨place, rest, m', hplace, hread⟩ := ih hmem
      rw [← Token.scan?_text_append_rest hscan]
      exact ⟨place, rest, m', hplace.append m.text, hread⟩
  | case4 offset c cs hblank hscan r start stop ih =>
    have hstop : stop = offset + Text.width (r.lost ++ r.run) := by
      rw [Text.width_append, ← Nat.add_assoc]
    cases List.mem_cons.mp h with
    | inl heq => contradiction
    | inr hmem =>
      obtain ⟨place, rest, m, hplace, hread⟩ := ih hmem
      rw [hstop] at hplace
      rw [← recover_append (c :: cs)]
      exact ⟨place, rest, m, hplace.append _, hread⟩

theorem readFrom_of_mem_lexemes (h : l ∈ lexemes (ofText text)) : l.ReadFrom text := by
  have hmem := mem_of_mem_lexemes h
  have hspelled := spells_of_mem_lexemes h
  have hnonempty := nonempty_of_lexeme hmem
  obtain ⟨place, rest, m, ⟨before, htext, hplace⟩, hscan, hread⟩ := exists_scan?_of_mem_split hmem
  rw [Nat.zero_add] at hplace
  rw [← Token.scan?_text_append_rest hscan, ← List.append_assoc] at htext
  subst hread hplace
  have hcovers : Span.Covers ⟨_, Text.width before + Text.width m.text⟩ text.toList m.text :=
    ⟨before, m.rest, htext, rfl, rfl⟩
  rw [String.toList_ofList] at hspelled
  constructor
  . exact hnonempty
  . exact hcovers.liesIn
  . exact Span.cut?_of_covers hcovers
  . rw [String.toList_ofList]
    exact hspelled
  . intro hnumber
    refine ⟨m.rest, ⟨before ++ m.text, htext, ?_⟩, Token.not_isDigit_of_scan? hscan hnumber⟩
    rw [Text.width_append, Nat.zero_add]
  . rw [Text.utf8ByteSize_ofList]
    exact tokenize_of_spells hspelled

end Piece

/--
Lexemes are sound whatever else is in their text: each is read from it, and they stand in order without
overlaps. So the tokens that an automaton keeps are what the spans of the lexemes cut out of the text that it
was read from.
-/
theorem lexemes_sound (text : String)
    : (∀ l ∈ Piece.lexemes (Piece.ofText text), l.ReadFrom text) ∧
        (Piece.lexemes (Piece.ofText text)).Pairwise
          (fun l k => l.span.start < k.span.start ∧ l.span.stop ≤ k.span.start) ∧
        (Parsed.ofText text).lexemes.map (·.span.cut? (Parsed.ofText text).automaton.source) =
          (Parsed.ofText text).automaton.tokens.map some := by
  have hread (text : String) : ∀ l ∈ Piece.lexemes (Piece.ofText text), l.ReadFrom text :=
    fun l => Piece.readFrom_of_mem_lexemes
  refine ⟨hread text, ?_, ?_⟩
  . apply (Piece.pairwise_lexemes text).imp_of_mem
    intro l k hl _ hordered
    exact ⟨Nat.lt_of_lt_of_le (hread text l hl).nonempty hordered, hordered⟩
  . have htokens : (Parsed.ofText text).automaton.tokens = (Parsed.ofText text).lexemes.map (·.text) := by
      rw [Parsed.ofText_eq]
      rfl
    have hsource : (Parsed.ofText text).automaton.source = Text.normalize text := by
      rw [Parsed.ofText_eq]
      rfl
    rw [htokens, hsource, List.map_map]
    apply List.map_congr_left
    intro l hl
    exact (hread _ l hl).cut

theorem readFrom_unreadable
    : Lexeme.ReadFrom ⟨.conditional .x 7, ⟨6, 10⟩, "X007"⟩ "Yн ЖX007Y1 Y↑4294967296" :=
  (lexemes_sound "Yн ЖX007Y1 Y↑4294967296").left _ (by decide +kernel)

end LogicalScheme
