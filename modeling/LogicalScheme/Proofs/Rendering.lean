import LogicalScheme.Proofs.Grammar
import LogicalScheme.Proofs.Normal
import LogicalScheme.Proofs.Renaming

/-!
This module contains the ways to write tokens down. However tokens are written, they are read back, and
nothing but the tokens matters for the automaton and for whether a text is accepted.
-/

namespace LogicalScheme

theorem map_comp_congr {α β γ δ : Type} {g : α → γ} {g' : β → γ} {xs : List α} {ys : List β} (k : γ → δ)
    (h : xs.map g = ys.map g') : xs.map (k ∘ g) = ys.map (k ∘ g') := by
  rw [← List.map_map, h, List.map_map]

namespace Text

/--
The first character may be written for the second one.
-/
inductive Writes : Char → Char → Prop where
  | same (c : Char) : Writes c c
  | operator : Writes 'y' 'Y'
  | x : Writes 'x' 'X'
  | p : Writes 'p' 'P'
  | unconditional : Writes 'W' 'w'
  | start : Writes 'Н' 'н'
  | finish : Writes 'К' 'к'

namespace Writes

variable {r c : Char}

theorem normalizeChar_eq (h : Writes r c) : normalizeChar r = normalizeChar c := by
  cases h <;> rfl

theorem isKept_eq (h : Writes r c) : isKept r = isKept c := by
  cases h <;> rfl

end Writes

theorem map_normalizeChar_writes {raw word : List Char} (h : List.Forall₂ Writes raw word)
    : raw.map normalizeChar = word.map normalizeChar := by
  induction h with
  | nil => rfl
  | cons hhead htail ih => rw [List.map_cons, List.map_cons, hhead.normalizeChar_eq, ih]

theorem isKept_of_writes {raw word : List Char} (h : List.Forall₂ Writes raw word)
    (hword : ∀ c ∈ word, isKept c = true) : ∀ c ∈ raw, isKept c = true := by
  induction h with
  | nil => exact hword
  | cons hhead htail ih =>
    rw [List.forall_mem_cons] at hword ⊢
    rw [hhead.isKept_eq]
    exact ⟨hword.left, ih hword.right⟩

/--
The tokens that a text has in its normal form, where nothing is left over.
-/
def Reads (text : String) (ts : List Token) : Prop :=
  ∃ ls, tokenize (normalize text) = .ok ls ∧ ls.map (·.token) = ts

end Text

namespace Token

theorem isKept_of_isDigit {c : Char} (h : c.isDigit = true)
    : Text.isKept c = true ∧ Text.normalizeChar c = c := by
  have hne : ∀ d : Char, d.isDigit = false → c ≠ d := by
    intro d hd heq
    rw [heq, hd] at h
    contradiction
  constructor
  . rw [Text.isKept_iff]
    constructor
    . rw [Bool.eq_false_iff]
      intro hblank
      rw [Text.not_isDigit_of_isBlank hblank] at h
      contradiction
    . simp only [Text.isGrouping, Bool.or_eq_false_iff, beq_eq_false_iff_ne]
      exact ⟨⟨hne _ rfl, hne _ rfl⟩, hne _ rfl⟩
  . unfold Text.normalizeChar
    split <;> first | contradiction | rfl

theorem isKept_mark (t : Token) : ∀ c ∈ t.mark, Text.isKept c = true ∧ Text.normalizeChar c = c := by
  have hall : t.mark.all (fun c => Text.isKept c && Text.normalizeChar c == c) = true := by
    cases t with
    | conditional l n => cases l <;> rfl
    | _ => rfl
  intro c hc
  have hc := List.all_eq_true.mp hall c hc
  rw [Bool.and_eq_true, beq_iff_eq] at hc
  exact hc

theorem Spells.isKept {t : Token} {word : List Char} (h : t.Spells word)
    : ∀ c ∈ word, Text.isKept c = true ∧ Text.normalizeChar c = c := by
  cases h with
  | marker => exact t.isKept_mark
  | numbered _ _ hdigits =>
    intro c hc
    cases List.mem_append.mp hc with
    | inl hc => exact t.isKept_mark c hc
    | inr hc => exact isKept_of_isDigit (hdigits c hc)

end Token

abbrev Padding := { cs : List Char // ∀ c ∈ cs, Text.isBlank c = true ∨ Text.isGrouping c = true }

structure Writing where
  padding : Padding
  token : Token
  word : List Char
  spells : token.Spells word
  raw : List Char
  writes : List.Forall₂ Text.Writes raw word

structure Rendering where
  writings : List Writing
  last : Padding

namespace Writing

def chars (x : Writing) : List Char :=
  x.padding.val ++ x.raw

def plain (padding : Padding) (b : Block) : Writing :=
  { padding, token := b.token, word := b.word, spells := b.spells, raw := b.word
    writes := List.forall₂_same.mpr fun c _ => .same c }

theorem raw_ne_nil (x : Writing) : x.raw ≠ [] := by
  intro hnil
  have hlength := x.writes.length_eq
  obtain ⟨c, cs, hword, _⟩ := x.spells.exists_cons
  rw [hnil, hword] at hlength
  contradiction

theorem normalizeChars_chars (x : Writing) (rest : List Char)
    : ∃ gap : Gap, Text.normalizeChars (x.chars ++ rest) =
        x.word ++ (gap.val ++ Text.normalizeChars rest) := by
  have hkept := Text.isKept_of_writes x.writes fun c hc => (x.spells.isKept c hc).left
  have hword : x.raw.map Text.normalizeChar = x.word := by
    rw [Text.map_normalizeChar_writes x.writes]
    exact (List.map_congr_left fun c hc => (x.spells.isKept c hc).right).trans (List.map_id x.word)
  obtain ⟨gap, hgap, hchars⟩ := Text.normalizeChars_word x.raw_ne_nil hkept rest
  refine ⟨⟨gap, hgap⟩, ?_⟩
  unfold chars
  rw [List.append_assoc, Text.normalizeChars_append _ x.padding.property, hchars, hword]

end Writing

namespace Rendering

def chars (w : Rendering) : List Char :=
  w.writings.flatMap Writing.chars ++ w.last.val

def text (w : Rendering) : String :=
  String.ofList w.chars

def tokens (w : Rendering) : List Token :=
  w.writings.map (·.token)

theorem exists_division (w : Rendering)
    : ∃ v : Division, v.chars = Text.normalizeChars w.chars ∧
        v.blocks.map (fun b => (b.token, b.word)) = w.writings.map fun x => (x.token, x.word) := by
  obtain ⟨writings, last⟩ := w
  induction writings with
  | nil =>
    refine ⟨⟨[], ⟨[], by simp⟩⟩, ?_, rfl⟩
    have hlast := Text.normalizeChars_append last.val last.property []
    rw [List.append_nil] at hlast
    exact hlast.symm
  | cons x xs ih =>
    obtain ⟨v, hchars, hblocks⟩ := ih
    -- whatever is left behind the word becomes a part of the gap in front of the next one
    obtain ⟨gap, hword⟩ := x.normalizeChars_chars (chars ⟨xs, last⟩)
    obtain ⟨v', hchars', hblocks'⟩ := v.exists_behind gap
    refine ⟨⟨⟨⟨[], by simp⟩, x.token, x.word, x.spells⟩ :: v'.blocks, v'.last⟩, ?_, ?_⟩
    . have hrest : chars ⟨x :: xs, last⟩ = x.chars ++ chars ⟨xs, last⟩ := by
        unfold chars
        rw [List.flatMap_cons, List.append_assoc]
      rw [hrest, hword, Division.chars_cons, hchars', hchars]
      rfl
    . rw [List.map_cons, List.map_cons, hblocks', hblocks]

theorem exists_lexemes (w : Rendering)
    : ∃ ls, tokenize (Text.normalize w.text) = .ok ls ∧
        ls.map (fun l => (l.token, l.text)) = w.writings.map fun x => (x.token, String.ofList x.word) := by
  obtain ⟨v, hchars, hblocks⟩ := w.exists_division
  refine ⟨v.lexemes, ?_, ?_⟩
  . rw [tokenize_eq_ok_iff]
    unfold Piece.ofText Text.normalize text
    rw [String.toList_ofList, String.toList_ofList, ← hchars]
    exact v.split_chars 0
  . unfold Division.lexemes
    rw [Block.map_lexemes]
    exact map_comp_congr (Prod.map id String.ofList) hblocks

theorem reads (w : Rendering) : Text.Reads w.text w.tokens := by
  obtain ⟨ls, htokenize, hwords⟩ := w.exists_lexemes
  exact ⟨ls, htokenize, map_comp_congr Prod.fst hwords⟩

def spaced : List Block → Rendering
  | [] => ⟨[], ⟨[], by simp⟩⟩
  | b :: bs =>
    ⟨.plain ⟨[], by simp⟩ b :: bs.map (.plain ⟨[' '], by simp [Text.isBlank]⟩), ⟨[], by simp⟩⟩

theorem words_spaced (bs : List Block)
    : (spaced bs).writings.map (fun x => (x.token, x.word)) = bs.map fun b => (b.token, b.word) := by
  cases bs with
  | nil => rfl
  | cons b bs =>
    unfold spaced
    rw [List.map_cons, List.map_cons, List.map_map]
    rfl

theorem intercalate_cons (w : List Char) (ws : List (List Char))
    : [' '].intercalate (w :: ws) = w ++ ws.flatMap ([' '] ++ ·) := by
  induction ws generalizing w with
  | nil => rw [List.intercalate_singleton, List.flatMap_nil, List.append_nil]
  | cons w' ws ih => rw [List.intercalate_cons_cons, ih, List.flatMap_cons, List.append_assoc, List.append_assoc]

theorem chars_spaced (bs : List Block) : (spaced bs).chars = [' '].intercalate (bs.map (·.word)) := by
  cases bs with
  | nil => rfl
  | cons b bs =>
    rw [List.map_cons, intercalate_cons, List.flatMap_map]
    unfold spaced chars
    rw [List.flatMap_cons, List.flatMap_map, List.append_nil]
    rfl

end Rendering

theorem Draft.lexemes_ofText {text : String} {ls : List Lexeme}
    (h : tokenize (Text.normalize text) = .ok ls) : (Draft.ofText text).lexemes.toList = ls := by
  rw [tokenize_eq_ok_iff] at h
  unfold ofText
  simp only [h, Piece.lexemes_map]

namespace Text.Reads

variable {text : String} {ts : List Token}

theorem ofText (h : Reads text ts)
    : (Draft.ofText text).tokens = ts ∧ (Parsed.ofText text).tokens = ts ∧
        ∀ x ∈ (Parsed.ofText text).diagnostics, x.code ≠ some .unrecognizedToken := by
  obtain ⟨ls, htokenize, rfl⟩ := h
  have hlexemes := Draft.lexemes_ofText htokenize
  rw [tokenize_eq_ok_iff] at htokenize
  have hnil : Piece.diagnostics 0 (Piece.ofText (Text.normalize text)) = [] := by
    rw [Piece.diagnostics_eq_nil_iff, htokenize, Piece.lexemes_map]
  refine ⟨?_, ?_, ?_⟩
  . unfold Draft.tokens
    rw [hlexemes]
  . unfold Parsed.tokens
    rw [Parsed.ofText_eq, hlexemes]
  . intro x hx hcode
    rw [Parsed.ofText_eq, hnil, List.nil_append, List.mem_append] at hx
    have hstructural : x.IsStructural := by
      cases hx with
      | inl hx => exact Draft.reports_isStructural _ _ x hx
      | inr hx => exact Draft.problems_isStructural _ x hx
    obtain ⟨_, code, hcode', hstructural⟩ := hstructural
    rw [hcode, Option.some.injEq] at hcode'
    rw [← hcode'] at hstructural
    contradiction

theorem exists_parse_iff (h : Reads text ts) : (∃ p, parse text = .ok p) ↔ ∀ code i, ¬Fault ts code i := by
  obtain ⟨_, htokens, hrecognized⟩ := h.ofText
  rw [Parsed.exists_parse_iff, htokens]
  exact and_iff_right hrecognized

end Text.Reads

theorem tokenize_of_parse {text : String} {p : Parsed} (h : parse text = .ok p)
    : tokenize (Text.normalize text) = .ok p.lexemes := by
  obtain ⟨hp, hnil⟩ := parse_eq_ok_iff.mp h
  rw [hp, Parsed.ofText_eq] at hnil
  simp only [List.append_eq_nil_iff] at hnil
  have hpieces := Piece.diagnostics_eq_nil_iff.mp hnil.left.left
  rw [tokenize_eq_ok_iff, hp, Parsed.ofText_eq]
  exact hpieces

theorem reads_of_parse {text : String} {p : Parsed} (h : parse text = .ok p) : Text.Reads text p.tokens :=
  ⟨p.lexemes, tokenize_of_parse h, rfl⟩

namespace Draft

variable {d d' : Draft}

theorem Renames.of_tokens_eq (h : d'.tokens = d.tokens) : Renames id d d' := by
  unfold Renames
  rw [h]
  exact List.forall₂_same.mpr fun t _ => .id_refl t

theorem layout_eq_of_words
    (h : d'.lexemes.toList.map (fun l => (l.token, l.text)) = d.lexemes.toList.map fun l => (l.token, l.text))
    : { d'.layout with source := d.source } = d.layout := by
  have htokens : d'.tokens = d.tokens := map_comp_congr Prod.fst h
  have htexts : d'.lexemes.toList.map (·.text) = d.lexemes.toList.map (·.text) := map_comp_congr Prod.snd h
  have hname : ∀ p, d'.name p = d.name p := by
    intro p
    have htext := congrArg (·[p]?) htexts
    simp only [List.getElem?_map, Array.getElem?_toList] at htext
    unfold name
    rw [htext]
  have hrenames := Renames.of_tokens_eq htokens
  have helement : ∀ p, d'.element d'.count p = d.element d.count p := by
    intro p
    rw [hrenames.element_eq, hname, Element.rename_id]
    rfl
  have hdeclarations : d'.declarations d'.size = d.declarations d.size := by
    rw [hrenames.size_eq, hrenames.declarations_eq Function.injective_id, Prod.map_id, List.map_id]
  unfold layout entries
  rw [htexts, hdeclarations, funext helement, hrenames.count_eq, hrenames.places_eq]

end Draft

namespace Rendering

theorem exists_blocks {ls : List Lexeme} (h : ∀ l ∈ ls, l.token.Spells l.text.toList)
    : ∃ bs : List Block, ls.map (fun l => (l.token, l.text)) =
        bs.map fun b => (b.token, String.ofList b.word) := by
  induction ls with
  | nil => exact ⟨[], rfl⟩
  | cons l ls ih =>
    rw [List.forall_mem_cons] at h
    obtain ⟨bs, hbs⟩ := ih h.right
    refine ⟨⟨⟨[], by simp⟩, l.token, l.text.toList, h.left⟩ :: bs, ?_⟩
    rw [List.map_cons, List.map_cons, hbs, String.ofList_toList]

theorem text_spaced (bs : List Block)
    : (spaced bs).text = " ".intercalate (bs.map fun b => String.ofList b.word) := by
  rw [← String.toList_inj, String.toList_intercalate, List.map_map]
  unfold text
  rw [String.toList_ofList, chars_spaced]
  congr 1
  apply List.map_congr_left
  intro b _
  exact String.toList_ofList.symm

theorem reads_intercalate (ts : List Token) : Text.Reads (" ".intercalate (ts.map Token.text)) ts := by
  have hreads := (spaced (ts.map (.canonical ⟨[], by simp⟩))).reads
  have htokens := map_comp_congr Prod.fst (words_spaced (ts.map (.canonical ⟨[], by simp⟩)))
  rw [text_spaced, List.map_map] at hreads
  rw [List.map_map] at htokens
  have hts : (spaced (ts.map (.canonical ⟨[], by simp⟩))).tokens = ts := htokens.trans (List.map_id ts)
  rw [hts] at hreads
  exact hreads

theorem parse_spaced {text : String} {p : Parsed} (hparse : parse text = .ok p)
    : ∃ q, parse (" ".intercalate p.automaton.tokens) = .ok q ∧
        { q.automaton with source := p.automaton.source } = p.automaton := by
  obtain ⟨_, hautomaton, hlexemes, _⟩ := wellFormed_of_parse hparse
  have hspells : ∀ l ∈ p.lexemes, l.token.Spells l.text.toList := by
    rw [hlexemes]
    exact fun l hl => Piece.spells_of_mem_lexemes hl
  obtain ⟨bs, hbs⟩ := exists_blocks hspells
  obtain ⟨ls, htokenize, hls⟩ := (spaced bs).exists_lexemes
  have hwords := map_comp_congr (Prod.map id String.ofList) (words_spaced bs)
  have hsame : ls.map (fun l => (l.token, l.text)) = p.lexemes.map fun l => (l.token, l.text) :=
    hls.trans (hwords.trans hbs.symm)
  have htext : " ".intercalate p.automaton.tokens = (spaced bs).text := by
    rw [text_spaced, hautomaton]
    unfold Draft.layout
    rw [← hlexemes]
    exact congrArg _ (map_comp_congr Prod.snd hbs)
  have hreads : Text.Reads (spaced bs).text p.tokens := ⟨ls, htokenize, map_comp_congr Prod.fst hsame⟩
  obtain ⟨q, hq⟩ := hreads.exists_parse_iff.mpr ((reads_of_parse hparse).exists_parse_iff.mp ⟨p, hparse⟩)
  obtain ⟨_, hautomaton', hlexemes', _⟩ := wellFormed_of_parse hq
  refine ⟨q, by rw [htext, hq], ?_⟩
  rw [hautomaton, hautomaton']
  apply Draft.layout_eq_of_words
  rw [Draft.lexemes_ofText htokenize, ← hlexemes, hsame]

/--
How tokens are written does not matter. All renderings of tokens are read as these with nothing left over,
their automata are alike and they are accepted together. An accepted scheme comes back when its words are
written with single spaces between them.
-/
theorem tokens_decide
    : (∀ w : Rendering, Text.Reads w.text w.tokens ∧ (Parsed.ofText w.text).tokens = w.tokens ∧
        ∀ x ∈ (Parsed.ofText w.text).diagnostics, x.code ≠ some .unrecognizedToken) ∧
      (∀ w w' : Rendering, w.tokens = w'.tokens →
        (Parsed.ofText w.text).automaton.Alike (Parsed.ofText w'.text).automaton ∧
        ((∃ p, parse w.text = .ok p) ↔ ∃ p, parse w'.text = .ok p)) ∧
      (∀ (text : String) (p : Parsed), parse text = .ok p →
        ∃ q, parse (" ".intercalate p.automaton.tokens) = .ok q ∧
          { q.automaton with source := p.automaton.source } = p.automaton) := by
  refine ⟨fun w => ⟨w.reads, w.reads.ofText.right⟩, ?_, fun text p => parse_spaced⟩
  intro w w' h
  have hreads := w.reads
  have hreads' := w'.reads
  rw [← h] at hreads'
  have htokens := hreads'.ofText.left.trans hreads.ofText.left.symm
  have hrenamed := (Draft.Renames.of_tokens_eq htokens).layout_renamed Function.injective_id
  rw [hreads.exists_parse_iff, hreads'.exists_parse_iff, Parsed.ofText_eq, Parsed.ofText_eq]
  exact ⟨hrenamed.alike, Iff.rfl⟩

def gluedRendering : Rendering :=
  { writings :=
      [⟨⟨[], by simp⟩, .start, _, .marker rfl, _, .cons .operator (.cons .start .nil)⟩,
        ⟨⟨['('], by simp [Text.isGrouping]⟩, .conditional .x 7, _,
          @Token.Spells.numbered _ 7 ['0', '7'] rfl (by simp) (List.all_eq_true.mp rfl) rfl, _,
          .cons .x (.cons (.same '0') (.cons (.same '7') .nil))⟩,
        .plain ⟨['|'], by simp [Text.isGrouping]⟩ (.canonical ⟨[], by simp⟩ (.conditionalJump 1)),
        .plain ⟨[' ', ')'], by simp [Text.isGrouping, Text.isBlank]⟩ (.canonical ⟨[], by simp⟩ (.operator 2)),
        .plain ⟨[], by simp⟩ (.canonical ⟨[], by simp⟩ (.jumpPoint 1)),
        ⟨⟨[], by simp⟩, .finish, _, .marker rfl, _, .cons (.same 'Y') (.cons .finish .nil)⟩]
    last := ⟨['\n'], by simp [Text.isBlank]⟩ }

theorem text_gluedRendering : gluedRendering.text = "yН(x07|↑1 )Y2↓1YК\n" := rfl

def plainRendering : Rendering :=
  spaced (gluedRendering.tokens.map (.canonical ⟨[], by simp⟩))

theorem text_plainRendering : plainRendering.text = "Yн X7 ↑1 Y2 ↓1 Yк" := rfl

theorem parse_gluedRendering
    : parse gluedRendering.text = .ok (Parsed.ofText gluedRendering.text) := by
  apply parse_eq_ok_iff.mpr
  refine ⟨rfl, ?_⟩
  rw [text_gluedRendering, Parsed.ofText_eq]
  decide +kernel

theorem tokens_decide_gluedRendering
    : Text.Reads "yН(x07|↑1 )Y2↓1YК\n"
          [.start, .conditional .x 7, .conditionalJump 1, .operator 2, .jumpPoint 1, .finish] ∧
        (∃ p, parse "Yн X7 ↑1 Y2 ↓1 Yк" = .ok p) ∧
        ∃ q, parse (" ".intercalate (Parsed.ofText gluedRendering.text).automaton.tokens) = .ok q ∧
          q.automaton.elements = (Parsed.ofText gluedRendering.text).automaton.elements := by
  obtain ⟨hreads, hsame, hspaced⟩ := tokens_decide
  obtain ⟨_, haccepted⟩ := hsame gluedRendering plainRendering rfl
  obtain ⟨q, hq, hautomaton⟩ := hspaced _ _ parse_gluedRendering
  have helements := congrArg Automaton.elements hautomaton
  rw [← text_gluedRendering, ← text_plainRendering]
  exact ⟨(hreads gluedRendering).left, haccepted.mp ⟨_, parse_gluedRendering⟩, q, hq, helements⟩

end Rendering

end LogicalScheme
