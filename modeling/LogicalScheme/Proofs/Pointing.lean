import LogicalScheme.Proofs.Faults
import LogicalScheme.Proofs.Reachability
import LogicalScheme.Proofs.Recovery
import LogicalScheme.Report

/-!
This module contains where diagnostics point. All their labels lie in the normalized text and end between
characters, and the first primary label is on the token at the position of the diagnostic.
-/

namespace LogicalScheme

namespace Text

theorem utf8ByteSize_ofList (cs : List Char) : (String.ofList cs).utf8ByteSize = width cs := by
  induction cs with
  | nil => rfl
  | cons c cs ih =>
    rw [String.ofList_cons, String.utf8ByteSize_append, String.utf8ByteSize_singleton, ih, width_cons]

theorem isValid_width (before after : List Char)
    : String.Pos.Raw.IsValid (String.ofList (before ++ after)) ⟨width before⟩ := by
  rw [String.Pos.Raw.isValid_iff_exists_append]
  refine ⟨String.ofList before, String.ofList after, String.ofList_append, ?_⟩
  rw [← utf8ByteSize_ofList]
  rfl

end Text

/--
A span lies in a text if it has whole characters of the text.
-/
structure Span.LiesIn (s : Span) (text : String) : Prop where
  ordered : s.start ≤ s.stop
  inside : s.stop ≤ text.utf8ByteSize
  startValid : String.Pos.Raw.IsValid text ⟨s.start⟩
  stopValid : String.Pos.Raw.IsValid text ⟨s.stop⟩

namespace Span

variable {s : Span} {text : String}

theorem Covers.liesIn {part : List Char} (h : s.Covers text.toList part) : s.LiesIn text := by
  obtain ⟨before, after, htext, hstart, hstop⟩ := h
  have hofList : text = String.ofList (before ++ part ++ after) := by
    rw [← htext, String.ofList_toList]
  have hwidth : s.stop = Text.width (before ++ part) := by
    rw [hstop, Text.width_append]
  constructor
  . omega
  . rw [hofList, Text.utf8ByteSize_ofList, Text.width_append, hwidth]
    apply Nat.le_add_right
  . rw [hofList, hstart, List.append_assoc]
    apply Text.isValid_width
  . rw [hofList, hwidth]
    apply Text.isValid_width

theorem liesIn_empty_end (text : String) : (Span.empty text.utf8ByteSize).LiesIn text := by
  have hwidth : text.utf8ByteSize = Text.width text.toList := by
    rw [← Text.utf8ByteSize_ofList, String.ofList_toList]
  have h : (Span.empty text.utf8ByteSize).Covers text.toList [] :=
    ⟨text.toList, [], by simp, hwidth, hwidth⟩
  exact h.liesIn

theorem LiesIn.start_add_length (h : s.LiesIn text) : s.start + s.length = s.stop :=
  Nat.add_sub_cancel' h.ordered

end Span

namespace Piece

variable {offset : Nat} {cs : List Char}

theorem place_of_mem_split : ∀ p ∈ split offset cs,
    ∃ part rest, Text.Place offset cs p.span.start (part ++ rest)
      ∧ p.span.stop = p.span.start + Text.width part := by
  fun_induction split offset cs with
  | case1 => simp
  | case2 offset c cs hblank ih =>
    intro p hp
    obtain ⟨part, rest, hplace, hstop⟩ := ih p hp
    exact ⟨part, rest, hplace.append [c], hstop⟩
  | case3 offset c cs hblank m hscan stop ih =>
    have htext := Token.scan?_text_append_rest hscan
    intro p hp
    cases List.mem_cons.mp hp with
    | inl heq =>
      subst heq
      exact ⟨m.text, m.rest, ⟨[], htext.symm, rfl⟩, rfl⟩
    | inr hmem =>
      obtain ⟨part, rest, hplace, hstop⟩ := ih p hmem
      rw [← htext]
      exact ⟨part, rest, hplace.append m.text, hstop⟩
  | case4 offset c cs hblank hscan r start stop ih =>
    have htext : r.lost ++ r.run ++ r.rest = c :: cs := recover_append (c :: cs)
    intro p hp
    cases List.mem_cons.mp hp with
    | inl heq =>
      subst heq
      refine ⟨r.run, r.rest, ⟨r.lost, ?_, rfl⟩, rfl⟩
      rw [← htext, List.append_assoc]
    | inr hmem =>
      obtain ⟨part, rest, hplace, hstop⟩ := ih p hmem
      rw [← htext]
      refine ⟨part, rest, Text.Place.append (r.lost ++ r.run) ?_, hstop⟩
      rw [Text.width_append, ← Nat.add_assoc]
      exact hplace

theorem liesIn_of_mem_ofText {text : String} {p : Piece} (h : p ∈ ofText text)
    : p.span.LiesIn text := by
  obtain ⟨part, rest, ⟨before, htext, hstart⟩, hstop⟩ := place_of_mem_split p h
  rw [Nat.zero_add] at hstart
  have hcovers : p.span.Covers text.toList part := by
    refine ⟨before, rest, ?_, hstart, ?_⟩
    . rw [htext, List.append_assoc]
    . rw [hstop, hstart]
  exact hcovers.liesIn

end Piece

/--
A diagnostic points at a text with some lexemes: it says at which token, all its labels are on the text
and the first primary one is on that token. Behind the last token it is at the end of the text. A run of
characters that spell no token is marked itself.
-/
structure Diagnostic.PointsInto (x : Diagnostic) (text : String) (lexemes : List Lexeme) : Prop where
  labels : ∀ l ∈ x.labels, l.span.LiesIn text
  primary : ∃ p s, x.position = some p ∧ x.primarySpan? = some s ∧
    (x.code ≠ some .unrecognizedToken →
      (∃ l, lexemes[p]? = some l ∧ s = l.span) ∨
        (p = lexemes.length ∧ s = .empty text.utf8ByteSize))

namespace Diagnostic

variable {x : Diagnostic} {text : String} {lexemes : List Lexeme}

theorem PointsInto.promote (h : x.PointsInto text lexemes) : x.promote.PointsInto text lexemes where
  labels := h.labels
  primary := h.primary

end Diagnostic

theorem Piece.pointsInto_unrecognizedAt {text : String} {span : Span} (position : Nat)
    (lexemes : List Lexeme) (h : span.LiesIn text)
    : (unrecognizedAt position span).PointsInto text lexemes where
  labels := by
    intro l hl
    rw [List.mem_singleton.mp hl]
    exact h
  primary := ⟨position, span, rfl, rfl, fun hcode => absurd rfl hcode⟩

theorem Piece.pointsInto_of_mem_diagnostics {text : String} {lexemes : List Lexeme} {pieces : List Piece}
    (hpieces : ∀ p ∈ pieces, p.span.LiesIn text) (position : Nat)
    : ∀ x ∈ diagnostics position pieces, x.PointsInto text lexemes := by
  induction pieces generalizing position with
  | nil =>
    intro x hx
    contradiction
  | cons p pieces ih =>
    have htail := ih fun q hq => hpieces q (List.mem_cons_of_mem p hq)
    cases p with
    | lexeme l => exact htail (position + 1)
    | unrecognized span =>
      intro x hx
      cases List.mem_cons.mp hx with
      | inl heq =>
        rw [heq]
        exact pointsInto_unrecognizedAt position lexemes (hpieces _ List.mem_cons_self)
      | inr hmem => exact htail position x hmem

namespace Draft

variable {d : Draft} {p q : Nat} {x : Diagnostic}

def Reads (d : Draft) : Prop :=
  ∀ (p : Nat) l, d.lexemes[p]? = some l → l.span.LiesIn d.source

theorem reads_ofText (text : String) : (ofText text).Reads := by
  intro p l hl
  have hmem : l ∈ Piece.lexemes (Piece.ofText (Text.normalize text)) :=
    List.mem_of_getElem? (i := p) (by simpa [ofText] using hl)
  exact Piece.liesIn_of_mem_ofText (Piece.mem_of_mem_lexemes hmem)

theorem Reads.span (hd : d.Reads) (p : Nat) : (d.span p).LiesIn d.source := by
  unfold Draft.span
  cases hl : d.lexemes[p]? with
  | none => exact Span.liesIn_empty_end d.source
  | some l => exact hd p l hl

theorem checks_span_eq (h : p < d.size) : Checks.span d p = d.span p := by
  unfold Checks.span Draft.span
  rw [Array.getElem?_eq_getElem h]
  rfl

theorem Reads.pointsInto (hd : d.Reads) (positions : List Nat) (hp : p ≤ d.size)
    (hposition : x.position = some p) (hprimary : x.primarySpan? = some (d.span p))
    (hlabels : x.labels.map (·.span) = positions.map d.span) : x.PointsInto d.source d.lexemes.toList where
  labels := by
    intro l hl
    have hmem : l.span ∈ positions.map d.span := by
      rw [← hlabels]
      exact List.mem_map_of_mem hl
    obtain ⟨q, _, hq⟩ := List.mem_map.mp hmem
    rw [← hq]
    exact hd.span q
  primary := by
    refine ⟨p, d.span p, hposition, hprimary, fun _ => ?_⟩
    unfold Draft.span
    cases hl : d.lexemes[p]? with
    | none =>
      have hsize : d.size ≤ p := Array.getElem?_eq_none_iff.mp hl
      exact .inr ⟨Nat.le_antisymm hp hsize, rfl⟩
    | some l => exact .inl ⟨l, by rw [Array.getElem?_toList, hl], rfl⟩

theorem Reads.pointsInto_of_checks (hd : d.Reads) {positions : List Nat}
    (hpositions : ∀ q ∈ positions, q < d.size) (hp : p ∈ positions) (hposition : x.position = some p)
    (hprimary : x.primarySpan? = some (Checks.span d p))
    (hlabels : x.labels.map (·.span) = positions.map (Checks.span d))
    : x.PointsInto d.source d.lexemes.toList := by
  -- the two spans differ behind the last token only, where no check marks anything
  have hspan : ∀ q ∈ positions, Checks.span d q = d.span q := fun q hq => checks_span_eq (hpositions q hq)
  rw [hspan p hp] at hprimary
  rw [List.map_congr_left hspan] at hlabels
  exact hd.pointsInto positions (Nat.le_of_lt (hpositions p hp)) hposition hprimary hlabels

theorem Reads.pointsInto_of_check (hd : d.Reads) (hp : p < d.size) (hposition : x.position = some p)
    (hprimary : x.primarySpan? = some (Checks.span d p))
    (hlabels : x.labels.map (·.span) = [Checks.span d p]) : x.PointsInto d.source d.lexemes.toList := by
  have hpositions : ∀ q ∈ [p], q < d.size := by simpa using hp
  exact hd.pointsInto_of_checks hpositions List.mem_cons_self hposition hprimary hlabels

theorem branchStart_le_size (hp : p < d.size) : d.branchStart p ≤ d.size := by
  unfold branchStart
  split
  . next h =>
    obtain ⟨t, ht, _⟩ := (Option.any_eq_true ..).mp h
    have hlt := d.lt_size_of_token? ht
    omega
  . exact hp

theorem position_lt_size {e : Element} (he : e ∈ d.layout.elements.toList) (hkind : e.kind ≠ .start)
    : e.position < d.size := by
  unfold layout entries at he
  cases List.mem_cons.mp he with
  | inl heq =>
    rw [heq] at hkind
    contradiction
  | inr hmem =>
    obtain ⟨p, hp, rfl⟩ := List.mem_map.mp hmem
    exact lt_size_of_makes (List.mem_filter.mp hp).right

section Reads

variable (hd : d.Reads)

include hd

theorem Reads.reportsAt (hp : p < d.size)
    : ∀ x ∈ d.reportsAt p, x.PointsInto d.source d.lexemes.toList := by
  intro x hx
  unfold Draft.reportsAt at hx
  split at hx
  . obtain ⟨first, _, rfl⟩ := List.mem_map.mp hx
    exact hd.pointsInto [p, first] (Nat.le_of_lt hp) rfl rfl rfl
  . rw [List.mem_append] at hx
    unfold jumpReports branchReports at hx
    cases hx with
    | inl hx =>
      split at hx
      . contradiction
      . rw [List.mem_singleton.mp hx]
        exact hd.pointsInto [p + 1, p] hp rfl rfl rfl
    | inr hx =>
      dsimp only at hx
      split at hx
      . rw [List.mem_singleton.mp hx]
        exact hd.pointsInto [d.branchStart p, p] (branchStart_le_size hp) rfl rfl rfl
      . contradiction
  . contradiction

theorem Reads.reports : ∀ x ∈ d.reports d.size, x.PointsInto d.source d.lexemes.toList := by
  intro x hx
  unfold Draft.reports markerReports at hx
  simp only [List.mem_append, List.mem_flatMap, List.mem_range] at hx
  rcases hx with (hx | hx) | ⟨p, hp, hx⟩
  . split at hx
    . contradiction
    . rw [List.mem_singleton.mp hx]
      exact hd.pointsInto [0] (Nat.zero_le d.size) rfl rfl rfl
  . split at hx
    . contradiction
    . rw [List.mem_singleton.mp hx]
      exact hd.pointsInto [d.size] (Nat.le_refl d.size) rfl rfl rfl
  . exact hd.reportsAt hp x hx

theorem Reads.duplicates {code : Code} {what : String} {positions : List Nat}
    (hpositions : ∀ p ∈ positions, p < d.size)
    : ∀ x ∈ Checks.duplicates d code what positions, x.PointsInto d.source d.lexemes.toList := by
  intro x hx
  unfold Checks.duplicates at hx
  split at hx
  . next first second rest =>
    rw [List.mem_singleton.mp hx]
    refine hd.pointsInto_of_checks hpositions (p := second) (by simp) rfl rfl ?_
    simp only [List.map_cons, List.map_map, Label.context, Label.mark]
    rfl
  . contradiction

theorem Reads.unresolvedJumps
    : ∀ x ∈ Checks.unresolvedJumps d d.layout, x.PointsInto d.source d.lexemes.toList := by
  intro x hx
  obtain ⟨e, he, hreport⟩ := List.mem_filterMap.mp hx
  split at hreport
  . next index hindex =>
    split at hreport
    . cases hreport
      have hkind : e.kind ≠ .start := by
        intro heq
        simp [Element.jumpTarget?, heq] at hindex
      exact hd.pointsInto_of_check (position_lt_size he hkind) rfl rfl rfl
    . contradiction
  . contradiction

theorem Reads.strayPoint {r : ElementRef} (hr : r ∈ Checks.danglingPoints d.layout)
    : (d.strayPoint r).PointsInto d.source d.lexemes.toList := by
  obtain ⟨e, index, he, hkind, _⟩ := mem_danglingPoints_iff.mp hr
  have hmem : e ∈ d.layout.elements.toList := Array.mem_toList_iff.mpr (Array.mem_of_getElem? he)
  have hposition : d.layout.position r = e.position := by
    unfold Automaton.position
    rw [he]
    rfl
  have hp : d.layout.position r < d.size := by
    rw [hposition]
    exact position_lt_size hmem (by simp [hkind])
  exact hd.pointsInto_of_check hp rfl rfl rfl

theorem Reads.incompleteConditionals
    : ∀ x ∈ Checks.incompleteConditionals d d.layout, x.PointsInto d.source d.lexemes.toList := by
  intro x hx
  obtain ⟨e, he, hreport⟩ := List.mem_filterMap.mp hx
  obtain ⟨missing, hmissing, rfl⟩ := Option.map_eq_some_iff.mp hreport
  have hkind : e.kind ≠ .start := by
    intro heq
    simp [Element.conditional?, Kind.conditional?, heq] at hmissing
  exact hd.pointsInto_of_check (position_lt_size he hkind) rfl rfl rfl

theorem Reads.problems : ∀ x ∈ d.problems, x.PointsInto d.source d.lexemes.toList := by
  intro x hx
  unfold Draft.problems at hx
  simp only [List.mem_append, List.mem_map] at hx
  rcases hx with (((hx | hx) | hx) | ⟨r, hr, rfl⟩) | hx
  . refine hd.duplicates ?_ x hx
    intro p hp
    exact List.mem_range.mp (List.mem_filter.mp hp).left
  . refine hd.duplicates ?_ x hx
    intro p hp
    rw [finishPositions_layout] at hp
    exact List.mem_range.mp (List.mem_filter.mp hp).left
  . exact hd.unresolvedJumps x hx
  . exact hd.strayPoint hr
  . exact hd.incompleteConditionals x hx

end Reads

end Draft

namespace Parsed

variable {text : String} {x : Diagnostic}

theorem pointsInto_ofText (hx : x ∈ (ofText text).diagnostics)
    : x.PointsInto (Text.normalize text) (ofText text).lexemes := by
  have hd := Draft.reads_ofText text
  rw [ofText_eq] at hx ⊢
  simp only [List.mem_append] at hx
  rcases hx with (hx | hx) | hx
  . refine Piece.pointsInto_of_mem_diagnostics ?_ 0 x hx
    intro p hp
    exact Piece.liesIn_of_mem_ofText hp
  . exact hd.reports x hx
  . exact hd.problems x hx

end Parsed

theorem eq_ofDiagnostics_of_parse {text : String} {m : Malformed} (h : parse text = .error m)
    : m = .ofDiagnostics (Parsed.ofText text).diagnostics := by
  unfold parse Parsed.accept at h
  split at h
  . cases h
    rfl
  . contradiction

theorem pointsInto_ofDiagnostics {text : String} {ds : List Diagnostic} {lexemes : List Lexeme}
    (h : ∀ x ∈ ds, x.PointsInto text lexemes)
    : ∀ x ∈ (Malformed.ofDiagnostics ds).diagnostics, x.PointsInto text lexemes := by
  intro x hx
  exact h x (List.mem_mergeSort.mp hx)

/--
A report shows a text, and every label that it has can be cut out of that text by its offset and its length.
-/
structure Report.Shows (r : Report) (text : String) : Prop where
  source : r.source = some text
  labels : ∀ l ∈ r.labels, l.span.LiesIn text ∧ l.span.start + l.span.length = l.span.stop

theorem Diagnostic.PointsInto.shows {x : Diagnostic} {text : String} {lexemes : List Lexeme}
    (h : x.PointsInto text lexemes) : (Report.ofDiagnostic text x).Shows text where
  source := rfl
  labels := by
    intro l hl
    exact ⟨h.labels l hl, (h.labels l hl).start_add_length⟩

theorem Report.shows_all {m : Malformed} {text : String} {lexemes : List Lexeme}
    (h : ∀ x ∈ m.diagnostics, x.PointsInto text lexemes)
    : ∀ r ∈ all (.malformed m text), r.Shows text := by
  intro r hr
  obtain ⟨x, hx, rfl⟩ := List.mem_map.mp hr
  exact (h x hx).shows

theorem pointsInto_of_parse_eq_error {text : String} {m : Malformed} (h : parse text = .error m)
    : ∀ x ∈ m.diagnostics, x.PointsInto (Text.normalize text) (Parsed.ofText text).lexemes := by
  rw [eq_ofDiagnostics_of_parse h]
  exact pointsInto_ofDiagnostics fun x => Parsed.pointsInto_ofText

namespace Scheme

variable {s : Scheme} {p : Parsed} {text : String}

theorem Warns.pointsInto {r : ElementRef} {w : Diagnostic} (h : Warns p r w)
    (hread : ∀ l ∈ p.lexemes, l.span.LiesIn text) : w.PointsInto text p.lexemes := by
  obtain ⟨e, l, _, hl, _, _, hposition, hlabels⟩ := h
  constructor
  . intro label hlabel
    rw [hlabels, List.mem_singleton] at hlabel
    rw [hlabel]
    exact hread l (List.mem_of_getElem? hl)
  . refine ⟨e.position, l.span, hposition, ?_, fun _ => .inl ⟨l, hl, rfl⟩⟩
    unfold Diagnostic.primarySpan?
    rw [hlabels]
    rfl

theorem pointsInto_unreachableWarning (hparse : LogicalScheme.parse text = .ok p)
    (hautomaton : s.automaton = p.automaton) (hlexemes : s.lexemes = p.lexemes)
    : ∀ w ∈ s.unreachable.map s.unreachableWarning,
        w.PointsInto (Text.normalize text) (Parsed.ofText text).lexemes := by
  obtain ⟨hd, hlayout, hread, _⟩ := wellFormed_of_parse hparse
  have hs : s.automaton.Valued (Draft.ofText text) := by
    rw [hautomaton, hlayout]
    exact Automaton.valued_layout (Draft.ofText text)
  intro w hw
  obtain ⟨r, hr, rfl⟩ := List.mem_map.mp hw
  have hlt := ((mem_unreachable_iff hd hs).mp hr).left
  have hwarns := warns_unreachableWarning hd hlayout hread hautomaton hlexemes hlt
  rw [← (parse_eq_ok_iff.mp hparse).left]
  apply hwarns.pointsInto
  intro l hl
  rw [hread, List.mem_iff_getElem?] at hl
  obtain ⟨q, hq⟩ := hl
  exact Draft.reads_ofText text q l (by rw [← Array.getElem?_toList, hq])

/--
What is made of a text: it is rejected, or it is a scheme with a warning for each unreachable element, or it
is rejected for these warnings.
-/
theorem parse_cases (settings : Settings) (text : String)
    : (∃ m, LogicalScheme.parse text = .error m ∧
          parse settings text = .error (.malformed m (Text.normalize text))) ∨
        ∃ p s, LogicalScheme.parse text = .ok p ∧ s.automaton = p.automaton ∧
          s.lexemes = p.lexemes ∧ s.warnings = s.unreachable.map s.unreachableWarning ∧
          (parse settings text = .ok s ∨
            parse settings text = .error (.malformed (.ofDiagnostics (s.warnings.map (·.promote)))
              (Text.normalize text))) := by
  cases hparse : LogicalScheme.parse text with
  | error m =>
    refine .inl ⟨m, rfl, ?_⟩
    unfold parse
    rw [hparse]
  | ok p =>
    obtain ⟨s, hautomaton, hlexemes, hwarnings, hparsed⟩ := parse_eq hparse settings
    refine .inr ⟨p, s, rfl, hautomaton, hlexemes, hwarnings, ?_⟩
    split at hparsed
    . exact .inr hparsed
    . exact .inl hparsed

/--
All diagnostics of a text, whichever way they are handed out, point into its normal form. What is reported
to the user is that text with labels that can be cut out of it.
-/
theorem diagnostics_pointInto (text : String) (settings : Settings)
    : let source := Text.normalize text
      let lexemes := (Parsed.ofText text).lexemes
      (∀ x ∈ (Parsed.ofText text).diagnostics, x.PointsInto source lexemes) ∧
        (∀ p, LogicalScheme.parse text = .ok p → ∀ x ∈ p.diagnostics, x.PointsInto source lexemes) ∧
        (∀ m, LogicalScheme.parse text = .error m →
          ∀ x ∈ m.diagnostics, x.PointsInto source lexemes) ∧
        (∀ s, parse settings text = .ok s → ∀ x ∈ s.warnings,
          x.PointsInto source lexemes ∧ (Report.ofDiagnostic s.automaton.source x).Shows source) ∧
        ∀ f, parse settings text = .error f → ∃ m, f = .malformed m source ∧
          (∀ x ∈ m.diagnostics, x.PointsInto source lexemes) ∧
          ∀ r ∈ Report.all f, r.Shows source := by
  intro source lexemes
  refine ⟨fun x => Parsed.pointsInto_ofText, ?_, fun m => pointsInto_of_parse_eq_error, ?_⟩
  . intro p hp
    rw [(parse_eq_ok_iff.mp hp).left]
    exact fun x => Parsed.pointsInto_ofText
  rcases parse_cases settings text with ⟨m, hm, hparsed⟩ | ⟨p, s, hp, hautomaton, hlexemes, hwarnings, hparsed⟩
  . have hpoint := pointsInto_of_parse_eq_error hm
    rw [hparsed]
    refine ⟨by simp, ?_⟩
    intro f hf
    cases hf
    exact ⟨m, rfl, hpoint, Report.shows_all hpoint⟩
  . have hpoint := pointsInto_unreachableWarning hp hautomaton hlexemes
    rw [← hwarnings] at hpoint
    have hsource : s.automaton.source = source := by
      rw [hautomaton, (parse_eq_ok_iff.mp hp).left, Parsed.ofText_eq]
      rfl
    rcases hparsed with hparsed | hparsed
    . rw [hparsed]
      refine ⟨?_, by simp⟩
      intro s' hs' x hx
      cases hs'
      rw [hsource]
      exact ⟨hpoint x hx, (hpoint x hx).shows⟩
    . have hpromoted : ∀ x ∈ (Malformed.ofDiagnostics (s.warnings.map (·.promote))).diagnostics,
          x.PointsInto source lexemes := by
        apply pointsInto_ofDiagnostics
        intro x hx
        obtain ⟨w, hw, rfl⟩ := List.mem_map.mp hx
        exact (hpoint w hw).promote
      rw [hparsed]
      refine ⟨by simp, ?_⟩
      intro f hf
      cases hf
      exact ⟨_, rfl, hpromoted, Report.shows_all hpromoted⟩

end Scheme

end LogicalScheme
