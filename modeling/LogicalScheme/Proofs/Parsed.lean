import LogicalScheme.Parsed
import LogicalScheme.Proofs.Checks

/-!
This module contains what is known about the text of a scheme before and after it is accepted.
-/

namespace LogicalScheme

def Draft.ofText (text : String) : Draft :=
  let source := Text.normalize text
  { source, lexemes := (Piece.lexemes (Piece.ofText source)).toArray }

namespace Parsed

theorem ofText_eq (text : String)
    : ofText text =
        { automaton := (Draft.ofText text).layout
          lexemes := (Draft.ofText text).lexemes.toList
          diagnostics := Piece.diagnostics 0 (Piece.ofText (Text.normalize text)) ++
            (Draft.ofText text).reports (Draft.ofText text).size ++ (Draft.ofText text).problems } := by
  have hcheck := Draft.check_layout (Draft.ofText text)
  have hautomaton := Assembly.ofDraft_automaton (Draft.ofText text)
  have hdiagnostics := Assembly.ofDraft_diagnostics (Draft.ofText text)
  unfold Draft.ofText at hcheck hautomaton hdiagnostics
  unfold ofText Draft.ofText
  simp only [hautomaton, hcheck, hdiagnostics]

theorem pieces_unrecognized (pieces : List Piece) (position : Nat)
    : ∀ x ∈ Piece.diagnostics position pieces,
        x.isError = true ∧ x.code = some .unrecognizedToken := by
  induction pieces generalizing position with
  | nil =>
    intro x hx
    contradiction
  | cons piece pieces ih =>
    cases piece with
    | lexeme l => exact ih (position + 1)
    | unrecognized span =>
      intro x hx
      cases List.mem_cons.mp hx with
      | inl h =>
        rw [h]
        exact ⟨rfl, rfl⟩
      | inr h => exact ih position x h

/--
All problems of a text are errors. They are either unrecognized runs of characters or lie in the order of
tokens.
-/
theorem diagnostics_cases (text : String)
    : ∀ x ∈ (ofText text).diagnostics,
        (x.isError = true ∧ x.code = some .unrecognizedToken) ∨ x.IsStructural := by
  intro x hx
  rw [ofText_eq] at hx
  simp only [List.mem_append] at hx
  rcases hx with (hx | hx) | hx
  . exact .inl (pieces_unrecognized _ _ x hx)
  . exact .inr (Draft.reports_isStructural _ _ x hx)
  . exact .inr (Draft.problems_isStructural _ x hx)

theorem diagnostics_isError (text : String)
    : ∀ x ∈ (ofText text).diagnostics, x.isError = true := by
  intro x hx
  cases diagnostics_cases text x hx with
  | inl h => exact h.left
  | inr h => exact h.left

end Parsed

theorem parse_eq_ok_iff {text : String} {p : Parsed}
    : parse text = .ok p ↔ p = Parsed.ofText text ∧ p.diagnostics = [] := by
  unfold parse Parsed.accept
  constructor
  . intro h
    split at h
    . contradiction
    . next herrors =>
      cases h
      refine ⟨rfl, ?_⟩
      apply List.eq_nil_iff_forall_not_mem.mpr
      intro x hx
      apply herrors
      rw [List.any_eq_true]
      exact ⟨x, hx, Parsed.diagnostics_isError text x hx⟩
  . intro ⟨hp, hnil⟩
    rw [← hp, hnil]
    rfl

end LogicalScheme
