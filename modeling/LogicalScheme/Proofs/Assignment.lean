import LogicalScheme.Automaton.Call
import LogicalScheme.Proofs.Faults
import LogicalScheme.Proofs.Numbering

/-!
This module contains the calls that give values to the conditional vertices of an automaton: when they are
accepted and what is new behind them.
-/

namespace LogicalScheme

namespace Automaton

variable {a : Automaton}

/--
A call gives conditional vertices their values. It is admissible: what is assigned has a value for each vertex.
If it is `accepted`, the vertices have the values `values` behind it and nothing else is new. If it is not,
nothing is new at all.
-/
structure Sets (a : Automaton) (call : Call) (accepted : Prop) (values : List (Option Bool)) : Prop where
  admissible : call.Admissible a
  done : accepted →
    ∃ b, call.perform a = (.done, b) ∧ b.reset = a.reset ∧ a.conditionalRefs.map b.value? = values
  refused : ¬accepted → ∃ e, call.perform a = (.misused e, a)

theorem Numbered.sets_assignText (ha : a.Numbered) (bits : String)
    : a.Sets (.assignText bits)
        (bits.length = a.conditionalCount ∧ ∀ c ∈ bits.toList, c = '0' ∨ c = '1')
        (bits.toList.map fun c => some (c == '1')) := by
  have hok (v : ConditionVector) := @ConditionVector.parse_eq_ok_iff bits a.conditionalCount v
  cases hparse : ConditionVector.parse bits a.conditionalCount with
  | error e =>
    constructor
    . simp only [Call.Admissible, hparse]
    . intro hbits
      have hread := (hok ⟨bits.toList.map (· == '1')⟩).mpr ⟨hbits, rfl⟩
      rw [hparse] at hread
      contradiction
    . intro _
      refine ⟨e, ?_⟩
      simp only [Call.perform, assignText, hparse, Except.map, Call.perform.settle]
  | ok v =>
    obtain ⟨hbits, hvalues⟩ := (hok v).mp hparse
    have hlength : v.length = a.conditionalCount := by
      rw [ConditionVector.length, hvalues, List.length_map, String.length_toList, hbits.left]
    constructor
    . simp only [Call.Admissible, hparse]
      exact ha.fits hlength
    . intro _
      refine ⟨a.assign v, ?_, reset_assign a v, ?_⟩
      . simp only [Call.perform, assignText, hparse, Except.map, Call.perform.settle]
      . rw [ha.values_assign hlength, hvalues, List.map_map]
        rfl
    . intro hrefused
      exact absurd hbits hrefused

theorem Numbered.sets_setCondition (ha : a.Numbered) (k : Nat) (value : Bool)
    : a.Sets (.setCondition k value) (0 < k ∧ k ≤ a.conditionalCount) (a.values.set (k - 1) (some value)) where
  admissible := trivial
  done := by
    intro hk
    obtain ⟨x, hx, rfl⟩ := ha.mem_iff.mpr hk
    refine ⟨a.modify x.1 (.setValue (some value)), ?_, reset_modify_setValue .., ha.values_modify hx _⟩
    simp only [Call.perform, ha.setCondition_of_mem hx, Call.perform.settle]
  refused := by
    intro hk
    refine ⟨.unknownConditional k, ?_⟩
    simp only [Call.perform, ha.setCondition_eq_error hk, Call.perform.settle]

end Automaton

namespace Draft

theorem conditional?_element (d : Draft) (n p : Nat)
    : (d.element n p).conditional? = if (d.token? p).any (·.isConditional) then some (d.conditional p) else none := by
  unfold element Element.conditional? kind
  cases d.token? p with
  | none => rfl
  | some t => cases t <;> rfl

theorem positions_layout (d : Draft)
    : d.layout.conditionals.map (fun x => d.layout.position x.1) =
        (List.range d.size).filter fun p => (d.token? p).any (·.isConditional) := by
  have hposition : ∀ r e (c : Conditional), d.layout.element? r = some e → d.layout.position r = e.position := by
    intro r e c he
    unfold Automaton.position
    rw [he]
    rfl
  have hmap : d.layout.conditionals.map (fun x => d.layout.position x.1) = _ := Automaton.map_conditionals hposition
  rw [hmap, ← List.filterMap_eq_filter]
  unfold layout entries places
  rw [List.filterMap_cons_none rfl, List.filterMap_map, List.filterMap_filter]
  apply List.filterMap_congr
  intro p _
  rw [Function.comp_apply, conditional?_element]
  unfold makes Option.guard
  beta_reduce
  cases d.token? p with
  | none => rfl
  | some t => cases t <;> rfl

end Draft

namespace Parsed

/--
Values reach the right conditional vertices in the automaton of every text, accepted or not, whatever values
it has already: the vertices are numbered from 1 in the order of the text, a vector with a bit for each is
given to them in this order, and an index is that of one vertex.
-/
theorem assigns_exact (text : String)
    : let p := ofText text
      p.automaton.reset = p.automaton ∧
      ∀ a : Automaton, a.reset = p.automaton →
        (a.conditionals.map (·.2.index) = List.range' 1 a.conditionalCount ∧
          a.conditionalRefs = a.conditionals.map (·.1) ∧
          a.conditionalRefs.map a.position =
            (List.range p.tokens.length).filter fun q => p.tokens[q]?.any (·.isConditional)) ∧
        (∀ bits : String,
          a.Sets (.assignText bits)
            (bits.length = a.conditionalCount ∧ ∀ c ∈ bits.toList, c = '0' ∨ c = '1')
            (bits.toList.map fun c => some (c == '1'))) ∧
        ∀ k value,
          a.Sets (.setCondition k value) (0 < k ∧ k ≤ a.conditionalCount)
            (a.values.set (k - 1) (some value)) := by
  intro p
  refine ⟨reset_automaton text, ?_⟩
  intro a ha
  have hlayout : p.automaton = (Draft.ofText text).layout := by
    unfold p
    rw [ofText_eq]
  have htokens : p.tokens = (Draft.ofText text).tokens := by
    unfold p tokens
    rw [ofText_eq]
    rfl
  rw [hlayout] at ha
  have hnumbered : a.Numbered := Automaton.Valued.numbered ha
  have hrefs := hnumbered.conditionalRefs_eq
  refine ⟨⟨hnumbered, hrefs, ?_⟩, hnumbered.sets_assignText, hnumbered.sets_setCondition⟩
  have hpositions := (Draft.ofText text).positions_layout
  rw [← ha, Automaton.conditionals_reset, List.map_map] at hpositions
  simp only [htokens, Draft.length_tokens, Draft.tokens_getElem?, hrefs, List.map_map, ← hpositions]
  apply List.map_congr_left
  intro x _
  exact (Automaton.position_reset a x.1).symm

/--
A text without markers. Its conditional vertices have no branches, two have one name, and a run is behind them.
-/
def unfinishedText : String :=
  "P3 X3 ↑1 X3 ж"

theorem assigns_unfinishedText
    : let a := (ofText unfinishedText).automaton
      (parse unfinishedText).isOk = false ∧ a.conditionalCount = 3 ∧
        ∃ b, (Automaton.Call.assignText "101").perform a = (.done, b) ∧
          a.conditionalRefs.map b.value? = [some true, some false, some true] ∧
          (∃ e, (Automaton.Call.setCondition 4 true).perform b = (.misused e, b)) ∧
          ∃ e, (Automaton.Call.assignText "1x1").perform b = (.misused e, b) := by
  intro a
  have herror : (parse unfinishedText).isOk = false := by
    have hrun : (Piece.diagnostics 0 (Piece.ofText (Text.normalize unfinishedText))).any (·.isError) = true := by
      decide +kernel
    unfold parse accept
    rw [ofText_eq, List.any_append, List.any_append, hrun]
    rfl
  have hcount : (ofText unfinishedText).automaton.conditionalCount = 3 := by
    rw [ofText_eq]
    decide +kernel
  obtain ⟨hreset, hassigns⟩ := assigns_exact unfinishedText
  have hdigits : ∀ c ∈ "101".toList, c = '0' ∨ c = '1' := by simp
  obtain ⟨b, hperform, hb, hvalues⟩ := ((hassigns a hreset).right.left "101").done ⟨hcount.symm, hdigits⟩
  have hcount' : b.conditionalCount = 3 := by
    rw [← Automaton.conditionalCount_reset, hb, Automaton.conditionalCount_reset, hcount]
  obtain ⟨_, hbits, hset⟩ := hassigns b (hb.trans hreset)
  refine ⟨herror, hcount, b, hperform, hvalues, ?_, ?_⟩
  . exact (hset 4 true).refused (by rw [hcount']; decide)
  . exact (hbits "1x1").refused fun h => absurd (h.right 'x' (by simp)) (by decide)

end Parsed

end LogicalScheme
