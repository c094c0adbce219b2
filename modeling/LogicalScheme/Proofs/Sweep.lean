import LogicalScheme.Proofs.Enumeration
import LogicalScheme.Proofs.Values

/-!
This module contains what a visitor is shown by the enumeration of condition vectors. It sees all vectors in
their order, each with the trace of its run, up to the first one at which it stops.
-/

namespace LogicalScheme

namespace ConditionVector

theorem pairwise_all {n : Nat} (hn : n ≤ 63) : (all n).Pairwise fun v w => v.bits < w.bits := by
  have hnumber : ∀ m ∈ List.range (2 ^ n), (ofMask (UInt64.ofNat m) n).number = m :=
    fun m hm => number_ofMask_ofNat (Nat.le_succ_of_le hn) (List.mem_range.mp hm)
  rw [all_eq_map, List.pairwise_map]
  apply List.pairwise_lt_range.imp_of_mem
  intro m m' hm hm' hlt
  rw [bits_ofMask_lt_iff, hnumber m hm, hnumber m' hm']
  exact hlt

theorem head?_all (n : Nat) : (all n).head? = some ⟨List.replicate n false⟩ := by
  have hzero : ofMask 0 n = ⟨List.replicate n false⟩ := by simp [ofMask]
  obtain ⟨count, hcount⟩ := Nat.exists_eq_add_one.mpr (Nat.two_pow_pos n)
  rw [all, hcount, ofMasks, List.head?_cons, hzero]

end ConditionVector

def Draft.runs (d : Draft) : List (ConditionVector × Trace) :=
  (ConditionVector.all (d.conditionals d.size)).map fun v => (v, d.trace v)

theorem Draft.vectors_runs (d : Draft) : d.runs.map (·.1) = ConditionVector.all (d.conditionals d.size) := by
  unfold runs
  rw [List.map_map]
  exact List.map_id _

namespace Scheme

variable {σ : Type} {visit : σ → ConditionVector → Trace → ForInStep σ}

/--
A visitor is shown vectors with their traces one after the other and goes on after each of them.
-/
inductive GoesOn (visit : σ → ConditionVector → Trace → ForInStep σ)
    : σ → List (ConditionVector × Trace) → σ → Prop where
  | nil {state : σ} : GoesOn visit state [] state
  | cons {first next last : σ} {v : ConditionVector} {t : Trace} {shown : List (ConditionVector × Trace)}
    (hvisit : visit first v t = .yield next) (hrest : GoesOn visit next shown last)
    : GoesOn visit first ((v, t) :: shown) last

/--
A sweep that does not come to the end of the vectors stopped right behind the first vector that the visitor
stopped it at.
-/
theorem sweep_cases (visit : σ → ConditionVector → Trace → ForInStep σ) (trace : ConditionVector → Trace)
    (state : σ) (vs : List ConditionVector)
    : ((sweep visit trace state vs).1 = vs.length ∧
          GoesOn visit state (vs.map fun v => (v, trace v)) (sweep visit trace state vs).2) ∨
        ∃ before v mid, before ++ [v] <+: vs ∧ (sweep visit trace state vs).1 = before.length + 1 ∧
          GoesOn visit state (before.map fun v => (v, trace v)) mid ∧
          visit mid v (trace v) = .done (sweep visit trace state vs).2 := by
  induction vs generalizing state with
  | nil => exact .inl ⟨rfl, .nil⟩
  | cons v vs ih =>
    rw [sweep]
    cases hvisit : visit state v (trace v) with
    | done last => exact .inr ⟨[], v, state, ⟨vs, rfl⟩, rfl, .nil, hvisit⟩
    | yield next =>
      rcases ih next with ⟨hlength, hgoes⟩ | ⟨before, w, mid, hprefix, hlength, hgoes, hdone⟩
      . refine .inl ⟨?_, .cons hvisit hgoes⟩
        simp only [hlength, List.length_cons]
      . refine .inr ⟨v :: before, w, mid, ?_, ?_, .cons hvisit hgoes, hdone⟩
        . rw [List.cons_append, List.cons_prefix_cons]
          exact ⟨rfl, hprefix⟩
        . simp only [hlength, List.length_cons]

/--
A visitor is shown the runs under all vectors in lexicographic order until it stops or there are no more, and
the conditions have no values afterwards. No values that were there before matter.
-/
theorem forEachVector_exact {s : Scheme} (hs : s.Accepted) (hlimit : s.conditionalCount ≤ s.limit)
    : ∃ runs : List (ConditionVector × Trace), runs.length = 2 ^ s.conditionalCount ∧
        (runs.Pairwise fun x y => x.1.bits < y.1.bits) ∧
        (∀ v, v ∈ runs.map (·.1) ↔ v.length = s.conditionalCount) ∧
        (runs.map (·.1)).head? = some ⟨List.replicate s.conditionalCount false⟩ ∧
        (∀ x ∈ runs, (s.runWith x.1.text false).1 = .ok x.2) ∧
        (∀ r, s.reset.automaton.value? r = none) ∧
        ∀ {σ : Type} (visit : σ → ConditionVector → Trace → ForInStep σ) (state : σ),
          ∃ shown last, s.forEachVector visit state = (.ok shown, s.reset, last) ∧
            (shown = 2 ^ s.conditionalCount ∧ GoesOn visit state runs last ∨
              ∃ before v t mid, before ++ [(v, t)] <+: runs ∧ shown = before.length + 1 ∧
                GoesOn visit state before mid ∧ visit mid v t = .done last) := by
  obtain ⟨d, hd, ha, _⟩ := hs.exists_draft
  have hcount : s.conditionalCount = d.conditionals d.size := ha.conditionalCount_eq
  have hn := conditionals_le ha hlimit
  rw [hcount]
  refine ⟨d.runs, ?_, ?_, ?_, ?_, ?_, ?_, ?_⟩
  . rw [Draft.runs, List.length_map, ConditionVector.length_all]
  . rw [Draft.runs, List.pairwise_map]
    exact ConditionVector.pairwise_all hn
  . rw [d.vectors_runs]
    exact fun v => ConditionVector.mem_all_iff hn
  . rw [d.vectors_runs, ConditionVector.head?_all]
  . intro x hx
    obtain ⟨v, hv, rfl⟩ := List.mem_map.mp hx
    rw [ConditionVector.mem_all_iff hn] at hv
    rw [runWith_text ha hv, ha.run_assign hd hv]
  . exact fun r => Automaton.value?_reset s.automaton r
  . intro σ visit state
    refine ⟨_, _, forEachVector_eq hd ha hlimit visit state, ?_⟩
    rcases sweep_cases visit d.trace state (ConditionVector.all (d.conditionals d.size)) with
      ⟨hall, hgoes⟩ | ⟨before, v, mid, hprefix, hshown, hgoes, hdone⟩
    . refine .inl ⟨?_, hgoes⟩
      rw [hall, ConditionVector.length_all]
    . refine .inr ⟨before.map fun v => (v, d.trace v), v, d.trace v, mid, ?_, ?_, hgoes, hdone⟩
      . have hmap := hprefix.map fun v => (v, d.trace v)
        rw [List.map_append] at hmap
        exact hmap
      . rw [hshown, List.length_map]

theorem forEachVector_loopingScheme
    : loopingScheme.forEachVector (fun vs v _ => .done (v :: vs)) [] =
        (.ok 1, loopingScheme.reset, [⟨[false]⟩]) := by
  obtain ⟨runs, _, _, _, hhead, _, _, hvisit⟩ :=
    forEachVector_exact accepted_loopingScheme conditionalCount_loopingScheme_le
  rw [conditionalCount_loopingScheme] at hhead
  obtain ⟨shown, last, hresult, hcases⟩ := hvisit (fun vs v _ => .done (v :: vs)) []
  rw [hresult]
  rcases hcases with ⟨_, hgoes⟩ | ⟨before, v, t, mid, ⟨after, hruns⟩, hshown, hgoes, hdone⟩
  . cases hgoes with
    | nil => contradiction
    | cons hyield => contradiction
  . cases hgoes with
    | cons hyield => contradiction
    | nil =>
      rw [← hruns] at hhead
      cases hhead
      cases hdone
      rw [hshown]
      rfl

end Scheme

end LogicalScheme
