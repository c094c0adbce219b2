import LogicalScheme.Proofs.Order
import LogicalScheme.Proofs.Visits

/-!
This module contains the enumeration of condition vectors and the runs under them. It tries every vector of
the right length, and no values that were there before matter.
-/

namespace LogicalScheme

namespace ConditionVector

def ofMasks (mask : UInt64) (length : Nat) : Nat → List ConditionVector
  | 0 => []
  | count + 1 => ofMask mask length :: ofMasks (mask + 1) length count

theorem ofMasks_eq_map (length count m : Nat)
    : ofMasks (UInt64.ofNat m) length count =
        (List.range' m count).map fun i => ofMask (UInt64.ofNat i) length := by
  induction count generalizing m with
  | zero => rfl
  | succ count ih =>
    have hnext : UInt64.ofNat m + 1 = UInt64.ofNat (m + 1) := (UInt64.ofNat_add m 1).symm
    rw [ofMasks, hnext, ih, List.range'_succ, List.map_cons]

theorem length_of_mem_ofMasks {v : ConditionVector} {mask : UInt64} {n count : Nat}
    (h : v ∈ ofMasks mask n count) : v.length = n := by
  induction count generalizing mask with
  | zero => contradiction
  | succ count ih =>
    cases List.mem_cons.mp h with
    | inl heq =>
      rw [heq]
      exact length_ofMask mask n
    | inr hmem => exact ih hmem

def all (n : Nat) : List ConditionVector :=
  ofMasks 0 n (2 ^ n)

theorem all_eq_map (n : Nat)
    : all n = (List.range (2 ^ n)).map fun m => ofMask (UInt64.ofNat m) n := by
  rw [List.range_eq_range']
  exact ofMasks_eq_map n (2 ^ n) 0

theorem length_all (n : Nat) : (all n).length = 2 ^ n := by
  rw [all_eq_map, List.length_map, List.length_range]

theorem mem_all_iff {v : ConditionVector} {n : Nat} (hn : n ≤ 63) : v ∈ all n ↔ v.length = n := by
  constructor
  . exact length_of_mem_ofMasks
  . intro hv
    subst hv
    rw [all_eq_map, List.mem_map]
    exact ⟨v.number, List.mem_range.mpr v.number_lt, ofMask_number (Nat.le_succ_of_le hn)⟩

end ConditionVector

def Draft.trace (d : Draft) (v : ConditionVector) : Trace :=
  ((d.layout.assign v).run false).toOption.getD { verbose := false, outcome := .deadEnd }

theorem Automaton.Valued.run_assign {d : Draft} {a : Automaton} {v : ConditionVector}
    (hd : d.WellFormed) (ha : a.Valued d) (hv : v.length = d.conditionals d.size)
    : (a.assign v).run false = .ok (d.trace v) := by
  obtain ⟨t, hrun⟩ := ha.exists_run false hd hv
  have heq : d.layout.assign v = a.assign v := (valued_layout d).assign_eq hd ha hv
  unfold Draft.trace
  rw [heq, hrun]
  rfl

namespace Scheme

variable {σ : Type}

/--
Show vectors with their traces to `visit` until it stops. The result has the number of vectors that it was
shown.
-/
def sweep (visit : σ → ConditionVector → Trace → ForInStep σ) (trace : ConditionVector → Trace) (state : σ)
    : List ConditionVector → Nat × σ
  | [] => (0, state)
  | v :: vs =>
    match visit state v (trace v) with
    | .done state => (1, state)
    | .yield state =>
      let (examined, state) := sweep visit trace state vs
      (examined + 1, state)

theorem sweep_yield (f : σ → ConditionVector → Trace → σ) (trace : ConditionVector → Trace) (state : σ)
    (vs : List ConditionVector)
    : sweep (fun state v t => .yield (f state v t)) trace state vs =
        (vs.length, vs.foldl (fun state v => f state v (trace v)) state) := by
  induction vs generalizing state with
  | nil => rfl
  | cons v vs ih =>
    rw [sweep]
    simp only [ih, List.length_cons, List.foldl_cons]

theorem visitMasks_eq {d : Draft} (visit : σ → ConditionVector → Trace → ForInStep σ)
    (hd : d.WellFormed) {a : Automaton} (ha : a.Valued d) (state : σ) (mask : UInt64)
    (examined count : Nat)
    : visitMasks visit a state mask examined count =
        let swept := sweep visit d.trace state
          (ConditionVector.ofMasks mask (d.conditionals d.size) count)
        (.ok (examined + swept.1), swept.2) := by
  induction count generalizing a state mask examined with
  | zero => rfl
  | succ count ih =>
    have hlength := ConditionVector.length_ofMask mask (d.conditionals d.size)
    unfold visitMasks ConditionVector.ofMasks sweep
    simp only [ha.conditionalCount_eq, ha.run_assign hd hlength]
    cases visit state (ConditionVector.ofMask mask (d.conditionals d.size))
        (d.trace (ConditionVector.ofMask mask (d.conditionals d.size))) with
    | done state => rfl
    | yield state =>
      simp only [ih (ha.assign _)]
      rw [Nat.add_assoc, Nat.add_comm 1]

theorem conditionals_le {d : Draft} {s : Scheme} (hs : s.automaton.Valued d)
    (hlimit : s.conditionalCount ≤ s.limit) : d.conditionals d.size ≤ 63 := by
  rw [← hs.conditionalCount_eq]
  exact Nat.le_trans hlimit (Nat.min_le_right _ _)

theorem forEachVector_eq {d : Draft} {s : Scheme} (hd : d.WellFormed) (hs : s.automaton.Valued d)
    (hlimit : s.conditionalCount ≤ s.limit) (visit : σ → ConditionVector → Trace → ForInStep σ) (state : σ)
    : s.forEachVector visit state =
        let swept := sweep visit d.trace state (ConditionVector.all (d.conditionals d.size))
        (.ok swept.1, s.reset, swept.2) := by
  have hcount : s.conditionalCount = d.conditionals d.size := hs.conditionalCount_eq
  rw [hcount] at hlimit
  unfold forEachVector
  simp only [hcount, if_neg (Nat.not_lt_of_le hlimit), visitMasks_eq visit hd hs]
  rw [Nat.zero_add]
  rfl

end Scheme

end LogicalScheme
