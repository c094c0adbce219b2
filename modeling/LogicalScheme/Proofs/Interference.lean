import LogicalScheme.Proofs.Refusals

/-!
This module contains what runs do not depend on: the values of conditions that they do not visit. A run that
succeeds finds a value at each conditional vertex on its path and sees no other values.
-/

namespace LogicalScheme

namespace Automaton

variable {a b : Automaton} {verbose : Bool} {seen : List Nat} {r : Nat} {t : Trace}

def AgreeOn (path : List ElementRef) (a b : Automaton) : Prop :=
  ∀ r ∈ path, ∀ e ∈ a.element? r, e.conditional?.isSome = true → a.value? r = b.value? r

def Completes (b a : Automaton) : Prop :=
  ∀ r value, a.value? r = some value → b.value? r = some value

/--
Both automata run along the path of the trace to its outcome. They record the same steps, whether these are
described or not.
-/
def RunAlike (t : Trace) (a b : Automaton) : Prop :=
  ∀ verbose, ∃ u, a.run verbose = .ok u ∧ b.run verbose = .ok u ∧ u.path = t.path ∧ u.outcome = t.outcome

theorem AgreeOn.value?_eq {path : List Nat} (h : AgreeOn path a b) (hreset : a.reset = b.reset)
    : ∀ r ∈ path, a.value? r = b.value? r := by
  intro r hr
  by_cases hconditional : ∃ e ∈ a.element? r, e.conditional?.isSome = true
  . obtain ⟨e, he, hc⟩ := hconditional
    exact h r hr e he hc
  . have hnot : ∀ e ∈ a.element? r, e.conditional? = none := by
      intro e he
      rw [← Option.not_isSome_iff_eq_none]
      exact fun hc => hconditional ⟨e, he, hc⟩
    rw [value?_of_not_conditional hnot, value?_of_not_conditional (not_conditional_congr hreset hnot)]

theorem exists_follow_of_runFrom (h : a.runFrom verbose seen r = .ok t)
    : ∀ p ∈ t.path, p ∈ seen ∨ ∃ next, a.follow p = .ok next := by
  fun_induction runFrom a verbose seen r generalizing t with
  | case1 seen r hseen =>
    cases h
    intro p hp
    rw [List.mem_singleton.mp hp]
    exact .inl hseen
  | case2 seen r hseen hfinish =>
    cases h
    intro p hp
    rw [List.mem_singleton.mp hp]
    exact .inr ⟨none, follow_of_isFinish hfinish⟩
  | case3 seen r hseen hfinish e hfollow => cases h
  | case4 seen r hseen hfinish hfollow =>
    cases h
    intro p hp
    rw [List.mem_singleton.mp hp]
    exact .inr ⟨none, hfollow⟩
  | case5 seen r hseen hfinish next hfollow ih =>
    obtain ⟨t', hrun, rfl⟩ := map_eq_ok_iff.mp h
    intro p hp
    cases List.mem_cons.mp hp with
    | inl heq =>
      rw [heq]
      exact .inr ⟨some next, hfollow⟩
    | inr hmem =>
      rcases ih hrun p hmem with hseen' | hnext
      . cases List.mem_cons.mp hseen' with
        | inl heq =>
          rw [heq]
          exact .inr ⟨some next, hfollow⟩
        | inr hseen' => exact .inl hseen'
      . exact .inr hnext

theorem exists_follow_of_run (h : a.run verbose = .ok t) : ∀ p ∈ t.path, ∃ next, a.follow p = .ok next := by
  unfold run at h
  split at h
  . intro p hp
    rcases exists_follow_of_runFrom h p hp with hnil | hnext
    . contradiction
    . exact hnext
  . cases h
    intro p hp
    contradiction

theorem value?_ne_none_of_follow {e : Element} {next : Option Nat} (he : a.element? r = some e)
    (hc : e.conditional?.isSome = true) (h : a.follow r = .ok next) : a.value? r ≠ none := by
  obtain ⟨c, hc⟩ := Option.isSome_iff_exists.mp hc
  intro hnone
  rw [value?_of_element? he, hc, Option.bind_some] at hnone
  cases h.symm.trans (follow_eq_error_iff.mpr ⟨e, c, he, hc, hnone, rfl⟩)

theorem Completes.agreeOn (h : Completes b a) (hrun : a.run verbose = .ok t) : AgreeOn t.path a b := by
  intro r hr e he hc
  obtain ⟨next, hfollow⟩ := exists_follow_of_run hrun r hr
  obtain ⟨value, hvalue⟩ := Option.ne_none_iff_exists'.mp (value?_ne_none_of_follow he hc hfollow)
  rw [hvalue, h r value hvalue]

theorem AgreeOn.runAlike (h : AgreeOn t.path a b) (hreset : a.reset = b.reset)
    (hrun : a.run verbose = .ok t) : RunAlike t a b := by
  intro verbose'
  obtain ⟨u, hu, hpath, houtcome⟩ := exists_run_of_run verbose' hrun
  refine ⟨u, hu, run_congr hreset hu ?_, hpath, houtcome⟩
  rw [hpath]
  exact h.value?_eq hreset

theorem agreeOn_assign {v v' : ConditionVector} {path : List Nat}
    (h : ∀ r ∈ path, ∀ e c, a.element? r = some e → e.conditional? = some c →
      v.get? c.index = v'.get? c.index)
    : AgreeOn path (a.assign v) (a.assign v') := by
  intro r hr _ _ _
  rw [value?_assign, value?_assign]
  cases he : a.element? r with
  | none => rfl
  | some e =>
    cases hc : e.conditional? with
    | none => simp [hc]
    | some c => simp [hc, h r hr e c he hc]

end Automaton

namespace Scheme

theorem runWith_eq_ok_iff {s : Scheme} {v : ConditionVector} {verbose : Bool} {t : Trace}
    (hv : v.length = s.conditionalCount)
    : (s.runWith v.text verbose).1 = .ok t ↔ (s.automaton.assign v).run verbose = .ok t := by
  have hassign : s.automaton.assignText v.text = .ok (s.automaton.assign v) := by
    unfold Automaton.assignText
    rw [show s.automaton.conditionalCount = v.length from hv.symm, ConditionVector.parse_text]
    rfl
  unfold runWith
  rw [hassign]

/--
Runs do not depend on values that they do not visit. A run that succeeds is the same under all values that
agree with its own on its path, when values are added and under every vector with the same bits for its path.
-/
theorem runs_independent (s : Scheme)
    : (∀ (s' : Scheme) verbose t, s.reset = s'.reset → s.run verbose = .ok t →
          Automaton.AgreeOn t.path s.automaton s'.automaton →
          Automaton.RunAlike t s.automaton s'.automaton) ∧
        (∀ (s' : Scheme) verbose t, s.reset = s'.reset → s.run verbose = .ok t →
          s'.automaton.Completes s.automaton → Automaton.RunAlike t s.automaton s'.automaton) ∧
        ∀ (v v' : ConditionVector) verbose t, v.length = s.conditionalCount →
          v'.length = s.conditionalCount → (s.runWith v.text verbose).1 = .ok t →
          (∀ r ∈ t.path, ∀ e c, s.automaton.element? r = some e → e.conditional? = some c →
            v.get? c.index = v'.get? c.index) →
          ∀ verbose', ∃ u, (s.runWith v.text verbose').1 = .ok u ∧
            (s.runWith v'.text verbose').1 = .ok u ∧ u.path = t.path ∧ u.outcome = t.outcome := by
  refine ⟨?_, ?_, ?_⟩
  . intro s' verbose t hreset hrun hagree
    exact hagree.runAlike (congrArg Scheme.automaton hreset) hrun
  . intro s' verbose t hreset hrun hcompletes
    exact (hcompletes.agreeOn hrun).runAlike (congrArg Scheme.automaton hreset) hrun
  . intro v v' verbose t hv hv' hrun hbits
    simp only [runWith_eq_ok_iff hv, runWith_eq_ok_iff hv'] at hrun ⊢
    have hreset : (s.automaton.assign v).reset = (s.automaton.assign v').reset := by
      rw [Automaton.reset_assign, Automaton.reset_assign]
    exact (Automaton.agreeOn_assign hbits).runAlike hreset hrun

def branchingText : String :=
  "Yн X1 ↑1 Y1 X2 ↑1 Y2 ↓1 Yк"

def halfSetScheme : Scheme :=
  { automaton := (Parsed.ofText branchingText).automaton.modify 1 (.setValue (some true))
    lexemes := (Parsed.ofText branchingText).lexemes
    maxConditionals := 20 }

theorem accepted_halfSetScheme : halfSetScheme.Accepted := by
  refine ⟨branchingText, Parsed.ofText branchingText, ?_, ?_, rfl⟩
  . apply parse_eq_ok_iff.mpr
    refine ⟨rfl, ?_⟩
    rw [Parsed.ofText_eq]
    decide +kernel
  . exact (Automaton.reset_modify_setValue ..).trans (Parsed.reset_automaton branchingText)

theorem runAlike_halfSetScheme
    : halfSetScheme.Accepted ∧ ∃ u, halfSetScheme.run true = .ok u ∧
        (halfSetScheme.automaton.modify 4 (.setValue (some false))).run true = .ok u ∧
        u.path = [0, 1, 2, 8] := by
  let s' : Scheme :=
    { halfSetScheme with automaton := halfSetScheme.automaton.modify 4 (.setValue (some false)) }
  have hreset : halfSetScheme.reset = s'.reset := by
    unfold reset
    simp only [s', Automaton.reset_modify_setValue]
  have hrun : halfSetScheme.run false =
      .ok ⟨[0, 1, 2, 8], ["Yн", "X1", "↑1", "Yк"], false, .completed⟩ := by
    unfold halfSetScheme
    rw [Parsed.ofText_eq]
    decide +kernel
  have hunset : halfSetScheme.automaton.value? 4 = none := by
    unfold halfSetScheme
    rw [Parsed.ofText_eq]
    decide +kernel
  have hcompletes : s'.automaton.Completes halfSetScheme.automaton := by
    intro r value hvalue
    have hne : r ≠ 4 := by
      intro heq
      rw [heq, hunset] at hvalue
      contradiction
    exact (Automaton.value?_modify_of_ne hne).trans hvalue
  obtain ⟨_, hcompleted, _⟩ := runs_independent halfSetScheme
  obtain ⟨u, hu, hu', hpath, _⟩ := hcompleted s' false _ hreset hrun hcompletes true
  exact ⟨accepted_halfSetScheme, u, hu, hu', hpath⟩

end Scheme

end LogicalScheme
