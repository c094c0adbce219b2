import LogicalScheme.Trace
import Mathlib.Data.List.Chain
import Mathlib.Data.List.Nodup

/-!
This module contains the steps of a run, one equation for each way in which a run stops or goes on. It
also contains the shape of the path of a run that has stopped.
-/

namespace LogicalScheme

section Except

variable {ε α β : Type} {f : α → β} {x : Except ε α}

theorem map_eq_ok_iff {b : β} : x.map f = .ok b ↔ ∃ a, x = .ok a ∧ f a = b := by
  cases x <;> simp [Except.map]

theorem map_eq_error_iff {e : ε} : x.map f = .error e ↔ x = .error e := by
  cases x <;> simp [Except.map]

end Except

namespace Trace

@[simp]
theorem path_arrive (a : Automaton) (r : Nat) (t : Trace) : (arrive a r t).path = r :: t.path := rfl

@[simp]
theorem outcome_arrive (a : Automaton) (r : Nat) (t : Trace)
    : (arrive a r t).outcome = t.outcome := rfl

theorem steps_arrive {a : Automaton} {r : Nat} {e : Element} {t : Trace} (h : a.element? r = some e)
    : (arrive a r t).steps = (if t.verbose then e.description else e.name.text) :: t.steps := by
  unfold arrive
  rw [h]

end Trace

section Walk

variable {α : Type} {R : α → α → Prop} {seen walk : List α} {r s : α}

theorem isChain_cons_of_head? (hr : R r s) (hstart : walk.head? = some s) (hchain : walk.IsChain R)
    : (r :: walk).IsChain R := by
  rw [List.isChain_cons]
  refine ⟨?_, hchain⟩
  intro s' hs'
  rw [hstart] at hs'
  cases hs'
  exact hr

theorem exists_head?_of_isChain_cons {last : α} (hchain : (r :: walk ++ [last]).IsChain R)
    : ∃ s, (walk ++ [last]).head? = some s ∧ R r s ∧ (walk ++ [last]).IsChain R := by
  obtain ⟨s, hs⟩ : ∃ s, (walk ++ [last]).head? = some s := by
    cases walk with
    | nil => exact ⟨last, rfl⟩
    | cons s walk => exact ⟨s, rfl⟩
  rw [List.cons_append, List.isChain_cons] at hchain
  exact ⟨s, hs, hchain.left s hs, hchain.right⟩

theorem nodup_cons_and_fresh_iff
    : ((r :: walk).Nodup ∧ ∀ w ∈ r :: walk, w ∉ seen) ↔
        r ∉ seen ∧ walk.Nodup ∧ ∀ w ∈ walk, w ∉ r :: seen := by
  rw [List.nodup_cons, List.forall_mem_cons]
  simp only [List.mem_cons, not_or]
  constructor
  . intro ⟨⟨hmem, hnodup⟩, hr, hfresh⟩
    refine ⟨hr, hnodup, ?_⟩
    intro w hw
    exact ⟨ne_of_mem_of_not_mem hw hmem, hfresh w hw⟩
  . intro ⟨hr, hnodup, hfresh⟩
    refine ⟨⟨?_, hnodup⟩, hr, fun w hw => (hfresh w hw).right⟩
    intro hmem
    exact (hfresh r hmem).left rfl

end Walk

namespace Automaton

variable {a : Automaton} {verbose : Bool} {seen : List Nat} {r : Nat}

theorem runFrom_of_mem (h : r ∈ seen)
    : a.runFrom verbose seen r = .ok (Trace.arrive a r { verbose, outcome := .loopDetected }) := by
  unfold runFrom
  rw [dif_pos h]

theorem runFrom_of_isFinish (hseen : r ∉ seen) (h : (a.element? r).any (·.isFinish) = true)
    : a.runFrom verbose seen r = .ok (Trace.arrive a r { verbose, outcome := .completed }) := by
  unfold runFrom
  rw [dif_neg hseen, if_pos h]

theorem runFrom_of_follow_eq_none (hseen : r ∉ seen)
    (hfinish : ¬(a.element? r).any (·.isFinish) = true) (h : a.follow r = .ok none)
    : a.runFrom verbose seen r = .ok (Trace.arrive a r { verbose, outcome := .deadEnd }) := by
  unfold runFrom
  rw [dif_neg hseen, if_neg hfinish]
  split
  . next e herror => cases herror.symm.trans h
  . rfl
  . next next hnext => cases hnext.symm.trans h

theorem runFrom_of_follow_eq_error {e : UsageError} (hseen : r ∉ seen)
    (hfinish : ¬(a.element? r).any (·.isFinish) = true) (h : a.follow r = .error e)
    : a.runFrom verbose seen r = .error e := by
  unfold runFrom
  rw [dif_neg hseen, if_neg hfinish]
  split
  . next e' herror =>
    cases herror.symm.trans h
    rfl
  . next hnone => cases hnone.symm.trans h
  . next next hnext => cases hnext.symm.trans h

theorem runFrom_of_follow_eq_some {next : Nat} (hseen : r ∉ seen)
    (hfinish : ¬(a.element? r).any (·.isFinish) = true) (h : a.follow r = .ok (some next))
    : a.runFrom verbose seen r = (a.runFrom verbose (r :: seen) next).map (Trace.arrive a r) := by
  rw [runFrom, dif_neg hseen, if_neg hfinish]
  split
  . next e herror => cases herror.symm.trans h
  . next hnone => cases hnone.symm.trans h
  . next next' hnext =>
    cases hnext.symm.trans h
    rfl

def stepText (a : Automaton) (verbose : Bool) (r : ElementRef) : String :=
  match a.element? r with
  | some e => if verbose then e.description else e.name.text
  | none => ""

theorem steps_of_runFrom {t : Trace} (h : a.runFrom verbose seen r = .ok t)
    : t.verbose = verbose ∧ t.steps = t.path.map (a.stepText verbose) := by
  fun_induction runFrom a verbose seen r generalizing t with
  | case1 | case2 =>
    cases h
    exact ⟨rfl, rfl⟩
  | case3 => cases h
  | case4 =>
    cases h
    exact ⟨rfl, rfl⟩
  | case5 seen r hseen hfinish next hfollow ih =>
    obtain ⟨t', hrun, rfl⟩ := map_eq_ok_iff.mp h
    obtain ⟨hverbose, hsteps⟩ := ih hrun
    refine ⟨hverbose, ?_⟩
    rw [Trace.path_arrive, List.map_cons, ← hsteps, ← hverbose]
    rfl

/--
A run that succeeds goes the same way in another automaton where control goes on alike.
-/
theorem exists_runFrom_of_follow {b : Automaton} {t : Trace} (verbose' : Bool)
    (hfinish : ∀ r, (b.element? r).any (·.isFinish) = (a.element? r).any (·.isFinish))
    (hfollow : ∀ r next, a.follow r = .ok next → b.follow r = .ok next) (h : a.runFrom verbose seen r = .ok t)
    : ∃ t', b.runFrom verbose' seen r = .ok t' ∧ t'.path = t.path ∧ t'.outcome = t.outcome := by
  fun_induction runFrom a verbose seen r generalizing t with
  | case1 seen r hseen =>
    cases h
    exact ⟨_, runFrom_of_mem hseen, rfl, rfl⟩
  | case2 seen r hseen hlast =>
    cases h
    rw [← hfinish] at hlast
    exact ⟨_, runFrom_of_isFinish hseen hlast, rfl, rfl⟩
  | case3 seen r hseen hlast e herror => cases h
  | case4 seen r hseen hlast hnone =>
    cases h
    rw [← hfinish] at hlast
    exact ⟨_, runFrom_of_follow_eq_none hseen hlast (hfollow r _ hnone), rfl, rfl⟩
  | case5 seen r hseen hlast next hnext ih =>
    obtain ⟨t, hrun, rfl⟩ := map_eq_ok_iff.mp h
    rw [← hfinish] at hlast
    obtain ⟨t', hrun', hpath, houtcome⟩ := ih hrun
    refine ⟨Trace.arrive b r t', ?_, ?_, houtcome⟩
    . rw [runFrom_of_follow_eq_some hseen hlast (hfollow r _ hnext), hrun']
      rfl
    . rw [Trace.path_arrive, hpath, Trace.path_arrive]

theorem exists_runFrom_of_runFrom {t : Trace} (verbose' : Bool) (h : a.runFrom verbose seen r = .ok t)
    : ∃ t', a.runFrom verbose' seen r = .ok t' ∧ t'.path = t.path ∧ t'.outcome = t.outcome :=
  exists_runFrom_of_follow verbose' (fun _ => rfl) (fun _ _ hnext => hnext) h

theorem steps_of_run {t : Trace} (h : a.run verbose = .ok t)
    : t.verbose = verbose ∧ t.steps = t.path.map (a.stepText verbose) := by
  unfold run at h
  split at h
  . exact steps_of_runFrom h
  . cases h
    exact ⟨rfl, rfl⟩

theorem exists_run_of_run {t : Trace} (verbose' : Bool) (h : a.run verbose = .ok t)
    : ∃ t', a.run verbose' = .ok t' ∧ t'.path = t.path ∧ t'.outcome = t.outcome := by
  unfold run at h ⊢
  split at h
  . exact exists_runFrom_of_runFrom verbose' h
  . cases h
    exact ⟨_, rfl, rfl, rfl⟩

def Goes (a : Automaton) (r s : ElementRef) : Prop :=
  a.follow r = .ok (some s)

theorem follow_of_isFinish (h : (a.element? r).any (·.isFinish) = true) : a.follow r = .ok none := by
  obtain ⟨e, he, hkind⟩ := (Option.any_eq_true ..).mp h
  have hkind : e.kind = .finish := beq_iff_eq.mp hkind
  unfold follow
  simp only [he, hkind]

theorem Goes.not_isFinish {s : Nat} (h : a.Goes r s) : ¬(a.element? r).any (·.isFinish) = true := by
  intro hfinish
  cases h.symm.trans (follow_of_isFinish hfinish)

theorem runFrom_of_goes {s : Nat} (hseen : r ∉ seen) (h : a.Goes r s)
    : a.runFrom verbose seen r = (a.runFrom verbose (r :: seen) s).map (Trace.arrive a r) :=
  runFrom_of_follow_eq_some hseen h.not_isFinish h

theorem runFrom_of_isChain {walk : List Nat} {last : Nat} {t : Trace}
    (hstart : (walk ++ [last]).head? = some r) (hchain : (walk ++ [last]).IsChain a.Goes)
    (hnodup : walk.Nodup) (hfresh : ∀ w ∈ walk, w ∉ seen)
    (hrun : a.runFrom verbose (walk.reverse ++ seen) last = .ok t)
    : ∃ t', a.runFrom verbose seen r = .ok t' ∧ t'.path = walk ++ t.path ∧ t'.outcome = t.outcome := by
  induction walk generalizing r seen with
  | nil =>
    cases hstart
    exact ⟨t, hrun, rfl, rfl⟩
  | cons w walk ih =>
    cases hstart
    obtain ⟨s, hs, hgoes, hchain⟩ := exists_head?_of_isChain_cons hchain
    obtain ⟨hw, hnodup, hfresh⟩ := nodup_cons_and_fresh_iff.mp ⟨hnodup, hfresh⟩
    have hrest : a.runFrom verbose (walk.reverse ++ w :: seen) last = .ok t := by
      rw [← hrun]
      simp
    obtain ⟨t', hrun', hpath, houtcome⟩ := ih hs hchain hnodup hfresh hrest
    refine ⟨Trace.arrive a w t', ?_, ?_, houtcome⟩
    . rw [runFrom_of_goes hw hgoes, hrun']
      rfl
    . rw [Trace.path_arrive, hpath]
      rfl

/--
The path of a run that has stopped is a walk over new elements and the element at which it stopped.
-/
structure Stopped (a : Automaton) (seen : List ElementRef) (r : ElementRef) (t : Trace)
    (walk : List ElementRef) (last : ElementRef) : Prop where
  path : t.path = walk ++ [last]
  start : (walk ++ [last]).head? = some r
  chain : (walk ++ [last]).IsChain a.Goes
  nodup : walk.Nodup
  fresh : ∀ w ∈ walk, w ∉ seen
  outcome : t.outcome = .loopDetected ↔ last ∈ walk ∨ last ∈ seen

theorem Stopped.of_last {t : Trace} (hpath : t.path = [r])
    (houtcome : t.outcome = .loopDetected ↔ r ∈ seen) : a.Stopped seen r t [] r where
  path := hpath
  start := rfl
  chain := List.isChain_singleton r
  nodup := List.nodup_nil
  fresh := by simp
  outcome := by simp [houtcome]

theorem Stopped.arrive {b : Automaton} {s : Nat} {t : Trace} {walk : List Nat} {last : Nat} (hseen : r ∉ seen)
    (hgoes : a.Goes r s) (h : a.Stopped (r :: seen) s t walk last)
    : a.Stopped seen r (Trace.arrive b r t) (r :: walk) last where
  path := by
    rw [Trace.path_arrive, h.path]
    rfl
  start := rfl
  chain := isChain_cons_of_head? hgoes h.start h.chain
  nodup := (nodup_cons_and_fresh_iff.mpr ⟨hseen, h.nodup, h.fresh⟩).left
  fresh := (nodup_cons_and_fresh_iff.mpr ⟨hseen, h.nodup, h.fresh⟩).right
  outcome := by
    rw [Trace.outcome_arrive, h.outcome, List.mem_cons, List.mem_cons]
    exact or_left_comm.trans or_assoc.symm

theorem Stopped.walk_cases {t : Trace} {walk : List Nat} {last : Nat} (h : a.Stopped [] r t walk last)
    : (t.outcome ≠ .loopDetected ∧ t.path.Nodup) ∨
        (t.outcome = .loopDetected ∧ ∃ before after, walk = before ++ last :: after) := by
  have houtcome := h.outcome
  simp only [List.not_mem_nil, or_false] at houtcome
  by_cases hlast : last ∈ walk
  . exact .inr ⟨houtcome.mpr hlast, List.append_of_mem hlast⟩
  . refine .inl ⟨fun hloop => hlast (houtcome.mp hloop), ?_⟩
    rw [h.path, ← List.concat_eq_append, List.nodup_concat]
    exact ⟨hlast, h.nodup⟩

theorem exists_stopped {t : Trace} (h : a.runFrom verbose seen r = .ok t)
    : ∃ walk last, a.Stopped seen r t walk last := by
  fun_induction runFrom a verbose seen r generalizing t with
  | case1 seen r hseen =>
    cases h
    exact ⟨[], r, .of_last rfl (by simp [hseen])⟩
  | case2 seen r hseen hfinish =>
    cases h
    exact ⟨[], r, .of_last rfl (by simp [hseen])⟩
  | case3 seen r hseen hfinish e hfollow => cases h
  | case4 seen r hseen hfinish hfollow =>
    cases h
    exact ⟨[], r, .of_last rfl (by simp [hseen])⟩
  | case5 seen r hseen hfinish next hfollow ih =>
    obtain ⟨t', hrun, rfl⟩ := map_eq_ok_iff.mp h
    obtain ⟨walk, last, hstopped⟩ := ih hrun
    exact ⟨r :: walk, last, hstopped.arrive hseen hfollow⟩

end Automaton

end LogicalScheme
