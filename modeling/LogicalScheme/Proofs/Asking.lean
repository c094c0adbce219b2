import LogicalScheme.Proofs.Numbering
import LogicalScheme.Proofs.Values
import LogicalScheme.Proofs.Visits

/-!
This module contains runs that ask for the values of conditions and their agreement with runs under a whole
vector. At each place of a run the values that were asked for are the ones of the elements that it has seen.
-/

namespace LogicalScheme

namespace Automaton

section Steps

variable {σ ε : Type} {oracle : Oracle σ ε} {verbose : Bool} {a b : Automaton} {state state' : σ}
  {seen : List Nat} {r : Nat}

theorem runAskingFrom_of_mem (h : r ∈ seen)
    : runAskingFrom oracle verbose a state seen r =
        (.ok (Trace.arrive a r { verbose, outcome := .loopDetected }), a, state) := by
  unfold runAskingFrom
  rw [dif_pos h]

theorem runAskingFrom_of_isFinish (hseen : r ∉ seen) (h : (a.element? r).any (·.isFinish) = true)
    : runAskingFrom oracle verbose a state seen r =
        (.ok (Trace.arrive a r { verbose, outcome := .completed }), a, state) := by
  unfold runAskingFrom
  rw [dif_neg hseen, if_pos h]

theorem runAskingFrom_of_follow_eq_none (hseen : r ∉ seen)
    (hfinish : ¬(a.element? r).any (·.isFinish) = true) (hask : ask oracle a state r = (.ok b, state'))
    (h : b.follow r = .ok none)
    : runAskingFrom oracle verbose a state seen r =
        (.ok (Trace.arrive a r { verbose, outcome := .deadEnd }), b, state') := by
  unfold runAskingFrom
  rw [dif_neg hseen, if_neg hfinish]
  split
  . next e _ herror => cases herror.symm.trans hask
  . next b' _ hok =>
    cases hok.symm.trans hask
    split
    . next e herror => cases herror.symm.trans h
    . rfl
    . next next hnext => cases hnext.symm.trans h

theorem runAskingFrom_of_follow_eq_some {next : Nat} (hseen : r ∉ seen)
    (hfinish : ¬(a.element? r).any (·.isFinish) = true) (hask : ask oracle a state r = (.ok b, state'))
    (h : b.follow r = .ok (some next))
    : runAskingFrom oracle verbose a state seen r =
        let rest := runAskingFrom oracle verbose b state' (r :: seen) next
        (rest.1.map (Trace.arrive a r), rest.2) := by
  rw [runAskingFrom, dif_neg hseen, if_neg hfinish]
  split
  . next e _ herror => cases herror.symm.trans hask
  . next b' _ hok =>
    cases hok.symm.trans hask
    split
    . next e herror => cases herror.symm.trans h
    . next hnone => cases hnone.symm.trans h
    . next next' hnext =>
      cases hnext.symm.trans h
      rfl

theorem runAskingFrom_of_ask_eq_error {e : Interruption ε} (hseen : r ∉ seen)
    (hfinish : ¬(a.element? r).any (·.isFinish) = true) (hask : ask oracle a state r = (.error e, state'))
    : runAskingFrom oracle verbose a state seen r = (.error e, a, state') := by
  unfold runAskingFrom
  rw [dif_neg hseen, if_neg hfinish]
  split
  . next e' _ herror =>
    cases herror.symm.trans hask
    rfl
  . next b' _ hok => cases hok.symm.trans hask

theorem runAskingFrom_of_follow_eq_error {e : UsageError} (hseen : r ∉ seen)
    (hfinish : ¬(a.element? r).any (·.isFinish) = true) (hask : ask oracle a state r = (.ok b, state'))
    (h : b.follow r = .error e)
    : runAskingFrom oracle verbose a state seen r = (.error (.usage e), b, state') := by
  unfold runAskingFrom
  rw [dif_neg hseen, if_neg hfinish]
  split
  . next e _ herror => cases herror.symm.trans hask
  . next b' _ hok =>
    cases hok.symm.trans hask
    split
    . next e' herror =>
      cases herror.symm.trans h
      rfl
    . next hnone => cases hnone.symm.trans h
    . next next' hnext => cases hnext.symm.trans h

theorem ask_of_conditional {e : Element} {c : Conditional} (he : a.element? r = some e)
    (hc : e.conditional? = some c) (hvalue : c.value = none)
    : ask oracle a state r =
        match oracle state e with
        | (.ok value, state) => ((a.setCondition c.index value).mapError .usage, state)
        | (.error error, state) => (.error (.oracle error), state) := by
  obtain ⟨index, value, whenTrue, whenFalse⟩ := c
  cases hvalue
  cases hresult : oracle state e with
  | mk answer state' => cases answer <;> simp only [ask, he, hc, hresult]

theorem ask_of_not_conditional (h : ∀ e ∈ a.element? r, e.conditional? = none)
    : ask oracle a state r = (.ok a, state) := by
  unfold ask
  cases he : a.element? r with
  | none => rfl
  | some e => simp only [h e he]

end Steps

/--
The values of `c` are those of `b` at the elements in `seen`, and there are no others.
-/
structure Filled (b : Automaton) (seen : List ElementRef) (c : Automaton) : Prop where
  reset : c.reset = b.reset
  known : ∀ p ∈ seen, c.value? p = b.value? p
  unknown : ∀ p, p ∉ seen → c.value? p = none

namespace Filled

variable {b c : Automaton} {seen seen' : List Nat} {r : Nat}

theorem empty (h : c.reset = b.reset) : Filled b [] c.reset where
  reset := (reset_reset c).trans h
  known := by simp
  unknown := fun p _ => value?_reset c p

theorem congr (h : Filled b seen c) (hmem : ∀ p, p ∈ seen ↔ p ∈ seen') : Filled b seen' c where
  reset := h.reset
  known := fun p hp => h.known p ((hmem p).mpr hp)
  unknown := fun p hp => h.unknown p fun hp' => hp ((hmem p).mp hp')

theorem cons_of_mem (h : Filled b seen c) (hr : r ∈ seen) : Filled b (r :: seen) c := by
  apply h.congr
  intro p
  rw [List.mem_cons]
  constructor
  . exact .inr
  . rintro (rfl | hp)
    . exact hr
    . exact hp

theorem cons_of_value?_eq_none (h : Filled b seen c) (hr : r ∉ seen) (hvalue : b.value? r = none)
    : Filled b (r :: seen) c where
  reset := h.reset
  known := by
    intro p hp
    cases List.mem_cons.mp hp with
    | inl heq => rw [heq, h.unknown r hr, hvalue]
    | inr hp => exact h.known p hp
  unknown := fun p hp => h.unknown p fun hp' => hp (List.mem_cons_of_mem r hp')

theorem cons_of_value? (h : Filled b seen c) {value : Bool}
    (hvalue : (c.modify r (.setValue (some value))).value? r = b.value? r)
    : Filled b (r :: seen) (c.modify r (.setValue (some value))) where
  reset := by rw [reset_modify_setValue, h.reset]
  known := by
    intro p hp
    by_cases heq : p = r
    . rw [heq, hvalue]
    . rw [value?_modify_of_ne heq]
      cases List.mem_cons.mp hp with
      | inl heq' => exact absurd heq' heq
      | inr hp => exact h.known p hp
  unknown := by
    intro p hp
    rw [List.mem_cons, not_or] at hp
    rw [value?_modify_of_ne hp.left]
    exact h.unknown p hp.right

theorem element?_of_mem (h : Filled b seen c) (hr : r ∈ seen) : c.element? r = b.element? r :=
  element?_congr h.reset (h.known r hr)

theorem follow_of_mem (h : Filled b seen c) (hr : r ∈ seen) : c.follow r = b.follow r :=
  follow_congr h.reset (h.known r hr)

theorem element?_of_not_mem (h : Filled b seen c) (hr : r ∉ seen)
    : c.element? r = b.reset.element? r := by
  apply element?_congr (h.reset.trans (reset_reset b).symm)
  rw [h.unknown r hr, value?_reset]

theorem stepText_eq (h : Filled b seen c) (verbose : Bool) (r : Nat)
    : c.stepText verbose r = if r ∈ seen then b.stepText verbose r else b.reset.stepText verbose r := by
  unfold stepText
  by_cases hr : r ∈ seen
  . rw [if_pos hr, h.element?_of_mem hr]
  . rw [if_neg hr, h.element?_of_not_mem hr]

end Filled

end Automaton

namespace Automaton.Valued

variable {d : Draft} {a : Automaton} {r : Nat} {l : Letter} {n : UInt32}

theorem exists_conditional (hd : d.WellFormed) (ha : a.Valued d)
    (ht : d.token? r = some (.conditional l n))
    : ∃ e c, a.element? r = some e ∧ e.conditional? = some c ∧ c.index = d.conditionals r + 1 ∧
        c.value = a.value? r := by
  have hc := hd.conditional_eq ht
  refine ⟨_, _, ha.element? hd ht, rfl, ?_, rfl⟩
  rw [hc]

theorem setCondition_eq (hd : d.WellFormed) (ha : a.Valued d) (ht : d.token? r = some (.conditional l n))
    (value : Bool)
    : a.setCondition (d.conditionals r + 1) value = .ok (a.modify r (.setValue (some value))) := by
  obtain ⟨e, c, he, hc, hindex, _⟩ := ha.exists_conditional hd ht
  have hx : (r, c) ∈ a.conditionals := mem_conditionals_iff.mpr ⟨e, he, hc⟩
  rw [← hindex]
  exact ha.numbered.setCondition_of_mem hx value

theorem not_conditional (hd : d.WellFormed) (ha : a.Valued d)
    (h : ∀ l n, d.token? r ≠ some (.conditional l n)) : ∀ e ∈ a.element? r, e.conditional? = none := by
  cases ht : d.token? r with
  | none =>
    rw [element?_eq_none]
    . simp
    . rw [ha.size hd]
      exact d.size_le_of_token? ht
  | some t =>
    rw [ha.element? hd ht]
    cases t with
    | conditional l n => exact absurd ht (h l n)
    | _ => simp [Token.kind, Element.conditional?, Kind.conditional?]

theorem token?_of_conditional {e : Element} {c : Conditional} (hd : d.WellFormed) (ha : a.Valued d)
    (he : a.element? r = some e) (hc : e.conditional? = some c)
    : ∃ l n, d.token? r = some (.conditional l n) ∧ c.index = d.conditionals r + 1 := by
  by_cases ht : ∃ l n, d.token? r = some (.conditional l n)
  . obtain ⟨l, n, ht⟩ := ht
    obtain ⟨e', c', he', hc', hindex, _⟩ := ha.exists_conditional hd ht
    cases he'.symm.trans he
    cases hc'.symm.trans hc
    exact ⟨l, n, ht, hindex⟩
  . simp only [not_exists] at ht
    rw [ha.not_conditional hd ht e he] at hc
    contradiction

theorem ask_eq {σ ε : Type} (oracle : Oracle σ ε) (state : σ) (hd : d.WellFormed) (ha : a.Valued d)
    (ht : d.token? r = some (.conditional l n)) (hvalue : a.value? r = none)
    : ∃ e c, a.element? r = some e ∧ e.conditional? = some c ∧ c.index = d.conditionals r + 1 ∧
        ask oracle a state r =
          match oracle state e with
          | (.ok value, state) => (.ok (a.modify r (.setValue (some value))), state)
          | (.error error, state) => (.error (.oracle error), state) := by
  obtain ⟨e, c, he, hc, hindex, hcvalue⟩ := ha.exists_conditional hd ht
  refine ⟨e, c, he, hc, hindex, ?_⟩
  rw [ask_of_conditional he hc (hcvalue.trans hvalue), hindex]
  simp only [ha.setCondition_eq hd ht]
  rfl

end Automaton.Valued

/--
In every state the oracle answers with the value that `answer` has for the index of the vertex.
-/
def Oracle.Answers {σ ε : Type} (oracle : Oracle σ ε) (answer : Nat → Bool) : Prop :=
  ∀ state e c, e.conditional? = some c → (oracle state e).1 = .ok (answer c.index)

def Oracle.counting (value : Bool) : Oracle Nat Empty :=
  fun asked _ => (.ok value, asked + 1)

theorem Oracle.answers_counting (value : Bool) : (Oracle.counting value).Answers fun _ => value :=
  fun _ _ _ _ => rfl

namespace Automaton

def Answered (d : Draft) (b : Automaton) (answer : Nat → Bool) : Prop :=
  ∀ r l n, d.token? r = some (.conditional l n) → b.value? r = some (answer (d.conditionals r + 1))

/--
The texts of a path where a condition shows no value at its first visit.
-/
def askedSteps (b : Automaton) (verbose : Bool) (seen : List ElementRef) : List ElementRef → List String
  | [] => []
  | r :: path =>
    (if r ∈ seen then b.stepText verbose r else b.reset.stepText verbose r) ::
      askedSteps b verbose (r :: seen) path

namespace Filled

variable {σ ε : Type} {oracle : Oracle σ ε} {answer : Nat → Bool} {d : Draft} {b c : Automaton}
  {seen : List Nat} {r : Nat}

theorem exists_ask (hd : d.WellFormed) (hb : b.Valued d) (hanswered : b.Answered d answer)
    (horacle : oracle.Answers answer) (h : Filled b seen c) (hr : r ∉ seen) (state : σ)
    : ∃ c' state', ask oracle c state r = (.ok c', state') ∧ Filled b (r :: seen) c' := by
  have hc : c.Valued d := h.reset.trans hb
  by_cases ht : ∃ l n, d.token? r = some (.conditional l n)
  . obtain ⟨l, n, ht⟩ := ht
    obtain ⟨e, k, _, hk, hindex, hask⟩ := hc.ask_eq oracle state hd ht (h.unknown r hr)
    have hanswer := horacle state e k hk
    rw [hindex] at hanswer
    generalize oracle state e = result at hask hanswer
    obtain ⟨_, state'⟩ := result
    cases hanswer
    refine ⟨_, state', hask, ?_⟩
    apply h.cons_of_value?
    rw [hc.value?_setValue hd ht, hanswered r l n ht]
  . simp only [not_exists] at ht
    refine ⟨c, state, ask_of_not_conditional (hc.not_conditional hd ht), ?_⟩
    exact h.cons_of_value?_eq_none hr (value?_of_not_conditional (hb.not_conditional hd ht))

theorem arrive_eq (h : Filled b seen c) (t : Trace)
    : Trace.arrive c r { t with steps := askedSteps b t.verbose (r :: seen) t.path } =
        { Trace.arrive b r t with steps := askedSteps b t.verbose seen (r :: t.path) } := by
  rw [askedSteps, ← h.stepText_eq]
  rfl

/--
A run that asks for the values of `b` goes where a run of `b` goes. In the end it has the values of the
elements on its path.
-/
theorem runAskingFrom_eq (hd : d.WellFormed) (hb : b.Valued d) (hanswered : b.Answered d answer)
    (horacle : oracle.Answers answer) {verbose : Bool} {t : Trace} (hrun : b.runFrom verbose seen r = .ok t)
    (h : Filled b seen c) (state : σ)
    : ∃ c' state', runAskingFrom oracle verbose c state seen r =
          (.ok { t with steps := askedSteps b verbose seen t.path }, c', state') ∧
        Filled b (t.path ++ seen) c' := by
  -- along the run of `b`, where `c` lacks the values of what is still to come
  fun_induction runFrom b verbose seen r generalizing t c state with
  | case1 seen r hseen =>
    cases hrun
    refine ⟨c, state, ?_, h.cons_of_mem hseen⟩
    rw [runAskingFrom_of_mem hseen]
    exact congrArg (fun t => (Except.ok t, c, state)) (h.arrive_eq { verbose, outcome := .loopDetected })
  | case2 seen r hseen hfinish =>
    cases hrun
    have hfinish' : (c.element? r).any (·.isFinish) = true := (any_isFinish_congr h.reset r).trans hfinish
    refine ⟨c, state, ?_, h.cons_of_value?_eq_none hseen (value?_of_isFinish hfinish)⟩
    rw [runAskingFrom_of_isFinish hseen hfinish']
    exact congrArg (fun t => (Except.ok t, c, state)) (h.arrive_eq { verbose, outcome := .completed })
  | case3 seen r hseen hfinish e hfollow => cases hrun
  | case4 seen r hseen hfinish hfollow =>
    cases hrun
    obtain ⟨c', state', hask, hfilled⟩ := h.exists_ask hd hb hanswered horacle hseen state
    have hfinish' : ¬(c.element? r).any (·.isFinish) = true := by
      rw [any_isFinish_congr h.reset]
      exact hfinish
    have hfollow' : c'.follow r = .ok none :=
      (hfilled.follow_of_mem List.mem_cons_self).trans hfollow
    refine ⟨c', state', ?_, hfilled⟩
    rw [runAskingFrom_of_follow_eq_none hseen hfinish' hask hfollow']
    exact congrArg (fun t => (Except.ok t, c', state')) (h.arrive_eq { verbose, outcome := .deadEnd })
  | case5 seen r hseen hfinish next hfollow ih =>
    obtain ⟨t, hrest, rfl⟩ := map_eq_ok_iff.mp hrun
    obtain ⟨c', state', hask, hfilled⟩ := h.exists_ask hd hb hanswered horacle hseen state
    have hfinish' : ¬(c.element? r).any (·.isFinish) = true := by
      rw [any_isFinish_congr h.reset]
      exact hfinish
    have hfollow' : c'.follow r = .ok (some next) :=
      (hfilled.follow_of_mem List.mem_cons_self).trans hfollow
    obtain ⟨c'', state'', hasking, hfilled'⟩ := ih hrest hfilled state'
    obtain ⟨rfl, _⟩ := steps_of_runFrom hrest
    refine ⟨c'', state'', ?_, ?_⟩
    . rw [runAskingFrom_of_follow_eq_some hseen hfinish' hask hfollow', hasking]
      exact congrArg (fun t => (Except.ok t, c'', state'')) (h.arrive_eq t)
    . apply hfilled'.congr
      intro p
      rw [Trace.path_arrive, List.cons_append, List.mem_append, List.mem_cons, List.mem_cons,
        List.mem_append]
      exact or_left_comm

theorem run_eq {verbose : Bool} {t : Trace} (h : Filled b t.path c) (hrun : b.run verbose = .ok t)
    : c.run verbose = .ok t :=
  run_congr h.reset.symm hrun fun p hp => (h.known p hp).symm

end Filled

theorem runAsking_eq {σ ε : Type} {oracle : Oracle σ ε} {answer : Nat → Bool} {d : Draft} {a b : Automaton}
    {verbose : Bool} {t : Trace} (hd : d.WellFormed) (hb : b.Valued d) (hanswered : b.Answered d answer)
    (horacle : oracle.Answers answer) (h : a.reset = b.reset) (hrun : b.run verbose = .ok t) (state : σ)
    : ∃ c state', runAsking oracle verbose a state =
          (.ok { t with steps := askedSteps b verbose [] t.path }, c, state') ∧ Filled b t.path c := by
  have ha : a.reset.Valued d := (reset_reset a).trans (h.trans hb)
  rw [hb.run_eq hd] at hrun
  obtain ⟨c, state', hasking, hfilled⟩ :=
    (Filled.empty h).runAskingFrom_eq hd hb hanswered horacle hrun state
  rw [List.append_nil] at hfilled
  refine ⟨c, state', ?_, hfilled⟩
  unfold runAsking
  simp only [ha.start?_eq hd, hasking]

section Texts

variable {a b : Automaton} {verbose : Bool} {seen path : List Nat} {r : Nat}

theorem length_askedSteps : (askedSteps b verbose seen path).length = path.length := by
  induction path generalizing seen with
  | nil => rfl
  | cons r path ih => rw [askedSteps, List.length_cons, ih, List.length_cons]

theorem askedSteps_getElem? {i : Nat} (h : path[i]? = some r)
    : (askedSteps b verbose seen path)[i]? =
        some (if r ∈ seen ∨ r ∈ path.take i then b.stepText verbose r else b.reset.stepText verbose r) := by
  induction path generalizing seen i with
  | nil => contradiction
  | cons q path ih =>
    cases i with
    | zero =>
      cases h
      simp [askedSteps]
    | succ i =>
      rw [List.getElem?_cons_succ] at h
      rw [askedSteps, List.getElem?_cons_succ, ih h, List.take_succ_cons]
      simp only [List.mem_cons, or_assoc, or_left_comm]

theorem stepText_reset (a : Automaton) (r : Nat) : a.reset.stepText false r = a.stepText false r := by
  unfold stepText
  rw [element?_reset]
  cases a.element? r <;> rfl

theorem askedSteps_plain : askedSteps b false seen path = path.map (b.stepText false) := by
  induction path generalizing seen with
  | nil => rfl
  | cons r path ih => rw [askedSteps, ih, stepText_reset, ite_self, List.map_cons]

theorem stepText_of_reset_eq {e : Element} (h : b.reset = a.reset) (he : a.element? r = some e)
    : b.stepText true r = (e.setValue (b.value? r)).description := by
  unfold stepText
  rw [element?_of_reset_eq h, he]
  rfl

theorem description_setValue {e : Element} {c : Conditional} (h : e.conditional? = some c)
    (value : Option Bool)
    : (e.setValue value).description =
        s!"{e.name}: condition #{c.index} = {conditionText value}" := by
  obtain ⟨name, kind, position, next⟩ := e
  cases kind with
  | conditional c' =>
    cases h
    rfl
  | _ => contradiction

theorem description_setValue_inj {e : Element} {c : Conditional} (h : e.conditional? = some c)
    (value : Bool) : (e.setValue none).description ≠ (e.setValue (some value)).description := by
  rw [description_setValue h, description_setValue h]
  intro heq
  have htext : conditionText none = conditionText (some value) := (String.append_right_inj _).mp heq
  cases value <;> contradiction

theorem stepText_of_conditional {e : Element} {c : Conditional} (h : b.reset = a.reset)
    (he : a.element? r = some e) (hc : e.conditional? = some c)
    : b.stepText true r = s!"{e.name}: condition #{c.index} = {conditionText (b.value? r)}" := by
  rw [stepText_of_reset_eq h he, description_setValue hc]

theorem askedSteps_of_first {e : Element} {c : Conditional} {i : Nat} (h : b.reset = a.reset)
    (hi : path[i]? = some r) (he : a.element? r = some e) (hc : e.conditional? = some c)
    (hfirst : r ∉ path.take i)
    : (askedSteps b true [] path)[i]? = some s!"{e.name}: condition #{c.index} = ?" := by
  rw [askedSteps_getElem? hi]
  simp only [List.not_mem_nil, false_or, if_neg hfirst]
  rw [stepText_of_conditional ((reset_reset b).trans h) he hc, value?_reset]
  exact congrArg some String.append_assoc

theorem askedSteps_ne_iff {e : Element} {i : Nat} (h : b.reset = a.reset) (hi : path[i]? = some r)
    (he : a.element? r = some e) (hvalue : e.conditional?.isSome = true → b.value? r ≠ none)
    : (askedSteps b true [] path)[i]? ≠ (path.map (b.stepText true))[i]? ↔
        e.conditional?.isSome = true ∧ r ∉ path.take i := by
  rw [askedSteps_getElem? hi, List.getElem?_map, hi, Option.map_some,
    stepText_of_reset_eq (a := a) ((reset_reset b).trans h) he, stepText_of_reset_eq h he, value?_reset]
  by_cases hseen : r ∈ path.take i
  . simp [hseen]
  . cases hc : e.conditional? with
    | none => simp [Element.setValue_of_not_conditional hc]
    | some c =>
      obtain ⟨value, hvalue⟩ := Option.ne_none_iff_exists'.mp (hvalue (by rw [hc]; rfl))
      simp [hseen, hvalue, description_setValue_inj hc value]

end Texts

end Automaton

def ConditionVector.ofAnswers (answer : Nat → Bool) (count : Nat) : ConditionVector :=
  ⟨(List.range count).map fun k => answer (k + 1)⟩

namespace ConditionVector

theorem length_ofAnswers (answer : Nat → Bool) (count : Nat) : (ofAnswers answer count).length = count := by
  simp [ofAnswers, length]

end ConditionVector

theorem Automaton.Valued.answered_assign {d : Draft} {a : Automaton} (hd : d.WellFormed) (ha : a.Valued d)
    (answer : Nat → Bool)
    : (a.assign (.ofAnswers answer (d.conditionals d.size))).Answered d answer := by
  intro r l n ht
  obtain ⟨b, hbit, hvalue⟩ := ha.value?_assign hd (ConditionVector.length_ofAnswers answer _) ht
  have hlt := d.conditionals_lt ht
  simp only [ConditionVector.ofAnswers, List.getElem?_map, List.getElem?_range hlt, Option.map_some,
    Option.some.injEq] at hbit
  rw [hvalue, hbit]

namespace Scheme

variable {σ ε : Type} {s : Scheme} {oracle : Oracle σ ε} {answer : Nat → Bool}

theorem exists_runAsking {d : Draft} (hd : d.WellFormed) (hs : s.automaton.Valued d)
    (horacle : oracle.Answers answer) (verbose : Bool) (state : σ)
    : ∃ (b : Automaton) (u : Trace) (c : Automaton) (state' : σ), b.reset = s.automaton.reset ∧
        (∀ r e k, s.automaton.element? r = some e → e.conditional? = some k →
          b.value? r = some (answer k.index)) ∧
        b.run verbose = .ok u ∧
        (s.runWith (ConditionVector.ofAnswers answer s.conditionalCount).text verbose).1 = .ok u ∧
        s.runAsking oracle verbose state =
          (.ok { u with steps := b.askedSteps verbose [] u.path }, { s with automaton := c }, state') ∧
        b.Filled u.path c := by
  have hcount : s.conditionalCount = d.conditionals d.size := hs.conditionalCount_eq
  have hanswered := hs.answered_assign hd answer
  have hlength := ConditionVector.length_ofAnswers answer (d.conditionals d.size)
  rw [hcount]
  generalize ConditionVector.ofAnswers answer (d.conditionals d.size) = v at *
  have hreset := Automaton.reset_assign s.automaton v
  obtain ⟨u, hrun⟩ := hs.exists_run verbose hd hlength
  obtain ⟨c, state', hasking, hfilled⟩ :=
    Automaton.runAsking_eq hd (hs.assign v) hanswered horacle hreset.symm hrun state
  refine ⟨s.automaton.assign v, u, c, state', hreset, ?_, hrun, ?_, ?_, hfilled⟩
  . intro r e k he hk
    obtain ⟨l, n, ht, hindex⟩ := hs.token?_of_conditional hd he hk
    rw [hanswered r l n ht, hindex]
  . rw [runWith_text hs hlength, hrun]
  . unfold runAsking
    rw [hasking]

/--
A run that asks for values is the run under the vector of the answers, whatever values there were before. Only
the first visit of each conditional vertex is described without a value. In the end the conditions on the
path have values and the others have none.
-/
theorem runAsking_agrees (hs : s.Accepted) (horacle : oracle.Answers answer) (verbose : Bool) (state : σ)
    : ∃ t u s' state', s.runAsking oracle verbose state = (.ok t, s', state') ∧
        (s.runWith (ConditionVector.ofAnswers answer s.conditionalCount).text verbose).1 = .ok u ∧
        t.path = u.path ∧ t.outcome = u.outcome ∧ (verbose = false → t.steps = u.steps) ∧
        (verbose = true → t.steps.length = t.path.length ∧ u.steps.length = t.path.length ∧
          ∀ i r, t.path[i]? = some r → ∃ e, s.automaton.element? r = some e ∧
            (t.steps[i]? ≠ u.steps[i]? ↔ e.conditional?.isSome = true ∧ r ∉ t.path.take i) ∧
            ∀ c, e.conditional? = some c →
              u.steps[i]? = some s!"{e.name}: condition #{c.index} = {conditionText (some (answer c.index))}" ∧
              (r ∉ t.path.take i → t.steps[i]? = some s!"{e.name}: condition #{c.index} = ?")) ∧
        (∀ r e c, s.automaton.element? r = some e → e.conditional? = some c →
          s'.automaton.value? r = if r ∈ t.path then some (answer c.index) else none) ∧
        s'.reset = s.reset ∧
        ∃ w, s'.run false = .ok w ∧ w.path = t.path ∧ w.outcome = t.outcome := by
  obtain ⟨d, hd, ha, _⟩ := hs.exists_draft
  obtain ⟨b, u, c, state', hreset, hvalues, hrun, hwith, hasking, hfilled⟩ :=
    exists_runAsking hd ha horacle verbose state
  obtain ⟨_, hsteps⟩ := Automaton.steps_of_run hrun
  refine ⟨_, u, _, state', hasking, hwith, rfl, rfl, ?_, ?_, ?_, ?_, ?_⟩
  . intro hplain
    rw [hsteps, hplain]
    exact Automaton.askedSteps_plain
  . intro hverbose
    rw [hsteps, hverbose]
    refine ⟨Automaton.length_askedSteps, List.length_map _, ?_⟩
    intro i r hi
    have hb : b.Valued d := hreset.trans ha
    obtain ⟨e, he⟩ := ha.exists_element hd (hb.lt_size_of_run hd hrun (List.mem_of_getElem? hi))
    refine ⟨e, he, ?_, ?_⟩
    . apply Automaton.askedSteps_ne_iff hreset hi he
      intro hconditional
      obtain ⟨k, hk⟩ := Option.isSome_iff_exists.mp hconditional
      rw [hvalues r e k he hk]
      exact Option.some_ne_none _
    . intro k hk
      rw [List.getElem?_map, hi, Option.map_some, Automaton.stepText_of_conditional hreset he hk,
        hvalues r e k he hk]
      exact ⟨rfl, Automaton.askedSteps_of_first hreset hi he hk⟩
  . intro r e k he hk
    split
    . next hr => rw [hfilled.known r hr, hvalues r e k he hk]
    . next hr => exact hfilled.unknown r hr
  . unfold reset
    simp only [hfilled.reset, hreset]
  . -- a run reads the values on its own path only
    obtain ⟨w, hw, hpath, houtcome⟩ := Automaton.exists_run_of_run false hrun
    rw [← hpath] at hfilled
    exact ⟨w, hfilled.run_eq hw, hpath, houtcome⟩

theorem runAsking_loopingScheme
    : ∃ t u s' asked, loopingScheme.runAsking (Oracle.counting true) true 0 = (.ok t, s', asked) ∧
        (loopingScheme.runWith (ConditionVector.ofAnswers (fun _ => true) 1).text true).1 = .ok u ∧
        t.path = u.path ∧ t.outcome = u.outcome ∧ s'.reset = loopingScheme.reset := by
  obtain ⟨t, u, s', asked, hasking, hwith, hpath, houtcome, _, _, _, hreset, _⟩ :=
    runAsking_agrees accepted_loopingScheme (Oracle.answers_counting true) true 0
  rw [conditionalCount_loopingScheme] at hwith
  exact ⟨t, u, s', asked, hasking, hwith, hpath, houtcome, hreset⟩

end Scheme

end LogicalScheme
