import LogicalScheme.Proofs.Interference
import LogicalScheme.Proofs.Asking
import LogicalScheme.Proofs.Outcomes

/-!
This module contains the questions of a run that asks for the values of conditions. The oracle may answer as it
likes and may fail, and what it was asked is known from an oracle that records its questions.
-/

namespace LogicalScheme

structure Question (ε : Type) where
  vertex : Element
  answer : Except ε Bool

/--
The oracle that answers as `oracle` does and keeps all its questions in order.
-/
def Oracle.recorded {σ ε : Type} (oracle : Oracle σ ε) : Oracle (σ × List (Question ε)) ε :=
  fun state e =>
    let (answer, next) := oracle state.1 e
    (answer, next, state.2 ++ [⟨e, answer⟩])

def Oracle.silent : Oracle Nat Unit :=
  fun asked _ => (.error (), asked + 1)

/--
The elements of a walk at their first visits, but for those in `seen`.
-/
def firstVisits (seen : List ElementRef) : List ElementRef → List ElementRef
  | [] => []
  | r :: walk => if r ∈ seen then firstVisits seen walk else r :: firstVisits (r :: seen) walk

theorem firstVisits_of_mem {seen : List Nat} {r : Nat} (h : r ∈ seen) : firstVisits seen [r] = [] :=
  if_pos h

theorem firstVisits_cons {seen : List Nat} {r : Nat} (h : r ∉ seen) (walk : List Nat)
    : firstVisits seen (r :: walk) = r :: firstVisits (r :: seen) walk :=
  if_neg h

theorem not_mem_of_mem_firstVisits {seen walk : List Nat} {p : Nat} (h : p ∈ firstVisits seen walk)
    : p ∉ seen := by
  induction walk generalizing seen with
  | nil => contradiction
  | cons r walk ih =>
    unfold firstVisits at h
    split at h
    . exact ih h
    . next hr =>
      cases List.mem_cons.mp h with
      | inl heq =>
        rw [heq]
        exact hr
      | inr hmem => exact fun hp => ih hmem (List.mem_cons_of_mem r hp)

theorem nodup_firstVisits (seen walk : List Nat) : (firstVisits seen walk).Nodup := by
  induction walk generalizing seen with
  | nil => exact List.nodup_nil
  | cons r walk ih =>
    unfold firstVisits
    split
    . exact ih seen
    . rw [List.nodup_cons]
      exact ⟨fun hmem => not_mem_of_mem_firstVisits hmem List.mem_cons_self, ih (r :: seen)⟩

namespace Automaton

section Recording

variable {σ ε : Type}

theorem ask_of_recorded {oracle : Oracle σ ε} {a : Automaton} {r : Nat}
    {state next : σ × List (Question ε)} {result : Except (Interruption ε) Automaton}
    (h : ask oracle.recorded a state r = (result, next)) : ask oracle a state.1 r = (result, next.1) := by
  have hsame : ask oracle a state.1 r =
      ((ask oracle.recorded a state r).1, (ask oracle.recorded a state r).2.1) := by
    unfold ask Oracle.recorded
    cases a.element? r with
    | none => rfl
    | some e =>
      dsimp only
      split
      . cases hanswer : oracle state.1 e with
        | mk answer next => cases answer <;> rfl
      . rfl
  rw [hsame, h]

theorem runAskingFrom_recorded (oracle : Oracle σ ε) (verbose : Bool) (a : Automaton)
    (state : σ × List (Question ε)) (seen : List Nat) (r : Nat)
    : runAskingFrom oracle verbose a state.1 seen r =
        ((runAskingFrom oracle.recorded verbose a state seen r).1,
          (runAskingFrom oracle.recorded verbose a state seen r).2.1,
          (runAskingFrom oracle.recorded verbose a state seen r).2.2.1) := by
  fun_induction runAskingFrom oracle.recorded verbose a state seen r with
  | case1 a state seen r hseen => rw [runAskingFrom_of_mem hseen]
  | case2 a state seen r hseen hfinish => rw [runAskingFrom_of_isFinish hseen hfinish]
  | case3 a state seen r hseen hfinish e state' hask =>
    rw [runAskingFrom_of_ask_eq_error hseen hfinish (ask_of_recorded hask)]
  | case4 a state seen r hseen hfinish b state' hask e hfollow =>
    rw [runAskingFrom_of_follow_eq_error hseen hfinish (ask_of_recorded hask) hfollow]
  | case5 a state seen r hseen hfinish b state' hask hfollow =>
    rw [runAskingFrom_of_follow_eq_none hseen hfinish (ask_of_recorded hask) hfollow]
  | case6 a state seen r hseen hfinish b state' hask next hfollow result c state'' hrest ih =>
    rw [hrest] at ih
    rw [runAskingFrom_of_follow_eq_some hseen hfinish (ask_of_recorded hask) hfollow, ih]

end Recording

def conditionalsAmong (a : Automaton) (rs : List ElementRef) : List Element :=
  (rs.filterMap a.element?).filter (·.conditional?.isSome)

theorem conditionalsAmong_cons (a : Automaton) (r : Nat) (rs : List Nat)
    : a.conditionalsAmong (r :: rs) = a.conditionalsAmong [r] ++ a.conditionalsAmong rs := by
  unfold conditionalsAmong
  rw [← List.singleton_append, List.filterMap_append, List.filter_append]

theorem mem_conditionalsAmong_iff {a : Automaton} {rs : List Nat} {e : Element}
    : e ∈ a.conditionalsAmong rs ↔ (∃ r ∈ rs, a.element? r = some e) ∧ e.conditional?.isSome = true := by
  unfold conditionalsAmong
  rw [List.mem_filter, List.mem_filterMap]

theorem conditionalsAmong_of_not_conditional {a : Automaton} {r : Nat}
    (h : ∀ e ∈ a.element? r, e.conditional? = none) : a.conditionalsAmong [r] = [] := by
  rw [List.eq_nil_iff_forall_not_mem]
  intro e he
  rw [mem_conditionalsAmong_iff] at he
  obtain ⟨⟨p, hp, he⟩, hc⟩ := he
  rw [List.mem_singleton.mp hp] at he
  rw [h e he] at hc
  contradiction

theorem conditionalsAmong_of_conditional {a : Automaton} {r : Nat} {e : Element} (he : a.element? r = some e)
    (hc : e.conditional?.isSome = true) : a.conditionalsAmong [r] = [e] := by
  unfold conditionalsAmong
  simp [he, hc]

theorem element?_reset_of_value?_eq_none {a : Automaton} {r : Nat} (h : a.value? r = none)
    : a.reset.element? r = a.element? r := by
  apply element?_congr (reset_reset a)
  rw [value?_reset, h]

theorem Valued.position_of_element? {d : Draft} {a : Automaton} {r : Nat} {e : Element} (hd : d.WellFormed)
    (ha : a.Valued d) (he : a.element? r = some e) : e.position = r := by
  have hr : r < d.size := by
    rw [← ha.size hd]
    exact lt_size_of_element? he
  rw [ha.element? hd (d.token?_of_lt hr)] at he
  cases he
  rfl

section Protocol

variable {σ ε : Type}

/--
What is asked at one element of a run whose oracle answers: nothing, or the value of a conditional vertex that
has none.
-/
inductive AsksAt (a : Automaton) (r : ElementRef) : List (Question ε) → Automaton → Prop where
  | nothing (h : ∀ e ∈ a.element? r, e.conditional? = none) : AsksAt a r [] a
  | value {e : Element} {value : Bool} (he : a.element? r = some e) (hc : e.conditional?.isSome = true)
    (hvalue : a.value? r = none) : AsksAt a r [⟨e, .ok value⟩] (a.modify r (.setValue (some value)))

namespace AsksAt

variable {d : Draft} {a b : Automaton} {r p : Nat} {asked : List (Question ε)}

theorem reset_eq (h : a.AsksAt r asked b) : b.reset = a.reset := by
  cases h with
  | nothing => rfl
  | value => exact reset_modify_setValue a r _

theorem vertices (h : a.AsksAt r asked b) : asked.map (·.vertex) = a.reset.conditionalsAmong [r] := by
  cases h with
  | nothing h =>
    have hnot := not_conditional_congr (reset_reset a).symm h
    rw [conditionalsAmong_of_not_conditional hnot]
    rfl
  | value he hc hvalue =>
    rw [← element?_reset_of_value?_eq_none hvalue] at he
    exact (conditionalsAmong_of_conditional he hc).symm

theorem answered (h : a.AsksAt r asked b) : ∀ q ∈ asked, ∃ value, q.answer = .ok value := by
  cases h with
  | nothing => simp
  | value => simp

theorem value?_of_ne (h : a.AsksAt r asked b) (hp : p ≠ r) : b.value? p = a.value? p := by
  cases h with
  | nothing => rfl
  | value => exact value?_modify_of_ne hp

theorem value?_eq_some_iff {value : Bool} (hd : d.WellFormed) (ha : a.Valued d) (h : a.AsksAt r asked b)
    (hnone : a.value? p = none)
    : b.value? p = some value ↔ ∃ q ∈ asked, q.vertex.position = p ∧ q.answer = .ok value := by
  cases h with
  | nothing => simp [hnone]
  | @value e value' he hc hvalue =>
    have hposition := ha.position_of_element? hd he
    by_cases hp : p = r
    . obtain ⟨c, hc⟩ := Option.isSome_iff_exists.mp hc
      obtain ⟨l, n, ht, _⟩ := ha.token?_of_conditional hd he hc
      rw [hp, ha.value?_setValue hd ht]
      simp [hposition]
    . rw [value?_modify_of_ne hp, hnone]
      simp [hposition, Ne.symm hp]

theorem follow_ne_error (hd : d.WellFormed) (ha : a.Valued d) (h : a.AsksAt r asked b) (error : UsageError)
    : b.follow r ≠ .error error := by
  intro hfollow
  obtain ⟨e, c, he, hc, hnone, _⟩ := follow_eq_error_iff.mp hfollow
  cases h with
  | nothing h =>
    rw [h e he] at hc
    contradiction
  | @value e' value he' hc' hvalue =>
    obtain ⟨c', hc'⟩ := Option.isSome_iff_exists.mp hc'
    obtain ⟨l, n, ht, _⟩ := ha.token?_of_conditional hd he' hc'
    have hset := ha.value?_setValue hd ht value
    rw [value?_of_element? he, hc, Option.bind_some, hnone] at hset
    contradiction

end AsksAt

section Ask

variable {d : Draft} {a b : Automaton} {r : Nat} {oracle : Oracle σ ε} {state state' : σ × List (Question ε)}

theorem Valued.ask_recorded_cases (hd : d.WellFormed) (ha : a.Valued d) (hnone : a.value? r = none)
    (oracle : Oracle σ ε) (state : σ × List (Question ε))
    : (∃ b next asked, ask oracle.recorded a state r = (.ok b, next, state.2 ++ asked) ∧
          a.AsksAt r asked b) ∨
        ∃ e error next, ask oracle.recorded a state r =
            (.error (.oracle error), next, state.2 ++ [⟨e, .error error⟩]) ∧
          a.element? r = some e ∧ e.conditional?.isSome = true := by
  by_cases ht : ∃ l n, d.token? r = some (.conditional l n)
  . obtain ⟨l, n, ht⟩ := ht
    obtain ⟨e, c, he, hc, _, hask⟩ := ha.ask_eq oracle.recorded state hd ht hnone
    have hconditional : e.conditional?.isSome = true := by
      rw [hc]
      rfl
    unfold Oracle.recorded at hask
    cases hanswer : oracle state.1 e with
    | mk answer next =>
      simp only [hanswer] at hask
      cases answer with
      | ok value => exact .inl ⟨_, next, _, hask, .value he hconditional hnone⟩
      | error error => exact .inr ⟨e, error, next, hask, he, hconditional⟩
  . simp only [not_exists] at ht
    have hnot := ha.not_conditional hd ht
    refine .inl ⟨a, state.1, [], ?_, .nothing hnot⟩
    rw [ask_of_not_conditional hnot, List.append_nil]

theorem Valued.asksAt_of_ask (hd : d.WellFormed) (ha : a.Valued d) (hnone : a.value? r = none)
    (h : ask oracle.recorded a state r = (.ok b, state'))
    : ∃ asked, state'.2 = state.2 ++ asked ∧ a.AsksAt r asked b := by
  rcases ha.ask_recorded_cases hd hnone oracle state with
    ⟨b', next, asked, hok, hat⟩ | ⟨e, error, next, herror, _⟩
  . cases hok.symm.trans h
    exact ⟨asked, rfl, hat⟩
  . cases herror.symm.trans h

theorem Valued.failure_of_ask {failure : Interruption ε} (hd : d.WellFormed) (ha : a.Valued d)
    (hnone : a.value? r = none) (h : ask oracle.recorded a state r = (.error failure, state'))
    : ∃ e error, failure = .oracle error ∧ state'.2 = state.2 ++ [⟨e, .error error⟩] ∧
        a.element? r = some e ∧ e.conditional?.isSome = true := by
  rcases ha.ask_recorded_cases hd hnone oracle state with
    ⟨b, next, asked, hok, _⟩ | ⟨e, error, next, herror, he, hc⟩
  . cases hok.symm.trans h
  . cases herror.symm.trans h
    exact ⟨e, error, rfl, rfl, he, hc⟩

end Ask

/--
How a run ended that took a walk and asked some questions. It succeeds if they all had answers. Otherwise it
ends at the vertex whose question failed, and that question is the last one.
-/
inductive Settled (a : Automaton) (walk : List ElementRef)
    : List (Question ε) → Except (Interruption ε) Trace → Prop where
  | answered {asked : List (Question ε)} {t : Trace} (hpath : t.path = walk)
    (hasked : ∀ q ∈ asked, ∃ value, q.answer = .ok value) : Settled a walk asked (.ok t)
  | failed {earlier : List (Question ε)} {q : Question ε} {error : ε}
    (hearlier : ∀ p ∈ earlier, ∃ value, p.answer = .ok value) (hanswer : q.answer = .error error)
    (hlast : walk.getLast?.bind a.element? = some q.vertex)
    : Settled a walk (earlier ++ [q]) (.error (.oracle error))

namespace Settled

variable {a b : Automaton} {walk : List Nat} {asked earlier : List (Question ε)}
  {result : Except (Interruption ε) Trace}

theorem arrive {r s : Nat} (h : Settled a walk asked result) (hstart : walk.head? = some s)
    (hearlier : ∀ q ∈ earlier, ∃ value, q.answer = .ok value)
    : Settled a (r :: walk) (earlier ++ asked) (result.map (Trace.arrive b r)) := by
  cases h with
  | answered hpath hasked =>
    refine .answered ?_ ?_
    . rw [Trace.path_arrive, hpath]
    . intro q hq
      cases List.mem_append.mp hq with
      | inl hq => exact hearlier q hq
      | inr hq => exact hasked q hq
  | @failed asked q error hasked hanswer hlast =>
    rw [← List.append_assoc]
    refine .failed ?_ hanswer ?_
    . intro p hp
      cases List.mem_append.mp hp with
      | inl hp => exact hearlier p hp
      | inr hp => exact hasked p hp
    . cases walk with
      | nil => contradiction
      | cons w walk =>
        rw [List.getLast?_cons_cons]
        exact hlast

theorem error_iff (h : Settled a walk asked result)
    : (∃ e, result = .error e) ↔ ∃ q ∈ asked, ∃ error, q.answer = .error error := by
  cases h with
  | answered _ hasked =>
    constructor
    . intro ⟨e, he⟩
      cases he
    . intro ⟨q, hq, error, herror⟩
      obtain ⟨value, hvalue⟩ := hasked q hq
      cases hvalue.symm.trans herror
  | @failed _ q error _ hanswer _ =>
    constructor
    . intro _
      exact ⟨q, by simp, error, hanswer⟩
    . intro _
      exact ⟨_, rfl⟩

end Settled

/--
Where a walk from `r` ended that has this result, if the elements in `seen` came before: where a run stops, or at
a new element whose question failed.
-/
inductive Ended (b : Automaton) (seen : List ElementRef) (r : ElementRef) (walk : List ElementRef)
    : Except (Interruption ε) Trace → Prop where
  | stopped {t : Trace} {earlier : List ElementRef} {last : ElementRef}
    (hstopped : b.Stopped seen r t earlier last) (hends : b.EndsAt last t.outcome) : Ended b seen r walk (.ok t)
  | failed {failure : Interruption ε} (hnodup : walk.Nodup) (hfresh : ∀ w ∈ walk, w ∉ seen)
    : Ended b seen r walk (.error failure)

theorem Ended.arrive {a b : Automaton} {seen walk : List Nat} {r s : Nat}
    {result : Except (Interruption ε) Trace} (hr : r ∉ seen) (hgoes : b.Goes r s)
    (h : b.Ended (r :: seen) s walk result) : b.Ended seen r (r :: walk) (result.map (Trace.arrive a r)) := by
  cases h with
  | stopped hstopped hends => exact .stopped (hstopped.arrive hr hgoes) hends
  | failed hnodup hfresh =>
    obtain ⟨hnodup, hfresh⟩ := nodup_cons_and_fresh_iff.mpr ⟨hr, hnodup, hfresh⟩
    exact .failed hnodup hfresh

/--
A run from `r`, where the elements in `seen` came before, took `walk` and asked `asked`. In the end there are
the values of `seen` and the answers.
-/
structure AsksAlong (a : Automaton) (seen : List ElementRef) (r : ElementRef) (walk : List ElementRef)
    (asked : List (Question ε)) (result : Except (Interruption ε) Trace) (b : Automaton) : Prop where
  reset : b.reset = a.reset
  start : walk.head? = some r
  chain : walk.IsChain b.Goes
  vertices : asked.map (·.vertex) = a.reset.conditionalsAmong (firstVisits seen walk)
  settled : Settled a.reset walk asked result
  ended : b.Ended seen r walk result
  kept : ∀ p ∈ seen, b.value? p = a.value? p
  values : ∀ p, p ∉ seen → ∀ value,
    b.value? p = some value ↔ ∃ q ∈ asked, q.vertex.position = p ∧ q.answer = .ok value

namespace AsksAlong

variable {d : Draft} {a b c : Automaton} {seen walk : List Nat} {r next : Nat}
  {asked earlier : List (Question ε)} {result : Except (Interruption ε) Trace} {t : Trace}

theorem of_mem (hr : r ∈ seen) (hnone : ∀ p, p ∉ seen → a.value? p = none) (hpath : t.path = [r])
    (houtcome : t.outcome = .loopDetected)
    : a.AsksAlong seen r [r] ([] : List (Question ε)) (.ok t) a where
  reset := rfl
  start := rfl
  chain := List.isChain_singleton r
  vertices := by
    rw [firstVisits_of_mem hr]
    rfl
  settled := .answered hpath (by simp)
  ended := by
    refine .stopped (.of_last hpath (by simp [houtcome, hr])) ?_
    rw [houtcome]
    trivial
  kept := fun _ _ => rfl
  values := by
    intro p hp value
    simp [hnone p hp]

theorem of_last (hd : d.WellFormed) (ha : a.Valued d) (hr : r ∉ seen)
    (hnone : ∀ p, p ∉ seen → a.value? p = none) (hask : a.AsksAt r asked b) (hpath : t.path = [r])
    (houtcome : t.outcome ≠ .loopDetected) (hends : b.EndsAt r t.outcome)
    : a.AsksAlong seen r [r] asked (.ok t) b where
  reset := hask.reset_eq
  start := rfl
  chain := List.isChain_singleton r
  vertices := by
    rw [firstVisits_cons hr]
    exact hask.vertices
  settled := .answered hpath hask.answered
  ended := .stopped (.of_last hpath (by simp [houtcome, hr])) hends
  kept := by
    intro p hp
    apply hask.value?_of_ne
    intro heq
    rw [heq] at hp
    exact hr hp
  values := by
    intro p hp value
    exact hask.value?_eq_some_iff hd ha (hnone p hp)

theorem of_failure {e : Element} {error : ε} (hr : r ∉ seen)
    (hnone : ∀ p, p ∉ seen → a.value? p = none) (he : a.element? r = some e)
    (hc : e.conditional?.isSome = true)
    : a.AsksAlong seen r [r] [⟨e, .error error⟩] (.error (.oracle error)) a := by
  rw [← element?_reset_of_value?_eq_none (hnone r hr)] at he
  constructor
  case reset => rfl
  case start => rfl
  case chain => exact List.isChain_singleton r
  case vertices =>
    rw [firstVisits_cons hr]
    exact (conditionalsAmong_of_conditional he hc).symm
  case settled =>
    have hearlier : ∀ p ∈ ([] : List (Question ε)), ∃ value, p.answer = .ok value := by simp
    exact Settled.failed hearlier rfl he
  case ended => exact .failed (List.nodup_singleton r) (by simpa using hr)
  case kept => exact fun _ _ => rfl
  case values =>
    intro p hp value
    simp [hnone p hp]

theorem position_mem (hd : d.WellFormed) (ha : a.Valued d) (h : a.AsksAlong seen r walk asked result b)
    : ∀ q ∈ asked, a.reset.element? q.vertex.position = some q.vertex ∧
        q.vertex.position ∈ firstVisits seen walk := by
  have hreset : a.reset.Valued d := (reset_reset a).trans ha
  intro q hq
  have hmem : q.vertex ∈ a.reset.conditionalsAmong (firstVisits seen walk) := by
    rw [← h.vertices]
    exact List.mem_map_of_mem hq
  obtain ⟨⟨p, hp, he⟩, _⟩ := mem_conditionalsAmong_iff.mp hmem
  rw [hreset.position_of_element? hd he]
  exact ⟨he, hp⟩

theorem goes (hgoes : b.Goes r next) (h : b.AsksAlong (r :: seen) next walk asked result c) : c.Goes r next :=
  (follow_congr h.reset (h.kept r List.mem_cons_self)).trans hgoes

theorem arrive (hd : d.WellFormed) (ha : a.Valued d) (hr : r ∉ seen)
    (hnone : ∀ p, p ∉ seen → a.value? p = none) (hask : a.AsksAt r earlier b) (hgoes : b.Goes r next)
    (h : b.AsksAlong (r :: seen) next walk asked result c)
    : a.AsksAlong seen r (r :: walk) (earlier ++ asked) (result.map (Trace.arrive a r)) c where
  reset := h.reset.trans hask.reset_eq
  start := rfl
  chain := isChain_cons_of_head? (h.goes hgoes) h.start h.chain
  vertices := by
    have hrest := h.vertices
    rw [hask.reset_eq] at hrest
    rw [firstVisits_cons hr, conditionalsAmong_cons, List.map_append, hask.vertices, hrest]
  settled := by
    have hrest := h.settled
    rw [hask.reset_eq] at hrest
    exact hrest.arrive h.start hask.answered
  ended := h.ended.arrive hr (h.goes hgoes)
  kept := by
    intro p hp
    have hne : p ≠ r := by
      intro heq
      rw [heq] at hp
      exact hr hp
    rw [h.kept p (List.mem_cons_of_mem r hp), hask.value?_of_ne hne]
  values := by
    have hb : b.Valued d := hask.reset_eq.trans ha
    intro p hp value
    simp only [List.mem_append, or_and_right, exists_or]
    rw [← hask.value?_eq_some_iff hd ha (hnone p hp)]
    by_cases hpr : p = r
    . -- what is asked later is asked elsewhere
      have hlater : ¬∃ q ∈ asked, q.vertex.position = p ∧ q.answer = .ok value := by
        intro ⟨q, hq, hposition, _⟩
        have hmem := (h.position_mem hd hb q hq).right
        rw [hposition, hpr] at hmem
        exact not_mem_of_mem_firstVisits hmem List.mem_cons_self
      rw [hpr] at hlater ⊢
      rw [h.kept r List.mem_cons_self]
      simp only [hlater, or_false]
    . have hseen : p ∉ r :: seen := by
        rw [List.mem_cons, not_or]
        exact ⟨hpr, hp⟩
      have hearlier : b.value? p ≠ some value := by
        rw [hask.value?_of_ne hpr, hnone p hp]
        exact (Option.some_ne_none value).symm
      simp only [hearlier, false_or]
      exact h.values p hseen value

end AsksAlong

/--
A run that asks takes a walk along which it asks for each conditional vertex at its first visit.
-/
theorem Valued.exists_asksAlong {d : Draft} {a : Automaton} {seen : List Nat} (hd : d.WellFormed)
    (ha : a.Valued d) (hnone : ∀ p, p ∉ seen → a.value? p = none) (oracle : Oracle σ ε) (verbose : Bool)
    (state : σ × List (Question ε)) (r : Nat)
    : ∃ walk asked, (runAskingFrom oracle.recorded verbose a state seen r).2.2.2 = state.2 ++ asked ∧
        a.AsksAlong seen r walk asked (runAskingFrom oracle.recorded verbose a state seen r).1
          (runAskingFrom oracle.recorded verbose a state seen r).2.1 := by
  fun_induction runAskingFrom oracle.recorded verbose a state seen r with
  | case1 a state seen r hseen =>
    exact ⟨[r], [], by simp, .of_mem hseen hnone rfl rfl⟩
  | case2 a state seen r hseen hfinish =>
    have hat : a.AsksAt r ([] : List (Question ε)) a := .nothing (not_conditional_of_isFinish hfinish)
    exact ⟨[r], [], by simp, .of_last hd ha hseen hnone hat rfl (by simp) hfinish⟩
  | case3 a state seen r hseen hfinish failure state' hask =>
    obtain ⟨e, error, rfl, hasked, he, hc⟩ := ha.failure_of_ask hd (hnone r hseen) hask
    exact ⟨[r], _, hasked, .of_failure hseen hnone he hc⟩
  | case4 a state seen r hseen hfinish b state' hask error hfollow =>
    obtain ⟨asked, _, hat⟩ := ha.asksAt_of_ask hd (hnone r hseen) hask
    exact absurd hfollow (hat.follow_ne_error hd ha error)
  | case5 a state seen r hseen hfinish b state' hask hfollow =>
    obtain ⟨asked, hasked, hat⟩ := ha.asksAt_of_ask hd (hnone r hseen) hask
    rw [← any_isFinish_congr hat.reset_eq] at hfinish
    exact ⟨[r], asked, hasked, .of_last hd ha hseen hnone hat rfl (by simp) ⟨hfinish, hfollow⟩⟩
  | case6 a state seen r hseen hfinish b state' hask next hfollow result c state'' hrest ih =>
    obtain ⟨earlier, hearlier, hat⟩ := ha.asksAt_of_ask hd (hnone r hseen) hask
    have hnone' : ∀ p, p ∉ r :: seen → b.value? p = none := by
      intro p hp
      rw [List.mem_cons, not_or] at hp
      rw [hat.value?_of_ne hp.left, hnone p hp.right]
    obtain ⟨walk, asked, hasked, halong⟩ := ih (hat.reset_eq.trans ha) hnone'
    rw [hrest] at hasked halong
    refine ⟨r :: walk, earlier ++ asked, ?_, halong.arrive hd ha hseen hnone hat hfollow⟩
    rw [← List.append_assoc, ← hearlier]
    exact hasked

/--
What a run that asks does from the start on: it takes a walk, asks for each conditional vertex on it once, at
its first visit and without showing a value, stops where a run stops or a question fails, and leaves the answers
as the only values.
-/
structure Asks (a : Automaton) (walk : List ElementRef) (asked : List (Question ε))
    (result : Except (Interruption ε) Trace) (b : Automaton) : Prop where
  start : walk.head? = a.start?
  chain : walk.IsChain b.Goes
  vertices : asked.map (·.vertex) = a.reset.conditionalsAmong (firstVisits [] walk)
  once : (asked.map (·.vertex)).Nodup
  undetermined : ∀ q ∈ asked, ∃ c, q.vertex.conditional? = some c ∧ c.value = none
  settled : Settled a.reset walk asked result
  ended : ∃ start, a.start? = some start ∧ b.Ended [] start walk result
  values : ∀ r value, b.value? r = some value ↔
    ∃ q ∈ asked, a.reset.element? r = some q.vertex ∧ q.answer = .ok value

theorem undetermined_of_mem_conditionalsAmong {a : Automaton} {rs : List Nat} {e : Element}
    (h : e ∈ a.reset.conditionalsAmong rs) : ∃ c, e.conditional? = some c ∧ c.value = none := by
  obtain ⟨⟨r, _, he⟩, hc⟩ := mem_conditionalsAmong_iff.mp h
  obtain ⟨c, hc⟩ := Option.isSome_iff_exists.mp hc
  have hvalue := value?_of_element? he
  rw [value?_reset, hc, Option.bind_some] at hvalue
  exact ⟨c, hc, hvalue.symm⟩

theorem Valued.nodup_conditionalsAmong {d : Draft} {a : Automaton} {rs : List Nat} (hd : d.WellFormed)
    (ha : a.Valued d) (h : rs.Nodup) : (a.conditionalsAmong rs).Nodup := by
  apply List.Nodup.filter
  apply h.filterMap
  intro r p e hr hp
  rw [← ha.position_of_element? hd hr, ha.position_of_element? hd hp]

theorem AsksAlong.asks {d : Draft} {a b : Automaton} {r : Nat} {walk : List Nat} {asked : List (Question ε)}
    {result : Except (Interruption ε) Trace} (hd : d.WellFormed) (ha : a.Valued d) (hr : a.start? = some r)
    (h : a.reset.AsksAlong [] r walk asked result b) : a.Asks walk asked result b where
  start := h.start.trans hr.symm
  chain := h.chain
  vertices := by
    have hvertices := h.vertices
    rw [reset_reset] at hvertices
    exact hvertices
  once := by
    rw [h.vertices, reset_reset]
    exact Valued.nodup_conditionalsAmong hd ((reset_reset a).trans ha) (nodup_firstVisits [] walk)
  undetermined := by
    intro q hq
    have hmem : q.vertex ∈ a.reset.reset.conditionalsAmong (firstVisits [] walk) := by
      rw [← h.vertices]
      exact List.mem_map_of_mem hq
    exact undetermined_of_mem_conditionalsAmong hmem
  settled := by
    have hsettled := h.settled
    rw [reset_reset] at hsettled
    exact hsettled
  ended := ⟨r, hr, h.ended⟩
  values := by
    have hreset : a.reset.Valued d := (reset_reset a).trans ha
    intro p value
    rw [h.values p List.not_mem_nil value]
    constructor
    . rintro ⟨q, hq, rfl, hanswer⟩
      have hposition := (h.position_mem hd hreset q hq).left
      rw [reset_reset] at hposition
      exact ⟨q, hq, hposition, hanswer⟩
    . intro ⟨q, hq, he, hanswer⟩
      exact ⟨q, hq, hreset.position_of_element? hd he, hanswer⟩

end Protocol

end Automaton

namespace Scheme

theorem runAsking_eq_runAskingFrom {σ ε : Type} {s : Scheme} {d : Draft} (hd : d.WellFormed)
    (hs : s.automaton.Valued d) (oracle : Oracle σ ε) (verbose : Bool) (state : σ)
    : let run := Automaton.runAskingFrom oracle verbose s.automaton.reset state [] 0
      s.runAsking oracle verbose state = (run.1, { s with automaton := run.2.1 }, run.2.2) := by
  have hstart : s.automaton.reset.start? = some 0 :=
    (Automaton.start?_reset s.automaton).trans (hs.start?_eq hd)
  unfold runAsking Automaton.runAsking
  simp only [hstart]

/--
A run that asks puts one question to the oracle for each conditional vertex that it comes to, and nothing
remains of the values that there were before. It fails exactly if the oracle does, with the same error and
without another question, and otherwise stops where a run stops under the answers.
-/
theorem runAsking_asks {σ ε : Type} {s : Scheme} (hs : s.Accepted) (oracle : Oracle σ ε) (verbose : Bool)
    (state : σ)
    : ∃ result s' state' walk asked, s.runAsking oracle verbose state = (result, s', state') ∧
        s.runAsking oracle.recorded verbose (state, []) = (result, s', state', asked) ∧
        s.automaton.Asks walk asked result s'.automaton ∧ s'.reset = s.reset ∧
        ((∃ e, result = .error e) ↔ ∃ q ∈ asked, ∃ error, q.answer = .error error) := by
  obtain ⟨d, hd, ha, _⟩ := hs.exists_draft
  have hreset : s.automaton.reset.Valued d := (Automaton.reset_reset _).trans ha
  have hnone : ∀ p, p ∉ [] → s.automaton.reset.value? p = none := fun p _ =>
    Automaton.value?_reset s.automaton p
  rw [runAsking_eq_runAskingFrom hd ha, runAsking_eq_runAskingFrom hd ha]
  have hplain := Automaton.runAskingFrom_recorded oracle verbose s.automaton.reset (state, []) [] 0
  obtain ⟨walk, asked, hasked, halong⟩ := hreset.exists_asksAlong hd hnone oracle verbose (state, []) 0
  generalize Automaton.runAskingFrom oracle.recorded verbose s.automaton.reset (state, []) [] 0 = recorded at *
  obtain ⟨result, b, state', asked'⟩ := recorded
  rw [List.nil_append] at hasked
  subst hasked
  rw [hplain]
  refine ⟨result, { s with automaton := b }, state', walk, asked', rfl, rfl, ?_, ?_, ?_⟩
  . exact halong.asks hd ha (ha.start?_eq hd)
  . unfold reset
    simp only [halong.reset, Automaton.reset_reset]
  . exact halong.settled.error_iff

theorem runAsking_silent
    : (halfSetScheme.runAsking Oracle.silent false 0).1 = .error (.oracle ()) ∧
        (halfSetScheme.runAsking Oracle.silent false 0).2.2 = 1 := by
  have hreset : halfSetScheme.automaton.reset = (Draft.ofText branchingText).layout := by
    unfold halfSetScheme
    rw [Automaton.reset_modify_setValue, Parsed.reset_automaton, Parsed.ofText_eq]
  obtain ⟨d, hd, ha, _⟩ := accepted_halfSetScheme.exists_draft
  rw [runAsking_eq_runAskingFrom hd ha, hreset]
  have hstart : Automaton.Goes (Draft.ofText branchingText).layout 0 1 := by
    unfold Automaton.Goes
    decide +kernel
  have hask : Automaton.ask Oracle.silent (Draft.ofText branchingText).layout 0 0 =
      (.ok (Draft.ofText branchingText).layout, 0) := by
    decide +kernel
  have hvertex : ((Draft.ofText branchingText).layout.element? 1).any (·.isFinish) = false := by
    decide +kernel
  have hfailed : Automaton.ask Oracle.silent (Draft.ofText branchingText).layout 0 1 =
      (.error (.oracle ()), 1) := by
    decide +kernel
  rw [Automaton.runAskingFrom_of_follow_eq_some List.not_mem_nil hstart.not_isFinish hask hstart,
    Automaton.runAskingFrom_of_ask_eq_error (by decide) (by simp [hvertex]) hfailed]
  exact ⟨rfl, rfl⟩

theorem runAsking_halfSetScheme
    : ∃ s' walk asked, halfSetScheme.runAsking Oracle.silent false 0 = (.error (.oracle ()), s', 1) ∧
        halfSetScheme.automaton.Asks walk asked (.error (.oracle ())) s'.automaton := by
  obtain ⟨result, s', state', walk, asked, hrun, _, hasks, _⟩ :=
    runAsking_asks accepted_halfSetScheme Oracle.silent false 0
  obtain ⟨hresult, hstate⟩ := runAsking_silent
  rw [hrun] at hresult hstate
  cases hresult
  cases hstate
  exact ⟨s', walk, asked, hrun, hasks⟩

end Scheme

end LogicalScheme
