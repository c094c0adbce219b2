import LogicalScheme.Proofs.History

/-!
This module contains the errors of operations on a scheme: when there is one, which one it is, and that it
leaves everything as it was.
-/

namespace LogicalScheme

namespace ConditionVector

/--
Why characters are no vector of length `n`. Their number is looked at first, then the first one that is
neither `0` nor `1`.
-/
inductive Refused (cs : List Char) (n : Nat) : UsageError → Prop where
  | length (hlength : cs.length ≠ n) : Refused cs n (.vectorLength n cs.length)
  | character {before after : List Char} {c : Char} (hlength : cs.length = n)
    (hsplit : cs = before ++ c :: after) (hbefore : ∀ b ∈ before, b = '0' ∨ b = '1')
    (hc : c ≠ '0' ∧ c ≠ '1') : Refused cs n (.vectorCharacter c before.length)

/--
The character that is blamed is the first one that is neither `0` nor `1`, where `offset` others came before.
-/
def Blames (offset : Nat) (cs : List Char) (e : UsageError) : Prop :=
  ∃ before c after, cs = before ++ c :: after ∧ (∀ b ∈ before, b = '0' ∨ b = '1') ∧ (c ≠ '0' ∧ c ≠ '1') ∧
    e = .vectorCharacter c (offset + before.length)

theorem blames_cons_iff {offset : Nat} {digit : Char} {cs : List Char} {e : UsageError}
    (hdigit : digit = '0' ∨ digit = '1') : Blames offset (digit :: cs) e ↔ Blames (offset + 1) cs e := by
  constructor
  . intro ⟨before, c, after, hsplit, hbefore, hc, he⟩
    cases before with
    | nil =>
      cases hsplit
      exact absurd hdigit (not_or.mpr hc)
    | cons b before =>
      cases hsplit
      rw [List.forall_mem_cons] at hbefore
      refine ⟨before, c, after, rfl, hbefore.right, hc, ?_⟩
      rw [he, List.length_cons, Nat.add_right_comm, Nat.add_assoc]
  . intro ⟨before, c, after, hsplit, hbefore, hc, he⟩
    refine ⟨digit :: before, c, after, ?_, ?_, hc, ?_⟩
    . rw [hsplit, List.cons_append]
    . rw [List.forall_mem_cons]
      exact ⟨hdigit, hbefore⟩
    . rw [he, List.length_cons, Nat.add_right_comm, Nat.add_assoc]

theorem blames_cons_of_ne {offset : Nat} {c : Char} {cs : List Char} {e : UsageError}
    (hc : c ≠ '0' ∧ c ≠ '1') : Blames offset (c :: cs) e ↔ e = .vectorCharacter c offset := by
  constructor
  . intro ⟨before, c', after, hsplit, hbefore, _, he⟩
    cases before with
    | nil =>
      cases hsplit
      exact he
    | cons b before =>
      cases hsplit
      exact absurd (hbefore c List.mem_cons_self) (not_or.mpr hc)
  . intro he
    exact ⟨[], c, cs, rfl, by simp, hc, he⟩

theorem readBits_eq_error_iff {offset : Nat} {cs : List Char} {e : UsageError}
    : readBits offset cs = .error e ↔ Blames offset cs e := by
  fun_induction readBits offset cs with
  | case1 => simp [Blames]
  | case2 offset cs ih => rw [map_eq_error_iff, ih, blames_cons_iff (.inl rfl)]
  | case3 offset cs ih => rw [map_eq_error_iff, ih, blames_cons_iff (.inr rfl)]
  | case4 offset c cs hzero hone =>
    rw [blames_cons_of_ne ⟨hzero, hone⟩, Except.error.injEq]
    exact eq_comm

theorem parse_eq_error_iff {text : String} {n : Nat} {e : UsageError}
    : parse text n = .error e ↔ Refused text.toList n e := by
  unfold parse
  simp only
  split
  . next hn =>
    rw [map_eq_error_iff, readBits_eq_error_iff]
    constructor
    . intro ⟨before, c, after, hsplit, hbefore, hc, he⟩
      rw [he, Nat.zero_add]
      exact .character hn hsplit hbefore hc
    . intro h
      cases h with
      | length hlength => exact absurd hn hlength
      | @character before after c _ hsplit hbefore hc =>
        exact ⟨before, c, after, hsplit, hbefore, hc, by rw [Nat.zero_add]⟩
  . next hn =>
    constructor
    . intro h
      cases h
      exact .length hn
    . intro h
      cases h with
      | length hlength => rfl
      | character hlength => exact absurd hlength hn

theorem exists_refused_iff {cs : List Char} {n : Nat}
    : (∃ e, Refused cs n e) ↔ cs.length ≠ n ∨ ∃ c ∈ cs, c ≠ '0' ∧ c ≠ '1' := by
  have hrefused : (∃ e, Refused cs n e) ↔ ¬∃ v, parse (String.ofList cs) n = .ok v := by
    have herror (e : UsageError) := @parse_eq_error_iff (String.ofList cs) n e
    rw [String.toList_ofList] at herror
    rw [← exists_congr herror]
    cases parse (String.ofList cs) n <;> simp
  rw [hrefused, exists_parse_eq_ok_iff, String.length_ofList, String.toList_ofList, not_and_or]
  simp only [not_forall, not_or, exists_prop, ne_eq]

end ConditionVector

theorem Element.isFinish_of_conditional? {e : Element} {c : Conditional} (h : e.conditional? = some c)
    : e.isFinish = false := by
  obtain ⟨name, kind, position, next⟩ := e
  cases kind with
  | conditional c => rfl
  | _ => contradiction

namespace Automaton

/--
Control goes from `r` over elements that are new to a conditional vertex without value, which is `e`.
-/
structure Waits (a : Automaton) (seen : List ElementRef) (r : ElementRef) (walk : List ElementRef)
    (last : ElementRef) (e : Element) : Prop where
  start : (walk ++ [last]).head? = some r
  chain : (walk ++ [last]).IsChain a.Goes
  nodup : (walk ++ [last]).Nodup
  fresh : ∀ w ∈ walk ++ [last], w ∉ seen
  element : a.element? last = some e
  undetermined : ∃ c, e.conditional? = some c ∧ c.value = none

variable {a : Automaton} {verbose : Bool} {seen : List Nat} {r : Nat}

theorem follow_eq_error_iff {error : UsageError}
    : a.follow r = .error error ↔ ∃ e c, a.element? r = some e ∧ e.conditional? = some c ∧
        c.value = none ∧ error = .undeterminedCondition e.name := by
  unfold follow
  cases he : a.element? r with
  | none => simp
  | some e =>
    obtain ⟨name, kind, position, next⟩ := e
    cases kind with
    | conditional c =>
      cases hvalue : c.value with
      | none => simp [Element.conditional?, Kind.conditional?, hvalue, eq_comm]
      | some b => simp [Element.conditional?, Kind.conditional?, hvalue]
    | _ => simp [Element.conditional?, Kind.conditional?]

theorem Waits.arrive {walk : List Nat} {next last : Nat} {e : Element}
    (h : a.Waits (r :: seen) next walk last e) (hseen : r ∉ seen) (hfollow : a.follow r = .ok (some next))
    : a.Waits seen r (r :: walk) last e where
  start := rfl
  chain := isChain_cons_of_head? hfollow h.start h.chain
  nodup := (nodup_cons_and_fresh_iff.mpr ⟨hseen, h.nodup, h.fresh⟩).left
  fresh := (nodup_cons_and_fresh_iff.mpr ⟨hseen, h.nodup, h.fresh⟩).right
  element := h.element
  undetermined := h.undetermined

theorem exists_waits {error : UsageError} (h : a.runFrom verbose seen r = .error error)
    : ∃ walk last e, a.Waits seen r walk last e ∧ error = .undeterminedCondition e.name := by
  fun_induction runFrom a verbose seen r with
  | case1 | case2 | case4 => cases h
  | case3 seen r hseen hfinish error' hfollow =>
    cases h
    obtain ⟨e, c, he, hc, hvalue, herror⟩ := follow_eq_error_iff.mp hfollow
    refine ⟨[], r, e, ?_, herror⟩
    exact ⟨rfl, List.isChain_singleton r, List.nodup_singleton r, by simpa using hseen, he, c, hc, hvalue⟩
  | case5 seen r hseen hfinish next hfollow ih =>
    obtain ⟨walk, last, e, hwaits, herror⟩ := ih (map_eq_error_iff.mp h)
    exact ⟨r :: walk, last, e, hwaits.arrive hseen hfollow, herror⟩

theorem Waits.runFrom_eq {walk : List Nat} {last : Nat} {e : Element} (h : a.Waits seen r walk last e)
    : a.runFrom verbose seen r = .error (.undeterminedCondition e.name) := by
  induction walk generalizing seen r with
  | nil =>
    have hr := h.start
    cases hr
    obtain ⟨c, hc, hvalue⟩ := h.undetermined
    have hfinish : ¬(a.element? last).any (·.isFinish) = true := by
      rw [h.element, Option.any_some, Element.isFinish_of_conditional? hc]
      exact Bool.false_ne_true
    apply runFrom_of_follow_eq_error
    . exact h.fresh last List.mem_cons_self
    . exact hfinish
    . exact follow_eq_error_iff.mpr ⟨e, c, h.element, hc, hvalue, rfl⟩
  | cons w walk ih =>
    have hr := h.start
    cases hr
    obtain ⟨s, hs, hgoes, hchain⟩ := exists_head?_of_isChain_cons h.chain
    obtain ⟨hw, hnodup, hfresh⟩ := nodup_cons_and_fresh_iff.mp ⟨h.nodup, h.fresh⟩
    have hrest : a.Waits (w :: seen) s walk last e :=
      ⟨hs, hchain, hnodup, hfresh, h.element, h.undetermined⟩
    rw [runFrom_of_goes hw hgoes, ih hrest]
    rfl

theorem run_eq_error_iff {start : Nat} {error : UsageError} (hstart : a.start? = some start)
    : a.run verbose = .error error ↔
        ∃ walk last e, a.Waits [] start walk last e ∧ error = .undeterminedCondition e.name := by
  unfold run
  rw [hstart]
  constructor
  . exact exists_waits
  . intro ⟨walk, last, e, hwaits, herror⟩
    rw [herror]
    exact hwaits.runFrom_eq

end Automaton

namespace Scheme

/--
An operation on `s` has the errors in `errors` and no others, and leaves `s` as it is if it has one.
-/
structure Fails {β : Type} (s : Scheme) (errors : UsageError → Prop) (result : Except UsageError β × Scheme)
    : Prop where
  error : ∀ e, result.1 = .error e ↔ errors e
  unchanged : ∀ e, result.1 = .error e → result.2 = s

def TooMany (s : Scheme) (e : UsageError) : Prop :=
  min s.maxConditionals 63 < s.conditionalCount ∧
    e = .tooManyConditionals s.conditionalCount (min s.maxConditionals 63)

variable {s : Scheme} {d : Draft}

namespace Fails

theorem of_error {β : Type} {errors : UsageError → Prop} {e : UsageError} (h : ∀ e', errors e' ↔ e' = e)
    : Fails (β := β) s errors (.error e, s) where
  error := by
    intro e'
    rw [h, Except.error.injEq]
    exact eq_comm
  unchanged := fun _ _ => rfl

theorem of_ok {β : Type} {errors : UsageError → Prop} {x : β} {t : Scheme} (h : ∀ e, ¬errors e)
    : Fails s errors (.ok x, t) where
  error := by
    intro e
    simp [h e]
  unchanged := by
    intro e he
    cases he

theorem map {β γ : Type} {errors : UsageError → Prop} {x : Except UsageError β} {t : Scheme} (f : β → γ)
    (h : Fails s errors (x, t)) : Fails s errors (x.map f, t) where
  error := fun e => map_eq_error_iff.trans (h.error e)
  unchanged := fun e he => h.unchanged e (map_eq_error_iff.mp he)

end Fails

theorem runWith_fails (hd : d.WellFormed) (hs : s.automaton.Valued d) (bits : String) (verbose : Bool)
    : s.Fails (ConditionVector.Refused bits.toList s.conditionalCount) (s.runWith bits verbose) := by
  have hparse : ∀ e, ConditionVector.Refused bits.toList s.conditionalCount e ↔
      ConditionVector.parse bits s.automaton.conditionalCount = .error e :=
    fun e => ConditionVector.parse_eq_error_iff.symm
  unfold runWith Automaton.assignText
  cases hv : ConditionVector.parse bits s.automaton.conditionalCount with
  | error e =>
    apply Fails.of_error
    intro e'
    rw [hparse, hv, Except.error.injEq]
    exact eq_comm
  | ok v =>
    have hlength := ConditionVector.length_of_parse hv
    rw [hs.conditionalCount_eq] at hlength
    obtain ⟨t, hrun⟩ := hs.exists_run verbose hd hlength
    simp only [Except.map, hrun]
    apply Fails.of_ok
    intro e
    rw [hparse, hv]
    simp

theorem loopsUnder_fails (hd : d.WellFormed) (hs : s.automaton.Valued d) (bits : String)
    : s.Fails (ConditionVector.Refused bits.toList s.conditionalCount) (s.loopsUnder bits) := by
  have hrun := runWith_fails hd hs bits false
  unfold loopsUnder
  generalize s.runWith bits false = result at hrun
  obtain ⟨result, t⟩ := result
  cases result with
  | error e =>
    have ht := hrun.unchanged e rfl
    cases ht
    exact ⟨fun e' => by rw [← hrun.error e', Except.error.injEq, Except.error.injEq], fun _ _ => rfl⟩
  | ok t' =>
    apply Fails.of_ok
    intro e he
    have herror := (hrun.error e).mpr he
    cases herror

theorem forEachVector_of_limit_lt {σ : Type} (h : s.limit < s.conditionalCount)
    (visit : σ → ConditionVector → Trace → ForInStep σ) (state : σ)
    : s.forEachVector visit state = (.error (.tooManyConditionals s.conditionalCount s.limit), s, state) := by
  unfold forEachVector
  simp only [if_pos h]

theorem forEachVector_fails {σ : Type} (hd : d.WellFormed) (hs : s.automaton.Valued d)
    (visit : σ → ConditionVector → Trace → ForInStep σ) (state : σ)
    : s.Fails s.TooMany ((s.forEachVector visit state).1, (s.forEachVector visit state).2.1) ∧
        ∀ e, (s.forEachVector visit state).1 = .error e → (s.forEachVector visit state).2.2 = state := by
  by_cases hlimit : s.limit < s.conditionalCount
  . rw [forEachVector_of_limit_lt hlimit]
    refine ⟨.of_error ?_, fun _ _ => rfl⟩
    intro e
    exact and_iff_right hlimit
  . rw [forEachVector_eq hd hs (Nat.le_of_not_lt hlimit)]
    constructor
    . apply Fails.of_ok
      intro e he
      exact hlimit he.left
    . intro e he
      cases he

theorem listing_fails {σ β : Type} (hd : d.WellFormed) (hs : s.automaton.Valued d)
    (visit : σ → ConditionVector → Trace → ForInStep σ) (state : σ) (f : σ → Nat → β)
    : s.Fails s.TooMany
        ((s.forEachVector visit state).1.map (f (s.forEachVector visit state).2.2),
          (s.forEachVector visit state).2.1) :=
  (forEachVector_fails hd hs visit state).left.map _

theorem findLoops_fails (hd : d.WellFormed) (hs : s.automaton.Valued d)
    : s.Fails s.TooMany s.findLoops :=
  listing_fails hd hs
    (fun (report : LoopReport) v t => .yield (report.record v (Loop.ofPath s.automaton t.path))) {}
    fun report _ => report

theorem Accepted.after (hs : s.Accepted) (history : List (Σ β, Operation β)) : (s.after history).Accepted := by
  obtain ⟨text, p, hparse, hreset, hlexemes⟩ := hs
  have hafter := s.after_reset history
  refine ⟨text, p, hparse, ?_, ?_⟩
  . rw [automaton_reset_eq hafter, hreset]
  . calc
      (s.after history).lexemes = (s.after history).reset.lexemes := rfl
      _ = s.reset.lexemes := by rw [hafter]
      _ = p.lexemes := hlexemes

theorem conditionalCount_after (s : Scheme) (history : List (Σ β, Operation β))
    : (s.after history).conditionalCount = s.conditionalCount := by
  have hautomaton := automaton_reset_eq (s.after_reset history)
  unfold conditionalCount
  rw [← Automaton.conditionalCount_reset, hautomaton, Automaton.conditionalCount_reset]

/--
Operations fail on account of their use only: a plain run where control comes to a condition without value,
runs under a vector that is none, and runs under all vectors of too many conditions, of which none is run
then. A failure leaves every condition as it was.
-/
theorem usageErrors_exact (hs : s.Accepted)
    : (∃ start, s.automaton.start? = some start ∧ ∀ verbose,
        s.Fails (fun e => ∃ walk last f, s.automaton.Waits [] start walk last f ∧
          e = .undeterminedCondition f.name) (s.run verbose, s)) ∧
      (∀ bits verbose,
        s.Fails (ConditionVector.Refused bits.toList s.conditionalCount) (s.runWith bits verbose)) ∧
      (∀ bits, s.Fails (ConditionVector.Refused bits.toList s.conditionalCount) (s.loopsUnder bits)) ∧
      (∀ cs, (∃ e, ConditionVector.Refused cs s.conditionalCount e) ↔
        cs.length ≠ s.conditionalCount ∨ ∃ c ∈ cs, c ≠ '0' ∧ c ≠ '1') ∧
      (∀ {σ : Type} (visit : σ → ConditionVector → Trace → ForInStep σ) (state : σ),
        s.Fails s.TooMany ((s.forEachVector visit state).1, (s.forEachVector visit state).2.1) ∧
          ∀ e, (s.forEachVector visit state).1 = .error e → (s.forEachVector visit state).2.2 = state) ∧
      s.Fails s.TooMany s.findLoops ∧ s.Fails s.TooMany s.listLoops ∧ s.Fails s.TooMany s.listResults := by
  obtain ⟨d, hd, ha, _⟩ := hs.exists_draft
  have hstart := ha.start?_eq hd
  refine ⟨⟨0, hstart, ?_⟩, runWith_fails hd ha, loopsUnder_fails hd ha, ?_, forEachVector_fails hd ha, ?_, ?_, ?_⟩
  . intro verbose
    exact ⟨fun e => Automaton.run_eq_error_iff hstart, fun _ _ => rfl⟩
  . intro cs
    exact ConditionVector.exists_refused_iff
  . exact findLoops_fails hd ha
  . exact (findLoops_fails hd ha).map reportLines
  . exact listing_fails hd ha (fun lines v t => .yield (lines ++ resultLine v t)) "" fun lines _ => lines

theorem usageErrors_loopingScheme
    : ∃ s, s = loopingScheme.after [⟨_, .runWith "1" false⟩, ⟨_, .loopsUnder "x"⟩] ∧
        s.runWith "10" true = (.error (.vectorLength 1 2), s) ∧
        s.loopsUnder "ж" = (.error (.vectorCharacter 'ж' 0), s) := by
  refine ⟨_, rfl, ?_⟩
  have haccepted := accepted_loopingScheme.after [⟨_, .runWith "1" false⟩, ⟨_, .loopsUnder "x"⟩]
  have hcount := loopingScheme.conditionalCount_after [⟨_, .runWith "1" false⟩, ⟨_, .loopsUnder "x"⟩]
  generalize loopingScheme.after [⟨_, .runWith "1" false⟩, ⟨_, .loopsUnder "x"⟩] = s at *
  obtain ⟨_, hwith, hunder, _⟩ := usageErrors_exact haccepted
  rw [hcount, conditionalCount_loopingScheme] at hwith hunder
  constructor
  . have herror := ((hwith "10" true).error (.vectorLength 1 2)).mpr (.length (by decide))
    exact Prod.ext herror ((hwith "10" true).unchanged _ herror)
  . have herror := ((hunder "ж").error (.vectorCharacter 'ж' 0)).mpr
      (@ConditionVector.Refused.character _ _ [] [] 'ж' rfl rfl (by simp) (by decide))
    exact Prod.ext herror ((hunder "ж").unchanged _ herror)

end Scheme

end LogicalScheme
