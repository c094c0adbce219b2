import LogicalScheme.Proofs.Run
import LogicalScheme.Proofs.Valued
import LogicalScheme.Scheme

/-!
This module contains the direct execution of tokens by a machine that knows nothing of elements and links.
It walks over the positions of the tokens, and so do the runs of an accepted scheme.
-/

namespace LogicalScheme

namespace Machine

/--
The machine goes from the token at `i` to the token at `j`, where the conditional vertices have the values
`bits` in the order of the text.
-/
inductive Step (tokens : List Token) (bits : List Bool) (i : Nat) : Nat → Prop where
  | through {t : Token} (ht : tokens[i]? = some t) (hfalls : t.fallsThrough = true)
    (hnext : i + 1 < tokens.length) : Step tokens bits i (i + 1)
  | whenTrue {l : Letter} {n : UInt32} (ht : tokens[i]? = some (.conditional l n))
    (hbit : bits[(tokens.take i).countP (·.isConditional)]? = some true) : Step tokens bits i (i + 1)
  | whenFalse {l : Letter} {n : UInt32} (ht : tokens[i]? = some (.conditional l n))
    (hbit : bits[(tokens.take i).countP (·.isConditional)]? = some false) : Step tokens bits i (i + 2)
  | jump {t : Token} {index : UInt32} {j : Nat} (ht : tokens[i]? = some t)
    (hindex : t.jumpTarget? = some index)
    (hpoint : ∀ k, tokens[k]? = some (.jumpPoint index) ↔ k = j) : Step tokens bits i (j + 1)

/--
The path of the machine from `i` on and how it stops, where the positions in `seen` came before.
-/
inductive Run (tokens : List Token) (bits : List Bool) : List Nat → Nat → List Nat → Outcome → Prop where
  | again {seen : List Nat} {i : Nat} (hseen : i ∈ seen) : Run tokens bits seen i [i] .loopDetected
  | finish {seen : List Nat} {i : Nat} (hseen : i ∉ seen) (ht : tokens[i]? = some .finish)
    : Run tokens bits seen i [i] .completed
  | stuck {seen : List Nat} {i : Nat} {t : Token} (hseen : i ∉ seen) (ht : tokens[i]? = some t)
    (hfalls : t.fallsThrough = true) (hlast : i + 1 = tokens.length)
    : Run tokens bits seen i [i] .deadEnd
  | step {seen : List Nat} {i j : Nat} {path : List Nat} {outcome : Outcome} (hseen : i ∉ seen)
    (hstep : Step tokens bits i j) (hrest : Run tokens bits (i :: seen) j path outcome)
    : Run tokens bits seen i (i :: path) outcome

variable {tokens : List Token} {bits : List Bool}

theorem not_fallsThrough_of_jumpTarget? {t : Token} {index : UInt32}
    (h : t.jumpTarget? = some index) : t.fallsThrough = false := by
  cases t with
  | conditionalJump n | unconditionalJump n => rfl
  | _ => contradiction

theorem Step.unique {i j k : Nat} (hj : Step tokens bits i j) (hk : Step tokens bits i k) : j = k := by
  cases hj with
  | through ht hfalls hnext =>
    cases hk with
    | through => rfl
    | whenTrue ht' | whenFalse ht' =>
      cases ht.symm.trans ht'
      contradiction
    | jump ht' hindex =>
      cases ht.symm.trans ht'
      rw [not_fallsThrough_of_jumpTarget? hindex] at hfalls
      contradiction
  | whenTrue ht hbit =>
    cases hk with
    | through ht' hfalls =>
      cases ht.symm.trans ht'
      contradiction
    | whenTrue => rfl
    | whenFalse ht' hbit' => cases hbit.symm.trans hbit'
    | jump ht' hindex =>
      cases ht.symm.trans ht'
      contradiction
  | whenFalse ht hbit =>
    cases hk with
    | through ht' hfalls =>
      cases ht.symm.trans ht'
      contradiction
    | whenTrue ht' hbit' => cases hbit.symm.trans hbit'
    | whenFalse => rfl
    | jump ht' hindex =>
      cases ht.symm.trans ht'
      contradiction
  | jump ht hindex hpoint =>
    cases hk with
    | through ht' hfalls =>
      cases ht.symm.trans ht'
      rw [not_fallsThrough_of_jumpTarget? hindex] at hfalls
      contradiction
    | whenTrue ht' | whenFalse ht' =>
      cases ht.symm.trans ht'
      contradiction
    | jump ht' hindex' hpoint' =>
      cases ht.symm.trans ht'
      cases hindex.symm.trans hindex'
      rw [(hpoint' _).mp ((hpoint _).mpr rfl)]

theorem Step.not_finish {i j : Nat} (h : Step tokens bits i j) : tokens[i]? ≠ some .finish := by
  intro hfinish
  cases h with
  | through ht | jump ht =>
    cases ht.symm.trans hfinish
    contradiction
  | whenTrue ht | whenFalse ht => cases ht.symm.trans hfinish

theorem Step.not_stuck {i j : Nat} {t : Token} (h : Step tokens bits i j) (ht : tokens[i]? = some t)
    (hfalls : t.fallsThrough = true) : i + 1 ≠ tokens.length := by
  cases h with
  | through _ _ hnext => exact Nat.ne_of_lt hnext
  | whenTrue ht' | whenFalse ht' =>
    cases ht.symm.trans ht'
    contradiction
  | jump ht' hindex =>
    cases ht.symm.trans ht'
    rw [not_fallsThrough_of_jumpTarget? hindex] at hfalls
    contradiction

theorem Run.unique {seen : List Nat} {i : Nat} {path path' : List Nat} {outcome outcome' : Outcome}
    (h : Run tokens bits seen i path outcome) (h' : Run tokens bits seen i path' outcome')
    : path = path' ∧ outcome = outcome' := by
  induction h generalizing path' outcome' with
  | again hseen =>
    cases h' with
    | again => exact ⟨rfl, rfl⟩
    | finish hseen' | stuck hseen' | step hseen' => contradiction
  | finish hseen ht =>
    cases h' with
    | again hseen' => contradiction
    | finish => exact ⟨rfl, rfl⟩
    | stuck _ ht' =>
      cases ht.symm.trans ht'
      contradiction
    | step _ hstep => exact absurd ht hstep.not_finish
  | stuck hseen ht hfalls hlast =>
    cases h' with
    | again hseen' => contradiction
    | finish _ ht' =>
      cases ht.symm.trans ht'
      contradiction
    | stuck => exact ⟨rfl, rfl⟩
    | step _ hstep => exact absurd hlast (hstep.not_stuck ht hfalls)
  | step hseen hstep hrest ih =>
    cases h' with
    | again hseen' => contradiction
    | finish _ ht => exact absurd ht hstep.not_finish
    | stuck _ ht hfalls hlast => exact absurd hlast (hstep.not_stuck ht hfalls)
    | step _ hstep' hrest' =>
      cases hstep.unique hstep'
      obtain ⟨hpath, houtcome⟩ := ih hrest'
      rw [hpath, houtcome]
      exact ⟨rfl, rfl⟩

end Machine

namespace Draft

theorem countP_take_tokens (d : Draft) {p : Nat} (hp : p ≤ d.size)
    : (d.tokens.take p).countP (·.isConditional) = d.conditionals p := by
  induction p with
  | zero => rfl
  | succ p ih =>
    have ht := d.token?_of_lt hp
    rw [List.take_add_one, List.countP_append, ih (Nat.le_of_succ_le hp), tokens_getElem?, ht]
    cases hconditional : d.lexemes[p].token with
    | conditional l n =>
      rw [hconditional] at ht
      rw [conditionals_succ_of_conditional ht]
      rfl
    | _ =>
      rw [conditionals_succ_of_not_conditional ht (by rw [hconditional]; rfl)]
      rfl

end Draft

namespace Automaton.Valued

variable {d : Draft} {a : Automaton} {bits : List Bool}

def HasBits (d : Draft) (a : Automaton) (bits : List Bool) : Prop :=
  ∀ p l n, d.token? p = some (.conditional l n) →
    ∃ b, bits[d.conditionals p]? = some b ∧ a.value? p = some b

theorem hasBits_assign {v : ConditionVector} (hd : d.WellFormed) (ha : a.Valued d)
    (hv : v.length = d.conditionals d.size) : HasBits d (a.assign v) v.bits := by
  intro p l n ht
  exact ha.value?_assign hd hv ht

theorem exists_step_of_fallsThrough {i : Nat} {t : Token} (hd : d.WellFormed) (ha : a.Valued d)
    (ht : d.token? i = some t) (hfalls : t.fallsThrough = true)
    : (i + 1 = d.size ∧ a.follow i = .ok none) ∨
        i + 1 < d.size ∧ Machine.Step d.tokens bits i (i + 1) ∧ a.follow i = .ok (some (i + 1)) := by
  have hfollow := ha.follow_fallsThrough hd ht hfalls
  by_cases hnext : i + 1 < d.size
  . rw [if_pos hnext] at hfollow
    refine .inr ⟨hnext, .through ?_ hfalls ?_, hfollow⟩
    . rw [d.tokens_getElem?, ht]
    . rw [d.length_tokens]
      exact hnext
  . rw [if_neg hnext] at hfollow
    have hlt := d.lt_size_of_token? ht
    exact .inl ⟨by omega, hfollow⟩

theorem exists_step_of_jumpTarget? {i : Nat} {t : Token} {index : UInt32} (hd : d.WellFormed)
    (ha : a.Valued d) (ht : d.token? i = some t) (hindex : t.jumpTarget? = some index)
    : ∃ j, j < d.size ∧ Machine.Step d.tokens bits i j ∧ a.follow i = .ok (some j) := by
  obtain ⟨q, hq⟩ := hd.target i t index ht hindex
  refine ⟨q + 1, hd.point_onward q index hq, .jump ?_ hindex ?_, ?_⟩
  . rw [d.tokens_getElem?, ht]
  . intro k
    rw [d.tokens_getElem?]
    constructor
    . intro hk
      exact hd.point_unique k q index hk hq
    . intro hk
      rw [hk, hq]
  . exact ha.follow_jump hd ht hindex hq

theorem exists_step_of_conditional {i : Nat} {l : Letter} {n : UInt32} (hd : d.WellFormed)
    (ha : a.Valued d) (hbits : HasBits d a bits) (ht : d.token? i = some (.conditional l n))
    : ∃ j, j < d.size ∧ Machine.Step d.tokens bits i j ∧ a.follow i = .ok (some j) := by
  obtain ⟨t, hbranch, _⟩ := hd.branch i l n ht
  have hlt := d.lt_size_of_token? hbranch
  have hfollow := ha.follow_conditional hd ht
  obtain ⟨b, hbit, hvalue⟩ := hbits i l n ht
  rw [hvalue] at hfollow
  rw [← d.countP_take_tokens (Nat.le_of_lt (d.lt_size_of_token? ht))] at hbit
  have htoken : d.tokens[i]? = some (.conditional l n) := by
    rw [d.tokens_getElem?, ht]
  cases b with
  | true => exact ⟨i + 1, by omega, .whenTrue htoken hbit, hfollow⟩
  | false => exact ⟨i + 2, hlt, .whenFalse htoken hbit, hfollow⟩

theorem exists_step {i : Nat} (hd : d.WellFormed) (ha : a.Valued d) (hbits : HasBits d a bits)
    (hi : i < d.size)
    : d.token? i = some .finish ∨
        (∃ t, d.token? i = some t ∧ t.fallsThrough = true ∧ i + 1 = d.size ∧
          a.follow i = .ok none) ∨
        ∃ j, j < d.size ∧ Machine.Step d.tokens bits i j ∧ a.follow i = .ok (some j) := by
  have ht := d.token?_of_lt hi
  generalize d.lexemes[i].token = t at ht
  cases t with
  | finish => exact .inl ht
  | start | operator n | jumpPoint n =>
    cases ha.exists_step_of_fallsThrough hd ht rfl with
    | inl hlast => exact .inr (.inl ⟨_, ht, rfl, hlast⟩)
    | inr hstep => exact .inr (.inr ⟨_, hstep⟩)
  | conditional l n => exact .inr (.inr (ha.exists_step_of_conditional hd hbits ht))
  | conditionalJump n | unconditionalJump n =>
    exact .inr (.inr (ha.exists_step_of_jumpTarget? hd ht rfl))

theorem steps_arrive {i : Nat} {t : Trace} (hd : d.WellFormed) (ha : a.Valued d) (hi : i < d.size)
    (hverbose : t.verbose = false)
    : (Trace.arrive a i t).steps.map some = d.lexemes[i]?.map (·.text) :: t.steps.map some := by
  rw [Trace.steps_arrive (ha.element? hd (d.token?_of_lt hi)), hverbose, List.map_cons]
  unfold Draft.name
  rw [Array.getElem?_eq_getElem hi]
  rfl

/--
A run of the automaton goes where the machine goes and stops where the machine stops.
-/
theorem runFrom_run (verbose : Bool) (hd : d.WellFormed) (ha : a.Valued d)
    (hbits : HasBits d a bits) (seen : List Nat) (i : Nat) (hi : i < d.size)
    : ∃ t, a.runFrom verbose seen i = .ok t ∧ t.verbose = verbose ∧
        Machine.Run d.tokens bits seen i t.path t.outcome ∧
        (verbose = false → t.steps.map some = t.path.map fun p => d.lexemes[p]?.map (·.text)) := by
  have ht := d.token?_of_lt hi
  by_cases hseen : i ∈ seen
  . refine ⟨_, runFrom_of_mem hseen, rfl, .again hseen, ?_⟩
    intro hverbose
    exact ha.steps_arrive hd hi hverbose
  . by_cases hfinish : d.token? i = some .finish
    . have hany := (ha.any_isFinish hd hfinish).mpr rfl
      refine ⟨_, runFrom_of_isFinish hseen hany, rfl, .finish hseen ?_, ?_⟩
      . rw [d.tokens_getElem?, hfinish]
      . intro hverbose
        exact ha.steps_arrive hd hi hverbose
    . have hany : ¬(a.element? i).any (·.isFinish) = true := by
        rw [ha.any_isFinish hd ht]
        intro heq
        rw [heq] at ht
        exact hfinish ht
      rcases ha.exists_step hd hbits hi with h | ⟨t, ht, hfalls, hlast, hfollow⟩ | ⟨j, hj, hstep, hfollow⟩
      . exact absurd h hfinish
      . refine ⟨_, runFrom_of_follow_eq_none hseen hany hfollow, rfl, ?_, ?_⟩
        . apply Machine.Run.stuck hseen _ hfalls
          . rw [d.length_tokens, hlast]
          . rw [d.tokens_getElem?, ht]
        . intro hverbose
          exact ha.steps_arrive hd hi hverbose
      . have hhas : a.Has i := has_of_follow hfollow
        -- the run goes on with one element less that it has not seen
        have hunseen := unseen_cons_lt hhas hseen
        obtain ⟨t, hrun, hverbose, hrest, hsteps⟩ := ha.runFrom_run verbose hd hbits (i :: seen) j hj
        refine ⟨Trace.arrive a i t, ?_, hverbose, .step hseen hstep hrest, ?_⟩
        . rw [runFrom_of_follow_eq_some hseen hany hfollow, hrun]
          rfl
        . intro hplain
          rw [ha.steps_arrive hd hi (hverbose.trans hplain), hsteps hplain]
          rfl
termination_by a.unseen seen

end Automaton.Valued

theorem Scheme.runWith_text {d : Draft} {s : Scheme} {v : ConditionVector}
    (hs : s.automaton.Valued d) (hv : v.length = d.conditionals d.size) (verbose : Bool)
    : (s.runWith v.text verbose).1 = (s.automaton.assign v).run verbose := by
  unfold runWith
  rw [hs.assignText_text hv]

/--
A scheme runs as the machine does, from any values that its conditions had before. The machine has exactly
one run, and every element is the element of the token at its place.
-/
theorem Scheme.runWith_refines_machine {text : String} {p : Parsed} {s : Scheme} {v : ConditionVector}
    (hparse : LogicalScheme.parse text = .ok p) (hs : s.automaton.reset = p.automaton)
    (hv : v.length = (p.lexemes.map (·.token)).countP (·.isConditional)) (verbose : Bool)
    : p.automaton.elements.size = p.lexemes.length ∧
        (∀ i l, p.lexemes[i]? = some l → ∃ e c, p.automaton.element? i = some e ∧ e.position = i ∧
          e.name = ⟨l.text⟩ ∧ e.kind = l.token.kind c) ∧
        ∃ t, (s.runWith v.text verbose).1 = .ok t ∧
          (∀ path outcome, Machine.Run (p.lexemes.map (·.token)) v.bits [] 0 path outcome ↔
            path = t.path ∧ outcome = t.outcome) ∧
          (verbose = false → t.steps.map some = t.path.map fun i => p.lexemes[i]?.map (·.text)) := by
  obtain ⟨hd, hautomaton, hlexemes, _⟩ := wellFormed_of_parse hparse
  generalize Draft.ofText text = d at *
  rw [hautomaton] at hs
  have ha : s.automaton.Valued d := hs
  have htokens : p.lexemes.map (·.token) = d.tokens := by
    rw [hlexemes]
    rfl
  have hcount : v.length = d.conditionals d.size := by
    rw [hv, htokens, ← d.countP_take_tokens (Nat.le_refl d.size), ← d.length_tokens, List.take_length]
  rw [htokens, hautomaton, hlexemes]
  refine ⟨hd.layout_size, ?_, ?_⟩
  . intro i l hl
    rw [Array.getElem?_toList] at hl
    have ht : d.token? i = some l.token := by
      unfold Draft.token?
      rw [hl]
      rfl
    refine ⟨_, _, hd.layout_element? ht, rfl, ?_, rfl⟩
    unfold Draft.name
    rw [hl]
    rfl
  . have hassign := ha.assign v
    have hbits := ha.hasBits_assign hd hcount
    obtain ⟨t, hrun, _, hpath, hsteps⟩ :=
      hassign.runFrom_run verbose hd hbits [] 0 (d.lt_size_of_token? hd.start)
    refine ⟨t, ?_, ?_, ?_⟩
    . rw [runWith_text ha hcount]
      simp only [Automaton.run, hassign.start?_eq hd, hrun]
    . intro path outcome
      constructor
      . intro h
        exact h.unique hpath
      . intro ⟨h, h'⟩
        rw [h, h']
        exact hpath
    . intro hverbose
      rw [hsteps hverbose]
      simp

def loopingText : String :=
  "Yн ↓1 Y1 X1 ↑1 Y2 Yк"

def loopingScheme : Scheme :=
  { automaton := (Parsed.ofText loopingText).automaton
    lexemes := (Parsed.ofText loopingText).lexemes
    maxConditionals := 20 }

theorem parse_loopingText : parse loopingText = .ok (Parsed.ofText loopingText) := by
  apply parse_eq_ok_iff.mpr
  refine ⟨rfl, ?_⟩
  rw [Parsed.ofText_eq]
  decide +kernel

theorem Scheme.runWith_loopingScheme
    : ∃ t, (loopingScheme.runWith (ConditionVector.mk [true]).text false).1 = .ok t ∧
        Machine.Run ((Parsed.ofText loopingText).lexemes.map (·.token)) [true] [] 0 t.path t.outcome := by
  obtain ⟨_, _, t, hrun, hpath, _⟩ :=
    runWith_refines_machine (s := loopingScheme) (v := ⟨[true]⟩) parse_loopingText
      (Parsed.reset_automaton loopingText) (by rw [Parsed.ofText_eq]; decide +kernel) false
  exact ⟨t, hrun, (hpath t.path t.outcome).mpr ⟨rfl, rfl⟩⟩

end LogicalScheme
