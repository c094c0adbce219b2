import LogicalScheme.Proofs.Run
import LogicalScheme.Proofs.Valued
import Mathlib.Logic.Relation

/-!
This module contains the steps of control under some values of the conditions, and the choice of one vector
of values under which a run takes the steps of a given walk.
-/

namespace LogicalScheme

namespace Draft

/--
Control can go from the lexeme at `r` to the lexeme at `s`.
-/
inductive Leads (d : Draft) (r : Nat) : Nat → Prop where
  | through {t : Token} (ht : d.token? r = some t) (hfalls : t.fallsThrough = true)
    (hnext : r + 1 < d.size) : Leads d r (r + 1)
  | whenTrue {l : Letter} {n : UInt32} (ht : d.token? r = some (.conditional l n)) : Leads d r (r + 1)
  | whenFalse {l : Letter} {n : UInt32} (ht : d.token? r = some (.conditional l n)) : Leads d r (r + 2)
  | jump {t : Token} {index : UInt32} {q : Nat} (ht : d.token? r = some t)
    (hindex : t.jumpTarget? = some index) (hq : d.token? q = some (.jumpPoint index)) : Leads d r (q + 1)

theorem Leads.lt_size {d : Draft} {r s : Nat} (hd : d.WellFormed) (h : d.Leads r s) : s < d.size := by
  cases h with
  | through ht hfalls hnext => exact hnext
  | whenTrue ht =>
    obtain ⟨index, hjump⟩ := hd.jump _ _ _ ht
    exact d.lt_size_of_token? hjump
  | whenFalse ht =>
    obtain ⟨t, hbranch, _⟩ := hd.branch _ _ _ ht
    exact d.lt_size_of_token? hbranch
  | jump ht hindex hq => exact hd.point_onward _ _ hq

/--
The vector under which the conditional vertex at `p` takes its jump if `next p` is behind it.
-/
def steer (d : Draft) (next : Nat → Nat) : ConditionVector :=
  ⟨((List.range d.size).filter fun p => (d.token? p).any (·.isConditional)).map fun p => next p == p + 1⟩

theorem length_steer (d : Draft) (next : Nat → Nat)
    : (d.steer next).length = d.conditionals d.size := by
  simp [steer, ConditionVector.length, conditionals, List.countP_eq_length_filter]

theorem steer_getElem? {d : Draft} {p : Nat} {l : Letter} {n : UInt32} (next : Nat → Nat)
    (ht : d.token? p = some (.conditional l n))
    : (d.steer next).bits[d.conditionals p]? = some (next p == p + 1) := by
  have hconditional : (d.token? p).any (·.isConditional) = true := by
    rw [ht]
    rfl
  unfold steer conditionals
  rw [List.getElem?_map, filter_range_getElem? (d.lt_size_of_token? ht) hconditional]
  rfl

end Draft

namespace Automaton

/--
Control goes from `r` to `s` under some value of the condition at `r`.
-/
def StepsTo (a : Automaton) (r s : ElementRef) : Prop :=
  ∃ b, (a.modify r (.setValue (some b))).Goes r s

/--
Where control goes from an element of each kind. A conditional vertex goes to either branch, and a jump to the
successor of its jump point.
-/
def Target (a : Automaton) (e : Element) (s : ElementRef) : Prop :=
  match e.kind with
  | .start | .operator | .jumpPoint _ => e.next = some s
  | .finish => False
  | .conditional c => c.whenTrue = some s ∨ c.whenFalse = some s
  | .jump index _ => ∃ point, a.jumpPoint? index = some point ∧ a.next? point = some s

theorem next?_setValue (a : Automaton) (r p : Nat) (value : Option Bool)
    : (a.modify r (.setValue value)).next? p = a.next? p := by
  unfold next?
  rw [element?_modify]
  split
  . rw [Option.bind_map]
    rfl
  . rfl

theorem stepsTo_iff_target {a : Automaton} {r s : Nat}
    : a.StepsTo r s ↔ ∃ e, a.element? r = some e ∧ a.Target e s := by
  have hnext : ∀ b, (a.modify r (.setValue (some b))).next? = a.next? := by
    intro b
    funext p
    exact next?_setValue a r p (some b)
  have hjump : ∀ b index, (a.modify r (.setValue (some b))).jumpPoint? index = a.jumpPoint? index :=
    fun _ _ => rfl
  unfold StepsTo Goes follow
  simp only [element?_modify, ↓reduceIte, hnext, hjump]
  cases he : a.element? r with
  | none => simp
  | some e =>
    simp only [Option.map_some, Option.some.injEq, exists_eq_left', Element.setValue,
      Element.mapConditional, Target]
    cases e.kind with
    | start | operator | jumpPoint index | finish => simp [Kind.mapConditional]
    | jump index unconditional =>
      simp only [Kind.mapConditional, Except.ok.injEq, exists_const, Option.bind_eq_some_iff]
    | conditional c =>
      simp only [Kind.mapConditional, Except.ok.injEq, Conditional.branch, Bool.exists_bool,
        Bool.false_eq_true, ↓reduceIte]
      exact or_comm

namespace Valued

variable {d : Draft} {a : Automaton} {r s : Nat}

theorem setValue (ha : a.Valued d) (p : Nat) (value : Option Bool)
    : (a.modify p (.setValue value)).Valued d := by
  unfold Valued
  rw [reset_modify_setValue]
  exact ha

theorem value?_setValue {l : Letter} {n : UInt32} (hd : d.WellFormed) (ha : a.Valued d)
    (ht : d.token? r = some (.conditional l n)) (b : Bool)
    : (a.modify r (.setValue (some b))).value? r = some b := by
  unfold value?
  rw [element?_modify, if_pos rfl, ha.element? hd ht]
  rfl

theorem leads_of_goes (hd : d.WellFormed) (ha : a.Valued d) (h : a.Goes r s) : d.Leads r s := by
  have hr : r < d.size := by
    rw [← ha.size hd]
    exact has_of_follow h
  have ht := d.token?_of_lt hr
  generalize d.lexemes[r].token = t at ht
  unfold Goes at h
  cases t with
  | start | operator n | jumpPoint n =>
    rw [ha.follow_fallsThrough hd ht rfl] at h
    split at h
    . next hnext =>
      cases h
      exact .through ht rfl hnext
    . cases h
  | finish =>
    rw [ha.follow_finish hd ht] at h
    cases h
  | conditional l n =>
    rw [ha.follow_conditional hd ht] at h
    split at h
    . next b _ =>
      cases b with
      | true =>
        cases h
        exact .whenTrue ht
      | false =>
        cases h
        exact .whenFalse ht
    . cases h
  | conditionalJump n | unconditionalJump n =>
    obtain ⟨q, hq⟩ := hd.target r _ n ht rfl
    rw [ha.follow_jump hd ht rfl hq] at h
    cases h
    exact .jump ht rfl hq

theorem goes_of_leads (hd : d.WellFormed) (ha : a.Valued d) (h : d.Leads r s)
    (hvalue : ∀ l n, d.token? r = some (.conditional l n) → a.value? r = some (s == r + 1))
    : a.Goes r s := by
  unfold Goes
  cases h with
  | through ht hfalls hnext => rw [ha.follow_fallsThrough hd ht hfalls, if_pos hnext]
  | whenTrue ht =>
    rw [ha.follow_conditional hd ht, hvalue _ _ ht]
    simp
  | whenFalse ht =>
    rw [ha.follow_conditional hd ht, hvalue _ _ ht]
    simp
  | jump ht hindex hq => exact ha.follow_jump hd ht hindex hq

theorem stepsTo_iff (hd : d.WellFormed) (ha : a.Valued d) : a.StepsTo r s ↔ d.Leads r s := by
  constructor
  . intro ⟨b, h⟩
    exact (ha.setValue r (some b)).leads_of_goes hd h
  . intro h
    refine ⟨s == r + 1, (ha.setValue r _).goes_of_leads hd h ?_⟩
    intro l n ht
    exact ha.value?_setValue hd ht _

theorem goes_steer (hd : d.WellFormed) (ha : a.Valued d) (next : Nat → Nat) (h : d.Leads r s)
    (hnext : next r = s) : (a.assign (d.steer next)).Goes r s := by
  apply (ha.assign _).goes_of_leads hd h
  intro l n ht
  obtain ⟨b, hbit, hvalue⟩ := ha.value?_assign hd (d.length_steer next) ht
  rw [Draft.steer_getElem? next ht, hnext] at hbit
  rw [hvalue, ← hbit]

end Valued

end Automaton

theorem exists_next_of_nodup {walk : List Nat} (last : Nat) (h : walk.Nodup)
    : ∃ next : Nat → Nat, (walk ++ [last]).IsChain fun r s => next r = s := by
  -- the last element may be in the walk too, and nothing is asked of what follows it
  refine ⟨fun r => (walk ++ [last])[walk.idxOf r + 1]?.getD 0, ?_⟩
  rw [List.isChain_iff_getElem]
  intro i hi
  have hlt : i < walk.length := by
    rw [List.length_append] at hi
    exact Nat.lt_of_succ_lt_succ hi
  rw [List.getElem_append_left hlt]
  simp only [h.idxOf_getElem i hlt, List.getElem?_eq_getElem hi, Option.getD_some]

namespace Automaton

/--
Every walk without repetition is the beginning of a run under some vector.
-/
theorem Valued.exists_vector {d : Draft} {a : Automaton} {walk : List Nat} {last : Nat}
    (hd : d.WellFormed) (ha : a.Valued d) (hchain : (walk ++ [last]).IsChain d.Leads)
    (hnodup : walk.Nodup)
    : ∃ v : ConditionVector, v.length = d.conditionals d.size ∧
        (walk ++ [last]).IsChain (a.assign v).Goes := by
  obtain ⟨next, hnext⟩ := exists_next_of_nodup last hnodup
  refine ⟨d.steer next, d.length_steer next, ?_⟩
  rw [List.isChain_iff_getElem] at hchain hnext ⊢
  intro i hi
  exact ha.goes_steer hd next (hchain i hi) (hnext i hi)

end Automaton

end LogicalScheme
