import LogicalScheme.Loop
import LogicalScheme.Proofs.Arena
import LogicalScheme.Proofs.Run

/-!
This module contains what automata share that differ in the values of their conditions at most. A run sees
only the values on its path.
-/

namespace LogicalScheme

namespace Element

@[simp]
theorem setValue_setValue (value value' : Option Bool) (e : Element)
    : (e.setValue value).setValue value' = e.setValue value' := by
  unfold setValue mapConditional
  cases e.kind <;> rfl

theorem conditional?_setValue (value : Option Bool) (e : Element)
    : (e.setValue value).conditional? = e.conditional?.map ({ · with value }) := by
  unfold conditional? setValue mapConditional
  cases e.kind <;> rfl

@[simp]
theorem isSome_conditional?_setValue (value : Option Bool) (e : Element)
    : (e.setValue value).conditional?.isSome = e.conditional?.isSome := by
  rw [conditional?_setValue, Option.isSome_map]

@[simp]
theorem isStart_setValue (value : Option Bool) (e : Element) : (e.setValue value).isStart = e.isStart := by
  unfold isStart setValue mapConditional
  cases e.kind <;> rfl

@[simp]
theorem isFinish_setValue (value : Option Bool) (e : Element)
    : (e.setValue value).isFinish = e.isFinish := by
  unfold isFinish setValue mapConditional
  cases e.kind <;> rfl

@[simp]
theorem kind_text_setValue (value : Option Bool) (e : Element)
    : (e.setValue value).kind.text = e.kind.text := by
  unfold setValue mapConditional
  cases e.kind <;> rfl

theorem setValue_of_not_conditional {e : Element} (h : e.conditional? = none) (value : Option Bool)
    : e.setValue value = e := by
  obtain ⟨name, kind, position, next⟩ := e
  cases kind with
  | conditional c => contradiction
  | _ => rfl

theorem setValue_value (e : Element) : e.setValue (e.conditional?.bind (·.value)) = e := by
  obtain ⟨name, kind, position, next⟩ := e
  cases kind <;> rfl

end Element

namespace Automaton

theorem element?_reset (a : Automaton) (r : Nat)
    : a.reset.element? r = (a.element? r).map (.setValue none) := by
  simp [element?, reset]

theorem element?_assign (a : Automaton) (v : ConditionVector) (r : Nat)
    : (a.assign v).element? r = (a.element? r).map
        (.mapConditional fun c => { c with value := (v.get? c.index).or c.value }) := by
  simp [element?, assign]

section Values

variable {a : Automaton} {r p : Nat}

theorem value?_of_element? {e : Element} (h : a.element? r = some e)
    : a.value? r = e.conditional?.bind (·.value) := by
  unfold value?
  rw [h]
  rfl

theorem value?_of_not_conditional (h : ∀ e ∈ a.element? r, e.conditional? = none) : a.value? r = none := by
  unfold value?
  cases he : a.element? r with
  | none => rfl
  | some e =>
    rw [Option.bind_some, h e he]
    rfl

theorem not_conditional_of_isFinish (h : (a.element? r).any (·.isFinish) = true)
    : ∀ e ∈ a.element? r, e.conditional? = none := by
  intro e he
  rw [Option.mem_def.mp he, Option.any_some] at h
  have hkind : e.kind = .finish := beq_iff_eq.mp h
  unfold Element.conditional?
  rw [hkind]
  rfl

theorem value?_of_isFinish (h : (a.element? r).any (·.isFinish) = true) : a.value? r = none :=
  value?_of_not_conditional (not_conditional_of_isFinish h)

theorem value?_reset (a : Automaton) (r : Nat) : a.reset.value? r = none := by
  unfold value?
  rw [element?_reset]
  cases a.element? r with
  | none => rfl
  | some e =>
    rw [Option.map_some, Option.bind_some, Element.conditional?_setValue, Option.bind_map]
    cases e.conditional? <;> rfl

theorem value?_assign (a : Automaton) (v : ConditionVector) (r : Nat)
    : (a.assign v).value? r =
        ((a.element? r).bind (·.conditional?)).bind fun c => (v.get? c.index).or c.value := by
  unfold value?
  rw [element?_assign]
  cases a.element? r with
  | none => rfl
  | some e =>
    obtain ⟨name, kind, position, next⟩ := e
    cases kind <;> rfl

theorem value?_modify_of_ne {value : Option Bool} (h : p ≠ r)
    : (a.modify r (.setValue value)).value? p = a.value? p := by
  unfold value?
  rw [element?_modify, if_neg h]

end Values

section Reset

theorem reset_reset (a : Automaton) : a.reset.reset = a.reset := by
  unfold reset
  rw [Array.map_map]
  congr 2
  funext e
  exact Element.setValue_setValue none none e

theorem reset_assign (a : Automaton) (v : ConditionVector) : (a.assign v).reset = a.reset := by
  unfold reset assign
  rw [Array.map_map]
  congr 2
  funext e
  unfold Function.comp Element.setValue Element.mapConditional
  cases e.kind <;> rfl

theorem reset_modify_setValue (a : Automaton) (r : Nat) (value : Option Bool)
    : (a.modify r (.setValue value)).reset = a.reset := by
  unfold reset modify
  congr 1
  apply Array.ext_getElem?
  intro p
  rw [Array.getElem?_map, Array.getElem?_map, Array.getElem?_modify]
  split
  . rw [Option.map_map]
    congr 1
    funext e
    exact Element.setValue_setValue value none e
  . rfl

theorem start?_reset (a : Automaton) : a.reset.start? = a.start? := by
  unfold start? reset
  rw [Array.findIdx?_map]
  congr 1
  funext e
  exact Element.isStart_setValue none e

theorem elementAt?_reset (a : Automaton) (position : Nat)
    : a.reset.elementAt? position = a.elementAt? position := by
  unfold elementAt? reset
  rw [Array.findIdx?_map]
  rfl

theorem conditionalCount_reset (a : Automaton) : a.reset.conditionalCount = a.conditionalCount := by
  unfold conditionalCount reset
  rw [Array.countP_map]
  congr 1
  funext e
  exact Element.isSome_conditional?_setValue none e

theorem next?_reset (a : Automaton) (r : Nat) : a.reset.next? r = a.next? r := by
  unfold next?
  rw [element?_reset, Option.bind_map]
  rfl

theorem name_reset (a : Automaton) (r : Nat) : a.reset.name r = a.name r := by
  unfold name
  rw [element?_reset, Option.map_map]
  rfl

theorem position_reset (a : Automaton) (r : Nat) : a.reset.position r = a.position r := by
  unfold position
  rw [element?_reset, Option.map_map]
  rfl

theorem any_isFinish_reset (a : Automaton) (r : Nat)
    : (a.reset.element? r).any (·.isFinish) = (a.element? r).any (·.isFinish) := by
  rw [element?_reset, Option.any_map]
  congr 1
  funext e
  exact Element.isFinish_setValue none e

end Reset

section Congruence

variable {a b : Automaton} {r : Nat}

theorem element?_map_setValue (a : Automaton) (r : Nat)
    : (a.element? r).map (.setValue (a.value? r)) = a.element? r := by
  cases he : a.element? r with
  | none => rfl
  | some e => rw [value?_of_element? he, Option.map_some, Element.setValue_value]

theorem element?_of_reset_eq (h : b.reset = a.reset) (r : Nat)
    : b.element? r = (a.element? r).map (.setValue (b.value? r)) := by
  have hset : ∀ c : Automaton, (c.reset.element? r).map (Element.setValue (b.value? r)) =
      (c.element? r).map (Element.setValue (b.value? r)) := by
    intro c
    rw [element?_reset, Option.map_map]
    congr 1
    funext e
    exact Element.setValue_setValue none _ e
  rw [← hset, ← h, hset, element?_map_setValue]

theorem element?_congr (h : a.reset = b.reset) (hvalue : a.value? r = b.value? r)
    : a.element? r = b.element? r := by
  rw [element?_of_reset_eq h, hvalue, element?_map_setValue]

theorem not_conditional_congr (h : a.reset = b.reset) (hnot : ∀ e ∈ a.element? r, e.conditional? = none)
    : ∀ e ∈ b.element? r, e.conditional? = none := by
  rw [element?_of_reset_eq h.symm]
  intro e he
  obtain ⟨e', he', rfl⟩ := Option.map_eq_some_iff.mp he
  rw [Element.conditional?_setValue, hnot e' he']
  rfl

theorem jumpPoint?_congr (h : a.reset = b.reset) (index : UInt32)
    : a.jumpPoint? index = b.jumpPoint? index := by
  calc
    a.jumpPoint? index = a.reset.jumpPoint? index := rfl
    _ = b.reset.jumpPoint? index := by rw [h]

theorem next?_congr (h : a.reset = b.reset) : a.next? = b.next? := by
  funext r
  rw [← next?_reset a, h, next?_reset]

theorem follow_congr (h : a.reset = b.reset) (hvalue : a.value? r = b.value? r)
    : a.follow r = b.follow r := by
  unfold follow
  rw [element?_congr h hvalue, next?_congr h, funext (jumpPoint?_congr h)]

theorem start?_congr (h : a.reset = b.reset) : a.start? = b.start? := by
  rw [← start?_reset a, h, start?_reset]

theorem any_isFinish_congr (h : a.reset = b.reset) (r : Nat)
    : (a.element? r).any (·.isFinish) = (b.element? r).any (·.isFinish) := by
  rw [← any_isFinish_reset a, h, any_isFinish_reset]

theorem arrive_congr (h : a.reset = b.reset) (hvalue : a.value? r = b.value? r) (t : Trace)
    : Trace.arrive a r t = Trace.arrive b r t := by
  unfold Trace.arrive
  rw [element?_congr h hvalue]

theorem runFrom_congr {verbose : Bool} {seen : List Nat} {t : Trace} (h : a.reset = b.reset)
    (hrun : a.runFrom verbose seen r = .ok t) (hvalues : ∀ p ∈ t.path, a.value? p = b.value? p)
    : b.runFrom verbose seen r = .ok t := by
  fun_induction runFrom a verbose seen r generalizing t with
  | case1 seen r hseen =>
    cases hrun
    rw [runFrom_of_mem hseen, arrive_congr h (hvalues r List.mem_cons_self)]
  | case2 seen r hseen hfinish =>
    cases hrun
    rw [any_isFinish_congr h] at hfinish
    rw [runFrom_of_isFinish hseen hfinish, arrive_congr h (hvalues r List.mem_cons_self)]
  | case3 seen r hseen hfinish e hfollow => cases hrun
  | case4 seen r hseen hfinish hfollow =>
    cases hrun
    have hvalue := hvalues r List.mem_cons_self
    rw [any_isFinish_congr h] at hfinish
    rw [follow_congr h hvalue] at hfollow
    rw [runFrom_of_follow_eq_none hseen hfinish hfollow, arrive_congr h hvalue]
  | case5 seen r hseen hfinish next hfollow ih =>
    obtain ⟨t', hrest, rfl⟩ := map_eq_ok_iff.mp hrun
    have hvalue := hvalues r List.mem_cons_self
    rw [any_isFinish_congr h] at hfinish
    rw [follow_congr h hvalue] at hfollow
    have hvalues' : ∀ p ∈ t'.path, a.value? p = b.value? p := fun p hp =>
      hvalues p (List.mem_cons_of_mem r hp)
    rw [runFrom_of_follow_eq_some hseen hfinish hfollow, ih hrest hvalues']
    exact congrArg Except.ok (arrive_congr h hvalue t').symm

theorem run_congr {verbose : Bool} {t : Trace} (h : a.reset = b.reset) (hrun : a.run verbose = .ok t)
    (hvalues : ∀ p ∈ t.path, a.value? p = b.value? p) : b.run verbose = .ok t := by
  unfold run at hrun ⊢
  rw [← start?_congr h]
  split at hrun
  . exact runFrom_congr h hrun hvalues
  . exact hrun

end Congruence

end Automaton

namespace Loop

theorem entryThrough?_reset (a : Automaton) (r : Nat) : entryThrough? a.reset r = entryThrough? a r := by
  unfold entryThrough?
  rw [Automaton.element?_reset, Option.bind_map, funext (Automaton.next?_reset a)]
  congr 1
  funext e
  unfold Function.comp Element.setValue Element.mapConditional
  cases e.kind <;> rfl

theorem ofPath_reset (a : Automaton) (path : List ElementRef) : ofPath a.reset path = ofPath a path := by
  unfold ofPath canonical first? entries
  simp only [funext (entryThrough?_reset a), funext (Automaton.position_reset a),
    funext (Automaton.name_reset a)]

theorem ofPath_congr {a b : Automaton} (h : a.reset = b.reset) : ofPath a = ofPath b := by
  funext path
  rw [← ofPath_reset a, h, ofPath_reset]

end Loop

end LogicalScheme
