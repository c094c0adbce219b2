import LogicalScheme.Automaton.Call
import LogicalScheme.Proofs.Values

/-!
This module contains histories of calls on a new automaton. Whatever a history does, successors, jump points and
what is fixed of an element are written once.
-/

namespace LogicalScheme

namespace Element

/--
What is fixed of an element when it is added: all but its successor, and of a conditional vertex but its value
and its branches.
-/
def bare (e : Element) : Element :=
  { e.mapConditional (fun c => { index := c.index }) with next := none }

theorem bare_mapConditional {f : Conditional → Conditional} (hf : ∀ c, (f c).index = c.index) (e : Element)
    : (e.mapConditional f).bare = e.bare := by
  obtain ⟨name, kind, position, next⟩ := e
  cases kind with
  | conditional c => simp only [bare, mapConditional, Kind.mapConditional, hf]
  | _ => rfl

theorem isSome_conditional?_bare (e : Element)
    : e.bare.conditional?.isSome = e.conditional?.isSome := by
  unfold bare conditional? mapConditional
  cases e.kind <;> rfl

theorem conditional?_mapConditional (f : Conditional → Conditional) (e : Element)
    : (e.mapConditional f).conditional? = e.conditional?.map f := by
  unfold conditional? mapConditional
  cases e.kind <;> rfl

end Element

namespace Automaton

def after (a : Automaton) (calls : List Call) : Automaton :=
  calls.foldl (fun b call => (call.perform b).2) a

def Admits (a : Automaton) : List Call → Prop
  | [] => True
  | call :: calls => call.Admissible a ∧ (call.perform a).2.Admits calls

instance decidableAdmits : (a : Automaton) → (calls : List Call) → Decidable (a.Admits calls)
  | _, [] => isTrue trivial
  | a, call :: calls =>
    have := decidableAdmits (call.perform a).2 calls
    inferInstanceAs (Decidable (_ ∧ _))

def bares (a : Automaton) : List Element :=
  a.elements.toList.map Element.bare

/--
What is written in `a` stands in `b` as well.
-/
structure Extends (b a : Automaton) : Prop where
  next? : ∀ r target, a.next? r = some target → b.next? r = some target
  jumpPoints : a.jumpPoints <+: b.jumpPoints
  bares : a.bares <+: b.bares

namespace Call

def linkTarget? (r : ElementRef) : Call → Option ElementRef
  | link source target => if source = r then some target else none
  | _ => none

def registration? : Call → Option (UInt32 × ElementRef)
  | register index point => some (index, point)
  | _ => none

def added? : Call → Option Element
  | add name kind position => some { name, kind, position }
  | _ => none

/--
The calls that build an automaton. The others are about the values of its conditional vertices.
-/
def builds : Call → Bool
  | add _ _ _ | link _ _ | register _ _ | setBranches _ _ _ => true
  | assign _ | assignText _ | setCondition _ _ | reset => false

/--
What a call finds where it is to write something else, given the successors and the jump points so far.
-/
def conflict? (next? : ElementRef → Option ElementRef) (jumpPoint? : UInt32 → Option ElementRef)
    : Call → Option ElementRef
  | link source target => (next? source).filter (· ≠ target)
  | register index _ => jumpPoint? index
  | _ => none

end Call

def firstTarget? (calls : List Call) (r : ElementRef) : Option ElementRef :=
  calls.findSome? (·.linkTarget? r)

def registrations (calls : List Call) : List (UInt32 × ElementRef) :=
  calls.filterMap (·.registration?)

def firstPoint? (calls : List Call) (index : UInt32) : Option ElementRef :=
  (registrations calls).lookup index

/--
The first declaration of every number that `points` does not declare.
-/
def newPoints (points declared : List (UInt32 × ElementRef)) : List (UInt32 × ElementRef) :=
  (declared.filter fun x => (points.lookup x.1).isNone).eraseDupsBy fun x y => x.1 == y.1

/--
What is known of a call that is made behind the calls `before`, in the automaton `a` that they led to. It
reports what was written first if it is to write something else, and then changes nothing. Calls that build
leave the values of the vertices as they are, and the others leave all but the values.
-/
structure Call.WritesOnce (before : List Call) (a : Automaton) (call : Call) : Prop where
  taken_iff : ∀ existing,
    (call.perform a).1 = .taken existing ↔
      call.conflict? (firstTarget? before) (firstPoint? before) = some existing
  unchanged : ∀ existing, (call.perform a).1 = .taken existing → (call.perform a).2 = a
  values : call.builds = true → ∀ r, a.Has r → (call.perform a).2.value? r = a.value? r
  reset : call.builds = false → (call.perform a).2.reset = a.reset

theorem bares_getElem? (a : Automaton) (r : Nat) : a.bares[r]? = (a.element? r).map Element.bare := by
  unfold bares element?
  rw [List.getElem?_map, Array.getElem?_toList]

section Fixed

variable {a b : Automaton} {r p : Nat} {f : Element → Element}

theorem bind_element?_modify {α : Type} {g : Element → Option α} (hf : ∀ e, g (f e) = g e)
    : ((a.modify r f).element? p).bind g = (a.element? p).bind g := by
  rw [element?_modify]
  split
  . cases a.element? p with
    | none => rfl
    | some e => exact hf e
  . rfl

theorem next?_modify (hf : ∀ e, (f e).next = e.next) : (a.modify r f).next? p = a.next? p :=
  bind_element?_modify hf

theorem value?_modify (hf : ∀ e, (f e).conditional?.bind (·.value) = e.conditional?.bind (·.value))
    : (a.modify r f).value? p = a.value? p := by
  unfold value?
  rw [Option.bind_assoc, Option.bind_assoc]
  exact bind_element?_modify hf

theorem bares_modify (hf : ∀ e, (f e).bare = e.bare) : (a.modify r f).bares = a.bares := by
  apply List.ext_getElem?
  intro p
  simp only [bares, modify, List.getElem?_map, Array.getElem?_toList, Array.getElem?_modify]
  split
  . cases a.elements[p]? with
    | none => rfl
    | some e => exact congrArg some (hf e)
  . rfl

theorem bares_reset (a : Automaton) : a.reset.bares = a.bares := by
  unfold bares reset
  rw [Array.toList_map, List.map_map]
  apply List.map_congr_left
  intro e _
  apply Element.bare_mapConditional
  exact fun _ => rfl

theorem bares_congr (h : a.reset = b.reset) : a.bares = b.bares := by
  rw [← bares_reset a, h, bares_reset b]

theorem jumpPoints_congr (h : a.reset = b.reset) : a.jumpPoints = b.jumpPoints :=
  calc
    a.jumpPoints = a.reset.jumpPoints := rfl
    _ = b.reset.jumpPoints := by rw [h]

end Fixed

/--
What a call replies in the automaton `a`, and what it makes of it.
-/
inductive Call.Step (a : Automaton) : Call → Reply → Automaton → Prop
  | add {name : Name} {kind : Kind} {position : Nat}
      : Step a (.add name kind position) (.added a.elements.size) (a.add name kind position)
  | link {source target : ElementRef} : a.next? source = none →
      Step a (.link source target) .done (a.modify source ({ · with next := some target }))
  | linkAgain {source target : ElementRef} : a.next? source = some target →
      Step a (.link source target) .done a
  | linkTaken {source target existing : ElementRef} : a.next? source = some existing → existing ≠ target →
      Step a (.link source target) (.taken existing) a
  | register {index : UInt32} {point : ElementRef} : a.jumpPoint? index = none →
      Step a (.register index point) .done { a with jumpPoints := a.jumpPoints ++ [(index, point)] }
  | registerTaken {index : UInt32} {point existing : ElementRef} : a.jumpPoint? index = some existing →
      Step a (.register index point) (.taken existing) a
  | setBranches {vertex : ElementRef} {whenTrue whenFalse : Option ElementRef}
      : Step a (.setBranches vertex whenTrue whenFalse) .done (a.setBranches vertex whenTrue whenFalse)
  | values {call : Call} {reply : Reply} {b : Automaton} : call.builds = false → b.reset = a.reset →
      (∀ existing, reply ≠ .taken existing) → Step a call reply b

theorem Reply.done_ne_taken (existing : ElementRef) : Reply.done ≠ .taken existing :=
  Reply.noConfusion

theorem Reply.misused_ne_taken (e : UsageError) (existing : ElementRef) : Reply.misused e ≠ .taken existing :=
  Reply.noConfusion

theorem Call.step_perform (a : Automaton) (call : Call)
    : Step a call (call.perform a).1 (call.perform a).2 := by
  cases call with
  | add name kind position => exact .add
  | link source target =>
    simp only [perform, Automaton.link]
    split
    . next existing hnext =>
      by_cases heq : existing = target
      . rw [if_pos heq]
        exact .linkAgain (heq ▸ hnext)
      . rw [if_neg heq]
        exact .linkTaken hnext heq
    . next hnext => exact .link hnext
  | register index point =>
    simp only [perform, Automaton.register]
    split
    . next existing hpoint => exact .registerTaken hpoint
    . next hpoint => exact .register hpoint
  | setBranches vertex whenTrue whenFalse => exact .setBranches
  | assign v => exact .values rfl (reset_assign a v) Reply.done_ne_taken
  | assignText bits =>
    simp only [perform, Automaton.assignText]
    cases ConditionVector.parse bits a.conditionalCount with
    | error e => exact .values rfl rfl (Reply.misused_ne_taken e)
    | ok v => exact .values rfl (reset_assign a v) Reply.done_ne_taken
  | setCondition index value =>
    simp only [perform, Automaton.setCondition]
    split
    . next r _ => exact .values rfl (reset_modify_setValue a r (some value)) Reply.done_ne_taken
    . exact .values rfl rfl (Reply.misused_ne_taken _)
  | reset => exact .values rfl (reset_reset a) Reply.done_ne_taken

theorem Call.eq_none_of_not_builds {call : Call} (h : call.builds = false)
    : (∀ r, call.linkTarget? r = none) ∧ call.registration? = none ∧ call.added? = none ∧
        ∀ next? jumpPoint?, call.conflict? next? jumpPoint? = none := by
  cases call with
  | add | link | register | setBranches => contradiction
  | _ => exact ⟨fun _ => rfl, rfl, rfl, fun _ _ => rfl⟩

namespace Call.Step

variable {a b : Automaton} {call : Call} {reply : Reply}

theorem taken_iff (h : Step a call reply b) (existing : ElementRef)
    : reply = .taken existing ↔ call.conflict? a.next? a.jumpPoint? = some existing := by
  cases h with
  | add => exact iff_of_false nofun nofun
  | link hnext => simp only [conflict?, hnext, Option.filter_none, reduceCtorEq]
  | linkAgain hnext => simp [conflict?, hnext, Option.filter]
  | linkTaken hnext hne => simp [conflict?, hnext, Option.filter, hne]
  | register hpoint => simp only [conflict?, hpoint, reduceCtorEq]
  | registerTaken hpoint => simp only [conflict?, hpoint, Reply.taken.injEq, Option.some.injEq]
  | setBranches => exact iff_of_false nofun nofun
  | values hbuilds _ hreply =>
    obtain ⟨_, _, _, hnone⟩ := eq_none_of_not_builds hbuilds
    rw [hnone]
    exact iff_of_false (hreply existing) nofun

theorem eq_of_taken {existing : ElementRef} (h : Step a call (.taken existing) b) : b = a := by
  cases h with
  | linkTaken => rfl
  | registerTaken => rfl
  | values _ _ hreply => exact absurd rfl (hreply existing)

theorem value?_eq (h : Step a call reply b) (hbuilds : call.builds = true) {r : Nat} (hr : a.Has r)
    : b.value? r = a.value? r := by
  cases h with
  | add =>
    unfold value?
    rw [element?_add_of_lt _ _ _ _ hr]
  | link => exact value?_modify fun _ => rfl
  | setBranches =>
    apply value?_modify
    intro e
    rw [Element.conditional?_mapConditional]
    cases e.conditional? <;> rfl
  | values hnot =>
    rw [hbuilds] at hnot
    contradiction
  | _ => rfl

theorem reset_eq (h : Step a call reply b) (hbuilds : call.builds = false) : b.reset = a.reset := by
  cases h with
  | values _ hreset => exact hreset
  | _ => contradiction

theorem next?_eq (h : Step a call reply b) (hadmissible : call.Admissible a) (r : Nat)
    : b.next? r = (a.next? r).or (call.linkTarget? r) := by
  cases h with
  | add =>
    rw [linkTarget?.eq_def, Option.or_none]
    unfold next?
    rcases Nat.lt_trichotomy r a.elements.size with hlt | rfl | hgt
    . rw [element?_add_of_lt _ _ _ _ hlt]
    . rw [element?_add_size, element?_eq_none (Nat.le_refl _)]
      rfl
    . rw [element?_eq_none (Nat.le_of_lt hgt), element?_eq_none (by rw [add_size]; omega)]
  | @link source target hnext =>
    rw [linkTarget?]
    by_cases heq : source = r
    . subst heq
      obtain ⟨e, he⟩ : ∃ e, a.element? source = some e := ⟨_, Array.getElem?_eq_getElem hadmissible⟩
      rw [hnext, if_pos rfl]
      unfold next?
      rw [element?_modify, if_pos rfl, he]
      rfl
    . rw [if_neg heq, Option.or_none]
      unfold next?
      rw [element?_modify, if_neg (Ne.symm heq)]
  | @linkAgain source _ hnext | @linkTaken source _ _ hnext =>
    rw [linkTarget?]
    by_cases heq : source = r
    . rw [← heq, hnext, Option.some_or]
    . rw [if_neg heq, Option.or_none]
  | setBranches =>
    rw [linkTarget?.eq_def, Option.or_none]
    exact next?_modify fun _ => rfl
  | values hbuilds hreset =>
    rw [(eq_none_of_not_builds hbuilds).left, Option.or_none, next?_congr hreset]
  | _ => exact Option.or_none.symm

theorem bares_eq (h : Step a call reply b) : b.bares = a.bares ++ (call.added?.map Element.bare).toList := by
  cases h with
  | add => simp [bares, added?, Automaton.add]
  | link =>
    refine Eq.trans (bares_modify ?_) (List.append_nil _).symm
    exact fun _ => rfl
  | setBranches =>
    refine Eq.trans (bares_modify ?_) (List.append_nil _).symm
    apply Element.bare_mapConditional
    exact fun _ => rfl
  | values hbuilds hreset =>
    rw [(eq_none_of_not_builds hbuilds).right.right.left, bares_congr hreset]
    exact (List.append_nil _).symm
  | _ => exact (List.append_nil _).symm

theorem jumpPoints_eq (h : Step a call reply b)
    : b.jumpPoints = a.jumpPoints ++ (call.registration?.filter fun x => (a.jumpPoint? x.1).isNone).toList := by
  cases h with
  | register hpoint => simp [registration?, hpoint, Option.filter]
  | registerTaken hpoint => simp [registration?, hpoint, Option.filter]
  | values hbuilds hreset =>
    rw [(eq_none_of_not_builds hbuilds).right.left, jumpPoints_congr hreset]
    exact (List.append_nil _).symm
  | _ => exact (List.append_nil _).symm

theorem jumpPoint?_eq (h : Step a call reply b) (index : UInt32)
    : b.jumpPoint? index = (a.jumpPoint? index).or (call.registration?.toList.lookup index) := by
  unfold jumpPoint?
  rw [h.jumpPoints_eq, List.lookup_append]
  cases call.registration? with
  | none => rfl
  | some x =>
    cases hpoint : a.jumpPoint? x.1 with
    | none => simp [Option.filter, hpoint]
    | some existing =>
      by_cases heq : index = x.1
      . unfold jumpPoint? at hpoint
        rw [heq, hpoint, Option.some_or, Option.some_or]
      . have hother : List.lookup index [x] = none := by simp [heq]
        rw [Option.toList_some, hother, Option.or_none]
        simp [Option.filter, hpoint]

theorem nodup_jumpPoints (h : Step a call reply b) (hnodup : (a.jumpPoints.map (·.1)).Nodup)
    : (b.jumpPoints.map (·.1)).Nodup := by
  rw [h.jumpPoints_eq, List.map_append]
  cases call.registration? with
  | none => simpa using hnodup
  | some x =>
    cases hpoint : a.jumpPoint? x.1 with
    | none =>
      have hnew : ∀ y ∈ a.jumpPoints, (x.1 != y.1) = true := List.lookup_eq_none_iff.mp hpoint
      have hnot : x.1 ∉ a.jumpPoints.map (·.1) := by
        intro hmem
        obtain ⟨y, hy, heq⟩ := List.mem_map.mp hmem
        exact absurd heq.symm (bne_iff_ne.mp (hnew y hy))
      simpa [Option.filter, hpoint] using List.nodup_append_comm.mp (List.nodup_cons.mpr ⟨hnot, hnodup⟩)
    | some existing => simpa [Option.filter, hpoint] using hnodup

end Call.Step

theorem newPoints_nil (declared : List (UInt32 × ElementRef))
    : newPoints [] declared = declared.eraseDupsBy fun x y => x.1 == y.1 := by
  have hall : declared.filter (fun x => (List.lookup x.1 ([] : List (UInt32 × ElementRef))).isNone) = declared :=
    List.filter_eq_self.mpr fun _ _ => rfl
  unfold newPoints
  rw [hall]

section NewPoints

variable {points declared : List (UInt32 × ElementRef)} {x : UInt32 × ElementRef}

theorem newPoints_cons_of_eq_some {existing : ElementRef} (h : points.lookup x.1 = some existing)
    : newPoints points (x :: declared) = newPoints points declared := by
  unfold newPoints
  rw [List.filter_cons_of_neg (by rw [h]; exact nofun)]

theorem newPoints_cons_of_eq_none (h : points.lookup x.1 = none)
    : newPoints points (x :: declared) = x :: newPoints (points ++ [x]) declared := by
  unfold newPoints
  rw [List.filter_cons_of_pos (by rw [h]; rfl), List.eraseDupsBy_cons, List.filter_filter]
  congr 2
  apply List.filter_congr
  intro y _
  rw [List.lookup_append, Option.isNone_or, Bool.and_comm]
  by_cases heq : y.1 = x.1
  . simp [heq]
  . simp [heq]

end NewPoints

section History

variable {a : Automaton} {calls : List Call}

theorem next?_after (h : a.Admits calls) (r : Nat)
    : (a.after calls).next? r = (a.next? r).or (firstTarget? calls r) := by
  induction calls generalizing a with
  | nil => exact Option.or_none.symm
  | cons call calls ih =>
    have hfirst : firstTarget? (call :: calls) r = (call.linkTarget? r).or (firstTarget? calls r) := by
      unfold firstTarget?
      rw [List.findSome?_cons]
      cases call.linkTarget? r <;> rfl
    calc
      (a.after (call :: calls)).next? r = ((call.perform a).2.next? r).or (firstTarget? calls r) := ih h.right
      _ = ((a.next? r).or (call.linkTarget? r)).or (firstTarget? calls r) := by
        rw [(call.step_perform a).next?_eq h.left]
      _ = (a.next? r).or (firstTarget? (call :: calls) r) := by rw [Option.or_assoc, hfirst]

theorem bares_after (a : Automaton) (calls : List Call)
    : (a.after calls).bares = a.bares ++ (calls.filterMap (·.added?)).map Element.bare := by
  induction calls generalizing a with
  | nil => exact (List.append_nil _).symm
  | cons call calls ih =>
    have hcons : ((call :: calls).filterMap (·.added?)).map Element.bare =
        (call.added?.map Element.bare).toList ++ (calls.filterMap (·.added?)).map Element.bare := by
      rw [List.filterMap_cons]
      cases call.added? <;> rfl
    calc
      (a.after (call :: calls)).bares = (call.perform a).2.bares ++ (calls.filterMap (·.added?)).map Element.bare :=
        ih (call.perform a).2
      _ = a.bares ++ ((call :: calls).filterMap (·.added?)).map Element.bare := by
        rw [(call.step_perform a).bares_eq, List.append_assoc, hcons]

theorem registrations_cons (call : Call) (calls : List Call)
    : registrations (call :: calls) = call.registration?.toList ++ registrations calls := by
  unfold registrations
  rw [List.filterMap_cons]
  cases call.registration? <;> rfl

theorem jumpPoint?_after (a : Automaton) (calls : List Call) (index : UInt32)
    : (a.after calls).jumpPoint? index = (a.jumpPoint? index).or (firstPoint? calls index) := by
  induction calls generalizing a with
  | nil => exact Option.or_none.symm
  | cons call calls ih =>
    calc
      (a.after (call :: calls)).jumpPoint? index =
          ((call.perform a).2.jumpPoint? index).or (firstPoint? calls index) := ih (call.perform a).2
      _ = (a.jumpPoint? index).or (firstPoint? (call :: calls) index) := by
        unfold firstPoint?
        rw [(call.step_perform a).jumpPoint?_eq, Option.or_assoc, registrations_cons, List.lookup_append]

theorem nodup_jumpPoints_after (h : (a.jumpPoints.map (·.1)).Nodup) (calls : List Call)
    : ((a.after calls).jumpPoints.map (·.1)).Nodup := by
  induction calls generalizing a with
  | nil => exact h
  | cons call calls ih => exact ih ((call.step_perform a).nodup_jumpPoints h)

theorem jumpPoints_after (a : Automaton) (calls : List Call)
    : (a.after calls).jumpPoints = a.jumpPoints ++ newPoints a.jumpPoints (registrations calls) := by
  induction calls generalizing a with
  | nil => exact (List.append_nil _).symm
  | cons call calls ih =>
    have hstep := (call.step_perform a).jumpPoints_eq
    change ((call.perform a).2.after calls).jumpPoints = _
    rw [ih, hstep, registrations_cons, List.append_assoc]
    congr 1
    cases call.registration? with
    | none =>
      rw [Option.filter_none, Option.toList_none, List.append_nil]
      rfl
    | some x =>
      cases hpoint : a.jumpPoint? x.1 with
      | none =>
        have hkept : (some x).filter (fun x => (a.jumpPoint? x.1).isNone) = some x :=
          Option.filter_some_pos (by rw [hpoint]; rfl)
        rw [hkept]
        exact (newPoints_cons_of_eq_none hpoint).symm
      | some existing =>
        have hdropped : (some x).filter (fun x => (a.jumpPoint? x.1).isNone) = none :=
          Option.filter_some_neg (by rw [hpoint]; rfl)
        rw [hdropped, Option.toList_none, List.append_nil]
        exact (newPoints_cons_of_eq_some hpoint).symm

theorem after_append (a : Automaton) (before rest : List Call)
    : a.after (before ++ rest) = (a.after before).after rest :=
  List.foldl_append

theorem Admits.of_append {before rest : List Call} (h : a.Admits (before ++ rest))
    : a.Admits before ∧ (a.after before).Admits rest := by
  induction before generalizing a with
  | nil => exact ⟨trivial, h⟩
  | cons call before ih =>
    obtain ⟨hbefore, hrest⟩ := ih h.right
    exact ⟨⟨h.left, hbefore⟩, hrest⟩

theorem Admits.append {before rest : List Call} (hbefore : a.Admits before)
    (hrest : (a.after before).Admits rest) : a.Admits (before ++ rest) := by
  induction before generalizing a with
  | nil => exact hrest
  | cons call before ih => exact ⟨hbefore.left, ih hbefore.right hrest⟩

theorem extends_after (h : a.Admits calls) : (a.after calls).Extends a where
  next? := by
    intro r target hnext
    rw [next?_after h, hnext, Option.some_or]
  jumpPoints := by
    rw [jumpPoints_after]
    exact List.prefix_append _ _
  bares := by
    rw [bares_after]
    exact List.prefix_append _ _

end History

structure WrittenOnce (new : Automaton) (calls : List Call) : Prop where
  next? : ∀ r, (new.after calls).next? r = firstTarget? calls r
  jumpPoints : (new.after calls).jumpPoints = (registrations calls).eraseDupsBy fun x y => x.1 == y.1
  nodup : ((new.after calls).jumpPoints.map (·.1)).Nodup
  bares : (new.after calls).bares = (calls.filterMap (·.added?)).map Element.bare
  call : ∀ before call rest, calls = before ++ call :: rest → call.WritesOnce before (new.after before)
  lasting : ∀ before rest, calls = before ++ rest → (new.after calls).Extends (new.after before)

/--
Every history of calls writes once: each successor is where the first link leads, the jump points are the first
declarations of their numbers, the elements are those that were added, and whatever is written at some time
stays to the end.
-/
theorem writtenOnce (tokens : List String) (source : String) (calls : List Call)
    (h : ({ tokens, source } : Automaton).Admits calls) : WrittenOnce { tokens, source } calls where
  next? := next?_after h
  jumpPoints := by
    rw [jumpPoints_after, newPoints_nil]
    exact List.nil_append _
  nodup := by
    apply nodup_jumpPoints_after
    exact List.nodup_nil
  bares := bares_after _ calls
  call := by
    intro before call rest hcalls
    subst hcalls
    obtain ⟨hbefore, -⟩ := h.of_append
    have hstep := call.step_perform (({ tokens, source } : Automaton).after before)
    have hnext : (({ tokens, source } : Automaton).after before).next? = firstTarget? before :=
      funext (next?_after hbefore)
    have hpoint : (({ tokens, source } : Automaton).after before).jumpPoint? = firstPoint? before :=
      funext (jumpPoint?_after _ before)
    constructor
    . intro existing
      rw [hstep.taken_iff, hnext, hpoint]
    . intro existing htaken
      rw [htaken] at hstep
      exact hstep.eq_of_taken
    . exact fun hbuilds r hr => hstep.value?_eq hbuilds hr
    . exact hstep.reset_eq
  lasting := by
    intro before rest hcalls
    subst hcalls
    rw [after_append]
    exact extends_after h.of_append.right

/--
The scheme `Yн X1 ↑1 Y1 ↓1 Yк`, where the start is to be linked a second time.
-/
def linkedCalls : List Call :=
  [.add ⟨"Yн"⟩ .start 0, .add ⟨"X1"⟩ (.conditional { index := 1 }) 1, .add ⟨"↑1"⟩ (.jump 1 false) 2,
    .add ⟨"Y1"⟩ .operator 3, .add ⟨"↓1"⟩ (.jumpPoint 1) 4, .add ⟨"Yк"⟩ .finish 5, .link 0 1,
    .setBranches 1 (some 2) (some 3), .link 3 4, .link 4 5, .register 1 4, .setCondition 1 true, .link 0 1]

theorem writtenOnce_linkedCalls
    : let new : Automaton := { tokens := ["Yн", "X1", "↑1", "Y1", "↓1", "Yк"], source := "Yн X1 ↑1 Y1 ↓1 Yк" }
      let calls := linkedCalls ++ [.link 0 5, .register 1 3, .assignText "10", .assignText "0", .reset]
      new.Admits calls ∧ ((Call.link 0 5).perform (new.after linkedCalls)).1 = .taken 1 ∧
        (new.after calls).next? 0 = some 1 ∧ (new.after calls).jumpPoints = [(1, 4)] := by
  intro new calls
  have hadmits : new.Admits calls := by decide +kernel
  have h := writtenOnce new.tokens new.source calls hadmits
  refine ⟨hadmits, ?_, ?_, ?_⟩
  . apply ((h.call linkedCalls (.link 0 5) _ rfl).taken_iff 1).mpr
    decide
  . rw [h.next?]
    decide
  . rw [h.jumpPoints]
    decide

end Automaton

end LogicalScheme
