import LogicalScheme.Automaton

/-!
This module contains the transitions of an automaton, which are the ways that control may go under
some values of the conditions, and what they can reach.
-/

namespace LogicalScheme

inductive Transition where
  | next
  | whenTrue
  | whenFalse
  | jump
  deriving DecidableEq

namespace Automaton

/--
The transitions that leave an element, with their targets. A jump leads to its jump point.
-/
def transitions (a : Automaton) (r : ElementRef) : List (Transition × ElementRef) :=
  match a.element? r with
  | none => []
  | some e =>
    let next := (e.next.map (Transition.next, ·)).toList
    match e.kind with
    | .conditional c =>
      next ++ (c.whenTrue.map (Transition.whenTrue, ·)).toList ++
        (c.whenFalse.map (Transition.whenFalse, ·)).toList
    | .jump index _ => next ++ ((a.jumpPoint? index).map (Transition.jump, ·)).toList
    | _ => next

def Closed (a : Automaton) : Prop :=
  ∀ r ∈ a.refs, ∀ t ∈ a.transitions r, a.Has t.2

instance (a : Automaton) : Decidable a.Closed :=
  inferInstanceAs (Decidable (∀ r ∈ a.refs, ∀ t ∈ a.transitions r, a.Has t.2))

def unseen (a : Automaton) (seen : List ElementRef) : Nat :=
  a.refs.countP (!seen.contains ·)

theorem mem_refs {a : Automaton} {r : ElementRef} : r ∈ a.refs ↔ a.Has r := by
  simp [refs, Has]

theorem countP_lt_countP {α : Type} {p q : α → Bool} {xs : List α} {x : α}
    (h : ∀ y ∈ xs, p y = true → q y = true) (hx : x ∈ xs) (hp : ¬p x = true) (hq : q x = true)
    : xs.countP p < xs.countP q := by
  induction xs with
  | nil => contradiction
  | cons y ys ih =>
    have hys : ∀ z ∈ ys, p z = true → q z = true := fun z hz => h z (List.mem_cons_of_mem y hz)
    rcases List.mem_cons.mp hx with rfl | hx
    . rw [List.countP_cons_of_neg hp, List.countP_cons_of_pos hq]
      exact Nat.lt_succ_of_le (List.countP_mono_left hys)
    . have hlt := ih hys hx
      by_cases hpy : p y = true
      . rw [List.countP_cons_of_pos hpy, List.countP_cons_of_pos (h y List.mem_cons_self hpy)]
        omega
      . rw [List.countP_cons_of_neg hpy, List.countP_cons]
        omega

theorem unseen_cons_lt {a : Automaton} {seen : List ElementRef} {r : ElementRef} (h : a.Has r)
    (hseen : r ∉ seen) : a.unseen (r :: seen) < a.unseen seen := by
  refine countP_lt_countP (x := r) ?_ (mem_refs.mpr h) ?_ ?_
  . simp
  . simp
  . simpa using hseen

theorem unseen_congr {a b : Automaton} (h : b.elements.size = a.elements.size)
    (seen : List ElementRef) : b.unseen seen = a.unseen seen := by
  simp [unseen, refs, h]

/--
The elements in `seen` together with those that transitions reach from `pending`, through elements
that are not in `seen`.
-/
def reach (a : Automaton) (seen pending : List ElementRef) : List ElementRef :=
  match pending with
  | [] => seen
  | r :: pending =>
    if _h : a.Has r ∧ r ∉ seen then
      a.reach (r :: seen) ((a.transitions r).map (·.2) ++ pending)
    else
      a.reach seen pending
termination_by (a.unseen seen, pending.length)
decreasing_by
  . exact Prod.Lex.left _ _ (unseen_cons_lt _h.left _h.right)
  . exact Prod.Lex.right _ (by simp)

def reachableFrom (a : Automaton) (start : ElementRef) : List ElementRef :=
  let reached := a.reach [] [start]
  a.refs.filter (reached.contains ·)

def unreachableFrom (a : Automaton) (start : ElementRef) : List ElementRef :=
  let reached := a.reach [] [start]
  a.refs.filter (!reached.contains ·)

end Automaton

end LogicalScheme
