import LogicalScheme.Automaton

/-!
This module contains the effect of the operations of an automaton on the elements of its arena, and
what two arenas have in common up to some place.
-/

namespace LogicalScheme

namespace Automaton

theorem element?_eq_none {a : Automaton} {r : Nat} (h : a.elements.size ≤ r)
    : a.element? r = none := by
  unfold element?
  exact Array.getElem?_eq_none h

theorem lt_size_of_element? {a : Automaton} {r : Nat} {e : Element} (h : a.element? r = some e)
    : r < a.elements.size := by
  unfold element? at h
  exact (Array.getElem?_eq_some_iff.mp h).choose

theorem element?_add_size (a : Automaton) (name : Name) (kind : Kind) (position : Nat)
    : (a.add name kind position).element? a.elements.size = some { name, kind, position } := by
  simp [element?, add]

theorem element?_add_of_lt (a : Automaton) (name : Name) (kind : Kind) (position : Nat) {r : Nat}
    (h : r < a.elements.size) : (a.add name kind position).element? r = a.element? r := by
  simp only [element?, add]
  rw [Array.getElem?_push_lt h, Array.getElem?_eq_getElem h]

theorem element?_modify (a : Automaton) (r : Nat) (f : Element → Element) (q : Nat)
    : (a.modify r f).element? q = if q = r then (a.element? q).map f else a.element? q := by
  simp only [element?, modify, Array.getElem?_modify]
  by_cases h : q = r
  . simp [h]
  . simp [h, Ne.symm h]

theorem element?_setBranches (a : Automaton) (vertex : Nat) (whenTrue whenFalse : Option ElementRef)
    {q : Nat} (h : q ≠ vertex) : (a.setBranches vertex whenTrue whenFalse).element? q = a.element? q := by
  unfold setBranches
  rw [element?_modify, if_neg h]

theorem position_modify (a : Automaton) (r : Nat) (f : Element → Element) (q : Nat)
    (h : ∀ e, (f e).position = e.position) : (a.modify r f).position q = a.position q := by
  unfold position
  rw [element?_modify]
  split
  . cases a.element? q <;> simp [h]
  . rfl

theorem link_of_next?_eq_none {a : Automaton} {source target : Nat} (h : a.next? source = none)
    : a.link source target = .ok (a.modify source ({ · with next := some target })) := by
  unfold link
  rw [h]

/--
The arena of `b` starts with the first `count` elements of the arena of `a`.
-/
def Agree (count : Nat) (a b : Automaton) : Prop :=
  ∀ r, r < count → b.element? r = a.element? r

namespace Agree

theorem refl (n : Nat) (a : Automaton) : Agree n a a :=
  fun _ _ => rfl

theorem trans {n : Nat} {a b c : Automaton} (hab : Agree n a b) (hbc : Agree n b c)
    : Agree n a c := by
  intro r hr
  rw [hbc r hr, hab r hr]

theorem mono {m n : Nat} {a b : Automaton} (h : Agree n a b) (hle : m ≤ n) : Agree m a b := by
  intro r hr
  apply h
  omega

theorem add (a : Automaton) (name : Name) (kind : Kind) (position : Nat)
    : Agree a.elements.size a (a.add name kind position) := by
  intro r hr
  exact element?_add_of_lt a name kind position hr

theorem modify (a : Automaton) (r : Nat) (f : Element → Element) : Agree r a (a.modify r f) := by
  intro q hq
  rw [element?_modify, if_neg (Nat.ne_of_lt hq)]

theorem setBranches (a : Automaton) (vertex : Nat) (whenTrue whenFalse : Option ElementRef)
    : Agree vertex a (a.setBranches vertex whenTrue whenFalse) := by
  intro q hq
  apply element?_setBranches
  omega

end Agree

end Automaton

end LogicalScheme
