import LogicalScheme.Proofs.Arena
import LogicalScheme.Proofs.Layout

/-!
This module contains the state of an arena while a draft is assembled: the lexemes up to some
position have made their elements. It also contains what adding the next element does to that state.
-/

namespace LogicalScheme

namespace Automaton

/--
The lexemes in front of `position` have made their elements, and no others have.
-/
structure Made (d : Draft) (a : Automaton) (position : Nat) : Prop where
  tokens : a.tokens = d.lexemes.toList.map (·.text)
  source : a.source = d.source
  size : a.elements.size = d.ref position
  jumpPoints : a.jumpPoints = d.declarations position
  placed : ∀ p, p < position → d.makes p = true → a.position (d.ref p) = p

/--
The elements from `base` on are those of the layout, linked as far as they are there.
-/
def Complete (d : Draft) (base : Nat) (a : Automaton) : Prop :=
  ∀ r, base ≤ r → r < a.elements.size → a.element? r = (d.entries a.elements.size)[r]?

variable {d : Draft} {a b : Automaton} {p : Nat}

theorem Agree.position {n r : Nat} (h : Agree n a b) (hr : r < n) : b.position r = a.position r := by
  unfold Automaton.position
  rw [h r hr]

namespace Made

theorem skip (h : a.Made d p) (ht : d.token? p = some .start) : a.Made d (p + 1) where
  tokens := h.tokens
  source := h.source
  size := by
    rw [h.size, Draft.ref_succ_of_not_makes (Draft.makes_eq_false_of_start ht)]
  jumpPoints := by
    rw [h.jumpPoints, Draft.declarations_succ_of_not_jumpPoint]
    intro index
    simp [ht]
  placed := by
    intro q hq hmakes
    cases Nat.lt_succ_iff_lt_or_eq.mp hq with
    | inl hlt => exact h.placed q hlt hmakes
    | inr heq =>
      subst heq
      rw [Draft.makes_eq_false_of_start ht] at hmakes
      contradiction

theorem placed_succ (h : a.Made d p) (hagree : Agree a.elements.size a b)
    (hlast : b.position (d.ref p) = p) (q : Nat) (hq : q < p + 1) (hmakes : d.makes q = true)
    : b.position (d.ref q) = q := by
  cases Nat.lt_succ_iff_lt_or_eq.mp hq with
  | inl hlt =>
    rw [hagree.position]
    . exact h.placed q hlt hmakes
    . rw [h.size]
      exact Draft.ref_lt_ref hmakes hlt
  | inr heq =>
    subst heq
    exact hlast

theorem position_add (h : a.Made d p) (name : Name) (kind : Kind) (position : Nat)
    : (a.add name kind position).position (d.ref p) = position := by
  unfold Automaton.position
  rw [← h.size, element?_add_size]
  rfl

theorem add {t : Token} (h : a.Made d p) (ht : d.token? p = some t) (hstart : t ≠ .start)
    (hpoint : ∀ index, t ≠ .jumpPoint index) (kind : Kind)
    : (a.add (d.name p) kind p).Made d (p + 1) where
  tokens := h.tokens
  source := h.source
  size := by
    rw [add_size, h.size, Draft.ref_succ_of_makes (Draft.makes_of_token? ht hstart)]
  jumpPoints := by
    rw [Draft.declarations_succ_of_not_jumpPoint]
    . exact h.jumpPoints
    . intro index
      simp [ht, hpoint index]
  placed := h.placed_succ (Agree.add a _ _ _) (h.position_add _ _ _)

theorem modify (h : a.Made d p) (r : Nat) (f : Element → Element)
    (hf : ∀ e, (f e).position = e.position) : (a.modify r f).Made d p where
  tokens := h.tokens
  source := h.source
  size := by
    rw [modify_size, h.size]
  jumpPoints := h.jumpPoints
  placed := by
    intro q hq hmakes
    rw [position_modify a r f _ hf]
    exact h.placed q hq hmakes

theorem setBranches (h : a.Made d p) (vertex : Nat) (whenTrue whenFalse : Option ElementRef)
    : (a.setBranches vertex whenTrue whenFalse).Made d p := by
  unfold Automaton.setBranches
  apply h.modify
  intro e
  rfl

theorem jumpPoint?_eq (h : a.Made d p) (index : UInt32)
    : a.jumpPoint? index = (d.declaration? p index).map d.ref := by
  unfold jumpPoint?
  rw [h.jumpPoints, Draft.lookup_declarations]

theorem register {index : UInt32} (h : a.Made d p) (ht : d.token? p = some (.jumpPoint index))
    (hfirst : d.declaration? p index = none)
    : ∃ c, (a.add (d.name p) (.jumpPoint index) p).register index (d.ref p) = .ok c
        ∧ c.elements = (a.add (d.name p) (.jumpPoint index) p).elements ∧ c.Made d (p + 1) := by
  have hmakes : d.makes p = true := Draft.makes_of_token? ht (by simp)
  have hnew : (a.add (d.name p) (.jumpPoint index) p).jumpPoint? index = none := by
    have hold := h.jumpPoint?_eq index
    rw [hfirst] at hold
    exact hold
  have hdeclares : d.declares p index = false := by
    rw [← Draft.isSome_declaration?, hfirst]
    rfl
  unfold Automaton.register
  rw [hnew]
  refine ⟨_, rfl, rfl, ?_⟩
  constructor
  . exact h.tokens
  . exact h.source
  . rw [Draft.ref_succ_of_makes hmakes, ← h.size]
    apply add_size
  . rw [Draft.declarations_succ_of_jumpPoint ht, hdeclares, ← h.jumpPoints]
    rfl
  . exact h.placed_succ (Agree.add a _ _ _) (h.position_add _ _ _)

theorem register_refused {index : UInt32} {q : Nat} (h : a.Made d p)
    (ht : d.token? p = some (.jumpPoint index)) (hfirst : d.declaration? p index = some q)
    : (a.add (d.name p) (.jumpPoint index) p).register index (d.ref p) = .error (d.ref q)
        ∧ (a.add (d.name p) (.jumpPoint index) p).Made d (p + 1) := by
  have hmakes : d.makes p = true := Draft.makes_of_token? ht (by simp)
  have hold : (a.add (d.name p) (.jumpPoint index) p).jumpPoint? index = some (d.ref q) := by
    have hold := h.jumpPoint?_eq index
    rw [hfirst] at hold
    exact hold
  have hdeclares : d.declares p index = true := by
    rw [← Draft.isSome_declaration?, hfirst]
    rfl
  unfold Automaton.register
  rw [hold]
  refine ⟨rfl, ?_⟩
  constructor
  . exact h.tokens
  . exact h.source
  . rw [Draft.ref_succ_of_makes hmakes, ← h.size]
    apply add_size
  . rw [Draft.declarations_succ_of_jumpPoint ht, hdeclares, ← h.jumpPoints]
    simp [Automaton.add]
  . exact h.placed_succ (Agree.add a _ _ _) (h.position_add _ _ _)

end Made

end Automaton

end LogicalScheme
