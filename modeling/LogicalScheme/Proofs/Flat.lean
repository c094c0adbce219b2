import LogicalScheme.Automaton.Conditions
import LogicalScheme.Proofs.Arena
import LogicalScheme.Proofs.Assembly.Layout

/-!
This module contains the elements of a layout and the flat description of an automaton in terms of the
lexemes that it was assembled from.
-/

namespace LogicalScheme

namespace Automaton

def head? (a : Automaton) (r : ElementRef) : Option ElementRef :=
  if (a.element? r).any fun e => !e.isJumpPoint && !e.isFinish then some r else none

def FirstPoint (a : Automaton) (index : UInt32) (r : ElementRef) : Prop :=
  (∃ e, a.element? r = some e ∧ e.kind = .jumpPoint index) ∧
    ∀ q e, q < r → a.element? q = some e → e.kind ≠ .jumpPoint index

/--
What an automaton is in terms of the lexemes of a draft: every lexeme but a start marker has one
element, and all links are read off the neighbours in the arena.
-/
structure Flat (d : Draft) (a : Automaton) : Prop where
  tokens : a.tokens = d.lexemes.toList.map (·.text)
  source : a.source = d.source
  start : ∃ e, a.element? 0 = some e ∧ e.name = ⟨"Yн"⟩ ∧ e.kind = .start ∧ e.position = 0
  positions : (a.elements.toList.drop 1).map (·.position) =
    (List.range d.size).filter (d.token? · ≠ some .start)
  element : ∀ r e, 0 < r → a.element? r = some e →
    e.name = d.name e.position ∧ ∃ t c, d.token? e.position = some t ∧ e.kind = t.kind c
  indices : (a.elements.toList.filterMap (·.conditional?)).map (·.index) =
    List.range' 1 a.conditionalCount
  undetermined : ∀ r, a.value? r = none
  next : ∀ r e, a.element? r = some e →
    e.next = if e.kind.fallsThrough ∧ a.Has (r + 1) then some (r + 1) else none
  whenTrue : ∀ r e c, a.element? r = some e → e.kind = .conditional c →
    c.whenTrue = if (d.token? (e.position + 1)).any (·.isConditionalJump) then some (r + 1) else none
  whenFalse : ∀ r e c, a.element? r = some e → e.kind = .conditional c →
    c.whenFalse = a.head? (if c.whenTrue.isSome then r + 2 else r + 1)
  registered : ∀ index r, a.jumpPoint? index = some r ↔ a.FirstPoint index r
  declared : ∀ index r, (index, r) ∈ a.jumpPoints ↔ a.FirstPoint index r
  ordered : a.jumpPoints.Pairwise (·.2 < ·.2)

end Automaton

namespace Draft

theorem places_eq (d : Draft)
    : d.places = (List.range d.size).filter (d.token? · ≠ some .start) := by
  unfold places
  apply List.filter_congr
  intro p hp
  unfold makes
  rw [d.token?_of_lt (List.mem_range.mp hp)]
  simp [bne, Bool.beq_eq_decide_eq]

theorem layout_size (d : Draft) : d.layout.elements.size = d.count := by
  simp [layout]

theorem layout_element?_zero (d : Draft) : d.layout.element? 0 = some (startElement d.count) := by
  simp [Automaton.element?, layout, entries]

theorem layout_element?_succ (d : Draft) (r : Nat)
    : d.layout.element? (r + 1) = d.places[r]?.map (d.element d.count) := by
  simp [Automaton.element?, layout, entries]

theorem layout_element?_ref {d : Draft} {p : Nat} (h : d.makes p = true)
    : d.layout.element? (d.ref p) = some (d.element d.count p) := by
  unfold Automaton.element? layout
  rw [List.getElem?_toArray]
  exact entries_ref h d.count

theorem makes_of_layout_element? {d : Draft} {r : Nat} {e : Element}
    (h : d.layout.element? r = some e) (hr : 0 < r)
    : ∃ p, d.makes p = true ∧ d.ref p = r ∧ e = d.element d.count p := by
  obtain ⟨r, rfl⟩ := Nat.exists_eq_succ_of_ne_zero (Nat.ne_of_gt hr)
  rw [Nat.succ_eq_add_one, layout_element?_succ, Option.map_eq_some_iff] at h
  obtain ⟨p, hplace, rfl⟩ := h
  obtain ⟨hmakes, href⟩ := ref_of_places_getElem? hplace
  exact ⟨p, hmakes, href, rfl⟩

theorem token?_of_kind_conditional {d : Draft} {p : Nat} {c : Conditional}
    (h : d.kind p = .conditional c)
    : (d.token? p).any (·.isConditional) = true ∧ c = d.conditional p := by
  unfold kind at h
  cases ht : d.token? p with
  | none => simp [ht] at h
  | some t => cases t <;> simp_all [Token.kind, Token.isConditional]

theorem kind_eq_jumpPoint_iff {d : Draft} {p : Nat} {index : UInt32}
    : d.kind p = .jumpPoint index ↔ d.token? p = some (.jumpPoint index) := by
  unfold kind
  cases ht : d.token? p with
  | none => simp
  | some t => cases t <;> simp [Token.kind]

theorem layout_element?_conditional {d : Draft} {r : Nat} {e : Element} {c : Conditional}
    (h : d.layout.element? r = some e) (hc : e.kind = .conditional c)
    : ∃ p, d.makes p = true ∧ d.ref p = r ∧ e = d.element d.count p ∧ c = d.conditional p := by
  cases r with
  | zero =>
    rw [layout_element?_zero] at h
    cases h
    contradiction
  | succ r =>
    obtain ⟨p, hmakes, href, rfl⟩ := makes_of_layout_element? h (Nat.succ_pos r)
    exact ⟨p, hmakes, href, rfl, (token?_of_kind_conditional hc).right⟩

theorem layout_head? (d : Draft) (r : Nat) : d.layout.head? r = d.head r := by
  unfold Automaton.head? head
  cases r with
  | zero =>
    rw [layout_element?_zero]
    rfl
  | succ r =>
    have htoken : d.tokenOf? (r + 1) = d.places[r]?.bind d.token? := rfl
    rw [layout_element?_succ, htoken]
    cases hplace : d.places[r]? with
    | none => rfl
    | some p =>
      obtain ⟨hmakes, _⟩ := ref_of_places_getElem? hplace
      obtain ⟨t, ht, _⟩ := exists_token?_of_makes hmakes
      rw [Option.map_some, Option.bind_some, ht, Option.any_some, Option.any_some]
      simp only [element, kind_of_token? ht, Element.isJumpPoint, Element.isFinish]
      cases t <;> rfl

theorem indices_of_makes (d : Draft) (n p : Nat)
    : ((((List.range p).filter d.makes).map (d.element n)).filterMap (·.conditional?)).map (·.index)
        = List.range' 1 (d.conditionals p) := by
  induction p with
  | zero => rfl
  | succ p ih =>
    rw [List.range_succ, List.filter_append, List.map_append, List.filterMap_append,
      List.map_append, ih]
    unfold conditionals
    rw [List.range_succ, List.countP_append, ← List.range'_append_1]
    congr 1
    cases ht : d.token? p with
    | none => simp [makes, ht]
    | some t =>
      cases t <;> simp [makes, ht, element, Element.conditional?, kind_of_token? ht, Token.kind,
        Kind.conditional?, Token.isConditional, conditional, conditionals, Nat.add_comm]

theorem layout_indices (d : Draft)
    : (d.layout.elements.toList.filterMap (·.conditional?)).map (·.index) =
        List.range' 1 (d.conditionals d.size) :=
  d.indices_of_makes d.count d.size

theorem layout_conditionalCount (d : Draft)
    : d.layout.conditionalCount = d.conditionals d.size := by
  have hlength := congrArg List.length d.layout_indices
  rw [List.length_range', List.length_map, List.length_filterMap_eq_countP] at hlength
  unfold Automaton.conditionalCount
  rw [← hlength, Array.countP_toList]

theorem declaration?_eq_some_iff {d : Draft} {n p : Nat} {index : UInt32}
    : d.declaration? n index = some p ↔
        p < n ∧ d.token? p = some (.jumpPoint index) ∧
          ∀ q, q < p → d.token? q ≠ some (.jumpPoint index) := by
  unfold declaration?
  rw [List.find?_range_eq_some]
  simp only [beq_iff_eq, List.mem_range, Bool.not_eq_true', beq_eq_false_iff_ne]
  constructor
  . intro ⟨htoken, hlt, hfirst⟩
    exact ⟨hlt, htoken, hfirst⟩
  . intro ⟨hlt, htoken, hfirst⟩
    exact ⟨htoken, hlt, hfirst⟩

theorem mem_declarations_iff {d : Draft} {n r : Nat} {index : UInt32}
    : (index, r) ∈ d.declarations n ↔ ∃ p, d.declaration? n index = some p ∧ d.ref p = r := by
  unfold declarations
  simp only [List.mem_filterMap, List.mem_range, declaration?_eq_some_iff]
  constructor
  . intro ⟨p, hp, hnew⟩
    unfold newPoint? at hnew
    split at hnew
    . next k htoken =>
      split at hnew
      . contradiction
      . next hdeclares =>
        cases hnew
        refine ⟨p, ⟨hp, htoken, ?_⟩, rfl⟩
        intro q hq hfirst
        apply hdeclares
        unfold declares
        rw [List.any_eq_true]
        exact ⟨q, List.mem_range.mpr hq, beq_iff_eq.mpr hfirst⟩
    . contradiction
  . intro ⟨p, ⟨hp, htoken, hfirst⟩, href⟩
    refine ⟨p, hp, ?_⟩
    have hdeclares : d.declares p index = false := by
      unfold declares
      rw [List.any_eq_false]
      intro q hq hpoint
      exact hfirst q (List.mem_range.mp hq) (beq_iff_eq.mp hpoint)
    simp [newPoint?, htoken, hdeclares, href]

theorem ref_of_newPoint? {d : Draft} {p : Nat} {x : UInt32 × ElementRef}
    (h : d.newPoint? p = some x) : d.makes p = true ∧ x.2 = d.ref p := by
  unfold newPoint? at h
  split at h
  . next k htoken =>
    split at h
    . contradiction
    . cases h
      exact ⟨makes_of_token? htoken (by simp), rfl⟩
  . contradiction

theorem declarations_ordered (d : Draft) (n : Nat)
    : (d.declarations n).Pairwise (·.2 < ·.2) := by
  unfold declarations
  rw [List.pairwise_filterMap]
  apply List.Pairwise.imp ?_ List.pairwise_lt_range
  intro p q hlt x hx y hy
  obtain ⟨hmakes, hxp⟩ := ref_of_newPoint? hx
  obtain ⟨_, hyq⟩ := ref_of_newPoint? hy
  rw [hxp, hyq]
  exact ref_lt_ref hmakes hlt

theorem layout_firstPoint_iff {d : Draft} {index : UInt32} {r : Nat}
    : d.layout.FirstPoint index r ↔ ∃ p, d.declaration? d.size index = some p ∧ d.ref p = r := by
  unfold Automaton.FirstPoint
  simp only [declaration?_eq_some_iff]
  constructor
  . intro ⟨⟨e, he, hkind⟩, hfirst⟩
    have hr : 0 < r := by
      apply Nat.pos_of_ne_zero
      intro hzero
      rw [hzero, layout_element?_zero] at he
      cases he
      contradiction
    obtain ⟨p, hmakes, href, rfl⟩ := makes_of_layout_element? he hr
    refine ⟨p, ⟨lt_size_of_makes hmakes, kind_eq_jumpPoint_iff.mp hkind, ?_⟩, href⟩
    intro q hq hpoint
    have hmakes' : d.makes q = true := makes_of_token? hpoint (by simp)
    apply hfirst (d.ref q) (d.element d.count q)
    . rw [← href]
      exact ref_lt_ref hmakes' hq
    . exact layout_element?_ref hmakes'
    . exact kind_eq_jumpPoint_iff.mpr hpoint
  . intro ⟨p, ⟨_, htoken, hfirst⟩, href⟩
    have hmakes : d.makes p = true := makes_of_token? htoken (by simp)
    subst href
    refine ⟨⟨_, layout_element?_ref hmakes, kind_eq_jumpPoint_iff.mpr htoken⟩, ?_⟩
    intro s e hs he hkind
    cases s with
    | zero =>
      rw [layout_element?_zero] at he
      cases he
      contradiction
    | succ s =>
      obtain ⟨q, _, href, rfl⟩ := makes_of_layout_element? he (Nat.succ_pos s)
      rw [← href] at hs
      apply hfirst q
      . apply Nat.lt_of_not_le
        intro hle
        exact Nat.not_lt_of_le (d.ref_mono hle) hs
      . exact kind_eq_jumpPoint_iff.mp hkind

theorem layout_jumpPoint? (d : Draft) (index : UInt32)
    : d.layout.jumpPoint? index = (d.declaration? d.size index).map d.ref :=
  d.lookup_declarations d.size index

theorem layout_next {d : Draft} {r : Nat} {e : Element} (h : d.layout.element? r = some e)
    : e.next = successor d.count r e.kind := by
  cases r with
  | zero =>
    rw [layout_element?_zero] at h
    cases h
    rfl
  | succ r =>
    obtain ⟨p, _, href, rfl⟩ := makes_of_layout_element? h (Nat.succ_pos r)
    unfold element
    rw [href]

theorem layout_value? (d : Draft) (r : Nat) : d.layout.value? r = none := by
  unfold Automaton.value?
  cases he : d.layout.element? r with
  | none => rfl
  | some e =>
    cases hc : e.conditional? with
    | none => simp [hc]
    | some c =>
      have hkind : e.kind = .conditional c := by
        unfold Element.conditional? Kind.conditional? at hc
        split at hc
        . next hkind =>
          cases hc
          exact hkind
        . contradiction
      obtain ⟨p, _, _, _, rfl⟩ := layout_element?_conditional he hkind
      simp [hc, conditional]

theorem layout_flat (d : Draft) : d.layout.Flat d where
  tokens := rfl
  source := rfl
  start := ⟨_, d.layout_element?_zero, rfl, rfl, rfl⟩
  positions := by
    rw [← places_eq]
    unfold layout entries
    rw [List.toList_toArray, List.drop_one, List.tail_cons, List.map_map]
    exact List.map_id d.places
  element := by
    intro r e hr he
    obtain ⟨p, hmakes, _, rfl⟩ := makes_of_layout_element? he hr
    obtain ⟨t, ht, _⟩ := exists_token?_of_makes hmakes
    exact ⟨rfl, t, d.conditional p, ht, kind_of_token? ht⟩
  indices := by
    rw [layout_indices, layout_conditionalCount]
  undetermined := d.layout_value?
  next := by
    intro r e he
    rw [layout_next he]
    unfold successor Automaton.Has
    simp [layout_size]
  whenTrue := by
    intro r e c he hkind
    obtain ⟨p, _, href, rfl, rfl⟩ := layout_element?_conditional he hkind
    unfold conditional
    rw [href]
    rfl
  whenFalse := by
    intro r e c he hkind
    obtain ⟨p, _, href, rfl, rfl⟩ := layout_element?_conditional he hkind
    rw [layout_head?]
    unfold conditional
    rw [href]
    cases (d.token? (p + 1)).any (·.isConditionalJump) <;> rfl
  registered := by
    intro index r
    rw [layout_firstPoint_iff, layout_jumpPoint?, Option.map_eq_some_iff]
  declared := by
    intro index r
    rw [layout_firstPoint_iff]
    exact mem_declarations_iff
  ordered := d.declarations_ordered d.size

end Draft

namespace Assembly

/--
Assembly, with its branches in branches and the elements that are made ahead, comes to the same
automaton as one pass over the lexemes, whatever is wrong with them.
-/
theorem ofDraft_flat (d : Draft) : (ofDraft d).automaton.Flat d := by
  rw [ofDraft_automaton]
  exact d.layout_flat

end Assembly

end LogicalScheme
