import LogicalScheme.Proofs.Valued

/-!
This module contains how conditional vertices are numbered. Those of a text have the indices from 1 on in its
order, whatever is wrong with it, so an index is that of one vertex and every bit of a vector has its vertex.
-/

namespace LogicalScheme

theorem ConditionVector.map_get? (v : ConditionVector) : (List.range' 1 v.length).map v.get? = v.bits.map some := by
  apply List.ext_getElem
  . simp [length]
  . intro i hi hi'
    have hlt : i < v.bits.length := by simpa using hi'
    rw [List.getElem_map, List.getElem_map, List.getElem_range', Nat.one_mul, Nat.add_comm]
    exact List.getElem?_eq_getElem hlt

namespace Automaton

variable {a : Automaton}

theorem mem_conditionals_iff {x : ElementRef × Conditional}
    : x ∈ a.conditionals ↔ ∃ e, a.element? x.1 = some e ∧ e.conditional? = some x.2 := by
  obtain ⟨r, c⟩ := x
  unfold conditionals refs
  simp only [List.mem_filterMap, List.mem_range, Option.map_eq_some_iff, Option.bind_eq_some_iff, Prod.mk.injEq]
  constructor
  . rintro ⟨p, _, c', ⟨e, he, hc⟩, rfl, rfl⟩
    exact ⟨e, he, hc⟩
  . rintro ⟨e, he, hc⟩
    exact ⟨r, lt_size_of_element? he, c, ⟨e, he, hc⟩, rfl, rfl⟩

theorem map_element?_refs (a : Automaton) : a.refs.map a.element? = a.elements.toList.map some := by
  apply List.ext_getElem
  . simp [refs]
  . intro r hr hr'
    simp only [refs, List.length_map, List.length_range] at hr
    simp [refs, element?, hr]

theorem map_conditionals {α : Type} {F : ElementRef × Conditional → α} {G : Element → Conditional → α}
    (h : ∀ r e c, a.element? r = some e → F (r, c) = G e c)
    : a.conditionals.map F = a.elements.toList.filterMap fun e => e.conditional?.map (G e) := by
  calc
    a.conditionals.map F =
        a.refs.filterMap fun r => (a.element? r).bind fun e => e.conditional?.map (G e) := by
      unfold conditionals
      rw [List.map_filterMap]
      apply List.filterMap_congr
      intro r _
      cases he : a.element? r with
      | none => rfl
      | some e =>
        rw [Option.bind_some, Option.bind_some, Option.map_map]
        exact congrArg (e.conditional?.map ·) (funext fun c => h r e c he)
    _ = (a.refs.map a.element?).filterMap fun e => e.bind fun e => e.conditional?.map (G e) := by
      rw [List.filterMap_map]
      rfl
    _ = a.elements.toList.filterMap fun e => e.conditional?.map (G e) := by
      rw [map_element?_refs, List.filterMap_map]
      rfl

theorem length_conditionals (a : Automaton) : a.conditionals.length = a.conditionalCount := by
  have hmap : a.conditionals.map (·.2) = _ := map_conditionals fun r e c _ => rfl
  have hlength := congrArg List.length hmap
  rw [List.length_map, List.length_filterMap_eq_countP] at hlength
  unfold conditionalCount
  rw [hlength, ← Array.countP_toList]
  congr 1
  funext e
  exact Option.isSome_map

theorem conditionals_reset (a : Automaton)
    : a.reset.conditionals = a.conditionals.map fun x => (x.1, { x.2 with value := none }) := by
  unfold conditionals refs
  rw [reset_size, List.map_filterMap]
  congr 1
  funext r
  rw [element?_reset, Option.bind_map]
  cases a.element? r with
  | none => rfl
  | some e =>
    simp only [Option.bind_some, Function.comp_apply, Element.conditional?_setValue, Option.map_map]
    rfl

theorem eq_of_ref {x y : ElementRef × Conditional} (hx : x ∈ a.conditionals) (hy : y ∈ a.conditionals)
    (h : x.1 = y.1) : x = y := by
  obtain ⟨e, he, hc⟩ := mem_conditionals_iff.mp hx
  obtain ⟨e', he', hc'⟩ := mem_conditionals_iff.mp hy
  rw [h, he'] at he
  cases he
  exact Prod.ext h (Option.some.inj (hc.symm.trans hc'))

theorem value?_assign_of_mem {x : ElementRef × Conditional} (hx : x ∈ a.conditionals) (v : ConditionVector)
    : (a.assign v).value? x.1 = (v.get? x.2.index).or x.2.value := by
  obtain ⟨e, he, hc⟩ := mem_conditionals_iff.mp hx
  rw [value?_assign, he, Option.bind_some, hc]
  rfl

theorem value?_modify_of_mem {x : ElementRef × Conditional} (hx : x ∈ a.conditionals) (value : Option Bool)
    : (a.modify x.1 (.setValue value)).value? x.1 = value := by
  obtain ⟨e, he, hc⟩ := mem_conditionals_iff.mp hx
  unfold value?
  rw [element?_modify, if_pos rfl, he, Option.map_some, Option.bind_some, Element.conditional?_setValue, hc]
  rfl

/--
The conditional vertices have the indices from 1 on, without gaps, in the order of the arena.
-/
def Numbered (a : Automaton) : Prop :=
  a.conditionals.map (·.2.index) = List.range' 1 a.conditionalCount

theorem numbered_reset_iff : a.reset.Numbered ↔ a.Numbered := by
  unfold Numbered
  rw [conditionalCount_reset, conditionals_reset, List.map_map]
  rfl

namespace Numbered

variable {v : ConditionVector} {x y : ElementRef × Conditional} (ha : a.Numbered)

include ha

theorem conditionalRefs_eq : a.conditionalRefs = a.conditionals.map (·.1) := by
  have hordered : (a.conditionals.map (·.2.index)).Pairwise (· < ·) := by
    rw [ha]
    exact List.pairwise_lt_range' 1
  rw [List.pairwise_map] at hordered
  unfold conditionalRefs
  rw [List.mergeSort_of_pairwise]
  apply hordered.imp
  intro x y hlt
  exact decide_eq_true (Nat.le_of_lt hlt)

theorem mem_iff {k : Nat} : (∃ x ∈ a.conditionals, x.2.index = k) ↔ 0 < k ∧ k ≤ a.conditionalCount := by
  rw [← List.mem_map, ha, List.mem_range'_1]
  omega

theorem eq_of_index (hx : x ∈ a.conditionals) (hy : y ∈ a.conditionals) (h : x.2.index = y.2.index) : x = y := by
  have hnodup : (a.conditionals.map (·.2.index)).Nodup := by
    rw [ha]
    exact List.nodup_range' 1
  exact List.inj_on_of_nodup_map hnodup hx hy h

theorem isSome_get? (hv : v.length = a.conditionalCount) (hx : x ∈ a.conditionals)
    : (v.get? x.2.index).isSome := by
  have hbounds := ha.mem_iff.mp ⟨x, hx, rfl⟩
  rw [← hv] at hbounds
  obtain ⟨i, hi⟩ := Nat.exists_eq_succ_of_ne_zero (Nat.ne_of_gt hbounds.left)
  rw [hi, Nat.succ_eq_add_one]
  have hlt : i < v.bits.length := by
    rw [hi] at hbounds
    exact hbounds.right
  exact Option.isSome_iff_exists.mpr ⟨_, List.getElem?_eq_getElem hlt⟩

theorem fits (hv : v.length = a.conditionalCount) : a.Fits v := by
  refine ⟨hv, ?_⟩
  intro e he c hc
  obtain ⟨r, hr, rfl⟩ := Array.mem_iff_getElem.mp he
  have hx : (r, c) ∈ a.conditionals := mem_conditionals_iff.mpr ⟨_, Array.getElem?_eq_getElem hr, hc⟩
  exact ha.isSome_get? hv hx

theorem values_assign (hv : v.length = a.conditionalCount)
    : a.conditionalRefs.map (a.assign v).value? = v.bits.map some := by
  calc
    a.conditionalRefs.map (a.assign v).value? = a.conditionals.map fun x => (a.assign v).value? x.1 := by
      rw [ha.conditionalRefs_eq, List.map_map]
      rfl
    _ = a.conditionals.map fun x => v.get? x.2.index := by
      apply List.map_congr_left
      intro x hx
      rw [value?_assign_of_mem hx, Option.or_of_isSome (ha.isSome_get? hv hx)]
    _ = (a.conditionals.map (·.2.index)).map v.get? := by
      rw [List.map_map]
      rfl
    _ = v.bits.map some := by rw [ha, ← hv, v.map_get?]

theorem setCondition_of_mem (hx : x ∈ a.conditionals) (value : Bool)
    : a.setCondition x.2.index value = .ok (a.modify x.1 (.setValue (some value))) := by
  have hfind : a.elements.findIdx? (·.conditional?.any (·.index == x.2.index)) = some x.1 := by
    obtain ⟨e, he, hc⟩ := mem_conditionals_iff.mp hx
    obtain ⟨hr, rfl⟩ := Array.getElem?_eq_some_iff.mp he
    rw [Array.findIdx?_eq_some_iff_getElem]
    refine ⟨hr, by simp [hc], ?_⟩
    intro p hp h
    obtain ⟨c, hc', hindex⟩ := (Option.any_eq_true ..).mp h
    have hy : (p, c) ∈ a.conditionals :=
      mem_conditionals_iff.mpr ⟨_, Array.getElem?_eq_getElem (Nat.lt_trans hp hr), hc'⟩
    have heq := ha.eq_of_index hy hx (beq_iff_eq.mp hindex)
    rw [← heq] at hp
    exact Nat.lt_irrefl p hp
  unfold setCondition
  rw [hfind]

theorem setCondition_eq_error {k : Nat} (hk : ¬(0 < k ∧ k ≤ a.conditionalCount)) (value : Bool)
    : a.setCondition k value = .error (.unknownConditional k) := by
  have hfind : a.elements.findIdx? (·.conditional?.any (·.index == k)) = none := by
    rw [Array.findIdx?_eq_none_iff]
    intro e he
    rw [← Bool.not_eq_true]
    intro h
    obtain ⟨c, hc, hindex⟩ := (Option.any_eq_true ..).mp h
    obtain ⟨r, hr, rfl⟩ := Array.mem_iff_getElem.mp he
    have hx : (r, c) ∈ a.conditionals := mem_conditionals_iff.mpr ⟨_, Array.getElem?_eq_getElem hr, hc⟩
    exact hk (ha.mem_iff.mp ⟨_, hx, beq_iff_eq.mp hindex⟩)
  unfold setCondition
  rw [hfind]

theorem index_getElem {i : Nat} (hi : i < a.conditionals.length) : a.conditionals[i].2.index = i + 1 := by
  have hget : (a.conditionals.map (·.2.index))[i]? = some a.conditionals[i].2.index := by
    rw [List.getElem?_map, List.getElem?_eq_getElem hi]
    rfl
  rw [ha, ← length_conditionals, List.getElem?_range' hi] at hget
  have := Option.some.inj hget
  omega

theorem values_modify (hx : x ∈ a.conditionals) (value : Option Bool)
    : a.conditionalRefs.map (a.modify x.1 (.setValue value)).value? = a.values.set (x.2.index - 1) value := by
  obtain ⟨i, hi, rfl⟩ := List.mem_iff_getElem.mp hx
  unfold values
  rw [ha.index_getElem hi, Nat.add_sub_cancel, ha.conditionalRefs_eq, List.map_map, List.map_map]
  apply List.ext_getElem
  . simp
  . intro j hj hj'
    have hlt : j < a.conditionals.length := by simpa using hj
    have hy := List.getElem_mem hlt
    rw [List.getElem_set, List.getElem_map, List.getElem_map, Function.comp_apply, Function.comp_apply]
    split
    . next heq =>
      cases heq
      exact value?_modify_of_mem hx value
    . next hne =>
      -- another index is that of another vertex, which is not written
      apply value?_modify_of_ne
      intro href
      have hindex := ha.index_getElem hlt
      rw [eq_of_ref hy hx href, ha.index_getElem hi] at hindex
      exact hne (Nat.succ.inj hindex)

end Numbered

end Automaton

theorem Draft.numbered_layout (d : Draft) : d.layout.Numbered := by
  have hmap : d.layout.conditionals.map (·.2.index) = _ := Automaton.map_conditionals fun _ _ c _ => rfl
  unfold Automaton.Numbered
  rw [layout_conditionalCount, ← layout_indices, hmap, List.map_filterMap]

theorem Automaton.Valued.numbered {d : Draft} {a : Automaton} (ha : a.Valued d) : a.Numbered := by
  rw [← numbered_reset_iff, ha]
  exact d.numbered_layout

end LogicalScheme
