import LogicalScheme.Loop
import Mathlib.Data.List.Rotate
import Mathlib.Data.List.TakeWhile

/-!
This module contains the laps of a path, the writing of a cycle from its first element on and the report
that gathers loops.
-/

namespace LogicalScheme

theorem le_of_minOn? {α : Type} {f : α → Nat} {l : List α} {x y : α} (h : l.minOn? f = some x)
    (hy : y ∈ l) : f x ≤ f y := by
  have hle := List.apply_get_minOn?_le_of_mem (f := f) hy
  simp only [h, Option.get_some] at hle
  exact hle

theorem exists_minOn? {α : Type} {l : List α} (f : α → Nat) (h : l ≠ []) : ∃ x, l.minOn? f = some x :=
  ⟨_, List.minOn?_eq_some_minOn h⟩

theorem minOn?_eq_of_perm {α : Type} {f : α → Nat} {l l' : List α} (h : l.Perm l')
    (hinj : ∀ x ∈ l, ∀ y ∈ l, f x = f y → x = y) : l.minOn? f = l'.minOn? f := by
  by_cases hnil : l = []
  . subst hnil
    rw [List.nil_perm.mp h]
  . have hnil' : l' ≠ [] := by
      intro heq
      rw [heq] at h
      exact hnil (List.perm_nil.mp h)
    obtain ⟨x, hx⟩ := exists_minOn? f hnil
    obtain ⟨y, hy⟩ := exists_minOn? f hnil'
    have hxl : x ∈ l := List.minOn?_mem hx
    have hyl : y ∈ l := h.mem_iff.mpr (List.minOn?_mem hy)
    -- each of the two is least where the other one is
    have hxy : f x ≤ f y := le_of_minOn? hx hyl
    have hyx : f y ≤ f x := le_of_minOn? hy (h.mem_iff.mp hxl)
    rw [hx, hy, hinj x hxl y hyl (Nat.le_antisymm hxy hyx)]

theorem eq_of_isRotated_cons {α : Type} {r : α} {l l' : List α} (h : (r :: l) ~r (r :: l'))
    (hnodup : (r :: l).Nodup) : l = l' := by
  obtain ⟨n, hn⟩ := h
  have hpos : 0 < (r :: l).length := by simp
  have hpos' : 0 < ((r :: l).rotate n).length := by
    rw [List.length_rotate]
    exact hpos
  have hmod : n % (r :: l).length < (r :: l).length := Nat.mod_lt n hpos
  have hhead : (r :: l)[n % (r :: l).length] = (r :: l)[0] := by
    have hrotate := List.getElem_rotate (r :: l) n 0 hpos'
    simp only [Nat.zero_add] at hrotate
    rw [← hrotate]
    simp only [hn, List.getElem_cons_zero]
  have hzero : n % (r :: l).length = 0 := hnodup.getElem_inj_iff.mp hhead
  rw [← List.rotate_mod, hzero, List.rotate_zero] at hn
  exact List.cons_inj_right r |>.mp hn

namespace Loop

theorem laps_eq_nil {path : List Nat} (h : path.Nodup) : laps path = [] := by
  induction path with
  | nil => rfl
  | cons r path ih =>
    rw [List.nodup_cons] at h
    unfold laps
    rw [List.idxOf?_eq_none_iff.mpr h.left]
    exact ih h.right

theorem laps_of_lap {before after : List Nat} {r : Nat} (h : (before ++ r :: after).Nodup)
    : laps (before ++ r :: after ++ [r]) = [r :: after] := by
  induction before with
  | nil =>
    rw [List.nil_append, List.nodup_cons] at h
    have hidx : (after ++ [r]).idxOf? r = some after.length := by
      rw [List.idxOf?_eq_some_iff]
      refine ⟨by simp, by simp, ?_⟩
      intro j hj
      rw [List.getElem_append_left hj]
      intro heq
      apply h.left
      rw [← heq]
      exact List.getElem_mem hj
    have hnodup : (after ++ [r]).Nodup := by
      rw [← List.concat_eq_append, List.nodup_concat]
      exact h
    rw [List.nil_append, List.cons_append, laps, hidx]
    simp only
    rw [laps_eq_nil hnodup, List.take_left]
  | cons x before ih =>
    rw [List.cons_append, List.nodup_cons] at h
    have hx : x ∉ before ++ r :: after ++ [r] := by
      intro hmem
      apply h.left
      rw [List.mem_append] at hmem
      cases hmem with
      | inl hmem => exact hmem
      | inr hmem =>
        rw [List.mem_singleton.mp hmem]
        simp
    rw [List.cons_append, List.cons_append, laps, List.idxOf?_eq_none_iff.mpr hx]
    exact ih h.right

variable {a : Automaton}

theorem mem_of_first? {cycle : List Nat} {r : Nat} (h : first? a cycle = some r) : r ∈ cycle := by
  unfold first? at h
  cases hentry : (entries a cycle).minOn? a.position with
  | none =>
    rw [hentry] at h
    exact List.minOn?_mem h
  | some s =>
    rw [hentry, Option.some_or] at h
    rw [← Option.some.inj h]
    have hmem : s ∈ entries a cycle := List.minOn?_mem hentry
    unfold entries at hmem
    rw [List.mem_filter, List.contains_iff_mem] at hmem
    exact hmem.right

theorem exists_first? {cycle : List Nat} (h : cycle ≠ []) : ∃ r, first? a cycle = some r := by
  obtain ⟨r, hr⟩ := exists_minOn? a.position h
  unfold first?
  rw [hr]
  cases (entries a cycle).minOn? a.position with
  | none => exact ⟨r, rfl⟩
  | some s => exact ⟨s, rfl⟩

theorem first?_eq_of_isRotated {cycle cycle' : List Nat} (h : cycle ~r cycle')
    (hinj : ∀ r ∈ cycle, ∀ s ∈ cycle, a.position r = a.position s → r = s)
    : first? a cycle = first? a cycle' := by
  have hcontains : ∀ r : Nat, cycle.contains r = cycle'.contains r := by
    intro r
    rw [Bool.eq_iff_iff, List.contains_iff_mem, List.contains_iff_mem]
    exact h.mem_iff
  have hperm : (entries a cycle).Perm (entries a cycle') := by
    unfold entries
    rw [funext hcontains]
    exact (h.perm.filterMap _).filter _
  have hentries : (entries a cycle).minOn? a.position = (entries a cycle').minOn? a.position := by
    apply minOn?_eq_of_perm hperm
    have hmem : ∀ r ∈ entries a cycle, r ∈ cycle := by
      intro r hr
      unfold entries at hr
      rw [List.mem_filter, List.contains_iff_mem] at hr
      exact hr.right
    intro r hr s hs
    exact hinj r (hmem r hr) s (hmem s hs)
  unfold first?
  rw [hentries, minOn?_eq_of_perm h.perm hinj]

theorem canonical_isRotated (a : Automaton) (cycle : List Nat) : canonical a cycle ~r cycle := by
  unfold canonical
  split
  . next r _ =>
    have hsplit := List.takeWhile_append_dropWhile (p := (· != r)) (l := cycle)
    have hrotated : (cycle.dropWhile (· != r) ++ cycle.takeWhile (· != r)) ~r
        (cycle.takeWhile (· != r) ++ cycle.dropWhile (· != r)) := List.isRotated_append
    rw [hsplit] at hrotated
    exact hrotated
  . exact .refl cycle

theorem canonical_eq_cons {cycle : List Nat} {r : Nat} (h : first? a cycle = some r)
    : ∃ rest, canonical a cycle = r :: rest := by
  have hmem : ∃ s ∈ cycle, ¬(s != r) = true := ⟨r, mem_of_first? h, by simp⟩
  unfold canonical
  rw [h]
  simp only
  cases hdrop : cycle.dropWhile (· != r) with
  | nil =>
    rw [List.dropWhile_eq_nil_iff] at hdrop
    obtain ⟨s, hs, hne⟩ := hmem
    exact absurd (hdrop s hs) hne
  | cons s rest =>
    have hhead := List.head?_dropWhile_not (· != r) cycle
    rw [hdrop] at hhead
    have hs : s = r := by simpa using hhead
    exact ⟨rest ++ cycle.takeWhile (· != r), by rw [hs]; rfl⟩

theorem canonical_eq_of_isRotated {cycle cycle' : List Nat} (h : cycle ~r cycle') (hnodup : cycle.Nodup)
    (hinj : ∀ r ∈ cycle, ∀ s ∈ cycle, a.position r = a.position s → r = s)
    : canonical a cycle = canonical a cycle' := by
  by_cases hnil : cycle = []
  . subst hnil
    rw [List.isRotated_nil_iff'.mp h]
  . obtain ⟨r, hr⟩ := exists_first? (a := a) hnil
    have hr' : first? a cycle' = some r := by
      rw [← first?_eq_of_isRotated h hinj, hr]
    obtain ⟨rest, hrest⟩ := canonical_eq_cons hr
    obtain ⟨rest', hrest'⟩ := canonical_eq_cons hr'
    have hrotated := (canonical_isRotated a cycle).trans (h.trans (canonical_isRotated a cycle').symm)
    have hnodup' := (canonical_isRotated a cycle).nodup_iff.mpr hnodup
    rw [hrest, hrest'] at hrotated
    rw [hrest] at hnodup'
    rw [hrest, hrest', eq_of_isRotated_cons hrotated hnodup']

def ofCycle (a : Automaton) (cycle : List ElementRef) : Loop :=
  ⟨canonical a cycle, (canonical a cycle).map a.name⟩

theorem mem_ofPath_iff {path : List Nat} {l : Loop}
    : l ∈ ofPath a path ↔ ∃ cycle ∈ laps path, l = ofCycle a cycle := by
  unfold ofPath
  simp only [List.mem_map, List.mem_eraseDups]
  constructor
  . rintro ⟨_, ⟨cycle, hcycle, rfl⟩, rfl⟩
    exact ⟨cycle, hcycle, rfl⟩
  . rintro ⟨cycle, hcycle, rfl⟩
    exact ⟨_, ⟨cycle, hcycle, rfl⟩, rfl⟩

theorem ofPath_of_nodup {path : List Nat} (h : path.Nodup) : ofPath a path = [] := by
  unfold ofPath
  rw [laps_eq_nil h]
  rfl

theorem ofPath_of_lap {before after : List Nat} {r : Nat} (h : (before ++ r :: after).Nodup)
    : ofPath a (before ++ r :: after ++ [r]) = [ofCycle a (r :: after)] := by
  unfold ofPath
  rw [laps_of_lap h]
  rfl

end Loop

namespace LoopReport

/--
The entries list what `found` holds of, each once and with some vector.
-/
structure Lists (loops : List (Loop × List ConditionVector)) (found : Loop → Prop) : Prop where
  nodup : (loops.map (·.1)).Nodup
  mem : ∀ l, l ∈ loops.map (·.1) ↔ found l
  vectors : ∀ x ∈ loops, x.2 ≠ []

theorem mem_note {v : ConditionVector} {l k : Loop} {loops : List (Loop × List ConditionVector)}
    : k ∈ (note v l loops).map (·.1) ↔ k = l ∨ k ∈ loops.map (·.1) := by
  induction loops with
  | nil => simp [note]
  | cons x loops ih =>
    unfold note
    split
    . next heq =>
      simp only [List.map_cons, List.mem_cons, heq]
      rw [← or_assoc, or_self]
    . rw [List.map_cons, List.map_cons, List.mem_cons, List.mem_cons, ih]
      exact or_left_comm

theorem nodup_note (v : ConditionVector) (l : Loop) {loops : List (Loop × List ConditionVector)}
    (h : (loops.map (·.1)).Nodup) : ((note v l loops).map (·.1)).Nodup := by
  induction loops with
  | nil => simp [note]
  | cons x loops ih =>
    rw [List.map_cons, List.nodup_cons] at h
    unfold note
    split
    . rw [List.map_cons, List.nodup_cons]
      exact h
    . next hne =>
      rw [List.map_cons, List.nodup_cons]
      refine ⟨?_, ih h.right⟩
      rw [mem_note]
      intro hmem
      cases hmem with
      | inl heq => exact hne heq
      | inr hmem => exact h.left hmem

theorem vectors_note (v : ConditionVector) (l : Loop) {loops : List (Loop × List ConditionVector)}
    (h : ∀ x ∈ loops, x.2 ≠ []) : ∀ x ∈ note v l loops, x.2 ≠ [] := by
  induction loops with
  | nil => simp [note]
  | cons y loops ih =>
    have hloops : ∀ x ∈ loops, x.2 ≠ [] := fun x hx => h x (List.mem_cons_of_mem y hx)
    unfold note
    split
    . intro x hx
      cases List.mem_cons.mp hx with
      | inl heq =>
        rw [heq]
        simp
      | inr hx => exact hloops x hx
    . intro x hx
      cases List.mem_cons.mp hx with
      | inl heq =>
        rw [heq]
        exact h y List.mem_cons_self
      | inr hx => exact ih hloops x hx

namespace Lists

variable {loops : List (Loop × List ConditionVector)} {found : Loop → Prop}

theorem note (h : Lists loops found) (v : ConditionVector) (l : Loop)
    : Lists (note v l loops) fun k => k = l ∨ found k where
  nodup := nodup_note v l h.nodup
  mem := by
    intro k
    rw [mem_note, h.mem]
  vectors := vectors_note v l h.vectors

theorem congr {found' : Loop → Prop} (h : Lists loops found) (hiff : ∀ l, found l ↔ found' l)
    : Lists loops found' where
  nodup := h.nodup
  mem := fun l => (h.mem l).trans (hiff l)
  vectors := h.vectors

theorem notes (h : Lists loops found) (v : ConditionVector) (ls : List Loop)
    : Lists (ls.foldl (fun loops l => LoopReport.note v l loops) loops) fun k => k ∈ ls ∨ found k := by
  induction ls generalizing loops found with
  | nil =>
    apply h.congr
    simp
  | cons l ls ih =>
    apply (ih (h.note v l)).congr
    intro k
    rw [List.mem_cons, or_left_comm, ← or_assoc]

theorem records {report : LoopReport} (h : Lists report.loops found) (under : ConditionVector → List Loop)
    (vs : List ConditionVector)
    : Lists (vs.foldl (fun report v => report.record v (under v)) report).loops
        fun k => (∃ v ∈ vs, k ∈ under v) ∨ found k := by
  induction vs generalizing report found with
  | nil =>
    apply h.congr
    simp
  | cons v vs ih =>
    apply (@ih _ (report.record v (under v)) (h.notes v (under v))).congr
    intro k
    rw [List.exists_mem_cons_iff, or_left_comm, ← or_assoc]

end Lists

end LoopReport

end LogicalScheme
