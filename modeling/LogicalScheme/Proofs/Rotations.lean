import LogicalScheme.Proofs.Entries

/-!
This module contains the rotations of a cycle in any automaton whose elements stand at different positions. All
of them are written alike, from the entry on that stands first in the scheme.
-/

namespace LogicalScheme

namespace Automaton

def Placed (a : Automaton) : Prop :=
  (a.elements.toList.map (·.position)).Nodup

instance (a : Automaton) : Decidable a.Placed :=
  inferInstanceAs (Decidable (List.Nodup _))

theorem position_of_has {a : Automaton} {r : Nat} (h : a.Has r)
    : (a.elements.toList.map (·.position))[r]? = some (a.position r) := by
  unfold position element?
  rw [List.getElem?_map, Array.getElem?_toList, Array.getElem?_eq_getElem h]
  rfl

theorem Placed.eq_of_position {a : Automaton} {r s : Nat} (ha : a.Placed) (hr : a.Has r) (hs : a.Has s)
    (h : a.position r = a.position s) : r = s := by
  have hlt : r < (a.elements.toList.map (·.position)).length := by
    rw [List.length_map, Array.length_toList]
    exact hr
  apply (List.getElem?_inj hlt ha).mp
  rw [position_of_has hr, position_of_has hs, h]

end Automaton

namespace Loop

variable {a : Automaton} {cycle : List Nat} {r s : Nat}

/--
An entry of a cycle is one of its jump points, or where one of its jumps leads.
-/
structure IsEntry (a : Automaton) (cycle : List ElementRef) (r : ElementRef) : Prop where
  mem : r ∈ cycle
  entered : (∃ e index, a.element? r = some e ∧ e.kind = .jumpPoint index) ∨ ∃ s ∈ cycle, a.JumpsInto s r

/--
The element that a cycle is written from: of its entries the one that stands first in the scheme, or of all
its elements if there are no entries.
-/
structure IsFirst (a : Automaton) (cycle : List ElementRef) (r : ElementRef) : Prop where
  entry : IsEntry a cycle r ∨ r ∈ cycle ∧ ∀ s, ¬IsEntry a cycle s
  least : ∀ s ∈ cycle, IsEntry a cycle s ∨ (∀ q, ¬IsEntry a cycle q) → a.position r ≤ a.position s

theorem entryThrough?_eq_some_iff
    : entryThrough? a r = some s ↔
        (∃ e index, a.element? s = some e ∧ e.kind = .jumpPoint index) ∧ r = s ∨ a.JumpsInto r s := by
  constructor
  . intro h
    unfold entryThrough? at h
    rw [Option.bind_eq_some_iff] at h
    obtain ⟨e, he, h⟩ := h
    split at h
    . next index unconditional hkind =>
      obtain ⟨point, hpoint, hnext⟩ := Option.bind_eq_some_iff.mp h
      exact .inr ⟨e, index, unconditional, point, he, hkind, hpoint, hnext⟩
    . next index hkind =>
      cases h
      exact .inl ⟨⟨e, index, he, hkind⟩, rfl⟩
    . contradiction
  . rintro (⟨⟨e, index, he, hkind⟩, rfl⟩ | h)
    . unfold entryThrough?
      simp only [he, Option.bind_some, hkind]
    . exact h.entryThrough?

theorem mem_entries_iff_isEntry : r ∈ entries a cycle ↔ IsEntry a cycle r := by
  rw [mem_entries_iff]
  simp only [entryThrough?_eq_some_iff]
  constructor
  . rintro ⟨hr, s, hs, ⟨hpoint, rfl⟩ | hjump⟩
    . exact ⟨hr, .inl hpoint⟩
    . exact ⟨hr, .inr ⟨s, hs, hjump⟩⟩
  . rintro ⟨hr, hpoint | ⟨s, hs, hjump⟩⟩
    . exact ⟨hr, r, hr, .inl ⟨hpoint, rfl⟩⟩
    . exact ⟨hr, s, hs, .inr hjump⟩

theorem isFirst_of_first? (h : first? a cycle = some r) : IsFirst a cycle r := by
  unfold first? at h
  cases hentry : (entries a cycle).minOn? a.position with
  | some s =>
    rw [hentry] at h
    cases h
    have hs := mem_entries_iff_isEntry.mp (List.minOn?_mem hentry)
    refine ⟨.inl hs, ?_⟩
    rintro q _ (hq | hnone)
    . exact le_of_minOn? hentry (mem_entries_iff_isEntry.mpr hq)
    . exact absurd hs (hnone r)
  | none =>
    rw [hentry] at h
    have hnone : ∀ s, ¬IsEntry a cycle s := by
      intro s hs
      obtain ⟨q, hq⟩ := exists_minOn? a.position (List.ne_nil_of_mem (mem_entries_iff_isEntry.mpr hs))
      rw [hentry] at hq
      contradiction
    exact ⟨.inr ⟨List.minOn?_mem h, hnone⟩, fun s hs _ => le_of_minOn? h hs⟩

/--
Two cycles are written alike if and only if they are rotations of each other. What is written begins at the
first entry and is written as it is.
-/
theorem canonical_exact (ha : a.Placed) (hhas : ∀ r ∈ cycle, a.Has r) (hnonempty : cycle ≠ [])
    (hnodup : cycle.Nodup)
    : canonical a cycle ~r cycle ∧
        (∀ cycle', canonical a cycle' = canonical a cycle ↔ cycle' ~r cycle) ∧
        canonical a (canonical a cycle) = canonical a cycle ∧
        ∃ first rest, canonical a cycle = first :: rest ∧ IsFirst a cycle first := by
  have hrotated := canonical_isRotated a cycle
  have hinj : ∀ r ∈ cycle, ∀ s ∈ cycle, a.position r = a.position s → r = s :=
    fun r hr s hs => ha.eq_of_position (hhas r hr) (hhas s hs)
  have hsame : ∀ cycle', cycle' ~r cycle → canonical a cycle' = canonical a cycle :=
    fun cycle' h => (canonical_eq_of_isRotated h.symm hnodup hinj).symm
  refine ⟨hrotated, ?_, hsame _ hrotated, ?_⟩
  . intro cycle'
    refine ⟨?_, hsame cycle'⟩
    intro heq
    exact (canonical_isRotated a cycle').symm.trans (heq ▸ hrotated)
  . obtain ⟨first, hfirst⟩ := exists_first? (a := a) hnonempty
    obtain ⟨rest, hrest⟩ := canonical_eq_cons hfirst
    exact ⟨first, rest, hrest, isFirst_of_first? hfirst⟩

/--
The jump `w↑1` leads to `Y1`, and `↓2` is passed on the way: the cycle has two entries.
-/
def twiceEnteredText : String :=
  "Yн ↓1 Y1 ↓2 X1 ↑3 w↑1 ↓3 Yк"

theorem canonical_twiceEnteredText
    : let a := (Parsed.ofText twiceEnteredText).automaton
      a.Placed ∧ (∀ r ∈ [4, 6, 2, 3], a.Has r) ∧ canonical a [4, 6, 2, 3] = [2, 3, 4, 6] ∧
        canonical a [3, 4, 6, 2] = [2, 3, 4, 6] ∧ IsFirst a [4, 6, 2, 3] 2 := by
  intro a
  have ha : a.Placed ∧ (∀ r ∈ [4, 6, 2, 3], a.Has r) ∧ canonical a [4, 6, 2, 3] = [2, 3, 4, 6] := by
    unfold a
    rw [Parsed.ofText_eq]
    decide +kernel
  obtain ⟨hplaced, hhas, hcanonical⟩ := ha
  obtain ⟨_, hiff, _, first, rest, hrest, hfirst⟩ :=
    canonical_exact hplaced hhas (by decide) (by decide)
  have hturned : canonical a [3, 4, 6, 2] = canonical a [4, 6, 2, 3] := (hiff [3, 4, 6, 2]).mpr ⟨1, rfl⟩
  rw [hcanonical] at hturned hrest
  cases hrest
  exact ⟨hplaced, hhas, hcanonical, hturned, hfirst⟩

end Loop

end LogicalScheme
