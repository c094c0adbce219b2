import LogicalScheme.Automaton.Transition
import LogicalScheme.Checks
import LogicalScheme.Proofs.Flat

/-!
This module contains the outcome of the checks on the layout of a draft. The checks change nothing,
since a jump point without successor is the last element.
-/

namespace LogicalScheme

/--
The codes of problems that lie in the order of tokens. Linking never meets a conflict and never leaves a
gap to be closed, so its two codes are not among them.
-/
def Code.isStructural : Code → Bool
  | .missingStart => true
  | .missingFinish => true
  | .missingBranchJump => true
  | .emptyBranch => true
  | .duplicateJumpPoint => true
  | .duplicateStart => true
  | .duplicateFinish => true
  | .unresolvedJump => true
  | .incompleteConditional => true
  | .strayJumpPoint => true
  | _ => false

def Diagnostic.IsStructural (x : Diagnostic) : Prop :=
  x.isError = true ∧ ∃ code, x.code = some code ∧ code.isStructural = true

theorem Element.isJumpPoint_iff {e : Element}
    : e.isJumpPoint = true ↔ ∃ index, e.kind = .jumpPoint index := by
  unfold isJumpPoint
  cases e.kind <;> simp

namespace Draft

def strayPoint (d : Draft) (r : ElementRef) : Diagnostic :=
  let name := d.layout.name r
  let position := d.layout.position r
  { severity := .error
    message := s!"jump point `{name}` leads nowhere"
    code := some .strayJumpPoint
    position := some position
    labels := [.mark (Checks.span d position) Code.strayJumpPoint.description]
    help := some "place an element or `Yк` after the jump point" }

def problems (d : Draft) : List Diagnostic :=
  Checks.duplicates d .duplicateStart "start marker `Yн`" (Checks.startPositions d) ++
    Checks.duplicates d .duplicateFinish "end marker `Yк`" (Checks.finishPositions d.layout) ++
    Checks.unresolvedJumps d d.layout ++
    (Checks.danglingPoints d.layout).map d.strayPoint ++
    Checks.incompleteConditionals d d.layout

theorem layout_position_zero (d : Draft) : d.layout.position 0 = 0 := by
  unfold Automaton.position
  rw [layout_element?_zero]
  rfl

theorem layout_position_ref {d : Draft} {p : Nat} (h : d.makes p = true)
    : d.layout.position (d.ref p) = p := by
  unfold Automaton.position
  rw [layout_element?_ref h]
  rfl

theorem exists_ref_of_has {d : Draft} {r : Nat} (h : d.layout.Has r) (hr : 0 < r)
    : ∃ p, d.makes p = true ∧ d.ref p = r := by
  have he : d.layout.element? r = some d.layout.elements[r] := Array.getElem?_eq_getElem h
  obtain ⟨p, hmakes, href, _⟩ := makes_of_layout_element? he hr
  exact ⟨p, hmakes, href⟩

theorem layout_position_le {d : Draft} {r s : Nat} (hle : r ≤ s) (hs : d.layout.Has s)
    : d.layout.position r ≤ d.layout.position s := by
  cases Nat.eq_zero_or_pos r with
  | inl hr =>
    rw [hr, layout_position_zero]
    apply Nat.zero_le
  | inr hr =>
    obtain ⟨p, hp, rfl⟩ := exists_ref_of_has (Nat.lt_of_le_of_lt hle hs) hr
    obtain ⟨q, hq, rfl⟩ := exists_ref_of_has hs (Nat.lt_of_lt_of_le hr hle)
    rw [layout_position_ref hp, layout_position_ref hq]
    apply Nat.le_of_not_lt
    intro hlt
    exact Nat.not_lt_of_le hle (ref_lt_ref hq hlt)

theorem next_eq_none_iff_of_jumpPoint {d : Draft} {r : Nat} {e : Element} {index : UInt32}
    (h : d.layout.element? r = some e) (hkind : e.kind = .jumpPoint index)
    : e.next = none ↔ r + 1 = d.count := by
  have hlt := Automaton.lt_size_of_element? h
  rw [layout_size] at hlt
  rw [layout_next h, hkind]
  unfold successor
  by_cases hlast : r + 1 < d.count
  . simp [Kind.fallsThrough, hlast, Nat.ne_of_lt hlast]
  . have heq : r + 1 = d.count := by omega
    simp [Kind.fallsThrough, heq]

theorem mem_danglingPoints_iff {d : Draft} {r : Nat}
    : r ∈ Checks.danglingPoints d.layout ↔
        ∃ e index, d.layout.element? r = some e ∧ e.kind = .jumpPoint index ∧ r + 1 = d.count := by
  unfold Checks.danglingPoints
  rw [List.mem_filter, Automaton.mem_refs]
  constructor
  . intro ⟨_, hany⟩
    obtain ⟨e, he, hdangling⟩ := (Option.any_eq_true ..).mp hany
    rw [Bool.and_eq_true, Option.isNone_iff_eq_none, Element.isJumpPoint_iff] at hdangling
    obtain ⟨⟨index, hkind⟩, hnext⟩ := hdangling
    exact ⟨e, index, he, hkind, (next_eq_none_iff_of_jumpPoint he hkind).mp hnext⟩
  . intro ⟨e, index, he, hkind, hlast⟩
    refine ⟨Automaton.lt_size_of_element? he, ?_⟩
    rw [he, Option.any_some, Bool.and_eq_true, Option.isNone_iff_eq_none, Element.isJumpPoint_iff]
    exact ⟨⟨index, hkind⟩, (next_eq_none_iff_of_jumpPoint he hkind).mpr hlast⟩

theorem following?_eq_none_of_dangling {d : Draft} {r : Nat}
    (h : r ∈ Checks.danglingPoints d.layout)
    : Checks.following? d.layout (d.layout.position r) = none := by
  obtain ⟨e, _, he, _, hlast⟩ := mem_danglingPoints_iff.mp h
  have hnone : d.layout.refs.filter (d.layout.position r < d.layout.position ·) = [] := by
    apply List.filter_eq_nil_iff.mpr
    intro (s : Nat) hs hlt
    have hsize : s < d.layout.elements.size := Automaton.mem_refs.mp hs
    rw [layout_size] at hsize
    have hle : s ≤ r := by omega
    have hpositions := layout_position_le hle (Automaton.lt_size_of_element? he)
    exact Nat.not_lt_of_le hpositions (of_decide_eq_true hlt)
  unfold Checks.following?
  rw [hnone]
  rfl

theorem completePoints_layout (d : Draft) (points : List ElementRef)
    (h : ∀ r ∈ points, r ∈ Checks.danglingPoints d.layout)
    : Checks.completePoints d d.layout points = (d.layout, points.map d.strayPoint) := by
  induction points with
  | nil => rfl
  | cons point points ih =>
    have hpoint : Checks.completePoint d d.layout point = (d.layout, d.strayPoint point) := by
      unfold Checks.completePoint
      simp only [following?_eq_none_of_dangling (h point List.mem_cons_self)]
      rfl
    have hpoints := ih fun r hr => h r (List.mem_cons_of_mem point hr)
    simp only [Checks.completePoints, hpoint, hpoints, List.map_cons]

theorem check_layout (d : Draft) : d.layout.check d = (d.layout, d.problems) := by
  unfold Automaton.check
  rw [completePoints_layout d _ fun _ h => h]
  rfl

theorem duplicates_isStructural {d : Draft} {code : Code} {what : String} {positions : List Nat}
    {x : Diagnostic} (hcode : code.isStructural = true)
    (h : x ∈ Checks.duplicates d code what positions) : x.IsStructural := by
  unfold Checks.duplicates at h
  split at h
  . rw [List.mem_singleton] at h
    rw [h]
    exact ⟨rfl, code, rfl, hcode⟩
  . contradiction

theorem problems_isStructural (d : Draft) : ∀ x ∈ d.problems, x.IsStructural := by
  intro x hx
  unfold problems at hx
  simp only [List.mem_append] at hx
  rcases hx with (((hx | hx) | hx) | hx) | hx
  . exact duplicates_isStructural rfl hx
  . exact duplicates_isStructural rfl hx
  . obtain ⟨e, _, he⟩ := List.mem_filterMap.mp hx
    split at he
    . split at he
      . cases he
        exact ⟨rfl, _, rfl, rfl⟩
      . contradiction
    . contradiction
  . obtain ⟨r, _, rfl⟩ := List.mem_map.mp hx
    exact ⟨rfl, _, rfl, rfl⟩
  . obtain ⟨e, _, he⟩ := List.mem_filterMap.mp hx
    obtain ⟨missing, _, rfl⟩ := Option.map_eq_some_iff.mp he
    exact ⟨rfl, _, rfl, rfl⟩

theorem reports_isStructural (d : Draft) (p : Nat) : ∀ x ∈ d.reports p, x.IsStructural := by
  intro x hx
  unfold reports markerReports at hx
  simp only [List.mem_append, List.mem_flatMap] at hx
  rcases hx with (hx | hx) | ⟨q, _, hx⟩
  . split at hx
    . contradiction
    . rw [List.mem_singleton.mp hx]
      exact ⟨rfl, _, rfl, rfl⟩
  . split at hx
    . contradiction
    . rw [List.mem_singleton.mp hx]
      exact ⟨rfl, _, rfl, rfl⟩
  . unfold reportsAt at hx
    split at hx
    . obtain ⟨first, _, rfl⟩ := List.mem_map.mp hx
      exact ⟨rfl, _, rfl, rfl⟩
    . rw [List.mem_append] at hx
      unfold jumpReports branchReports at hx
      rcases hx with hx | hx
      . split at hx
        . contradiction
        . rw [List.mem_singleton.mp hx]
          exact ⟨rfl, _, rfl, rfl⟩
      . simp only at hx
        split at hx
        . rw [List.mem_singleton.mp hx]
          exact ⟨rfl, _, rfl, rfl⟩
        . contradiction
    . contradiction

end Draft

end LogicalScheme
