import LogicalScheme.Proofs.Assembly.Replay
import LogicalScheme.Proofs.Parsed

/-!
This module contains where the successors of elements come from. Each is written by one link of the assembly,
and none is left for the checks to write, so there is neither a conflict nor a gap to report.
-/

namespace LogicalScheme

namespace Draft

theorem layout_next?_iff {d : Draft} {source target : Nat}
    : d.layout.next? source = some target ↔
        d.through source = some source ∧ target = source + 1 ∧ target < d.count := by
  have helement : d.layout.element? source = (d.entries d.count)[source]? := List.getElem?_toArray ..
  unfold Automaton.next? through
  rw [helement, entries_getElem?]
  cases (d.entries 0)[source]? with
  | none => simp
  | some e =>
    cases hfalls : e.kind.fallsThrough with
    | false => simp [successor, hfalls]
    | true =>
      simp only [successor, hfalls, Option.map_some, Option.bind_some, Option.any_some, Bool.true_and,
        decide_eq_true_eq, ↓reduceIte, true_and, Option.ite_none_right_eq_some, Option.some.injEq]
      constructor
      . rintro ⟨hlt, rfl⟩
        exact ⟨rfl, hlt⟩
      . rintro ⟨rfl, hlt⟩
        exact ⟨hlt, rfl⟩

theorem next_of_followed {d : Draft} {r q : Nat} {e : Element} {index : UInt32}
    (h : d.layout.element? r = some e) (hkind : e.kind = .jumpPoint index) (hq : d.layout.Has q)
    (hlt : d.layout.position r < d.layout.position q) : e.next.isSome = true := by
  -- elements stand in the order of their positions, so the follower keeps `r` from being the last
  have hbehind : r < q := by
    apply Nat.lt_of_not_le
    intro hle
    have := layout_position_le hle (Automaton.lt_size_of_element? h)
    omega
  have hsize : q < d.layout.elements.size := hq
  rw [layout_size] at hsize
  cases hnext : e.next with
  | none =>
    have := (next_eq_none_iff_of_jumpPoint h hkind).mp hnext
    omega
  | some s => rfl

end Draft

namespace Assembly

/--
Every successor is written by one link, and every jump point that an element follows has one. The listed links
are those of the assembly, which is a history of calls on an automaton without elements.
-/
structure LinkedOnce (d : Draft) : Prop where
  replayed : ∃ history, d.blank.History (calls d) (ofDraft d).automaton history ∧ d.blank.Admits history
  fresh : ∀ c ∈ calls d, c.Fresh
  nodup : ((calls d).map (·.source)).Nodup
  next : ∀ source target,
    (∃ c ∈ calls d, c.source = source ∧ c.target = target) ↔
      (ofDraft d).automaton.next? source = some target
  followed : ∀ r e index, (ofDraft d).automaton.element? r = some e → e.kind = .jumpPoint index →
    (∃ q f, (ofDraft d).automaton.element? q = some f ∧ e.position < f.position) →
      e.next.isSome = true

theorem linkedOnce (d : Draft) : LinkedOnce d := by
  have hlinks := calls_links d
  constructor
  . obtain ⟨history, hhistory⟩ := ofDraft_replays d
    refine ⟨history, hhistory, hhistory.admits ?_⟩
    intro c hc
    exact (hlinks.fresh c hc).left
  . exact hlinks.fresh
  . exact hlinks.nodup
  . intro source target
    rw [hlinks.mem, ofDraft_automaton, Draft.layout_next?_iff, Draft.layout_size]
    constructor
    . rintro ⟨hthrough, htarget, _, hlt⟩
      exact ⟨hthrough, htarget, hlt⟩
    . rintro ⟨hthrough, rfl, hlt⟩
      exact ⟨hthrough, rfl, Nat.succ_pos source, hlt⟩
  . rw [ofDraft_automaton]
    rintro r e index he hkind ⟨q, f, hf, hlt⟩
    apply Draft.next_of_followed he hkind (Automaton.lt_size_of_element? hf)
    unfold Automaton.position
    rw [he, hf]
    exact hlt

end Assembly

namespace Parsed

theorem code_not_mem {text : String} {code : Code} (hunrecognized : code ≠ .unrecognizedToken)
    (hstructural : code.isStructural = false)
    : some code ∉ (ofText text).diagnostics.map (·.code) := by
  intro hmem
  obtain ⟨x, hx, hcode⟩ := List.mem_map.mp hmem
  cases diagnostics_cases text x hx with
  | inl h =>
    rw [h.right] at hcode
    exact hunrecognized (Option.some.inj hcode).symm
  | inr h =>
    obtain ⟨_, code', hcode', hstructural'⟩ := h
    rw [hcode', Option.some.injEq] at hcode
    rw [← hcode, hstructural'] at hstructural
    contradiction

/--
The assembly links each element at most once and leaves no jump point to the checks that has an element
behind it. So no text is reported for a conflict of successors or for a gap that was closed.
-/
theorem linkedOnce_ofText (text : String)
    : Assembly.LinkedOnce (Draft.ofText text)
        ∧ some .conflictingSuccessor ∉ (ofText text).diagnostics.map (·.code)
        ∧ some .inferredSuccessor ∉ (ofText text).diagnostics.map (·.code) := by
  refine ⟨Assembly.linkedOnce _, ?_, ?_⟩
  . exact code_not_mem (by simp) rfl
  . exact code_not_mem (by simp) rfl

end Parsed

end LogicalScheme
