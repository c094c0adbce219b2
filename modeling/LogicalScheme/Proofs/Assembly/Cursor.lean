import LogicalScheme.Proofs.Assembly.Made

/-!
This module contains the invariant of an assembly at its cursor, and what the single operations of an
assembly do to it.
-/

namespace LogicalScheme

namespace Draft

def through (d : Draft) (r : Nat) : Option ElementRef :=
  if (d.entries 0)[r]?.any (·.kind.fallsThrough) then some r else none

theorem through_eq_some {d : Draft} {r q : Nat} (h : d.through r = some q)
    : q = r ∧ ∃ e, (d.entries 0)[r]? = some e ∧ e.kind.fallsThrough = true := by
  unfold through at h
  split at h
  . next hfalls =>
    refine ⟨(Option.some.inj h).symm, ?_⟩
    cases he : (d.entries 0)[r]? with
    | none => simp [he] at hfalls
    | some e => exact ⟨e, rfl, by simpa [he] using hfalls⟩
  . contradiction

theorem successor_of_through {d : Draft} {m n r : Nat} {e : Element}
    (he : (d.entries 0)[r]? = some e) (h : d.through r = none ∨ (r + 1 < m ↔ r + 1 < n))
    : successor m r e.kind = successor n r e.kind := by
  unfold successor
  cases hfalls : e.kind.fallsThrough with
  | false => rfl
  | true =>
    cases h with
    | inl hnone => simp [through, he, hfalls] at hnone
    | inr hiff => simp [hiff]

theorem entries_congr {d : Draft} {m n r : Nat}
    (h : d.through r = none ∨ (r + 1 < m ↔ r + 1 < n)) : (d.entries m)[r]? = (d.entries n)[r]? := by
  rw [d.entries_getElem? m, d.entries_getElem? n]
  cases he : (d.entries 0)[r]? with
  | none => rfl
  | some e => simp [successor_of_through he h]

theorem through_ref {d : Draft} {p : Nat} (h : d.makes p = true)
    : d.through (d.ref p) = if (d.kind p).fallsThrough then some (d.ref p) else none := by
  unfold through
  rw [entries_ref h]
  rfl

end Draft

namespace Assembly

/--
The position up to which all lexemes have made their elements. It is one behind the cursor if a branch
closed in front of the cursor.
-/
def reach (s : Assembly) (cursor : Nat) : Nat :=
  if (s.ahead.lookup cursor).isSome then cursor + 1 else cursor

/--
The invariant of an assembly. An element is only ever made ahead at the cursor, where a branch closed.
-/
structure At (d : Draft) (s : Assembly) (cursor : Nat) : Prop where
  made : s.automaton.Made d (s.reach cursor)
  conditionals : s.conditionals = d.conditionals cursor
  reported : s.diagnostics.toList = d.reports (s.reach cursor)
  ahead : ∀ p r, s.ahead.lookup p = some r →
    p < cursor ∨ p = cursor ∧ r = d.ref cursor ∧ (d.token? cursor).any (·.closesBranch) = true

/--
The element from which control falls through to the cursor and still has to be linked.
-/
def source (s : Assembly) (d : Draft) (cursor : Nat) : Option ElementRef :=
  if (s.ahead.lookup cursor).isSome then none else d.through (d.ref cursor - 1)

variable {d : Draft} {s : Assembly} {cursor : Nat}

theorem reach_of_lookup_eq_none (h : s.ahead.lookup cursor = none) : s.reach cursor = cursor := by
  simp [reach, h]

theorem reach_of_lookup_eq_some {r : ElementRef} (h : s.ahead.lookup cursor = some r)
    : s.reach cursor = cursor + 1 := by
  simp [reach, h]

theorem source_of_lookup_eq_none (h : s.ahead.lookup cursor = none)
    : s.source d cursor = d.through (d.ref cursor - 1) := by
  simp [source, h]

theorem source_of_lookup_eq_some {r : ElementRef} (h : s.ahead.lookup cursor = some r)
    : s.source d cursor = none := by
  simp [source, h]

namespace At

theorem lookup_of_lt (hs : At d s cursor) {p : Nat} (h : cursor < p) : s.ahead.lookup p = none := by
  cases hlookup : s.ahead.lookup p with
  | none => rfl
  | some r =>
    have := hs.ahead p r hlookup
    omega

theorem lookup_of_not_closesBranch (hs : At d s cursor)
    (h : (d.token? cursor).any (·.closesBranch) = false) : s.ahead.lookup cursor = none := by
  cases hlookup : s.ahead.lookup cursor with
  | none => rfl
  | some r =>
    cases hs.ahead cursor r hlookup with
    | inl hlt => omega
    | inr hhere =>
      rw [h] at hhere
      simp at hhere

theorem lookup_of_not_closes {t : Token} (hs : At d s cursor) (ht : d.token? cursor = some t)
    (hopen : t.closesBranch = false) : s.ahead.lookup cursor = none := by
  apply hs.lookup_of_not_closesBranch
  rw [ht]
  exact hopen

theorem made_of_lookup (hs : At d s cursor) (h : s.ahead.lookup cursor = none)
    : s.automaton.Made d cursor := by
  have hmade := hs.made
  rw [reach_of_lookup_eq_none h] at hmade
  exact hmade

theorem reported_of_lookup (hs : At d s cursor) (h : s.ahead.lookup cursor = none)
    : s.diagnostics.toList = d.reports cursor := by
  have hreported := hs.reported
  rw [reach_of_lookup_eq_none h] at hreported
  exact hreported

theorem size (hs : At d s cursor) (h : s.ahead.lookup cursor = none)
    : s.automaton.elements.size = d.ref cursor :=
  (hs.made_of_lookup h).size

theorem lookup_eq_some (hs : At d s cursor) {r : ElementRef} (h : s.ahead.lookup cursor = some r)
    : r = d.ref cursor ∧ ∃ t, d.token? cursor = some t ∧ t.closesBranch = true := by
  cases hs.ahead cursor r h with
  | inl hlt => omega
  | inr hhere =>
    obtain ⟨_, hr, hcloses⟩ := hhere
    refine ⟨hr, ?_⟩
    cases ht : d.token? cursor with
    | none => simp [ht] at hcloses
    | some t => exact ⟨t, rfl, by simpa [ht] using hcloses⟩

theorem of_automaton {a : Automaton} (hs : At d s cursor) (h : a.Made d (s.reach cursor))
    : At d { s with automaton := a } cursor where
  made := h
  conditionals := hs.conditionals
  reported := hs.reported
  ahead := hs.ahead

theorem of_made {s' : Assembly} {next : Nat} (hs : At d s cursor) (hlt : cursor < next)
    (hahead : s'.ahead = s.ahead) (hmade : s'.automaton.Made d next)
    (hconditionals : s'.conditionals = d.conditionals next)
    (hreported : s'.diagnostics.toList = d.reports next) : At d s' next := by
  have hnone : s'.ahead.lookup next = none := by
    rw [hahead]
    exact hs.lookup_of_lt hlt
  have hreach : s'.reach next = next := reach_of_lookup_eq_none hnone
  constructor
  . rw [hreach]
    exact hmade
  . exact hconditionals
  . rw [hreach]
    exact hreported
  . intro p r hlookup
    rw [hahead] at hlookup
    have := hs.ahead p r hlookup
    omega

end At

structure Grown (d : Draft) (s s' : Assembly) (position : Nat) : Prop where
  ahead : s'.ahead = s.ahead
  conditionals : s'.conditionals = s.conditionals
  reported : s'.diagnostics.toList = s.diagnostics.toList ++ d.reportsAt position
  made : s'.automaton.Made d (position + 1)
  agree : Automaton.Agree s.automaton.elements.size s.automaton s'.automaton
  last : s'.automaton.element? (d.ref position) = (d.entries (d.ref position + 1))[d.ref position]?

theorem entries_ref_succ {p : Nat} (h : d.makes p = true)
    : (d.entries (d.ref p + 1))[d.ref p]? =
        some { name := d.name p, kind := d.kind p, position := p } := by
  rw [Draft.entries_ref h]
  simp [Draft.element, Draft.successor]

variable {p : Nat} {t : Token}

theorem add_grown (hmade : s.automaton.Made d p) (ht : d.token? p = some t) (hstart : t ≠ .start)
    (hpoint : ∀ index, t ≠ .jumpPoint index) (hconditional : t.isConditional = false)
    : (s.add d (d.kind p) p).1 = d.ref p ∧ Grown d s (s.add d (d.kind p) p).2 p := by
  refine ⟨hmade.size, ?_⟩
  constructor
  . rfl
  . rfl
  . unfold Draft.reportsAt
    rw [ht]
    cases t with
    | jumpPoint index => exact absurd rfl (hpoint index)
    | conditional letter number => contradiction
    | _ => simp [add]
  . exact hmade.add ht hstart hpoint _
  . apply Automaton.Agree.add
  . rw [entries_ref_succ (Draft.makes_of_token? ht hstart), ← hmade.size]
    apply Automaton.element?_add_size

theorem addJumpPoint_grown {index : UInt32} (hmade : s.automaton.Made d p)
    (ht : d.token? p = some (.jumpPoint index))
    : (s.addJumpPoint d index p).1 = d.ref p ∧ Grown d s (s.addJumpPoint d index p).2 p := by
  have hmakes : d.makes p = true := Draft.makes_of_token? ht (by simp)
  have hkind : d.kind p = .jumpPoint index := by simp [Draft.kind, ht, Token.kind]
  have hlast : (s.automaton.add (d.name p) (.jumpPoint index) p).element? (d.ref p) =
      (d.entries (d.ref p + 1))[d.ref p]? := by
    rw [entries_ref_succ hmakes, hkind, ← hmade.size]
    apply Automaton.element?_add_size
  have hagree := Automaton.Agree.add s.automaton (d.name p) (.jumpPoint index) p
  cases hfirst : d.declaration? p index with
  | none =>
    obtain ⟨c, hregister, helements, hc⟩ := hmade.register ht hfirst
    have helement : c.element? = (s.automaton.add (d.name p) (.jumpPoint index) p).element? := by
      unfold Automaton.element?
      rw [helements]
    simp only [addJumpPoint, add, hmade.size, hregister]
    refine ⟨trivial, rfl, rfl, ?_, hc, ?_, ?_⟩
    . simp [Draft.reportsAt, ht, hfirst]
    . intro r hr
      rw [helement]
      exact hagree r hr
    . rw [helement]
      exact hlast
  | some q =>
    obtain ⟨hregister, hc⟩ := hmade.register_refused ht hfirst
    have hq : q < p ∧ d.makes q = true := by
      unfold Draft.declaration? at hfirst
      have hmem := List.mem_of_find?_eq_some hfirst
      have htoken := List.find?_some hfirst
      refine ⟨List.mem_range.mp hmem, ?_⟩
      exact Draft.makes_of_token? (by simpa using htoken) (by simp)
    have hposition := hc.placed q (by omega) hq.right
    simp only [addJumpPoint, add, hmade.size, hregister]
    refine ⟨trivial, rfl, rfl, ?_, hc, hagree, hlast⟩
    simp [Draft.reportsAt, ht, hfirst, report, span, hposition, Draft.duplicatePoint]

theorem terminator_grown (hmade : s.automaton.Made d p) (hlookup : s.ahead.lookup p = none)
    (ht : d.token? p = some t) (hcloses : t.closesBranch = true)
    : ∃ s', s.terminator d p = (some (d.ref p), { s' with ahead := (p, d.ref p) :: s'.ahead }) ∧
        Grown d s s' p := by
  unfold terminator
  rw [hlookup]
  cases t with
  | jumpPoint index =>
    obtain ⟨href, hgrown⟩ := addJumpPoint_grown hmade ht
    refine ⟨_, ?_, hgrown⟩
    simp [ht, href]
  | finish =>
    have hkind : d.kind p = .finish := by simp [Draft.kind, ht, Token.kind]
    obtain ⟨href, hgrown⟩ := add_grown hmade ht (by simp) (by simp) rfl
    rw [hkind] at href hgrown
    refine ⟨_, ?_, hgrown⟩
    simp [ht, href]
  | _ => contradiction

theorem next?_of_last {a : Automaton} {count r : Nat} (h : a.element? r = (d.entries count)[r]?)
    (hlast : count ≤ r + 1) : a.next? r = none := by
  unfold Automaton.next?
  rw [h, Draft.entries_getElem?]
  cases (d.entries 0)[r]? <;> simp [Draft.successor, Nat.not_lt_of_le hlast]

theorem linkFrom_complete {base target position : Nat} {previous : Option ElementRef}
    (hprevious : previous = d.through (target - 1)) (hbase : ∀ q, previous = some q → base ≤ q)
    (htarget : 0 < target) (hsize : target < s.automaton.elements.size)
    (hold : ∀ r, base ≤ r → r < target → s.automaton.element? r = (d.entries target)[r]?)
    (hnew : s.automaton.Complete d target) (hmade : s.automaton.Made d position)
    : ∃ a, s.linkFrom d previous target = { s with automaton := a } ∧
        Automaton.Agree base s.automaton a ∧ a.Complete d base ∧ a.Made d position := by
  have hkeep : ∀ r, base ≤ r → r < s.automaton.elements.size →
      (d.through (target - 1) = none ∨ r ≠ target - 1) →
      s.automaton.element? r = (d.entries s.automaton.elements.size)[r]? := by
    intro r hr hlt hneither
    cases Nat.lt_or_ge r target with
    | inr hge => exact hnew r hge hlt
    | inl htarget =>
      rw [hold r hr htarget]
      apply Draft.entries_congr
      cases hneither with
      | inl hnone =>
        by_cases heq : r = target - 1
        . left
          rw [heq]
          exact hnone
        . right
          omega
      | inr hne =>
        right
        omega
  cases hthrough : d.through (target - 1) with
  | none =>
    rw [hprevious, hthrough]
    refine ⟨s.automaton, rfl, Automaton.Agree.refl _ _, ?_, hmade⟩
    intro r hr hlt
    exact hkeep r hr hlt (Or.inl hthrough)
  | some source =>
    obtain ⟨hsource, e, he, hfalls⟩ := Draft.through_eq_some hthrough
    subst hsource
    have hle : base ≤ target - 1 := hbase _ (by rw [hprevious, hthrough])
    have helement := hold (target - 1) hle (by omega)
    have hnext : s.automaton.next? (target - 1) = none := next?_of_last helement (by omega)
    rw [hprevious, hthrough]
    simp only [linkFrom, link, Automaton.link_of_next?_eq_none hnext]
    refine ⟨_, rfl, ?_, ?_, ?_⟩
    . exact (Automaton.Agree.modify _ _ _).mono hle
    . intro r hr hlt
      rw [Automaton.modify_size] at hlt ⊢
      rw [Automaton.element?_modify]
      split
      . next heq =>
        -- this is the one element whose successor was not there before
        subst heq
        rw [helement, d.entries_getElem? target, d.entries_getElem? s.automaton.elements.size, he]
        have hsucc : target - 1 + 1 = target := by omega
        simp [Draft.successor, hfalls, hsucc, hsize]
      . next hne => exact hkeep r hr hlt (Or.inr hne)
    . apply hmade.modify
      intro e
      rfl

end Assembly

end LogicalScheme
