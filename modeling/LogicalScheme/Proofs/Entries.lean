import LogicalScheme.Proofs.Grouping
import LogicalScheme.Proofs.History

/-!
This module contains the entries of loops. Control only goes back by jumps, so the element of a loop that
stands first in the scheme is where a jump comes in.
-/

namespace LogicalScheme

namespace Draft

variable {d : Draft} {r s : Nat}

theorem Leads.exists_jump_of_le (h : d.Leads r s) (hle : s ≤ r)
    : ∃ t index q, d.token? r = some t ∧ t.jumpTarget? = some index ∧
        d.token? q = some (.jumpPoint index) ∧ s = q + 1 := by
  cases h with
  | through | whenTrue | whenFalse => omega
  | jump ht hindex hq => exact ⟨_, _, _, ht, hindex, hq, rfl⟩

end Draft

def Automaton.JumpsInto (a : Automaton) (last first : ElementRef) : Prop :=
  ∃ e index unconditional point, a.element? last = some e ∧ e.kind = .jump index unconditional ∧
    a.jumpPoint? index = some point ∧ a.next? point = some first

namespace Automaton

variable {a : Automaton} {r s : Nat}

theorem JumpsInto.entryThrough? (h : a.JumpsInto r s) : Loop.entryThrough? a r = some s := by
  obtain ⟨e, index, unconditional, point, he, hkind, hpoint, hnext⟩ := h
  unfold Loop.entryThrough?
  simp only [he, Option.bind_some, hkind, hpoint, hnext]

theorem Valued.jumpsInto_of_goes {d : Draft} (hd : d.WellFormed) (ha : a.Valued d) (h : a.Goes r s)
    (hle : s ≤ r) : a.JumpsInto r s := by
  obtain ⟨t, index, q, ht, hindex, hq, rfl⟩ := (ha.leads_of_goes hd h).exists_jump_of_le hle
  have hpoint : a.jumpPoint? index = some q := by
    rw [ha.jumpPoint?]
    exact (hd.layout_jumpPoint? index q).mpr hq
  have he := ha.element? hd ht
  cases t with
  | conditionalJump n =>
    cases hindex
    exact ⟨_, index, false, q, he, rfl, hpoint, ha.next?_jumpPoint hd hq⟩
  | unconditionalJump n =>
    cases hindex
    exact ⟨_, index, true, q, he, rfl, hpoint, ha.next?_jumpPoint hd hq⟩
  | _ => contradiction

end Automaton

namespace Loop

theorem mem_entries_iff {a : Automaton} {cycle : List Nat} {r : Nat}
    : r ∈ entries a cycle ↔ r ∈ cycle ∧ ∃ s ∈ cycle, entryThrough? a s = some r := by
  unfold entries
  rw [List.mem_filter, List.contains_iff_mem, List.mem_filterMap, and_comm]

end Loop

namespace SimpleCycle

variable {R : Nat → Nat → Prop} {cycle rest : List Nat} {r : Nat}

theorem exists_next (h : SimpleCycle R cycle) (hr : r ∈ cycle) : ∃ s, R r s := by
  obtain ⟨rest, _, hcycle⟩ := h.exists_cons hr
  have hchain := (cons_iff.mp hcycle).right
  cases rest with
  | nil => exact ⟨r, List.isChain_pair.mp hchain⟩
  | cons s rest => exact ⟨s, (List.isChain_cons_cons.mp hchain).left⟩

theorem exists_last (h : SimpleCycle R (r :: rest)) : ∃ last, (r :: rest).getLast? = some last ∧ R last r := by
  have hlast := List.getLast?_eq_some_getLast (List.cons_ne_nil r rest)
  have hchain := (cons_iff.mp h).right
  rw [List.isChain_append] at hchain
  exact ⟨_, hlast, hchain.right.right _ hlast r rfl⟩

end SimpleCycle

/--
A loop is one lap of control. It is written from the element on that stands first in the scheme, and the jump
at its end leads back there.
-/
structure Loop.EnteredByJump (a : Automaton) (l : Loop) : Prop where
  lap : SimpleCycle a.Goes l.elements
  entry : ∃ first last rest, l.elements = first :: rest ∧ l.elements.getLast? = some last ∧
    a.JumpsInto last first ∧ ∀ r ∈ rest, a.position first < a.position r

namespace Automaton.Valued

variable {d : Draft} {a : Automaton} {cycle : List Nat} {r : Nat}

theorem lt_size_of_cycle (hd : d.WellFormed) (ha : a.Valued d) (h : SimpleCycle a.Goes cycle)
    (hr : r ∈ cycle) : r < d.size := by
  obtain ⟨s, hgoes⟩ := h.exists_next hr
  rw [← ha.size hd]
  exact has_of_follow hgoes

theorem first?_eq {last : Nat} (hd : d.WellFormed) (ha : a.Valued d) (h : SimpleCycle a.Goes cycle)
    (hr : r ∈ cycle) (hleast : ∀ s ∈ cycle, r ≤ s) (hlast : last ∈ cycle) (hjump : a.JumpsInto last r)
    : Loop.first? a cycle = some r := by
  have hentry : r ∈ Loop.entries a cycle :=
    Loop.mem_entries_iff.mpr ⟨hr, last, hlast, hjump.entryThrough?⟩
  obtain ⟨s, hs⟩ := exists_minOn? a.position (List.ne_nil_of_mem hentry)
  have hmem := (Loop.mem_entries_iff.mp (List.minOn?_mem hs)).left
  have hle := le_of_minOn? hs hentry
  rw [ha.position_eq hd (ha.lt_size_of_cycle hd h hmem),
    ha.position_eq hd (ha.lt_size_of_cycle hd h hr)] at hle
  unfold Loop.first?
  rw [hs, Nat.le_antisymm hle (hleast s hmem)]
  rfl

theorem enteredByJump_of_cycle (hd : d.WellFormed) (ha : a.Valued d) (h : SimpleCycle a.Goes cycle)
    : Loop.entries a cycle ≠ [] ∧ (Loop.ofCycle a cycle).EnteredByJump a := by
  obtain ⟨r, hr⟩ := exists_minOn? id h.ne_nil
  have hleast : ∀ s ∈ cycle, r ≤ s := fun s hs => le_of_minOn? hr hs
  have hmem : r ∈ cycle := List.minOn?_mem hr
  obtain ⟨rest, hrotated, hcycle⟩ := h.exists_cons hmem
  obtain ⟨last, hlast, hgoes⟩ := hcycle.exists_last
  -- the cycle closes with a step back to its least element
  have hback : last ∈ cycle := hrotated.mem_iff.mpr (List.mem_of_getLast? hlast)
  have hjump := ha.jumpsInto_of_goes hd hgoes (hleast last hback)
  have hfirst := ha.first?_eq hd h hmem hleast hback hjump
  obtain ⟨rest', hcanonical⟩ := Loop.canonical_eq_cons hfirst
  have hsame := (Loop.canonical_isRotated a cycle).trans hrotated
  rw [hcanonical] at hsame
  have hrest := eq_of_isRotated_cons hsame (hsame.nodup_iff.mpr hcycle.nodup)
  rw [hrest] at hcanonical
  refine ⟨?_, ?_, r, last, rest, hcanonical, ?_, hjump, ?_⟩
  . exact List.ne_nil_of_mem (Loop.mem_entries_iff.mpr ⟨hmem, last, hback, hjump.entryThrough?⟩)
  . exact h.of_isRotated (Loop.canonical_isRotated a cycle).symm
  . exact (congrArg List.getLast? hcanonical).trans hlast
  . intro s hs
    have hs' : s ∈ cycle := hrotated.mem_iff.mpr (List.mem_cons_of_mem r hs)
    rw [ha.position_eq hd (ha.lt_size_of_cycle hd h hmem),
      ha.position_eq hd (ha.lt_size_of_cycle hd h hs')]
    have hne : r ≠ s := fun heq => (List.nodup_cons.mp hcycle.nodup).left (heq ▸ hs)
    exact Nat.lt_of_le_of_ne (hleast s hs') hne

end Automaton.Valued

namespace Scheme

variable {s s' : Scheme} {bits : String} {verbose : Bool} {t : Trace} {ls : List Loop}

theorem assigned_of_runWith (h : s.runWith bits verbose = (.ok t, s'))
    : s.automaton.assignText bits = .ok s'.automaton ∧ s'.automaton.run verbose = .ok t := by
  unfold runWith at h
  split at h
  . next a ha =>
    rw [Prod.mk.injEq] at h
    obtain ⟨hrun, rfl⟩ := h
    exact ⟨ha, hrun⟩
  . cases h

theorem loopsUnder_cases (h : s.loopsUnder bits = (.ok ls, s'))
    : ∃ t, s.runWith bits false = (.ok t, s') ∧ ls = Loop.ofPath s'.automaton t.path := by
  unfold loopsUnder at h
  split at h
  . next t u hrun =>
    cases h
    exact ⟨t, hrun, rfl⟩
  . cases h

/--
Every loop that a run comes into is entered by a jump, so no cycle is written from the element on that stands
first for want of an entry.
-/
theorem loopsUnder_enteredByJump (hs : s.Accepted)
    : (∀ v : ConditionVector, v.length = s.conditionalCount →
          ∃ ls s', s.loopsUnder v.text = (.ok ls, s')) ∧
        ∀ bits ls s', s.loopsUnder bits = (.ok ls, s') →
          s.automaton.assignText bits = .ok s'.automaton ∧
          (∃ t, s.runWith bits false = (.ok t, s') ∧
            ∀ cycle ∈ Loop.laps t.path, Loop.entries s'.automaton cycle ≠ []) ∧
          ∀ l ∈ ls, l.EnteredByJump s'.automaton := by
  obtain ⟨d, hd, ha, _⟩ := hs.exists_draft
  constructor
  . intro v hv
    rw [conditionalCount, ha.conditionalCount_eq] at hv
    obtain ⟨ls, hls, _⟩ := exists_loopsUnder hd ha hv
    exact ⟨ls, (s.loopsUnder v.text).2, Prod.ext hls rfl⟩
  . intro bits ls s' h
    obtain ⟨t, hwith, rfl⟩ := loopsUnder_cases h
    obtain ⟨hassign, hrun⟩ := assigned_of_runWith hwith
    have hreset := s.runWith_reset bits false
    rw [hwith] at hreset
    have ha' : s'.automaton.Valued d := (congrArg Scheme.automaton hreset).trans ha
    have hcycle : ∀ cycle ∈ Loop.laps t.path, SimpleCycle s'.automaton.Goes cycle :=
      fun cycle hmem => (ha'.simpleCycle_of_mem_laps hd hrun hmem).left
    refine ⟨hassign, ⟨t, hwith, ?_⟩, ?_⟩
    . intro cycle hmem
      exact (ha'.enteredByJump_of_cycle hd (hcycle cycle hmem)).left
    . intro l hl
      obtain ⟨cycle, hmem, rfl⟩ := Loop.mem_ofPath_iff.mp hl
      exact (ha'.enteredByJump_of_cycle hd (hcycle cycle hmem)).right

theorem enteredByJump_loopingScheme
    : ∃ l s', loopingScheme.loopsUnder "1" = (.ok [l], s') ∧ l.elements = [2, 3, 4] ∧
        l.EnteredByJump s'.automaton := by
  have hls : (loopingScheme.loopsUnder "1").1 = .ok [⟨[2, 3, 4], [⟨"Y1"⟩, ⟨"X1"⟩, ⟨"↑1"⟩]⟩] := by
    unfold loopingScheme
    rw [Parsed.ofText_eq]
    decide +kernel
  have hunder : loopingScheme.loopsUnder "1" = (_, (loopingScheme.loopsUnder "1").2) := Prod.ext hls rfl
  obtain ⟨_, hloops⟩ := loopsUnder_enteredByJump accepted_loopingScheme
  obtain ⟨_, _, hentered⟩ := hloops _ _ _ hunder
  exact ⟨_, _, hunder, rfl, hentered _ List.mem_cons_self⟩

end Scheme

end LogicalScheme
