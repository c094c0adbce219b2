import LogicalScheme.Proofs.Visits
import Mathlib.Data.List.Perm.Subperm

/-!
This module contains the shape of traces. Where a run stops says how it stopped, and control gets stuck
behind an operator at the end of a scheme only.
-/

namespace LogicalScheme

theorem length_le_of_nodup_of_lt {l : List Nat} {n : Nat} (hnodup : l.Nodup) (hlt : ∀ x ∈ l, x < n)
    : l.length ≤ n := by
  have hsubset : l ⊆ List.range n := by
    intro x hx
    rw [List.mem_range]
    apply hlt
    exact hx
  have hle := (hnodup.subperm hsubset).length_le
  rw [List.length_range] at hle
  exact hle

theorem Draft.exists_getLast? (d : Draft) {p : Nat} {t : Token} (ht : d.token? p = some t)
    (hlast : p + 1 = d.size) : ∃ l, d.lexemes.toList.getLast? = some l ∧ l.token = t := by
  obtain ⟨l, hl, htoken⟩ := Option.map_eq_some_iff.mp ht
  refine ⟨l, ?_, htoken⟩
  have hlength : d.lexemes.toList.length - 1 = p := by
    rw [Array.length_toList, ← size, ← hlast, Nat.add_sub_cancel]
  rw [List.getLast?_eq_getElem?, hlength, Array.getElem?_toList, hl]

namespace Automaton

/--
A run with this outcome may end at `last`.
-/
def EndsAt (a : Automaton) (last : ElementRef) : Outcome → Prop
  | .completed => (a.element? last).any (·.isFinish) = true
  | .deadEnd => ¬(a.element? last).any (·.isFinish) = true ∧ a.follow last = .ok none
  | .loopDetected => True

theorem endsAt_of_runFrom {a : Automaton} {verbose : Bool} {seen : List Nat} {r : Nat} {t : Trace}
    (h : a.runFrom verbose seen r = .ok t) : ∀ last ∈ t.path.getLast?, a.EndsAt last t.outcome := by
  fun_induction runFrom a verbose seen r generalizing t with
  | case1 seen r hseen =>
    cases h
    intro last hlast
    cases hlast
    trivial
  | case2 seen r hseen hfinish =>
    cases h
    intro last hlast
    cases hlast
    exact hfinish
  | case3 seen r hseen hfinish e hfollow => cases h
  | case4 seen r hseen hfinish hfollow =>
    cases h
    intro last hlast
    cases hlast
    exact ⟨hfinish, hfollow⟩
  | case5 seen r hseen hfinish next hfollow ih =>
    obtain ⟨t, hrun, rfl⟩ := map_eq_ok_iff.mp h
    obtain ⟨walk, last, hstopped⟩ := exists_stopped hrun
    have hlast := ih hrun
    rw [hstopped.path] at hlast
    rw [Trace.path_arrive, hstopped.path, ← List.cons_append, List.getLast?_concat]
    rw [List.getLast?_concat] at hlast
    exact hlast

namespace Stopped

variable {a : Automaton} {verbose : Bool} {seen : List Nat} {r : Nat} {t : Trace} {walk : List Nat}
  {last : Nat}

theorem endsAt (h : a.Stopped seen r t walk last) (hrun : a.runFrom verbose seen r = .ok t)
    : a.EndsAt last t.outcome := by
  apply endsAt_of_runFrom hrun
  rw [h.path, List.getLast?_concat]
  rfl

theorem exists_goes (h : a.Stopped seen r t walk last) {w : Nat} (hw : w ∈ walk)
    : ∃ s, a.Goes w s := by
  obtain ⟨i, hi, rfl⟩ := List.getElem_of_mem hw
  have hlt : i + 1 < (walk ++ [last]).length := by
    rw [List.length_append]
    exact Nat.succ_lt_succ hi
  have hgoes := List.isChain_iff_getElem.mp h.chain i hlt
  rw [List.getElem_append_left hi] at hgoes
  exact ⟨_, hgoes⟩

theorem completed_iff (h : a.Stopped [] r t walk last) (hrun : a.runFrom verbose [] r = .ok t)
    : t.outcome = .completed ↔ (a.element? last).any (·.isFinish) = true := by
  have hends := h.endsAt hrun
  have hloop := h.outcome
  cases houtcome : t.outcome with
  | completed =>
    rw [houtcome] at hends
    simp only [true_iff]
    exact hends
  | deadEnd =>
    rw [houtcome] at hends
    simp only [reduceCtorEq, false_iff]
    exact hends.left
  | loopDetected =>
    simp only [houtcome, true_iff, List.not_mem_nil, or_false] at hloop
    obtain ⟨s, hgoes⟩ := h.exists_goes hloop
    simp only [reduceCtorEq, false_iff]
    exact hgoes.not_isFinish

end Stopped

namespace Valued

variable {d : Draft} {a : Automaton} {p : Nat}

theorem finish?_eq_some_iff (hd : d.WellFormed) (ha : a.Valued d)
    : a.finish? = some p ↔ (a.element? p).any (·.isFinish) = true := by
  have hany : ∀ q (hq : q < a.elements.size), (a.element? q).any (·.isFinish) = a.elements[q].isFinish := by
    intro q hq
    unfold Automaton.element?
    rw [Array.getElem?_eq_getElem hq]
    rfl
  have hfinish : ∀ q, (a.element? q).any (·.isFinish) = true → d.token? q = some .finish := by
    intro q h
    obtain ⟨e, he, _⟩ := (Option.any_eq_true ..).mp h
    have hq := lt_size_of_element? he
    rw [ha.size hd] at hq
    have ht := d.token?_of_lt hq
    rw [ht, (ha.any_isFinish hd ht).mp h]
  unfold finish?
  rw [Array.findIdx?_eq_some_iff_getElem]
  constructor
  . intro ⟨hp, h, _⟩
    rw [hany p hp]
    exact h
  . intro h
    obtain ⟨e, he, _⟩ := (Option.any_eq_true ..).mp h
    have hp := lt_size_of_element? he
    refine ⟨hp, ?_, ?_⟩
    . rw [← hany p hp]
      exact h
    . intro q hqp hq
      rw [← hany q (Nat.lt_trans hqp hp)] at hq
      exact Nat.ne_of_lt hqp (hd.finish_unique q p (hfinish q hq) (hfinish p h))

/--
Control is stuck at operators only, and only where the scheme ends.
-/
theorem operator_of_follow_eq_none (hd : d.WellFormed) (ha : a.Valued d) (hp : p < d.size)
    (hfinish : ¬(a.element? p).any (·.isFinish) = true) (h : a.follow p = .ok none)
    : (∃ n, d.token? p = some (.operator n)) ∧ p + 1 = d.size := by
  have ht := d.token?_of_lt hp
  rw [ha.any_isFinish hd ht] at hfinish
  generalize d.lexemes[p].token = t at ht hfinish
  have hlast : t.fallsThrough = true → p + 1 = d.size := by
    intro hfalls
    rw [ha.follow_fallsThrough hd ht hfalls] at h
    split at h
    . cases h
    . omega
  cases t with
  | finish => exact absurd rfl hfinish
  | start =>
    -- the end marker is behind the start
    obtain ⟨q, hq⟩ := hd.finish
    have hqp := d.lt_size_of_token? hq
    have hzero := hd.start_unique p ht
    have hsize := hlast rfl
    have heq : q = p := by omega
    rw [heq, ht] at hq
    cases hq
  | operator n => exact ⟨⟨n, ht⟩, hlast rfl⟩
  | jumpPoint n =>
    have honward := hd.point_onward p n ht
    have hsize := hlast rfl
    omega
  | conditional l n =>
    rw [ha.follow_conditional hd ht] at h
    split at h <;> cases h
  | conditionalJump n | unconditionalJump n =>
    obtain ⟨q, hq⟩ := hd.target p _ n ht rfl
    rw [ha.follow_jump hd ht rfl hq] at h
    cases h

end Valued

end Automaton

namespace Scheme

/--
A run goes from the start over new elements to its last one, which tells the outcome: it was there before, it
is the end, or it is an operator behind which the scheme ends.
-/
theorem run_shape {s : Scheme} {verbose : Bool} {t : Trace} (hs : s.Accepted) (hrun : s.run verbose = .ok t)
    : (∃ start, s.automaton.start? = some start ∧ t.path.head? = some start) ∧
        t.steps.length = t.path.length ∧
        t.path.length ≤ s.automaton.elements.size + 1 ∧
        t.path.IsChain s.automaton.Goes ∧
        (∃ walk last, t.path = walk ++ [last] ∧ walk.Nodup ∧
          (t.outcome = .loopDetected ↔ last ∈ walk) ∧
          (t.outcome = .completed ↔ s.automaton.finish? = some last) ∧
          (t.outcome = .deadEnd ↔ last ∉ walk ∧ s.automaton.finish? ≠ some last) ∧
          (t.outcome = .deadEnd → (∃ e, s.automaton.element? last = some e ∧ e.kind = .operator) ∧
            last + 1 = s.lexemes.length)) ∧
        ((∀ l ∈ s.lexemes.getLast?, ∀ n, l.token ≠ .operator n) → t.outcome ≠ .deadEnd) := by
  obtain ⟨d, hd, ha, hlexemes⟩ := hs.exists_draft
  have hrun' : s.automaton.runFrom verbose [] 0 = .ok t := by
    rw [← ha.run_eq hd]
    exact hrun
  obtain ⟨walk, last, hstopped⟩ := Automaton.exists_stopped hrun'
  have hlt : ∀ r ∈ t.path, r < d.size := fun r hr => ha.lt_size_of_run hd hrun hr
  have hpath := hstopped.path
  have hloop := hstopped.outcome
  simp only [List.not_mem_nil, or_false] at hloop
  have hcompleted := hstopped.completed_iff hrun'
  rw [← ha.finish?_eq_some_iff hd] at hcompleted
  have hdead : t.outcome = .deadEnd → (∃ n, d.token? last = some (.operator n)) ∧ last + 1 = d.size := by
    intro houtcome
    have hends := hstopped.endsAt hrun'
    rw [houtcome] at hends
    have hlast : last < d.size := by
      apply hlt
      rw [hpath]
      exact List.mem_concat_self
    exact ha.operator_of_follow_eq_none hd hlast hends.left hends.right
  refine ⟨⟨0, ha.start?_eq hd, ?_⟩, ?_, ?_, ?_, ⟨walk, last, hpath, hstopped.nodup, hloop, hcompleted, ?_, ?_⟩, ?_⟩
  . rw [hpath]
    exact hstopped.start
  . rw [(Automaton.steps_of_run hrun).right, List.length_map]
  . have hwalk : walk.length ≤ d.size := by
      apply length_le_of_nodup_of_lt hstopped.nodup
      intro w hw
      apply hlt
      rw [hpath]
      exact List.mem_append_left _ hw
    rw [hpath, List.length_append, ha.size hd]
    exact Nat.succ_le_succ hwalk
  . rw [hpath]
    exact hstopped.chain
  . rw [← hloop, ne_eq, ← hcompleted]
    cases t.outcome <;> simp
  . intro houtcome
    obtain ⟨⟨n, ht⟩, hsize⟩ := hdead houtcome
    refine ⟨⟨_, ha.element? hd ht, rfl⟩, ?_⟩
    rw [hlexemes, Array.length_toList]
    exact hsize
  . intro hnone houtcome
    obtain ⟨⟨n, ht⟩, hsize⟩ := hdead houtcome
    obtain ⟨l, hl, htoken⟩ := d.exists_getLast? ht hsize
    rw [← hlexemes] at hl
    exact hnone l hl n htoken

def strandedText : String :=
  "Yн w↑1 Yк ↓1 Y1"

def strandedScheme : Scheme :=
  { automaton := (Parsed.ofText strandedText).automaton
    lexemes := (Parsed.ofText strandedText).lexemes
    maxConditionals := 20 }

theorem accepted_strandedScheme : strandedScheme.Accepted := by
  refine ⟨strandedText, _, parse_eq_ok_iff.mpr ⟨rfl, ?_⟩, Parsed.reset_automaton strandedText, rfl⟩
  rw [Parsed.ofText_eq]
  decide +kernel

theorem run_strandedScheme
    : ∃ t, strandedScheme.run false = .ok t ∧ t.path = [0, 1, 4] ∧ t.outcome = .deadEnd ∧
        ∃ walk last, t.path = walk ++ [last] ∧ last + 1 = strandedScheme.lexemes.length := by
  have hrun : ∃ t, strandedScheme.run false = .ok t ∧ t.path = [0, 1, 4] ∧ t.outcome = .deadEnd := by
    unfold strandedScheme
    rw [Parsed.ofText_eq]
    refine ⟨{ path := [0, 1, 4], steps := ["Yн", "w↑1", "Y1"], verbose := false, outcome := .deadEnd }, ?_,
      rfl, rfl⟩
    decide +kernel
  obtain ⟨t, hrun, hpath, houtcome⟩ := hrun
  obtain ⟨_, _, _, _, ⟨walk, last, hwalk, _, _, _, _, hdead⟩, _⟩ := run_shape accepted_strandedScheme hrun
  exact ⟨t, hrun, hpath, houtcome, walk, last, hwalk, (hdead houtcome).right⟩

end Scheme

end LogicalScheme
