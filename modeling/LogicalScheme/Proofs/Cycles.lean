import LogicalScheme.Proofs.Enumeration
import LogicalScheme.Proofs.Loops
import Mathlib.Data.List.Cycle

/-!
This module contains the cycles of the steps of control and their agreement with the loops that the search
over all condition vectors finds.
-/

namespace LogicalScheme

/--
Elements that lead from one to the next and from the last one to the first one, each there once.
-/
structure SimpleCycle (R : ElementRef → ElementRef → Prop) (cycle : List ElementRef) : Prop where
  ne_nil : cycle ≠ []
  nodup : cycle.Nodup
  chain : (cycle ++ cycle.take 1).IsChain R

namespace SimpleCycle

variable {R : Nat → Nat → Prop} {cycle cycle' : List Nat} {r s : Nat}

theorem cons_iff {rest : List Nat}
    : SimpleCycle R (r :: rest) ↔ (r :: rest).Nodup ∧ (r :: rest ++ [r]).IsChain R := by
  constructor
  . intro h
    exact ⟨h.nodup, h.chain⟩
  . intro ⟨hnodup, hchain⟩
    exact ⟨List.cons_ne_nil r rest, hnodup, hchain⟩

theorem imp {S : Nat → Nat → Prop} (h : SimpleCycle R cycle) (himp : ∀ r s, R r s → S r s)
    : SimpleCycle S cycle where
  ne_nil := h.ne_nil
  nodup := h.nodup
  chain := h.chain.imp himp

theorem of_isRotated (h : SimpleCycle R cycle) (hrotated : cycle ~r cycle') : SimpleCycle R cycle' := by
  cases cycle with
  | nil => exact absurd rfl h.ne_nil
  | cons r rest =>
    cases cycle' with
    | nil =>
      have hnil := List.isRotated_nil_iff.mp hrotated
      contradiction
    | cons r' rest' =>
      obtain ⟨hnodup, hchain⟩ := cons_iff.mp h
      have hsame : ((r :: rest : List Nat) : Cycle Nat) = ((r' :: rest' : List Nat) : Cycle Nat) :=
        Cycle.coe_eq_coe.mpr hrotated
      have hcycle : Cycle.Chain R ((r :: rest : List Nat) : Cycle Nat) :=
        (Cycle.chain_coe_cons R r rest).mpr hchain
      rw [hsame, Cycle.chain_coe_cons] at hcycle
      exact cons_iff.mpr ⟨hrotated.nodup_iff.mp hnodup, hcycle⟩

theorem exists_cons (h : SimpleCycle R cycle) (hr : r ∈ cycle)
    : ∃ rest, cycle ~r (r :: rest) ∧ SimpleCycle R (r :: rest) := by
  obtain ⟨before, after, rfl⟩ := List.append_of_mem hr
  have hrotated : (before ++ r :: after) ~r (r :: after ++ before) := List.isRotated_append
  exact ⟨after ++ before, hrotated, h.of_isRotated hrotated⟩

theorem reflTransGen (h : SimpleCycle R cycle) (hr : r ∈ cycle) (hs : s ∈ cycle)
    : Relation.ReflTransGen R r s := by
  obtain ⟨rest, hrotated, hcycle⟩ := h.exists_cons hr
  apply reflTransGen_of_mem (cons_iff.mp hcycle).right rfl
  apply List.mem_append_left
  exact hrotated.mem_iff.mp hs

end SimpleCycle

namespace Automaton.Valued

variable {d : Draft} {a b : Automaton} {v : ConditionVector}

theorem canonical_eq {cycle cycle' : List Nat} (hd : d.WellFormed) (ha : a.Valued d)
    (hreach : ∀ r ∈ cycle, Relation.ReflTransGen d.Leads 0 r) (hnodup : cycle.Nodup)
    (hrotated : cycle ~r cycle') : Loop.canonical a cycle = Loop.canonical a cycle' := by
  apply Loop.canonical_eq_of_isRotated hrotated hnodup
  have hlt : ∀ r ∈ cycle, r < d.size := fun r hr =>
    lt_size_of_reflTransGen hd (d.lt_size_of_token? hd.start) (hreach r hr)
  intro r hr q hq hposition
  rw [ha.position_eq hd (hlt r hr), ha.position_eq hd (hlt q hq)] at hposition
  exact hposition

theorem ofPath_cases {verbose : Bool} {t : Trace} (hd : d.WellFormed) (hb : b.Valued d)
    (hrun : b.run verbose = .ok t)
    : (t.outcome ≠ .loopDetected ∧ Loop.ofPath a t.path = []) ∨
        (t.outcome = .loopDetected ∧ ∃ l, Loop.ofPath a t.path = [l]) := by
  rw [hb.run_eq hd] at hrun
  obtain ⟨walk, last, hstopped⟩ := exists_stopped hrun
  rcases hstopped.walk_cases with ⟨houtcome, hnodup⟩ | ⟨houtcome, before, after, rfl⟩
  . exact .inl ⟨houtcome, Loop.ofPath_of_nodup hnodup⟩
  . refine .inr ⟨houtcome, Loop.ofCycle a (last :: after), ?_⟩
    rw [hstopped.path]
    exact Loop.ofPath_of_lap hstopped.nodup

theorem simpleCycle_of_mem_laps {verbose : Bool} {t : Trace} {cycle : List Nat} (hd : d.WellFormed)
    (hb : b.Valued d) (hrun : b.run verbose = .ok t) (h : cycle ∈ Loop.laps t.path)
    : SimpleCycle b.Goes cycle ∧ ∀ r ∈ cycle, r ∈ t.path := by
  rw [hb.run_eq hd] at hrun
  obtain ⟨walk, last, hstopped⟩ := exists_stopped hrun
  rcases hstopped.walk_cases with ⟨_, hnodup⟩ | ⟨_, before, after, rfl⟩
  . rw [Loop.laps_eq_nil hnodup] at h
    contradiction
  -- the run stopped at an element that it had seen, so the cycle is what lies in between
  . rw [hstopped.path] at h ⊢
    rw [Loop.laps_of_lap hstopped.nodup, List.mem_singleton] at h
    subst h
    have hchain := hstopped.chain
    rw [List.append_assoc] at hchain
    constructor
    . exact SimpleCycle.cons_iff.mpr ⟨hstopped.nodup.of_append_right, hchain.right_of_append⟩
    . intro r hr
      apply List.mem_append_left
      exact List.mem_append_right before hr

theorem exists_cycle_of_mem_ofPath {l : Loop} {verbose : Bool} {t : Trace} (hd : d.WellFormed)
    (hb : b.Valued d) (hrun : b.run verbose = .ok t) (hl : l ∈ Loop.ofPath a t.path)
    : ∃ cycle, SimpleCycle d.Leads cycle ∧ (∀ r ∈ cycle, Relation.ReflTransGen d.Leads 0 r) ∧
        l = Loop.ofCycle a cycle := by
  obtain ⟨cycle, hlap, heq⟩ := Loop.mem_ofPath_iff.mp hl
  obtain ⟨hcycle, hpath⟩ := hb.simpleCycle_of_mem_laps hd hrun hlap
  refine ⟨cycle, hcycle.imp fun _ _ => hb.leads_of_goes hd, ?_, heq⟩
  intro r hr
  exact hb.reflTransGen_of_run hd hrun (hpath r hr)

theorem exists_vector_of_cycle {cycle : List Nat} {r : Nat} (hd : d.WellFormed) (ha : a.Valued d)
    (hcycle : SimpleCycle d.Leads cycle) (hr : r ∈ cycle) (hreach : Relation.ReflTransGen d.Leads 0 r)
    : ∃ v cycle', v.length = d.conditionals d.size ∧ cycle ~r cycle' ∧
        Loop.ofPath a (d.trace v).path = [Loop.ofCycle a cycle'] := by
  -- a way to the first element on the cycle and one lap from there on are a walk without repetition
  obtain ⟨walk, last, hstart, hway, hnodup, hlast, hwalk⟩ := exists_walk (P := (· ∈ cycle)) hreach hr
  obtain ⟨rest, hrotated, hlap⟩ := hcycle.exists_cons hlast
  obtain ⟨hrest, hchain⟩ := SimpleCycle.cons_iff.mp hlap
  have hlaps : (walk ++ last :: rest).Nodup := by
    rw [List.nodup_append']
    refine ⟨hnodup, hrest, ?_⟩
    intro w hw hmem
    exact hwalk w hw (hrotated.mem_iff.mpr hmem)
  have hall : (walk ++ last :: rest ++ [last]).IsChain d.Leads := by
    rw [List.append_assoc]
    rw [List.isChain_append] at hway ⊢
    refine ⟨hway.left, hchain, ?_⟩
    intro w hw s hs
    cases hs
    exact hway.right.right w hw last rfl
  have hstart' : (walk ++ last :: rest ++ [last]).head? = some 0 := by
    cases walk with
    | nil =>
      cases hstart
      rfl
    | cons w walk =>
      cases hstart
      rfl
  obtain ⟨v, hv, hgoes⟩ := ha.exists_vector hd hall hlaps
  have hseen : last ∈ (walk ++ last :: rest).reverse ++ [] := by simp
  have hstop : (a.assign v).runFrom false ((walk ++ last :: rest).reverse ++ []) last =
      .ok (Trace.arrive (a.assign v) last { verbose := false, outcome := .loopDetected }) :=
    runFrom_of_mem hseen
  obtain ⟨t, hrun, hpath, _⟩ := runFrom_of_isChain hstart' hgoes hlaps (by simp) hstop
  rw [← (ha.assign v).run_eq hd, ha.run_assign hd hv] at hrun
  cases hrun
  refine ⟨v, last :: rest, hv, hrotated, ?_⟩
  rw [hpath]
  exact Loop.ofPath_of_lap hlaps

end Automaton.Valued

theorem Automaton.Valued.stepsTo_eq {d : Draft} {a : Automaton} (hd : d.WellFormed) (ha : a.Valued d)
    : a.StepsTo = d.Leads := by
  funext r s
  exact propext (ha.stepsTo_iff hd)

namespace Scheme

def Reaches (s : Scheme) (r : ElementRef) : Prop :=
  ∃ start, s.automaton.start? = some start ∧ Relation.ReflTransGen s.automaton.StepsTo start r

variable {d : Draft} {s : Scheme}

theorem reaches_iff {r : Nat} (hd : d.WellFormed) (hs : s.automaton.Valued d)
    : s.Reaches r ↔ Relation.ReflTransGen d.Leads 0 r := by
  unfold Reaches
  rw [hs.start?_eq hd, hs.stepsTo_eq hd]
  simp

theorem findLoops_eq (hd : d.WellFormed) (hs : s.automaton.Valued d) (hlimit : s.conditionalCount ≤ s.limit)
    : s.findLoops =
        (.ok ((ConditionVector.all (d.conditionals d.size)).foldl
          (fun report v => report.record v (Loop.ofPath s.automaton (d.trace v).path)) {}), s.reset) := by
  unfold findLoops
  simp only [forEachVector_eq hd hs hlimit, sweep_yield]
  rfl

theorem findLoops_lists (hd : d.WellFormed) (hs : s.automaton.Valued d)
    (hlimit : s.conditionalCount ≤ s.limit)
    : ∃ report, s.findLoops = (.ok report, s.reset) ∧ LoopReport.Lists report.loops fun l =>
        ∃ v, v.length = d.conditionals d.size ∧ l ∈ Loop.ofPath s.automaton (d.trace v).path := by
  have hempty : LoopReport.Lists ({} : LoopReport).loops fun _ => False :=
    ⟨List.nodup_nil, by simp, by simp⟩
  have hrecords := hempty.records (fun v => Loop.ofPath s.automaton (d.trace v).path)
    (ConditionVector.all (d.conditionals d.size))
  refine ⟨_, findLoops_eq hd hs hlimit, hrecords.congr ?_⟩
  intro l
  simp only [or_false, ConditionVector.mem_all_iff (conditionals_le hs hlimit)]

theorem exists_vector_iff {l : Loop} (hd : d.WellFormed) (hs : s.automaton.Valued d)
    : (∃ v, v.length = d.conditionals d.size ∧ l ∈ Loop.ofPath s.automaton (d.trace v).path) ↔
        ∃ cycle, SimpleCycle d.Leads cycle ∧ (∀ r ∈ cycle, Relation.ReflTransGen d.Leads 0 r) ∧
          l = Loop.ofCycle s.automaton cycle := by
  constructor
  . intro ⟨v, hv, hl⟩
    exact (hs.assign v).exists_cycle_of_mem_ofPath hd (hs.run_assign hd hv) hl
  . intro ⟨cycle, hcycle, hreach, hl⟩
    obtain ⟨r, hr⟩ := List.exists_mem_of_ne_nil cycle hcycle.ne_nil
    obtain ⟨v, cycle', hv, hrotated, hloops⟩ := hs.exists_vector_of_cycle hd hcycle hr (hreach r hr)
    refine ⟨v, hv, ?_⟩
    rw [hloops, List.mem_singleton, hl]
    unfold Loop.ofCycle
    rw [hs.canonical_eq hd hreach hcycle.nodup hrotated]

/--
The loops that are found are the cycles that steps of control can come into, each written once.
-/
theorem findLoops_exact {s : Scheme} (hs : s.Accepted) (hlimit : s.conditionalCount ≤ s.limit)
    : (∀ r q, s.automaton.StepsTo r q ↔ ∃ e, s.automaton.element? r = some e ∧ s.automaton.Target e q) ∧
        ∃ report, s.findLoops.1 = .ok report ∧
          (∀ l vs, (l, vs) ∈ report.loops → SimpleCycle s.automaton.StepsTo l.elements ∧
            (∀ r ∈ l.elements, s.Reaches r) ∧ vs ≠ []) ∧
          (∀ cycle, SimpleCycle s.automaton.StepsTo cycle → (∃ r ∈ cycle, s.Reaches r) →
            ∃ l vs, (l, vs) ∈ report.loops ∧ l.elements ~r cycle) ∧
          report.loops.Pairwise fun x y => ¬x.1.elements ~r y.1.elements := by
  obtain ⟨d, hd, ha, _⟩ := hs.exists_draft
  obtain ⟨report, hreport, hlists⟩ := findLoops_lists hd ha hlimit
  have hlists := hlists.congr fun l => exists_vector_iff (l := l) hd ha
  rw [ha.stepsTo_eq hd]
  simp only [reaches_iff hd ha]
  refine ⟨fun r q => ?_, report, by rw [hreport], ?_, ?_, ?_⟩
  . rw [← ha.stepsTo_eq hd]
    exact Automaton.stepsTo_iff_target
  . intro l vs hmem
    obtain ⟨cycle, hcycle, hreach, rfl⟩ := (hlists.mem l).mp (List.mem_map_of_mem hmem)
    have hrotated := Loop.canonical_isRotated s.automaton cycle
    refine ⟨hcycle.of_isRotated hrotated.symm, ?_, hlists.vectors _ hmem⟩
    intro r hr
    exact hreach r (hrotated.mem_iff.mp hr)
  . intro cycle hcycle ⟨r, hr, hreach⟩
    have hall : ∀ q ∈ cycle, Relation.ReflTransGen d.Leads 0 q := fun q hq =>
      hreach.trans (hcycle.reflTransGen hr hq)
    obtain ⟨⟨l, vs⟩, hmem, hl⟩ := List.mem_map.mp ((hlists.mem _).mpr ⟨cycle, hcycle, hall, rfl⟩)
    refine ⟨l, vs, hmem, ?_⟩
    rw [show l = Loop.ofCycle s.automaton cycle from hl]
    exact Loop.canonical_isRotated s.automaton cycle
  . have hnodup := hlists.nodup
    rw [List.Nodup, List.pairwise_map] at hnodup
    apply hnodup.imp_of_mem
    intro x y hx hy hne hrotated
    obtain ⟨cycle, hcycle, hreach, hxl⟩ := (hlists.mem x.1).mp (List.mem_map_of_mem hx)
    obtain ⟨cycle', _, _, hyl⟩ := (hlists.mem y.1).mp (List.mem_map_of_mem hy)
    apply hne
    rw [hxl, hyl] at hrotated ⊢
    have hsame : cycle ~r cycle' := (Loop.canonical_isRotated _ cycle).symm.trans
      (hrotated.trans (Loop.canonical_isRotated _ cycle'))
    unfold Loop.ofCycle
    rw [ha.canonical_eq hd hreach hcycle.nodup hsame]

theorem findLoops_loopingScheme
    : ∃ report, loopingScheme.findLoops.1 = .ok report ∧
        report.loops.Pairwise fun x y => ¬x.1.elements ~r y.1.elements := by
  obtain ⟨_, report, hreport, _, _, hdistinct⟩ :=
    findLoops_exact accepted_loopingScheme conditionalCount_loopingScheme_le
  exact ⟨report, hreport, hdistinct⟩

end Scheme

end LogicalScheme
