import LogicalScheme.Proofs.Cycles
import LogicalScheme.Proofs.Sweep
import LogicalScheme.Proofs.Values

/-!
This module contains the vectors that a report lists under its loops. A loop is listed with the vectors whose
runs end in it, and loops stand in the order of their first vectors.
-/

namespace LogicalScheme

namespace LoopReport

variable {v : ConditionVector} {l : Loop} {loops : List (Loop × List ConditionVector)}

theorem note_of_not_mem (h : l ∉ loops.map (·.1)) : note v l loops = loops ++ [(l, [v])] := by
  induction loops with
  | nil => rfl
  | cons x loops ih =>
    rw [List.map_cons, List.mem_cons, not_or] at h
    rw [note, if_neg (Ne.symm h.left), ih h.right, List.cons_append]

theorem note_append {before after : List (Loop × List ConditionVector)} {ws : List ConditionVector}
    (h : l ∉ before.map (·.1))
    : note v l (before ++ (l, ws) :: after) = before ++ (l, ws ++ [v]) :: after := by
  induction before with
  | nil => rw [List.nil_append, note, if_pos rfl, List.nil_append]
  | cons x before ih =>
    rw [List.map_cons, List.mem_cons, not_or] at h
    rw [List.cons_append, note, if_neg (Ne.symm h.left), ih h.right, List.cons_append]

theorem assignments_records (report : LoopReport) (under : ConditionVector → List Loop)
    (vs : List ConditionVector)
    : (vs.foldl (fun report v => report.record v (under v)) report).assignments =
        report.assignments + vs.length := by
  induction vs generalizing report with
  | nil => rfl
  | cons v vs ih =>
    rw [List.foldl_cons, ih, List.length_cons]
    simp only [record]
    omega

/--
The entries list the loops of the vectors in `vs`. Each has the vectors with its loop in their order, and the
entries stand in the order of their first vectors.
-/
structure Grouped (under : ConditionVector → List Loop) (vs : List ConditionVector)
    (loops : List (Loop × List ConditionVector)) : Prop where
  lists : Lists loops fun l => ∃ v ∈ vs, l ∈ under v
  vectors : ∀ x ∈ loops, x.2 = vs.filter fun v => x.1 ∈ under v
  ordered : (loops.map (·.2.head?)).Pairwise fun x y => ∃ v ∈ x, ∃ w ∈ y, v.bits < w.bits

namespace Grouped

variable {under : ConditionVector → List Loop} {vs : List ConditionVector}

theorem nil (under : ConditionVector → List Loop) : Grouped under [] [] where
  lists := ⟨List.nodup_nil, by simp, by simp⟩
  vectors := by simp
  ordered := List.Pairwise.nil

theorem mem_of_head? {x : Loop × List ConditionVector} {w : ConditionVector} (h : Grouped under vs loops)
    (hx : x ∈ loops) (hw : w ∈ x.2.head?) : w ∈ vs := by
  have hmem := List.mem_of_head? hw
  rw [h.vectors x hx] at hmem
  exact List.mem_of_mem_filter hmem

theorem skip (h : Grouped under vs loops) (hv : under v = []) : Grouped under (vs ++ [v]) loops where
  lists := by
    apply h.lists.congr
    intro l
    simp [or_and_right, exists_or, hv]
  vectors := by
    intro x hx
    rw [List.filter_append, ← h.vectors x hx]
    simp [hv]
  ordered := h.ordered

theorem lists_note (h : Grouped under vs loops) (hv : under v = [l])
    : Lists (note v l loops) fun k => ∃ w ∈ vs ++ [v], k ∈ under w := by
  apply (h.lists.note v l).congr
  intro k
  simp [or_and_right, exists_or, hv, or_comm]

theorem note_new (h : Grouped under vs loops) (hlast : ∀ w ∈ vs, w.bits < v.bits) (hv : under v = [l])
    (hl : l ∉ loops.map (·.1)) : Grouped under (vs ++ [v]) (note v l loops) where
  lists := h.lists_note hv
  vectors := by
    have hnone : vs.filter (fun w => l ∈ under w) = [] := by
      rw [List.filter_eq_nil_iff]
      intro w hw hmem
      exact hl ((h.lists.mem l).mpr ⟨w, hw, of_decide_eq_true hmem⟩)
    rw [note_of_not_mem hl]
    intro x hx
    cases List.mem_append.mp hx with
    | inl hx =>
      have hne : x.1 ≠ l := fun heq => hl (heq ▸ List.mem_map_of_mem hx)
      rw [List.filter_append, ← h.vectors x hx]
      simp [hv, hne]
    | inr hx =>
      rw [List.mem_singleton.mp hx, List.filter_append, hnone]
      simp [hv]
  ordered := by
    rw [note_of_not_mem hl, List.map_append, List.pairwise_append]
    refine ⟨h.ordered, List.pairwise_singleton _ _, ?_⟩
    intro first hfirst last hlast'
    obtain ⟨x, hx, rfl⟩ := List.mem_map.mp hfirst
    rw [List.map_singleton, List.mem_singleton] at hlast'
    obtain ⟨w, ws, hws⟩ := List.exists_cons_of_ne_nil (h.lists.vectors x hx)
    have hw : w ∈ x.2.head? := by
      rw [hws]
      rfl
    rw [hlast']
    exact ⟨w, hw, v, rfl, hlast w (h.mem_of_head? hx hw)⟩

theorem note_known (h : Grouped under vs loops) (hv : under v = [l]) (hl : l ∈ loops.map (·.1))
    : Grouped under (vs ++ [v]) (note v l loops) := by
  have hlists := h.lists_note hv
  obtain ⟨⟨k, ws⟩, hmem, rfl⟩ := List.mem_map.mp hl
  obtain ⟨before, after, rfl⟩ := List.append_of_mem hmem
  have hnodup := h.lists.nodup
  rw [List.map_append, List.map_cons, List.nodup_append', List.nodup_cons] at hnodup
  obtain ⟨_, ⟨hafter, _⟩, hdisjoint⟩ := hnodup
  have hbefore : k ∉ before.map (·.1) := fun hk => hdisjoint hk List.mem_cons_self
  rw [note_append hbefore] at hlists ⊢
  refine ⟨hlists, ?_, ?_⟩
  . intro x hx
    have hkeep : x ∈ before ++ (k, ws) :: after → x.1 ≠ k →
        x.2 = (vs ++ [v]).filter fun w => x.1 ∈ under w := by
      intro hx hne
      rw [List.filter_append, ← h.vectors x hx]
      simp [hv, hne]
    rcases List.mem_append.mp hx with hx | hx
    . apply hkeep (List.mem_append_left _ hx)
      intro heq
      exact hbefore (heq ▸ List.mem_map_of_mem hx)
    . rcases List.mem_cons.mp hx with rfl | hx
      . rw [List.filter_append, ← h.vectors _ hmem]
        simp [hv]
      . apply hkeep (List.mem_append_right _ (List.mem_cons_of_mem _ hx))
        intro heq
        have hmem' : x.1 ∈ after.map (·.1) := List.mem_map_of_mem hx
        rw [heq] at hmem'
        exact hafter hmem'
  . -- the first vector of the entry stays
    have hhead : (ws ++ [v]).head? = ws.head? := by
      obtain ⟨w, ws', hws⟩ := List.exists_cons_of_ne_nil (h.lists.vectors _ hmem)
      rw [show ws = w :: ws' from hws]
      rfl
    have hordered := h.ordered
    rw [List.map_append, List.map_cons] at hordered ⊢
    rw [hhead]
    exact hordered

theorem record {report : LoopReport} (h : Grouped under vs report.loops)
    (hlast : ∀ w ∈ vs, w.bits < v.bits) (hunder : under v = [] ∨ ∃ l, under v = [l])
    : Grouped under (vs ++ [v]) (report.record v (under v)).loops := by
  unfold LoopReport.record
  rcases hunder with hv | ⟨l, hv⟩
  . rw [hv]
    exact h.skip hv
  . rw [hv]
    by_cases hl : l ∈ report.loops.map (·.1)
    . exact h.note_known hv hl
    . exact h.note_new hlast hv hl

theorem records (hvs : vs.Pairwise fun v w => v.bits < w.bits)
    (hunder : ∀ v ∈ vs, under v = [] ∨ ∃ l, under v = [l])
    : Grouped under vs (vs.foldl (fun report v => report.record v (under v)) ({} : LoopReport)).loops := by
  induction vs using List.reverseRecOn with
  | nil => exact nil under
  | append_singleton vs v ih =>
    rw [List.pairwise_append] at hvs
    rw [List.foldl_append, List.foldl_cons, List.foldl_nil]
    apply (ih hvs.left fun w hw => hunder w (List.mem_append_left _ hw)).record
    . intro w hw
      exact hvs.right.right w hw v List.mem_cons_self
    . exact hunder v (List.mem_append_right _ List.mem_cons_self)

theorem mem_iff (h : Grouped under vs loops)
    : (∃ ws, (l, ws) ∈ loops ∧ v ∈ ws) ↔ v ∈ vs ∧ l ∈ under v := by
  constructor
  . intro ⟨ws, hmem, hv⟩
    rw [show ws = _ from h.vectors _ hmem, List.mem_filter] at hv
    exact ⟨hv.left, of_decide_eq_true hv.right⟩
  . intro ⟨hv, hl⟩
    obtain ⟨x, hx, hxl⟩ := List.mem_map.mp ((h.lists.mem l).mpr ⟨v, hv, hl⟩)
    subst hxl
    refine ⟨x.2, hx, ?_⟩
    rw [h.vectors x hx, List.mem_filter]
    exact ⟨hv, decide_eq_true hl⟩

theorem pairwise_vectors (h : Grouped under vs loops) (hvs : vs.Pairwise fun v w => v.bits < w.bits)
    {x : Loop × List ConditionVector} (hx : x ∈ loops) : x.2.Pairwise fun v w => v.bits < w.bits := by
  rw [h.vectors x hx]
  exact hvs.filter _

theorem nodup_flatMap (h : Grouped under vs loops) (hvs : vs.Pairwise fun v w => v.bits < w.bits)
    (hunder : ∀ v ∈ vs, under v = [] ∨ ∃ l, under v = [l]) : (loops.flatMap (·.2)).Nodup := by
  rw [List.nodup_flatMap]
  constructor
  . intro x hx
    apply (h.pairwise_vectors hvs hx).imp
    intro v w hlt heq
    rw [heq] at hlt
    exact lt_irrefl _ hlt
  . have hnodup := h.lists.nodup
    rw [List.Nodup, List.pairwise_map] at hnodup
    apply hnodup.imp_of_mem
    intro x y hx hy hne v hvx hvy
    obtain ⟨hv, hxv⟩ := h.mem_iff.mp ⟨x.2, hx, hvx⟩
    obtain ⟨_, hyv⟩ := h.mem_iff.mp ⟨y.2, hy, hvy⟩
    rcases hunder v hv with hnil | ⟨l, hl⟩
    . rw [hnil] at hxv
      contradiction
    . rw [hl, List.mem_singleton] at hxv hyv
      exact hne (hxv.trans hyv.symm)

end Grouped

end LoopReport

namespace Scheme

variable {d : Draft} {s : Scheme} {v : ConditionVector}

theorem loopsUnder_text (hd : d.WellFormed) (hs : s.automaton.Valued d)
    (hv : v.length = d.conditionals d.size)
    : (s.loopsUnder v.text).1 = .ok (Loop.ofPath s.automaton (d.trace v).path) := by
  have hpath := Loop.ofPath_congr (Automaton.reset_assign s.automaton v)
  unfold loopsUnder runWith
  simp only [hs.assignText_text hv, hs.run_assign hd hv, hpath]

theorem ofPath_trace_cases (hd : d.WellFormed) (hs : s.automaton.Valued d)
    (hv : v.length = d.conditionals d.size)
    : ((d.trace v).outcome ≠ .loopDetected ∧ Loop.ofPath s.automaton (d.trace v).path = []) ∨
        (d.trace v).outcome = .loopDetected ∧ ∃ l, Loop.ofPath s.automaton (d.trace v).path = [l] :=
  (hs.assign v).ofPath_cases hd (hs.run_assign hd hv)

theorem exists_loopsUnder (hd : d.WellFormed) (hs : s.automaton.Valued d)
    (hv : v.length = d.conditionals d.size)
    : ∃ ls, (s.loopsUnder v.text).1 = .ok ls ∧ ls.length ≤ 1 ∧
        ∀ verbose, ∃ t, (s.runWith v.text verbose).1 = .ok t ∧ (ls = [] ↔ t.outcome ≠ .loopDetected) := by
  refine ⟨_, loopsUnder_text hd hs hv, ?_, ?_⟩
  . rcases ofPath_trace_cases hd hs hv with ⟨_, hnil⟩ | ⟨_, l, hl⟩
    . simp [hnil]
    . simp [hl]
  . intro verbose
    obtain ⟨t, hrun, _, houtcome⟩ := Automaton.exists_run_of_run verbose (hs.run_assign hd hv)
    rw [← runWith_text hs hv] at hrun
    refine ⟨t, hrun, ?_⟩
    rw [houtcome]
    rcases ofPath_trace_cases hd hs hv with ⟨hother, hnil⟩ | ⟨hloop, l, hl⟩
    . simp [hother, hnil]
    . simp [hloop, hl]

/--
A vector is listed under the loop that its run ends in, if its run ends in one. The report is in the order of
the vectors.
-/
theorem findLoops_agrees (hs : s.Accepted) (hlimit : s.conditionalCount ≤ s.limit)
    : ∃ report, s.findLoops.1 = .ok report ∧ report.assignments = 2 ^ s.conditionalCount ∧
        (∀ v, v.length = s.conditionalCount →
          (∀ l, (∃ vs, (l, vs) ∈ report.loops ∧ v ∈ vs) ↔ (s.loopsUnder v.text).1 = .ok [l]) ∧
          ∃ ls, (s.loopsUnder v.text).1 = .ok ls ∧ ls.length ≤ 1 ∧
            ∀ verbose, ∃ t, (s.runWith v.text verbose).1 = .ok t ∧ (ls = [] ↔ t.outcome ≠ .loopDetected)) ∧
        (∀ x ∈ report.loops, x.2 ≠ [] ∧ ∀ v ∈ x.2, v.length = s.conditionalCount) ∧
        (report.loops.flatMap (·.2)).Nodup ∧
        (∀ x ∈ report.loops, x.2.Pairwise fun v w => v.bits < w.bits) ∧
        report.loops.Pairwise fun x y => ∃ v ∈ x.2.head?, ∃ w ∈ y.2.head?, v.bits < w.bits := by
  obtain ⟨d, hd, ha, _⟩ := hs.exists_draft
  have hcount : s.conditionalCount = d.conditionals d.size := ha.conditionalCount_eq
  have hn := conditionals_le ha hlimit
  have hfind := findLoops_eq hd ha hlimit
  rw [hcount]
  have hvs := ConditionVector.pairwise_all hn
  have hassignments := ConditionVector.length_all (d.conditionals d.size)
  have hlength : ∀ v, v ∈ ConditionVector.all (d.conditionals d.size) ↔ v.length = d.conditionals d.size :=
    fun v => ConditionVector.mem_all_iff hn
  generalize ConditionVector.all (d.conditionals d.size) = vs at *
  have hunder : ∀ v ∈ vs, Loop.ofPath s.automaton (d.trace v).path = [] ∨
      ∃ l, Loop.ofPath s.automaton (d.trace v).path = [l] :=
    fun v hv => (ofPath_trace_cases hd ha ((hlength v).mp hv)).imp And.right And.right
  have hgrouped := LoopReport.Grouped.records hvs hunder
  refine ⟨_, congrArg Prod.fst hfind, ?_, ?_, ?_, hgrouped.nodup_flatMap hvs hunder, ?_, ?_⟩
  . rw [LoopReport.assignments_records, hassignments]
    exact Nat.zero_add _
  . intro v hv
    have hmem := (hlength v).mpr hv
    refine ⟨?_, exists_loopsUnder hd ha hv⟩
    intro l
    rw [loopsUnder_text hd ha hv, hgrouped.mem_iff]
    rcases hunder v hmem with hnil | ⟨k, hk⟩
    . simp [hnil]
    . simp [hmem, hk, eq_comm]
  . intro x hx
    refine ⟨hgrouped.lists.vectors x hx, ?_⟩
    intro v hv
    exact (hlength v).mp (hgrouped.mem_iff.mp ⟨x.2, hx, hv⟩).left
  . intro x hx
    exact hgrouped.pairwise_vectors hvs hx
  . exact List.pairwise_map.mp hgrouped.ordered

theorem loopsUnder_loopingScheme
    : ∃ report, loopingScheme.findLoops.1 = .ok report ∧ report.assignments = 2 ∧
        ∀ l, (∃ vs, (l, vs) ∈ report.loops ∧ ⟨[false]⟩ ∈ vs) ↔
          (loopingScheme.loopsUnder "0").1 = .ok [l] := by
  obtain ⟨report, hreport, hassignments, hvectors, _⟩ :=
    findLoops_agrees accepted_loopingScheme conditionalCount_loopingScheme_le
  rw [conditionalCount_loopingScheme] at hassignments hvectors
  exact ⟨report, hreport, hassignments, (hvectors ⟨[false]⟩ rfl).left⟩

end Scheme

end LogicalScheme
