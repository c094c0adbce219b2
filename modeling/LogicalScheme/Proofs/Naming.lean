import LogicalScheme.Proofs.Cycles
import LogicalScheme.Proofs.Refusals
import LogicalScheme.Proofs.Rendering
import Mathlib.Data.UInt

/-!
This module contains what schemes do that differ in names and in the numbers of their jumps only. Runs take the
same ways, and analyses find the same elements.
-/

namespace LogicalScheme

theorem Kind.mapConditional_rename (f : UInt32 → UInt32) (g : Conditional → Conditional) (kind : Kind)
    : (kind.rename f).mapConditional g = (kind.mapConditional g).rename f := by
  cases kind <;> rfl

theorem lookup_map_rename {f : UInt32 → UInt32} (hf : Function.Injective f) (index : UInt32)
    (points : List (UInt32 × ElementRef))
    : (points.map (Prod.map f id)).lookup (f index) = points.lookup index := by
  induction points with
  | nil => rfl
  | cons point points ih =>
    have hbeq : (f index == f point.1) = (index == point.1) := by
      rw [Bool.eq_iff_iff, beq_iff_eq, beq_iff_eq, hf.eq_iff]
    rw [List.map_cons, List.lookup_cons, List.lookup_cons, ih]
    simp only [Prod.map_fst, Prod.map_snd, id_eq, hbeq]

namespace Automaton.Renamed

variable {f : UInt32 → UInt32} {a b : Automaton} {r : Nat}

theorem element?_eq (h : Renamed f a b) (r : Nat)
    : b.element? r = (a.element? r).map (.rename f (b.name r)) := by
  cases he : a.element? r with
  | none =>
    unfold Automaton.element? at he ⊢
    rw [Array.getElem?_eq_none_iff, ← h.size, ← Array.getElem?_eq_none_iff] at he
    rw [he, Option.map_none]
  | some e =>
    obtain ⟨name, hname⟩ := h.element r e he
    unfold Automaton.name
    rw [hname]
    rfl

theorem jumpPoint?_eq (hf : Function.Injective f) (h : Renamed f a b) (index : UInt32)
    : b.jumpPoint? (f index) = a.jumpPoint? index := by
  unfold Automaton.jumpPoint?
  rw [h.jumpPoints, lookup_map_rename hf]

theorem next?_eq (h : Renamed f a b) : b.next? = a.next? := by
  funext r
  unfold Automaton.next?
  rw [h.element?_eq, Option.bind_map]
  rfl

theorem position_eq (h : Renamed f a b) : b.position = a.position := by
  funext r
  unfold Automaton.position
  rw [h.element?_eq, Option.map_map]
  rfl

theorem any_isFinish_eq (h : Renamed f a b) (r : Nat)
    : (b.element? r).any (·.isFinish) = (a.element? r).any (·.isFinish) := by
  rw [h.element?_eq, Option.any_map]
  congr 1
  funext e
  exact e.isFinish_rename f (b.name r)

theorem conditionalCount_eq (h : Renamed f a b) : b.conditionalCount = a.conditionalCount := by
  have hmap : b.elements.map (·.conditional?.isSome) = a.elements.map (·.conditional?.isSome) := by
    apply Array.ext_getElem?
    intro r
    have he := h.element?_eq r
    unfold Automaton.element? at he
    rw [Array.getElem?_map, Array.getElem?_map, he, Option.map_map]
    congr 1
    funext e
    exact congrArg Option.isSome (e.conditional?_rename f (b.name r))
  have hcount := congrArg (Array.countP id) hmap
  rw [Array.countP_map, Array.countP_map] at hcount
  exact hcount

theorem assign (h : Renamed f a b) (v : ConditionVector) : Renamed f (a.assign v) (b.assign v) where
  size := by rw [assign_size, assign_size, h.size]
  element := by
    intro r e he
    rw [element?_assign, Option.map_eq_some_iff] at he
    obtain ⟨e, he, rfl⟩ := he
    obtain ⟨name, hname⟩ := h.element r e he
    refine ⟨name, ?_⟩
    rw [element?_assign, hname, Option.map_some]
    unfold Element.mapConditional Element.rename
    rw [Kind.mapConditional_rename]
  jumpPoints := h.jumpPoints

theorem follow_eq_ok {next : Option ElementRef} (hf : Function.Injective f) (h : Renamed f a b)
    (hfollow : a.follow r = .ok next) : b.follow r = .ok next := by
  rw [← hfollow]
  unfold follow at hfollow ⊢
  rw [h.element?_eq]
  cases he : a.element? r with
  | none => rfl
  | some e =>
    rw [he] at hfollow
    rw [Option.map_some]
    unfold Element.rename
    cases hkind : e.kind with
    | conditional c =>
      -- a condition without value would be an error that names the vertex
      simp only [hkind] at hfollow
      simp only [Kind.rename, hkind]
      cases hvalue : c.value with
      | none =>
        rw [hvalue] at hfollow
        contradiction
      | some value => rfl
    | jump index unconditional =>
      simp only [Kind.rename, hkind, h.jumpPoint?_eq hf, h.next?_eq]
    | _ => simp only [Kind.rename, hkind]

theorem transitions_eq (hf : Function.Injective f) (h : Renamed f a b) : b.transitions = a.transitions := by
  funext r
  unfold transitions
  rw [h.element?_eq]
  cases a.element? r with
  | none => rfl
  | some e =>
    rw [Option.map_some]
    unfold Element.rename
    cases hkind : e.kind <;> simp only [Kind.rename, hkind, h.jumpPoint?_eq hf]

theorem unreachableFrom_eq (hf : Function.Injective f) (h : Renamed f a b) (start : Nat)
    : b.unreachableFrom start = a.unreachableFrom start := by
  have hrefs : b.refs = a.refs := by
    unfold refs
    rw [h.size]
  have hconnects : b.Connects = a.Connects := by
    funext r s
    unfold Connects
    rw [h.transitions_eq hf]
  unfold unreachableFrom
  rw [hrefs]
  apply List.filter_congr
  intro r _
  have hreach : r ∈ b.reach [] [start] ↔ r ∈ a.reach [] [start] := by
    rw [mem_reach_iff, mem_reach_iff, hconnects, Has, Has, h.size]
  simp [hreach]

end Automaton.Renamed

namespace Loop

def rename (name : ElementRef → Name) (l : Loop) : Loop :=
  ⟨l.elements, l.elements.map name⟩

def Named (name : ElementRef → Name) (l : Loop) : Prop :=
  l.names = l.elements.map name

theorem Named.eq_iff {name name' : ElementRef → Name} {k l : Loop} (hk : k.Named name) (hl : l.Named name)
    : k.rename name' = l.rename name' ↔ k = l := by
  obtain ⟨elements, names⟩ := k
  obtain ⟨elements', names'⟩ := l
  unfold Named at hk hl
  simp only at hk hl
  rw [hk, hl]
  unfold rename
  simp only [Loop.mk.injEq]
  constructor
  . intro ⟨heq, _⟩
    exact ⟨heq, congrArg _ heq⟩
  . intro ⟨heq, _⟩
    exact ⟨heq, congrArg _ heq⟩

theorem named_of_mem_ofPath {a : Automaton} {path : List Nat} {l : Loop} (h : l ∈ ofPath a path)
    : l.Named a.name := by
  unfold ofPath at h
  obtain ⟨cycle, _, rfl⟩ := List.mem_map.mp h
  rfl

theorem canonical_renamed {f : UInt32 → UInt32} {a b : Automaton} (hf : Function.Injective f)
    (h : a.Renamed f b) : canonical b = canonical a := by
  have hentry : entryThrough? b = entryThrough? a := by
    funext r
    unfold entryThrough?
    rw [h.element?_eq, Option.bind_map]
    congr 1
    funext e
    unfold Function.comp Element.rename
    cases e.kind <;> simp only [Kind.rename, h.jumpPoint?_eq hf, h.next?_eq]
  funext cycle
  unfold canonical first? entries
  rw [hentry, h.position_eq]

theorem ofPath_renamed {f : UInt32 → UInt32} {a b : Automaton} (hf : Function.Injective f)
    (h : a.Renamed f b) (path : List Nat) : ofPath b path = (ofPath a path).map (rename b.name) := by
  unfold ofPath
  rw [canonical_renamed hf h, List.map_map]
  rfl

end Loop

namespace LoopReport

variable {name name' : ElementRef → Name}

def rename (name : ElementRef → Name) (report : LoopReport) : LoopReport :=
  { report with loops := report.loops.map (Prod.map (·.rename name) id) }

def Named (name : ElementRef → Name) (loops : List (Loop × List ConditionVector)) : Prop :=
  ∀ l ∈ loops.map (·.1), l.Named name

theorem Named.note {l : Loop} {loops : List (Loop × List ConditionVector)} (hl : l.Named name)
    (hloops : Named name loops) (v : ConditionVector) : Named name (note v l loops) := by
  intro k hk
  cases mem_note.mp hk with
  | inl heq =>
    rw [heq]
    exact hl
  | inr hmem => exact hloops k hmem

theorem note_rename {l : Loop} {loops : List (Loop × List ConditionVector)} (hl : l.Named name)
    (hloops : Named name loops) (v : ConditionVector)
    : LoopReport.note v (l.rename name') (loops.map (Prod.map (·.rename name') id)) =
        (LoopReport.note v l loops).map (Prod.map (·.rename name') id) := by
  induction loops with
  | nil => rfl
  | cons x loops ih =>
    obtain ⟨k, vs⟩ := x
    unfold Named at hloops
    rw [List.map_cons, List.forall_mem_cons] at hloops
    obtain ⟨hk, hloops⟩ := hloops
    simp only [List.map_cons, Prod.map_apply, id_eq, LoopReport.note, hk.eq_iff hl]
    split
    . rfl
    . rw [ih hloops]
      rfl

theorem record_rename {report : LoopReport} {found : List Loop} (hfound : ∀ l ∈ found, l.Named name)
    (hreport : Named name report.loops) (v : ConditionVector)
    : (report.rename name').record v (found.map (·.rename name')) = (report.record v found).rename name' ∧
        Named name (report.record v found).loops := by
  obtain ⟨assignments, loops⟩ := report
  unfold record rename
  simp only [LoopReport.mk.injEq, true_and]
  induction found generalizing loops with
  | nil => exact ⟨rfl, hreport⟩
  | cons l found ih =>
    rw [List.forall_mem_cons] at hfound
    rw [List.map_cons, List.foldl_cons, List.foldl_cons, note_rename hfound.left hreport]
    exact ih hfound.right _ (hreport.note hfound.left v)

theorem foldl_record_rename {report : LoopReport} {under under' : ConditionVector → List Loop}
    {vs : List ConditionVector} (hunder : ∀ v ∈ vs, ∀ l ∈ under v, l.Named name)
    (hunder' : ∀ v ∈ vs, under' v = (under v).map (·.rename name')) (hreport : Named name report.loops)
    : vs.foldl (fun report v => report.record v (under' v)) (report.rename name') =
        (vs.foldl (fun report v => report.record v (under v)) report).rename name' := by
  induction vs generalizing report with
  | nil => rfl
  | cons v vs ih =>
    rw [List.forall_mem_cons] at hunder hunder'
    obtain ⟨hrecord, hnamed⟩ := @record_rename name name' report (under v) hunder.left hreport v
    rw [List.foldl_cons, List.foldl_cons, hunder'.left, hrecord]
    exact ih hunder.right hunder'.right hnamed

end LoopReport

def Trace.way (t : Trace) : List ElementRef × Outcome :=
  (t.path, t.outcome)

def LoopReport.cycles (report : LoopReport) : List (List ElementRef × List ConditionVector) :=
  report.loops.map (Prod.map (·.elements) id)

theorem LoopReport.cycles_rename (name : ElementRef → Name) (report : LoopReport)
    : (report.rename name).cycles = report.cycles := by
  unfold cycles rename
  rw [List.map_map]
  rfl

namespace Scheme

/--
The schemes do the same. Names may differ, but not where control goes and what is found.
-/
structure Agrees (s s' : Scheme) : Prop where
  run : ∀ bits verbose,
    (s'.runWith bits verbose).1.map Trace.way = (s.runWith bits verbose).1.map Trace.way
  loopsUnder : ∀ bits,
    (s'.loopsUnder bits).1.map (List.map Loop.elements) = (s.loopsUnder bits).1.map (List.map Loop.elements)
  findLoops : s'.findLoops.1.map LoopReport.cycles = s.findLoops.1.map LoopReport.cycles
  unreachable : s'.unreachable = s.unreachable

section Renamed

variable {f : UInt32 → UInt32} {d d' : Draft} {s s' : Scheme}

theorem exists_run_of_renamed {v : ConditionVector} (hf : Function.Injective f) (hd : d.WellFormed)
    (hd' : d'.WellFormed) (hs : s.automaton.Valued d) (hs' : s'.automaton.Valued d')
    (h : s.automaton.Renamed f s'.automaton) (hv : v.length = s.conditionalCount) (verbose : Bool)
    : ∃ t t', (s.automaton.assign v).run verbose = .ok t ∧ (s'.automaton.assign v).run verbose = .ok t' ∧
        t'.path = t.path ∧ t'.outcome = t.outcome := by
  obtain ⟨t, hrun⟩ := hs.exists_run verbose hd (hv.trans hs.conditionalCount_eq)
  have hrun' := hrun
  rw [(hs.assign v).run_eq hd] at hrun'
  obtain ⟨t', hrun', hpath, houtcome⟩ := Automaton.exists_runFrom_of_follow verbose
    (h.assign v).any_isFinish_eq (fun _ _ => (h.assign v).follow_eq_ok hf) hrun'
  rw [← (hs'.assign v).run_eq hd'] at hrun'
  exact ⟨t, t', hrun, hrun', hpath, houtcome⟩

theorem runWith_cases (hf : Function.Injective f) (hd : d.WellFormed) (hd' : d'.WellFormed)
    (hs : s.automaton.Valued d) (hs' : s'.automaton.Valued d') (h : s.automaton.Renamed f s'.automaton)
    (bits : String) (verbose : Bool)
    : (∃ e, s.runWith bits verbose = (.error e, s) ∧ s'.runWith bits verbose = (.error e, s')) ∨
        ∃ v t t', s.runWith bits verbose = (.ok t, { s with automaton := s.automaton.assign v }) ∧
          s'.runWith bits verbose = (.ok t', { s' with automaton := s'.automaton.assign v }) ∧
          t'.path = t.path ∧ t'.outcome = t.outcome := by
  unfold runWith Automaton.assignText
  rw [h.conditionalCount_eq]
  cases hv : ConditionVector.parse bits s.automaton.conditionalCount with
  | error e => exact .inl ⟨e, rfl, rfl⟩
  | ok v =>
    obtain ⟨t, t', hrun, hrun', hsame⟩ :=
      exists_run_of_renamed hf hd hd' hs hs' h (ConditionVector.length_of_parse hv) verbose
    refine .inr ⟨v, t, t', ?_, ?_, hsame⟩
    . simp only [Except.map, hrun]
    . simp only [Except.map, hrun']

theorem findLoops_of_limit_lt (hlimit : s.limit < s.conditionalCount)
    : s.findLoops.1 = .error (.tooManyConditionals s.conditionalCount s.limit) := by
  unfold findLoops
  rw [forEachVector_of_limit_lt hlimit]
  rfl

theorem findLoops_renamed (hf : Function.Injective f) (hd : d.WellFormed) (hd' : d'.WellFormed)
    (hs : s.automaton.Valued d) (hs' : s'.automaton.Valued d') (h : s.automaton.Renamed f s'.automaton)
    (hmax : s'.maxConditionals = s.maxConditionals)
    : s'.findLoops.1 = s.findLoops.1.map (·.rename s'.automaton.name) := by
  have hcount : s'.conditionalCount = s.conditionalCount := h.conditionalCount_eq
  have hsame : s'.limit = s.limit := by
    unfold limit
    rw [hmax]
  by_cases hlimit : s.limit < s.conditionalCount
  . have hlimit' := hlimit
    rw [← hsame, ← hcount] at hlimit'
    rw [findLoops_of_limit_lt hlimit, findLoops_of_limit_lt hlimit', hcount, hsame]
    rfl
  . have hle := Nat.le_of_not_lt hlimit
    have hle' := hle
    rw [← hsame, ← hcount] at hle'
    have hpath : ∀ v ∈ ConditionVector.all (d.conditionals d.size), (d'.trace v).path = (d.trace v).path := by
      intro v hv
      have hlength := ConditionVector.length_of_mem_ofMasks hv
      obtain ⟨t, t', hrun, hrun', hpath, _⟩ :=
        exists_run_of_renamed hf hd hd' hs hs' h (hlength.trans hs.conditionalCount_eq.symm) false
      have hlength' : v.length = d'.conditionals d'.size := by
        rw [hlength, ← hs.conditionalCount_eq, ← hs'.conditionalCount_eq, h.conditionalCount_eq]
      rw [hs.run_assign hd hlength, Except.ok.injEq] at hrun
      rw [hs'.run_assign hd' hlength', Except.ok.injEq] at hrun'
      rw [hrun, hrun', hpath]
    have hvectors : d'.conditionals d'.size = d.conditionals d.size := by
      rw [← hs.conditionalCount_eq, ← hs'.conditionalCount_eq, h.conditionalCount_eq]
    -- both reports are folds over the same vectors, whose runs go the same ways
    have hfold := @LoopReport.foldl_record_rename s.automaton.name s'.automaton.name {}
      (fun v => Loop.ofPath s.automaton (d.trace v).path) (fun v => Loop.ofPath s'.automaton (d'.trace v).path)
      (ConditionVector.all (d.conditionals d.size))
      (fun v _ l hl => Loop.named_of_mem_ofPath hl)
      (fun v hv => by rw [hpath v hv, Loop.ofPath_renamed hf h])
      (by simp [LoopReport.Named])
    rw [findLoops_eq hd hs hle, findLoops_eq hd' hs' hle', hvectors]
    exact congrArg Except.ok hfold

theorem unreachable_renamed (hf : Function.Injective f) (hd : d.WellFormed) (hd' : d'.WellFormed)
    (hs : s.automaton.Valued d) (hs' : s'.automaton.Valued d') (h : s.automaton.Renamed f s'.automaton)
    : s'.unreachable = s.unreachable := by
  unfold unreachable
  rw [hs.start?_eq hd, hs'.start?_eq hd']
  exact h.unreachableFrom_eq hf 0

theorem agrees_of_renamed (hf : Function.Injective f) (hd : d.WellFormed) (hd' : d'.WellFormed)
    (hs : s.automaton.Valued d) (hs' : s'.automaton.Valued d') (h : s.automaton.Renamed f s'.automaton)
    (hmax : s'.maxConditionals = s.maxConditionals) : s.Agrees s' where
  run := by
    intro bits verbose
    rcases runWith_cases hf hd hd' hs hs' h bits verbose with
      ⟨e, hrun, hrun'⟩ | ⟨v, t, t', hrun, hrun', hpath, houtcome⟩
    . rw [hrun, hrun']
    . rw [hrun, hrun']
      simp only [Except.map, Trace.way, hpath, houtcome]
  loopsUnder := by
    intro bits
    unfold loopsUnder
    rcases runWith_cases hf hd hd' hs hs' h bits false with
      ⟨e, hrun, hrun'⟩ | ⟨v, t, t', hrun, hrun', hpath, _⟩
    . simp only [hrun, hrun']
    . simp only [hrun, hrun', Except.map, hpath, Loop.ofPath_renamed hf (h.assign v), List.map_map]
      rfl
  findLoops := by
    rw [findLoops_renamed hf hd hd' hs hs' h hmax]
    cases s.findLoops.1 with
    | error e => rfl
    | ok report => exact congrArg Except.ok (report.cycles_rename _)
  unreachable := unreachable_renamed hf hd hd' hs hs' h

theorem Agrees.of_reset (hd : d.WellFormed) (hd' : d'.WellFormed) (hs : s.automaton.Valued d)
    (hs' : s'.automaton.Valued d') (h : s.reset.Agrees s'.reset) : s.Agrees s' := by
  have hreset : s.reset.automaton.Valued d := (Automaton.reset_reset _).trans hs
  have hreset' : s'.reset.automaton.Valued d' := (Automaton.reset_reset _).trans hs'
  constructor
  case run =>
    intro bits verbose
    rw [runWith_eq hd hs hreset, runWith_eq hd' hs' hreset', h.run]
  case loopsUnder =>
    intro bits
    rw [loopsUnder_eq hd hs hreset, loopsUnder_eq hd' hs' hreset', h.loopsUnder]
  case findLoops =>
    rw [findLoops_congr hd hs hreset s.reset_reset.symm, findLoops_congr hd' hs' hreset' s'.reset_reset.symm,
      h.findLoops]
  case unreachable => rw [unreachable_eq hd hs hreset, unreachable_eq hd' hs' hreset', h.unreachable]

end Renamed

/--
Numbers are only names. A text whose tokens are those of an accepted text but for numbers, which are renamed
one to one for jumps and are any for vertices, is accepted as well. Its automaton has the same elements and
links, and whatever is asked of the schemes has the same answer.
-/
theorem agrees_of_renames {f : UInt32 → UInt32} {text text' : String} {p : Parsed} {ts : List Token}
    (hf : Function.Injective f) (hparse : LogicalScheme.parse text = .ok p)
    (hrenames : List.Forall₂ (Token.Renames f) p.tokens ts) (hreads : Text.Reads text' ts)
    : ∃ q, LogicalScheme.parse text' = .ok q ∧ p.automaton.Renamed f q.automaton ∧
        ∀ s s' : Scheme, s.automaton.reset = p.automaton → s'.automaton.reset = q.automaton →
          s'.maxConditionals = s.maxConditionals → s.Agrees s' := by
  have hreads' := reads_of_parse hparse
  have hfaults := hreads'.exists_parse_iff.mp ⟨p, hparse⟩
  obtain ⟨q, hq⟩ := hreads.exists_parse_iff.mpr fun code i hfault =>
    hfaults code i (hfault.of_renames hf hrenames)
  have hdrafts : Draft.Renames f (Draft.ofText text) (Draft.ofText text') := by
    unfold Draft.Renames
    rw [hreads'.ofText.left, hreads.ofText.left]
    exact hrenames
  have hrenamed := hdrafts.layout_renamed hf
  obtain ⟨hd, hautomaton, _⟩ := wellFormed_of_parse hparse
  obtain ⟨hd', hautomaton', _⟩ := wellFormed_of_parse hq
  rw [← hautomaton, ← hautomaton'] at hrenamed
  refine ⟨q, hq, hrenamed, ?_⟩
  intro s s' hs hs' hmax
  have hvalued : s.automaton.Valued (Draft.ofText text) := hs.trans hautomaton
  have hvalued' : s'.automaton.Valued (Draft.ofText text') := hs'.trans hautomaton'
  apply Agrees.of_reset hd hd' hvalued hvalued'
  rw [← hs, ← hs'] at hrenamed
  have hreset : s.reset.automaton.Valued (Draft.ofText text) := (Automaton.reset_reset _).trans hvalued
  have hreset' : s'.reset.automaton.Valued (Draft.ofText text') := (Automaton.reset_reset _).trans hvalued'
  exact agrees_of_renamed hf hd hd' hreset hreset' hrenamed hmax

theorem reads_loopingText : Text.Reads loopingText
    [.start, .jumpPoint 1, .operator 1, .conditional .x 1, .conditionalJump 1, .operator 2, .finish] := by
  have htext : " ".intercalate (List.map Token.text [.start, .jumpPoint 1, .operator 1, .conditional .x 1,
      .conditionalJump 1, .operator 2, .finish]) = loopingText := rfl
  rw [← htext]
  apply Rendering.reads_intercalate

def renumberedText : String :=
  "Yн ↓7 Y9 P3 ↑7 Y9 Yк"

theorem reads_renumberedText : Text.Reads renumberedText
    [.start, .jumpPoint 7, .operator 9, .conditional .p 3, .conditionalJump 7, .operator 9, .finish] := by
  have htext : " ".intercalate (List.map Token.text [.start, .jumpPoint 7, .operator 9, .conditional .p 3,
      .conditionalJump 7, .operator 9, .finish]) = renumberedText := rfl
  rw [← htext]
  apply Rendering.reads_intercalate

theorem agrees_renumberedText
    : ∃ q, LogicalScheme.parse renumberedText = .ok q ∧
        loopingScheme.Agrees { loopingScheme with automaton := q.automaton } := by
  have hrenames : List.Forall₂ (Token.Renames (· + 6)) (Parsed.ofText loopingText).tokens
      [.start, .jumpPoint 7, .operator 9, .conditional .p 3, .conditionalJump 7, .operator 9, .finish] := by
    rw [reads_loopingText.ofText.right.left]
    exact .cons .start <| .cons (.jumpPoint 1) <| .cons (.operator 1 9) <| .cons (.conditional .x .p 1 3) <|
      .cons (.conditionalJump 1) <| .cons (.operator 2 9) <| .cons .finish .nil
  obtain ⟨q, hq, _, hagrees⟩ :=
    agrees_of_renames (add_left_injective 6) parse_loopingText hrenames reads_renumberedText
  refine ⟨q, hq, hagrees _ _ (Parsed.reset_automaton loopingText) ?_ rfl⟩
  rw [(parse_eq_ok_iff.mp hq).left]
  exact Parsed.reset_automaton renumberedText

end Scheme

end LogicalScheme
