import LogicalScheme.Proofs.Reachability
import LogicalScheme.Proofs.Sweep
import LogicalScheme.Proofs.Values
import LogicalScheme.Scheme.Operation

/-!
This module contains histories of operations on a scheme. Operations leave values behind and nothing else, and
what an operation finds there matters to plain runs only.
-/

namespace LogicalScheme

namespace ConditionVector

theorem length_of_parse {text : String} {n : Nat} {v : ConditionVector} (h : parse text n = .ok v)
    : v.length = n := by
  obtain ⟨⟨hlength, _⟩, hbits⟩ := parse_eq_ok_iff.mp h
  rw [length, hbits, List.length_map, String.length_toList, hlength]

end ConditionVector

namespace Automaton

section Histories

variable {σ ε : Type} {oracle : Oracle σ ε} {a b : Automaton} {state state' : σ} {r : Nat}

theorem setCondition_reset {index : Nat} {value : Bool} (h : a.setCondition index value = .ok b)
    : b.reset = a.reset := by
  unfold setCondition at h
  split at h
  . cases h
    exact reset_modify_setValue a _ _
  . cases h

theorem ask_reset (h : ask oracle a state r = (.ok b, state')) : b.reset = a.reset := by
  unfold ask at h
  split at h
  . split at h
    . split at h
      . next index _ _ _ _ value _ _ =>
        generalize hset : a.setCondition index value = result at h
        cases result with
        | ok c =>
          cases h
          exact setCondition_reset hset
        | error e => cases h
      . simp at h
    . cases h
      rfl
  . cases h
    rfl

theorem runAskingFrom_reset (verbose : Bool) (a : Automaton) (state : σ) (seen : List Nat) (r : Nat)
    : (runAskingFrom oracle verbose a state seen r).2.1.reset = a.reset := by
  fun_induction runAskingFrom oracle verbose a state seen r with
  | case1 | case2 | case3 => rfl
  | case4 a state seen r hseen hfinish b state' hask e hfollow => exact ask_reset hask
  | case5 a state seen r hseen hfinish b state' hask hfollow => exact ask_reset hask
  | case6 a state seen r hseen hfinish b state' hask next hfollow result c state'' hrest ih =>
    rw [hrest] at ih
    exact ih.trans (ask_reset hask)

theorem runAsking_reset (oracle : Oracle σ ε) (verbose : Bool) (a : Automaton) (state : σ)
    : (runAsking oracle verbose a state).2.1.reset = a.reset := by
  unfold runAsking
  simp only
  split
  . rw [runAskingFrom_reset, reset_reset]
  . exact reset_reset a

theorem runAsking_congr (verbose : Bool) (state : σ) (h : a.reset = b.reset)
    : runAsking oracle verbose a state = runAsking oracle verbose b state := by
  unfold runAsking
  rw [h]

end Histories

end Automaton

namespace Scheme

theorem tokenLine_reset (a : Automaton) (position : Nat) (text : String)
    : tokenLine a.reset position text = tokenLine a position text := by
  have hkind : ∀ r, (a.reset.element? r).map (·.kind.text) = (a.element? r).map (·.kind.text) := by
    intro r
    rw [Automaton.element?_reset, Option.map_map]
    congr 1
    funext e
    exact Element.kind_text_setValue none e
  unfold tokenLine
  rw [Automaton.elementAt?_reset, Option.map_bind, Option.map_bind]
  unfold Function.comp
  rw [funext hkind]

section Preservation

variable {σ ε : Type} (s : Scheme)

theorem reset_reset : s.reset.reset = s.reset := by
  unfold reset
  simp only [Automaton.reset_reset]

theorem runWith_reset (bits : String) (verbose : Bool) : (s.runWith bits verbose).2.reset = s.reset := by
  unfold runWith
  split
  . next a h =>
    unfold Automaton.assignText at h
    cases hparse : ConditionVector.parse bits s.automaton.conditionalCount with
    | error e =>
      rw [hparse] at h
      cases h
    | ok v =>
      rw [hparse] at h
      cases h
      unfold reset
      simp only [Automaton.reset_assign]
  . rfl

theorem loopsUnder_reset (bits : String) : (s.loopsUnder bits).2.reset = s.reset := by
  have h := s.runWith_reset bits false
  unfold loopsUnder
  split
  . next hrun =>
    rw [hrun] at h
    exact h
  . next hrun =>
    rw [hrun] at h
    exact h

theorem runAsking_reset (oracle : Oracle σ ε) (verbose : Bool) (state : σ)
    : (s.runAsking oracle verbose state).2.1.reset = s.reset := by
  have h := Automaton.runAsking_reset oracle verbose s.automaton state
  unfold runAsking reset
  simp only [h]

theorem forEachVector_reset (visit : σ → ConditionVector → Trace → ForInStep σ) (state : σ)
    : (s.forEachVector visit state).2.1.reset = s.reset := by
  unfold forEachVector
  simp only
  split
  . rfl
  . exact s.reset_reset

theorem perform_reset {β : Type} (operation : Operation β) : (operation.perform s).2.reset = s.reset := by
  cases operation with
  | run | listTokens | unreachable => rfl
  | runWith bits verbose => exact s.runWith_reset bits verbose
  | runAsking oracle verbose state => exact s.runAsking_reset oracle verbose state
  | reset => exact s.reset_reset
  | loopsUnder bits => exact s.loopsUnder_reset bits
  | findLoops => exact s.forEachVector_reset _ _
  | forEachVector visit state => exact s.forEachVector_reset visit state
  | listLoops => exact s.forEachVector_reset _ _
  | listResults => exact s.forEachVector_reset _ _
  | matrix build => exact s.reset_reset

theorem after_reset (history : List (Σ β, Operation β)) : (s.after history).reset = s.reset := by
  induction history generalizing s with
  | nil => rfl
  | cons operation history ih =>
    rw [after, ih]
    exact s.perform_reset operation.2

end Preservation

section Congruence

variable {σ ε : Type} {d : Draft} {s t : Scheme}

theorem automaton_reset_eq (h : s.reset = t.reset) : s.automaton.reset = t.automaton.reset :=
  congrArg Scheme.automaton h

theorem limit_eq (h : s.reset = t.reset) : s.limit = t.limit := by
  calc
    s.limit = s.reset.limit := rfl
    _ = t.reset.limit := by rw [h]

theorem assignText_eq (hd : d.WellFormed) (hs : s.automaton.Valued d) (ht : t.automaton.Valued d)
    (bits : String) : s.automaton.assignText bits = t.automaton.assignText bits := by
  unfold Automaton.assignText
  rw [hs.conditionalCount_eq, ht.conditionalCount_eq]
  cases hparse : ConditionVector.parse bits (d.conditionals d.size) with
  | error e => rfl
  | ok v => exact congrArg Except.ok (hs.assign_eq hd ht (ConditionVector.length_of_parse hparse))

theorem runWith_eq (hd : d.WellFormed) (hs : s.automaton.Valued d) (ht : t.automaton.Valued d)
    (bits : String) (verbose : Bool) : (s.runWith bits verbose).1 = (t.runWith bits verbose).1 := by
  unfold runWith
  rw [assignText_eq hd hs ht bits]
  split <;> rfl

theorem loopsUnder_eq (hd : d.WellFormed) (hs : s.automaton.Valued d) (ht : t.automaton.Valued d)
    (bits : String) : (s.loopsUnder bits).1 = (t.loopsUnder bits).1 := by
  unfold loopsUnder runWith
  rw [assignText_eq hd hs ht bits]
  cases t.automaton.assignText bits with
  | error e => rfl
  | ok a =>
    simp only
    cases a.run false <;> rfl

theorem forEachVector_congr (hd : d.WellFormed) (hs : s.automaton.Valued d) (ht : t.automaton.Valued d)
    (hlimit : s.limit = t.limit) (visit : σ → ConditionVector → Trace → ForInStep σ) (state : σ)
    : (s.forEachVector visit state).1 = (t.forEachVector visit state).1 ∧
        (s.forEachVector visit state).2.2 = (t.forEachVector visit state).2.2 := by
  have hcount : s.conditionalCount = t.conditionalCount :=
    hs.conditionalCount_eq.trans ht.conditionalCount_eq.symm
  unfold forEachVector
  simp only [hcount, hlimit, visitMasks_eq visit hd hs, visitMasks_eq visit hd ht]
  split <;> exact ⟨rfl, rfl⟩

theorem findLoops_congr (hd : d.WellFormed) (hs : s.automaton.Valued d) (ht : t.automaton.Valued d)
    (h : s.reset = t.reset) : s.findLoops.1 = t.findLoops.1 := by
  unfold findLoops
  rw [Loop.ofPath_congr (automaton_reset_eq h)]
  obtain ⟨hresult, hreport⟩ := forEachVector_congr hd hs ht (limit_eq h)
    (fun report v trace => .yield (report.record v (Loop.ofPath t.automaton trace.path))) ({} : LoopReport)
  simp only [hresult, hreport]

theorem listTokens_congr (h : s.reset = t.reset) : s.listTokens = t.listTokens := by
  have hautomaton := automaton_reset_eq h
  have htokens : s.automaton.tokens = t.automaton.tokens := by
    calc
      s.automaton.tokens = s.automaton.reset.tokens := rfl
      _ = t.automaton.reset.tokens := by rw [hautomaton]
  have hline : tokenLine s.automaton = tokenLine t.automaton := by
    funext position text
    rw [← tokenLine_reset s.automaton, hautomaton, tokenLine_reset]
  unfold listTokens
  simp only [htokens, hline]

/--
Two schemes that differ in values only give the same results, except to a plain run.
-/
theorem perform_congr {β : Type} (hd : d.WellFormed) (hs : s.automaton.Valued d) (ht : t.automaton.Valued d)
    (h : s.reset = t.reset) (operation : Operation β) (hreads : operation.readsValues = false)
    : (operation.perform s).1 = (operation.perform t).1 := by
  have hautomaton := automaton_reset_eq h
  have hlimit := limit_eq h
  cases operation with
  | run => contradiction
  | runWith bits verbose => exact runWith_eq hd hs ht bits verbose
  | runAsking oracle verbose state =>
    simp only [Operation.perform, runAsking, Automaton.runAsking_congr verbose state hautomaton]
  | reset => rfl
  | loopsUnder bits => exact loopsUnder_eq hd hs ht bits
  | findLoops => exact findLoops_congr hd hs ht h
  | forEachVector visit state =>
    obtain ⟨hresult, hstate⟩ := forEachVector_congr hd hs ht hlimit visit state
    simp only [Operation.perform, hresult, hstate]
  | listTokens => exact listTokens_congr h
  | listLoops =>
    simp only [Operation.perform, listLoops, findLoops_congr hd hs ht h]
  | listResults =>
    obtain ⟨hresult, hstate⟩ := forEachVector_congr hd hs ht hlimit
      (fun lines v trace => .yield (lines ++ resultLine v trace)) ""
    simp only [Operation.perform, listResults, hresult, hstate]
  | matrix build =>
    simp only [Operation.perform, matrix, Automaton.matrix, hautomaton]
  | unreachable => exact unreachable_eq hd hs ht

end Congruence

theorem reset_of_parse {settings : Settings} {text : String} {s : Scheme}
    (h : parse settings text = .ok s) : s.reset = s := by
  obtain ⟨_, _, _, _, hreset⟩ := exists_of_parse h
  unfold reset
  rw [hreset]

/--
Whatever was done with a scheme, it is the parsed one but for the values of conditions, and only a plain run
can tell the difference.
-/
theorem perform_after {settings : Settings} {text : String} {s : Scheme}
    (h : parse settings text = .ok s) (history : List (Σ β, Operation β))
    : (s.after history).reset = s ∧
        (s.after history).lexemes = s.lexemes ∧ (s.after history).warnings = s.warnings ∧
        (s.after history).maxConditionals = s.maxConditionals ∧
        (s.after history).automaton.tokens = s.automaton.tokens ∧
        (s.after history).automaton.source = s.automaton.source ∧
        (s.after history).automaton.jumpPoints = s.automaton.jumpPoints ∧
        (∀ r, (s.after history).automaton.element? r =
          (s.automaton.element? r).map (.setValue ((s.after history).automaton.value? r))) ∧
        ∀ {β : Type} (operation : Operation β), operation.readsValues = false →
          (operation.perform (s.after history)).1 = (operation.perform s).1 := by
  have hreset : (s.after history).reset = s := (s.after_reset history).trans (reset_of_parse h)
  have hsame : (s.after history).reset = s.reset := s.after_reset history
  obtain ⟨d, hd, hs, _⟩ := (accepted_of_parse h).exists_draft
  have ht : (s.after history).automaton.Valued d := (automaton_reset_eq hsame).trans hs
  refine ⟨hreset, congrArg (·.lexemes) hreset, congrArg (·.warnings) hreset,
    congrArg (·.maxConditionals) hreset, congrArg (·.automaton.tokens) hreset,
    congrArg (·.automaton.source) hreset, congrArg (·.automaton.jumpPoints) hreset, ?_, ?_⟩
  . exact Automaton.element?_of_reset_eq (automaton_reset_eq hsame)
  . intro β operation hreads
    exact perform_congr hd ht hs hsame operation hreads

theorem after_loopingScheme
    : ∃ s, parse {} loopingText = .ok s ∧
        (s.after [⟨_, .runWith "1" true⟩, ⟨_, .loopsUnder "x"⟩]).reset = s ∧
        ((Operation.runWith "0" false).perform (s.after [⟨_, .runWith "1" true⟩, ⟨_, .loopsUnder "x"⟩])).1 =
          ((Operation.runWith "0" false).perform s).1 := by
  obtain ⟨s, _, _, _, hparse⟩ := parse_eq parse_loopingText {}
  rw [if_neg fun h => Bool.false_ne_true h.left] at hparse
  obtain ⟨hreset, _, _, _, _, _, _, _, hperform⟩ :=
    perform_after hparse [⟨_, .runWith "1" true⟩, ⟨_, .loopsUnder "x"⟩]
  exact ⟨s, hparse, hreset, hperform (.runWith "0" false) rfl⟩

end Scheme

end LogicalScheme
