import LogicalScheme.Proofs.Assembly.Progress

/-!
This module contains the assembly of a conditional vertex around that of its branch when false.
-/

namespace LogicalScheme

namespace Assembly

variable {d : Draft} {s s' : Assembly} {cursor : Nat}

/--
The conditional vertex at `vertex` is there with the jump behind it, but without its branches. The
branch when false is about to be assembled.
-/
structure Opened (d : Draft) (s : Assembly) (vertex : Nat) (whenTrue : Option ElementRef)
    (s' : Assembly) (next : Nat) : Prop where
  start : next = d.branchStart vertex
  branch : whenTrue = (d.conditional vertex).whenTrue
  ahead : s'.ahead = s.ahead
  conditionals : s'.conditionals = d.conditionals next
  reported : s'.diagnostics.toList = d.reports vertex ++ d.jumpReports vertex
  made : s'.automaton.Made d next
  agree : Automaton.Agree s.automaton.elements.size s.automaton s'.automaton
  element : s'.automaton.element? (d.ref vertex) =
    some
      { name := d.name vertex
        kind := .conditional { index := d.conditionals vertex + 1 }
        position := vertex }
  jump : s'.automaton.Complete d (d.ref vertex + 1)

def addVertex (d : Draft) (s : Assembly) (cursor : Nat) : Assembly :=
  let index := s.conditionals + 1
  (add { s with conditionals := index } d (.conditional { index }) cursor).2

section Jump

variable {letter : Letter} {number : UInt32}

theorem addVertex_reported (hs : At d s cursor) (hlookup : s.ahead.lookup cursor = none)
    : (addVertex d s cursor).diagnostics.toList = d.reports cursor :=
  hs.reported_of_lookup hlookup

theorem addVertex_conditionals (hs : At d s cursor)
    (ht : d.token? cursor = some (.conditional letter number))
    : (addVertex d s cursor).conditionals = d.conditionals (cursor + 1) := by
  rw [Draft.conditionals_succ_of_conditional ht, ← hs.conditionals]
  rfl

theorem addVertex_made (hs : At d s cursor)
    (ht : d.token? cursor = some (.conditional letter number))
    : (addVertex d s cursor).automaton.Made d (cursor + 1) := by
  have hmade := hs.made_of_lookup (hs.lookup_of_not_closes ht rfl)
  apply hmade.add ht (by simp) (by simp)

theorem addVertex_agree (d : Draft) (s : Assembly) (cursor : Nat)
    : Automaton.Agree s.automaton.elements.size s.automaton (addVertex d s cursor).automaton := by
  apply Automaton.Agree.add

theorem addVertex_element? (hs : At d s cursor) (hlookup : s.ahead.lookup cursor = none)
    : (addVertex d s cursor).automaton.element? (d.ref cursor) =
        some
          { name := d.name cursor
            kind := .conditional { index := d.conditionals cursor + 1 }
            position := cursor } := by
  rw [← hs.size hlookup, ← hs.conditionals]
  apply Automaton.element?_add_size

theorem Opened.of_jump {index : UInt32} (hs : At d s cursor)
    (ht : d.token? cursor = some (.conditional letter number))
    (hjump : d.token? (cursor + 1) = some (.conditionalJump index))
    : Opened d s cursor (some (add (addVertex d s cursor) d (.jump index false) (cursor + 1)).1)
        (add (addVertex d s cursor) d (.jump index false) (cursor + 1)).2 (cursor + 2) := by
  have hlookup := hs.lookup_of_not_closes ht rfl
  have hmakes : d.makes cursor = true := Draft.makes_of_token? ht (by simp)
  have hmakes' : d.makes (cursor + 1) = true := Draft.makes_of_token? hjump (by simp)
  have hjumps : (d.token? (cursor + 1)).any (·.isConditionalJump) = true := by
    simp [hjump, Token.isConditionalJump]
  have hsize : (addVertex d s cursor).automaton.elements.size = d.ref cursor + 1 := by
    rw [(addVertex_made hs ht).size, Draft.ref_succ_of_makes hmakes]
  have hkind : d.kind (cursor + 1) = .jump index false := by
    simp [Draft.kind, hjump, Token.kind]
  obtain ⟨href, hgrown⟩ := add_grown (addVertex_made hs ht) hjump (by simp) (by simp) rfl
  rw [hkind] at href hgrown
  constructor
  . simp [Draft.branchStart, hjumps]
  . simp only [Draft.conditional, hjumps, href, Draft.ref_succ_of_makes hmakes]
    rfl
  . exact hgrown.ahead
  . rw [hgrown.conditionals, addVertex_conditionals hs ht]
    rw [Draft.conditionals_succ_of_not_conditional hjump rfl]
  . rw [hgrown.reported, addVertex_reported hs hlookup]
    simp [Draft.reportsAt, hjump, Draft.jumpReports, Token.isConditionalJump]
  . exact hgrown.made
  . apply (addVertex_agree d s cursor).trans
    apply hgrown.agree.mono
    rw [hsize, hs.size hlookup]
    omega
  . rw [hgrown.agree _ (by omega)]
    exact addVertex_element? hs hlookup
  . rw [← Draft.ref_succ_of_makes hmakes]
    exact hgrown.complete hmakes'

theorem Opened.of_missing (hs : At d s cursor)
    (ht : d.token? cursor = some (.conditional letter number))
    (hjumps : (d.token? (cursor + 1)).any (·.isConditionalJump) = false)
    : Opened d s cursor none
        ((addVertex d s cursor).report (d.missingBranchJump cursor (cursor + 1))) (cursor + 1) := by
  have hlookup := hs.lookup_of_not_closes ht rfl
  have hmakes : d.makes cursor = true := Draft.makes_of_token? ht (by simp)
  constructor
  . simp [Draft.branchStart, hjumps]
  . simp [Draft.conditional, hjumps]
  . rfl
  . exact addVertex_conditionals hs ht
  . simp [report, addVertex_reported hs hlookup, Draft.jumpReports, hjumps]
  . exact addVertex_made hs ht
  . exact addVertex_agree d s cursor
  . exact addVertex_element? hs hlookup
  . intro r hr hlt
    have hsize := (addVertex_made hs ht).size
    rw [Draft.ref_succ_of_makes hmakes] at hsize
    simp only [report] at hlt
    omega

theorem Opened.of_branchJump (hs : At d s cursor) (h : cursor < d.size)
    (ht : d.token? cursor = some (.conditional letter number))
    : Opened d s cursor (branchJump d (addVertex d s cursor) cursor h).1
        (branchJump d (addVertex d s cursor) cursor h).2.1
        (branchJump d (addVertex d s cursor) cursor h).2.2.val := by
  unfold branchJump
  split
  . next index hjump => exact .of_jump hs ht hjump
  . next hnot =>
    apply Opened.of_missing hs ht
    cases hnext : d.token? (cursor + 1) with
    | none => rfl
    | some t =>
      cases t with
      | conditionalJump index => exact absurd hnext (hnot index)
      | _ => rfl

end Jump

section Vertex

variable {letter : Letter} {number : UInt32} {whenTrue whenFalse : Option ElementRef} {next : Nat}

theorem ref_branchStart (ht : d.token? cursor = some (.conditional letter number))
    : d.ref (d.branchStart cursor) =
        if (d.token? (cursor + 1)).any (·.isConditionalJump) then d.ref cursor + 2
        else d.ref cursor + 1 := by
  have hmakes : d.makes cursor = true := Draft.makes_of_token? ht (by simp)
  unfold Draft.branchStart
  cases hjump : d.token? (cursor + 1) with
  | none => simp [Draft.ref_succ_of_makes hmakes]
  | some t =>
    cases t with
    | conditionalJump index =>
      have hmakes' : d.makes (cursor + 1) = true := Draft.makes_of_token? hjump (by simp)
      simp [Token.isConditionalJump, Draft.ref_succ_of_makes hmakes',
        Draft.ref_succ_of_makes hmakes]
    | _ => simp [Token.isConditionalJump, Draft.ref_succ_of_makes hmakes]

theorem whenFalse_eq_head (ht : d.token? cursor = some (.conditional letter number))
    : (d.conditional cursor).whenFalse = d.head (d.ref (d.branchStart cursor)) := by
  rw [ref_branchStart ht]
  unfold Draft.conditional
  split
  . next hjump => simp [hjump]
  . next hjump => simp [hjump]

theorem through_vertex (ht : d.token? cursor = some (.conditional letter number)) {r : Nat}
    (hle : d.ref cursor ≤ r) (hlt : r < d.ref (d.branchStart cursor)) : d.through r = none := by
  have hmakes : d.makes cursor = true := Draft.makes_of_token? ht (by simp)
  rw [ref_branchStart ht] at hlt
  by_cases heq : r = d.ref cursor
  . rw [heq, Draft.through_ref hmakes]
    simp [Draft.kind, ht, Token.kind, Kind.fallsThrough]
  . cases hjump : d.token? (cursor + 1) with
    | none =>
      simp [hjump] at hlt
      omega
    | some t =>
      cases t with
      | conditionalJump index =>
        have hmakes' : d.makes (cursor + 1) = true := Draft.makes_of_token? hjump (by simp)
        have hr : r = d.ref (cursor + 1) := by
          rw [Draft.ref_succ_of_makes hmakes]
          simp [hjump, Token.isConditionalJump] at hlt
          omega
        rw [hr, Draft.through_ref hmakes']
        simp [Draft.kind, hjump, Token.kind, Kind.fallsThrough]
      | _ =>
        simp [hjump, Token.isConditionalJump] at hlt
        omega

theorem reports_branchStart (ht : d.token? cursor = some (.conditional letter number))
    : d.reports (d.branchStart cursor) =
        d.reports cursor ++ d.jumpReports cursor ++ d.branchReports cursor := by
  have hreports : d.reports (cursor + 1) =
      d.reports cursor ++ d.jumpReports cursor ++ d.branchReports cursor := by
    rw [Draft.reports_succ]
    simp [Draft.reportsAt, ht]
  cases hjump : d.token? (cursor + 1) with
  | none =>
    simp [Draft.branchStart, hjump, hreports]
  | some t =>
    cases t with
    | conditionalJump index =>
      simp [Draft.branchStart, hjump, Token.isConditionalJump, hreports, Draft.reports_succ,
        Draft.reportsAt]
    | _ => simp [Draft.branchStart, hjump, Token.isConditionalJump, hreports]

theorem Opened.lt (hopen : Opened d s cursor whenTrue s' next) : cursor < next := by
  rw [hopen.start]
  unfold Draft.branchStart
  split <;> omega

theorem Opened.ref_lt (hopen : Opened d s cursor whenTrue s' next)
    (ht : d.token? cursor = some (.conditional letter number)) : d.ref cursor < d.ref next := by
  rw [hopen.start, ref_branchStart ht]
  split <;> omega

theorem Opened.lookup (hopen : Opened d s cursor whenTrue s' next) (hs : At d s cursor)
    : s'.ahead.lookup next = none := by
  rw [hopen.ahead]
  exact hs.lookup_of_lt hopen.lt

theorem Opened.source (hopen : Opened d s cursor whenTrue s' next) (hs : At d s cursor)
    (ht : d.token? cursor = some (.conditional letter number)) : s'.source d next = none := by
  have hlt := hopen.ref_lt ht
  rw [source_of_lookup_eq_none (hopen.lookup hs)]
  apply through_vertex ht
  . omega
  . rw [← hopen.start]
    omega

theorem Opened.complete (hopen : Opened d s cursor whenTrue s' next)
    : s'.automaton.Complete d (d.ref next) := by
  intro r hr hlt
  rw [hopen.made.size] at hlt
  omega

theorem Opened.invariant (hopen : Opened d s cursor whenTrue s' next) (hs : At d s cursor)
    (ht : d.token? cursor = some (.conditional letter number)) {diagnostics : Array Diagnostic}
    (hdiagnostics : diagnostics.toList = s'.diagnostics.toList ++ d.branchReports cursor)
    : At d { s' with diagnostics } next := by
  apply hs.of_made hopen.lt
  . exact hopen.ahead
  . exact hopen.made
  . exact hopen.conditionals
  . rw [hopen.start, reports_branchStart ht, ← hopen.reported]
    exact hdiagnostics

theorem Closes.of_empty (hopen : Opened d s cursor whenTrue s' next) (hs : At d s cursor)
    (ht : d.token? cursor = some (.conditional letter number))
    (hempty : (d.token? next).all (·.closesBranch) = true)
    : Closes d (d.ref next) s' next none none
        (s'.report (s'.emptyBranch d (d.ref cursor) next)) next := by
  have hname : s'.automaton.name (d.ref cursor) = d.name cursor := by
    simp [Automaton.name, hopen.element]
  have hposition : s'.automaton.position (d.ref cursor) = cursor := by
    simp [Automaton.position, hopen.element]
  have hreport : s'.emptyBranch d (d.ref cursor) next = d.emptyBranch cursor next := by
    simp [emptyBranch, Draft.emptyBranch, span, hname, hposition]
  have hreports : d.branchReports cursor = [d.emptyBranch cursor next] := by
    simp [Draft.branchReports, ← hopen.start, hempty]
  rw [hreport]
  constructor
  . apply hopen.invariant hs ht
    simp [hreports]
  . apply Automaton.Agree.refl
  . exact hopen.complete
  . cases hnext : d.token? next with
    | none =>
      rw [Draft.head_ref_of_size_le (d.size_le_of_token? hnext)]
      rfl
    | some t =>
      have hcloses : t.closesBranch = true := by simpa [hnext] using hempty
      rw [Draft.head_ref_of_makes hnext (Token.ne_start_of_closesBranch hcloses), hcloses]
      rfl
  . intro _
    exact hopen.source hs ht

theorem Opened.complete_setBranches {first : Nat} {a : Automaton}
    (hopen : Opened d s cursor whenTrue s' first)
    (ht : d.token? cursor = some (.conditional letter number))
    (hagree : Automaton.Agree (d.ref first) s'.automaton a)
    (hwhenFalse : whenFalse = (d.conditional cursor).whenFalse)
    (hcomplete : a.Complete d (d.ref first))
    : (a.setBranches (d.ref cursor) whenTrue whenFalse).Complete d (d.ref cursor) := by
  have hmakes : d.makes cursor = true := Draft.makes_of_token? ht (by simp)
  have hfirst := hopen.ref_lt ht
  intro r hr hlt
  rw [Automaton.setBranches_size] at hlt ⊢
  -- the vertex gets its branches only now, and what stands behind it was complete before
  by_cases heq : r = d.ref cursor
  . subst heq
    unfold Automaton.setBranches
    rw [Automaton.element?_modify, if_pos rfl, hagree _ hfirst, hopen.element]
    rw [Draft.entries_ref hmakes, hopen.branch, hwhenFalse]
    simp [Draft.element, Draft.kind, ht, Token.kind, Draft.successor, Kind.fallsThrough,
      Element.mapConditional, Kind.mapConditional, Draft.conditional]
  . rw [Automaton.element?_setBranches _ _ _ _ heq]
    cases Nat.lt_or_ge r (d.ref first) with
    | inr hge => exact hcomplete r hge hlt
    | inl hbefore =>
      rw [hagree r hbefore, hopen.jump r (by omega) (by rw [hopen.made.size]; exact hbefore)]
      apply Draft.entries_congr
      left
      apply through_vertex ht hr
      rw [← hopen.start]
      exact hbefore

theorem Steps.of_opened {s₁ s₂ : Assembly} {first : Nat} (hs : At d s cursor)
    (ht : d.token? cursor = some (.conditional letter number))
    (hopen : Opened d s cursor whenTrue s' first) (hautomaton : s₁.automaton = s'.automaton)
    (hclose : Closes d (d.ref first) s₁ first none whenFalse s₂ next)
    : Steps d s cursor (some (d.ref cursor))
        { s₂ with automaton := s₂.automaton.setBranches (d.ref cursor) whenTrue whenFalse }
        next := by
  have hlookup := hs.lookup_of_not_closes ht rfl
  have hmakes : d.makes cursor = true := Draft.makes_of_token? ht (by simp)
  have hsize := hs.size hlookup
  have hfirst := hopen.ref_lt ht
  have hagree : Automaton.Agree (d.ref first) s'.automaton s₂.automaton := by
    rw [← hautomaton]
    exact hclose.agree
  constructor
  . apply hclose.invariant.of_automaton
    apply hclose.invariant.made.setBranches
  . apply (hopen.agree.trans (hagree.mono (by omega))).trans
    rw [hsize]
    apply Automaton.Agree.setBranches
  . rw [hsize]
    apply hopen.complete_setBranches ht hagree _ hclose.complete
    rw [hclose.result, hopen.start, whenFalse_eq_head ht]
    rfl
  . simp [hmakes]
  . intro hpassed
    simp [hlookup] at hpassed
  . intro hnext
    have hsource := hclose.source hnext
    have hthrough : d.through (d.ref cursor) = none := by
      apply through_vertex ht (Nat.le_refl _)
      rw [← hopen.start]
      exact hfirst
    simp only [hmakes, if_true, hthrough]
    exact hsource

end Vertex

end Assembly

end LogicalScheme
