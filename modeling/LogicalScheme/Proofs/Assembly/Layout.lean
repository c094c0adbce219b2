import LogicalScheme.Proofs.Assembly.Vertex

/-!
This module shows that the assembly of a draft comes out as its layout. The descent into the branches
of conditional vertices visits the lexemes in order and links neighbours only.
-/

namespace LogicalScheme

namespace Assembly

variable {d : Draft} {s s' : Assembly} {cursor : Nat} {t : Token}

theorem Steps.of_add {kind : Kind} (hs : At d s cursor) (hlookup : s.ahead.lookup cursor = none)
    (ht : d.token? cursor = some t) (hstart : t ≠ .start) (hpoint : ∀ index, t ≠ .jumpPoint index)
    (hconditional : t.isConditional = false) (hkind : d.kind cursor = kind)
    : Steps d s cursor (some (s.add d kind cursor).1) (s.add d kind cursor).2 (cursor + 1) := by
  have hmade := hs.made_of_lookup hlookup
  obtain ⟨href, hgrown⟩ := add_grown hmade ht hstart hpoint hconditional
  rw [hkind] at href hgrown
  rw [href]
  exact .of_grown hs hlookup ht hstart hconditional hgrown

theorem Steps.of_addJumpPoint {index : UInt32} (hs : At d s cursor)
    (hlookup : s.ahead.lookup cursor = none) (ht : d.token? cursor = some (.jumpPoint index))
    : Steps d s cursor (some (s.addJumpPoint d index cursor).1) (s.addJumpPoint d index cursor).2
        (cursor + 1) := by
  have hmade := hs.made_of_lookup hlookup
  obtain ⟨href, hgrown⟩ := addJumpPoint_grown hmade ht
  rw [href]
  exact .of_grown hs hlookup ht (by simp) rfl hgrown

/-
The cases follow the mutual recursion of the assembly, and so does the measure. A branch starts behind
its vertex, so the descent into a branch moves the cursor on.
-/
mutual

theorem element_steps {d : Draft} {s : Assembly} {cursor : Nat} (hs : At d s cursor)
    (h : cursor < d.size)
    : Steps d s cursor (element d s cursor h).1 (element d s cursor h).2.1
        (element d s cursor h).2.2.val := by
  have ht := d.token?_of_lt h
  have hkind := Draft.kind_of_token? ht
  rw [element.eq_def]
  cases hlookup : s.ahead.lookup cursor with
  | some r => exact .of_ahead hs hlookup
  | none =>
    dsimp only
    split
    . next htoken =>
      rw [htoken] at ht
      exact .of_start hs ht
    . next htoken =>
      rw [htoken] at ht hkind
      exact .of_add hs hlookup ht (by simp) (by simp) rfl hkind
    . next htoken =>
      rw [htoken] at ht hkind
      exact .of_add hs hlookup ht (by simp) (by simp) rfl hkind
    . next htoken =>
      rw [htoken] at ht
      exact .of_addJumpPoint hs hlookup ht
    . next htoken =>
      rw [htoken] at ht hkind
      exact .of_add hs hlookup ht (by simp) (by simp) rfl hkind
    . next htoken =>
      rw [htoken] at ht hkind
      exact .of_add hs hlookup ht (by simp) (by simp) rfl hkind
    . next htoken =>
      rw [htoken] at ht
      exact conditional_steps hs h ht
termination_by (d.size - cursor, 1)

theorem conditional_steps {d : Draft} {s : Assembly} {cursor : Nat} {letter : Letter}
    {number : UInt32} (hs : At d s cursor) (h : cursor < d.size)
    (ht : d.token? cursor = some (.conditional letter number))
    : Steps d s cursor (some (conditional d s cursor h).1) (conditional d s cursor h).2.1
        (conditional d s cursor h).2.2.val := by
  have hlookup := hs.lookup_of_not_closes ht rfl
  have hsize := hs.size hlookup
  have hopen := Opened.of_branchJump hs h ht
  generalize hjump : branchJump d (addVertex d s cursor) cursor h = result at hopen
  obtain ⟨whenTrue, s₁, first, hfirst⟩ := result
  unfold addVertex at hjump
  rw [conditional.eq_def]
  dsimp only [add] at hjump hopen ⊢
  rw [hjump]
  obtain ⟨s₂, hautomaton, hclose⟩ := branch_closes hs ht hopen hfirst.right
  rw [hsize]
  exact .of_opened hs ht hopen hautomaton hclose
termination_by (d.size - cursor, 0)

theorem branch_closes {d : Draft} {s s₁ : Assembly} {cursor first : Nat} {letter : Letter}
    {number : UInt32} {whenTrue : Option ElementRef} (hs : At d s cursor)
    (ht : d.token? cursor = some (.conditional letter number))
    (hopen : Opened d s cursor whenTrue s₁ first) (h : first ≤ d.size)
    : ∃ s₂ : Assembly, s₂.automaton = s₁.automaton ∧
        Closes d (d.ref first) s₂ first none (branch d s₁ first h (d.ref cursor)).1
          (branch d s₁ first h (d.ref cursor)).2.1 (branch d s₁ first h (d.ref cursor)).2.2.val := by
  rw [branch.eq_def]
  split
  . next hempty => exact ⟨_, rfl, .of_empty hopen hs ht hempty⟩
  . next hnonempty =>
    have hreports : d.branchReports cursor = [] := by
      simp [Draft.branchReports, ← hopen.start, hnonempty]
    have hinvariant : At d s₁ first := hopen.invariant hs ht (by rw [hreports, List.append_nil])
    refine ⟨s₁, rfl, branchFrom_closes _ _ _ hinvariant h ?_ ?_ ?_ hopen.complete⟩
    . intro _
      rw [hopen.source hs ht]
    . intro q hq
      contradiction
    . exact Nat.le_of_eq hopen.made.size.symm
termination_by (d.size - first, 3)

theorem branchFrom_closes {d : Draft} {s : Assembly} {cursor : Nat} (base : Nat)
    (head previous : Option ElementRef) (hs : At d s cursor) (h : cursor ≤ d.size)
    (hprevious : cursor < d.size → previous = s.source d cursor)
    (hbase : ∀ q, previous = some q → base ≤ q) (hle : base ≤ s.automaton.elements.size)
    (hcomplete : s.automaton.Complete d base)
    : Closes d base s cursor head (branchFrom d s cursor h head previous).1
        (branchFrom d s cursor h head previous).2.1
        (branchFrom d s cursor h head previous).2.2.val := by
  rw [branchFrom.eq_def]
  split
  . next hcursor =>
    have ht := d.token?_of_lt hcursor
    have hsteps := element_steps hs hcursor
    dsimp only
    split
    . next hcloses =>
      obtain ⟨r, s', hterminator, hclose⟩ := Closes.of_terminator head hs ht hcloses
        (hprevious hcursor) hbase hle hcomplete
      rw [hterminator]
      exact hclose
    . next hopen =>
      have hlookup := hs.lookup_of_not_closes ht (by simpa using hopen)
      generalize element d s cursor hcursor = result at hsteps ⊢
      obtain ⟨r?, s', next, hnext⟩ := result
      dsimp only at hsteps ⊢
      cases r? with
      | none =>
        dsimp only
        split
        . next hjump =>
          have hmakes := hsteps.result_eq_none
          rw [hjump] at ht
          rw [Draft.makes_of_token? ht (by simp)] at hmakes
          contradiction
        . next hjump =>
          simp only [Bool.false_eq_true, ↓reduceIte]
          have hpassed := hsteps.passed (Or.inl rfl)
          apply hsteps.closes_of_none hs hlookup hnext.left
          apply branchFrom_closes base head previous hsteps.invariant hnext.right
          . intro hlt
            rw [hsteps.source_eq_none hlt]
            exact hprevious hcursor
          . exact hbase
          . rw [hpassed]
            exact hle
          . rw [hpassed]
            exact hcomplete
      | some r =>
        obtain ⟨hmakes, hr⟩ := hsteps.result_eq_some
        subst hr
        have hhead := head_of_makes ht hmakes (by simpa using hopen)
        obtain ⟨a, hlink, hinvariant, hagree, hcomplete', hlt⟩ := hsteps.link hs hlookup
          (hprevious hcursor) hbase hle hcomplete hnext.left
        have hsize := hs.size hlookup
        dsimp only
        split
        . next hjump =>
          simp only [↓reduceIte]
          rw [hlink]
          rw [hjump] at ht
          exact .of_jump hsteps ht hhead hinvariant hagree hcomplete'
        . next hjump =>
          simp only [Bool.false_eq_true, ↓reduceIte]
          have hfalls : fallsThrough { s' with automaton := a } (d.ref cursor) =
              d.through (d.ref cursor) := by
            apply fallsThrough_eq hcomplete'
            . omega
            . exact hlt
          rw [hlink, hfalls]
          have hlinked : Automaton.Agree base s.automaton
              ({ s' with automaton := a } : Assembly).automaton := hagree
          apply Closes.of_linked hhead hlinked
          apply branchFrom_closes base _ _ hinvariant hnext.right
          . intro hlt
            exact (hsteps.source_eq_some hlt).symm
          . intro q hq
            have := (Draft.through_eq_some hq).left
            omega
          . apply Nat.le_of_lt
            exact Nat.lt_of_le_of_lt (by omega) hlt
          . exact hcomplete'
  . next hend =>
    have heq : cursor = d.size := by omega
    constructor
    . exact hs
    . apply Automaton.Agree.refl
    . exact hcomplete
    . rw [Draft.head_ref_of_size_le (by omega)]
      simp
    . intro hlt
      contradiction
termination_by (d.size - cursor, 2)

end

theorem Steps.link_any {next : Nat} {previous : Option ElementRef} {r : ElementRef}
    (hsteps : Steps d s cursor (some r) s' next) (hs : At d s cursor)
    (hprevious : previous = s.source d cursor) (hcomplete : s.automaton.Complete d 0)
    (hnext : cursor < next)
    : ∃ a, s'.linkFrom d previous r = { s' with automaton := a } ∧
        At d { s' with automaton := a } next ∧ a.Complete d 0 ∧ d.ref cursor < a.elements.size ∧
        fallsThrough { s' with automaton := a } r = d.through (d.ref cursor) := by
  obtain ⟨hmakes, hr⟩ := hsteps.result_eq_some
  subst hr
  cases hlookup : s.ahead.lookup cursor with
  | some r =>
    -- the element was made ahead and linked where the branch closed
    have hpassed := hsteps.passed (Or.inr (by rw [hlookup]; rfl))
    subst hpassed
    have hsize : d.ref cursor < s'.automaton.elements.size := by
      rw [hs.made.size, reach_of_lookup_eq_some hlookup, Draft.ref_succ_of_makes hmakes]
      omega
    rw [hprevious, source_of_lookup_eq_some hlookup]
    exact ⟨s'.automaton, rfl, hsteps.invariant, hcomplete, hsize,
      fallsThrough_eq hcomplete (Nat.zero_le _) hsize⟩
  | none =>
    obtain ⟨a, hlink, hinvariant, _, hcomplete', hlt⟩ := hsteps.link hs hlookup hprevious
      (fun q _ => Nat.zero_le q) (Nat.zero_le _) hcomplete hnext
    refine ⟨a, hlink, hinvariant, hcomplete', hlt, ?_⟩
    exact fallsThrough_eq (s := { s' with automaton := a }) hcomplete' (Nat.zero_le _) hlt

theorem elements_complete {s : Assembly} {cursor : Nat} {previous : Option ElementRef}
    (hs : At d s cursor) (hle : cursor ≤ d.size)
    (hprevious : cursor < d.size → previous = s.source d cursor)
    (hcomplete : s.automaton.Complete d 0)
    : At d (elements d s cursor previous) d.size ∧
        (elements d s cursor previous).automaton.Complete d 0 := by
  rw [elements.eq_def]
  split
  . next hcursor =>
    have hsteps := element_steps hs hcursor
    generalize element d s cursor hcursor = result at hsteps ⊢
    obtain ⟨r?, s', next, hnext⟩ := result
    dsimp only at hsteps ⊢
    cases r? with
    | none =>
      have hpassed := hsteps.passed (Or.inl rfl)
      subst hpassed
      apply elements_complete hsteps.invariant hnext.right
      . intro hlt
        rw [hsteps.source_eq_none hlt]
        exact hprevious hcursor
      . exact hcomplete
    | some r =>
      obtain ⟨a, hlink, hinvariant, hcomplete', _, hfalls⟩ := hsteps.link_any hs
        (hprevious hcursor) hcomplete hnext.left
      dsimp only
      rw [hlink, hfalls]
      apply elements_complete hinvariant hnext.right
      . intro hlt
        exact (hsteps.source_eq_some hlt).symm
      . exact hcomplete'
  . next hend =>
    have heq : cursor = d.size := by omega
    subst heq
    exact ⟨hs, hcomplete⟩
termination_by d.size - cursor

def initial (d : Draft) : Assembly :=
  let automaton : Automaton :=
    { tokens := d.lexemes.toList.map (·.text), source := d.source }
  { automaton := automaton.add ⟨Token.start.text⟩ .start 0
    diagnostics := d.markerReports.toArray }

theorem initial_made (d : Draft) : (initial d).automaton.Made d 0 where
  tokens := rfl
  source := rfl
  size := rfl
  jumpPoints := rfl
  placed := by
    intro p hp
    omega

theorem initial_complete (d : Draft) : (initial d).automaton.Complete d 0 := by
  intro r _ hlt
  have hzero : r = 0 := Nat.lt_one_iff.mp hlt
  subst hzero
  rfl

theorem initial_at (d : Draft) (cursor : Nat) (hmade : (initial d).automaton.Made d cursor)
    (hconditionals : d.conditionals cursor = 0) (hreported : d.reports cursor = d.markerReports)
    : At d (initial d) cursor := by
  constructor
  . exact hmade
  . exact hconditionals.symm
  . have hreach : (initial d).reach cursor = cursor := rfl
    rw [hreach, hreported]
    rfl
  . intro p r hlookup
    contradiction

theorem initial_source (d : Draft) {cursor : Nat} (href : d.ref cursor = 1)
    : some 0 = (initial d).source d cursor := by
  rw [source_of_lookup_eq_none rfl, href]
  rfl

def entry (d : Draft) : Nat :=
  if d.token? 0 = some .start then 1 else 0

theorem ofDraft_eq (d : Draft) : ofDraft d = elements d (initial d) (entry d) (some 0) := by
  unfold ofDraft initial Draft.markerReports entry
  cases hfinish : d.lexemes.any (·.token == .finish) with
  | true =>
    split
    . simp
    . simp [report]
  | false =>
    split
    . simp [report]
    . simp [report]

theorem initial_entry (d : Draft)
    : At d (initial d) (entry d) ∧ entry d ≤ d.size ∧ some 0 = (initial d).source d (entry d) := by
  unfold entry
  split
  . next hstart =>
    have hmakes := Draft.makes_eq_false_of_start hstart
    refine ⟨?_, d.lt_size_of_token? hstart, ?_⟩
    . apply initial_at
      . exact (initial_made d).skip hstart
      . rw [Draft.conditionals_succ_of_not_conditional hstart rfl]
        rfl
      . rw [Draft.reports_succ]
        simp [Draft.reportsAt, hstart, Draft.reports]
    . apply initial_source
      rw [Draft.ref_succ_of_not_makes hmakes]
      rfl
  . refine ⟨?_, Nat.zero_le _, initial_source d rfl⟩
    apply initial_at
    . exact initial_made d
    . rfl
    . simp [Draft.reports]

theorem ofDraft_complete (d : Draft)
    : At d (ofDraft d) d.size ∧ (ofDraft d).automaton.Complete d 0 := by
  obtain ⟨hinvariant, hle, hsource⟩ := initial_entry d
  rw [ofDraft_eq]
  exact elements_complete hinvariant hle (fun _ => hsource) (initial_complete d)

theorem ofDraft_reach (d : Draft) : (ofDraft d).reach d.size = d.size := by
  apply reach_of_lookup_eq_none
  apply (ofDraft_complete d).left.lookup_of_not_closesBranch
  rw [d.token?_eq_none (Nat.le_refl _)]
  rfl

theorem ofDraft_automaton (d : Draft) : (ofDraft d).automaton = d.layout := by
  obtain ⟨hinvariant, hcomplete⟩ := ofDraft_complete d
  have hmade := hinvariant.made
  rw [ofDraft_reach] at hmade
  have hsize : (ofDraft d).automaton.elements.size = d.count := by
    rw [hmade.size, d.ref_size]
  have helements : (ofDraft d).automaton.elements = (d.entries d.count).toArray := by
    apply Array.ext_getElem?
    intro r
    have hentries : (d.entries d.count).toArray[r]? = (d.entries d.count)[r]? := by
      apply List.getElem?_toArray
    rw [hentries]
    cases Nat.lt_or_ge r d.count with
    | inl hlt =>
      have helement := hcomplete r (Nat.zero_le r) (by omega)
      rw [hsize] at helement
      exact helement
    | inr hge =>
      rw [Array.getElem?_eq_none (by omega), List.getElem?_eq_none]
      rw [d.length_entries]
      exact hge
  generalize (ofDraft d).automaton = a at *
  cases a
  simp only [Draft.layout, Automaton.mk.injEq]
  exact ⟨hmade.tokens, hmade.source, helements, hmade.jumpPoints⟩

theorem ofDraft_diagnostics (d : Draft) : (ofDraft d).diagnostics.toList = d.reports d.size := by
  have hreported := (ofDraft_complete d).left.reported
  rw [ofDraft_reach] at hreported
  exact hreported

end Assembly

end LogicalScheme
