import LogicalScheme.Proofs.Assembly.Layout

/-!
This module contains the links that an assembly makes, in order and each with the automaton that it is
made on. The element that a link starts from has no successor at that time, and every link leads from an
element to the one behind it.
-/

namespace LogicalScheme

structure LinkCall where
  automaton : Automaton
  source : ElementRef
  target : ElementRef

namespace LinkCall

/--
The source is there and has no successor yet.
-/
def Fresh (c : LinkCall) : Prop :=
  c.automaton.Has c.source ∧ c.automaton.next? c.source = none

end LinkCall

namespace Assembly

def linkCalls (s : Assembly) (previous : Option ElementRef) (target : ElementRef) : List LinkCall :=
  match previous with
  | some source => [⟨s.automaton, source, target⟩]
  | none => []

mutual

/--
The links that are made while an element is assembled. The recursion is that of the assembly, which
also gives the states in between.
-/
def elementCalls (d : Draft) (s : Assembly) (cursor : Nat) (h : cursor < d.size) : List LinkCall :=
  match s.ahead.lookup cursor with
  | some _ => []
  | none =>
    match d.lexemes[cursor].token with
    | .conditional _ _ => conditionalCalls d s cursor h
    | _ => []
termination_by (d.size - cursor, 1)

def conditionalCalls (d : Draft) (s : Assembly) (cursor : Nat) (h : cursor < d.size)
    : List LinkCall :=
  let index := s.conditionals + 1
  let (_, s) := { s with conditionals := index }.add d (.conditional { index }) cursor
  let (_, s, ⟨first, _⟩) := branchJump d s cursor h
  branchCalls d s first
termination_by (d.size - cursor, 0)

def branchCalls (d : Draft) (s : Assembly) (cursor : Nat) : List LinkCall :=
  if (d.token? cursor).all (·.closesBranch) then [] else branchFromCalls d s cursor none
termination_by (d.size - cursor, 3)

def branchFromCalls (d : Draft) (s : Assembly) (cursor : Nat) (previous : Option ElementRef)
    : List LinkCall :=
  if hcursor : cursor < d.size then
    let token := d.lexemes[cursor].token
    if token.closesBranch then
      match s.terminator d cursor with
      | (some r, s) => s.linkCalls previous r
      | (none, _) => []
    else
      let inner := elementCalls d s cursor hcursor
      let (r?, s, ⟨next, _⟩) := element d s cursor hcursor
      let (outer, previous, s) :=
        match r? with
        | some r =>
          let linked := s.linkFrom d previous r
          (s.linkCalls previous r, linked.fallsThrough r, linked)
        | none => ([], previous, s)
      if token matches .unconditionalJump _ then
        inner ++ outer
      else
        inner ++ outer ++ branchFromCalls d s next previous
  else
    []
termination_by (d.size - cursor, 2)

end

def elementsCalls (d : Draft) (s : Assembly) (cursor : Nat) (previous : Option ElementRef)
    : List LinkCall :=
  if h : cursor < d.size then
    let inner := elementCalls d s cursor h
    let (r?, s, ⟨next, _⟩) := element d s cursor h
    match r? with
    | some r =>
      let linked := s.linkFrom d previous r
      inner ++ s.linkCalls previous r ++ elementsCalls d linked next (linked.fallsThrough r)
    | none => inner ++ elementsCalls d s next previous
  else
    []
termination_by d.size - cursor

def calls (d : Draft) : List LinkCall :=
  elementsCalls d (initial d) (entry d) (some 0)

/--
The links `cs` are those to the elements from `low` up to `high`, one to each that control falls
through to.
-/
structure Links (d : Draft) (low high : Nat) (cs : List LinkCall) : Prop where
  le : low ≤ high
  fresh : ∀ c ∈ cs, c.Fresh
  nodup : (cs.map (·.source)).Nodup
  mem : ∀ source target,
    (∃ c ∈ cs, c.source = source ∧ c.target = target) ↔
      d.through source = some source ∧ target = source + 1 ∧ low ≤ target ∧ target < high

namespace Links

variable {d : Draft} {low middle high : Nat} {xs ys : List LinkCall}

theorem nil (hle : low ≤ high)
    (h : ∀ target, low ≤ target → target < high → d.through (target - 1) = none)
    : Links d low high [] where
  le := hle
  fresh := by simp
  nodup := .nil
  mem := by
    intro source target
    constructor
    . simp
    . rintro ⟨hthrough, rfl, hlow, hhigh⟩
      have hnone := h _ hlow hhigh
      rw [Nat.add_sub_cancel, hthrough] at hnone
      contradiction

theorem empty (d : Draft) (n : Nat) : Links d n n [] := by
  apply nil (Nat.le_refl n)
  omega

theorem range_of_mem (h : Links d low high xs) {c : LinkCall} (hc : c ∈ xs)
    : low ≤ c.source + 1 ∧ c.source + 1 < high := by
  obtain ⟨_, htarget, hlow, hhigh⟩ := (h.mem c.source c.target).mp ⟨c, hc, rfl, rfl⟩
  rw [htarget] at hlow hhigh
  exact ⟨hlow, hhigh⟩

theorem append (hxs : Links d low middle xs) (hys : Links d middle high ys)
    : Links d low high (xs ++ ys) where
  le := Nat.le_trans hxs.le hys.le
  fresh := by
    intro c hc
    cases List.mem_append.mp hc with
    | inl hc => exact hxs.fresh c hc
    | inr hc => exact hys.fresh c hc
  nodup := by
    rw [List.map_append, List.nodup_append]
    refine ⟨hxs.nodup, hys.nodup, ?_⟩
    intro r hr q hq heq
    obtain ⟨x, hx, rfl⟩ := List.mem_map.mp hr
    obtain ⟨y, hy, rfl⟩ := List.mem_map.mp hq
    have hbelow := (hxs.range_of_mem hx).right
    have habove := (hys.range_of_mem hy).left
    have hlt : x.source < y.source :=
      Nat.lt_of_succ_lt_succ (Nat.lt_of_lt_of_le hbelow habove)
    exact Nat.ne_of_lt hlt heq
  mem := by
    intro source target
    have hx := hxs.mem source target
    have hy := hys.mem source target
    simp only [List.mem_append, or_and_right, exists_or, hx, hy]
    constructor
    . rintro (⟨hthrough, htarget, hge, hlt⟩ | ⟨hthrough, htarget, hge, hlt⟩)
      . exact ⟨hthrough, htarget, hge, Nat.lt_of_lt_of_le hlt hys.le⟩
      . exact ⟨hthrough, htarget, Nat.le_trans hxs.le hge, hlt⟩
    . rintro ⟨hthrough, htarget, hge, hlt⟩
      cases Nat.lt_or_ge target middle with
      | inl hbefore => exact .inl ⟨hthrough, htarget, hge, hbefore⟩
      | inr hbehind => exact .inr ⟨hthrough, htarget, hbehind, hlt⟩

theorem perm (h : Links d low high xs) (hperm : xs.Perm ys) : Links d low high ys where
  le := h.le
  fresh := by
    intro c hc
    exact h.fresh c (hperm.mem_iff.mpr hc)
  nodup := (hperm.map _).nodup_iff.mp h.nodup
  mem := by
    intro source target
    rw [← h.mem source target]
    simp only [hperm.mem_iff]

theorem single {c : LinkCall} (h : c.Fresh) (hthrough : d.through c.source = some c.source)
    (htarget : c.target = c.source + 1) : Links d c.target (c.target + 1) [c] where
  le := Nat.le_succ _
  fresh := by
    intro x hx
    rw [List.mem_singleton.mp hx]
    exact h
  nodup := by simp
  mem := by
    intro source target
    simp only [List.mem_singleton, exists_eq_left]
    constructor
    . rintro ⟨rfl, rfl⟩
      exact ⟨hthrough, htarget, Nat.le_refl _, Nat.lt_succ_self _⟩
    . rintro ⟨_, rfl, hlow, hhigh⟩
      have heq := Nat.le_antisymm (Nat.le_of_lt_succ hhigh) hlow
      refine ⟨?_, heq.symm⟩
      rw [htarget] at heq
      exact (Nat.succ.inj heq).symm

end Links

variable {d : Draft} {s s' : Assembly} {cursor : Nat}

theorem addJumpPoint_size (d : Draft) (s : Assembly) (index : UInt32) (position : Nat)
    : (s.addJumpPoint d index position).2.automaton.elements.size = s.automaton.elements.size + 1 := by
  unfold addJumpPoint
  dsimp only [add]
  split
  . next a hregister =>
    dsimp only
    rw [Automaton.register_elements hregister, Automaton.add_size]
  . exact Automaton.add_size ..

theorem linkFrom_size (d : Draft) (s : Assembly) (previous : Option ElementRef) (target : ElementRef)
    : (s.linkFrom d previous target).automaton.elements.size = s.automaton.elements.size := by
  unfold linkFrom link
  split
  . split
    . next a hlink => exact Automaton.link_size hlink
    . rfl
  . rfl

theorem size_of_linkFrom {a : Automaton} {previous : Option ElementRef} {target : ElementRef}
    (h : s.linkFrom d previous target = { s with automaton := a })
    : a.elements.size = s.automaton.elements.size := by
  rw [← linkFrom_size d s previous target, h]

theorem linkCalls_links (s' : Assembly) {base : Nat} {previous : Option ElementRef} (hs : At d s cursor)
    (hlookup : s.ahead.lookup cursor = none) (hprevious : previous = s.source d cursor)
    (hbase : ∀ q, previous = some q → base ≤ q) (hcomplete : s.automaton.Complete d base)
    (hagree : Automaton.Agree s.automaton.elements.size s.automaton s'.automaton)
    : Links d (d.ref cursor) (d.ref cursor + 1) (s'.linkCalls previous (d.ref cursor)) := by
  have hsize := hs.size hlookup
  have hpos := d.ref_pos cursor
  rw [source_of_lookup_eq_none hlookup] at hprevious
  cases hthrough : d.through (d.ref cursor - 1) with
  | none =>
    rw [hprevious, hthrough]
    apply Links.nil (Nat.le_succ _)
    intro target hlow hhigh
    rw [Nat.le_antisymm (Nat.le_of_lt_succ hhigh) hlow]
    exact hthrough
  | some source =>
    obtain ⟨hsource, e, he, hfalls⟩ := Draft.through_eq_some hthrough
    subst hsource
    rw [hprevious, hthrough]
    have helement : s'.automaton.element? (d.ref cursor - 1) =
        (d.entries s.automaton.elements.size)[d.ref cursor - 1]? := by
      rw [hagree _ (by omega)]
      exact hcomplete _ (hbase _ (by rw [hprevious, hthrough])) (by omega)
    have hlast : d.ref cursor = d.ref cursor - 1 + 1 := by omega
    -- the source was the last element of an earlier state and is as it was then
    have hfresh : LinkCall.Fresh ⟨s'.automaton, d.ref cursor - 1, d.ref cursor⟩ := by
      constructor
      . rw [Draft.entries_getElem?, he] at helement
        exact Automaton.lt_size_of_element? helement
      . exact next?_of_last helement (Nat.le_of_eq (hsize.trans hlast))
    exact .single hfresh hthrough hlast

theorem terminator_links {base : Nat} {previous : Option ElementRef} {t : Token} (hs : At d s cursor)
    (ht : d.token? cursor = some t) (hcloses : t.closesBranch = true)
    (hprevious : previous = s.source d cursor) (hbase : ∀ q, previous = some q → base ≤ q)
    (hcomplete : s.automaton.Complete d base)
    : ∃ r s', s.terminator d cursor = (some r, s') ∧
        Links d s.automaton.elements.size s'.automaton.elements.size (s'.linkCalls previous r) := by
  cases hlookup : s.ahead.lookup cursor with
  | some r =>
    refine ⟨r, s, by simp [terminator, hlookup], ?_⟩
    rw [hprevious, source_of_lookup_eq_some hlookup]
    exact .empty d _
  | none =>
    obtain ⟨s', hterminator, hgrown⟩ := terminator_grown (hs.made_of_lookup hlookup) hlookup ht hcloses
    have hmakes : d.makes cursor = true :=
      Draft.makes_of_token? ht (Token.ne_start_of_closesBranch hcloses)
    refine ⟨d.ref cursor, _, hterminator, ?_⟩
    dsimp only
    rw [hgrown.made.size, Draft.ref_succ_of_makes hmakes, hs.size hlookup]
    exact linkCalls_links _ hs hlookup hprevious hbase hcomplete hgrown.agree

theorem Steps.links {base next : Nat} {previous : Option ElementRef} {r : ElementRef}
    {inner : List LinkCall} (hsteps : Steps d s cursor (some r) s' next) (hs : At d s cursor)
    (hprevious : previous = s.source d cursor) (hbase : ∀ q, previous = some q → base ≤ q)
    (hcomplete : s.automaton.Complete d base) (hlt : d.ref cursor < s'.automaton.elements.size)
    (hinner : Links d (min (s.automaton.elements.size + 1) s'.automaton.elements.size)
      s'.automaton.elements.size inner)
    : Links d s.automaton.elements.size s'.automaton.elements.size (inner ++ s'.linkCalls previous r) := by
  obtain ⟨hmakes, rfl⟩ := hsteps.result_eq_some
  cases hlookup : s.ahead.lookup cursor with
  | some r =>
    have hpassed := hsteps.passed (Or.inr (by rw [hlookup]; rfl))
    subst hpassed
    rw [Nat.min_eq_right (Nat.le_succ _)] at hinner
    rw [hprevious, source_of_lookup_eq_some hlookup, linkCalls, List.append_nil]
    exact hinner
  | none =>
    have hsize := hs.size hlookup
    have houter := linkCalls_links s' hs hlookup hprevious hbase hcomplete hsteps.agree
    rw [hsize, Nat.min_eq_left hlt] at hinner
    rw [hsize]
    -- what belongs to the element is linked before the element is
    exact (houter.append hinner).perm List.perm_append_comm

/-
The cases and the measure are those of the proof that the assembly comes out as the layout. What it
shows of the states in between is used here for the links that are made on them.
-/
mutual

theorem elementCalls_links {d : Draft} {s : Assembly} {cursor : Nat} (hs : At d s cursor) (h : cursor < d.size)
    : Links d (min (s.automaton.elements.size + 1) (element d s cursor h).2.1.automaton.elements.size)
        (element d s cursor h).2.1.automaton.elements.size (elementCalls d s cursor h) := by
  have ht := d.token?_of_lt h
  rw [element.eq_def, elementCalls.eq_def]
  cases hlookup : s.ahead.lookup cursor with
  | some r =>
    apply Links.nil (Nat.min_le_right ..)
    dsimp only
    omega
  | none =>
    dsimp only
    cases htoken : d.lexemes[cursor].token with
    | conditional letter number =>
      rw [htoken] at ht
      exact conditionalCalls_links hs h ht
    | _ =>
      apply Links.nil (Nat.min_le_right ..)
      simp only [add, Automaton.add_size, addJumpPoint_size]
      omega
termination_by (d.size - cursor, 1)

theorem conditionalCalls_links {d : Draft} {s : Assembly} {cursor : Nat} {letter : Letter}
    {number : UInt32} (hs : At d s cursor) (h : cursor < d.size)
    (ht : d.token? cursor = some (.conditional letter number))
    : Links d (min (s.automaton.elements.size + 1) (conditional d s cursor h).2.1.automaton.elements.size)
        (conditional d s cursor h).2.1.automaton.elements.size (conditionalCalls d s cursor h) := by
  have hsize := hs.size (hs.lookup_of_not_closes ht rfl)
  have hopen := Opened.of_branchJump hs h ht
  generalize hjump : branchJump d (addVertex d s cursor) cursor h = result at hopen
  obtain ⟨whenTrue, s₁, first, hfirst⟩ := result
  unfold addVertex at hjump
  rw [conditional.eq_def, conditionalCalls.eq_def]
  dsimp only [add] at hjump hopen ⊢
  rw [hjump]
  dsimp only
  rw [Automaton.setBranches_size, hsize]
  have hbranch := branchCalls_links hs ht hopen hfirst.right
  have hopened : Links d (d.ref cursor + 1) s₁.automaton.elements.size [] := by
    have hlt := hopen.ref_lt ht
    rw [hopen.made.size]
    apply Links.nil hlt
    intro target hlow hhigh
    apply through_vertex ht
    . omega
    . rw [← hopen.start]
      omega
  rw [Nat.min_eq_left (hopened.append hbranch).le]
  exact hopened.append hbranch
termination_by (d.size - cursor, 0)

theorem branchCalls_links {d : Draft} {s s₁ : Assembly} {cursor first : Nat} {letter : Letter}
    {number : UInt32} {whenTrue : Option ElementRef} (hs : At d s cursor)
    (ht : d.token? cursor = some (.conditional letter number))
    (hopen : Opened d s cursor whenTrue s₁ first) (h : first ≤ d.size)
    : Links d s₁.automaton.elements.size
        (branch d s₁ first h (d.ref cursor)).2.1.automaton.elements.size (branchCalls d s₁ first) := by
  rw [branch.eq_def, branchCalls.eq_def]
  split
  . apply Links.nil (Nat.le_refl _)
    intro target hlow hhigh
    exact absurd hlow (Nat.not_le_of_lt hhigh)
  . next hnonempty =>
    have hreports : d.branchReports cursor = [] := by
      simp [Draft.branchReports, ← hopen.start, hnonempty]
    have hinvariant : At d s₁ first := hopen.invariant hs ht (by rw [hreports, List.append_nil])
    apply branchFromCalls_links (d.ref first) none none hinvariant h
    . intro _
      rw [hopen.source hs ht]
    . intro q hq
      contradiction
    . exact Nat.le_of_eq hopen.made.size.symm
    . exact hopen.complete
termination_by (d.size - first, 3)

theorem branchFromCalls_links {d : Draft} {s : Assembly} {cursor : Nat} (base : Nat)
    (head previous : Option ElementRef) (hs : At d s cursor) (h : cursor ≤ d.size)
    (hprevious : cursor < d.size → previous = s.source d cursor)
    (hbase : ∀ q, previous = some q → base ≤ q) (hle : base ≤ s.automaton.elements.size)
    (hcomplete : s.automaton.Complete d base)
    : Links d s.automaton.elements.size (branchFrom d s cursor h head previous).2.1.automaton.elements.size
        (branchFromCalls d s cursor previous) := by
  rw [branchFrom.eq_def, branchFromCalls.eq_def]
  by_cases hcursor : cursor < d.size
  . simp only [hcursor, ↓reduceDIte]
    have ht := d.token?_of_lt hcursor
    have hsteps := element_steps hs hcursor
    have hinner := elementCalls_links hs hcursor
    cases hcloses : d.lexemes[cursor].token.closesBranch with
    | true =>
      simp only [↓reduceIte]
      obtain ⟨r, s', hterminator, hlinks⟩ := terminator_links hs ht hcloses (hprevious hcursor) hbase
        hcomplete
      rw [hterminator]
      dsimp only
      rw [linkFrom_size]
      exact hlinks
    | false =>
      have hlookup := hs.lookup_of_not_closes ht hcloses
      simp only [Bool.false_eq_true, ↓reduceIte]
      generalize element d s cursor hcursor = result at hsteps hinner ⊢
      obtain ⟨r?, s', next, hnext⟩ := result
      dsimp only at hsteps hinner ⊢
      cases r? with
      | none =>
        have hpassed := hsteps.passed (Or.inl rfl)
        have hmakes := hsteps.result_eq_none
        subst hpassed
        rw [Nat.min_eq_right (Nat.le_succ _)] at hinner
        dsimp only
        split
        . next hjump =>
          rw [hjump] at ht
          rw [Draft.makes_of_token? ht (by simp)] at hmakes
          contradiction
        . next hjump =>
          simp only [Bool.false_eq_true, ↓reduceIte, List.append_nil]
          apply hinner.append
          apply branchFromCalls_links base head previous hsteps.invariant hnext.right _ hbase hle hcomplete
          intro hlt
          rw [hsteps.source_eq_none hlt]
          exact hprevious hcursor
      | some r =>
        obtain ⟨hmakes, hr⟩ := hsteps.result_eq_some
        subst hr
        obtain ⟨a, hlink, hinvariant, hagree, hcomplete', hlt⟩ := hsteps.link hs hlookup
          (hprevious hcursor) hbase hle hcomplete hnext.left
        have hsize := size_of_linkFrom hlink
        have hlinks := hsteps.links hs (hprevious hcursor) hbase hcomplete (hsize ▸ hlt) hinner
        dsimp only
        generalize d.lexemes[cursor].token = t
        split
        . simp only [↓reduceIte]
          rw [linkFrom_size]
          exact hlinks
        . simp only [Bool.false_eq_true, ↓reduceIte]
          have hfalls : fallsThrough { s' with automaton := a } (d.ref cursor) =
              d.through (d.ref cursor) := by
            apply fallsThrough_eq hcomplete' _ hlt
            have := hs.size hlookup
            omega
          rw [hlink, hfalls]
          apply hlinks.append
          rw [← hsize]
          apply branchFromCalls_links base _ _ hinvariant hnext.right _ _ _ hcomplete'
          . intro hlt
            exact (hsteps.source_eq_some hlt).symm
          . intro q hq
            have := (Draft.through_eq_some hq).left
            have := hs.size hlookup
            omega
          . have := hs.size hlookup
            exact Nat.le_of_lt (Nat.lt_of_le_of_lt (by omega) hlt)
  . simp only [hcursor, ↓reduceDIte]
    exact .empty d _
termination_by (d.size - cursor, 2)

end

theorem elementsCalls_links {s : Assembly} {cursor : Nat} {previous : Option ElementRef}
    (hs : At d s cursor) (hprevious : cursor < d.size → previous = s.source d cursor)
    (hcomplete : s.automaton.Complete d 0)
    : Links d s.automaton.elements.size (elements d s cursor previous).automaton.elements.size
        (elementsCalls d s cursor previous) := by
  rw [elements.eq_def, elementsCalls.eq_def]
  by_cases hcursor : cursor < d.size
  . simp only [hcursor, ↓reduceDIte]
    have hsteps := element_steps hs hcursor
    have hinner := elementCalls_links hs hcursor
    generalize element d s cursor hcursor = result at hsteps hinner ⊢
    obtain ⟨r?, s', next, hnext⟩ := result
    dsimp only at hsteps hinner ⊢
    cases r? with
    | none =>
      have hpassed := hsteps.passed (Or.inl rfl)
      subst hpassed
      rw [Nat.min_eq_right (Nat.le_succ _)] at hinner
      apply hinner.append
      apply elementsCalls_links hsteps.invariant _ hcomplete
      intro hlt
      rw [hsteps.source_eq_none hlt]
      exact hprevious hcursor
    | some r =>
      obtain ⟨a, hlink, hinvariant, hcomplete', hlt, hfalls⟩ := hsteps.link_any hs
        (hprevious hcursor) hcomplete hnext.left
      have hsize := size_of_linkFrom hlink
      have hlinks := hsteps.links hs (hprevious hcursor) (fun q _ => Nat.zero_le q) hcomplete
        (hsize ▸ hlt) hinner
      dsimp only
      rw [hlink, hfalls]
      apply hlinks.append
      rw [← hsize]
      apply elementsCalls_links hinvariant _ hcomplete'
      intro hlt
      exact (hsteps.source_eq_some hlt).symm
  . simp only [hcursor, ↓reduceDIte]
    exact .empty d _
termination_by d.size - cursor

theorem calls_links (d : Draft) : Links d 1 (ofDraft d).automaton.elements.size (calls d) := by
  obtain ⟨hinvariant, _, hsource⟩ := initial_entry d
  rw [ofDraft_eq]
  exact elementsCalls_links hinvariant (fun _ => hsource) (initial_complete d)

end Assembly

end LogicalScheme
