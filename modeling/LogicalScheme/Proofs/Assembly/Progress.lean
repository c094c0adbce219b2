import LogicalScheme.Proofs.Assembly.Cursor

/-!
This module contains what one step of an assembly comes to: an element is assembled, or the rest of a branch
is up to the lexeme that closes it.
-/

namespace LogicalScheme

namespace Assembly

/--
Assembling one element leads from `s` to `s'` and from `cursor` to `next`. Elements that were there
are as before, and new ones are complete.
-/
structure Steps (d : Draft) (s : Assembly) (cursor : Nat) (r? : Option ElementRef) (s' : Assembly)
    (next : Nat) : Prop where
  invariant : At d s' next
  agree : Automaton.Agree s.automaton.elements.size s.automaton s'.automaton
  complete : s'.automaton.Complete d s.automaton.elements.size
  result : r? = if d.makes cursor then some (d.ref cursor) else none
  passed : r? = none ∨ (s.ahead.lookup cursor).isSome = true → s' = s
  source : next < d.size →
    s'.source d next = if d.makes cursor then d.through (d.ref cursor) else s.source d cursor

/--
Assembling the rest of a branch whose elements are those from `base` on leads from `s` to `s'` and from
`cursor` to `next`. Nothing is left to link where it closes.
-/
structure Closes (d : Draft) (base : Nat) (s : Assembly) (cursor : Nat)
    (head head' : Option ElementRef) (s' : Assembly) (next : Nat) : Prop where
  invariant : At d s' next
  agree : Automaton.Agree base s.automaton s'.automaton
  complete : s'.automaton.Complete d base
  result : head' = head.or (d.head (d.ref cursor))
  source : next < d.size → s'.source d next = none

variable {d : Draft} {s s' : Assembly} {cursor : Nat} {t : Token}

theorem Grown.complete (hs' : Grown d s s' cursor) (hmakes : d.makes cursor = true)
    : s'.automaton.Complete d (d.ref cursor) := by
  intro r hr hlt
  have hsize : s'.automaton.elements.size = d.ref cursor + 1 := by
    rw [hs'.made.size, Draft.ref_succ_of_makes hmakes]
  have heq : r = d.ref cursor := by omega
  subst heq
  rw [hsize]
  exact hs'.last

theorem Steps.of_grown (hs : At d s cursor) (hlookup : s.ahead.lookup cursor = none)
    (ht : d.token? cursor = some t) (hstart : t ≠ .start) (hconditional : t.isConditional = false)
    (hs' : Grown d s s' cursor) : Steps d s cursor (some (d.ref cursor)) s' (cursor + 1) := by
  have hmakes : d.makes cursor = true := Draft.makes_of_token? ht hstart
  have hnext : s'.ahead.lookup (cursor + 1) = none := by
    rw [hs'.ahead]
    exact hs.lookup_of_lt (Nat.lt_succ_self cursor)
  constructor
  . apply hs.of_made (Nat.lt_succ_self cursor) hs'.ahead hs'.made
    . rw [hs'.conditionals, hs.conditionals]
      rw [Draft.conditionals_succ_of_not_conditional ht hconditional]
    . rw [hs'.reported, hs.reported_of_lookup hlookup, Draft.reports_succ]
  . exact hs'.agree
  . rw [hs.size hlookup]
    exact hs'.complete hmakes
  . simp [hmakes]
  . intro hpassed
    simp [hlookup] at hpassed
  . intro _
    rw [source_of_lookup_eq_none hnext, Draft.ref_succ_of_makes hmakes]
    simp [hmakes]

theorem Steps.of_start (hs : At d s cursor) (ht : d.token? cursor = some .start)
    : Steps d s cursor none s (cursor + 1) := by
  have hmakes : d.makes cursor = false := Draft.makes_eq_false_of_start ht
  have hlookup := hs.lookup_of_not_closes ht rfl
  have hnext : s.ahead.lookup (cursor + 1) = none := hs.lookup_of_lt (Nat.lt_succ_self cursor)
  constructor
  . apply hs.of_made (Nat.lt_succ_self cursor) rfl
    . exact (hs.made_of_lookup hlookup).skip ht
    . rw [hs.conditionals]
      rw [Draft.conditionals_succ_of_not_conditional ht rfl]
    . rw [hs.reported_of_lookup hlookup, Draft.reports_succ]
      simp [Draft.reportsAt, ht]
  . apply Automaton.Agree.refl
  . intro r hr hlt
    omega
  . simp [hmakes]
  . intro _
    rfl
  . intro _
    rw [source_of_lookup_eq_none hnext, source_of_lookup_eq_none hlookup]
    simp [Draft.ref_succ_of_not_makes hmakes, hmakes]

theorem Steps.of_ahead {r : ElementRef} (hs : At d s cursor) (h : s.ahead.lookup cursor = some r)
    : Steps d s cursor (some r) s (cursor + 1) := by
  obtain ⟨hr, t, ht, hcloses⟩ := hs.lookup_eq_some h
  have hstart := Token.ne_start_of_closesBranch hcloses
  have hconditional : t.isConditional = false := by
    cases t with
    | jumpPoint | finish => rfl
    | _ => contradiction
  have hmakes : d.makes cursor = true := Draft.makes_of_token? ht hstart
  have hnext : s.ahead.lookup (cursor + 1) = none := hs.lookup_of_lt (Nat.lt_succ_self cursor)
  have hreach := reach_of_lookup_eq_some h
  have hmade := hs.made
  have hreported := hs.reported
  rw [hreach] at hmade hreported
  constructor
  . apply hs.of_made (Nat.lt_succ_self cursor) rfl hmade
    . rw [hs.conditionals]
      rw [Draft.conditionals_succ_of_not_conditional ht hconditional]
    . exact hreported
  . apply Automaton.Agree.refl
  . intro r hr hlt
    omega
  . simp [hmakes, hr]
  . intro _
    rfl
  . intro _
    rw [source_of_lookup_eq_none hnext, Draft.ref_succ_of_makes hmakes]
    simp [hmakes]

theorem fallsThrough_eq {base r : Nat} (hcomplete : s.automaton.Complete d base) (hle : base ≤ r)
    (hlt : r < s.automaton.elements.size) : s.fallsThrough r = d.through r := by
  unfold fallsThrough Draft.through
  rw [hcomplete r hle hlt, Draft.entries_getElem?]
  cases (d.entries 0)[r]? <;> rfl

theorem Steps.result_eq_some {r : ElementRef} {next : Nat}
    (hsteps : Steps d s cursor (some r) s' next) : d.makes cursor = true ∧ r = d.ref cursor := by
  have hresult := hsteps.result
  cases hmakes : d.makes cursor with
  | true => exact ⟨rfl, by simpa [hmakes] using hresult⟩
  | false => simp [hmakes] at hresult

theorem Steps.result_eq_none {next : Nat} (hsteps : Steps d s cursor none s' next)
    : d.makes cursor = false := by
  have hresult := hsteps.result
  cases hmakes : d.makes cursor with
  | true => simp [hmakes] at hresult
  | false => rfl

theorem Steps.source_eq_some {r : ElementRef} {next : Nat}
    (hsteps : Steps d s cursor (some r) s' next) (hlt : next < d.size)
    : s'.source d next = d.through (d.ref cursor) := by
  rw [hsteps.source hlt, hsteps.result_eq_some.left]
  rfl

theorem Steps.source_eq_none {next : Nat} (hsteps : Steps d s cursor none s' next)
    (hlt : next < d.size) : s'.source d next = s.source d cursor := by
  rw [hsteps.source hlt, hsteps.result_eq_none]
  rfl

theorem Steps.closes_of_none {base next last : Nat} {head head' : Option ElementRef}
    {s'' : Assembly} (hsteps : Steps d s cursor none s' next) (hs : At d s cursor)
    (hlookup : s.ahead.lookup cursor = none) (hlt : cursor < next)
    (hclose : Closes d base s' next head head' s'' last)
    : Closes d base s cursor head head' s'' last := by
  have hpassed := hsteps.passed (Or.inl rfl)
  subst hpassed
  have href : d.ref next = d.ref cursor := by
    rw [← hsteps.invariant.size (hs.lookup_of_lt hlt), hs.size hlookup]
  refine ⟨hclose.invariant, hclose.agree, hclose.complete, ?_, hclose.source⟩
  rw [hclose.result, href]

theorem Closes.of_jump {base next : Nat} {index : UInt32} {a : Automaton} {head : Option ElementRef}
    (hsteps : Steps d s cursor (some (d.ref cursor)) s' next)
    (ht : d.token? cursor = some (.unconditionalJump index))
    (hhead : d.head (d.ref cursor) = some (d.ref cursor))
    (hinvariant : At d { s' with automaton := a } next) (hagree : Automaton.Agree base s.automaton a)
    (hcomplete : a.Complete d base)
    : Closes d base s cursor head (head.or (some (d.ref cursor))) { s' with automaton := a } next := by
  refine ⟨hinvariant, hagree, hcomplete, by rw [hhead], ?_⟩
  intro hlt
  -- control does not fall through the jump, so nothing is left to link behind it
  have hsource := hsteps.source_eq_some hlt
  rw [Draft.through_ref hsteps.result_eq_some.left, Draft.kind_of_token? ht] at hsource
  exact hsource

theorem Closes.of_linked {base next last : Nat} {head head' : Option ElementRef}
    {linked s'' : Assembly} (hhead : d.head (d.ref cursor) = some (d.ref cursor))
    (hagree : Automaton.Agree base s.automaton linked.automaton)
    (hclose : Closes d base linked next (head.or (some (d.ref cursor))) head' s'' last)
    : Closes d base s cursor head head' s'' last := by
  refine ⟨hclose.invariant, hagree.trans hclose.agree, hclose.complete, ?_, hclose.source⟩
  rw [hclose.result, hhead, Option.or_assoc]
  rfl

theorem head_of_makes (ht : d.token? cursor = some t) (hmakes : d.makes cursor = true)
    (hopen : t.closesBranch = false) : d.head (d.ref cursor) = some (d.ref cursor) := by
  have hstart : t ≠ .start := by
    intro heq
    subst heq
    rw [Draft.makes_eq_false_of_start ht] at hmakes
    contradiction
  rw [Draft.head_ref_of_makes ht hstart, hopen]
  rfl

theorem At.linkFrom (s' : Assembly) {base position : Nat} {previous : Option ElementRef}
    (hs : At d s cursor)
    (hlookup : s.ahead.lookup cursor = none) (hprevious : previous = s.source d cursor)
    (hbase : ∀ q, previous = some q → base ≤ q) (hle : base ≤ s.automaton.elements.size)
    (hcomplete : s.automaton.Complete d base)
    (hagree : Automaton.Agree s.automaton.elements.size s.automaton s'.automaton)
    (hnew : s'.automaton.Complete d s.automaton.elements.size)
    (hlt : d.ref cursor < s'.automaton.elements.size) (hmade : s'.automaton.Made d position)
    : ∃ a, s'.linkFrom d previous (d.ref cursor) = { s' with automaton := a } ∧
        Automaton.Agree base s.automaton a ∧ a.Complete d base ∧ a.Made d position := by
  have hsize := hs.size hlookup
  have hold : ∀ r, base ≤ r → r < d.ref cursor →
      s'.automaton.element? r = (d.entries (d.ref cursor))[r]? := by
    intro r hr hlt
    rw [hagree r (by omega), ← hsize]
    apply hcomplete r hr
    omega
  rw [source_of_lookup_eq_none hlookup] at hprevious
  rw [hsize] at hnew
  obtain ⟨a, hlink, hagree', hcomplete', hmade'⟩ := linkFrom_complete hprevious hbase
    (d.ref_pos cursor) hlt hold hnew hmade
  exact ⟨a, hlink, (hagree.mono hle).trans hagree', hcomplete', hmade'⟩

theorem Steps.link {base next : Nat} {previous : Option ElementRef} {r : ElementRef}
    (hsteps : Steps d s cursor (some r) s' next) (hs : At d s cursor)
    (hlookup : s.ahead.lookup cursor = none) (hprevious : previous = s.source d cursor)
    (hbase : ∀ q, previous = some q → base ≤ q) (hle : base ≤ s.automaton.elements.size)
    (hcomplete : s.automaton.Complete d base) (hnext : cursor < next)
    : ∃ a, s'.linkFrom d previous r = { s' with automaton := a } ∧
        At d { s' with automaton := a } next ∧ Automaton.Agree base s.automaton a ∧
        a.Complete d base ∧ d.ref cursor < a.elements.size := by
  obtain ⟨hmakes, hr⟩ := hsteps.result_eq_some
  subst hr
  have hlt : d.ref cursor < s'.automaton.elements.size := by
    have hreach : cursor + 1 ≤ s'.reach next := by
      unfold reach
      split <;> omega
    have hmono := d.ref_mono hreach
    rw [Draft.ref_succ_of_makes hmakes] at hmono
    rw [hsteps.invariant.made.size]
    omega
  obtain ⟨a, hlink, hagree, hcomplete, hmade⟩ := hs.linkFrom s' hlookup hprevious hbase hle hcomplete
    hsteps.agree hsteps.complete hlt hsteps.invariant.made
  refine ⟨a, hlink, hsteps.invariant.of_automaton hmade, hagree, hcomplete, ?_⟩
  rw [hmade.size, ← hsteps.invariant.made.size]
  exact hlt

theorem Closes.of_grown {base : Nat} {head previous : Option ElementRef} (hs : At d s cursor)
    (hlookup : s.ahead.lookup cursor = none) (ht : d.token? cursor = some t)
    (hcloses : t.closesBranch = true) (hprevious : previous = s.source d cursor)
    (hbase : ∀ q, previous = some q → base ≤ q) (hle : base ≤ s.automaton.elements.size)
    (hcomplete : s.automaton.Complete d base) (hs' : Grown d s s' cursor)
    : Closes d base s cursor head head
        (linkFrom { s' with ahead := (cursor, d.ref cursor) :: s'.ahead } d previous (d.ref cursor))
        cursor := by
  have hstart := Token.ne_start_of_closesBranch hcloses
  have hmakes : d.makes cursor = true := Draft.makes_of_token? ht hstart
  have hlt : d.ref cursor < s'.automaton.elements.size := by
    rw [hs'.made.size, Draft.ref_succ_of_makes hmakes]
    omega
  have hnew : s'.automaton.Complete d s.automaton.elements.size := by
    rw [hs.size hlookup]
    exact hs'.complete hmakes
  obtain ⟨a, hlink, hagree, hcomplete, hmade⟩ := hs.linkFrom
    { s' with ahead := (cursor, d.ref cursor) :: s'.ahead }
    hlookup hprevious hbase hle hcomplete hs'.agree hnew hlt hs'.made
  have hreach : reach { s' with automaton := a, ahead := (cursor, d.ref cursor) :: s'.ahead }
      cursor = cursor + 1 := by
    simp [reach]
  rw [hlink]
  constructor
  . constructor
    . rw [hreach]
      exact hmade
    . rw [← hs.conditionals]
      exact hs'.conditionals
    . rw [hreach, Draft.reports_succ, ← hs.reported_of_lookup hlookup]
      exact hs'.reported
    . intro p r hp
      rw [hs'.ahead, List.lookup_cons] at hp
      split at hp
      . next heq =>
        right
        refine ⟨by simpa using heq, (Option.some.inj hp).symm, ?_⟩
        simp [ht, hcloses]
      . exact hs.ahead p r hp
  . exact hagree
  . exact hcomplete
  . rw [Draft.head_ref_of_makes ht hstart]
    simp [hcloses]
  . intro _
    simp [Assembly.source]

theorem Closes.of_terminator {base : Nat} {previous : Option ElementRef} (head : Option ElementRef)
    (hs : At d s cursor) (ht : d.token? cursor = some t) (hcloses : t.closesBranch = true)
    (hprevious : previous = s.source d cursor) (hbase : ∀ q, previous = some q → base ≤ q)
    (hle : base ≤ s.automaton.elements.size) (hcomplete : s.automaton.Complete d base)
    : ∃ r s', s.terminator d cursor = (some r, s') ∧
        Closes d base s cursor head head (s'.linkFrom d previous r) cursor := by
  have hstart := Token.ne_start_of_closesBranch hcloses
  cases hlookup : s.ahead.lookup cursor with
  | some r =>
    -- an inner branch has closed here too and has linked the element
    refine ⟨r, s, by simp [terminator, hlookup], ?_⟩
    rw [hprevious, source_of_lookup_eq_some hlookup]
    constructor
    . exact hs
    . apply Automaton.Agree.refl
    . exact hcomplete
    . rw [Draft.head_ref_of_makes ht hstart]
      simp [hcloses]
    . intro _
      exact source_of_lookup_eq_some hlookup
  | none =>
    obtain ⟨s', hterminator, hgrown⟩ := terminator_grown (hs.made_of_lookup hlookup) hlookup ht hcloses
    exact ⟨d.ref cursor, _, hterminator,
      .of_grown hs hlookup ht hcloses hprevious hbase hle hcomplete hgrown⟩

end Assembly

end LogicalScheme
