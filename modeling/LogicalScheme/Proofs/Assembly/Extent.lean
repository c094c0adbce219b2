import LogicalScheme.Proofs.Parsed
import Mathlib.Logic.Function.Iterate
import Mathlib.Logic.Relation

/-!
This module contains how far an assembly gets from any state that it may be in. Elements and branches move the
cursor on by what the tokens say, in as many steps as there are tokens at most.
-/

namespace LogicalScheme

def Token.goesOn : Token → Bool
  | .finish | .jumpPoint _ | .unconditionalJump _ => false
  | .start | .operator _ | .conditional _ _ | .conditionalJump _ => true

theorem Token.goesOn_iff {t : Token}
    : t.goesOn = true ↔ t.closesBranch = false ∧ ∀ index, t ≠ .unconditionalJump index := by
  cases t <;> simp [goesOn, closesBranch]

theorem Token.goesOn_of_isConditional {t : Token} (h : t.isConditional = true) : t.goesOn = true := by
  cases t with
  | conditional letter number => rfl
  | _ => contradiction

namespace Draft

/--
A branch that starts at `cursor` leaves the cursor at `last`, with `count` elements assembled on the way. The
conditional vertices at `opens` have branches of their own, which start behind their jumps.
-/
inductive Branch (d : Draft) (opens : Nat → Bool) : (cursor last count : Nat) → Prop
  | stop {cursor : Nat} : (d.token? cursor).all (·.closesBranch) = true → Branch d opens cursor cursor 0
  | jump {cursor : Nat} {index : UInt32} : d.token? cursor = some (.unconditionalJump index) →
      Branch d opens cursor (cursor + 1) 1
  | single {cursor last count : Nat} : (d.token? cursor).any (·.goesOn) = true → opens cursor = false →
      Branch d opens (cursor + 1) last count → Branch d opens cursor last (count + 1)
  | nested {cursor inner last count count' : Nat} : (d.token? cursor).any (·.goesOn) = true →
      opens cursor = true → Branch d opens (d.branchStart cursor) inner count →
      Branch d opens inner last count' → Branch d opens cursor last (count + 1 + count')

/--
One element with all that belongs to it leads from `cursor` to `next`, `count` elements in total.
-/
inductive Passes (d : Draft) (opens : Nat → Bool) (cursor : Nat) : (next count : Nat) → Prop
  | single : opens cursor = false → Passes d opens cursor (cursor + 1) 1
  | nested {next count : Nat} : opens cursor = true → Branch d opens (d.branchStart cursor) next count →
      Passes d opens cursor next (count + 1)

def GoesOn (d : Draft) (opens : Nat → Bool) (cursor next : Nat) : Prop :=
  (d.token? cursor).any (·.goesOn) = true ∧ ∃ count, d.Passes opens cursor next count

/--
A branch whose own elements stand up to `cursor` may be left with the cursor at `last`: it is at the end, at a
jump point or an end marker, or behind an unconditional jump.
-/
inductive Exit (d : Draft) (cursor : Nat) : (last : Nat) → Prop
  | finish : cursor = d.size → Exit d cursor cursor
  | front {t : Token} : d.token? cursor = some t → t.closesBranch = true → Exit d cursor cursor
  | jump {index : UInt32} : d.token? cursor = some (.unconditionalJump index) → Exit d cursor (cursor + 1)

/--
What is known of a branch that starts at `cursor` and leaves the cursor at `last`.
-/
structure ClosesAt (d : Draft) (opens : Nat → Bool) (cursor last : Nat) : Prop where
  bounds : cursor ≤ last ∧ last ≤ d.size
  terminates : ∃ count, count ≤ last - cursor ∧ ∀ n k, d.Branch opens cursor n k ↔ n = last ∧ k = count
  exit : ∃ p, Relation.ReflTransGen (d.GoesOn opens) cursor p ∧ d.Exit p last

section Branch

variable {d : Draft} {opens : Nat → Bool} {cursor last count : Nat}

theorem lt_branchStart (d : Draft) (cursor : Nat) : cursor < d.branchStart cursor := by
  unfold branchStart
  split <;> omega

theorem any_goesOn_eq_false_of_all (h : (d.token? cursor).all (·.closesBranch) = true)
    : (d.token? cursor).any (·.goesOn) = false := by
  cases ht : d.token? cursor with
  | none => rfl
  | some t =>
    rw [ht] at h
    cases t with
    | finish => rfl
    | jumpPoint index => rfl
    | _ => contradiction

namespace Branch

theorem le (h : d.Branch opens cursor last count) : cursor + count ≤ last := by
  induction h with
  | stop => exact Nat.le_refl _
  | jump => exact Nat.le_refl _
  | single _ _ _ ih => omega
  | @nested cursor inner last count count' _ _ _ _ ih ih' =>
    have := d.lt_branchStart cursor
    omega

theorem unique {last' count' : Nat} (h : d.Branch opens cursor last count)
    (h' : d.Branch opens cursor last' count') : last = last' ∧ count = count' := by
  induction h generalizing last' count' with
  | stop hstop =>
    cases h' with
    | stop => exact ⟨rfl, rfl⟩
    | jump hjump =>
      rw [hjump] at hstop
      contradiction
    | single hgoes => simp [any_goesOn_eq_false_of_all hstop] at hgoes
    | nested hgoes => simp [any_goesOn_eq_false_of_all hstop] at hgoes
  | jump hjump =>
    cases h' with
    | stop hstop =>
      rw [hjump] at hstop
      contradiction
    | jump => exact ⟨rfl, rfl⟩
    | single hgoes => simp [hjump, Token.goesOn] at hgoes
    | nested hgoes => simp [hjump, Token.goesOn] at hgoes
  | single hgoes hopens _ ih =>
    cases h' with
    | stop hstop => simp [any_goesOn_eq_false_of_all hstop] at hgoes
    | jump hjump => simp [hjump, Token.goesOn] at hgoes
    | single _ _ hrest =>
      obtain ⟨rfl, rfl⟩ := ih hrest
      exact ⟨rfl, rfl⟩
    | nested _ hopens' =>
      rw [hopens] at hopens'
      contradiction
  | nested hgoes hopens _ _ ih ih' =>
    cases h' with
    | stop hstop => simp [any_goesOn_eq_false_of_all hstop] at hgoes
    | jump hjump => simp [hjump, Token.goesOn] at hgoes
    | single _ hopens' =>
      rw [hopens] at hopens'
      contradiction
    | nested _ _ hinner hrest =>
      obtain ⟨rfl, rfl⟩ := ih hinner
      obtain ⟨rfl, rfl⟩ := ih' hrest
      exact ⟨rfl, rfl⟩

theorem exit (h : d.Branch opens cursor last count) (hle : last ≤ d.size)
    : ∃ p, Relation.ReflTransGen (d.GoesOn opens) cursor p ∧ d.Exit p last := by
  induction h with
  | @stop cursor hstop =>
    refine ⟨cursor, .refl, ?_⟩
    cases ht : d.token? cursor with
    | none =>
      apply Exit.finish
      by_contra hne
      rw [d.token?_of_lt (by omega)] at ht
      contradiction
    | some t =>
      rw [ht] at hstop
      exact .front ht hstop
  | jump hjump => exact ⟨_, .refl, .jump hjump⟩
  | single hgoes hopens _ ih =>
    obtain ⟨p, hreach, hexit⟩ := ih hle
    exact ⟨p, .head ⟨hgoes, _, .single hopens⟩ hreach, hexit⟩
  | nested hgoes hopens hinner _ _ ih =>
    obtain ⟨p, hreach, hexit⟩ := ih hle
    exact ⟨p, .head ⟨hgoes, _, .nested hopens hinner⟩ hreach, hexit⟩

end Branch

namespace Passes

variable {next : Nat}

theorem branch (h : d.Passes opens cursor next count) (hgoes : (d.token? cursor).any (·.goesOn) = true)
    {count' : Nat} (hrest : d.Branch opens next last count') : ∃ k, d.Branch opens cursor last k := by
  cases h with
  | single hopens => exact ⟨_, .single hgoes hopens hrest⟩
  | nested hopens hinner => exact ⟨_, .nested hgoes hopens hinner hrest⟩

theorem branch_of_jump {index : UInt32} (h : d.Passes opens cursor next count)
    (ht : d.token? cursor = some (.unconditionalJump index)) (hopens : opens cursor = false)
    : ∃ k, d.Branch opens cursor next k := by
  cases h with
  | single => exact ⟨1, .jump ht⟩
  | nested hopens' =>
    rw [hopens] at hopens'
    contradiction

theorem bounds (h : d.Passes opens cursor next count) : cursor + count ≤ next := by
  cases h with
  | single => exact Nat.le_refl _
  | nested _ hinner =>
    have := hinner.le
    have := d.lt_branchStart cursor
    omega

end Passes

namespace Branch

theorem of_goesOn {p : Nat} (hreach : Relation.ReflTransGen (d.GoesOn opens) cursor p)
    (h : d.Branch opens p last count) : ∃ count', d.Branch opens cursor last count' := by
  induction hreach using Relation.ReflTransGen.head_induction_on with
  | refl => exact ⟨count, h⟩
  | head hgoes _ ih =>
    obtain ⟨count', hrest⟩ := ih
    obtain ⟨htoken, _, hpasses⟩ := hgoes
    exact hpasses.branch htoken hrest

/--
A branch that stops in front of a token which closes branches makes the branch around it stop there as well.
-/
theorem eq_of_nested {p inner count' : Nat} (h : d.Branch opens cursor last count)
    (hreach : Relation.ReflTransGen (d.GoesOn opens) cursor p) (hopens : opens p = true)
    (hconditional : (d.token? p).any (·.isConditional) = true)
    (hinner : d.Branch opens (d.branchStart p) inner count')
    (hcloses : (d.token? inner).any (·.closesBranch) = true) : last = inner := by
  have hstop : (d.token? inner).all (·.closesBranch) = true := by
    cases ht : d.token? inner with
    | none => rfl
    | some t =>
      rw [ht] at hcloses
      exact hcloses
  have hgoes : (d.token? p).any (·.goesOn) = true := by
    cases ht : d.token? p with
    | none => simp [ht] at hconditional
    | some t =>
      rw [ht] at hconditional
      exact Token.goesOn_of_isConditional hconditional
  obtain ⟨_, hbranch⟩ := of_goesOn hreach (.nested hgoes hopens hinner (.stop hstop))
  exact (h.unique hbranch).left

theorem closesAt (h : d.Branch opens cursor last count) (hle : last ≤ d.size)
    : d.ClosesAt opens cursor last where
  bounds := by
    have := h.le
    omega
  terminates := by
    refine ⟨count, Nat.le_sub_of_add_le' h.le, ?_⟩
    intro n k
    constructor
    . exact fun h' => h'.unique h
    . rintro ⟨rfl, rfl⟩
      exact h
  exit := h.exit hle

end Branch

end Branch

end Draft

namespace Assembly

/--
The conditional vertices that are opened when the cursor gets there, which are all that were not made ahead.
-/
def opens (s : Assembly) (d : Draft) (position : Nat) : Bool :=
  (d.token? position).any (·.isConditional) && (s.ahead.lookup position).isNone

section Opens

variable {d : Draft} {s s' : Assembly}

theorem opens_congr (h : s'.ahead = s.ahead) : s'.opens d = s.opens d := by
  unfold opens
  rw [h]

theorem ahead_addJumpPoint (s : Assembly) (d : Draft) (index : UInt32) (position : Nat)
    : (s.addJumpPoint d index position).2.ahead = s.ahead := by
  unfold addJumpPoint
  dsimp only
  split <;> rfl

theorem ahead_link (s : Assembly) (d : Draft) (source target : ElementRef)
    : (s.link d source target).ahead = s.ahead := by
  unfold link
  split <;> rfl

theorem opens_linkFrom (s : Assembly) (d : Draft) (previous : Option ElementRef) (target : ElementRef)
    : (s.linkFrom d previous target).opens d = s.opens d := by
  apply opens_congr
  cases previous with
  | none => rfl
  | some source => exact ahead_link s d source target

theorem opens_terminator (s : Assembly) (d : Draft) (position : Nat)
    : (s.terminator d position).2.opens d = s.opens d := by
  -- what is made ahead closes a branch, so it is not a conditional vertex
  have hkeep : ∀ (s' : Assembly) (r : ElementRef) (t : Token), d.token? position = some t →
      t.isConditional = false → s'.ahead = s.ahead →
      ({ s' with ahead := (position, r) :: s'.ahead } : Assembly).opens d = s.opens d := by
    intro s' r t ht hconditional hahead
    funext p
    unfold opens
    by_cases heq : p = position
    . rw [heq, ht, Option.any_some, hconditional, Bool.false_and, Bool.false_and]
    . dsimp only
      rw [hahead, List.lookup_cons, beq_false_of_ne heq]
  unfold terminator
  cases s.ahead.lookup position with
  | some r => rfl
  | none =>
    dsimp only
    cases ht : d.token? position with
    | none => rfl
    | some t =>
      cases t with
      | jumpPoint index => exact hkeep _ _ _ ht rfl (ahead_addJumpPoint s d index position)
      | finish => exact hkeep _ _ _ ht rfl rfl
      | _ => rfl

theorem branchJump_moves (d : Draft) (s : Assembly) (cursor : Nat) (h : cursor < d.size)
    : (branchJump d s cursor h).2.1.opens d = s.opens d ∧
        (branchJump d s cursor h).2.2.val = d.branchStart cursor := by
  unfold branchJump Draft.branchStart
  split
  . next index hjump =>
    have hjumps : (d.token? (cursor + 1)).any (·.isConditionalJump) = true := by
      rw [hjump]
      rfl
    rw [if_pos hjumps]
    exact ⟨rfl, rfl⟩
  . next hjump =>
    have hjumps : ¬(d.token? (cursor + 1)).any (·.isConditionalJump) = true := by
      intro hany
      cases ht : d.token? (cursor + 1) with
      | none => simp [ht] at hany
      | some t =>
        rw [ht] at hany
        cases t with
        | conditionalJump index => exact hjump index ht
        | _ => contradiction
    rw [if_neg hjumps]
    exact ⟨rfl, rfl⟩

end Opens

/-
The cases follow the mutual recursion of the assembly, and so does the measure. Unlike there, nothing is assumed
about the state.
-/
mutual

theorem element_passes (d : Draft) (s : Assembly) (cursor : Nat) (h : cursor < d.size)
    : (element d s cursor h).2.1.opens d = s.opens d ∧
        ∃ count, d.Passes (s.opens d) cursor (element d s cursor h).2.2.val count := by
  have ht := d.token?_of_lt h
  rw [element.eq_def]
  cases hlookup : s.ahead.lookup cursor with
  | some r =>
    have hopens : s.opens d cursor = false := by simp [opens, hlookup]
    exact ⟨rfl, 1, .single hopens⟩
  | none =>
    have hopens : s.opens d cursor = d.lexemes[cursor].token.isConditional := by simp [opens, hlookup, ht]
    generalize d.lexemes[cursor].token = t at hopens ⊢
    cases t with
    | jumpPoint index => exact ⟨opens_congr (ahead_addJumpPoint ..), 1, .single hopens⟩
    | conditional letter number =>
      obtain ⟨hkept, count, hbranch⟩ := conditional_branch d s cursor h
      exact ⟨hkept, count + 1, .nested hopens hbranch⟩
    | _ => exact ⟨rfl, 1, .single hopens⟩
termination_by (d.size - cursor, 1)

theorem conditional_branch (d : Draft) (s : Assembly) (cursor : Nat) (h : cursor < d.size)
    : (conditional d s cursor h).2.1.opens d = s.opens d ∧
        ∃ count, d.Branch (s.opens d) (d.branchStart cursor) (conditional d s cursor h).2.2.val count := by
  rw [conditional.eq_def]
  dsimp only
  have hjump := branchJump_moves d
    (add { s with conditionals := s.conditionals + 1 } d (.conditional { index := s.conditionals + 1 }) cursor).2
    cursor h
  generalize branchJump d _ cursor h = result at hjump ⊢
  obtain ⟨whenTrue, s₁, first, hfirst⟩ := result
  obtain ⟨hkept₁, hstart⟩ := hjump
  dsimp only at hkept₁ hstart ⊢
  obtain ⟨hkept, count, hbranch⟩ := branch_branch d s₁ first hfirst.right s.automaton.elements.size
  subst hstart
  rw [hkept₁] at hkept hbranch
  exact ⟨hkept, count, hbranch⟩
termination_by (d.size - cursor, 0)

theorem branch_branch (d : Draft) (s : Assembly) (cursor : Nat) (h : cursor ≤ d.size) (vertex : ElementRef)
    : (branch d s cursor h vertex).2.1.opens d = s.opens d ∧
        ∃ count, d.Branch (s.opens d) cursor (branch d s cursor h vertex).2.2.val count := by
  rw [branch.eq_def]
  split
  . next hempty => exact ⟨rfl, 0, .stop hempty⟩
  . exact branchFrom_branch d s cursor h none none
termination_by (d.size - cursor, 3)

theorem branchFrom_branch (d : Draft) (s : Assembly) (cursor : Nat) (h : cursor ≤ d.size)
    (head previous : Option ElementRef)
    : (branchFrom d s cursor h head previous).2.1.opens d = s.opens d ∧
        ∃ count, d.Branch (s.opens d) cursor (branchFrom d s cursor h head previous).2.2.val count := by
  rw [branchFrom.eq_def]
  split
  . next hcursor =>
    have ht := d.token?_of_lt hcursor
    dsimp only
    split
    . next hcloses =>
      have hstop : (d.token? cursor).all (·.closesBranch) = true := by
        rw [ht]
        exact hcloses
      have hkept := opens_terminator s d cursor
      split
      . next r s' hterminator =>
        rw [hterminator] at hkept
        exact ⟨(opens_linkFrom ..).trans hkept, 0, .stop hstop⟩
      . next s' hterminator =>
        rw [hterminator] at hkept
        exact ⟨hkept, 0, .stop hstop⟩
    . next hopen =>
      obtain ⟨hkept, count, hpasses⟩ := element_passes d s cursor hcursor
      generalize element d s cursor hcursor = result at hkept hpasses ⊢
      obtain ⟨r?, s', next, hnext⟩ := result
      dsimp only at hkept hpasses ⊢
      have hjumps : ∀ index, d.lexemes[cursor].token = .unconditionalJump index →
          ∃ count, d.Branch (s.opens d) cursor next count := by
        intro index htoken
        rw [htoken] at ht
        exact hpasses.branch_of_jump ht (by simp [opens, ht, Token.isConditional])
      have hrest : ∀ (s'' : Assembly) (head previous : Option ElementRef), s''.opens d = s.opens d →
          (∀ index, d.lexemes[cursor].token ≠ .unconditionalJump index) →
          (branchFrom d s'' next hnext.right head previous).2.1.opens d = s.opens d ∧ ∃ count,
            d.Branch (s.opens d) cursor (branchFrom d s'' next hnext.right head previous).2.2.val count := by
        intro s'' head previous hkept'' htoken
        obtain ⟨hkept', count', hbranch⟩ := branchFrom_branch d s'' next hnext.right head previous
        rw [hkept''] at hkept' hbranch
        have hgoes : (d.token? cursor).any (·.goesOn) = true := by
          rw [ht, Option.any_some]
          exact Token.goesOn_iff.mpr ⟨Bool.eq_false_iff.mpr hopen, htoken⟩
        exact ⟨hkept', hpasses.branch hgoes hbranch⟩
      cases r? with
      | none =>
        dsimp only
        split
        . next index htoken => exact ⟨hkept, hjumps index htoken⟩
        . next htoken => exact hrest s' head previous hkept htoken
      | some r =>
        have hlinked := (opens_linkFrom s' d previous r).trans hkept
        dsimp only
        split
        . next index htoken => exact ⟨hlinked, hjumps index htoken⟩
        . next htoken => exact hrest _ _ _ hlinked htoken
  . next hend =>
    refine ⟨rfl, 0, .stop ?_⟩
    rw [d.token?_eq_none (Nat.le_of_not_lt hend)]
    rfl
termination_by (d.size - cursor, 2)

end

def advance (d : Draft) (x : Assembly × Nat × Option ElementRef) : Assembly × Nat × Option ElementRef :=
  let (s, cursor, previous) := x
  if h : cursor < d.size then
    let (r?, s, ⟨next, _⟩) := element d s cursor h
    match r? with
    | some r =>
      let s := s.linkFrom d previous r
      (s, next, s.fallsThrough r)
    | none => (s, next, previous)
  else
    x

theorem advance_eq (d : Draft) (s : Assembly) {cursor : Nat} (h : cursor < d.size) (previous : Option ElementRef)
    : ∃ s' previous', advance d (s, cursor, previous) = (s', (element d s cursor h).2.2.val, previous') ∧
        elements d s cursor previous = elements d s' (element d s cursor h).2.2.val previous' := by
  rw [elements.eq_def d s cursor]
  unfold advance
  dsimp only
  rw [dif_pos h, dif_pos h]
  generalize element d s cursor h = result
  obtain ⟨r?, s', next, hnext⟩ := result
  cases r? with
  | none => exact ⟨_, _, rfl, rfl⟩
  | some r => exact ⟨_, _, rfl, rfl⟩

/--
Each round of the main loop takes a lexeme at least, so the loop is over when they are used up.
-/
theorem exists_rounds (d : Draft) (s : Assembly) (cursor : Nat) (previous : Option ElementRef)
    (h : cursor ≤ d.size)
    : ∃ rounds previous', rounds ≤ d.size - cursor ∧
        (advance d)^[rounds] (s, cursor, previous) = (elements d s cursor previous, d.size, previous') := by
  by_cases hlt : cursor < d.size
  . obtain ⟨s', previous', hadvance, helements⟩ := advance_eq d s hlt previous
    generalize (element d s cursor hlt).2.2 = result at hadvance helements
    obtain ⟨next, hnext⟩ := result
    obtain ⟨rounds, last, hle, hrounds⟩ := exists_rounds d s' next previous' hnext.right
    refine ⟨rounds + 1, last, by omega, ?_⟩
    rw [Function.iterate_succ_apply, hadvance, helements, hrounds]
  . have heq : cursor = d.size := Nat.le_antisymm h (Nat.le_of_not_lt hlt)
    refine ⟨0, previous, Nat.zero_le _, ?_⟩
    rw [elements.eq_def, dif_neg hlt, heq]
    rfl
termination_by d.size - cursor

/--
Assembly makes progress from every state: an element moves the cursor on and not behind the end, a branch closes
at a place that is one of its own, and the main loop is over after as many rounds as there are lexemes left at
most. A branch that closes in front of a jump point or an end marker makes the branch around it close there too.
Which conditional vertices have branches of their own stays the same all along.
-/
theorem extent_exact (d : Draft) (s : Assembly)
    : (∀ cursor (h : cursor < d.size),
        let r := element d s cursor h
        r.2.1.opens d = s.opens d ∧ cursor < r.2.2.val ∧ r.2.2.val ≤ d.size ∧
          ∃ count, count ≤ r.2.2.val - cursor ∧ d.Passes (s.opens d) cursor r.2.2.val count) ∧
      (∀ cursor (h : cursor ≤ d.size) vertex,
        let r := branch d s cursor h vertex
        r.2.1.opens d = s.opens d ∧ d.ClosesAt (s.opens d) cursor r.2.2.val ∧
          ∀ p, Relation.ReflTransGen (d.GoesOn (s.opens d)) cursor p → s.opens d p = true →
            ∀ s' : Assembly, s'.opens d = s.opens d → ∀ h' vertex',
              let inner := (branch d s' (d.branchStart p) h' vertex').2.2.val
              (d.token? inner).any (·.closesBranch) = true → r.2.2.val = inner) ∧
      ∀ cursor previous, cursor ≤ d.size →
        ∃ rounds previous', rounds ≤ d.size - cursor ∧
          (advance d)^[rounds] (s, cursor, previous) = (elements d s cursor previous, d.size, previous') := by
  refine ⟨?_, ?_, ?_⟩
  . intro cursor h r
    obtain ⟨hkept, count, hpasses⟩ := element_passes d s cursor h
    exact ⟨hkept, r.2.2.property.left, r.2.2.property.right, count, Nat.le_sub_of_add_le' hpasses.bounds, hpasses⟩
  . intro cursor h vertex r
    obtain ⟨hkept, count, hbranch⟩ := branch_branch d s cursor h vertex
    refine ⟨hkept, hbranch.closesAt r.2.2.property.right, ?_⟩
    intro p hreach hopens s' hsame h' vertex' inner hcloses
    obtain ⟨_, count', hinner⟩ := branch_branch d s' (d.branchStart p) h' vertex'
    rw [hsame] at hinner
    have hconditional : (d.token? p).any (·.isConditional) = true := (Bool.and_eq_true_iff.mp hopens).left
    exact hbranch.eq_of_nested hreach hopens hconditional hinner hcloses
  . exact exists_rounds d s

/--
The branch of `X1` holds that of `X2`, which stops in front of `↓1`.
-/
def nestedText : String :=
  "Yн X1 ↑1 X2 ↑2 Y1 ↓1 ↓2 Yк"

theorem extent_nestedText
    : let d := Draft.ofText nestedText
      let s : Assembly := { automaton := { tokens := [], source := nestedText } }
      ∃ (h : 3 ≤ d.size) (h' : d.branchStart 3 ≤ d.size),
        (branch d s (d.branchStart 3) h' 3).2.2.val = 6 ∧ (branch d s 3 h 1).2.2.val = 6 := by
  intro d s
  have hsize : 3 ≤ d.size := by decide +kernel
  have hstart : d.branchStart 3 ≤ d.size := by decide +kernel
  have hinner : d.Branch (s.opens d) (d.branchStart 3) 6 1 := by
    have hfive : d.branchStart 3 = 5 := by decide +kernel
    rw [hfive]
    apply Draft.Branch.single
    . decide +kernel
    . decide +kernel
    . apply Draft.Branch.stop
      decide +kernel
  obtain ⟨_, hbranch, _⟩ := extent_exact d s
  obtain ⟨_, _, hnested⟩ := hbranch 3 hsize 1
  obtain ⟨_, hcloses, _⟩ := hbranch (d.branchStart 3) hstart 3
  obtain ⟨_, _, hends⟩ := hcloses.terminates
  have hlast : (branch d s (d.branchStart 3) hstart 3).2.2.val = 6 := ((hends 6 1).mp hinner).left.symm
  refine ⟨hsize, hstart, hlast, ?_⟩
  rw [hnested 3 .refl (by decide +kernel) s rfl hstart 3 (by rw [hlast]; decide +kernel), hlast]

end Assembly

end LogicalScheme
