import LogicalScheme.Proofs.Assembly.Links
import LogicalScheme.Proofs.Construction

/-!
This module contains the assembly as a history of calls on a new automaton. Made in order, the calls give the
automaton that is assembled, and the links among them are those that are listed beside the assembly.
-/

namespace LogicalScheme

namespace Automaton

/--
The links of a history, each with the automaton that it is made on.
-/
def linksAlong (a : Automaton) : List Call → List LinkCall
  | [] => []
  | call :: calls =>
    let rest := (call.perform a).2.linksAlong calls
    match call with
    | .link source target => ⟨a, source, target⟩ :: rest
    | _ => rest

/--
The calls of a history build `b` from `a`, with the links `cs` among them. They are admissible if the sources of
the links are there.
-/
structure History (a : Automaton) (cs : List LinkCall) (b : Automaton) (calls : List Call) : Prop where
  builds : ∀ call ∈ calls, call.builds = true
  after : a.after calls = b
  links : a.linksAlong calls = cs
  admits : (∀ c ∈ cs, c.automaton.Has c.source) → a.Admits calls

def Replays (a : Automaton) (cs : List LinkCall) (b : Automaton) : Prop :=
  ∃ calls, a.History cs b calls

theorem linksAlong_append (a : Automaton) (before rest : List Call)
    : a.linksAlong (before ++ rest) = a.linksAlong before ++ (a.after before).linksAlong rest := by
  induction before generalizing a with
  | nil => rfl
  | cons call before ih =>
    have hrest := ih (call.perform a).2
    cases call with
    | link source target => exact congrArg (_ :: ·) hrest
    | _ => exact hrest

namespace Replays

variable {a b c : Automaton} {xs ys : List LinkCall}

theorem refl (a : Automaton) : a.Replays [] a :=
  ⟨[], by simp, rfl, rfl, fun _ => trivial⟩

theorem trans (hab : a.Replays xs b) (hbc : b.Replays ys c) : a.Replays (xs ++ ys) c := by
  obtain ⟨before, hbefore⟩ := hab
  obtain ⟨rest, hrest⟩ := hbc
  refine ⟨before ++ rest, ?_, ?_, ?_, ?_⟩
  . intro call hcall
    cases List.mem_append.mp hcall with
    | inl hcall => exact hbefore.builds call hcall
    | inr hcall => exact hrest.builds call hcall
  . rw [after_append, hbefore.after, hrest.after]
  . rw [linksAlong_append, hbefore.links, hbefore.after, hrest.links]
  . intro hhas
    rw [List.forall_mem_append] at hhas
    apply (hbefore.admits hhas.left).append
    rw [hbefore.after]
    exact hrest.admits hhas.right

theorem bares_prefix (h : a.Replays xs b) : a.bares <+: b.bares := by
  obtain ⟨calls, hcalls⟩ := h
  rw [← hcalls.after, bares_after]
  exact List.prefix_append _ _

theorem exists_bare {r : Nat} {e : Element} (h : a.Replays xs b) (he : a.element? r = some e)
    : ∃ f, b.element? r = some f ∧ f.bare = e.bare := by
  have hbare : a.bares[r]? = some e.bare := by
    rw [bares_getElem?, he]
    rfl
  obtain ⟨hlt, heq⟩ := List.getElem?_eq_some_iff.mp hbare
  have hkept := List.prefix_iff_getElem?.mp h.bares_prefix r hlt
  rw [bares_getElem?, heq] at hkept
  exact Option.map_eq_some_iff.mp hkept

theorem call (call : Call) (hbuilds : call.builds = true)
    (hadmissible : (∀ c ∈ a.linksAlong [call], c.automaton.Has c.source) → call.Admissible a)
    : a.Replays (a.linksAlong [call]) (call.perform a).2 := by
  refine ⟨[call], ?_, rfl, rfl, ?_⟩
  . intro x hx
    rw [List.mem_singleton.mp hx]
    exact hbuilds
  . exact fun hhas => ⟨hadmissible hhas, trivial⟩

theorem add (a : Automaton) (name : Name) (kind : Kind) (position : Nat)
    : a.Replays [] (a.add name kind position) :=
  .call (.add name kind position) rfl fun _ => trivial

theorem register (a : Automaton) (index : UInt32) (point : ElementRef)
    : a.Replays [] ((Call.register index point).perform a).2 :=
  .call (.register index point) rfl fun _ => trivial

theorem link (a : Automaton) (source target : ElementRef)
    : a.Replays [⟨a, source, target⟩] ((Call.link source target).perform a).2 := by
  apply call (.link source target) rfl
  intro hhas
  exact hhas _ List.mem_cons_self

theorem vertex {name : Name} {c : Conditional} {position : Nat} (whenTrue whenFalse : Option ElementRef)
    (h : (a.add name (.conditional c) position).Replays xs b)
    : a.Replays xs (b.setBranches a.elements.size whenTrue whenFalse) := by
  obtain ⟨e, he, hbare⟩ := h.exists_bare (element?_add_size a name (.conditional c) position)
  have hvertex : ((b.element? a.elements.size).bind (·.conditional?)).isSome = true := by
    rw [he, Option.bind_some, ← Element.isSome_conditional?_bare, hbare]
    rfl
  have hset : b.Replays [] (b.setBranches a.elements.size whenTrue whenFalse) :=
    .call (.setBranches a.elements.size whenTrue whenFalse) rfl fun _ => hvertex
  have hall := ((add a name (.conditional c) position).trans h).trans hset
  rw [List.append_nil] at hall
  exact hall

end Replays

end Automaton

def Draft.blank (d : Draft) : Automaton :=
  { tokens := d.lexemes.toList.map (·.text), source := d.source }

namespace Assembly

theorem linkFrom_replays (s : Assembly) (d : Draft) (previous : Option ElementRef) (target : ElementRef)
    : s.automaton.Replays (s.linkCalls previous target) (s.linkFrom d previous target).automaton := by
  unfold linkCalls linkFrom link
  cases previous with
  | none => exact .refl _
  | some source =>
    have hlink := Automaton.Replays.link s.automaton source target
    dsimp only [Automaton.Call.perform] at hlink ⊢
    split
    . next a hresult =>
      rw [hresult] at hlink
      exact hlink
    . next existing hresult =>
      rw [hresult] at hlink
      exact hlink

theorem addJumpPoint_replays (s : Assembly) (d : Draft) (index : UInt32) (position : Nat)
    : s.automaton.Replays [] (s.addJumpPoint d index position).2.automaton := by
  have hadd := Automaton.Replays.add s.automaton (d.name position) (.jumpPoint index) position
  have hregister := Automaton.Replays.register (s.automaton.add (d.name position) (.jumpPoint index) position)
    index s.automaton.elements.size
  unfold addJumpPoint
  dsimp only [add, Automaton.Call.perform] at hregister ⊢
  split
  . next a hresult =>
    rw [hresult] at hregister
    exact hadd.trans hregister
  . next first hresult =>
    rw [hresult] at hregister
    exact hadd.trans hregister

theorem terminator_replays (s : Assembly) (d : Draft) (position : Nat)
    : s.automaton.Replays [] (s.terminator d position).2.automaton := by
  unfold terminator
  cases s.ahead.lookup position with
  | some r => exact .refl _
  | none =>
    dsimp only
    cases d.token? position with
    | none => exact .refl _
    | some t =>
      cases t with
      | jumpPoint index => exact addJumpPoint_replays s d index position
      | finish => exact .add ..
      | _ => exact .refl _

theorem branchJump_replays (d : Draft) (s : Assembly) (cursor : Nat) (h : cursor < d.size)
    : s.automaton.Replays [] (branchJump d s cursor h).2.1.automaton := by
  unfold branchJump
  split
  . exact .add ..
  . exact .refl _

/-
The cases and the measure are those of the assembly, for every state. The calls in between are found where
the assembly makes them, and the links among them where they are listed.
-/
mutual

theorem element_replays (d : Draft) (s : Assembly) (cursor : Nat) (h : cursor < d.size)
    : s.automaton.Replays (elementCalls d s cursor h) (element d s cursor h).2.1.automaton := by
  rw [element.eq_def, elementCalls.eq_def]
  cases s.ahead.lookup cursor with
  | some r => exact .refl _
  | none =>
    dsimp only
    cases d.lexemes[cursor].token with
    | start => exact .refl _
    | jumpPoint index => exact addJumpPoint_replays s d index cursor
    | conditional letter number => exact conditional_replays d s cursor h
    | _ => exact .add ..
termination_by (d.size - cursor, 1)

theorem conditional_replays (d : Draft) (s : Assembly) (cursor : Nat) (h : cursor < d.size)
    : s.automaton.Replays (conditionalCalls d s cursor h) (conditional d s cursor h).2.1.automaton := by
  rw [conditional.eq_def, conditionalCalls.eq_def]
  have hjump := branchJump_replays d (addVertex d s cursor) cursor h
  unfold addVertex at hjump
  dsimp only at hjump ⊢
  generalize branchJump d _ cursor h = result at hjump ⊢
  obtain ⟨whenTrue, s₁, first, hfirst⟩ := result
  have hbranch := branch_replays d s₁ first hfirst.right s.automaton.elements.size
  exact (hjump.trans hbranch).vertex whenTrue _
termination_by (d.size - cursor, 0)

theorem branch_replays (d : Draft) (s : Assembly) (cursor : Nat) (h : cursor ≤ d.size) (vertex : ElementRef)
    : s.automaton.Replays (branchCalls d s cursor) (branch d s cursor h vertex).2.1.automaton := by
  rw [branch.eq_def, branchCalls.eq_def]
  split
  . exact .refl _
  . exact branchFrom_replays d s cursor h none none
termination_by (d.size - cursor, 3)

theorem branchFrom_replays (d : Draft) (s : Assembly) (cursor : Nat) (h : cursor ≤ d.size)
    (head previous : Option ElementRef)
    : s.automaton.Replays (branchFromCalls d s cursor previous)
        (branchFrom d s cursor h head previous).2.1.automaton := by
  rw [branchFrom.eq_def, branchFromCalls.eq_def]
  by_cases hcursor : cursor < d.size
  . simp only [hcursor, ↓reduceDIte]
    have hterminator := terminator_replays s d cursor
    have helement := element_replays d s cursor hcursor
    split
    . generalize s.terminator d cursor = result at hterminator ⊢
      obtain ⟨r?, s'⟩ := result
      cases r? with
      | none => exact hterminator
      | some r => exact hterminator.trans (linkFrom_replays s' d previous r)
    . generalize element d s cursor hcursor = result at helement ⊢
      obtain ⟨r?, s', next, hnext⟩ := result
      cases r? with
      | none =>
        dsimp only at helement ⊢
        rw [List.append_nil]
        generalize d.lexemes[cursor].token = t
        cases t with
        | unconditionalJump index => exact helement
        | _ => exact helement.trans (branchFrom_replays ..)
      | some r =>
        dsimp only at helement ⊢
        have hlinked := helement.trans (linkFrom_replays s' d previous r)
        generalize d.lexemes[cursor].token = t
        cases t with
        | unconditionalJump index => exact hlinked
        | _ => exact hlinked.trans (branchFrom_replays ..)
  . simp only [hcursor, ↓reduceDIte]
    exact .refl _
termination_by (d.size - cursor, 2)

end

theorem elements_replays (d : Draft) (s : Assembly) (cursor : Nat) (previous : Option ElementRef)
    : s.automaton.Replays (elementsCalls d s cursor previous) (elements d s cursor previous).automaton := by
  rw [elements.eq_def, elementsCalls.eq_def]
  by_cases hcursor : cursor < d.size
  . simp only [hcursor, ↓reduceDIte]
    have helement := element_replays d s cursor hcursor
    generalize element d s cursor hcursor = result at helement ⊢
    obtain ⟨r?, s', next, hnext⟩ := result
    dsimp only at helement ⊢
    cases r? with
    | none => exact helement.trans (elements_replays d s' next previous)
    | some r => exact (helement.trans (linkFrom_replays s' d previous r)).trans (elements_replays ..)
  . simp only [hcursor, ↓reduceDIte]
    exact .refl _
termination_by d.size - cursor

/--
The assembly of a draft is a history of calls whose links are the listed ones.
-/
theorem ofDraft_replays (d : Draft) : d.blank.Replays (calls d) (ofDraft d).automaton := by
  rw [ofDraft_eq]
  have hstart := Automaton.Replays.add d.blank ⟨Token.start.text⟩ .start 0
  exact hstart.trans (elements_replays d (initial d) (entry d) (some 0))

end Assembly

end LogicalScheme
