import LogicalScheme.Proofs.Visits

/-!
This module contains what transitions reach. The search for it is exact, and an element that it does not come
to is one that no run visits.
-/

namespace LogicalScheme

namespace Automaton

def Connects (a : Automaton) (r s : ElementRef) : Prop :=
  s ∈ (a.transitions r).map (·.2)

variable {a : Automaton} {r s : Nat}

theorem Connects.has (h : a.Connects r s) : a.Has r := by
  unfold Connects transitions at h
  cases he : a.element? r with
  | none =>
    rw [he] at h
    contradiction
  | some e => exact lt_size_of_element? he

theorem mem_or_reflTransGen_of_mem_reach {seen pending : List Nat} (h : r ∈ a.reach seen pending)
    : r ∈ seen ∨ a.Has r ∧ ∃ p ∈ pending, Relation.ReflTransGen a.Connects p r := by
  fun_induction reach a seen pending with
  | case1 seen => exact .inl h
  | case2 seen p pending hp ih =>
    rcases ih h with hmem | ⟨hr, q, hq, hreach⟩
    . cases List.mem_cons.mp hmem with
      | inl heq =>
        rw [heq]
        exact .inr ⟨hp.left, p, List.mem_cons_self, .refl⟩
      | inr hmem => exact .inl hmem
    . cases List.mem_append.mp hq with
      | inl hq => exact .inr ⟨hr, p, List.mem_cons_self, .head hq hreach⟩
      | inr hq => exact .inr ⟨hr, q, List.mem_cons_of_mem p hq, hreach⟩
  | case3 seen p pending _ ih =>
    rcases ih h with hmem | ⟨hr, q, hq, hreach⟩
    . exact .inl hmem
    . exact .inr ⟨hr, q, List.mem_cons_of_mem p hq, hreach⟩

theorem mem_reach_of_mem {seen pending : List Nat} (h : r ∈ seen ∨ r ∈ pending ∧ a.Has r)
    : r ∈ a.reach seen pending := by
  fun_induction reach a seen pending with
  | case1 seen =>
    cases h with
    | inl h => exact h
    | inr h => exact absurd h.left List.not_mem_nil
  | case2 seen p pending hp ih =>
    apply ih
    rcases h with h | ⟨h, hr⟩
    . exact .inl (List.mem_cons_of_mem p h)
    . cases List.mem_cons.mp h with
      | inl heq =>
        rw [heq]
        exact .inl List.mem_cons_self
      | inr h => exact .inr ⟨List.mem_append_right _ h, hr⟩
  | case3 seen p pending hp ih =>
    apply ih
    rcases h with h | ⟨h, hr⟩
    . exact .inl h
    . cases List.mem_cons.mp h with
      | inl heq =>
        rw [heq] at hr ⊢
        exact .inl (Decidable.byContradiction fun hseen => hp ⟨hr, hseen⟩)
      | inr h => exact .inr ⟨h, hr⟩

theorem reach_closed {seen pending : List Nat}
    (hinv : ∀ x ∈ seen, ∀ y, a.Connects x y → a.Has y → y ∈ seen ∨ y ∈ pending)
    : ∀ x ∈ a.reach seen pending, ∀ y, a.Connects x y → a.Has y → y ∈ a.reach seen pending := by
  fun_induction reach a seen pending with
  | case1 seen =>
    intro x hx y hxy hy
    cases hinv x hx y hxy hy with
    | inl h => exact h
    | inr h => exact absurd h List.not_mem_nil
  | case2 seen p pending hp ih =>
    apply ih
    intro x hx y hxy hy
    cases List.mem_cons.mp hx with
    | inl heq =>
      rw [heq] at hxy
      exact .inr (List.mem_append_left pending hxy)
    | inr hx =>
      cases hinv x hx y hxy hy with
      | inl h => exact .inl (List.mem_cons_of_mem p h)
      | inr h =>
        cases List.mem_cons.mp h with
        | inl heq =>
          rw [heq]
          exact .inl List.mem_cons_self
        | inr h => exact .inr (List.mem_append_right _ h)
  | case3 seen p pending hp ih =>
    apply ih
    intro x hx y hxy hy
    cases hinv x hx y hxy hy with
    | inl h => exact .inl h
    | inr h =>
      cases List.mem_cons.mp h with
      | inl heq =>
        rw [heq] at hy ⊢
        exact .inl (Decidable.byContradiction fun hseen => hp ⟨hy, hseen⟩)
      | inr h => exact .inr h

theorem mem_reach_iff {start : Nat}
    : r ∈ a.reach [] [start] ↔ a.Has r ∧ Relation.ReflTransGen a.Connects start r := by
  constructor
  . intro h
    rcases mem_or_reflTransGen_of_mem_reach h with hmem | ⟨hr, p, hp, hreach⟩
    . contradiction
    . rw [List.mem_singleton.mp hp] at hreach
      exact ⟨hr, hreach⟩
  . intro ⟨hr, hreach⟩
    induction hreach with
    | refl => exact mem_reach_of_mem (.inr ⟨List.mem_cons_self, hr⟩)
    | tail _ hstep ih => exact reach_closed (by simp) _ (ih hstep.has) _ hstep hr

theorem mem_unreachableFrom_iff {start : Nat}
    : r ∈ a.unreachableFrom start ↔ a.Has r ∧ ¬Relation.ReflTransGen a.Connects start r := by
  unfold unreachableFrom
  rw [List.mem_filter, mem_refs]
  constructor
  . intro ⟨hr, hnot⟩
    refine ⟨hr, ?_⟩
    intro hreach
    have hmem := mem_reach_iff.mpr ⟨hr, hreach⟩
    simp [hmem] at hnot
  . intro ⟨hr, hnot⟩
    refine ⟨hr, ?_⟩
    have hmem : r ∉ a.reach [] [start] := fun hmem => hnot (mem_reach_iff.mp hmem).right
    simp [hmem]

end Automaton

namespace Draft

def JumpsTo (d : Draft) (r q : Nat) : Prop :=
  ∃ t index, d.token? r = some t ∧ t.jumpTarget? = some index ∧ d.token? q = some (.jumpPoint index)

end Draft

namespace Automaton.Valued

variable {d : Draft} {a : Automaton} {r s : Nat}

theorem connects_iff_of_fallsThrough {t : Token} (hd : d.WellFormed) (ha : a.Valued d)
    (ht : d.token? r = some t) (hfalls : t.fallsThrough = true)
    : a.Connects r s ↔ r + 1 < d.size ∧ r + 1 = s := by
  unfold Connects transitions
  rw [ha.element? hd ht]
  cases t with
  | start | operator n | jumpPoint n =>
    simp [Token.kind, Draft.successor, Kind.fallsThrough, and_comm]
  | _ => contradiction

theorem not_connects_finish (hd : d.WellFormed) (ha : a.Valued d) (ht : d.token? r = some .finish)
    : ¬a.Connects r s := by
  unfold Connects transitions
  rw [ha.element? hd ht]
  simp [Token.kind, Draft.successor, Kind.fallsThrough]

theorem connects_iff_of_conditional {l : Letter} {n : UInt32} (hd : d.WellFormed) (ha : a.Valued d)
    (ht : d.token? r = some (.conditional l n)) : a.Connects r s ↔ s = r + 1 ∨ s = r + 2 := by
  have hc := hd.conditional_eq ht
  unfold Connects transitions
  rw [ha.element? hd ht, hc]
  simp [Token.kind, Draft.successor, Kind.fallsThrough]

theorem connects_iff_of_jumpTarget? {t : Token} {index : UInt32} (hd : d.WellFormed) (ha : a.Valued d)
    (ht : d.token? r = some t) (hindex : t.jumpTarget? = some index)
    : a.Connects r s ↔ d.token? s = some (.jumpPoint index) := by
  rw [← hd.layout_jumpPoint?, ← ha.jumpPoint?]
  unfold Connects transitions
  rw [ha.element? hd ht]
  cases t with
  | conditionalJump n | unconditionalJump n =>
    cases hindex
    simp [Token.kind, Draft.successor, Kind.fallsThrough]
  | _ => contradiction

theorem leads_or_jumpsTo_of_connects (hd : d.WellFormed) (ha : a.Valued d) (h : a.Connects r s)
    : d.Leads r s ∨ d.JumpsTo r s := by
  have hr : r < d.size := by
    rw [← ha.size hd]
    exact h.has
  have ht := d.token?_of_lt hr
  generalize d.lexemes[r].token = t at ht
  cases t with
  | start | operator n | jumpPoint n =>
    obtain ⟨hnext, rfl⟩ := (ha.connects_iff_of_fallsThrough hd ht rfl).mp h
    exact .inl (.through ht rfl hnext)
  | finish => exact absurd h (ha.not_connects_finish hd ht)
  | conditional l n =>
    rcases (ha.connects_iff_of_conditional hd ht).mp h with rfl | rfl
    . exact .inl (.whenTrue ht)
    . exact .inl (.whenFalse ht)
  | conditionalJump n | unconditionalJump n =>
    exact .inr ⟨_, n, ht, rfl, (ha.connects_iff_of_jumpTarget? hd ht rfl).mp h⟩

theorem connects_of_jumpsTo (hd : d.WellFormed) (ha : a.Valued d) (h : d.JumpsTo r s)
    : a.Connects r s := by
  obtain ⟨t, index, ht, hindex, hs⟩ := h
  exact (ha.connects_iff_of_jumpTarget? hd ht hindex).mpr hs

theorem reflTransGen_connects_of_leads (hd : d.WellFormed) (ha : a.Valued d) (h : d.Leads r s)
    : Relation.ReflTransGen a.Connects r s := by
  cases h with
  | through ht hfalls hnext =>
    exact .single ((ha.connects_iff_of_fallsThrough hd ht hfalls).mpr ⟨hnext, rfl⟩)
  | whenTrue ht => exact .single ((ha.connects_iff_of_conditional hd ht).mpr (.inl rfl))
  | whenFalse ht => exact .single ((ha.connects_iff_of_conditional hd ht).mpr (.inr rfl))
  | jump ht hindex hq =>
    -- one step of control is two transitions here
    have hpoint := (ha.connects_iff_of_jumpTarget? hd ht hindex).mpr hq
    have hnext := (ha.connects_iff_of_fallsThrough hd hq rfl).mpr ⟨hd.point_onward _ _ hq, rfl⟩
    exact .tail (.single hpoint) hnext

/--
Transitions reach what steps of control reach and the jump points of the jumps among it.
-/
theorem reflTransGen_connects_iff (hd : d.WellFormed) (ha : a.Valued d)
    : Relation.ReflTransGen a.Connects 0 r ↔
        Relation.ReflTransGen d.Leads 0 r ∨ ∃ j, Relation.ReflTransGen d.Leads 0 j ∧ d.JumpsTo j r := by
  constructor
  . intro h
    induction h with
    | refl => exact .inl .refl
    | @tail r s _ hstep ih =>
      -- a transition comes to a jump point that control only passes over
      rcases ih with hr | ⟨j, hj, t, index, ht, hindex, hpoint⟩
      . cases ha.leads_or_jumpsTo_of_connects hd hstep with
        | inl hlead => exact .inl (.tail hr hlead)
        | inr hjump => exact .inr ⟨r, hr, hjump⟩
      . obtain ⟨_, rfl⟩ := (ha.connects_iff_of_fallsThrough hd hpoint rfl).mp hstep
        exact .inl (.tail hj (.jump ht hindex hpoint))
  . have hlift : ∀ s, Relation.ReflTransGen d.Leads 0 s → Relation.ReflTransGen a.Connects 0 s := by
      intro s hs
      induction hs with
      | refl => exact .refl
      | tail _ hstep ih => exact ih.trans (ha.reflTransGen_connects_of_leads hd hstep)
    intro h
    rcases h with h | ⟨j, hj, hjump⟩
    . exact hlift r h
    . exact .tail (hlift j hj) (ha.connects_of_jumpsTo hd hjump)

end Automaton.Valued

namespace Scheme

def Visits (s : Scheme) (v : ConditionVector) (r : ElementRef) : Prop :=
  v.length = s.conditionalCount ∧ ∃ t, (s.runWith v.text false).1 = .ok t ∧ r ∈ t.path

variable {d : Draft} {s : Scheme} {r : Nat}

theorem exists_visits_iff (hd : d.WellFormed) (hs : s.automaton.Valued d)
    : (∃ v, s.Visits v r) ↔ Relation.ReflTransGen d.Leads 0 r := by
  have hcount : s.conditionalCount = d.conditionals d.size := hs.conditionalCount_eq
  rw [← hs.exists_visit_iff false hd]
  unfold Visits
  rw [hcount]
  constructor
  . intro ⟨v, hv, t, hrun, hr⟩
    rw [runWith_text hs hv] at hrun
    exact ⟨v, t, hv, hrun, hr⟩
  . intro ⟨v, t, hv, hrun, hr⟩
    refine ⟨v, hv, t, ?_, hr⟩
    rw [runWith_text hs hv, hrun]

theorem mem_unreachable_iff (hd : d.WellFormed) (hs : s.automaton.Valued d)
    : r ∈ s.unreachable ↔ r < d.size ∧ (¬∃ v, s.Visits v r) ∧ ¬∃ j, (∃ v, s.Visits v j) ∧ d.JumpsTo j r := by
  unfold unreachable
  rw [hs.start?_eq hd]
  simp only
  rw [Automaton.mem_unreachableFrom_iff, hs.reflTransGen_connects_iff hd, not_or, Automaton.Has,
    hs.size hd]
  simp only [exists_visits_iff hd hs]

theorem unreachable_eq {s' : Scheme} (hd : d.WellFormed) (hs : s.automaton.Valued d)
    (hs' : s'.automaton.Valued d) : s.unreachable = s'.unreachable := by
  have hrefs : s.automaton.refs = s'.automaton.refs := by
    unfold Automaton.refs
    rw [hs.size hd, hs'.size hd]
  have hreach : ∀ r, r ∈ s.automaton.reach [] [0] ↔ r ∈ s'.automaton.reach [] [0] := by
    intro r
    rw [Automaton.mem_reach_iff, Automaton.mem_reach_iff, hs.reflTransGen_connects_iff hd,
      hs'.reflTransGen_connects_iff hd, Automaton.Has, Automaton.Has, hs.size hd, hs'.size hd]
  unfold unreachable
  rw [hs.start?_eq hd, hs'.start?_eq hd]
  simp only
  unfold Automaton.unreachableFrom
  rw [hrefs]
  apply List.filter_congr
  intro r _
  simp [hreach r]

theorem unreachable_pairwise (hd : d.WellFormed) (hs : s.automaton.Valued d)
    : (s.unreachable.map s.automaton.position).Pairwise (· < ·) := by
  have hsame : s.unreachable.map s.automaton.position = s.unreachable := by
    conv => rhs; rw [← List.map_id s.unreachable]
    apply List.map_congr_left
    intro r hr
    exact hs.position_eq hd ((mem_unreachable_iff hd hs).mp hr).left
  rw [hsame]
  unfold unreachable
  rw [hs.start?_eq hd]
  exact List.pairwise_lt_range.filter _

theorem jumpsTo_iff {j : Nat} {index : UInt32} (hd : d.WellFormed) (hs : s.automaton.Valued d)
    (hr : d.token? r = some (.jumpPoint index))
    : d.JumpsTo j r ↔ ∃ e unconditional, s.automaton.element? j = some e ∧
        e.kind = .jump index unconditional := by
  unfold Draft.JumpsTo
  constructor
  . rintro ⟨t, index', ht, hindex, hpoint⟩
    cases hpoint.symm.trans hr
    refine ⟨_, t == .unconditionalJump index, hs.element? hd ht, ?_⟩
    cases t with
    | conditionalJump n | unconditionalJump n =>
      cases hindex
      simp [Token.kind]
    | _ => contradiction
  . rintro ⟨e, unconditional, he, hkind⟩
    have hj : j < d.size := by
      rw [← hs.size hd]
      exact Automaton.lt_size_of_element? he
    have ht := d.token?_of_lt hj
    rw [hs.element? hd ht] at he
    cases he
    refine ⟨_, index, ht, ?_, hr⟩
    generalize d.lexemes[j].token = t at hkind
    cases t with
    | conditionalJump n | unconditionalJump n =>
      cases hkind
      rfl
    | _ => cases hkind

/--
A diagnostic warns that an element of a parsed text is unreachable, at its position and on its lexeme.
-/
def Warns (p : Parsed) (r : ElementRef) (w : Diagnostic) : Prop :=
  ∃ e l, p.automaton.element? r = some e ∧ p.lexemes[e.position]? = some l ∧ w.severity = .warning ∧
    w.code = some .unreachableElement ∧ w.position = some e.position ∧
    w.labels = [.mark l.span "unreachable element"]

theorem parse_eq {text : String} {p : Parsed} (hparse : LogicalScheme.parse text = .ok p)
    (settings : Settings)
    : ∃ t : Scheme, t.automaton = p.automaton ∧ t.lexemes = p.lexemes ∧
        t.warnings = t.unreachable.map t.unreachableWarning ∧
        parse settings text =
          if settings.warningsAsErrors = true ∧ t.unreachable ≠ [] then
            .error (.malformed (.ofDiagnostics (t.warnings.map (·.promote))) (Text.normalize text))
          else .ok t := by
  obtain ⟨_, _, _, hnil⟩ := wellFormed_of_parse hparse
  let t : Scheme :=
    { automaton := p.automaton, lexemes := p.lexemes, maxConditionals := settings.maxConditionals }
  refine ⟨{ t with warnings := t.unreachable.map t.unreachableWarning }, rfl, rfl, rfl, ?_⟩
  unfold parse
  simp only [hparse, hnil, List.nil_append, Bool.and_eq_true, Bool.not_eq_true', List.isEmpty_eq_false_iff,
    ne_eq, List.map_eq_nil_iff]
  rfl

theorem warns_unreachableWarning {p : Parsed} (hd : d.WellFormed) (hautomaton : p.automaton = d.layout)
    (hlexemes : p.lexemes = d.lexemes.toList) (hs : s.automaton = p.automaton)
    (hs' : s.lexemes = p.lexemes) (hr : r < d.size) : Warns p r (s.unreachableWarning r) := by
  have hposition : s.automaton.position r = r := by
    rw [hs, hautomaton]
    exact (Automaton.valued_layout d).position_eq hd hr
  have hl : p.lexemes[r]? = some d.lexemes[r] := by
    rw [hlexemes, Array.getElem?_toList, Array.getElem?_eq_getElem hr]
  have he := hd.layout_element? (d.token?_of_lt hr)
  rw [← hautomaton] at he
  refine ⟨_, d.lexemes[r], he, hl, rfl, rfl, ?_, ?_⟩
  . unfold unreachableWarning
    rw [hposition]
  . unfold unreachableWarning
    simp only [hposition, hs', hl]
    rfl

theorem mem_unreachable_iff_of_not_isJumpPoint {e : Element} (hd : d.WellFormed)
    (hs : s.automaton.Valued d) (he : s.automaton.element? r = some e) (hpoint : e.isJumpPoint = false)
    : r ∈ s.unreachable ↔ ¬∃ v, s.Visits v r := by
  have hr : r < d.size := by
    rw [← hs.size hd]
    exact Automaton.lt_size_of_element? he
  have hjump : ¬∃ j, (∃ v, s.Visits v j) ∧ d.JumpsTo j r := by
    intro ⟨_, _, _, _, _, _, ht⟩
    rw [hs.element? hd ht] at he
    cases he
    contradiction
  rw [mem_unreachable_iff hd hs]
  constructor
  . intro ⟨_, hnot, _⟩
    exact hnot
  . intro hnot
    exact ⟨hr, hnot, hjump⟩

theorem mem_unreachable_iff_of_jumpPoint {e : Element} {index : UInt32} (hd : d.WellFormed)
    (hs : s.automaton.Valued d) (he : s.automaton.element? r = some e) (hkind : e.kind = .jumpPoint index)
    : r ∈ s.unreachable ↔ (¬∃ v, s.Visits v r) ∧
        ¬∃ v j f unconditional, s.Visits v j ∧ s.automaton.element? j = some f ∧
          f.kind = .jump index unconditional := by
  have hr : r < d.size := by
    rw [← hs.size hd]
    exact Automaton.lt_size_of_element? he
  have hpoint := hs.token?_of_jumpPoint hd he hkind
  rw [mem_unreachable_iff hd hs]
  simp only [jumpsTo_iff hd hs hpoint]
  constructor
  . intro ⟨_, hnot, hjump⟩
    refine ⟨hnot, ?_⟩
    intro ⟨v, j, f, unconditional, hv, hf, hkind⟩
    exact hjump ⟨j, ⟨v, hv⟩, f, unconditional, hf, hkind⟩
  . intro ⟨hnot, hjump⟩
    refine ⟨hr, hnot, ?_⟩
    intro ⟨j, ⟨v, hv⟩, f, unconditional, hf, hkind⟩
    exact hjump ⟨v, j, f, unconditional, hv, hf, hkind⟩

theorem parse_warns {text : String} {p : Parsed} (hparse : LogicalScheme.parse text = .ok p)
    (hd : d.WellFormed) (hautomaton : p.automaton = d.layout) (hlexemes : p.lexemes = d.lexemes.toList)
    (hs : s.automaton.Valued d) (settings : Settings)
    : ((∃ e, parse settings text = .error e) ↔
          settings.warningsAsErrors = true ∧ s.unreachable ≠ []) ∧
        ∀ t, parse settings text = .ok t → List.Forall₂ (Warns p) s.unreachable t.warnings := by
  obtain ⟨t, htautomaton, htlexemes, hwarnings, hparsed⟩ := parse_eq hparse settings
  have ht : t.automaton.Valued d := by
    rw [htautomaton, hautomaton]
    exact Automaton.valued_layout d
  rw [unreachable_eq hd hs ht]
  split at hparsed
  . next hrejected =>
    refine ⟨⟨fun _ => hrejected, fun _ => ⟨_, hparsed⟩⟩, ?_⟩
    intro t' ht'
    cases hparsed.symm.trans ht'
  . next haccepted =>
    constructor
    . constructor
      . intro ⟨e, he⟩
        cases he.symm.trans hparsed
      . intro h
        exact absurd h haccepted
    . intro t' ht'
      cases hparsed.symm.trans ht'
      rw [hwarnings, List.forall₂_map_right_iff, List.forall₂_same]
      intro r hr
      have hlt := ((mem_unreachable_iff hd ht).mp hr).left
      exact warns_unreachableWarning hd hautomaton hlexemes htautomaton htlexemes hlt

/--
The elements that are called unreachable are those that no run visits, and a jump point is called so only if
no run visits a jump to it either. All this is independent of the values that conditions have.
-/
theorem unreachable_exact {text : String} {p : Parsed} {s : Scheme}
    (hparse : LogicalScheme.parse text = .ok p) (hs : s.automaton.reset = p.automaton)
    : (∀ r e, s.automaton.element? r = some e → e.isJumpPoint = false →
        (r ∈ s.unreachable ↔ ¬∃ v, s.Visits v r)) ∧
      (∀ r e index, s.automaton.element? r = some e → e.kind = .jumpPoint index →
        (r ∈ s.unreachable ↔ (¬∃ v, s.Visits v r) ∧
          ¬∃ v j f unconditional, s.Visits v j ∧ s.automaton.element? j = some f ∧
            f.kind = .jump index unconditional)) ∧
      (∀ r ∈ s.unreachable, s.automaton.Has r) ∧
      (s.unreachable.map s.automaton.position).Pairwise (· < ·) ∧
      ∀ settings,
        ((∃ e, parse settings text = .error e) ↔
          settings.warningsAsErrors = true ∧ s.unreachable ≠ []) ∧
        ∀ t, parse settings text = .ok t → List.Forall₂ (Warns p) s.unreachable t.warnings := by
  obtain ⟨hd, hautomaton, hlexemes, _⟩ := wellFormed_of_parse hparse
  generalize Draft.ofText text = d at *
  have ha : s.automaton.Valued d := hs.trans hautomaton
  refine ⟨?_, ?_, ?_, unreachable_pairwise hd ha, parse_warns hparse hd hautomaton hlexemes ha⟩
  . intro r e he hpoint
    exact mem_unreachable_iff_of_not_isJumpPoint hd ha he hpoint
  . intro r e index he hkind
    exact mem_unreachable_iff_of_jumpPoint hd ha he hkind
  . intro r hr
    have hlt := ((mem_unreachable_iff hd ha).mp hr).left
    rw [← ha.size hd] at hlt
    exact hlt

def skippingText : String :=
  "Yн w↑1 Y1 ↓1 Yк"

theorem parse_skippingText
    : LogicalScheme.parse skippingText = .ok (Parsed.ofText skippingText) := by
  apply parse_eq_ok_iff.mpr
  refine ⟨rfl, ?_⟩
  rw [Parsed.ofText_eq]
  decide +kernel

def skippingScheme : Scheme :=
  { automaton := (Parsed.ofText skippingText).automaton
    lexemes := (Parsed.ofText skippingText).lexemes
    maxConditionals := 20 }

theorem unreachable_skippingScheme : skippingScheme.unreachable = [2] := by
  have hreach : (Draft.ofText skippingText).layout.reach [] [0] = [4, 3, 1, 0] := by
    have hstart : (Draft.ofText skippingText).layout.transitions 0 = [(.next, 1)] := by decide +kernel
    have hjump : (Draft.ofText skippingText).layout.transitions 1 = [(.jump, 3)] := by decide +kernel
    have hpoint : (Draft.ofText skippingText).layout.transitions 3 = [(.next, 4)] := by decide +kernel
    have hfinish : (Draft.ofText skippingText).layout.transitions 4 = [] := by decide +kernel
    have hhas : ∀ r < 5, (Draft.ofText skippingText).layout.Has r := by decide +kernel
    simp [Automaton.reach, hhas, hstart, hjump, hpoint, hfinish]
  have hhead : (Draft.ofText skippingText).layout.start? = some 0 := by decide +kernel
  unfold skippingScheme unreachable Automaton.unreachableFrom
  rw [Parsed.ofText_eq]
  simp only [hhead, hreach]
  decide +kernel

theorem parse_strict_skippingText
    : ∃ e, parse { warningsAsErrors := true } skippingText = .error e := by
  obtain ⟨_, _, _, _, hsettings⟩ := unreachable_exact (s := skippingScheme) parse_skippingText
    (Parsed.reset_automaton skippingText)
  apply (hsettings { warningsAsErrors := true }).left.mpr
  rw [unreachable_skippingScheme]
  exact ⟨rfl, by simp⟩

end Scheme

end LogicalScheme
