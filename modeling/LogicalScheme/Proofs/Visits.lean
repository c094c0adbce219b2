import LogicalScheme.Proofs.Machine
import LogicalScheme.Proofs.Steps

/-!
This module contains accepted schemes and what their runs visit: all that steps of control can reach from
the start, and nothing else.
-/

namespace LogicalScheme

section Walks

variable {α : Type} {R : α → α → Prop} {a b : α}

theorem reflTransGen_of_mem {l : List α} (hchain : l.IsChain R) (hhead : l.head? = some a) (hb : b ∈ l)
    : Relation.ReflTransGen R a b := by
  induction l generalizing a with
  | nil => contradiction
  | cons x l ih =>
    cases hhead
    cases List.mem_cons.mp hb with
    | inl heq =>
      rw [heq]
    | inr hmem =>
      rw [List.isChain_cons] at hchain
      cases l with
      | nil => contradiction
      | cons y l => exact .head (hchain.left y rfl) (ih hchain.right rfl hmem)

theorem exists_walk {P : α → Prop} (h : Relation.ReflTransGen R a b) (hb : P b)
    : ∃ walk last, (walk ++ [last]).head? = some a ∧ (walk ++ [last]).IsChain R ∧ walk.Nodup ∧
        P last ∧ ∀ w ∈ walk, ¬P w := by
  induction h using Relation.ReflTransGen.head_induction_on with
  | refl => exact ⟨[], b, rfl, List.isChain_singleton b, List.nodup_nil, hb, by simp⟩
  | @head a c hac hcb ih =>
    obtain ⟨walk, last, hhead, hchain, hnodup, hlast, hwalk⟩ := ih
    by_cases ha : P a
    . exact ⟨[], a, rfl, List.isChain_singleton a, List.nodup_nil, ha, by simp⟩
    . by_cases hmem : a ∈ walk
      -- the walk comes back to its beginning, so the lap is left out
      . obtain ⟨before, after, rfl⟩ := List.append_of_mem hmem
        rw [List.append_assoc] at hchain
        refine ⟨a :: after, last, rfl, hchain.right_of_append, hnodup.of_append_right, hlast, ?_⟩
        intro w hw
        exact hwalk w (List.mem_append_right before hw)
      . refine ⟨a :: walk, last, rfl, ?_, List.nodup_cons.mpr ⟨hmem, hnodup⟩, hlast, ?_⟩
        . exact isChain_cons_of_head? hac hhead hchain
        . intro w hw
          cases List.mem_cons.mp hw with
          | inl heq =>
            rw [heq]
            exact ha
          | inr hw => exact hwalk w hw

end Walks

namespace Automaton.Valued

variable {d : Draft} {a : Automaton} {v : ConditionVector}

theorem run_eq (hd : d.WellFormed) (ha : a.Valued d) (verbose : Bool)
    : a.run verbose = a.runFrom verbose [] 0 := by
  unfold run
  rw [ha.start?_eq hd]

theorem exists_runFrom (verbose : Bool) (hd : d.WellFormed) (ha : a.Valued d)
    (hv : v.length = d.conditionals d.size) (seen : List Nat) {r : Nat} (hr : r < d.size)
    : ∃ t, (a.assign v).runFrom verbose seen r = .ok t := by
  obtain ⟨t, hrun, _⟩ := (ha.assign v).runFrom_run verbose hd (ha.hasBits_assign hd hv) seen r hr
  exact ⟨t, hrun⟩

theorem exists_run (verbose : Bool) (hd : d.WellFormed) (ha : a.Valued d)
    (hv : v.length = d.conditionals d.size) : ∃ t, (a.assign v).run verbose = .ok t := by
  rw [(ha.assign v).run_eq hd]
  exact ha.exists_runFrom verbose hd hv [] (d.lt_size_of_token? hd.start)

theorem lt_size_of_reflTransGen {r s : Nat} (hd : d.WellFormed) (hr : r < d.size)
    (h : Relation.ReflTransGen d.Leads r s) : s < d.size := by
  cases h with
  | refl => exact hr
  | tail _ hlast => exact hlast.lt_size hd

theorem reflTransGen_of_run {verbose : Bool} {t : Trace} {r : Nat} (hd : d.WellFormed)
    (ha : a.Valued d) (hrun : a.run verbose = .ok t) (hr : r ∈ t.path)
    : Relation.ReflTransGen d.Leads 0 r := by
  rw [ha.run_eq hd] at hrun
  obtain ⟨walk, last, hstopped⟩ := exists_stopped hrun
  rw [hstopped.path] at hr
  apply reflTransGen_of_mem _ hstopped.start hr
  exact hstopped.chain.imp fun _ _ => ha.leads_of_goes hd

theorem lt_size_of_run {verbose : Bool} {t : Trace} {r : Nat} (hd : d.WellFormed) (ha : a.Valued d)
    (hrun : a.run verbose = .ok t) (hr : r ∈ t.path) : r < d.size :=
  lt_size_of_reflTransGen hd (d.lt_size_of_token? hd.start) (ha.reflTransGen_of_run hd hrun hr)

theorem exists_visit_iff {r : Nat} (verbose : Bool) (hd : d.WellFormed) (ha : a.Valued d)
    : (∃ v t, v.length = d.conditionals d.size ∧ (a.assign v).run verbose = .ok t ∧ r ∈ t.path) ↔
        Relation.ReflTransGen d.Leads 0 r := by
  constructor
  . intro ⟨v, t, _, hrun, hr⟩
    exact (ha.assign v).reflTransGen_of_run hd hrun hr
  . intro h
    obtain ⟨walk, last, hstart, hchain, hnodup, rfl, _⟩ := exists_walk (P := (· = r)) h rfl
    obtain ⟨v, hv, hgoes⟩ := ha.exists_vector hd hchain hnodup
    have hlast := lt_size_of_reflTransGen hd (d.lt_size_of_token? hd.start) h
    obtain ⟨t, hrest⟩ := ha.exists_runFrom verbose hd hv (walk.reverse ++ []) hlast
    obtain ⟨t', hrun, hpath, _⟩ := runFrom_of_isChain hstart hgoes hnodup (by simp) hrest
    refine ⟨v, t', hv, ?_, ?_⟩
    . rw [(ha.assign v).run_eq hd, hrun]
    . obtain ⟨walk', last', hstopped⟩ := exists_stopped hrest
      rw [hpath, hstopped.path]
      apply List.mem_append_right
      exact List.mem_of_head? hstopped.start

end Automaton.Valued

namespace Scheme

/--
The scheme is an accepted text, whatever values its conditions have.
-/
def Accepted (s : Scheme) : Prop :=
  ∃ text p, LogicalScheme.parse text = .ok p ∧ s.automaton.reset = p.automaton ∧ s.lexemes = p.lexemes

theorem Accepted.exists_draft {s : Scheme} (h : s.Accepted)
    : ∃ d : Draft, d.WellFormed ∧ s.automaton.Valued d ∧ s.lexemes = d.lexemes.toList := by
  obtain ⟨text, p, hparse, hreset, hlexemes⟩ := h
  obtain ⟨hd, hautomaton, hlexemes', _⟩ := wellFormed_of_parse hparse
  refine ⟨Draft.ofText text, hd, ?_, hlexemes.trans hlexemes'⟩
  unfold Automaton.Valued
  rw [hreset, hautomaton]

section Parse

variable {settings : Settings} {text : String} {s : Scheme}

theorem exists_of_parse (h : parse settings text = .ok s)
    : ∃ p, LogicalScheme.parse text = .ok p ∧ s.automaton = p.automaton ∧ s.lexemes = p.lexemes ∧
        s.automaton.reset = s.automaton := by
  unfold parse at h
  split at h
  . cases h
  . next p hparse =>
    have hreset : p.automaton.reset = p.automaton := by
      rw [(parse_eq_ok_iff.mp hparse).left]
      exact Parsed.reset_automaton text
    simp only at h
    split at h
    . cases h
    . cases h
      exact ⟨p, hparse, rfl, rfl, hreset⟩

theorem accepted_of_parse (h : parse settings text = .ok s) : s.Accepted := by
  obtain ⟨p, hparse, hautomaton, hlexemes, hreset⟩ := exists_of_parse h
  exact ⟨text, p, hparse, hreset.trans hautomaton, hlexemes⟩

end Parse

theorem accepted_loopingScheme : loopingScheme.Accepted :=
  ⟨loopingText, _, parse_loopingText, Parsed.reset_automaton loopingText, rfl⟩

theorem conditionalCount_loopingScheme : loopingScheme.conditionalCount = 1 := by
  unfold loopingScheme
  rw [Parsed.ofText_eq]
  decide +kernel

theorem conditionalCount_loopingScheme_le : loopingScheme.conditionalCount ≤ loopingScheme.limit := by
  rw [conditionalCount_loopingScheme]
  decide

end Scheme

end LogicalScheme
