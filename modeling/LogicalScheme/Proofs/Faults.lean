import LogicalScheme.Proofs.WellFormed
import Mathlib.Data.List.Nodup

/-!
This module contains what can be wrong with a list of tokens, as rules about places in the list. The
problems that are reported for a text are the faults of its tokens, each of them once.
-/

namespace LogicalScheme

namespace Token

variable (ts : List Token)

def jumpsAt (position : Nat) : Bool :=
  ts[position]?.any (·.isConditionalJump)

def branchStart (position : Nat) : Nat :=
  if jumpsAt ts (position + 1) then position + 2 else position + 1

def firstFrom? (position : Nat) : Option Token :=
  (ts.drop position).find? (· != .start)

def IsSecond (t : Token) (position : Nat) : Prop :=
  ts[position]? = some t ∧ (ts.take position).count t = 1

end Token

open Token in
/--
What is wrong with a list of tokens, and where.
-/
inductive Fault (ts : List Token) : Code → Nat → Prop where
  | missingStart (h : ts[0]? ≠ some .start) : Fault ts .missingStart 0
  | missingFinish (h : .finish ∉ ts) : Fault ts .missingFinish ts.length
  | missingBranchJump {i : Nat} {l : Letter} {n : UInt32} (ht : ts[i]? = some (.conditional l n))
    (h : jumpsAt ts (i + 1) = false) : Fault ts .missingBranchJump (i + 1)
  | emptyBranch {i : Nat} {l : Letter} {n : UInt32} (ht : ts[i]? = some (.conditional l n))
    (h : ts[branchStart ts i]?.all (·.closesBranch) = true) : Fault ts .emptyBranch (branchStart ts i)
  | incompleteConditional {i : Nat} {l : Letter} {n : UInt32} (ht : ts[i]? = some (.conditional l n))
    (h : jumpsAt ts (i + 1) = false ∨ (firstFrom? ts (branchStart ts i)).all (·.closesBranch) = true)
    : Fault ts .incompleteConditional i
  | duplicateJumpPoint {i j : Nat} {index : UInt32} (ht : ts[i]? = some (.jumpPoint index))
    (hj : ts[j]? = some (.jumpPoint index)) (hlt : j < i) : Fault ts .duplicateJumpPoint i
  | duplicateStart {i : Nat} (h : IsSecond ts .start i) : Fault ts .duplicateStart i
  | duplicateFinish {i : Nat} (h : IsSecond ts .finish i) : Fault ts .duplicateFinish i
  | unresolvedJump {i : Nat} {t : Token} {index : UInt32} (ht : ts[i]? = some t)
    (hindex : t.jumpTarget? = some index) (h : .jumpPoint index ∉ ts) : Fault ts .unresolvedJump i
  | strayJumpPoint {i : Nat} {index : UInt32} (ht : ts[i]? = some (.jumpPoint index))
    (h : firstFrom? ts (i + 1) = none) : Fault ts .strayJumpPoint i

def Diagnostic.faults (ds : List Diagnostic) : List (Code × Option Nat) :=
  ds.filterMap fun x =>
    x.code.bind fun code => if code.isStructural then some (code, x.position) else none

namespace Draft

variable {d : Draft} {p : Nat} {code : Code} {position : Option Nat}

open Diagnostic (faults)

theorem faults_append (xs ys : List Diagnostic) : faults (xs ++ ys) = faults xs ++ faults ys :=
  List.filterMap_append

theorem mem_faults_markerReports
    : (code, position) ∈ faults d.markerReports ↔
        (d.token? 0 ≠ some .start ∧ code = .missingStart ∧ position = some 0) ∨
        (¬d.lexemes.any (·.token == .finish) ∧ code = .missingFinish ∧ position = some d.size) := by
  unfold markerReports
  rw [faults_append, List.mem_append]
  apply or_congr
  . split
    . next h => simp [faults, h]
    . next h => simp [faults, missingStart, Code.isStructural, h]
  . split
    . next h => simp [faults, h]
    . next h => simp [faults, missingFinish, Code.isStructural, h]

theorem mem_faults_jumpReports
    : (code, position) ∈ faults (d.jumpReports p) ↔
        (d.token? (p + 1)).any (·.isConditionalJump) = false ∧ code = .missingBranchJump ∧
          position = some (p + 1) := by
  unfold jumpReports
  split
  . next h => simp [faults, h]
  . next h => simp [faults, missingBranchJump, Code.isStructural, h]

theorem mem_faults_branchReports
    : (code, position) ∈ faults (d.branchReports p) ↔
        (d.token? (d.branchStart p)).all (·.closesBranch) = true ∧ code = .emptyBranch ∧
          position = some (d.branchStart p) := by
  unfold branchReports
  dsimp only
  split
  . next h => simp [faults, emptyBranch, Code.isStructural, h]
  . next h => simp [faults, h]

theorem mem_faults_reportsAt
    : (code, position) ∈ faults (d.reportsAt p) ↔
        (∃ index first, d.token? p = some (.jumpPoint index) ∧ d.declaration? p index = some first ∧
          code = .duplicateJumpPoint ∧ position = some p) ∨
        (∃ l n, d.token? p = some (.conditional l n) ∧
          ((code, position) ∈ faults (d.jumpReports p) ∨
            (code, position) ∈ faults (d.branchReports p))) := by
  unfold reportsAt
  split
  . next index ht =>
    cases hfirst : d.declaration? p index with
    | none => simp [faults, ht, hfirst]
    | some q => simp [faults, ht, hfirst, duplicatePoint, Code.isStructural]
  . next l n ht =>
    rw [faults_append, List.mem_append]
    simp [ht]
  . next hpoint hconditional =>
    simp only [faults, List.filterMap_nil, List.not_mem_nil, false_iff]
    intro h
    rcases h with ⟨index, _, ht, _⟩ | ⟨l, n, ht, _⟩
    . exact hpoint index ht
    . exact hconditional l n ht

def marks (d : Draft) (code : Code) (f : Nat → Bool) : List (Code × Option Nat) :=
  (d.places.filter f).map fun p => (code, some p)

theorem mem_marks {f : Nat → Bool} {c : Code}
    : (code, position) ∈ d.marks c f ↔
        ∃ p, d.makes p = true ∧ f p = true ∧ code = c ∧ position = some p := by
  unfold marks places
  simp only [List.mem_map, List.mem_filter, List.mem_range, Prod.mk.injEq]
  constructor
  . intro ⟨p, ⟨⟨_, hmakes⟩, hf⟩, hcode, hposition⟩
    exact ⟨p, hmakes, hf, hcode.symm, hposition.symm⟩
  . intro ⟨p, hmakes, hf, hcode, hposition⟩
    exact ⟨p, ⟨⟨lt_size_of_makes hmakes, hmakes⟩, hf⟩, hcode.symm, hposition.symm⟩

theorem nodup_marks (c : Code) (f : Nat → Bool) : (d.marks c f).Nodup := by
  unfold marks places
  apply List.Nodup.map
  . intro p q h
    simpa using h
  . apply List.Nodup.filter
    apply List.Nodup.filter
    exact List.nodup_range

theorem faults_filterMap_elements {c : Code} {f : Nat → Bool} {report : Element → Option Diagnostic}
    (hcode : c.isStructural = true) (hstart : report (startElement d.count) = none)
    (hreport : ∀ p, d.makes p = true →
      (report (d.element d.count p)).map (fun x => (x.code, x.position)) =
        if f p then some (some c, some p) else none)
    : faults (d.layout.elements.toList.filterMap report) = d.marks c f := by
  have hplaces : ∀ p ∈ d.places, d.makes p = true := fun p hp => (List.mem_filter.mp hp).right
  unfold layout entries marks
  rw [List.toList_toArray, List.filterMap_cons_none hstart]
  generalize d.places = places at hplaces
  induction places with
  | nil => rfl
  | cons p places ih =>
    have hp := hreport p (hplaces p List.mem_cons_self)
    have htail := ih fun q hq => hplaces q (List.mem_cons_of_mem p hq)
    rw [List.map_cons, List.filterMap_cons]
    cases hx : report (d.element d.count p) with
    | none =>
      have hf : ¬f p = true := by simpa [hx] using hp
      rw [List.filter_cons_of_neg hf]
      exact htail
    | some x =>
      have hf : f p = true := by
        cases hf : f p with
        | true => rfl
        | false => simp [hx, hf] at hp
      have hpair : x.code = some c ∧ x.position = some p := by simpa [hx, hf] using hp
      rw [List.filter_cons_of_pos hf, List.map_cons, ← htail]
      simp [faults, hpair.left, hpair.right, hcode]

def second (code : Code) (positions : List Nat) : List (Code × Option Nat) :=
  positions[1]?.toList.map fun p => (code, some p)

theorem mem_second {c : Code} {positions : List Nat}
    : (code, position) ∈ second c positions ↔
        ∃ p, positions[1]? = some p ∧ code = c ∧ position = some p := by
  unfold second
  cases positions[1]? <;> simp

theorem nodup_second (c : Code) (positions : List Nat) : (second c positions).Nodup := by
  unfold second
  cases positions[1]? <;> simp

theorem faults_duplicates {c : Code} (what : String) (positions : List Nat)
    (hcode : c.isStructural = true)
    : faults (Checks.duplicates d c what positions) = second c positions := by
  unfold Checks.duplicates second
  split
  . simp [faults, hcode]
  . next h =>
    match positions with
    | [] => rfl
    | [_] => rfl
    | first :: second :: rest => exact absurd rfl (h first second rest)

def unresolved (d : Draft) (p : Nat) : Bool :=
  ((d.token? p).bind (·.jumpTarget?)).any fun index => (d.declaration? d.size index).isNone

theorem faults_unresolvedJumps
    : faults (Checks.unresolvedJumps d d.layout) = d.marks .unresolvedJump d.unresolved := by
  apply faults_filterMap_elements
  . rfl
  . rfl
  . intro p hmakes
    obtain ⟨t, ht, _⟩ := exists_token?_of_makes hmakes
    simp only [layout_jumpPoint?]
    unfold unresolved element Element.jumpTarget?
    rw [kind_of_token? ht, ht]
    cases t with
    | conditionalJump index | unconditionalJump index =>
      cases hfirst : d.declaration? d.size index <;>
        simp [Token.kind, Token.jumpTarget?, hfirst, Checks.unresolvedJump]
    | _ => simp [Token.kind, Token.jumpTarget?]

def incomplete (d : Draft) (p : Nat) : Bool :=
  (d.token? p).any (·.isConditional) && !(d.conditional p).isComplete

theorem faults_incompleteConditionals
    : faults (Checks.incompleteConditionals d d.layout) = d.marks .incompleteConditional d.incomplete := by
  apply faults_filterMap_elements
  . rfl
  . rfl
  . intro p hmakes
    obtain ⟨t, ht, _⟩ := exists_token?_of_makes hmakes
    unfold incomplete element Element.conditional?
    rw [kind_of_token? ht, ht]
    cases t with
    | conditional l n =>
      unfold Conditional.isComplete
      cases htrue : (d.conditional p).whenTrue <;> cases hfalse : (d.conditional p).whenFalse <;>
        simp [Token.kind, Kind.conditional?, Token.isConditional, Checks.missingBranch?, htrue, hfalse,
          Checks.incompleteConditional]
    | _ => simp [Token.kind, Kind.conditional?, Token.isConditional]

theorem faults_danglingPoints (d : Draft)
    : faults ((Checks.danglingPoints d.layout).map d.strayPoint) =
        (Checks.danglingPoints d.layout).map fun r =>
          (.strayJumpPoint, some (d.layout.position r)) := by
  unfold faults
  rw [List.filterMap_map]
  apply List.filterMap_eq_map_iff_forall_eq_some.mpr
  intro r _
  rfl

theorem mem_faults_danglingPoints
    : (code, position) ∈ faults ((Checks.danglingPoints d.layout).map d.strayPoint) ↔
        ∃ p index, d.token? p = some (.jumpPoint index) ∧ d.ref p + 1 = d.count ∧
          code = .strayJumpPoint ∧ position = some p := by
  rw [faults_danglingPoints, List.mem_map]
  constructor
  . intro ⟨r, hr, heq⟩
    obtain ⟨e, index, he, hkind, hlast⟩ := mem_danglingPoints_iff.mp hr
    have hpos : 0 < r := by
      apply Nat.pos_of_ne_zero
      intro hzero
      rw [hzero, layout_element?_zero] at he
      cases he
      contradiction
    obtain ⟨p, hmakes, rfl, rfl⟩ := makes_of_layout_element? he hpos
    cases heq
    exact ⟨p, index, kind_eq_jumpPoint_iff.mp hkind, hlast, rfl, by rw [layout_position_ref hmakes]⟩
  . intro ⟨p, index, ht, hlast, hcode, hposition⟩
    have hmakes : d.makes p = true := makes_of_token? ht (by simp)
    refine ⟨d.ref p, ?_, by rw [hcode, hposition, layout_position_ref hmakes]⟩
    apply mem_danglingPoints_iff.mpr
    exact ⟨_, index, layout_element?_ref hmakes, kind_eq_jumpPoint_iff.mpr ht, hlast⟩

theorem nodup_faults_danglingPoints (d : Draft)
    : (faults ((Checks.danglingPoints d.layout).map d.strayPoint)).Nodup := by
  rw [faults_danglingPoints]
  apply List.Nodup.map_on
  . -- a dangling jump point is the last element, so there are no two
    intro r hr s hs _
    obtain ⟨_, _, _, _, hr⟩ := mem_danglingPoints_iff.mp hr
    obtain ⟨_, _, _, _, hs⟩ := mem_danglingPoints_iff.mp hs
    exact Nat.succ.inj (hr.trans hs.symm)
  . apply List.Nodup.filter
    exact List.nodup_range

theorem finishPositions_layout (d : Draft)
    : Checks.finishPositions d.layout =
        (List.range d.size).filter (d.token? · == some .finish) := by
  unfold Checks.finishPositions layout entries places
  rw [List.toList_toArray, List.filter_cons_of_neg (by simp [startElement, Element.isFinish]),
    List.filter_map, List.map_map, List.filter_filter]
  have hid : (fun e : Element => e.position) ∘ d.element d.count = id := rfl
  rw [hid, List.map_id]
  apply List.filter_congr
  intro p hp
  have hlt := List.mem_range.mp hp
  have ht := d.token?_of_lt hlt
  unfold makes Function.comp element Element.isFinish
  rw [kind_of_token? ht, ht]
  generalize d.lexemes[p] = l
  cases l.token <;> rfl

theorem count_take_tokens (d : Draft) (t : Token) {p : Nat} (hp : p ≤ d.size)
    : (d.tokens.take p).count t = (List.range p).countP (d.token? · == some t) := by
  induction p with
  | zero => rfl
  | succ p ih =>
    have ht := d.token?_of_lt hp
    rw [List.take_add_one, List.count_append, ih (Nat.le_of_succ_le hp), tokens_getElem?, ht,
      List.range_succ, List.countP_append]
    simp [ht, List.count_singleton]

theorem second_iff {t : Token}
    : ((List.range d.size).filter (d.token? · == some t))[1]? = some p ↔
        Token.IsSecond d.tokens t p := by
  unfold Token.IsSecond
  rw [filter_range_getElem?_iff, tokens_getElem?, beq_iff_eq]
  constructor
  . intro ⟨hp, ht, hcount⟩
    rw [d.count_take_tokens t (Nat.le_of_lt hp)]
    exact ⟨ht, hcount⟩
  . intro ⟨ht, hcount⟩
    have hp := d.lt_size_of_token? ht
    rw [d.count_take_tokens t (Nat.le_of_lt hp)] at hcount
    exact ⟨hp, ht, hcount⟩

theorem firstFrom?_tokens (d : Draft) (p : Nat)
    : Token.firstFrom? d.tokens p = d.tokenOf? (d.ref p) := by
  unfold Token.firstFrom?
  cases Nat.lt_or_ge p d.size with
  | inr hge =>
    rw [List.drop_eq_nil_of_le (by rw [length_tokens]; exact hge), ref_of_size_le hge, tokenOf?_count]
    rfl
  | inl hlt =>
    have hlength : p < d.tokens.length := by
      rw [length_tokens]
      exact hlt
    have ht : d.token? p = some d.tokens[p] := by
      rw [← tokens_getElem?, List.getElem?_eq_getElem hlength]
    rw [List.drop_eq_getElem_cons hlength, List.find?_cons]
    by_cases hstart : d.tokens[p] = .start
    . have hmakes := makes_eq_false_of_start (ht.trans (congrArg some hstart))
      rw [hstart, ← ref_succ_of_not_makes hmakes]
      exact firstFrom?_tokens d (p + 1)
    . rw [tokenOf?_ref (makes_of_token? ht hstart), ht]
      have hne : (d.tokens[p] != .start) = true := bne_iff_ne.mpr hstart
      rw [hne]
termination_by d.size - p

theorem jumpsAt_tokens (d : Draft) (p : Nat)
    : Token.jumpsAt d.tokens p = (d.token? p).any (·.isConditionalJump) := by
  unfold Token.jumpsAt
  rw [tokens_getElem?]

theorem branchStart_tokens (d : Draft) (p : Nat)
    : Token.branchStart d.tokens p = d.branchStart p := by
  unfold Token.branchStart branchStart
  rw [jumpsAt_tokens]

theorem incomplete_iff {l : Letter} {n : UInt32} (ht : d.token? p = some (.conditional l n))
    : d.incomplete p = true ↔
        Token.jumpsAt d.tokens (p + 1) = false ∨
          (Token.firstFrom? d.tokens (d.branchStart p)).all (·.closesBranch) = true := by
  have hwhenFalse := Assembly.whenFalse_eq_head ht
  have hwhenTrue : (d.conditional p).whenTrue.isSome = Token.jumpsAt d.tokens (p + 1) := by
    rw [jumpsAt_tokens]
    unfold conditional
    cases (d.token? (p + 1)).any (·.isConditionalJump) <;> rfl
  unfold incomplete Conditional.isComplete
  rw [hwhenTrue, hwhenFalse, firstFrom?_tokens, ht]
  unfold head
  cases Token.jumpsAt d.tokens (p + 1) <;> cases d.tokenOf? (d.ref (d.branchStart p)) with
  | none => simp [Token.isConditional]
  | some t => cases hcloses : t.closesBranch <;> simp [Token.isConditional, hcloses]

theorem mem_tokens_iff {t : Token} : t ∈ d.tokens ↔ ∃ p, d.token? p = some t := by
  rw [List.mem_iff_getElem?]
  simp only [tokens_getElem?]

theorem any_finish_iff (d : Draft)
    : d.lexemes.any (·.token == .finish) = true ↔ .finish ∈ d.tokens := by
  rw [Array.any_eq_true, mem_tokens_iff]
  constructor
  . intro ⟨p, hp, hfinish⟩
    exact ⟨p, (d.token?_of_lt hp).trans (congrArg some (beq_iff_eq.mp hfinish))⟩
  . intro ⟨p, ht⟩
    have hp := d.lt_size_of_token? ht
    rw [d.token?_of_lt hp] at ht
    exact ⟨p, hp, beq_iff_eq.mpr (Option.some.inj ht)⟩

theorem exists_of_unresolved (h : d.unresolved p = true)
    : ∃ t index, d.token? p = some t ∧ t.jumpTarget? = some index := by
  unfold unresolved at h
  obtain ⟨index, hindex, _⟩ := (Option.any_eq_true ..).mp h
  obtain ⟨t, ht, hindex⟩ := Option.bind_eq_some_iff.mp hindex
  exact ⟨t, index, ht, hindex⟩

theorem exists_of_incomplete (h : d.incomplete p = true)
    : ∃ l n, d.token? p = some (.conditional l n) := by
  unfold incomplete at h
  rw [Bool.and_eq_true] at h
  obtain ⟨t, ht, hconditional⟩ := (Option.any_eq_true ..).mp h.left
  cases t with
  | conditional l n => exact ⟨l, n, ht⟩
  | _ => contradiction

theorem unresolved_iff {t : Token} {index : UInt32} (ht : d.token? p = some t)
    (hindex : t.jumpTarget? = some index)
    : d.unresolved p = true ↔ .jumpPoint index ∉ d.tokens := by
  unfold unresolved
  rw [ht, Option.bind_some, hindex, Option.any_some, Option.isNone_iff_eq_none, mem_tokens_iff]
  constructor
  . intro hnone ⟨q, hq⟩
    unfold declaration? at hnone
    rw [List.find?_eq_none] at hnone
    exact hnone q (List.mem_range.mpr (d.lt_size_of_token? hq)) (beq_iff_eq.mpr hq)
  . intro hnot
    cases hfirst : d.declaration? d.size index with
    | none => rfl
    | some q => exact absurd ⟨q, (declaration?_eq_some_iff.mp hfirst).right.left⟩ hnot

theorem stray_iff {index : UInt32} (ht : d.token? p = some (.jumpPoint index))
    : d.ref p + 1 = d.count ↔ Token.firstFrom? d.tokens (p + 1) = none := by
  have hmakes : d.makes p = true := makes_of_token? ht (by simp)
  rw [firstFrom?_tokens, ref_succ_of_makes hmakes]
  constructor
  . intro hlast
    rw [hlast]
    exact d.tokenOf?_count
  . intro hnone
    have hle : d.ref p + 1 ≤ d.count := by
      rw [← ref_size, ← ref_succ_of_makes hmakes]
      exact d.ref_mono (d.lt_size_of_token? ht)
    unfold tokenOf? at hnone
    cases hplace : d.places[d.ref p]? with
    | none =>
      have hlength := List.getElem?_eq_none_iff.mp hplace
      apply Nat.le_antisymm hle
      exact Nat.succ_le_succ hlength
    | some q =>
      obtain ⟨t, hq, _⟩ := exists_token?_of_makes (ref_of_places_getElem? hplace).left
      simp [hplace, hq] at hnone

theorem branchStart_inj {p q : Nat} {l l' : Letter} {n n' : UInt32}
    (hp : d.token? p = some (.conditional l n)) (hq : d.token? q = some (.conditional l' n'))
    (h : d.branchStart p = d.branchStart q) : p = q := by
  -- starts could only meet where one of the two is the jump of the other, which is no conditional
  have hjumps : ∀ r l n, d.token? r = some (.conditional l n) →
      (d.token? r).any (·.isConditionalJump) = false := by
    intro r l n hr
    rw [hr]
    rfl
  unfold branchStart at h
  split at h <;> split at h
  . omega
  . next hjump _ =>
    have heq : q = p + 1 := by omega
    rw [← heq, hjumps q l' n' hq] at hjump
    contradiction
  . next _ hjump =>
    have heq : p = q + 1 := by omega
    rw [← heq, hjumps p l n hp] at hjump
    contradiction
  . omega

theorem nodup_faults_reportsAt (d : Draft) (p : Nat) : (faults (d.reportsAt p)).Nodup := by
  unfold reportsAt
  split
  . next index ht => cases d.declaration? p index <;> simp [faults, duplicatePoint, Code.isStructural]
  . rw [faults_append, List.nodup_append]
    unfold jumpReports branchReports
    dsimp only
    split <;> split <;>
      simp [faults, missingBranchJump, emptyBranch, Code.isStructural]
  . exact List.nodup_nil

theorem disjoint_faults_reportsAt {q : Nat} (h : p ≠ q)
    : List.Disjoint (faults (d.reportsAt p)) (faults (d.reportsAt q)) := by
  intro (code, position) hp hq
  rw [mem_faults_reportsAt, mem_faults_jumpReports, mem_faults_branchReports] at hp hq
  rcases hp with ⟨_, _, _, _, rfl, rfl⟩ | ⟨l, n, ht, ⟨_, rfl, rfl⟩ | ⟨_, rfl, rfl⟩⟩
  . rcases hq with ⟨_, _, _, _, _, hposition⟩ | ⟨_, _, _, ⟨_, hcode, _⟩ | ⟨_, hcode, _⟩⟩
    . exact h (Option.some.inj hposition)
    . contradiction
    . contradiction
  . rcases hq with ⟨_, _, _, _, hcode, _⟩ | ⟨_, _, _, ⟨_, _, hposition⟩ | ⟨_, hcode, _⟩⟩
    . contradiction
    . exact h (Nat.succ.inj (Option.some.inj hposition))
    . contradiction
  . rcases hq with ⟨_, _, _, _, hcode, _⟩ | ⟨_, _, hq, ⟨_, hcode, _⟩ | ⟨_, _, hposition⟩⟩
    . contradiction
    . contradiction
    . exact h (branchStart_inj ht hq (Option.some.inj hposition))

def faultList (d : Draft) : List (Code × Option Nat) :=
  faults d.markerReports ++ (List.range d.size).flatMap (fun p => faults (d.reportsAt p)) ++
    second .duplicateStart (Checks.startPositions d) ++
    second .duplicateFinish (Checks.finishPositions d.layout) ++
    d.marks .unresolvedJump d.unresolved ++
    faults ((Checks.danglingPoints d.layout).map d.strayPoint) ++
    d.marks .incompleteConditional d.incomplete

theorem faults_reports_append_problems (d : Draft)
    : faults (d.reports d.size ++ d.problems) = d.faultList := by
  have hreports : faults ((List.range d.size).flatMap d.reportsAt) =
      (List.range d.size).flatMap fun p => faults (d.reportsAt p) := List.filterMap_flatMap
  unfold reports problems faultList
  simp only [faults_append, ← List.append_assoc, hreports, faults_unresolvedJumps,
    faults_incompleteConditionals]
  rw [faults_duplicates _ _ rfl, faults_duplicates _ _ rfl]

theorem nodup_faults_markerReports (d : Draft) : (faults d.markerReports).Nodup := by
  unfold markerReports
  rw [faults_append]
  split <;> split <;> simp [faults, missingStart, missingFinish, Code.isStructural]

theorem nodup_faults_reports (d : Draft)
    : ((List.range d.size).flatMap fun p => faults (d.reportsAt p)).Nodup := by
  rw [List.nodup_flatMap]
  refine ⟨fun p _ => d.nodup_faults_reportsAt p, ?_⟩
  apply List.nodup_range.imp
  intro p q hne
  exact disjoint_faults_reportsAt hne

/--
The codes in the order in which their problems are found.
-/
def stage : Code → Nat
  | .missingStart | .missingFinish => 0
  | .missingBranchJump | .emptyBranch | .duplicateJumpPoint => 1
  | .duplicateStart => 2
  | .duplicateFinish => 3
  | .unresolvedJump => 4
  | .strayJumpPoint => 5
  | _ => 6

def StagedBelow (xs : List (Code × Option Nat)) (n : Nat) : Prop :=
  xs.Nodup ∧ ∀ x ∈ xs, stage x.1 < n

theorem StagedBelow.append {xs ys : List (Code × Option Nat)} {n : Nat} (hxs : StagedBelow xs n)
    (hys : ys.Nodup) (h : ∀ y ∈ ys, stage y.1 = n) : StagedBelow (xs ++ ys) (n + 1) := by
  constructor
  . rw [List.nodup_append]
    refine ⟨hxs.left, hys, ?_⟩
    intro x hx y hy heq
    have hlt := hxs.right x hx
    rw [heq, h y hy] at hlt
    exact Nat.lt_irrefl n hlt
  . intro x hx
    rcases List.mem_append.mp hx with hx | hx
    . exact Nat.lt_succ_of_lt (hxs.right x hx)
    . rw [h x hx]
      exact Nat.lt_succ_self n

theorem stage_of_mem_faults_reportsAt (h : (code, position) ∈ faults (d.reportsAt p))
    : stage code = 1 := by
  rw [mem_faults_reportsAt, mem_faults_jumpReports, mem_faults_branchReports] at h
  rcases h with ⟨_, _, _, _, rfl, _⟩ | ⟨_, _, _, ⟨_, rfl, _⟩ | ⟨_, rfl, _⟩⟩
  all_goals rfl

theorem nodup_faultList (d : Draft) : d.faultList.Nodup := by
  -- no code is of two stages, so each part has to be free of repetitions by itself only
  have hmarkers : StagedBelow (faults d.markerReports) 1 := by
    refine ⟨d.nodup_faults_markerReports, ?_⟩
    intro x hx
    rcases mem_faults_markerReports.mp hx with ⟨_, hcode, _⟩ | ⟨_, hcode, _⟩
    all_goals
      rw [hcode]
      decide
  have hreports := hmarkers.append d.nodup_faults_reports <| by
    intro x hx
    obtain ⟨p, _, hx⟩ := List.mem_flatMap.mp hx
    exact stage_of_mem_faults_reportsAt hx
  have hsecond : ∀ c positions, ∀ x ∈ second c positions, stage x.1 = stage c := by
    intro c positions x hx
    obtain ⟨_, _, hcode, _⟩ := mem_second.mp hx
    rw [hcode]
  have hmarks : ∀ c f, ∀ x ∈ d.marks c f, stage x.1 = stage c := by
    intro c f x hx
    obtain ⟨_, _, _, hcode, _⟩ := mem_marks.mp hx
    rw [hcode]
  have hstarts := hreports.append (nodup_second .duplicateStart (Checks.startPositions d))
    (hsecond _ _)
  have hfinishes := hstarts.append
    (nodup_second .duplicateFinish (Checks.finishPositions d.layout)) (hsecond _ _)
  have hjumps := hfinishes.append (nodup_marks .unresolvedJump d.unresolved) (hmarks _ _)
  have hpoints := hjumps.append d.nodup_faults_danglingPoints <| by
    intro x hx
    obtain ⟨_, _, _, _, hcode, _⟩ := mem_faults_danglingPoints.mp hx
    rw [hcode]
    rfl
  exact (hpoints.append (nodup_marks .incompleteConditional d.incomplete) (hmarks _ _)).left

theorem fault_of_mem_markerReports (h : (code, position) ∈ faults d.markerReports)
    : ∃ i, position = some i ∧ Fault d.tokens code i := by
  rcases mem_faults_markerReports.mp h with ⟨hstart, rfl, rfl⟩ | ⟨hfinish, rfl, rfl⟩
  . refine ⟨0, rfl, .missingStart ?_⟩
    rw [tokens_getElem?]
    exact hstart
  . refine ⟨d.size, rfl, ?_⟩
    rw [any_finish_iff] at hfinish
    rw [← length_tokens]
    exact .missingFinish hfinish

theorem fault_of_mem_reportsAt (h : (code, position) ∈ faults (d.reportsAt p))
    : ∃ i, position = some i ∧ Fault d.tokens code i := by
  rw [mem_faults_reportsAt, mem_faults_jumpReports, mem_faults_branchReports] at h
  rcases h with ⟨index, q, ht, hq, rfl, rfl⟩ | ⟨l, n, ht, ⟨hjump, rfl, rfl⟩ | ⟨hcloses, rfl, rfl⟩⟩
  . obtain ⟨hlt, hq, _⟩ := declaration?_eq_some_iff.mp hq
    rw [← tokens_getElem?] at ht hq
    exact ⟨p, rfl, .duplicateJumpPoint ht hq hlt⟩
  . rw [← jumpsAt_tokens] at hjump
    rw [← tokens_getElem?] at ht
    exact ⟨p + 1, rfl, .missingBranchJump ht hjump⟩
  . rw [← tokens_getElem?, ← branchStart_tokens] at hcloses
    rw [← tokens_getElem?] at ht
    refine ⟨d.branchStart p, rfl, ?_⟩
    rw [← branchStart_tokens]
    exact .emptyBranch ht hcloses

theorem fault_of_mem_faultList (h : (code, position) ∈ d.faultList)
    : ∃ i, position = some i ∧ Fault d.tokens code i := by
  unfold faultList at h
  simp only [List.mem_append, List.mem_flatMap] at h
  rcases h with (((((h | ⟨p, _, h⟩) | h) | h) | h) | h) | h
  . exact fault_of_mem_markerReports h
  . exact fault_of_mem_reportsAt h
  . obtain ⟨p, hp, rfl, rfl⟩ := mem_second.mp h
    exact ⟨p, rfl, .duplicateStart (second_iff.mp hp)⟩
  . obtain ⟨p, hp, rfl, rfl⟩ := mem_second.mp h
    rw [finishPositions_layout] at hp
    exact ⟨p, rfl, .duplicateFinish (second_iff.mp hp)⟩
  . obtain ⟨p, _, hp, rfl, rfl⟩ := mem_marks.mp h
    obtain ⟨t, index, ht, hindex⟩ := exists_of_unresolved hp
    have hpoint := (unresolved_iff ht hindex).mp hp
    rw [← tokens_getElem?] at ht
    exact ⟨p, rfl, .unresolvedJump ht hindex hpoint⟩
  . obtain ⟨p, index, ht, hlast, rfl, rfl⟩ := mem_faults_danglingPoints.mp h
    have hnone := (stray_iff ht).mp hlast
    rw [← tokens_getElem?] at ht
    exact ⟨p, rfl, .strayJumpPoint ht hnone⟩
  . obtain ⟨p, _, hp, rfl, rfl⟩ := mem_marks.mp h
    obtain ⟨l, n, ht⟩ := exists_of_incomplete hp
    have hincomplete := (incomplete_iff ht).mp hp
    rw [← branchStart_tokens] at hincomplete
    rw [← tokens_getElem?] at ht
    exact ⟨p, rfl, .incompleteConditional ht hincomplete⟩

theorem mem_faultList_of_mem_reportsAt (hp : p < d.size)
    (h : (code, position) ∈ faults (d.reportsAt p)) : (code, position) ∈ d.faultList := by
  have hmem : (code, position) ∈ (List.range d.size).flatMap fun p => faults (d.reportsAt p) :=
    List.mem_flatMap.mpr ⟨p, List.mem_range.mpr hp, h⟩
  simp only [faultList, List.mem_append, hmem, true_or, or_true]

theorem mem_faultList_of_fault {i : Nat} (h : Fault d.tokens code i)
    : (code, some i) ∈ d.faultList := by
  cases h with
  | missingStart h =>
    rw [tokens_getElem?] at h
    have hmem := mem_faults_markerReports.mpr (.inl ⟨h, rfl, rfl⟩)
    simp only [faultList, List.mem_append, hmem, true_or]
  | missingFinish h =>
    rw [← any_finish_iff] at h
    have hmem := mem_faults_markerReports.mpr (.inr ⟨h, rfl, rfl⟩)
    rw [length_tokens]
    simp only [faultList, List.mem_append, hmem, true_or]
  | missingBranchJump ht h =>
    rw [tokens_getElem?] at ht
    rw [jumpsAt_tokens] at h
    apply mem_faultList_of_mem_reportsAt (d.lt_size_of_token? ht)
    exact mem_faults_reportsAt.mpr
      (.inr ⟨_, _, ht, .inl (mem_faults_jumpReports.mpr ⟨h, rfl, rfl⟩)⟩)
  | emptyBranch ht h =>
    rw [branchStart_tokens] at h ⊢
    rw [tokens_getElem?] at ht h
    apply mem_faultList_of_mem_reportsAt (d.lt_size_of_token? ht)
    exact mem_faults_reportsAt.mpr
      (.inr ⟨_, _, ht, .inr (mem_faults_branchReports.mpr ⟨h, rfl, rfl⟩)⟩)
  | incompleteConditional ht h =>
    rw [branchStart_tokens] at h
    rw [tokens_getElem?] at ht
    have hmem : (.incompleteConditional, some i) ∈ d.marks .incompleteConditional d.incomplete :=
      mem_marks.mpr ⟨i, makes_of_token? ht (by simp), (incomplete_iff ht).mpr h, rfl, rfl⟩
    simp only [faultList, List.mem_append, hmem, or_true]
  | @duplicateJumpPoint _ j index ht hj hlt =>
    rw [tokens_getElem?] at ht hj
    have hdeclares : d.declares i index = true := by
      apply List.any_eq_true.mpr
      exact ⟨j, List.mem_range.mpr hlt, beq_iff_eq.mpr hj⟩
    rw [← isSome_declaration?, Option.isSome_iff_exists] at hdeclares
    obtain ⟨first, hfirst⟩ := hdeclares
    apply mem_faultList_of_mem_reportsAt (d.lt_size_of_token? ht)
    exact mem_faults_reportsAt.mpr (.inl ⟨index, first, ht, hfirst, rfl, rfl⟩)
  | duplicateStart h =>
    have hmem : (.duplicateStart, some i) ∈ second .duplicateStart (Checks.startPositions d) :=
      mem_second.mpr ⟨i, second_iff.mpr h, rfl, rfl⟩
    simp only [faultList, List.mem_append, hmem, true_or, or_true]
  | duplicateFinish h =>
    have hmem : (.duplicateFinish, some i) ∈
        second .duplicateFinish (Checks.finishPositions d.layout) := by
      rw [finishPositions_layout]
      exact mem_second.mpr ⟨i, second_iff.mpr h, rfl, rfl⟩
    simp only [faultList, List.mem_append, hmem, true_or, or_true]
  | unresolvedJump ht hindex h =>
    rw [tokens_getElem?] at ht
    have hmakes : d.makes i = true := by
      apply makes_of_token? ht
      intro hstart
      rw [hstart] at hindex
      contradiction
    have hmem : (.unresolvedJump, some i) ∈ d.marks .unresolvedJump d.unresolved :=
      mem_marks.mpr ⟨i, hmakes, (unresolved_iff ht hindex).mpr h, rfl, rfl⟩
    simp only [faultList, List.mem_append, hmem, true_or, or_true]
  | strayJumpPoint ht h =>
    rw [tokens_getElem?] at ht
    have hmem := mem_faults_danglingPoints.mpr ⟨i, _, ht, (stray_iff ht).mpr h, rfl, rfl⟩
    simp only [faultList, List.mem_append, hmem, true_or, or_true]

theorem mem_faultList_iff
    : (code, position) ∈ d.faultList ↔ ∃ i, position = some i ∧ Fault d.tokens code i := by
  constructor
  . exact fault_of_mem_faultList
  . intro ⟨i, hposition, hfault⟩
    rw [hposition]
    exact mem_faultList_of_fault hfault

end Draft

namespace Parsed

def tokens (p : Parsed) : List Token :=
  p.lexemes.map (·.token)

def faults (p : Parsed) : List (Code × Option Nat) :=
  Diagnostic.faults p.diagnostics

theorem faults_ofText (text : String) : (ofText text).faults = (Draft.ofText text).faultList := by
  have hpieces : ∀ x ∈ Piece.diagnostics 0 (Piece.ofText (Text.normalize text)),
      x.code = some .unrecognizedToken :=
    fun x hx => (pieces_unrecognized _ _ x hx).right
  have hnil : Diagnostic.faults (Piece.diagnostics 0 (Piece.ofText (Text.normalize text))) = [] := by
    apply List.filterMap_eq_nil_iff.mpr
    intro x hx
    rw [hpieces x hx]
    rfl
  unfold faults
  rw [ofText_eq, List.append_assoc, Draft.faults_append, hnil, List.nil_append,
    Draft.faults_reports_append_problems]

theorem mem_faults_iff {text : String} {code : Code} {position : Option Nat}
    : (code, position) ∈ (ofText text).faults ↔
        ∃ i, position = some i ∧ Fault (ofText text).tokens code i := by
  have htokens : (ofText text).tokens = (Draft.ofText text).tokens := by
    rw [ofText_eq]
    rfl
  rw [faults_ofText, htokens, Draft.mem_faultList_iff]

theorem mem_faults_of_isStructural {p : Parsed} {x : Diagnostic} (hx : x ∈ p.diagnostics)
    (h : x.IsStructural) : ∃ code, (code, x.position) ∈ p.faults := by
  obtain ⟨_, code, hcode, hstructural⟩ := h
  refine ⟨code, List.mem_filterMap.mpr ⟨x, hx, ?_⟩⟩
  simp [hcode, hstructural]

theorem exists_parse_iff {text : String}
    : (∃ p, parse text = .ok p) ↔
        (∀ x ∈ (ofText text).diagnostics, x.code ≠ some .unrecognizedToken) ∧
          ∀ code i, ¬Fault (ofText text).tokens code i := by
  constructor
  . intro ⟨p, hparse⟩
    obtain ⟨rfl, hnil⟩ := parse_eq_ok_iff.mp hparse
    constructor
    . rw [hnil]
      intro x hx
      contradiction
    . intro code i hfault
      have hmem := mem_faults_iff.mpr ⟨i, rfl, hfault⟩
      unfold faults at hmem
      rw [hnil] at hmem
      contradiction
  . intro ⟨hrecognized, hfaults⟩
    refine ⟨ofText text, parse_eq_ok_iff.mpr ⟨rfl, ?_⟩⟩
    apply List.eq_nil_iff_forall_not_mem.mpr
    intro x hx
    cases diagnostics_cases text x hx with
    | inl h => exact hrecognized x hx h.right
    | inr h =>
      obtain ⟨code, hmem⟩ := mem_faults_of_isStructural hx h
      obtain ⟨i, _, hfault⟩ := mem_faults_iff.mp hmem
      exact hfaults code i hfault

/--
For every text the structural problems that are reported are the faults of its tokens, each of them once.
Hence a text is accepted if its tokens have no faults and nothing between them is unrecognized.
-/
theorem faults_exact (text : String)
    : (ofText text).faults.Nodup ∧
        (∀ code position, (code, position) ∈ (ofText text).faults ↔
          ∃ i, position = some i ∧ Fault (ofText text).tokens code i) ∧
        ((∃ p, parse text = .ok p) ↔
          (∀ x ∈ (ofText text).diagnostics, x.code ≠ some .unrecognizedToken) ∧
            ∀ code i, ¬Fault (ofText text).tokens code i) := by
  refine ⟨?_, fun _ _ => mem_faults_iff, exists_parse_iff⟩
  rw [faults_ofText]
  exact (Draft.ofText text).nodup_faultList

end Parsed

end LogicalScheme
