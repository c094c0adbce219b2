import LogicalScheme.Assembly
import Mathlib.Data.List.Nodup

/-!
This module contains the layout of a draft: the automaton that one pass over the lexemes writes down,
where every lexeme but a start marker makes the next element and every link is read off its neighbours.
It also contains the problems that such a pass reports.
-/

namespace LogicalScheme

namespace Token

def isConditional : Token → Bool
  | .conditional _ _ => true
  | _ => false

def isConditionalJump : Token → Bool
  | .conditionalJump _ => true
  | _ => false

def kind (c : Conditional) : Token → Kind
  | .start => .start
  | .finish => .finish
  | .operator _ => .operator
  | .conditional _ _ => .conditional c
  | .jumpPoint index => .jumpPoint index
  | .conditionalJump index => .jump index false
  | .unconditionalJump index => .jump index true

theorem ne_start_of_closesBranch {t : Token} (h : t.closesBranch = true) : t ≠ .start := by
  intro heq
  rw [heq] at h
  contradiction

end Token

namespace Draft

def makes (d : Draft) (position : Nat) : Bool :=
  (d.token? position).any (· != .start)

def places (d : Draft) : List Nat :=
  (List.range d.size).filter d.makes

/--
The place in the arena of the element that the lexeme at `position` makes, if it makes one. The start
element and the elements of all lexemes in front of `position` stand before it.
-/
def ref (d : Draft) (position : Nat) : Nat :=
  (List.range position).countP d.makes + 1

/--
The token that element `r` stands for. The first element is the start, with or without its marker.
-/
def tokenOf? (d : Draft) : Nat → Option Token
  | 0 => some .start
  | r + 1 => d.places[r]?.bind d.token?

def head (d : Draft) (r : Nat) : Option ElementRef :=
  if (d.tokenOf? r).any (!·.closesBranch) then some r else none

def conditionals (d : Draft) (position : Nat) : Nat :=
  (List.range position).countP fun p => (d.token? p).any (·.isConditional)

/--
What the conditional vertex at `position` knows. A jump behind it is its branch when true, and the
element behind both is its branch when false.
-/
def conditional (d : Draft) (position : Nat) : Conditional :=
  let vertex := d.ref position
  let jumps := (d.token? (position + 1)).any (·.isConditionalJump)
  { index := d.conditionals position + 1
    whenTrue := if jumps then some (vertex + 1) else none
    whenFalse := if jumps then d.head (vertex + 2) else d.head (vertex + 1) }

def kind (d : Draft) (position : Nat) : Kind :=
  ((d.token? position).map (Token.kind (d.conditional position))).getD .start

def successor (count r : Nat) (kind : Kind) : Option ElementRef :=
  if kind.fallsThrough && r + 1 < count then some (r + 1) else none

def startElement (count : Nat) : Element :=
  { name := ⟨Token.start.text⟩
    kind := .start
    position := 0
    next := successor count 0 .start }

def element (d : Draft) (count position : Nat) : Element :=
  { name := d.name position
    kind := d.kind position
    position
    next := successor count (d.ref position) (d.kind position) }

def entries (d : Draft) (count : Nat) : List Element :=
  startElement count :: d.places.map (d.element count)

def declares (d : Draft) (position : Nat) (index : UInt32) : Bool :=
  (List.range position).any (d.token? · == some (.jumpPoint index))

def newPoint? (d : Draft) (position : Nat) : Option (UInt32 × ElementRef) :=
  match d.token? position with
  | some (.jumpPoint index) =>
    if d.declares position index then none else some (index, d.ref position)
  | _ => none

def declarations (d : Draft) (position : Nat) : List (UInt32 × ElementRef) :=
  (List.range position).filterMap d.newPoint?

def declaration? (d : Draft) (position : Nat) (index : UInt32) : Option Nat :=
  (List.range position).find? (d.token? · == some (.jumpPoint index))

def count (d : Draft) : Nat :=
  d.places.length + 1

def layout (d : Draft) : Automaton :=
  { tokens := d.lexemes.toList.map (·.text)
    source := d.source
    elements := (d.entries d.count).toArray
    jumpPoints := d.declarations d.size }

def branchStart (d : Draft) (position : Nat) : Nat :=
  if (d.token? (position + 1)).any (·.isConditionalJump) then position + 2 else position + 1

def duplicatePoint (d : Draft) (position first : Nat) : Diagnostic :=
  let name := d.name position
  { severity := .error
    message := s!"jump point `{name}` is declared more than once"
    code := some .duplicateJumpPoint
    position := some position
    labels :=
      [.mark (d.span position) "duplicate declaration",
        .context (d.span first) "first declared here"]
    help := some "give each jump point a unique number" }

def emptyBranch (d : Draft) (vertex position : Nat) : Diagnostic :=
  let name := d.name vertex
  { severity := .error
    message := s!"branch of `{name}` has no elements"
    code := some .emptyBranch
    position := some position
    labels :=
      [.mark (d.span position) Code.emptyBranch.description,
        .context (d.span vertex) "conditional vertex"]
    help := some "add the steps taken when the condition is false" }

def jumpReports (d : Draft) (vertex : Nat) : List Diagnostic :=
  if (d.token? (vertex + 1)).any (·.isConditionalJump) then []
  else [d.missingBranchJump vertex (vertex + 1)]

def branchReports (d : Draft) (vertex : Nat) : List Diagnostic :=
  let start := d.branchStart vertex
  if (d.token? start).all (·.closesBranch) then [d.emptyBranch vertex start] else []

def reportsAt (d : Draft) (position : Nat) : List Diagnostic :=
  match d.token? position with
  | some (.jumpPoint index) =>
    (d.declaration? position index).toList.map (d.duplicatePoint position)
  | some (.conditional _ _) => d.jumpReports position ++ d.branchReports position
  | _ => []

def markerReports (d : Draft) : List Diagnostic :=
  (if d.token? 0 = some .start then [] else [d.missingStart]) ++
    if d.lexemes.any (·.token == .finish) then [] else [d.missingFinish]

def reports (d : Draft) (position : Nat) : List Diagnostic :=
  d.markerReports ++ (List.range position).flatMap d.reportsAt

def tokens (d : Draft) : List Token :=
  d.lexemes.toList.map (·.token)

theorem tokens_getElem? (d : Draft) (p : Nat) : d.tokens[p]? = d.token? p := by
  simp [tokens, token?]

theorem length_tokens (d : Draft) : d.tokens.length = d.size := by
  simp [tokens, size]

theorem token?_of_lt (d : Draft) {p : Nat} (h : p < d.size)
    : d.token? p = some d.lexemes[p].token := by
  unfold token?
  rw [Array.getElem?_eq_getElem h]
  rfl

theorem token?_eq_none (d : Draft) {p : Nat} (h : d.size ≤ p) : d.token? p = none := by
  unfold token?
  rw [Array.getElem?_eq_none h]
  rfl

theorem size_le_of_token? (d : Draft) {p : Nat} (h : d.token? p = none) : d.size ≤ p := by
  apply Nat.le_of_not_lt
  intro hlt
  rw [d.token?_of_lt hlt] at h
  contradiction

theorem lt_size_of_makes {d : Draft} {p : Nat} (h : d.makes p = true) : p < d.size := by
  unfold makes at h
  cases ht : d.token? p with
  | none => simp [ht] at h
  | some t => exact d.lt_size_of_token? ht

theorem exists_token?_of_makes {d : Draft} {p : Nat} (h : d.makes p = true)
    : ∃ t, d.token? p = some t ∧ t ≠ .start := by
  unfold makes at h
  cases ht : d.token? p with
  | none => simp [ht] at h
  | some t =>
    refine ⟨t, rfl, ?_⟩
    intro hstart
    simp [ht, hstart] at h

theorem makes_of_token? {d : Draft} {p : Nat} {t : Token} (h : d.token? p = some t)
    (ht : t ≠ .start) : d.makes p = true := by
  simp [makes, h, ht]

theorem makes_eq_false_of_start {d : Draft} {p : Nat} (h : d.token? p = some .start)
    : d.makes p = false := by
  simp [makes, h]

theorem makes_eq_false_of_size_le {d : Draft} {p : Nat} (h : d.size ≤ p)
    : d.makes p = false := by
  simp [makes, d.token?_eq_none h]

theorem kind_of_token? {d : Draft} {p : Nat} {t : Token} (h : d.token? p = some t)
    : d.kind p = t.kind (d.conditional p) := by
  simp [kind, h]

theorem ref_succ_of_makes {d : Draft} {p : Nat} (h : d.makes p = true)
    : d.ref (p + 1) = d.ref p + 1 := by
  simp [ref, List.range_succ, h]

theorem ref_succ_of_not_makes {d : Draft} {p : Nat} (h : d.makes p = false)
    : d.ref (p + 1) = d.ref p := by
  simp [ref, List.range_succ, h]

theorem ref_pos (d : Draft) (p : Nat) : 0 < d.ref p := by
  apply Nat.succ_pos

theorem ref_mono (d : Draft) {p q : Nat} (h : p ≤ q) : d.ref p ≤ d.ref q := by
  unfold ref
  apply Nat.succ_le_succ
  apply List.Sublist.countP_le
  exact List.range_sublist.mpr h

theorem ref_lt_ref {d : Draft} {p q : Nat} (hp : d.makes p = true) (h : p < q)
    : d.ref p < d.ref q := by
  have hle := d.ref_mono (Nat.succ_le_of_lt h)
  rw [ref_succ_of_makes hp] at hle
  exact hle

theorem filter_range_getElem? {f : Nat → Bool} {p n : Nat} (h : p < n) (hp : f p = true)
    : ((List.range n).filter f)[(List.range p).countP f]? = some p := by
  induction n with
  | zero => omega
  | succ n ih =>
    rw [List.range_succ, List.filter_append]
    cases Nat.lt_succ_iff_lt_or_eq.mp h with
    | inl hlt =>
      rw [List.getElem?_append_left]
      . exact ih hlt
      . exact (List.getElem?_eq_some_iff.mp (ih hlt)).choose
    | inr heq =>
      subst heq
      rw [List.countP_eq_length_filter, List.getElem?_append_right (Nat.le_refl _)]
      simp [hp]

theorem places_getElem?_ref {d : Draft} {p : Nat} (h : d.makes p = true)
    : d.places[d.ref p - 1]? = some p := by
  apply filter_range_getElem?
  . exact lt_size_of_makes h
  . exact h

theorem ref_size (d : Draft) : d.ref d.size = d.count := by
  simp [ref, count, places, List.countP_eq_length_filter]

theorem tokenOf?_ref {d : Draft} {p : Nat} (h : d.makes p = true)
    : d.tokenOf? (d.ref p) = d.token? p := by
  have hplace := places_getElem?_ref h
  unfold tokenOf?
  split
  . next hzero => exact absurd hzero (Nat.ne_of_gt (d.ref_pos p))
  . next r hr =>
    rw [hr] at hplace
    simp only [Nat.succ_eq_add_one, Nat.add_sub_cancel] at hplace
    simp [hplace]

theorem tokenOf?_count (d : Draft) : d.tokenOf? d.count = none := by
  simp [tokenOf?, count]

@[simp]
theorem length_entries (d : Draft) (n : Nat) : (d.entries n).length = d.count := by
  simp [entries, count]

theorem entries_ref {d : Draft} {p : Nat} (h : d.makes p = true) (n : Nat)
    : (d.entries n)[d.ref p]? = some (d.element n p) := by
  unfold entries
  rw [List.getElem?_cons, if_neg (Nat.ne_of_gt (d.ref_pos p)), List.getElem?_map]
  rw [places_getElem?_ref h]
  rfl

theorem conditionals_succ_of_conditional {d : Draft} {p : Nat} {l : Letter} {n : UInt32}
    (h : d.token? p = some (.conditional l n)) : d.conditionals (p + 1) = d.conditionals p + 1 := by
  simp [conditionals, List.range_succ, h, Token.isConditional]

theorem conditionals_succ_of_not_conditional {d : Draft} {p : Nat} {t : Token}
    (h : d.token? p = some t) (ht : t.isConditional = false)
    : d.conditionals (p + 1) = d.conditionals p := by
  simp [conditionals, List.range_succ, h, ht]

theorem conditionals_mono (d : Draft) {p q : Nat} (h : p ≤ q)
    : d.conditionals p ≤ d.conditionals q := by
  unfold conditionals
  apply List.Sublist.countP_le
  exact List.range_sublist.mpr h

theorem conditionals_lt (d : Draft) {p : Nat} {l : Letter} {n : UInt32}
    (h : d.token? p = some (.conditional l n)) : d.conditionals p < d.conditionals d.size := by
  have hle := d.conditionals_mono (Nat.succ_le_of_lt (d.lt_size_of_token? h))
  rw [conditionals_succ_of_conditional h] at hle
  exact hle

theorem declarations_succ_of_jumpPoint {d : Draft} {p : Nat} {index : UInt32}
    (h : d.token? p = some (.jumpPoint index))
    : d.declarations (p + 1) =
        d.declarations p ++ if d.declares p index then [] else [(index, d.ref p)] := by
  have hnew : d.newPoint? p = if d.declares p index then none else some (index, d.ref p) := by
    simp [newPoint?, h]
  unfold declarations
  rw [List.range_succ, List.filterMap_append]
  cases hdecl : d.declares p index with
  | false => simp [hnew, hdecl]
  | true => simp [hnew, hdecl]

theorem declarations_succ_of_not_jumpPoint {d : Draft} {p : Nat}
    (h : ∀ index, d.token? p ≠ some (.jumpPoint index))
    : d.declarations (p + 1) = d.declarations p := by
  have hnew : d.newPoint? p = none := by
    unfold newPoint?
    split
    . next index htoken => exact absurd htoken (h index)
    . rfl
  unfold declarations
  rw [List.range_succ, List.filterMap_append]
  simp [hnew]

theorem isSome_declaration? (d : Draft) (p : Nat) (index : UInt32)
    : (d.declaration? p index).isSome = d.declares p index := by
  unfold declaration? declares
  rw [Bool.eq_iff_iff, List.find?_isSome, List.any_eq_true]

theorem lookup_declarations (d : Draft) (p : Nat) (index : UInt32)
    : (d.declarations p).lookup index = (d.declaration? p index).map d.ref := by
  induction p with
  | zero => rfl
  | succ p ih =>
    have hfind : d.declaration? (p + 1) index = (d.declaration? p index).or
        (if d.token? p = some (.jumpPoint index) then some p else none) := by
      simp [declaration?, List.range_succ, List.find?_append, List.find?_singleton]
    by_cases hpoint : ∃ k, d.token? p = some (.jumpPoint k)
    . obtain ⟨k, hk⟩ := hpoint
      rw [declarations_succ_of_jumpPoint hk, List.lookup_append, ih, hfind, hk]
      rw [← isSome_declaration?]
      by_cases heq : k = index
      . subst heq
        cases hdecl : d.declaration? p k with
        | none => simp
        | some q => simp
      . have hbeq : (index == k) = false := beq_false_of_ne (Ne.symm heq)
        cases (d.declaration? p k).isSome with
        | false => simp [heq, List.lookup_cons, hbeq]
        | true => simp [heq]
    . have hnot : ∀ k, d.token? p ≠ some (.jumpPoint k) := fun k hk => hpoint ⟨k, hk⟩
      rw [declarations_succ_of_not_jumpPoint hnot, ih, hfind, if_neg (hnot index)]
      simp

theorem filter_range_getElem?_iff {f : Nat → Bool} {n k p : Nat}
    : ((List.range n).filter f)[k]? = some p ↔
        p < n ∧ f p = true ∧ (List.range p).countP f = k := by
  constructor
  . intro h
    have hmem := List.mem_of_getElem? h
    rw [List.mem_filter, List.mem_range] at hmem
    refine ⟨hmem.left, hmem.right, ?_⟩
    have hnodup : ((List.range n).filter f).Nodup := List.Nodup.filter _ List.nodup_range
    obtain ⟨hk, hkp⟩ := List.getElem?_eq_some_iff.mp h
    obtain ⟨hq, hqp⟩ := List.getElem?_eq_some_iff.mp (filter_range_getElem? hmem.left hmem.right)
    exact hnodup.getElem_inj_iff.mp (hqp.trans hkp.symm)
  . intro ⟨hp, hf, hk⟩
    rw [← hk]
    exact filter_range_getElem? hp hf

theorem ref_of_places_getElem? {d : Draft} {r p : Nat} (h : d.places[r]? = some p)
    : d.makes p = true ∧ d.ref p = r + 1 := by
  obtain ⟨_, hmakes, hcount⟩ := filter_range_getElem?_iff.mp h
  exact ⟨hmakes, congrArg Nat.succ hcount⟩

theorem entries_getElem? (d : Draft) (n r : Nat)
    : (d.entries n)[r]? =
        (d.entries 0)[r]?.map fun e => { e with next := successor n r e.kind } := by
  cases r with
  | zero => simp [entries, startElement]
  | succ r =>
    simp only [entries, List.getElem?_cons_succ, List.getElem?_map]
    cases hplace : d.places[r]? with
    | none => rfl
    | some p =>
      have href := (ref_of_places_getElem? hplace).right
      simp [element, href]

theorem reports_succ (d : Draft) (p : Nat)
    : d.reports (p + 1) = d.reports p ++ d.reportsAt p := by
  simp [reports, List.range_succ]

theorem head_ref_of_makes {d : Draft} {p : Nat} {t : Token} (h : d.token? p = some t)
    (ht : t ≠ .start)
    : d.head (d.ref p) = if t.closesBranch then none else some (d.ref p) := by
  unfold head
  rw [tokenOf?_ref (makes_of_token? h ht), h]
  cases hcloses : t.closesBranch <;> simp [hcloses]

theorem ref_of_size_le {d : Draft} {p : Nat} (h : d.size ≤ p) : d.ref p = d.count := by
  induction h with
  | refl => exact d.ref_size
  | step hp ih => rw [ref_succ_of_not_makes (makes_eq_false_of_size_le hp), ih]

theorem head_ref_of_size_le {d : Draft} {p : Nat} (h : d.size ≤ p)
    : d.head (d.ref p) = none := by
  unfold head
  rw [ref_of_size_le h, tokenOf?_count]
  rfl

end Draft

end LogicalScheme
