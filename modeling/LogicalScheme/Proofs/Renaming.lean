import LogicalScheme.Proofs.Faults
import Mathlib.Data.List.Forall2

/-!
This module contains what the numbers of tokens are good for. Vertices may have any numbers, and jumps may
have any as long as they are paired as before: the layout stays the same but for names, and so do the faults.
-/

namespace LogicalScheme

def Kind.rename (f : UInt32 → UInt32) : Kind → Kind
  | .jumpPoint index => .jumpPoint (f index)
  | .jump index unconditional => .jump (f index) unconditional
  | kind => kind

@[simp]
theorem Kind.rename_id (kind : Kind) : kind.rename id = kind := by
  cases kind <;> rfl

@[simp]
theorem Kind.fallsThrough_rename (f : UInt32 → UInt32) (kind : Kind)
    : (kind.rename f).fallsThrough = kind.fallsThrough := by
  cases kind <;> rfl

@[simp]
theorem Kind.conditional?_rename (f : UInt32 → UInt32) (kind : Kind)
    : (kind.rename f).conditional? = kind.conditional? := by
  cases kind <;> rfl

namespace Element

def rename (f : UInt32 → UInt32) (name : Name) (e : Element) : Element :=
  { e with name, kind := e.kind.rename f }

theorem rename_id (name : Name) (e : Element) : e.rename id name = { e with name } := by
  unfold rename
  rw [Kind.rename_id]

theorem isFinish_rename (f : UInt32 → UInt32) (name : Name) (e : Element)
    : (e.rename f name).isFinish = e.isFinish := by
  unfold isFinish rename
  cases e.kind <;> rfl

theorem conditional?_rename (f : UInt32 → UInt32) (name : Name) (e : Element)
    : (e.rename f name).conditional? = e.conditional? := by
  unfold conditional? rename
  rw [Kind.conditional?_rename]

end Element

/--
The second automaton is the first one with other names and with the numbers of its jumps replaced.
-/
structure Automaton.Renamed (f : UInt32 → UInt32) (a b : Automaton) : Prop where
  size : b.elements.size = a.elements.size
  element : ∀ r e, a.element? r = some e → ∃ name, b.element? r = some (e.rename f name)
  jumpPoints : b.jumpPoints = a.jumpPoints.map (Prod.map f id)

/--
The second automaton is the first one with other names and another text.
-/
structure Automaton.Alike (a b : Automaton) : Prop where
  size : b.elements.size = a.elements.size
  element : ∀ r e, a.element? r = some e → ∃ name, b.element? r = some { e with name }
  jumpPoints : b.jumpPoints = a.jumpPoints

theorem Automaton.Renamed.alike {a b : Automaton} (h : Renamed id a b) : a.Alike b where
  size := h.size
  element := by
    intro r e he
    obtain ⟨name, hname⟩ := h.element r e he
    rw [Element.rename_id] at hname
    exact ⟨name, hname⟩
  jumpPoints := by rw [h.jumpPoints, Prod.map_id, List.map_id]

namespace Token

/--
The second token is the first one with another number, which `f` says for jumps and jump points. The number of
a vertex does not matter, and neither does the letter of a conditional vertex.
-/
inductive Renames (f : UInt32 → UInt32) : Token → Token → Prop where
  | start : Renames f .start .start
  | finish : Renames f .finish .finish
  | operator (m n : UInt32) : Renames f (.operator m) (.operator n)
  | conditional (l l' : Letter) (m n : UInt32) : Renames f (.conditional l m) (.conditional l' n)
  | jumpPoint (index : UInt32) : Renames f (.jumpPoint index) (.jumpPoint (f index))
  | conditionalJump (index : UInt32) : Renames f (.conditionalJump index) (.conditionalJump (f index))
  | unconditionalJump (index : UInt32) : Renames f (.unconditionalJump index) (.unconditionalJump (f index))

namespace Renames

variable {f : UInt32 → UInt32} {t t' : Token}

theorem id_refl (t : Token) : Renames id t t := by
  cases t <;> constructor

theorem closesBranch_eq (h : Renames f t t') : t'.closesBranch = t.closesBranch := by
  cases h <;> rfl

theorem isConditional_eq (h : Renames f t t') : t'.isConditional = t.isConditional := by
  cases h <;> rfl

theorem isConditionalJump_eq (h : Renames f t t') : t'.isConditionalJump = t.isConditionalJump := by
  cases h <;> rfl

theorem kind_eq (h : Renames f t t') (c : Conditional) : t'.kind c = (t.kind c).rename f := by
  cases h <;> rfl

theorem jumpTarget?_eq (h : Renames f t t') : t'.jumpTarget? = t.jumpTarget?.map f := by
  cases h <;> rfl

theorem eq_start_iff (h : Renames f t t') : t' = .start ↔ t = .start := by
  cases h <;> simp

theorem eq_finish_iff (h : Renames f t t') : t' = .finish ↔ t = .finish := by
  cases h <;> simp

theorem eq_jumpPoint_iff {index : UInt32} (hf : Function.Injective f) (h : Renames f t t')
    : t' = .jumpPoint (f index) ↔ t = .jumpPoint index := by
  cases h <;> simp [hf.eq_iff]

theorem exists_of_jumpPoint {index : UInt32} (h : Renames f t (.jumpPoint index))
    : ∃ k, t = .jumpPoint k ∧ f k = index := by
  cases h with
  | jumpPoint k => exact ⟨k, rfl, rfl⟩

theorem exists_of_conditional {l : Letter} {n : UInt32} (h : Renames f t (.conditional l n))
    : ∃ l' m, t = .conditional l' m := by
  cases h with
  | conditional l' l m n => exact ⟨l', m, rfl⟩

end Renames

variable {f : UInt32 → UInt32} {ts ts' : List Token}

theorem getElem?_renames (h : List.Forall₂ (Renames f) ts ts') (i : Nat)
    : Option.Rel (Renames f) ts[i]? ts'[i]? := by
  induction h generalizing i with
  | nil => exact .none
  | cons hhead htail ih =>
    cases i with
    | zero => exact .some hhead
    | succ i => exact ih i

theorem exists_getElem? {i : Nat} {t' : Token} (h : List.Forall₂ (Renames f) ts ts') (ht : ts'[i]? = some t')
    : ∃ t, ts[i]? = some t ∧ Renames f t t' := by
  have hrel := getElem?_renames h i
  rw [ht] at hrel
  generalize ts[i]? = t? at hrel
  cases hrel with
  | some hrenames => exact ⟨_, rfl, hrenames⟩

theorem any_renames {t? t?' : Option Token} {q : Token → Bool} (h : Option.Rel (Renames f) t? t?')
    (hq : ∀ {t t'}, Renames f t t' → q t' = q t) : t?'.any q = t?.any q := by
  cases h with
  | none => rfl
  | some hrenames => exact hq hrenames

theorem all_renames {t? t?' : Option Token} {q : Token → Bool} (h : Option.Rel (Renames f) t? t?')
    (hq : ∀ {t t'}, Renames f t t' → q t' = q t) : t?'.all q = t?.all q := by
  cases h with
  | none => rfl
  | some hrenames => exact hq hrenames

theorem getElem?_eq_iff {i : Nat} {t t' : Token} (h : List.Forall₂ (Renames f) ts ts')
    (ht : ∀ {u u'}, Renames f u u' → (u' = t' ↔ u = t)) : ts'[i]? = some t' ↔ ts[i]? = some t := by
  have hrel := getElem?_renames h i
  generalize ts[i]? = u? at hrel
  generalize ts'[i]? = u?' at hrel
  cases hrel with
  | none => simp
  | some hrenames => rw [Option.some.injEq, Option.some.injEq, ht hrenames]

theorem mem_renames_iff {t t' : Token} (h : List.Forall₂ (Renames f) ts ts')
    (ht : ∀ {u u'}, Renames f u u' → (u' = t' ↔ u = t)) : t' ∈ ts' ↔ t ∈ ts := by
  simp only [List.mem_iff_getElem?, getElem?_eq_iff h ht]

theorem count_renames {t : Token} (h : List.Forall₂ (Renames f) ts ts')
    (ht : ∀ {u u'}, Renames f u u' → (u' = t ↔ u = t)) : ts'.count t = ts.count t := by
  induction h with
  | nil => rfl
  | cons hhead htail ih => simp only [List.count_cons, ih, beq_iff_eq, ht hhead]

theorem jumpsAt_renames (h : List.Forall₂ (Renames f) ts ts') (i : Nat) : jumpsAt ts' i = jumpsAt ts i :=
  any_renames (getElem?_renames h i) Renames.isConditionalJump_eq

theorem branchStart_renames (h : List.Forall₂ (Renames f) ts ts') (i : Nat)
    : branchStart ts' i = branchStart ts i := by
  unfold branchStart
  rw [jumpsAt_renames h]

theorem find?_renames {q : Token → Bool} (h : List.Forall₂ (Renames f) ts ts')
    (hq : ∀ {t t'}, Renames f t t' → q t' = q t) : Option.Rel (Renames f) (ts.find? q) (ts'.find? q) := by
  induction h with
  | nil => exact .none
  | @cons t t' ts ts' hhead htail ih =>
    rw [List.find?_cons, List.find?_cons, hq hhead]
    cases q t with
    | true => exact .some hhead
    | false => exact ih

theorem Renames.bne_start_eq {t t' : Token} (h : Renames f t t') : (t' != .start) = (t != .start) := by
  rw [Bool.eq_iff_iff, bne_iff_ne, bne_iff_ne, ne_eq, ne_eq, h.eq_start_iff]

theorem firstFrom?_renames (h : List.Forall₂ (Renames f) ts ts') (i : Nat)
    : Option.Rel (Renames f) (firstFrom? ts i) (firstFrom? ts' i) :=
  find?_renames (List.forall₂_drop i h) Renames.bne_start_eq

theorem isSecond_renames {t : Token} {i : Nat} (h : List.Forall₂ (Renames f) ts ts')
    (ht : ∀ {u u'}, Renames f u u' → (u' = t ↔ u = t)) : IsSecond ts' t i ↔ IsSecond ts t i := by
  unfold IsSecond
  rw [getElem?_eq_iff h ht, count_renames (List.forall₂_take i h) ht]

end Token

open Token in
theorem Fault.of_renames {f : UInt32 → UInt32} {ts ts' : List Token} {code : Code} {i : Nat}
    (hf : Function.Injective f) (h : List.Forall₂ (Token.Renames f) ts ts') (hfault : Fault ts' code i)
    : Fault ts code i := by
  cases hfault with
  | missingStart hstart =>
    rw [ne_eq, getElem?_eq_iff h Renames.eq_start_iff] at hstart
    exact .missingStart hstart
  | missingFinish hfinish =>
    rw [mem_renames_iff h Renames.eq_finish_iff] at hfinish
    rw [← h.length_eq]
    exact .missingFinish hfinish
  | missingBranchJump ht hjumps =>
    obtain ⟨_, hu, hrenames⟩ := exists_getElem? h ht
    obtain ⟨l, m, rfl⟩ := hrenames.exists_of_conditional
    rw [jumpsAt_renames h] at hjumps
    exact .missingBranchJump hu hjumps
  | emptyBranch ht hcloses =>
    obtain ⟨_, hu, hrenames⟩ := exists_getElem? h ht
    obtain ⟨l, m, rfl⟩ := hrenames.exists_of_conditional
    rw [all_renames (getElem?_renames h _) Renames.closesBranch_eq] at hcloses
    rw [branchStart_renames h] at hcloses ⊢
    exact .emptyBranch hu hcloses
  | incompleteConditional ht hbranches =>
    obtain ⟨_, hu, hrenames⟩ := exists_getElem? h ht
    obtain ⟨l, m, rfl⟩ := hrenames.exists_of_conditional
    rw [jumpsAt_renames h, branchStart_renames h,
      all_renames (firstFrom?_renames h _) Renames.closesBranch_eq] at hbranches
    exact .incompleteConditional hu hbranches
  | duplicateJumpPoint ht hj hlt =>
    obtain ⟨_, hu, hrenames⟩ := exists_getElem? h ht
    obtain ⟨k, rfl, rfl⟩ := hrenames.exists_of_jumpPoint
    rw [getElem?_eq_iff h (Renames.eq_jumpPoint_iff hf)] at hj
    exact .duplicateJumpPoint hu hj hlt
  | duplicateStart hsecond => exact .duplicateStart ((isSecond_renames h Renames.eq_start_iff).mp hsecond)
  | duplicateFinish hsecond => exact .duplicateFinish ((isSecond_renames h Renames.eq_finish_iff).mp hsecond)
  | unresolvedJump ht hindex hpoint =>
    obtain ⟨_, hu, hrenames⟩ := exists_getElem? h ht
    rw [hrenames.jumpTarget?_eq, Option.map_eq_some_iff] at hindex
    obtain ⟨k, hindex, rfl⟩ := hindex
    rw [mem_renames_iff h (Renames.eq_jumpPoint_iff hf)] at hpoint
    exact .unresolvedJump hu hindex hpoint
  | strayJumpPoint ht hnone =>
    obtain ⟨_, hu, hrenames⟩ := exists_getElem? h ht
    obtain ⟨k, rfl, rfl⟩ := hrenames.exists_of_jumpPoint
    have hrel := firstFrom?_renames h (i + 1)
    rw [hnone] at hrel
    generalize hfirst : firstFrom? ts (i + 1) = first at hrel
    cases hrel
    exact .strayJumpPoint hu hfirst

namespace Draft

/--
The second draft is the first one with its tokens renamed.
-/
def Renames (f : UInt32 → UInt32) (d d' : Draft) : Prop :=
  List.Forall₂ (Token.Renames f) d.tokens d'.tokens

namespace Renames

variable {f : UInt32 → UInt32} {d d' : Draft}

theorem size_eq (h : Renames f d d') : d'.size = d.size := by
  rw [← length_tokens, ← length_tokens, h.length_eq]

theorem token? (h : Renames f d d') (p : Nat)
    : Option.Rel (Token.Renames f) (d.token? p) (d'.token? p) := by
  rw [← tokens_getElem?, ← tokens_getElem?]
  exact Token.getElem?_renames h p

theorem makes_eq (h : Renames f d d') (p : Nat) : d'.makes p = d.makes p :=
  Token.any_renames (h.token? p) Token.Renames.bne_start_eq

theorem places_eq (h : Renames f d d') : d'.places = d.places := by
  unfold places
  rw [h.size_eq, funext h.makes_eq]

theorem count_eq (h : Renames f d d') : d'.count = d.count := by
  unfold count
  rw [h.places_eq]

theorem ref_eq (h : Renames f d d') (p : Nat) : d'.ref p = d.ref p := by
  unfold ref
  rw [funext h.makes_eq]

theorem conditionals_eq (h : Renames f d d') (p : Nat) : d'.conditionals p = d.conditionals p := by
  have hany : ∀ q, (d'.token? q).any (·.isConditional) = (d.token? q).any (·.isConditional) := by
    intro q
    apply Token.any_renames (h.token? q)
    apply Token.Renames.isConditional_eq
  unfold conditionals
  rw [funext hany]

theorem tokenOf? (h : Renames f d d') (r : Nat)
    : Option.Rel (Token.Renames f) (d.tokenOf? r) (d'.tokenOf? r) := by
  unfold Draft.tokenOf?
  rw [h.places_eq]
  cases r with
  | zero => exact .some .start
  | succ r =>
    cases hplace : d.places[r]? with
    | none => simp [hplace]
    | some p => simpa [hplace] using h.token? p

theorem head_eq (h : Renames f d d') (r : Nat) : d'.head r = d.head r := by
  have hany := Token.any_renames (q := (!·.closesBranch)) (h.tokenOf? r) fun hrenames => by
    rw [hrenames.closesBranch_eq]
  unfold head
  rw [hany]

theorem conditional_eq (h : Renames f d d') (p : Nat) : d'.conditional p = d.conditional p := by
  have hjumps := Token.any_renames (h.token? (p + 1)) Token.Renames.isConditionalJump_eq
  unfold conditional
  simp only [hjumps, h.ref_eq, h.conditionals_eq, h.head_eq]

theorem kind_eq (h : Renames f d d') (p : Nat) : d'.kind p = (d.kind p).rename f := by
  have hrel := h.token? p
  unfold kind
  rw [h.conditional_eq]
  generalize d.token? p = t? at hrel
  generalize d'.token? p = t?' at hrel
  cases hrel with
  | none => rfl
  | some hrenames => exact hrenames.kind_eq _

theorem element_eq (h : Renames f d d') (p : Nat)
    : d'.element d'.count p = (d.element d.count p).rename f (d'.name p) := by
  unfold Element.rename element successor
  rw [h.kind_eq, h.count_eq, h.ref_eq, Kind.fallsThrough_rename]

theorem jumpPoint_iff {index : UInt32} (hf : Function.Injective f) (h : Renames f d d') (p : Nat)
    : d'.token? p = some (.jumpPoint (f index)) ↔ d.token? p = some (.jumpPoint index) := by
  rw [← tokens_getElem?, ← tokens_getElem?]
  exact Token.getElem?_eq_iff h (Token.Renames.eq_jumpPoint_iff hf)

theorem newPoint?_eq (hf : Function.Injective f) (h : Renames f d d') (p : Nat)
    : d'.newPoint? p = (d.newPoint? p).map (Prod.map f id) := by
  have hdeclares : ∀ index, d'.declares p (f index) = d.declares p index := by
    intro index
    unfold declares
    congr 1
    funext q
    rw [Bool.eq_iff_iff, beq_iff_eq, beq_iff_eq, h.jumpPoint_iff hf]
  have hrel := h.token? p
  unfold newPoint?
  generalize d.token? p = t? at hrel
  generalize d'.token? p = t?' at hrel
  cases hrel with
  | none => rfl
  | some hrenames =>
    cases hrenames with
    | jumpPoint index =>
      simp only [hdeclares, h.ref_eq]
      cases d.declares p index <;> rfl
    | _ => rfl

theorem declarations_eq (hf : Function.Injective f) (h : Renames f d d') (p : Nat)
    : d'.declarations p = (d.declarations p).map (Prod.map f id) := by
  unfold declarations
  rw [List.map_filterMap, funext (h.newPoint?_eq hf)]

/--
A layout keeps its elements and links when tokens are renamed.
-/
theorem layout_renamed (hf : Function.Injective f) (h : Renames f d d')
    : Automaton.Renamed f d.layout d'.layout where
  size := by rw [layout_size, layout_size, h.count_eq]
  element := by
    intro r e he
    cases r with
    | zero =>
      rw [layout_element?_zero] at he ⊢
      cases he
      refine ⟨⟨Token.start.text⟩, ?_⟩
      rw [h.count_eq]
      rfl
    | succ r =>
      rw [layout_element?_succ, Option.map_eq_some_iff] at he
      obtain ⟨p, hplace, rfl⟩ := he
      refine ⟨d'.name p, ?_⟩
      rw [layout_element?_succ, h.places_eq, hplace, Option.map_some, h.element_eq]
  jumpPoints := by
    unfold layout
    rw [h.size_eq]
    exact h.declarations_eq hf d.size

end Renames

end Draft

end LogicalScheme
