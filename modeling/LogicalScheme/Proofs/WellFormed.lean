import LogicalScheme.Proofs.Parsed
import LogicalScheme.Proofs.Spelling

/-!
This module contains what acceptance guarantees about the lexemes of a text. On accepted lexemes the
place of an element in the arena is the position of its lexeme.
-/

namespace LogicalScheme

def Token.jumpTarget? : Token → Option UInt32
  | .conditionalJump index => some index
  | .unconditionalJump index => some index
  | _ => none

namespace Draft

/--
There is one start marker, which is in front, and one end marker. Every conditional vertex has a jump
and an element behind it, and jumps and jump points match.
-/
structure WellFormed (d : Draft) : Prop where
  start : d.token? 0 = some .start
  marker : d.name 0 = ⟨Token.start.text⟩
  start_unique : ∀ p, d.token? p = some .start → p = 0
  finish : ∃ p, d.token? p = some .finish
  finish_unique : ∀ p q, d.token? p = some .finish → d.token? q = some .finish → p = q
  jump : ∀ p l n, d.token? p = some (.conditional l n) →
    ∃ index, d.token? (p + 1) = some (.conditionalJump index)
  branch : ∀ p l n, d.token? p = some (.conditional l n) →
    ∃ t, d.token? (p + 2) = some t ∧ t.closesBranch = false
  target : ∀ p t index, d.token? p = some t → t.jumpTarget? = some index →
    ∃ q, d.token? q = some (.jumpPoint index)
  point_unique : ∀ p q index, d.token? p = some (.jumpPoint index) →
    d.token? q = some (.jumpPoint index) → p = q
  point_onward : ∀ p index, d.token? p = some (.jumpPoint index) → p + 1 < d.size

theorem reports_eq_nil {d : Draft} {n : Nat} (h : d.reports n = [])
    : d.markerReports = [] ∧ ∀ p, p < n → d.reportsAt p = [] := by
  unfold reports at h
  rw [List.append_eq_nil_iff, List.flatMap_eq_nil_iff] at h
  obtain ⟨hmarkers, hreports⟩ := h
  refine ⟨hmarkers, ?_⟩
  intro p hp
  exact hreports p (List.mem_range.mpr hp)

theorem token?_zero_of_markerReports {d : Draft} (h : d.markerReports = [])
    : d.token? 0 = some .start := by
  unfold markerReports at h
  by_cases hstart : d.token? 0 = some .start
  . exact hstart
  . simp [hstart] at h

theorem exists_finish_of_markerReports {d : Draft} (h : d.markerReports = [])
    : ∃ p, d.token? p = some .finish := by
  unfold markerReports at h
  cases hfinish : d.lexemes.any (·.token == .finish) with
  | false => simp [hfinish] at h
  | true =>
    obtain ⟨p, hp, hlexeme⟩ := Array.any_eq_true.mp hfinish
    refine ⟨p, ?_⟩
    rw [d.token?_of_lt hp]
    exact congrArg some (beq_iff_eq.mp hlexeme)

theorem exists_jump_of_reportsAt {d : Draft} {p : Nat} {l : Letter} {n : UInt32}
    (ht : d.token? p = some (.conditional l n)) (h : d.reportsAt p = [])
    : ∃ index, d.token? (p + 1) = some (.conditionalJump index) := by
  unfold reportsAt jumpReports at h
  rw [ht] at h
  simp only [List.append_eq_nil_iff] at h
  have hjump := h.left
  split at hjump
  . next hany =>
    obtain ⟨t, ht, hconditional⟩ := (Option.any_eq_true ..).mp hany
    cases t with
    | conditionalJump index => exact ⟨index, ht⟩
    | _ => contradiction
  . contradiction

theorem exists_branch_of_reportsAt {d : Draft} {p : Nat} {l : Letter} {n : UInt32}
    (ht : d.token? p = some (.conditional l n)) (h : d.reportsAt p = [])
    : ∃ t, d.token? (p + 2) = some t ∧ t.closesBranch = false := by
  obtain ⟨index, hjump⟩ := exists_jump_of_reportsAt ht h
  have hstart : d.branchStart p = p + 2 := by
    simp [branchStart, hjump, Token.isConditionalJump]
  unfold reportsAt branchReports at h
  rw [ht, hstart] at h
  simp only [List.append_eq_nil_iff] at h
  have hbranch := h.right
  split at hbranch
  . contradiction
  . next hall =>
    cases hnext : d.token? (p + 2) with
    | none => simp [hnext] at hall
    | some t => exact ⟨t, rfl, by simpa [hnext] using hall⟩

theorem declaration?_eq_none_of_reportsAt {d : Draft} {p : Nat} {index : UInt32}
    (ht : d.token? p = some (.jumpPoint index)) (h : d.reportsAt p = [])
    : d.declaration? p index = none := by
  unfold reportsAt at h
  rw [ht] at h
  simp only [List.map_eq_nil_iff, Option.toList_eq_nil_iff] at h
  exact h

theorem not_jumpPoint_of_lt {d : Draft} {p q : Nat} {index : UInt32}
    (ht : d.token? p = some (.jumpPoint index)) (h : d.reportsAt p = []) (hlt : q < p)
    : d.token? q ≠ some (.jumpPoint index) := by
  have hnone := declaration?_eq_none_of_reportsAt ht h
  unfold declaration? at hnone
  rw [List.find?_eq_none] at hnone
  intro hpoint
  exact hnone q (List.mem_range.mpr hlt) (beq_iff_eq.mpr hpoint)

theorem eq_of_duplicates {d : Draft} {code : Code} {what : String} {positions : List Nat} {p q : Nat}
    (h : Checks.duplicates d code what positions = []) (hp : p ∈ positions) (hq : q ∈ positions)
    : p = q := by
  match positions with
  | [] => contradiction
  | [r] => rw [List.mem_singleton.mp hp, List.mem_singleton.mp hq]
  | _ :: _ :: _ => contradiction

theorem mem_finishPositions {d : Draft} {p : Nat} (h : d.token? p = some .finish)
    : p ∈ Checks.finishPositions d.layout := by
  have hmakes : d.makes p = true := makes_of_token? h (by simp)
  have he := layout_element?_ref hmakes
  unfold Checks.finishPositions
  rw [List.mem_map]
  refine ⟨d.element d.count p, ?_, rfl⟩
  rw [List.mem_filter]
  constructor
  . rw [Array.mem_toList_iff]
    exact Array.mem_of_getElem? he
  . unfold Element.isFinish element
    rw [kind_of_token? h]
    rfl

theorem exists_point_of_unresolvedJumps {d : Draft} {p : Nat} {t : Token} {index : UInt32}
    (h : Checks.unresolvedJumps d d.layout = []) (ht : d.token? p = some t)
    (hindex : t.jumpTarget? = some index) : ∃ q, d.token? q = some (.jumpPoint index) := by
  have hmakes : d.makes p = true := by
    apply makes_of_token? ht
    intro hstart
    rw [hstart] at hindex
    contradiction
  have htarget : (d.element d.count p).jumpTarget? = some index := by
    unfold Element.jumpTarget? element
    rw [kind_of_token? ht]
    cases t <;> first | contradiction | exact hindex
  unfold Checks.unresolvedJumps at h
  rw [List.filterMap_eq_nil_iff] at h
  have hresolved := h (d.element d.count p) <| by
    rw [Array.mem_toList_iff]
    exact Array.mem_of_getElem? (layout_element?_ref hmakes)
  rw [htarget] at hresolved
  simp only [ite_eq_right_iff, reduceCtorEq, imp_false, Option.isNone_iff_eq_none] at hresolved
  rw [layout_jumpPoint?] at hresolved
  cases hpoint : d.declaration? d.size index with
  | none => simp [hpoint] at hresolved
  | some q => exact ⟨q, (declaration?_eq_some_iff.mp hpoint).right.left⟩

theorem lt_size_of_danglingPoints {d : Draft} {p : Nat} {index : UInt32}
    (h : Checks.danglingPoints d.layout = []) (ht : d.token? p = some (.jumpPoint index))
    : p + 1 < d.size := by
  have hmakes : d.makes p = true := makes_of_token? ht (by simp)
  have hnot : d.ref p ∉ Checks.danglingPoints d.layout := by
    rw [h]
    exact List.not_mem_nil
  rw [mem_danglingPoints_iff] at hnot
  apply Nat.lt_of_not_le
  intro hle
  apply hnot
  refine ⟨_, index, layout_element?_ref hmakes, kind_eq_jumpPoint_iff.mpr ht, ?_⟩
  have hsize : d.size = p + 1 := Nat.le_antisymm hle (d.lt_size_of_token? ht)
  rw [← ref_size, hsize, ref_succ_of_makes hmakes]

theorem WellFormed.of_nil {d : Draft} (hmarker : d.name 0 = ⟨Token.start.text⟩)
    (hreports : d.reports d.size = []) (hproblems : d.problems = []) : d.WellFormed := by
  obtain ⟨hmarkers, hat⟩ := reports_eq_nil hreports
  unfold problems at hproblems
  simp only [List.append_eq_nil_iff, List.map_eq_nil_iff] at hproblems
  obtain ⟨⟨⟨⟨hstarts, hfinishes⟩, hjumps⟩, hpoints⟩, _⟩ := hproblems
  have hstart := token?_zero_of_markerReports hmarkers
  constructor
  case start => exact hstart
  case marker => exact hmarker
  case start_unique =>
    intro p hp
    have hmem : ∀ q, d.token? q = some .start → q ∈ Checks.startPositions d := by
      intro q hq
      unfold Checks.startPositions
      rw [List.mem_filter, List.mem_range]
      exact ⟨d.lt_size_of_token? hq, beq_iff_eq.mpr hq⟩
    exact eq_of_duplicates hstarts (hmem p hp) (hmem 0 hstart)
  case finish => exact exists_finish_of_markerReports hmarkers
  case finish_unique =>
    intro p q hp hq
    exact eq_of_duplicates hfinishes (mem_finishPositions hp) (mem_finishPositions hq)
  case jump =>
    intro p l n ht
    exact exists_jump_of_reportsAt ht (hat p (d.lt_size_of_token? ht))
  case branch =>
    intro p l n ht
    exact exists_branch_of_reportsAt ht (hat p (d.lt_size_of_token? ht))
  case target =>
    intro p t index ht hindex
    exact exists_point_of_unresolvedJumps hjumps ht hindex
  case point_unique =>
    intro p q index hp hq
    rcases Nat.lt_trichotomy p q with hlt | heq | hlt
    . exact absurd hp (not_jumpPoint_of_lt hq (hat q (d.lt_size_of_token? hq)) hlt)
    . exact heq
    . exact absurd hq (not_jumpPoint_of_lt hp (hat p (d.lt_size_of_token? hp)) hlt)
  case point_onward =>
    intro p index ht
    exact lt_size_of_danglingPoints hpoints ht

namespace WellFormed

variable {d : Draft} {p : Nat} {t : Token}

theorem makes_of_ne_zero (h : d.WellFormed) (ht : d.token? p = some t) (hp : p ≠ 0)
    : d.makes p = true := by
  apply makes_of_token? ht
  intro hstart
  apply hp
  apply h.start_unique
  rw [ht, hstart]

theorem ref_eq (h : d.WellFormed) (hp : 0 < p) (hsize : p ≤ d.size) : d.ref p = p := by
  induction p with
  | zero => contradiction
  | succ p ih =>
    cases Nat.eq_zero_or_pos p with
    | inl hzero =>
      subst hzero
      rw [ref_succ_of_not_makes (makes_eq_false_of_start h.start)]
      rfl
    | inr hpos =>
      have hmakes := h.makes_of_ne_zero (d.token?_of_lt hsize) (Nat.ne_of_gt hpos)
      rw [ref_succ_of_makes hmakes, ih hpos (Nat.le_of_succ_le hsize)]

theorem count_eq (h : d.WellFormed) : d.count = d.size := by
  rw [← ref_size]
  exact h.ref_eq (d.lt_size_of_token? h.start) (Nat.le_refl d.size)

theorem layout_size (h : d.WellFormed) : d.layout.elements.size = d.size := by
  rw [Draft.layout_size, h.count_eq]

theorem layout_element? (h : d.WellFormed) (ht : d.token? p = some t)
    : d.layout.element? p =
        some
          { name := d.name p
            kind := t.kind (d.conditional p)
            position := p
            next := successor d.size p (t.kind (d.conditional p)) } := by
  cases Nat.eq_zero_or_pos p with
  | inl hzero =>
    subst hzero
    rw [h.start] at ht
    cases ht
    rw [layout_element?_zero, h.count_eq, h.marker]
    rfl
  | inr hpos =>
    have href := h.ref_eq hpos (Nat.le_of_lt (d.lt_size_of_token? ht))
    have he := layout_element?_ref (h.makes_of_ne_zero ht (Nat.ne_of_gt hpos))
    unfold element at he
    rw [href, h.count_eq, kind_of_token? ht] at he
    exact he

theorem conditional_eq {l : Letter} {n : UInt32} (h : d.WellFormed)
    (ht : d.token? p = some (.conditional l n))
    : d.conditional p =
        { index := d.conditionals p + 1, whenTrue := some (p + 1), whenFalse := some (p + 2) } := by
  have hpos : 0 < p := by
    apply Nat.pos_of_ne_zero
    intro hzero
    rw [hzero, h.start] at ht
    cases ht
  obtain ⟨index, hjump⟩ := h.jump p l n ht
  obtain ⟨t, hbranch, hcloses⟩ := h.branch p l n ht
  have hstart : t ≠ .start := by
    intro hstart
    rw [hstart] at hbranch
    have hzero := h.start_unique (p + 2) hbranch
    contradiction
  have href := h.ref_eq hpos (Nat.le_of_lt (d.lt_size_of_token? ht))
  have href' := h.ref_eq (Nat.succ_pos (p + 1)) (Nat.le_of_lt (d.lt_size_of_token? hbranch))
  have hhead := head_ref_of_makes hbranch hstart
  rw [href', hcloses] at hhead
  have hjumps : (d.token? (p + 1)).any (·.isConditionalJump) = true := by
    rw [hjump]
    rfl
  unfold conditional
  simp only [hjumps, href, hhead, ↓reduceIte, Bool.false_eq_true]

theorem layout_jumpPoint? (h : d.WellFormed) (index : UInt32) (q : Nat)
    : d.layout.jumpPoint? index = some q ↔ d.token? q = some (.jumpPoint index) := by
  have hpoint : ∀ p, d.token? p = some (.jumpPoint index) → 0 < p ∧ p < d.size := by
    intro p ht
    refine ⟨?_, d.lt_size_of_token? ht⟩
    apply Nat.pos_of_ne_zero
    intro hzero
    rw [hzero, h.start] at ht
    cases ht
  rw [Draft.layout_jumpPoint?, Option.map_eq_some_iff]
  constructor
  . intro ⟨p, hfirst, href⟩
    have ht := (declaration?_eq_some_iff.mp hfirst).right.left
    rw [h.ref_eq (hpoint p ht).left (Nat.le_of_lt (hpoint p ht).right)] at href
    rw [← href]
    exact ht
  . intro ht
    refine ⟨q, ?_, h.ref_eq (hpoint q ht).left (Nat.le_of_lt (hpoint q ht).right)⟩
    rw [declaration?_eq_some_iff]
    refine ⟨(hpoint q ht).right, ht, ?_⟩
    intro p hlt hp
    exact absurd (h.point_unique p q index hp ht) (Nat.ne_of_lt hlt)

end WellFormed

theorem marker_ofText {text : String} (h : (Draft.ofText text).token? 0 = some .start)
    : (Draft.ofText text).name 0 = ⟨Token.start.text⟩ := by
  unfold token? at h
  unfold name
  obtain ⟨l, hl, htoken⟩ := Option.map_eq_some_iff.mp h
  have hmem : l ∈ Piece.lexemes (Piece.ofText (Text.normalize text)) :=
    List.mem_toArray.mp (Array.mem_of_getElem? hl)
  have hspells := Piece.spells_of_mem_lexemes hmem
  rw [htoken] at hspells
  rw [hl, Option.map_some, Option.getD_some]
  have htext : l.text = Token.start.text := String.toList_inj.mp (hspells.eq_mark rfl)
  rw [htext]

end Draft

/--
The automaton of an accepted text is the layout of well-formed lexemes.
-/
theorem wellFormed_of_parse {text : String} {p : Parsed} (h : parse text = .ok p)
    : (Draft.ofText text).WellFormed ∧ p.automaton = (Draft.ofText text).layout ∧
        p.lexemes = (Draft.ofText text).lexemes.toList ∧ p.diagnostics = [] := by
  obtain ⟨hp, hnil⟩ := parse_eq_ok_iff.mp h
  rw [Parsed.ofText_eq] at hp
  subst hp
  refine ⟨?_, rfl, rfl, hnil⟩
  simp only [List.append_eq_nil_iff] at hnil
  obtain ⟨⟨_, hreports⟩, hproblems⟩ := hnil
  have hmarkers := (Draft.reports_eq_nil hreports).left
  have hmarker := Draft.marker_ofText (Draft.token?_zero_of_markerReports hmarkers)
  exact .of_nil hmarker hreports hproblems

end LogicalScheme
