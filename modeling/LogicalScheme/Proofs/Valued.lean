import LogicalScheme.Proofs.Values
import LogicalScheme.Proofs.WellFormed

/-!
This module contains automata that are the layout of a draft but for the values of their conditions,
which are the automata that runs see, and where control goes in them.
-/

namespace LogicalScheme

namespace ConditionVector

theorem readBits_map_bitChar (offset : Nat) (bits : List Bool)
    : readBits offset (bits.map bitChar) = .ok bits := by
  induction bits generalizing offset with
  | nil => rfl
  | cons b bits ih => cases b <;> simp [readBits, bitChar, ih, Except.map]

theorem map_bitChar_eq {cs : List Char} (h : ∀ c ∈ cs, c = '0' ∨ c = '1')
    : (cs.map (· == '1')).map bitChar = cs := by
  have hchar : ∀ c ∈ cs, (bitChar ∘ (· == '1')) c = id c := by
    intro c hc
    rcases h c hc with rfl | rfl <;> rfl
  rw [List.map_map, List.map_congr_left hchar, List.map_id]

theorem readBits_eq_ok_iff {offset : Nat} {cs : List Char} {bits : List Bool}
    : readBits offset cs = .ok bits ↔ (∀ c ∈ cs, c = '0' ∨ c = '1') ∧ bits = cs.map (· == '1') := by
  constructor
  . intro h
    fun_induction readBits offset cs generalizing bits with
    | case1 =>
      cases h
      simp
    | case2 offset cs ih | case3 offset cs ih =>
      obtain ⟨rest, hrest, rfl⟩ := map_eq_ok_iff.mp h
      obtain ⟨hcs, rfl⟩ := ih hrest
      simpa using hcs
    | case4 => cases h
  . rintro ⟨hcs, rfl⟩
    have hread := readBits_map_bitChar offset (cs.map (· == '1'))
    rw [map_bitChar_eq hcs] at hread
    exact hread

theorem parse_eq_ok_iff {text : String} {n : Nat} {v : ConditionVector}
    : parse text n = .ok v ↔
        (text.length = n ∧ ∀ c ∈ text.toList, c = '0' ∨ c = '1') ∧ v.bits = text.toList.map (· == '1') := by
  have hmap : (readBits 0 text.toList).map ConditionVector.mk = .ok v ↔ readBits 0 text.toList = .ok v.bits := by
    obtain ⟨bits⟩ := v
    cases readBits 0 text.toList <;> simp [Except.map]
  unfold parse
  rw [← String.length_toList]
  dsimp only
  split
  . next hn => rw [hmap, readBits_eq_ok_iff, and_iff_right hn]
  . next hn => simp [hn]

theorem exists_parse_eq_ok_iff {text : String} {n : Nat}
    : (∃ v, parse text n = .ok v) ↔ text.length = n ∧ ∀ c ∈ text.toList, c = '0' ∨ c = '1' := by
  constructor
  . intro ⟨v, h⟩
    exact (parse_eq_ok_iff.mp h).left
  . intro h
    exact ⟨⟨text.toList.map (· == '1')⟩, parse_eq_ok_iff.mpr ⟨h, rfl⟩⟩

theorem parse_text (v : ConditionVector) : parse v.text v.length = .ok v := by
  unfold parse text length
  simp [readBits_map_bitChar, Except.map]

end ConditionVector

def Token.fallsThrough : Token → Bool
  | .start => true
  | .operator _ => true
  | .jumpPoint _ => true
  | _ => false

namespace Automaton

/--
The automaton is the layout of a draft but for the values of its conditions.
-/
def Valued (d : Draft) (a : Automaton) : Prop :=
  a.reset = d.layout

theorem setValue_element (d : Draft) (n p : Nat)
    : (d.element n p).setValue none = d.element n p := by
  unfold Element.setValue Element.mapConditional Draft.element
  congr 1
  unfold Draft.kind
  cases d.token? p with
  | none => rfl
  | some t => cases t <;> rfl

theorem valued_layout (d : Draft) : d.layout.Valued d := by
  unfold Valued reset Draft.layout Draft.entries
  congr 1
  simp only [List.map_toArray, List.map_cons, List.map_map]
  congr 2
  apply List.map_congr_left
  intro p _
  exact setValue_element d d.count p

namespace Valued

variable {d : Draft} {a b : Automaton} {p : Nat} {t : Token}

theorem assign (ha : a.Valued d) (v : ConditionVector) : (a.assign v).Valued d := by
  unfold Valued
  rw [reset_assign]
  exact ha

theorem size (hd : d.WellFormed) (ha : a.Valued d) : a.elements.size = d.size := by
  rw [← hd.layout_size, ← ha, reset_size]

theorem jumpPoint? (ha : a.Valued d) (index : UInt32)
    : a.jumpPoint? index = d.layout.jumpPoint? index := by
  rw [← ha]
  rfl

/--
Element `p` is the element of the lexeme at position `p`, and has the value of its condition.
-/
theorem element? (hd : d.WellFormed) (ha : a.Valued d) (ht : d.token? p = some t)
    : a.element? p =
        some
          { name := d.name p
            kind := t.kind { d.conditional p with value := a.value? p }
            position := p
            next := Draft.successor d.size p (t.kind (d.conditional p)) } := by
  have he := hd.layout_element? ht
  rw [← ha, element?_reset, Option.map_eq_some_iff] at he
  obtain ⟨⟨name, kind, position, next⟩, he, heq⟩ := he
  have hvalue : a.value? p = (kind.conditional?).bind (·.value) := by
    unfold value?
    rw [he]
    rfl
  unfold Element.setValue Element.mapConditional at heq
  rw [Element.mk.injEq] at heq
  obtain ⟨hname, hkind, hposition, hnext⟩ := heq
  dsimp only at hname hkind hposition hnext
  rw [he, hvalue, hname, hposition, hnext]
  congr 2
  cases kind with
  | conditional c =>
    cases t with
    | conditional l n =>
      have hc : { c with value := none } = d.conditional p := Kind.conditional.inj hkind
      simp [Token.kind, Kind.conditional?, ← hc]
    | _ => contradiction
  | _ => cases t <;> first | contradiction | exact hkind

theorem exists_element (hd : d.WellFormed) (ha : a.Valued d) (hp : p < d.size)
    : ∃ e, a.element? p = some e :=
  ⟨_, ha.element? hd (d.token?_of_lt hp)⟩

theorem position_eq (hd : d.WellFormed) (ha : a.Valued d) (hp : p < d.size) : a.position p = p := by
  unfold position
  rw [ha.element? hd (d.token?_of_lt hp)]
  rfl

theorem token?_of_jumpPoint {e : Element} {index : UInt32} (hd : d.WellFormed) (ha : a.Valued d)
    (he : a.element? p = some e) (hkind : e.kind = .jumpPoint index)
    : d.token? p = some (.jumpPoint index) := by
  have hp : p < d.size := by
    rw [← ha.size hd]
    exact lt_size_of_element? he
  have ht := d.token?_of_lt hp
  rw [ha.element? hd ht] at he
  cases he
  rw [ht]
  generalize d.lexemes[p].token = t at hkind
  cases t with
  | jumpPoint n =>
    cases hkind
    rfl
  | _ => cases hkind

theorem value?_eq_none (hd : d.WellFormed) (ha : a.Valued d) (ht : d.token? p = some t)
    (hconditional : t.isConditional = false) : a.value? p = none := by
  unfold value?
  rw [ha.element? hd ht]
  cases t <;> first | contradiction | rfl

theorem follow_fallsThrough (hd : d.WellFormed) (ha : a.Valued d) (ht : d.token? p = some t)
    (hfalls : t.fallsThrough = true)
    : a.follow p = .ok (if p + 1 < d.size then some (p + 1) else none) := by
  unfold follow
  rw [ha.element? hd ht]
  cases t with
  | start | operator | jumpPoint =>
    simp [Token.kind, Draft.successor, Kind.fallsThrough]
  | _ => contradiction

theorem follow_finish (hd : d.WellFormed) (ha : a.Valued d) (ht : d.token? p = some .finish)
    : a.follow p = .ok none := by
  unfold follow
  rw [ha.element? hd ht]
  rfl

theorem next?_jumpPoint {index : UInt32} {q : Nat} (hd : d.WellFormed) (ha : a.Valued d)
    (hq : d.token? q = some (.jumpPoint index)) : a.next? q = some (q + 1) := by
  have hnext := hd.point_onward q index hq
  unfold next?
  rw [ha.element? hd hq]
  simp [Token.kind, Draft.successor, Kind.fallsThrough, hnext]

theorem follow_jump {index : UInt32} {q : Nat} (hd : d.WellFormed) (ha : a.Valued d)
    (ht : d.token? p = some t) (hindex : t.jumpTarget? = some index)
    (hq : d.token? q = some (.jumpPoint index)) : a.follow p = .ok (some (q + 1)) := by
  have hpoint : a.jumpPoint? index = some q := by
    rw [ha.jumpPoint?]
    exact (hd.layout_jumpPoint? index q).mpr hq
  have htarget : (a.jumpPoint? index).bind a.next? = some (q + 1) := by
    rw [hpoint, Option.bind_some]
    exact ha.next?_jumpPoint hd hq
  unfold follow
  rw [ha.element? hd ht]
  cases t with
  | conditionalJump n | unconditionalJump n =>
    cases hindex
    rw [← htarget]
    rfl
  | _ => contradiction

theorem follow_conditional {l : Letter} {n : UInt32} (hd : d.WellFormed) (ha : a.Valued d)
    (ht : d.token? p = some (.conditional l n))
    : a.follow p =
        match a.value? p with
        | some b => .ok (some (if b then p + 1 else p + 2))
        | none => .error (.undeterminedCondition (d.name p)) := by
  have hc := hd.conditional_eq ht
  unfold follow
  rw [ha.element? hd ht, hc]
  simp only [Token.kind]
  cases a.value? p with
  | none => rfl
  | some b => cases b <;> rfl

theorem any_isFinish (hd : d.WellFormed) (ha : a.Valued d) (ht : d.token? p = some t)
    : (a.element? p).any (·.isFinish) = true ↔ t = .finish := by
  rw [ha.element? hd ht]
  cases t <;> simp [Element.isFinish, Token.kind]

theorem conditionalCount_eq (ha : a.Valued d)
    : a.conditionalCount = d.conditionals d.size := by
  rw [← Draft.layout_conditionalCount, ← ha, conditionalCount_reset]

theorem value?_assign {l : Letter} {n : UInt32} {v : ConditionVector} (hd : d.WellFormed)
    (ha : a.Valued d) (hv : v.length = d.conditionals d.size)
    (ht : d.token? p = some (.conditional l n))
    : ∃ b, v.bits[d.conditionals p]? = some b ∧ (a.assign v).value? p = some b := by
  have hlt : d.conditionals p < v.bits.length := by
    rw [← ConditionVector.length, hv]
    exact d.conditionals_lt ht
  have hbit := List.getElem?_eq_getElem hlt
  refine ⟨_, hbit, ?_⟩
  have hc := hd.conditional_eq ht
  unfold value?
  rw [element?_assign, ha.element? hd ht, hc]
  simp [Token.kind, Element.mapConditional, Kind.mapConditional, Element.conditional?,
    Kind.conditional?, ConditionVector.get?, hbit]

theorem assignText_text {v : ConditionVector} (ha : a.Valued d)
    (hv : v.length = d.conditionals d.size) : a.assignText v.text = .ok (a.assign v) := by
  unfold assignText
  rw [ha.conditionalCount_eq, ← hv, ConditionVector.parse_text]
  rfl

theorem ext (hd : d.WellFormed) (ha : a.Valued d) (hb : b.Valued d)
    (h : ∀ p, a.value? p = b.value? p) : a = b := by
  have hreset : a.reset = b.reset := ha.trans hb.symm
  have helements : a.elements = b.elements := by
    apply Array.ext_getElem?
    intro p
    have hp : a.element? p = b.element? p := by
      cases ht : d.token? p with
      | none =>
        have hsize := d.size_le_of_token? ht
        rw [element?_eq_none, element?_eq_none]
        . rw [hb.size hd]
          exact hsize
        . rw [ha.size hd]
          exact hsize
      | some t => rw [ha.element? hd ht, hb.element? hd ht, h p]
    exact hp
  unfold reset at hreset
  rw [Automaton.mk.injEq] at hreset
  obtain ⟨htokens, hsource, _, hpoints⟩ := hreset
  cases a
  cases b
  simp only at helements htokens hsource hpoints
  rw [helements, htokens, hsource, hpoints]

theorem assign_eq {v : ConditionVector} (hd : d.WellFormed) (ha : a.Valued d) (hb : b.Valued d)
    (hv : v.length = d.conditionals d.size) : a.assign v = b.assign v := by
  apply (ha.assign v).ext hd (hb.assign v)
  intro p
  cases ht : d.token? p with
  | none =>
    have hnone : ∀ c : Automaton, c.Valued d → c.value? p = none := by
      intro c hc
      unfold value?
      rw [element?_eq_none]
      . rfl
      . rw [hc.size hd]
        exact d.size_le_of_token? ht
    rw [hnone _ (ha.assign v), hnone _ (hb.assign v)]
  | some t =>
    cases hconditional : t.isConditional with
    | false => rw [(ha.assign v).value?_eq_none hd ht hconditional, (hb.assign v).value?_eq_none hd ht hconditional]
    | true =>
      cases t with
      | conditional l n =>
        obtain ⟨x, hx, hvalue⟩ := ha.value?_assign hd hv ht
        obtain ⟨y, hy, hvalue'⟩ := hb.value?_assign hd hv ht
        rw [hvalue, hvalue', ← hx, ← hy]
      | _ => contradiction

theorem start?_eq (hd : d.WellFormed) (ha : a.Valued d) : a.start? = some 0 := by
  have hstart := ha.element? hd hd.start
  have hsize := lt_size_of_element? hstart
  unfold Automaton.element? at hstart
  rw [Array.getElem?_eq_getElem hsize, Option.some.injEq] at hstart
  unfold start?
  rw [Array.findIdx?_eq_some_iff_getElem]
  refine ⟨hsize, ?_, fun r hr => absurd hr (Nat.not_lt_zero r)⟩
  rw [hstart]
  rfl

end Valued

end Automaton

theorem Parsed.reset_automaton (text : String)
    : (ofText text).automaton.reset = (ofText text).automaton := by
  rw [ofText_eq]
  exact Automaton.valued_layout _

end LogicalScheme
