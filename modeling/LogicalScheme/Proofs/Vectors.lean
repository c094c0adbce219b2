import LogicalScheme.Proofs.Order
import LogicalScheme.Proofs.Refusals
import Mathlib.Data.Set.Function

/-!
This module contains the two ways to write a condition vector down. A vector has one text, and nothing else is
read as this vector. Of the masks that fit its length it has one, and shifts of this mask give its bits.
-/

namespace LogicalScheme

theorem mapM_eq_some_map {α β : Type} {f : α → Option β} {g : α → β} {as : List α}
    (h : ∀ a ∈ as, f a = some (g a)) : as.mapM f = some (as.map g) := by
  induction as with
  | nil => rfl
  | cons a as ih =>
    rw [List.forall_mem_cons] at h
    rw [List.mapM_cons, h.left, ih h.right]
    rfl

namespace ConditionVector

variable {v : ConditionVector} {text : String} {mask mask' : UInt64} {n : Nat}

theorem text_of_parse (h : parse text n = .ok v) : v.text = text := by
  obtain ⟨⟨_, hdigits⟩, hbits⟩ := parse_eq_ok_iff.mp h
  rw [ConditionVector.text, hbits, map_bitChar_eq hdigits, String.ofList_toList]

theorem get?_of_parse (h : parse text n = .ok v) (k : Nat)
    : v.get? k = if 0 < k ∧ k ≤ n then text.toList[k - 1]?.map (· == '1') else none := by
  obtain ⟨⟨hlength, _⟩, hbits⟩ := parse_eq_ok_iff.mp h
  cases k with
  | zero => rfl
  | succ k =>
    rw [get?, hbits, Nat.add_sub_cancel, List.getElem?_map]
    split
    . rfl
    . next hk =>
      have hle : text.toList.length ≤ k := by
        rw [String.length_toList, hlength]
        omega
      rw [List.getElem?_eq_none hle]
      rfl

def shiftRight? (word : UInt64) (places : Nat) : Option UInt64 :=
  if places < 64 then some (word >>> UInt64.ofNat places) else none

/--
The vector that is read off a mask. For each bit the mask is shifted until this bit is the last, and if there is
no shift that far, there is no vector.
-/
def ofShifts? (mask : UInt64) (length : Nat) : Option ConditionVector :=
  ((List.range length).mapM fun bit => (shiftRight? mask (length - 1 - bit)).map (· &&& 1 == 1)).map mk

theorem shiftRight?_eq {word : UInt64} {places : Nat} (h : places < 64)
    : (shiftRight? word places).map (· &&& 1 == 1) = some (word.toNat.testBit places) := by
  have hplaces : (UInt64.ofNat places).toNat % 64 = places := by
    rw [UInt64.toNat_ofNat', Nat.mod_eq_of_lt (by omega : places < 2 ^ 64), Nat.mod_eq_of_lt h]
  have hlast : ((word >>> UInt64.ofNat places) &&& 1).toNat = word.toNat / 2 ^ places % 2 := by
    rw [UInt64.toNat_and, UInt64.toNat_shiftRight, hplaces, Nat.shiftRight_eq_div_pow]
    exact Nat.and_one_is_mod _
  rw [shiftRight?, if_pos h, Option.map_some, Nat.testBit_eq_decide_div_mod_eq, ← hlast, beq_eq_decide]
  congr 2
  exact propext UInt64.toNat_inj.symm

theorem ofShifts?_eq (mask : UInt64) (h : n ≤ 64) : ofShifts? mask n = some (ofMask mask n) := by
  have hshift : ∀ bit ∈ List.range n,
      (shiftRight? mask (n - 1 - bit)).map (· &&& 1 == 1) = some (mask.toNat.testBit (n - 1 - bit)) := by
    intro bit hbit
    apply shiftRight?_eq
    have hlt := List.mem_range.mp hbit
    omega
  rw [ofShifts?, mapM_eq_some_map hshift]
  rfl

theorem bijOn_ofMask (h : n ≤ 64)
    : Set.BijOn (ofMask · n) {mask | mask.toNat < 2 ^ n} {v | v.length = n} := by
  refine ⟨?_, ?_, ?_⟩
  . intro mask _
    exact length_ofMask mask n
  . intro mask hmask mask' hmask' heq
    rw [← UInt64.toNat_inj, ← number_ofMask_of_lt hmask, ← number_ofMask_of_lt hmask']
    exact congrArg number heq
  . intro v hv
    cases hv
    -- a vector comes from its number
    have hlt : (UInt64.ofNat v.number).toNat < 2 ^ v.length := by
      rw [toNat_ofNat h v.number_lt]
      exact v.number_lt
    exact ⟨UInt64.ofNat v.number, hlt, ofMask_number h⟩

theorem bits_ofMask_lt_iff_lt (hmask : mask.toNat < 2 ^ n) (hmask' : mask'.toNat < 2 ^ n)
    : (ofMask mask n).bits < (ofMask mask' n).bits ↔ mask < mask' := by
  rw [bits_ofMask_lt_iff, number_ofMask_of_lt hmask, number_ofMask_of_lt hmask', UInt64.lt_iff_toNat_lt]

/--
A condition vector has one text and, up to the width of a mask, one number. What is no text of a vector of the
length that is asked for is refused for its length, or else for its first character that is no bit. The masks
that fit a length are the vectors of this length in their order, and no shift goes beyond the mask.
-/
theorem written_exact
    : (∀ (text : String) (n : Nat),
        ((∃ v, parse text n = .ok v) ↔ text.length = n ∧ ∀ c ∈ text.toList, c = '0' ∨ c = '1') ∧
        (∀ v, parse text n = .ok v → v.text = text ∧
          ∀ k, v.get? k = if 0 < k ∧ k ≤ n then text.toList[k - 1]?.map (· == '1') else none) ∧
        ∀ e, parse text n = .error e ↔ Refused text.toList n e) ∧
      ∀ n ≤ 64,
        (∀ mask : UInt64,
          (ofMask mask n).length = n ∧ parse (ofMask mask n).text n = .ok (ofMask mask n) ∧
            (ofMask mask n).number = mask.toNat % 2 ^ n ∧ ofShifts? mask n = some (ofMask mask n)) ∧
        Set.BijOn (ofMask · n) {mask | mask.toNat < 2 ^ n} {v | v.length = n} ∧
        ∀ mask mask' : UInt64, mask.toNat < 2 ^ n → mask'.toNat < 2 ^ n →
          ((ofMask mask n).bits < (ofMask mask' n).bits ↔ mask < mask') := by
  constructor
  . intro text n
    exact ⟨exists_parse_eq_ok_iff, fun v hv => ⟨text_of_parse hv, get?_of_parse hv⟩, fun e => parse_eq_error_iff⟩
  . intro n hn
    refine ⟨?_, bijOn_ofMask hn, fun _ _ => bits_ofMask_lt_iff_lt⟩
    intro mask
    have hlength := length_ofMask mask n
    have hparse := (ofMask mask n).parse_text
    rw [hlength] at hparse
    exact ⟨hlength, hparse, number_ofMask mask n, ofShifts?_eq mask hn⟩

theorem written_widestMask
    : let v := ofMask 0x8000000000000001 64
      parse "1ж" 2 = .error (.vectorCharacter 'ж' 1) ∧ parse v.text 64 = .ok v ∧ v.get? 65 = none ∧
        v.number = 0x8000000000000001 ∧ ofShifts? 0x8000000000000001 64 = some v ∧
        (ofMask 0x7fffffffffffffff 64).bits < v.bits := by
  intro v
  obtain ⟨hparse, hmasks⟩ := written_exact
  obtain ⟨hmask, _, horder⟩ := hmasks 64 (Nat.le_refl 64)
  obtain ⟨_, hread, hnumber, hshifts⟩ := hmask 0x8000000000000001
  obtain ⟨_, hget⟩ := (hparse v.text 64).right.left v hread
  refine ⟨?_, hread, hget 65, hnumber, hshifts, ?_⟩
  . apply ((hparse "1ж" 2).right.right _).mpr
    exact @Refused.character _ _ ['1'] [] 'ж' rfl rfl (by simp) (by decide)
  . exact (horder _ _ (by decide) (by decide)).mpr (by decide)

end ConditionVector

end LogicalScheme
