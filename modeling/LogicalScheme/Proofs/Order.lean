import LogicalScheme.ConditionVector
import Mathlib.Algebra.Group.Nat.Defs
import Mathlib.Data.Bool.Basic
import Mathlib.Data.List.Lex

/-!
This module contains condition vectors as binary numbers. Vectors of one length are in lexicographic order as
their numbers are, and the vector of a mask spells the mask, as far as it fits.
-/

namespace LogicalScheme

namespace ConditionVector

/--
The number that bits spell, with the most significant bit first.
-/
def binary : List Bool → Nat
  | [] => 0
  | b :: bits => b.toNat * 2 ^ bits.length + binary bits

def number (v : ConditionVector) : Nat :=
  binary v.bits

variable {v w : ConditionVector}

theorem binary_lt (bits : List Bool) : binary bits < 2 ^ bits.length := by
  induction bits with
  | nil => decide
  | cons b bits ih =>
    have hbit : b.toNat * 2 ^ bits.length ≤ 1 * 2 ^ bits.length := Nat.mul_le_mul_right _ b.toNat_le
    rw [binary, List.length_cons, Nat.pow_succ]
    omega

theorem number_lt (v : ConditionVector) : v.number < 2 ^ v.length :=
  binary_lt v.bits

theorem lt_iff_binary_lt {bits bits' : List Bool} (h : bits.length = bits'.length)
    : bits < bits' ↔ binary bits < binary bits' := by
  induction bits generalizing bits' with
  | nil =>
    rw [List.eq_nil_of_length_eq_zero h.symm]
    simp
  | cons b bits ih =>
    obtain ⟨b', bits', rfl⟩ := List.exists_cons_of_length_eq_add_one h.symm
    have hlength : bits.length = bits'.length := Nat.succ.inj h
    have hlt := binary_lt bits
    have hlt' := binary_lt bits'
    rw [List.cons_lt_cons_iff, ih hlength, binary, binary, hlength]
    rw [hlength] at hlt
    -- the first bits decide, and the rest does if they are equal
    cases b with
    | false =>
      cases b' with
      | false => simp
      | true =>
        have hless : binary bits < 2 ^ bits'.length + binary bits' := Nat.lt_add_right _ hlt
        simpa using hless
    | true =>
      cases b' with
      | false =>
        have hfirst : ¬true < false := by decide
        have hmore : ¬2 ^ bits'.length + binary bits < binary bits' := by omega
        simpa [hfirst] using hmore
      | true => simp

theorem bits_lt_iff (h : v.length = w.length) : v.bits < w.bits ↔ v.number < w.number :=
  lt_iff_binary_lt h

theorem eq_of_number_eq (h : v.length = w.length) (heq : v.number = w.number) : v = w := by
  have hbits : v.bits = w.bits := by
    apply le_antisymm
    . rw [← not_lt, bits_lt_iff h.symm, heq]
      exact Nat.lt_irrefl _
    . rw [← not_lt, bits_lt_iff h, heq]
      exact Nat.lt_irrefl _
  exact congrArg mk hbits

theorem bits_ofMask_succ (mask : UInt64) (n : Nat)
    : (ofMask mask (n + 1)).bits = mask.toNat.testBit n :: (ofMask mask n).bits := by
  simp only [ofMask]
  rw [List.range_succ_eq_map, List.map_cons, List.map_map]
  congr 1
  apply List.map_congr_left
  intro k _
  rw [Function.comp_apply]
  congr 1
  omega

theorem number_ofMask (mask : UInt64) (n : Nat) : (ofMask mask n).number = mask.toNat % 2 ^ n := by
  induction n with
  | zero =>
    rw [Nat.pow_zero, Nat.mod_one]
    rfl
  | succ n ih =>
    -- the first bit is what the mask has at place `n`, and the others spell what is below
    have hlength : (ofMask mask n).bits.length = n := length_ofMask mask n
    rw [number] at ih ⊢
    rw [bits_ofMask_succ, binary, ih, hlength, Nat.toNat_testBit, Nat.mod_pow_succ, Nat.add_comm, Nat.mul_comm]

theorem bits_ofMask_lt_iff {mask mask' : UInt64} {n : Nat}
    : (ofMask mask n).bits < (ofMask mask' n).bits ↔ (ofMask mask n).number < (ofMask mask' n).number :=
  bits_lt_iff ((length_ofMask mask n).trans (length_ofMask mask' n).symm)

theorem toNat_ofNat {m n : Nat} (hn : n ≤ 64) (hm : m < 2 ^ n) : (UInt64.ofNat m).toNat = m := by
  have hpow : 2 ^ n ≤ 2 ^ 64 := Nat.pow_le_pow_right (by decide) hn
  rw [UInt64.toNat_ofNat', Nat.mod_eq_of_lt (Nat.lt_of_lt_of_le hm hpow)]

theorem number_ofMask_of_lt {mask : UInt64} {n : Nat} (h : mask.toNat < 2 ^ n)
    : (ofMask mask n).number = mask.toNat := by
  rw [number_ofMask, Nat.mod_eq_of_lt h]

theorem number_ofMask_ofNat {m n : Nat} (hn : n ≤ 64) (hm : m < 2 ^ n)
    : (ofMask (UInt64.ofNat m) n).number = m := by
  have hnat : (UInt64.ofNat m).toNat = m := toNat_ofNat hn hm
  rw [number_ofMask_of_lt (by rwa [hnat]), hnat]

theorem ofMask_number (h : v.length ≤ 64) : ofMask (UInt64.ofNat v.number) v.length = v :=
  eq_of_number_eq (length_ofMask ..) (number_ofMask_ofNat h v.number_lt)

end ConditionVector

end LogicalScheme
