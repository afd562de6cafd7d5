import AsmLoader.Region.Allocation
import Mathlib.Algebra.Group.Nat.Defs
import Mathlib.Order.Bounds.Basic
/-!
# Capacities in whole pages

A capacity is rounded to the least number of pages that has room for it, unless that number of
bytes does not fit 64 bits. What does not fill a page is cut off by a mask, which is as good as a
division because the length of a page is a power of two.
-/

namespace AsmLoader.Region

/-! ## Masks -/

theorem toNat_and_not_add_toNat_and (x mask : UInt64) :
    (x &&& ~~~mask).toNat + (x &&& mask).toNat = x.toNat := by
  obtain ⟨x⟩ := x
  obtain ⟨mask⟩ := mask
  change (x &&& ~~~mask).toNat + (x &&& mask).toNat = x.toNat
  have hdisjoint : (x &&& ~~~mask) &&& (x &&& mask) = 0 := by
    ext i
    cases hx : x[i] <;> cases hmask : mask[i] <;> simp [hx, hmask]
  have hjoin : (x &&& ~~~mask) ||| (x &&& mask) = x := by
    ext i
    cases hx : x[i] <;> cases hmask : mask[i] <;> simp [hx, hmask]
  rw [← BitVec.toNat_add_of_and_eq_zero hdisjoint, BitVec.add_eq_or_of_and_eq_zero _ _ hdisjoint,
    hjoin]

section Pages

variable {pageSize : UInt64}

theorem one_le_of_isPowerOfTwo (hpage : pageSize.toNat.isPowerOfTwo) : 1 ≤ pageSize :=
  UInt64.le_iff_toNat_le.mpr (Nat.pos_of_isPowerOfTwo hpage)

theorem toNat_sub_one (hpage : pageSize.toNat.isPowerOfTwo) :
    (pageSize - 1).toNat = pageSize.toNat - 1 :=
  UInt64.toNat_sub_of_le _ _ (one_le_of_isPowerOfTwo hpage)

theorem toNat_and_sub_one (hpage : pageSize.toNat.isPowerOfTwo) (x : UInt64) :
    (x &&& (pageSize - 1)).toNat = x.toNat % pageSize.toNat := by
  rw [UInt64.toNat_and, toNat_sub_one hpage]
  obtain ⟨k, hk⟩ := hpage
  rw [hk, Nat.and_two_pow_sub_one_eq_mod]

theorem toNat_and_not_sub_one (hpage : pageSize.toNat.isPowerOfTwo) (x : UInt64) :
    (x &&& ~~~(pageSize - 1)).toNat = x.toNat / pageSize.toNat * pageSize.toNat := by
  have hparts := toNat_and_not_add_toNat_and x (pageSize - 1)
  have hdivision := Nat.div_add_mod' x.toNat pageSize.toNat
  rw [toNat_and_sub_one hpage] at hparts
  omega

theorem isPageAddress_iff (hpage : pageSize.toNat.isPowerOfTwo) {address : UInt64} :
    isPageAddress pageSize address ↔ address ≠ 0 ∧ pageSize.toNat ∣ address.toNat := by
  have hmask : address &&& (pageSize - 1) = 0 ↔ pageSize.toNat ∣ address.toNat := by
    rw [← UInt64.toNat_inj, toNat_and_sub_one hpage, UInt64.toNat_zero, Nat.dvd_iff_mod_eq_zero]
  simp [isPageAddress, hmask]

/-! ## Rounding -/

def pageLengths (pageSize capacity : Nat) : Set Nat :=
  {n | pageSize ∣ n ∧ capacity ≤ n}

theorem roundToPages?_eq_none_iff (hpage : pageSize.toNat.isPowerOfTwo) {capacity : UInt64} :
    roundToPages? pageSize capacity = none ↔ 2 ^ 64 - pageSize.toNat < capacity.toNat := by
  have hnone : roundToPages? pageSize capacity = none ↔
      capacity + (pageSize - 1) < capacity := by
    simp [roundToPages?]
  have hpos := Nat.pos_of_isPowerOfTwo hpage
  have hpageSize := pageSize.toNat_lt
  rw [hnone, add_lt_self_iff, toNat_sub_one hpage, UInt64.size]
  omega

/-- What is left of a sum is cut off below a multiple of the page size. -/
theorem toNat_of_roundToPages? (hpage : pageSize.toNat.isPowerOfTwo) {capacity len : UInt64}
    (h : roundToPages? pageSize capacity = some len) :
    len.toNat = (capacity.toNat + (pageSize.toNat - 1)) / pageSize.toNat * pageSize.toNat := by
  have hfits : ¬2 ^ 64 - pageSize.toNat < capacity.toNat := by
    rw [← roundToPages?_eq_none_iff hpage, h]
    simp
  have hpos := Nat.pos_of_isPowerOfTwo hpage
  have hsum : (capacity + (pageSize - 1)).toNat = capacity.toNat + (pageSize.toNat - 1) := by
    rw [UInt64.toNat_add, toNat_sub_one hpage, Nat.mod_eq_of_lt]
    have hpageSize := pageSize.toNat_lt
    omega
  simp only [roundToPages?, Option.ite_none_left_eq_some, Option.some.injEq] at h
  obtain ⟨-, rfl⟩ := h
  rw [toNat_and_not_sub_one hpage, hsum]

theorem isLeast_roundToPages? (hpage : pageSize.toNat.isPowerOfTwo) {capacity len : UInt64}
    (h : roundToPages? pageSize capacity = some len) :
    IsLeast (pageLengths pageSize.toNat capacity.toNat) len.toNat := by
  have hpos := Nat.pos_of_isPowerOfTwo hpage
  rw [toNat_of_roundToPages? hpage h]
  refine ⟨⟨Nat.dvd_mul_left _ _, ?_⟩, ?_⟩
  · have hdivision := Nat.div_add_mod' (capacity.toNat + (pageSize.toNat - 1)) pageSize.toNat
    have hrest := Nat.mod_lt (capacity.toNat + (pageSize.toNat - 1)) hpos
    omega
  · rintro n ⟨⟨pages, rfl⟩, hroom⟩
    rw [Nat.mul_comm pageSize.toNat pages]
    apply Nat.mul_le_mul_right
    rw [Nat.div_le_iff_le_mul hpos]
    rw [Nat.mul_comm] at hroom
    omega

end Pages

end AsmLoader.Region
