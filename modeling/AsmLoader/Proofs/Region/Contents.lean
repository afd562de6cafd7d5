import AsmLoader.Region.Basic
import Mathlib.Data.List.GetD
/-!
# Contents of regions

What writing and filling do to a region, byte by byte, and what a window then reads. A window
that lies in the region is always served; the bytes outside it keep their values.
-/

namespace AsmLoader.Region

theorem byteAt_zeroed (base len : UInt64) (i : Nat) : (zeroed base len).byteAt i = 0 := by
  simp [byteAt, zeroed]

theorem getElem?_firstBytes (r : Region) (n i : Nat) :
    (r.firstBytes n)[i]? = if i < n then some (r.byteAt i) else none := by
  unfold firstBytes byteAt
  by_cases hin : i < n
  · rw [if_pos hin]
    by_cases hstored : i < r.stored.length
    · rw [List.getElem?_append_left (by simp; omega), List.getElem?_take_of_lt hin,
        List.getD_eq_getElem _ _ hstored, List.getElem?_eq_getElem hstored]
    · rw [List.getElem?_append_right (by simp; omega), List.getElem?_replicate,
        if_pos (by simp; omega), List.getD_eq_default _ _ (by omega)]
  · rw [if_neg hin]
    exact List.getElem?_eq_none (by simp; omega)

theorem firstBytes_eq_map (r : Region) (n : Nat) :
    r.firstBytes n = (List.range n).map r.byteAt := by
  apply List.ext_getElem?
  intro i
  rw [getElem?_firstBytes, List.getElem?_map]
  by_cases hin : i < n
  · rw [if_pos hin, List.getElem?_range hin, Option.map_some]
  · rw [if_neg hin, List.getElem?_eq_none (by simp; omega), Option.map_none]

/-! ## Reading -/

theorem read?_eq_some (r : Region) {offset count : UInt64}
    (hfits : offset.toNat + count.toNat ≤ r.len.toNat) :
    r.read? offset count =
      some ((List.range count.toNat).map fun i => r.byteAt (offset.toNat + i)) := by
  rw [read?, if_pos (fits_iff.mpr hfits), firstBytes_eq_map, List.range_add,
    List.map_append, List.drop_left' (by simp), List.map_map]
  rfl

theorem read?_zero_eq_some (r : Region) {bytes : List UInt8} {count : UInt64}
    (hcount : count.toNat = bytes.length) (hfits : bytes.length ≤ r.len.toNat)
    (hbytes : ∀ i < bytes.length, r.byteAt i = bytes.getD i 0) :
    r.read? 0 count = some bytes := by
  rw [r.read?_eq_some (by simpa [hcount] using hfits)]
  congr 1
  apply List.ext_getElem
  · simp [hcount]
  · intro i _ hi
    simpa [hi] using hbytes i hi

/-! ## Writing -/

/-- Overwriting a window changes the bytes in it and no others. -/
theorem byteAt_overwrite (r : Region) (offset : UInt64) (bytes : List UInt8)
    (h : offset.toNat + bytes.length ≤ r.len.toNat) (i : Nat) :
    (r.overwrite offset bytes h).byteAt i =
      if offset.toNat ≤ i ∧ i < offset.toNat + bytes.length then
        bytes.getD (i - offset.toNat) 0
      else r.byteAt i := by
  have hlength := length_firstBytes r offset.toNat
  simp only [byteAt, overwrite, List.append_assoc, List.getD_eq_getElem?_getD]
  by_cases hbefore : i < offset.toNat
  · rw [List.getElem?_append_left (by omega), getElem?_firstBytes, if_pos hbefore,
      if_neg (by omega), Option.getD_some, byteAt, List.getD_eq_getElem?_getD]
  · rw [List.getElem?_append_right (by omega), hlength]
    by_cases hinside : i < offset.toNat + bytes.length
    · rw [if_pos ⟨by omega, hinside⟩, List.getElem?_append_left (by omega)]
    · rw [if_neg (by omega), List.getElem?_append_right (by omega), List.getElem?_drop]
      congr 2
      omega

theorem write?_eq_some (r : Region) {offset : UInt64} {bytes : List UInt8}
    (h : offset.toNat + bytes.length ≤ r.len.toNat) :
    r.write? offset bytes = some (r.overwrite offset bytes h) := by
  rw [write?, dif_pos (fits_iff.mpr h)]

theorem fits_of_write? {r s : Region} {offset : UInt64} {bytes : List UInt8}
    (h : r.write? offset bytes = some s) :
    ∃ hfits : offset.toNat + bytes.length ≤ r.len.toNat, s = r.overwrite offset bytes hfits := by
  unfold write? at h
  split at h
  next hfits => exact ⟨fits_iff.mp hfits, (Option.some.inj h).symm⟩
  next => cases h

end AsmLoader.Region
