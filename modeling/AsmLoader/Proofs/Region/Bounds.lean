import AsmLoader.Proofs.Region.Contents
/-!
# Bounds of regions

Offsets, lengths and addresses are numbers of 64 bits, and a region may reach up to the last of
them. What is asked of it is bounded all the same as it would be in numbers without an end: a
window is served just if it ends in the region, and one that is refused leaves the region as it
was.
-/

namespace AsmLoader.Region

variable {r : Region} {offset count : UInt64} {bytes : List UInt8}

theorem contains_iff {address : UInt64} :
    r.contains address ↔
      r.base.toNat ≤ address.toNat ∧ address.toNat < r.base.toNat + r.len.toNat := by
  simp only [contains, Bool.and_eq_true, decide_eq_true_eq, UInt64.le_iff_toNat_le]
  apply and_congr_right
  -- from the base on, the distance to it does not wrap around
  intro hbase
  rw [UInt64.lt_iff_toNat_lt, UInt64.toNat_sub_of_le _ _ (UInt64.le_iff_toNat_le.mpr hbase)]
  omega

/-! ## Windows that are refused -/

theorem read?_eq_none (h : ¬offset.toNat + count.toNat ≤ r.len.toNat) :
    r.read? offset count = none := by
  rw [read?, if_neg (mt fits_iff.mp h)]

theorem write?_eq_none (h : ¬offset.toNat + bytes.length ≤ r.len.toNat) :
    r.write? offset bytes = none := by
  rw [write?, dif_neg (mt fits_iff.mp h)]

theorem isSome_read?_iff :
    (r.read? offset count).isSome ↔ offset.toNat + count.toNat ≤ r.len.toNat := by
  by_cases hfits : offset.toNat + count.toNat ≤ r.len.toNat
  · simp [r.read?_eq_some hfits, hfits]
  · simp [read?_eq_none hfits, hfits]

/-! ## Windows that are changed -/

/-- What is left of a region by an attempt to store some bytes at an offset, each told by its
index among them. Where the attempt is refused, the region itself is left. -/
structure Stores (r : Region) (offset : UInt64) (count : Nat) (value : Nat → UInt8)
    (attempt : Option Region) : Prop where
  isSome_iff : attempt.isSome ↔ offset.toNat + count ≤ r.len.toNat
  refused : ¬offset.toNat + count ≤ r.len.toNat → attempt.getD r = r
  base_eq : (attempt.getD r).base = r.base
  len_eq : (attempt.getD r).len = r.len
  inside : offset.toNat + count ≤ r.len.toNat → ∀ i < count,
    (attempt.getD r).byteAt (offset.toNat + i) = value i
  outside : ∀ i, i < offset.toNat ∨ offset.toNat + count ≤ i →
    (attempt.getD r).byteAt i = r.byteAt i
  /-- Any window that lies in the region can be read from what is left of it. -/
  read?_eq : ∀ start length : UInt64, start.toNat + length.toNat ≤ r.len.toNat →
    (attempt.getD r).read? start length =
      some ((List.range length.toNat).map fun i => (attempt.getD r).byteAt (start.toNat + i))

theorem stores_write? (r : Region) (offset : UInt64) (bytes : List UInt8) :
    Stores r offset bytes.length (bytes.getD · 0) (r.write? offset bytes) := by
  by_cases hfits : offset.toNat + bytes.length ≤ r.len.toNat
  · rw [r.write?_eq_some hfits]
    refine ⟨by simp [hfits], fun hrefused => absurd hfits hrefused, rfl, rfl, ?_, ?_, ?_⟩
    · intro _ i hi
      rw [Option.getD_some, byteAt_overwrite, if_pos (by omega), Nat.add_sub_cancel_left]
    · intro i hi
      rw [Option.getD_some, byteAt_overwrite, if_neg (by omega)]
    · intro start length hwindow
      exact read?_eq_some _ hwindow
  · rw [write?_eq_none hfits]
    exact ⟨by simp [hfits], fun _ => rfl, rfl, rfl, fun h => absurd h hfits, fun _ _ => rfl,
      fun _ _ hwindow => r.read?_eq_some hwindow⟩

theorem stores_fill? (r : Region) (offset : UInt64) (count : Nat) (byte : UInt8) :
    Stores r offset count (fun _ => byte) (r.fill? offset count byte) := by
  have hwrite := stores_write? r offset (List.replicate count byte)
  rw [List.length_replicate] at hwrite
  refine { hwrite with inside := fun hfits i hi => ?_ }
  calc ((r.fill? offset count byte).getD r).byteAt (offset.toNat + i)
    _ = (List.replicate count byte).getD i 0 := hwrite.inside hfits i hi
    _ = byte := List.getD_replicate byte hi

/-- How a region answers, for all offsets, lengths and addresses of 64 bits. -/
structure RespectsBounds (r : Region) : Prop where
  contains_iff : ∀ address : UInt64, r.contains address ↔
    r.base.toNat ≤ address.toNat ∧ address.toNat < r.base.toNat + r.len.toNat
  read? : ∀ offset count : UInt64,
    (r.read? offset count).isSome ↔ offset.toNat + count.toNat ≤ r.len.toNat
  write? : ∀ (offset : UInt64) (bytes : List UInt8),
    Stores r offset bytes.length (bytes.getD · 0) (r.write? offset bytes)
  fill? : ∀ (offset count : UInt64) (byte : UInt8),
    Stores r offset count.toNat (fun _ => byte) (r.fill? offset count.toNat byte)

/-- Windows are served just if they lie in a region, and addresses are in it just if they lie
between its ends, neither of which wraps around. Bytes that are stored are all that changes, and
they are read back through any window; what is refused changes nothing. -/
theorem respectsBounds (r : Region) : r.RespectsBounds where
  contains_iff _ := Region.contains_iff
  read? _ _ := isSome_read?_iff
  write? := stores_write? r
  fill? offset count := stores_fill? r offset count.toNat

/-- In the page before the end of the addresses there is the last address, but not the first. -/
example :
    (zeroed 0xFFFFFFFFFFFFF000 0x1000).contains 0xFFFFFFFFFFFFFFFF ∧
      ¬(zeroed 0xFFFFFFFFFFFFF000 0x1000).contains 0 ∧
      (zeroed 0xFFFFFFFFFFFFF000 0x1000).read? 0xFFFFFFFFFFFFFFFF 2 = none := by
  decide

end AsmLoader.Region
