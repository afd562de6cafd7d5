/-!
# Regions

A region is a mapped range of memory. All its bytes are zero at first; it keeps the bytes up to
the end of the last one ever written. Windows of it are read, written and filled, each only as a
whole: a window that does not lie in the region is refused and changes nothing. Where a window
ends is counted in 64 bits, so that an end which they cannot hold has to be found out.
-/

namespace AsmLoader.Region

theorem add_lt_self_iff (a b : UInt64) : a + b < a ↔ UInt64.size ≤ a.toNat + b.toNat := by
  have ha := a.toNat_lt
  have hb := b.toNat_lt
  rw [UInt64.lt_iff_toNat_lt, UInt64.toNat_add, UInt64.size]
  omega

/-- The end of the window of `count` bytes at `offset`, unless 64 bits cannot hold it. -/
def windowEnd? (offset : UInt64) (count : Nat) : Option UInt64 :=
  -- a sum that has wrapped around is less than either of its terms
  let stop := offset + UInt64.ofNat count
  if UInt64.size ≤ count ∨ stop < offset then none else some stop

theorem windowEnd?_eq_none_iff {offset : UInt64} {count : Nat} :
    windowEnd? offset count = none ↔ UInt64.size ≤ offset.toNat + count := by
  have hnone : windowEnd? offset count = none ↔
      UInt64.size ≤ count ∨ offset + UInt64.ofNat count < offset := by
    simp [windowEnd?, Decidable.or_iff_not_imp_left]
  rw [hnone, add_lt_self_iff]
  by_cases hcount : count < UInt64.size
  · rw [UInt64.toNat_ofNat_of_lt' hcount]
    omega
  · omega

theorem toNat_of_windowEnd? {offset stop : UInt64} {count : Nat}
    (h : windowEnd? offset count = some stop) : stop.toNat = offset.toNat + count := by
  have hsum : offset.toNat + count < UInt64.size := by
    rw [← Nat.not_le, ← windowEnd?_eq_none_iff, h]
    simp
  have hcount : count < UInt64.size := by omega
  simp only [windowEnd?, Option.ite_none_left_eq_some, Option.some.injEq] at h
  obtain ⟨-, rfl⟩ := h
  rw [UInt64.toNat_add, UInt64.toNat_ofNat_of_lt' hcount, Nat.mod_eq_of_lt hsum]

end AsmLoader.Region

namespace AsmLoader

/-- A range of memory: the address of its first byte, its length, and the bytes at its start,
after which all are zero. -/
structure Region where
  base : UInt64
  len : UInt64
  stored : List UInt8
  stored_le : stored.length ≤ len.toNat

namespace Region

def zeroed (base len : UInt64) : Region :=
  ⟨base, len, [], Nat.zero_le _⟩

def byteAt (r : Region) (i : Nat) : UInt8 :=
  r.stored.getD i 0

def contains (r : Region) (address : UInt64) : Bool :=
  r.base ≤ address && address - r.base < r.len

def fits (r : Region) (offset : UInt64) (count : Nat) : Bool :=
  match windowEnd? offset count with
  | none => false
  | some stop => stop ≤ r.len

theorem fits_iff {r : Region} {offset : UInt64} {count : Nat} :
    r.fits offset count ↔ offset.toNat + count ≤ r.len.toNat := by
  have hlen : r.len.toNat < UInt64.size := r.len.toNat_lt
  unfold fits
  split
  next hnone =>
    have hlarge := windowEnd?_eq_none_iff.mp hnone
    simp only [Bool.false_eq_true, false_iff]
    omega
  next stop hstop =>
    rw [decide_eq_true_iff, UInt64.le_iff_toNat_le, toNat_of_windowEnd? hstop]

def firstBytes (r : Region) (n : Nat) : List UInt8 :=
  r.stored.take n ++ List.replicate (n - r.stored.length) 0

@[simp] theorem length_firstBytes (r : Region) (n : Nat) : (r.firstBytes n).length = n := by
  simp only [firstBytes, List.length_append, List.length_take, List.length_replicate]
  omega

def overwrite (r : Region) (offset : UInt64) (bytes : List UInt8)
    (h : offset.toNat + bytes.length ≤ r.len.toNat) : Region where
  base := r.base
  len := r.len
  stored := r.firstBytes offset.toNat ++ bytes ++ r.stored.drop (offset.toNat + bytes.length)
  stored_le := by
    have := r.stored_le
    simp only [List.length_append, length_firstBytes, List.length_drop]
    omega

def read? (r : Region) (offset count : UInt64) : Option (List UInt8) :=
  if r.fits offset count.toNat then
    some ((r.firstBytes (offset.toNat + count.toNat)).drop offset.toNat)
  else none

def write? (r : Region) (offset : UInt64) (bytes : List UInt8) : Option Region :=
  if h : r.fits offset bytes.length then
    some (r.overwrite offset bytes (fits_iff.mp h))
  else none

def fill? (r : Region) (offset : UInt64) (count : Nat) (byte : UInt8) : Option Region :=
  r.write? offset (List.replicate count byte)

end Region

end AsmLoader
