import AsmLoader.Machine.Bytes
import AsmLoader.Machine.Register
import Mathlib.Tactic.NormNum
import Mathlib.Tactic.Ring
/-!
# Displacements

A displacement is a signed number in a few bytes of code. It leads from the end of its
instruction to the sum of the two, which wraps around. Bytes that were written for a number that
fits them read as that number, so a displacement that was written as a distance leads over just
that distance.
-/

namespace AsmLoader.Machine

/-! ## Numbers in bytes -/

theorem ofLowBytes_lowBytes (count n : Nat) :
    ofLowBytes (lowBytes count n) = n % 256 ^ count := by
  induction count generalizing n with
  | zero => simp [lowBytes, ofLowBytes, Nat.mod_one]
  | succ count ih =>
      have hbyte : (UInt8.ofNat (n % 256)).toNat = n % 256 := by simp
      rw [lowBytes, ofLowBytes, ih, hbyte, Nat.pow_succ, Nat.mul_comm (256 ^ count) 256,
        Nat.mod_mul]

theorem toInt_eq_bmod_toNat (value : Int64) :
    value.toInt = Int.bmod value.toUInt64.toNat (2 ^ 64) :=
  value.toBitVec.toInt_eq_toNat_bmod

theorem ofSignedBytes_signedBytes {count : Nat} {value : Int64} (hcount : count ≤ 8)
    (hlow : -(256 ^ count : Nat) ≤ value.toInt * 2)
    (hhigh : value.toInt * 2 < (256 ^ count : Nat)) :
    ofSignedBytes (signedBytes count value) = value.toInt := by
  have hpow : 256 ^ count = 2 ^ (8 * count) := by rw [Nat.pow_mul]
  have hdvd : 256 ^ count ∣ 2 ^ 64 := by
    rw [hpow]
    exact Nat.pow_dvd_pow 2 (by omega)
  rw [ofSignedBytes, length_signedBytes, signedBytes, ofLowBytes_lowBytes, Nat.shiftLeft_eq,
    Nat.one_mul, ← hpow, Int.natCast_emod, Int.emod_bmod]
  calc
    Int.bmod value.toUInt64.toNat (256 ^ count) = value.toInt.bmod (256 ^ count) := by
      rw [toInt_eq_bmod_toNat, Int.bmod_bmod_of_dvd hdvd]
    _ = value.toInt := Int.bmod_eq_of_le_mul_two hlow hhigh

theorem ofSignedBytes_of_fitsByte {value : Int64} (h : fitsByte value) :
    ofSignedBytes (signedBytes 1 value) = value.toInt := by
  simp only [fitsByte, Bool.and_eq_true, decide_eq_true_eq] at h
  apply ofSignedBytes_signedBytes (by omega) <;> norm_num <;> omega

theorem ofSignedBytes_of_fitsDword {value : Int64} (h : fitsDword value) :
    ofSignedBytes (signedBytes 4 value) = value.toInt := by
  simp only [fitsDword, Bool.and_eq_true, decide_eq_true_eq] at h
  apply ofSignedBytes_signedBytes (by omega) <;> norm_num <;> omega

/-! ## Where a displacement leads -/

/-- Where a displacement leads from the end of its instruction. -/
def landing (next : UInt64) (field : List UInt8) : UInt64 :=
  next + (Int64.ofInt (ofSignedBytes field)).toUInt64

theorem landing_of_eq {next : UInt64} {field : List UInt8} {value : Int64}
    (h : ofSignedBytes field = value.toInt) : landing next field = next + value.toUInt64 := by
  rw [landing, h, Int64.ofInt_toInt]

theorem add_toInt64_sub (next target : UInt64) :
    next + (target - next).toInt64.toUInt64 = target := by
  rw [UInt64.toUInt64_toInt64, UInt64.add_comm, UInt64.sub_add_cancel]

theorem CodeSize.toNat_truncate (address : UInt64) :
    (CodeSize.bits32.truncate address).toNat = address.toNat % 2 ^ 32 := by
  change (address &&& 0xFFFFFFFF).toNat = _
  rw [UInt64.toNat_and]
  exact Nat.and_two_pow_sub_one_eq_mod _ 32

theorem CodeSize.truncate_eq_iff {a b : UInt64} :
    CodeSize.bits32.truncate a = CodeSize.bits32.truncate b ↔
      a.toNat % 2 ^ 32 = b.toNat % 2 ^ 32 := by
  rw [← UInt64.toNat_inj, toNat_truncate, toNat_truncate]

theorem toNat_toUInt64_emod (value : Int64) {m : Int} (hm : m ∣ (2 ^ 64 : Nat)) :
    (value.toUInt64.toNat : Int) % m = value.toInt % m := by
  rw [toInt_eq_bmod_toNat, ← Int.emod_emod_of_dvd (Int.bmod _ _) hm, Int.bmod_emod,
    Int.emod_emod_of_dvd _ hm]

theorem CodeSize.truncate_add_toInt32 (next target : UInt64) :
    CodeSize.bits32.truncate (next + (target - next).toInt64.toInt32.toInt64.toUInt64) =
      CodeSize.bits32.truncate target := by
  have hwrap : ((target - next).toInt64.toInt32.toInt64.toUInt64.toNat : Int) % 2 ^ 32 =
      (target - next).toNat % 2 ^ 32 := by
    have hdvd : (2 ^ 32 : Int) ∣ (2 ^ 64 : Nat) := by norm_num
    rw [toNat_toUInt64_emod _ hdvd, Int32.toInt_toInt64, Int64.toInt_toInt32]
    rw [show (2 ^ 32 : Int) = (2 ^ 32 : Nat) by norm_num, Int.bmod_emod]
    exact (toNat_toUInt64_emod (target - next).toInt64 hdvd).symm
  have hsum : (next + (target - next)).toNat = target.toNat := by
    rw [UInt64.add_comm, UInt64.sub_add_cancel]
  rw [truncate_eq_iff]
  rw [UInt64.toNat_add] at hsum ⊢
  omega

theorem ofSignedBytes_bounds {field : List UInt8} (h : field.length ≤ 4) :
    -2 ^ 31 ≤ ofSignedBytes field ∧ ofSignedBytes field < 2 ^ 31 := by
  have hpos : 0 < 1 <<< (8 * field.length) := by
    rw [Nat.shiftLeft_eq, Nat.one_mul]
    exact Nat.two_pow_pos _
  have hle : 1 <<< (8 * field.length) ≤ 2 ^ 32 := by
    rw [Nat.shiftLeft_eq, Nat.one_mul]
    exact Nat.pow_le_pow_right (by omega) (by omega)
  have hlow := Int.le_bmod (x := ofLowBytes field) hpos
  have hhigh := Int.bmod_lt (x := ofLowBytes field) hpos
  rw [ofSignedBytes]
  omega

theorem toNat_landing (next : UInt64) (field : List UInt8) :
    ((landing next field).toNat : Int) = (next.toNat + ofSignedBytes field) % 2 ^ 64 := by
  have hfield : ((Int64.ofInt (ofSignedBytes field)).toUInt64.toNat : Int) =
      ofSignedBytes field % 2 ^ 64 := by
    have hsize : (Int64.size : Int) = 2 ^ 64 := by norm_num [Int64.size]
    have hmod :=
      toNat_toUInt64_emod (Int64.ofInt (ofSignedBytes field)) (m := Int64.size) (by rfl)
    have hlt := (Int64.ofInt (ofSignedBytes field)).toUInt64.toNat_lt
    rw [Int64.toInt_ofInt, Int.bmod_emod, hsize] at hmod
    omega
  rw [landing, UInt64.toNat_add]
  omega

theorem fitsDword_sub_iff {next target : UInt64} :
    fitsDword (target - next).toInt64 ↔
      (target - next).toNat < 2 ^ 31 ∨ 2 ^ 64 - 2 ^ 31 ≤ (target - next).toNat := by
  have hdistance := toNat_toUInt64_emod (target - next).toInt64 (m := 2 ^ 64) (by norm_num)
  have hlow := (target - next).toInt64.le_toInt
  have hhigh := (target - next).toInt64.toInt_lt
  have hlt := (target - next).toNat_lt
  rw [UInt64.toUInt64_toInt64] at hdistance
  simp only [fitsDword, Bool.and_eq_true, decide_eq_true_eq]
  omega

theorem fitsDword_of_near {next target : UInt64} (hlow : next.toNat ≤ target.toNat + 2 ^ 31)
    (hhigh : target.toNat < next.toNat + 2 ^ 31) : fitsDword (target - next).toInt64 := by
  have hsub := UInt64.toNat_sub target next
  have hnext := next.toNat_lt
  rw [fitsDword_sub_iff]
  omega

/-- A displacement of up to four bytes that leads to 32 bits of a target leads to all of it just
if four bytes hold the distance. -/
theorem landing_eq_iff_fitsDword {next target : UInt64} {field : List UInt8}
    (hfield : field.length ≤ 4)
    (h : CodeSize.bits32.truncate (landing next field) = CodeSize.bits32.truncate target) :
    landing next field = target ↔ fitsDword (target - next).toInt64 := by
  have hbounds := ofSignedBytes_bounds hfield
  have hlanding := toNat_landing next field
  have hsub := UInt64.toNat_sub target next
  have hnext := next.toNat_lt
  have htarget := target.toNat_lt
  rw [CodeSize.truncate_eq_iff] at h
  rw [fitsDword_sub_iff, ← UInt64.toNat_inj]
  omega

theorem landing_ne_of_le {next : UInt64} {field : List UInt8} {n : Nat}
    (hfield : field.length ≤ 4) (hlow : 2 ^ 31 ≤ n) (hhigh : n < 2 ^ 63) :
    landing next field ≠ next + UInt64.ofNat n := by
  have hbounds := ofSignedBytes_bounds hfield
  have hlanding := toNat_landing next field
  have hn : (UInt64.ofNat n).toNat = n := by
    rw [UInt64.toNat_ofNat']
    omega
  have hsum := UInt64.toNat_add next (UInt64.ofNat n)
  have hnext := next.toNat_lt
  rw [Ne, ← UInt64.toNat_inj]
  omega

end AsmLoader.Machine
