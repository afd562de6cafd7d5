/-!
# Little-endian numbers

A number as the list of its low bytes, least significant first, and back.
-/

namespace AsmLoader.Machine

/-- The `count` low bytes of a number, least significant first. -/
def lowBytes : Nat → Nat → List UInt8
  | 0, _ => []
  | count + 1, n => UInt8.ofNat (n % 256) :: lowBytes count (n / 256)

def signedBytes (count : Nat) (value : Int64) : List UInt8 :=
  lowBytes count value.toUInt64.toNat

def ofLowBytes : List UInt8 → Nat
  | [] => 0
  | b :: rest => b.toNat + 256 * ofLowBytes rest

def ofSignedBytes (bytes : List UInt8) : Int :=
  Int.bmod (ofLowBytes bytes) (1 <<< (8 * bytes.length))

@[simp] theorem length_lowBytes (count n : Nat) : (lowBytes count n).length = count := by
  induction count generalizing n with
  | zero => rfl
  | succ count ih => simp [lowBytes, ih]

@[simp] theorem length_signedBytes (count : Nat) (value : Int64) :
    (signedBytes count value).length = count := by
  simp [signedBytes]

def fitsByte (value : Int64) : Bool :=
  -128 ≤ value.toInt && value.toInt ≤ 127

def fitsDword (value : Int64) : Bool :=
  -0x80000000 ≤ value.toInt && value.toInt < 0x80000000

end AsmLoader.Machine
