/-!
# Numerals

Reading and writing of unsigned numbers in a base. Reading is by the value of each digit, of
either case; a numeral is never empty. Hexadecimal is written with upper case digits and no
leading zeros, or in lower case where a message asks for it.
-/

namespace AsmLoader.Text

/-- The value of a digit or letter, where `a` and `A` count 10. -/
def digitValue? (c : Char) : Option Nat :=
  if '0' ≤ c ∧ c ≤ '9' then some (c.toNat - 48)
  else if 'a' ≤ c ∧ c ≤ 'z' then some (c.toNat - 87)
  else if 'A' ≤ c ∧ c ≤ 'Z' then some (c.toNat - 55)
  else none

def digitIn? (base : Nat) (c : Char) : Option Nat :=
  (digitValue? c).filter (· < base)

/-- Reads on from the value `n` of the digits already read. -/
def readDigits? (base : Nat) : Nat → List Char → Option Nat
  | n, [] => some n
  | n, c :: rest => do
    let d ← digitIn? base c
    readDigits? base (n * base + d) rest

def readNumeral? (base : Nat) : List Char → Option Nat
  | [] => none
  | c :: rest => readDigits? base 0 (c :: rest)

def readUInt64? (base : Nat) (cs : List Char) : Option UInt64 := do
  let digits := match cs with
    | '+' :: rest => rest
    | cs => cs
  let n ← readNumeral? base digits
  if n < UInt64.size then some (UInt64.ofNat n) else none

def hexDigit (n : Nat) : Char :=
  if n < 10 then Char.ofNat (48 + n) else Char.ofNat (55 + n)

def hexDigits (n : Nat) : List Char :=
  if n < 16 then [hexDigit n] else hexDigits (n / 16) ++ [hexDigit (n % 16)]
termination_by n

def hexUpper (n : Nat) : String :=
  String.ofList (hexDigits n)

def hexLower (n : Nat) : String :=
  "0x" ++ String.ofList ((hexDigits n).map Char.toLower)

def hexPadded (width n : Nat) : String :=
  let digits := hexDigits n
  String.ofList (List.replicate (width - digits.length) '0' ++ digits)

example : hexUpper 0xBEEF = "BEEF" ∧ hexLower 0xBEEF = "0xbeef" ∧ hexPadded 4 0xA = "000A" := by
  decide +kernel
example : readUInt64? 16 "+fF".toList = some 255 ∧ readUInt64? 10 "+".toList = none := by
  decide +kernel

end AsmLoader.Text
