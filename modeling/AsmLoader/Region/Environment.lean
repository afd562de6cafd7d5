import AsmLoader.Region.Placement
import AsmLoader.Text.Blank
import AsmLoader.Text.Quoted
/-!
# Configuration from the environment

Two variables of the environment change the default configuration. A number may be decimal or
hexadecimal, with blanks around it and underscores anywhere; the base may also be the word `any`.
-/

namespace AsmLoader.Region

def capacityVariable : String := "ASMBRIDGE_CAPACITY"

def baseVariable : String := "ASMBRIDGE_BASE"

structure InvalidNumber where
  name : String
  value : String
  deriving DecidableEq, Repr

def InvalidNumber.message (e : InvalidNumber) : String :=
  "Invalid value for " ++ e.name ++ ": " ++ Text.quoted e.value

/-- Reads a number: blanks around it and all underscores are dropped, `0x` or `0X` starts a
hexadecimal one. -/
def readNumber? (cs : List Char) : Option UInt64 :=
  match (Text.trim cs).filter (· ≠ '_') with
  | '0' :: 'x' :: digits => Text.readUInt64? 16 digits
  | '0' :: 'X' :: digits => Text.readUInt64? 16 digits
  | digits => Text.readUInt64? 10 digits

def numberIn (name value : String) : Except InvalidNumber UInt64 :=
  match readNumber? value.toList with
  | some n => .ok n
  | none => .error ⟨name, value⟩

def isAny (value : String) : Bool :=
  (Text.trim value.toList).map Char.toLower == ['a', 'n', 'y']

def placementIn (value : String) : Except InvalidNumber Placement :=
  if isAny value then .ok .anywhere
  else (numberIn baseVariable value).map .fixed

/-- The configuration that the environment asks for. A variable that is not set keeps its
default; the capacity is read first. -/
def Config.ofEnvironment (lookup : String → Option String) : Except InvalidNumber Config := do
  let capacity ← match lookup capacityVariable with
    | some value => numberIn capacityVariable value
    | none => .ok Config.default.capacity
  let placement ← match lookup baseVariable with
    | some value => placementIn value
    | none => .ok Config.default.placement
  return ⟨capacity, placement⟩

end AsmLoader.Region
