/-!
# Conditions

The sixteen conditions on the flags that conditional jumps, moves and sets test, and the suffixes
that name them. A condition and its negation differ in the lowest bit of their codes.
-/

namespace AsmLoader.Machine

inductive Condition where
  | o | no | b | ae | e | ne | be | a | s | ns | p | np | l | ge | le | g
  deriving DecidableEq, Repr

namespace Condition

def all : List Condition :=
  [o, no, b, ae, e, ne, be, a, s, ns, p, np, l, ge, le, g]

def code : Condition → Nat
  | o => 0 | no => 1 | b => 2 | ae => 3 | e => 4 | ne => 5 | be => 6 | a => 7
  | s => 8 | ns => 9 | p => 10 | np => 11 | l => 12 | ge => 13 | le => 14 | g => 15

def ofCode (n : Nat) : Condition :=
  all.getD (n % 16) o

/-- The suffixes that name a condition; a listing shows the first. -/
def suffixes : Condition → List String
  | o => ["o"]
  | no => ["no"]
  | b => ["b", "c", "nae"]
  | ae => ["ae", "nb", "nc"]
  | e => ["e", "z"]
  | ne => ["ne", "nz"]
  | be => ["be", "na"]
  | a => ["a", "nbe"]
  | s => ["s"]
  | ns => ["ns"]
  | p => ["p", "pe"]
  | np => ["np", "po"]
  | l => ["l", "nge"]
  | ge => ["ge", "nl"]
  | le => ["le", "ng"]
  | g => ["g", "nle"]

def suffix (c : Condition) : String :=
  c.suffixes.headD ""

def ofSuffix? (suffix : String) : Option Condition :=
  all.find? fun c => c.suffixes.contains suffix

theorem ofCode_code (c : Condition) : ofCode c.code = c := by
  cases c <;> rfl

end Condition

end AsmLoader.Machine
