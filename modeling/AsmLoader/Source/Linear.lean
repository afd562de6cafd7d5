import AsmLoader.Source.Token
/-!
# Linear forms

The value of an expression as a constant and sums of multiples of registers and of symbols, in
64-bit arithmetic that wraps around. Each register and each symbol has one coefficient, in the
order of first mention.
-/

namespace AsmLoader.Source

open Machine (Register)

section Terms

variable {κ : Type} [DecidableEq κ]

def addTerm (key : κ) (coefficient : Int64) : List (κ × Int64) → List (κ × Int64)
  | [] => [(key, coefficient)]
  | (other, old) :: rest =>
    if other = key then (other, old + coefficient) :: rest
    else (other, old) :: addTerm key coefficient rest

/-- The sum of two lists of terms, without those whose coefficient is zero. -/
def addTerms (terms others : List (κ × Int64)) : List (κ × Int64) :=
  (others.foldl (fun sum (key, coefficient) => addTerm key coefficient sum) terms).filter
    (·.2 ≠ 0)

def scaleTerms (factor : Int64) (terms : List (κ × Int64)) : List (κ × Int64) :=
  terms.map fun (key, coefficient) => (key, coefficient * factor)

def evalTerms (value : κ → Int64) : List (κ × Int64) → Int64
  | [] => 0
  | (key, coefficient) :: rest => coefficient * value key + evalTerms value rest

end Terms

structure Linear where
  constant : Int64
  registers : List (Register × Int64)
  symbols : List (String × Int64)
  deriving DecidableEq, Repr

namespace Linear

def ofConstant (value : Int64) : Linear := ⟨value, [], []⟩

def ofRegister (r : Register) : Linear := ⟨0, [(r, 1)], []⟩

def ofSymbol (name : String) : Linear := ⟨0, [], [(name, 1)]⟩

def isConstant (l : Linear) : Bool :=
  l.registers.isEmpty && l.symbols.isEmpty

/-- The form multiplied by a constant. A coefficient of zero stays. -/
def scale (l : Linear) (factor : Int64) : Linear :=
  ⟨l.constant * factor, scaleTerms factor l.registers, scaleTerms factor l.symbols⟩

def add (l other : Linear) : Linear :=
  ⟨l.constant + other.constant, addTerms l.registers other.registers,
    addTerms l.symbols other.symbols⟩

def mul (l other : Linear) : Except LineError Linear :=
  if other.isConstant then .ok (l.scale other.constant)
  else if l.isConstant then .ok (other.scale l.constant)
  else .error .productOfVariables

def eval (register : Register → Int64) (symbol : String → Int64) (l : Linear) : Int64 :=
  l.constant + evalTerms register l.registers + evalTerms symbol l.symbols

def toConstant (l : Linear) : Except LineError Int64 :=
  match l.symbols, l.registers with
  | (name, _) :: _, _ => .error (.notConstant name)
  | [], (r, _) :: _ => .error (.registerInConstant r)
  | [], [] => .ok l.constant

end Linear

end AsmLoader.Source
