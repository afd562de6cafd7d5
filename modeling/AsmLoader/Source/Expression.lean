import AsmLoader.Machine.Bytes
import AsmLoader.Source.Keyword
import AsmLoader.Source.Linear
/-!
# Expressions

Expressions are read from left to right, one token at a time, into linear forms. Products bind
closer than sums and signs closer than products. What has been read of an expression around an
open parenthesis waits on a stack.
-/

namespace AsmLoader.Source

open Machine (Register)

/-- The label that local names belong to: the last one defined whose name does not start with a
dot. -/
abbrev Scope := Option String

/-- A name in a scope: one that starts with a dot has the scope's label before it. -/
def Scope.qualify (scope : Scope) (name : String) : String :=
  match scope, name.toList with
  | some label, '.' :: _ => label ++ name
  | _, _ => name

/-- The number that a quoted text stands for: its bytes, the first being the lowest. -/
def characterConstant (bytes : List UInt8) : Except LineError Int64 :=
  if bytes.isEmpty || 8 < bytes.length then .error .characterConstantLength
  else .ok (UInt64.ofNat (Machine.ofLowBytes bytes)).toInt64

def operandOf (scope : Scope) : Token → Except LineError Linear
  | .number value => .ok (.ofConstant value)
  | .text bytes => (characterConstant bytes).map .ofConstant
  | .word name =>
    match Register.ofName? name with
    | some r => .ok (.ofRegister r)
    | none =>
      if isReserved name then .error (.reservedInExpression name)
      else .ok (.ofSymbol (scope.qualify name))
  | .mark c => .error (.expectedExpression (some (.mark c)))

/-- An expression that is being read: the sum of the terms before the last, whether the last is
to be subtracted, the product of its factors so far, and whether the next factor has its sign
changed. -/
structure Frame where
  sum : Option Linear
  subtract : Bool
  product : Option Linear
  negate : Bool
  deriving DecidableEq, Repr

namespace Frame

def start : Frame := ⟨none, false, none, false⟩

def factor (f : Frame) (value : Linear) : Except LineError Frame := do
  let signed := if f.negate then value.scale (-1) else value
  let product ← match f.product with
    | some before => before.mul signed
    | none => .ok signed
  return { f with product := some product, negate := false }

def value (f : Frame) : Linear :=
  let product := f.product.getD (.ofConstant 0)
  let term := if f.subtract then product.scale (-1) else product
  match f.sum with
  | some sum => sum.add term
  | none => term

def nextTerm (f : Frame) (subtract : Bool) : Frame :=
  ⟨some f.value, subtract, none, false⟩

end Frame

/-- A point inside an expression: the expressions around the open parentheses, the innermost
first, the one that is being read, and whether its last factor is complete. -/
structure Reading where
  outer : List Frame
  top : Frame
  complete : Bool
  deriving DecidableEq, Repr

namespace Reading

def start : Reading := ⟨[], .start, false⟩

def stepFactor (scope : Scope) (r : Reading) : Token → Except LineError Reading
  | .mark '-' => .ok { r with top := { r.top with negate := !r.top.negate } }
  | .mark '+' => .ok r
  | .mark '(' => .ok ⟨r.top :: r.outer, .start, false⟩
  | token => do
    let top ← r.top.factor (← operandOf scope token)
    return ⟨r.outer, top, true⟩

def stepOperator (r : Reading) : Token → Except LineError Reading
  | .mark '+' => .ok ⟨r.outer, r.top.nextTerm false, false⟩
  | .mark '-' => .ok ⟨r.outer, r.top.nextTerm true, false⟩
  | .mark '*' => .ok { r with complete := false }
  | token =>
    match r.outer with
    | [] => .error (.afterExpression token)
    | frame :: outer =>
      if token = .mark ')' then do
        let top ← frame.factor r.top.value
        return ⟨outer, top, true⟩
      else .error (.unclosedParenthesis (some token))

def step (scope : Scope) (r : Reading) (token : Token) : Except LineError Reading :=
  if r.complete then r.stepOperator token else r.stepFactor scope token

def finish (r : Reading) : Except LineError Linear :=
  if !r.complete then .error (.expectedExpression none)
  else if r.outer.isEmpty then .ok r.top.value
  else .error (.unclosedParenthesis none)

end Reading

def readExpression (scope : Scope) (tokens : List Token) : Except LineError Linear := do
  let r ← tokens.foldlM (Reading.step scope) .start
  r.finish

def readConstant (scope : Scope) (tokens : List Token) : Except LineError Int64 := do
  let l ← readExpression scope tokens
  l.toConstant

end AsmLoader.Source
