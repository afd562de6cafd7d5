import AsmLoader.Source.Expression
/-!
# Formulas

An expression as a tree, the tokens it is written as, and its value. A pair of parentheses is
written where an operation would otherwise bind differently, and a group has a pair of its own.
-/

namespace AsmLoader.Source

open Machine (Register)

inductive Formula where
  | number (value : Int64)
  | text (bytes : List UInt8)
  | word (name : String)
  | group (t : Formula)
  | plus (t : Formula)
  | minus (t : Formula)
  | add (a b : Formula)
  | sub (a b : Formula)
  | mul (a b : Formula)
  deriving DecidableEq, Repr

namespace Formula

def isSum : Formula → Bool
  | add .. | sub .. => true
  | _ => false

def isOperation : Formula → Bool
  | add .. | sub .. | mul .. => true
  | _ => false

def enclose (needed : Bool) (tokens : List Token) : List Token :=
  if needed then .mark '(' :: tokens ++ [.mark ')'] else tokens

/-- The tokens of a formula. Operations of one rank are taken from left to right, products before
sums, and signs before both. -/
def tokens : Formula → List Token
  | number value => [.number value]
  | text bytes => [.text bytes]
  | word name => [.word name]
  | group t => enclose true t.tokens
  | plus t => .mark '+' :: enclose t.isOperation t.tokens
  | minus t => .mark '-' :: enclose t.isOperation t.tokens
  | add a b => a.tokens ++ .mark '+' :: enclose b.isSum b.tokens
  | sub a b => a.tokens ++ .mark '-' :: enclose b.isSum b.tokens
  | mul a b => enclose a.isSum a.tokens ++ .mark '*' :: enclose b.isOperation b.tokens

/-- The value of a formula for given values of registers and symbols, as an integer of
any size. -/
def value (scope : Scope) (register : Register → Int64) (symbol : String → Int64) : Formula → Int
  | number value => value.toInt
  | text bytes => Machine.ofLowBytes bytes
  | word name =>
    match Register.ofName? name with
    | some r => (register r).toInt
    | none => (symbol (scope.qualify name)).toInt
  | group t | plus t => t.value scope register symbol
  | minus t => -t.value scope register symbol
  | add a b => a.value scope register symbol + b.value scope register symbol
  | sub a b => a.value scope register symbol - b.value scope register symbol
  | mul a b => a.value scope register symbol * b.value scope register symbol

def parts : Formula → List Formula
  | number value => [number value]
  | text bytes => [text bytes]
  | word name => [word name]
  | group t => group t :: t.parts
  | plus t => plus t :: t.parts
  | minus t => minus t :: t.parts
  | add a b => add a b :: (a.parts ++ b.parts)
  | sub a b => sub a b :: (a.parts ++ b.parts)
  | mul a b => mul a b :: (a.parts ++ b.parts)

/-- Whether a part without parts of its own can stand in a formula: a text needs one to eight
bytes, and a word must be a register or not reserved. -/
def isOperand : Formula → Bool
  | text bytes => 1 ≤ bytes.length && bytes.length ≤ 8
  | word name => (Register.ofName? name).isSome || !isReserved name
  | _ => true

def isWord : Formula → Bool
  | word _ => true
  | _ => false

example : (mul (add (number 1) (number 2)) (minus (sub (word "rax") (number 3)))).tokens =
    [.mark '(', .number 1, .mark '+', .number 2, .mark ')', .mark '*', .mark '-', .mark '(',
      .word "rax", .mark '-', .number 3, .mark ')'] := by decide

end Formula

end AsmLoader.Source
