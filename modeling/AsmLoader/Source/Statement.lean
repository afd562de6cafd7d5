import AsmLoader.Diagnostic
import AsmLoader.Source.Operand
import AsmLoader.Text.Lines
/-!
# Statements

A source as the list of its statements. A line defines any number of labels and then may select a
code size, hold data, reserve room, or be an instruction. Lines are read one after the other; all
that passes from one to the next is the scope of local labels. Every line that cannot be read is
reported.
-/

namespace AsmLoader.Source

open Machine (CodeSize Width)

inductive DataItem where
  | value (value : Int64)
  | bytes (bytes : List UInt8)
  | uninitialized
  deriving DecidableEq, Repr

inductive Body where
  | empty
  | mode (size : CodeSize)
  | instruction (mnemonic : String) (operands : List Operand)
  | data (unit : Width) (items : List DataItem)
  | reserve (unit : Width) (count : UInt64)
  deriving DecidableEq, Repr

/-- A line with its number, counted from 1, and the labels it defines, which are qualified. -/
structure Statement where
  line : Nat
  labels : List String
  body : Body
  deriving DecidableEq, Repr

/-- The parts of a list of tokens between commas. There is always at least one. -/
def splitCommas : List Token → List (List Token)
  | [] => [[]]
  | token :: rest =>
    if token = .mark ',' then [] :: splitCommas rest
    else
      match splitCommas rest with
      | part :: parts => (token :: part) :: parts
      | [] => [[token]]

def readDataItem (scope : Scope) (keyword : String) (unit : Width) :
    List Token → Except LineError DataItem
  | [] => .error (.missingValue keyword)
  | [.word "?"] => .ok .uninitialized
  | [.text bytes] =>
    if unit = .byte then .ok (.bytes bytes)
    else if unit.bytes < bytes.length then .error (.textTooLong keyword)
    else (readConstant scope [.text bytes]).map .value
  | tokens => (readConstant scope tokens).map .value

def readOperands (scope : Scope) (tokens : List Token) : Except LineError (List Operand) :=
  if tokens.isEmpty then .ok [] else (splitCommas tokens).mapM (readOperand scope)

def readBody (scope : Scope) (word : String) (rest : List Token) : Except LineError Body :=
  let lower := word.toLower
  match Keyword.ofWord? word with
  | some (.code size) =>
    if rest.isEmpty then .ok (.mode size) else .error (.takesNoOperands lower)
  | some (.data unit) =>
    ((splitCommas rest).mapM (readDataItem scope lower unit)).map (.data unit)
  | some (.reserve unit) => do
    let count ← readConstant scope rest
    if count < 0 then throw (.negativeCount count) else return .reserve unit count.toUInt64
  | _ =>
    if isReserved word then .error (.unexpectedWord word)
    else (readOperands scope rest).map (.instruction lower)

def Scope.after (scope : Scope) (name : String) : Scope :=
  match name.toList with
  | '.' :: _ => scope
  | _ => some name

/-- Reads the labels with a colon at the start of a line. The scope moves on with each of them,
also if a later one is refused. -/
def readLabels (scope : Scope) :
    List Token → Scope × Except LineError (List String × List Token)
  | .word name :: .mark ':' :: rest =>
    if isReserved name then (scope, .error (.reservedLabel name))
    else
      let (next, result) := readLabels (scope.after name) rest
      (next, result.map fun (labels, rest) => (scope.qualify name :: labels, rest))
  | tokens => (scope, .ok ([], tokens))

def isDataKeyword (word : String) : Bool :=
  match Keyword.ofWord? word with
  | some (.data _) | some (.reserve _) => true
  | _ => false

/-- The name of data, which needs no colon, and what stands after it. -/
def dataName? : List Token → Option (String × List Token)
  | .word name :: .word directive :: rest =>
    if !isReserved name && isDataKeyword directive then some (name, .word directive :: rest)
    else none
  | _ => none

/-- Reads what stands after the labels. Nothing is an answer only if there are labels. -/
def readRest (scope : Scope) (labels : List String) :
    List Token → Except LineError (Option (List String × Body))
  | [] => .ok (if labels.isEmpty then none else some (labels, .empty))
  | .word word :: rest => (readBody scope word rest).map fun body => some (labels, body)
  | token :: _ => .error (.expectedInstruction token)

def readLine (scope : Scope) (line : List Char) :
    Scope × Except LineError (Option (List String × Body)) :=
  match tokenize line with
  | .error e => (scope, .error e)
  | .ok tokens =>
    match readLabels scope tokens with
    | (scope, .error e) => (scope, .error e)
    | (scope, .ok (labels, rest)) =>
      match dataName? rest with
      | some (name, rest) =>
        let next := scope.after name
        (next, readRest next (labels ++ [scope.qualify name]) rest)
      | none => (scope, readRest scope labels rest)

def readLines (scope : Scope) (number : Nat) :
    List String → List Statement × List Diagnostic
  | [] => ([], [])
  | line :: rest =>
    let (next, result) := readLine scope line.toList
    let (statements, diagnostics) := readLines next (number + 1) rest
    match result with
    | .ok (some (labels, body)) => (⟨number, labels, body⟩ :: statements, diagnostics)
    | .ok none => (statements, diagnostics)
    | .error e => (statements, ⟨some number, e.message, some line⟩ :: diagnostics)

/-- The statements of a source, or a report of every line that cannot be read. -/
def parse (source : String) : Except (List Diagnostic) (List Statement) :=
  match readLines none 1 (Text.linesOf source) with
  | (statements, []) => .ok statements
  | (_, diagnostics) => .error diagnostics

end AsmLoader.Source
