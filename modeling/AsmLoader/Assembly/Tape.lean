import AsmLoader.Assembly.Program
/-!
# The second pass, call by call

An assembler that takes one call after the other: a label is set and waits for what is appended
next. It may refuse to set a label, which is reported like a statement that cannot be encoded,
and the pass goes on. Such a statement leaves a breakpoint, so that the label above it has
something to sit on.
-/

namespace AsmLoader.Assembly

open Machine (CodeSize)
open Source (Statement)

inductive Call where
  | setLabel (place : PlaceId)
  | append (fragment : Fragment)
  deriving DecidableEq, Repr

/-- The calls that the assembler has taken, the first one in front. -/
abbrev Tape := List Call

/-- What the assembler says, after some calls, to a label that it does not set. -/
abbrev LabelRefusal := Tape → PlaceId → Option String

namespace Tape

/-- The entries of a block that some calls make, the first of which sits at a place
that waits. -/
def entriesFrom (waiting : PlaceId) : Tape → List Entry
  | [] => []
  | .setLabel place :: rest => entriesFrom place rest
  | .append fragment :: rest => ⟨waiting, fragment⟩ :: entriesFrom 0 rest

def close (refusal? : LabelRefusal) (last : PlaceId) (tape : Tape) : Except String Tape :=
  if last = 0 then .ok tape
  else
    match refusal? tape last with
    | some message => .error message
    | none => .ok (tape ++ [.setLabel last, .append .mark])

end Tape

/-- What a statement that cannot be encoded leaves. -/
def filler (codeSize : CodeSize) : Fragment :=
  .ofInstruction codeSize (.bare .int3)

/-- The second pass after some statements: the calls, what is reported, and whether a statement
that can be encoded has emitted something. -/
structure Pass where
  tape : Tape
  reports : List Diagnostic
  emitted : Bool
  deriving DecidableEq, Repr

namespace Pass

variable (refusal? : LabelRefusal) (c : Context) (capacity : UInt64) (lines : List String)

def anchor (line : Nat) (place : PlaceId) (pass : Pass) : Pass :=
  if place = 0 then pass
  else
    match refusal? pass.tape place with
    | some message => { pass with reports := pass.reports ++ [reportAt lines line message] }
    | none => { pass with tape := pass.tape ++ [.setLabel place] }

def encode (s : Statement) (pass : Pass) : Pass :=
  match emission c capacity s with
  | .ok e =>
    { pass with
      tape := pass.tape ++ (e.fragment? c.codeSize).toList.map .append
      emitted := pass.emitted || emits s }
  | .error e =>
    { pass with
      tape := pass.tape ++ [.append (filler c.codeSize)]
      reports := pass.reports ++ [reportAt lines s.line e.message] }

def statement (pass : Pass) (numbered : Statement × PlaceId) : Pass :=
  (pass.anchor refusal? lines numbered.1.line numbered.2).encode c capacity lines numbered.1

def statements (pass : Pass) (numbered : List (Statement × PlaceId)) : Pass :=
  numbered.foldl (statement refusal? c capacity lines) pass

def answer (codeSize : CodeSize) (base : UInt64) (last : PlaceId) (pass : Pass) : Answer :=
  if pass.reports.isEmpty then
    if pass.emitted then
      match pass.tape.close refusal? last with
      | .error message => .error [.general message]
      | .ok tape =>
        match writeBlock codeSize base (tape.entriesFrom 0) with
        | .error e => .error [.general e.message]
        | .ok code => .ok code
    else .ok []
  else .error pass.reports

end Pass

/-- The code of statements, or what is wrong with them, by way of the calls to an assembler. -/
def assembleByCalls (refusal? : LabelRefusal) (lines : List String) (target : Target)
    (statements : List Statement) : Answer :=
  let (selected, conflicts) := selectCodeSize target.bitness none statements
  match CodeSize.ofBits? (selected.elim target.bitness CodeSize.bits) with
  | none => .error [.general "Invalid bitness"]
  | some codeSize =>
    let (labels, places, last) := bindLabels statements
    let reports := conflicts.map (fun c => reportAt lines c.line c.message) ++
      labels.repetitions.map fun r => reportAt lines r.line r.message
    let pass := Pass.statements refusal? ⟨codeSize, labels.find?⟩ target.capacity lines
      ⟨[], reports, false⟩ (statements.zip places)
    pass.answer refusal? codeSize target.base last

end AsmLoader.Assembly
