import AsmLoader.Assembly.Block
import AsmLoader.Assembly.Labels
import AsmLoader.Engine
/-!
# Programs

A whole source as machine code. Each statement is reported that cannot be encoded; only if there
is none the statements are put into a block. What the block refuses is reported as one diagnostic
without a line.
-/

namespace AsmLoader.Assembly

open Machine (CodeSize Instruction signedBytes)
open Source (Body DataItem Statement)

def reportAt (lines : List String) (line : Nat) (message : String) : Diagnostic :=
  ⟨some line, message, lines[line - 1]?⟩

structure SizeConflict where
  line : Nat
  message : String
  deriving DecidableEq, Repr

/-- The code size that a source selects, and what is wrong with its selections: the first must be
that of the target, and all others that of the first. -/
def selectCodeSize (bitness : Nat) :
    Option CodeSize → List Statement → Option CodeSize × List SizeConflict
  | selected, [] => (selected, [])
  | selected, s :: rest =>
    match s.body, selected with
    | .mode size, some first =>
      let (last, conflicts) := selectCodeSize bitness (some first) rest
      if first = size then (last, conflicts)
      else
        let message := s!"conflicting code size: use{size.bits} after use{first.bits}"
        (last, ⟨s.line, message⟩ :: conflicts)
    | .mode size, none =>
      let (last, conflicts) := selectCodeSize bitness (some size) rest
      if size.bits = bitness then (last, conflicts)
      else
        let message := s!"use{size.bits} code cannot run on a {bitness}-bit host"
        (last, ⟨s.line, message⟩ :: conflicts)
    | _, _ => selectCodeSize bitness selected rest

/-- The bytes of an element of data. A number may be any signed or unsigned number of the
element's size. -/
def itemBytes (unit : Machine.Width) : DataItem → Except StatementError (List UInt8)
  | .value value => do
    if unit ≠ .qword then
      let _ ← wrapImmediate unit value
    return signedBytes unit.bytes value
  | .bytes bytes => return bytes
  | .uninitialized => return List.replicate unit.bytes 0

/-- The number of bytes of a reservation; more than 64 bits can count are as many as they can. -/
def reservedBytes (unit : Machine.Width) (count : UInt64) : UInt64 :=
  let total := count.toNat * unit.bytes
  if total < UInt64.size then UInt64.ofNat total else UInt64.ofNat (UInt64.size - 1)

inductive Emission where
  | nothing
  | data (bytes : List UInt8)
  | instruction (i : Instruction PlaceId)
  | branch (transfer : Machine.Transfer) (target : UInt64)
  deriving DecidableEq, Repr

def Emission.ofBytes (bytes : List UInt8) : Emission :=
  if bytes.isEmpty then .nothing else .data bytes

def Emission.ofSelected : Selected → Emission
  | .instruction i => .instruction i
  | .branch transfer target => .branch transfer target

def emission (c : Context) (capacity : UInt64) (s : Statement) :
    Except StatementError Emission :=
  match s.body with
  | .instruction mnemonic operands => do
    let args ← operands.mapM c.argument
    let selected ← select c.codeSize mnemonic args
    return .ofSelected selected
  | .data unit items => do
    let parts ← items.mapM (itemBytes unit)
    return .ofBytes parts.flatten
  | .reserve unit count =>
    let total := reservedBytes unit count
    if capacity < total then .error (.reservationTooLarge total)
    else .ok (.ofBytes (List.replicate total.toNat 0))
  | .empty | .mode _ => .ok .nothing

def emissions (c : Context) (capacity : UInt64) (lines : List String) :
    List (Statement × PlaceId) → List (PlaceId × Emission) × List Diagnostic
  | [] => ([], [])
  | (s, place) :: rest =>
    let (emitted, reports) := emissions c capacity lines rest
    match emission c capacity s with
    | .ok .nothing => (emitted, reports)
    | .ok e => ((place, e) :: emitted, reports)
    | .error e => (emitted, reportAt lines s.line e.message :: reports)

def Emission.fragment? (codeSize : CodeSize) : Emission → Option Fragment
  | .nothing => none
  | .data bytes => some (.data bytes)
  | .branch transfer target => some (.branch transfer target)
  | .instruction i => some (.ofInstruction codeSize i)

def entriesOf (codeSize : CodeSize) (emitted : List (PlaceId × Emission)) : List Entry :=
  emitted.filterMap fun (place, e) => (e.fragment? codeSize).map (⟨place, ·⟩)

def lastEntry (place : PlaceId) : List Entry :=
  if place = 0 then [] else [⟨place, .mark⟩]

def writeEmissions (codeSize : CodeSize) (base : UInt64) (emitted : List (PlaceId × Emission))
    (last : PlaceId) : Answer :=
  if emitted.isEmpty then .ok []
  else
    match writeBlock codeSize base (entriesOf codeSize emitted ++ lastEntry last) with
    | .error e => .error [.general e.message]
    | .ok code => .ok code

def assembleStatements (lines : List String) (target : Target) (statements : List Statement) :
    Answer :=
  let (selected, conflicts) := selectCodeSize target.bitness none statements
  match CodeSize.ofBits? (selected.elim target.bitness CodeSize.bits) with
  | none => .error [.general "Invalid bitness"]
  | some codeSize =>
    let (labels, places, last) := bindLabels statements
    let (emitted, failures) :=
      emissions ⟨codeSize, labels.find?⟩ target.capacity lines (statements.zip places)
    let reports :=
      conflicts.map (fun c => reportAt lines c.line c.message) ++
        labels.repetitions.map (fun r => reportAt lines r.line r.message) ++ failures
    if reports.isEmpty then writeEmissions codeSize target.base emitted last
    else .error reports

/-- The code of a source, or the diagnostics of what is wrong with it. -/
def assemble (source : String) (target : Target) : Answer :=
  match Source.parse source with
  | .error reports => .error reports
  | .ok statements => assembleStatements (Text.linesOf source) target statements

def engine : Engine Unit :=
  .ofFunction assemble

end AsmLoader.Assembly
