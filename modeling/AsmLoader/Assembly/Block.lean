import AsmLoader.Assembly.Selection
import AsmLoader.Machine.Display
/-!
# Blocks

A block is a list of fragments that are laid out one after the other from a base address. Most
have a fixed length. A branch is as short as its distance allows, and the distances depend on the
lengths of other branches: all start long, and a few sweeps over the block shorten what has come
near.

A branch names its target by a number. That may be the number of a place of the block; any other
number is an address. In 64-bit code an address that a branch cannot reach is put after the code,
and the branch goes through it.
-/

namespace AsmLoader.Assembly

open Machine (CodeSize Encoded Instruction Refusal Transfer fitsByte fitsDword lowBytes
  maxInstructionSize signedBytes)

/-- A part of a block: an instruction, one that is refused, a branch, data, or a place without
bytes. -/
inductive Fragment where
  | code (encoded : Encoded PlaceId)
  | refused (refusal : Refusal) (instruction : Instruction PlaceId)
  | branch (transfer : Transfer) (target : UInt64)
  | data (bytes : List UInt8)
  | mark
  deriving DecidableEq, Repr

def Fragment.ofInstruction (codeSize : CodeSize) (i : Instruction PlaceId) : Fragment :=
  match i.encode codeSize with
  | .ok encoded => .code encoded
  | .error refusal => .refused refusal i

/-- A fragment with the number of its place, which is 0 if no label names it. -/
structure Entry where
  place : PlaceId
  fragment : Fragment
  deriving DecidableEq, Repr

namespace Entry

/-- The most bytes of data that count as one piece. -/
def pieceLength : Nat := 16

/-- The number of pieces of an entry. Only the first carries the entry's number. -/
def pieces (e : Entry) : Nat :=
  match e.fragment with
  | .data bytes => (bytes.length + (pieceLength - 1)) / pieceLength
  | _ => 1

def unnamed (e : Entry) : Nat :=
  if e.place = 0 then e.pieces else e.pieces - 1

def unnamedOffset (e : Entry) : Nat :=
  if e.place = 0 then 0 else pieceLength

end Entry

/-- Where a number leads: into the block, at an offset from the start of an entry, or to an
address. -/
inductive Destination where
  | inside (index offset : Nat)
  | address (a : UInt64)
  deriving DecidableEq, Repr

def total : List Nat → Nat
  | [] => 0
  | n :: rest => n + total rest

/-- Where the number 0 leads: to the piece without a number, if there is just one. -/
def unnamedDestination (entries : List Entry) : Destination :=
  if total (entries.map Entry.unnamed) = 1 then
    match entries.findIdx? (·.unnamed == 1) with
    | some i => .inside i (entries[i]?.elim 0 Entry.unnamedOffset)
    | none => .address 0
  else .address 0

def destinationOf (entries : List Entry) (target : UInt64) : Destination :=
  if target = 0 then unnamedDestination entries
  else
    match entries.findIdx? (·.place == target) with
    | some i => .inside i 0
    | none => .address target

/-- How far a branch reaches: one byte, four bytes, or anywhere through an address after the
code. -/
inductive Reach where
  | unknown
  | short
  | near
  | far (slot : Nat)
  deriving DecidableEq, Repr

/-- A fragment while the block is laid out: where it leads, its length, how far it reaches, and
whether the last two are final. -/
structure Cell where
  place : PlaceId
  fragment : Fragment
  destination : Destination
  size : Nat
  reach : Reach
  settled : Bool
  deriving DecidableEq, Repr

def shortSize : Nat := 2

def nearSize : Transfer → Nat
  | .jmp => 5
  | .call => 5
  | .jcc _ => 6

def startSize (codeSize : CodeSize) (transfer : Transfer) : Nat :=
  match codeSize, transfer with
  | .bits32, transfer => nearSize transfer
  | .bits64, .jmp => 6
  | .bits64, .call => 6
  | .bits64, .jcc _ => 8

/-- The cell that an entry starts as. An instruction with a displacement to a place starts one
byte too long, and a refused one is as long as any can be. -/
def Cell.ofEntry (codeSize : CodeSize) (entries : List Entry) (e : Entry) : Cell :=
  match e.fragment with
  | .code encoded =>
    match encoded.target with
    | some target =>
      ⟨e.place, e.fragment, destinationOf entries target, encoded.size + 1, .unknown, false⟩
    | none => ⟨e.place, e.fragment, .address 0, encoded.size, .unknown, true⟩
  | .refused .. => ⟨e.place, e.fragment, .address 0, maxInstructionSize, .unknown, true⟩
  | .branch transfer target =>
    ⟨e.place, e.fragment, destinationOf entries (codeSize.truncate target),
      startSize codeSize transfer, .unknown, false⟩
  | .data bytes => ⟨e.place, e.fragment, .address 0, bytes.length, .unknown, true⟩
  | .mark => ⟨e.place, e.fragment, .address 0, 0, .unknown, true⟩

def addressesFrom (base : UInt64) : List Nat → List UInt64
  | [] => []
  | size :: rest => base :: addressesFrom (base + UInt64.ofNat size) rest

namespace Destination

def isInside : Destination → Bool
  | inside .. => true
  | address _ => false

def resolve (addresses : Array UInt64) : Destination → UInt64
  | inside index offset => addresses.getD index 0 + UInt64.ofNat offset
  | address a => a

end Destination

/-- The distance from the end of a branch to its target. In 32-bit code it wraps around. -/
def distance (codeSize : CodeSize) (target next : UInt64) : Int64 :=
  let d := (target - next).toInt64
  match codeSize with
  | .bits32 => d.toInt32.toInt64
  | .bits64 => d

/-- The distance as a sweep sees it: a target further on in the block has not moved yet, and will
move by what has been saved before the branch. -/
def expectedDistance (codeSize : CodeSize) (inside : Bool) (target next saved : UInt64) :
    Int64 :=
  let d := (target - next).toInt64
  let d := if inside && 0 ≤ d.toInt then d - saved.toInt64 else d
  match codeSize with
  | .bits32 => d.toInt32.toInt64
  | .bits64 => d

/-- A distance that counts as too long for any later sweep to bring it into one byte. -/
def isHopeless (d : Int64) : Bool :=
  d.toInt < maxInstructionSize * -128 || maxInstructionSize * 127 < d.toInt

/-- A sweep over the block: the address it has come to, what it has saved, the addresses of the
entries, of which those before this one are new, the cells that are done, and the number of
addresses set aside for far branches. -/
structure Sweep where
  ip : UInt64
  saved : Nat
  addresses : Array UInt64
  cells : Array Cell
  slots : Nat

namespace Sweep

def distanceAt (codeSize : CodeSize) (s : Sweep) (c : Cell) (size : Nat) : Int64 :=
  expectedDistance codeSize c.destination.isInside (c.destination.resolve s.addresses)
    (s.ip + UInt64.ofNat size) (UInt64.ofNat s.saved)

/-- Whether four bytes are taken to reach any place that a branch can lead to. -/
def alwaysNear (codeSize : CodeSize) (c : Cell) : Bool :=
  codeSize == .bits32 || c.destination.isInside

def makeFar (slots : Nat) (c : Cell) : Cell × Nat :=
  match c.reach with
  | .far _ => (c, slots)
  | _ => ({ c with reach := .far slots }, slots + 1)

def shortenCall (codeSize : CodeSize) (s : Sweep) (c : Cell) : Cell × Nat :=
  let size := nearSize .call
  if alwaysNear codeSize c || fitsDword (s.distanceAt codeSize c size) then
    ({ c with reach := .near, size, settled := true }, s.slots)
  else makeFar s.slots c

/-- Shortens a jump. One that is near is looked at again unless its distance is hopeless; where
four bytes might not do, that is the distance of the longer form. -/
def shortenJump (codeSize : CodeSize) (s : Sweep) (transfer : Transfer) (c : Cell) :
    Cell × Nat :=
  let size := nearSize transfer
  let short := s.distanceAt codeSize c shortSize
  let near := s.distanceAt codeSize c size
  if fitsByte short then
    ({ c with reach := .short, size := shortSize, settled := true }, s.slots)
  else if alwaysNear codeSize c then
    ({ c with reach := .near, size, settled := isHopeless short }, s.slots)
  else if fitsDword near then
    ({ c with reach := .near, size, settled := isHopeless near }, s.slots)
  else makeFar s.slots c

def shorten (codeSize : CodeSize) (s : Sweep) (c : Cell) : Cell × Nat :=
  if c.settled then (c, s.slots)
  else
    match c.fragment with
    | .code encoded => ({ c with size := encoded.size, settled := true }, s.slots)
    | .branch .call _ => shortenCall codeSize s c
    | .branch transfer _ => shortenJump codeSize s transfer c
    | .refused .. | .data _ | .mark => (c, s.slots)

def step (codeSize : CodeSize) (s : Sweep) (c : Cell) : Sweep :=
  let s := { s with addresses := s.addresses.setIfInBounds s.cells.size s.ip }
  let (shorter, slots) := s.shorten codeSize c
  { ip := s.ip + UInt64.ofNat shorter.size
    saved := s.saved + (c.size - shorter.size)
    addresses := s.addresses
    cells := s.cells.push shorter
    slots }

end Sweep

/-- Sweeps over a block until that saves nothing more, but only so many times. -/
def sweepAll (codeSize : CodeSize) (base : UInt64) : Nat → List Cell → Nat → List Cell
  | 0, cells, _ => cells
  | count + 1, cells, slots =>
    let addresses := (addressesFrom base (cells.map Cell.size)).toArray
    let s := cells.foldl (Sweep.step codeSize) ⟨base, 0, addresses, #[], slots⟩
    if s.saved = 0 then s.cells.toList
    else sweepAll codeSize base count s.cells.toList s.slots

def maxSweeps : Nat := 5

/-- Why a block cannot be written: an instruction has no form in the code it stands in, what a
branch has been shortened to does not reach its target, four bytes do not reach a place or an
address after the code, or a branch that was laid out near turns out to be far. -/
inductive BlockError where
  | refused (place : PlaceId) (refusal : Refusal) (instruction : Instruction PlaceId)
  | outOfRange (place : PlaceId) (codeSize : CodeSize) (transfer : Transfer) (short : Bool)
      (next target : UInt64)
  | relativeOutOfRange (place : PlaceId) (next target : UInt64)
  | lengthChanged (place : PlaceId)
  deriving DecidableEq, Repr

def BlockError.message : BlockError → String
  | refused place refusal instruction =>
    refusal.message ++ " : 0x" ++ Text.hexUpper place.toNat ++ " " ++ instruction.text .message
  | outOfRange place codeSize transfer short next target =>
    let address (a : UInt64) : String :=
      "0x" ++ Text.hexPadded codeSize.digits (codeSize.truncate a).toNat
    let d := distance codeSize target next
    let bits := if short then 8 else 32
    "Branch distance is too far away: next_ip: " ++ address next ++ " target: " ++
      address target ++ s!", diff = {d.toInt}, diff must fit in an i{bits} : 0x" ++
      Text.hexUpper place.toNat ++ " " ++ transfer.textTo .message codeSize short target
  | relativeOutOfRange place next target =>
    let address (a : UInt64) : String := "0x" ++ Text.hexPadded 16 a.toNat
    "RIP relative distance is too far away: next_ip: " ++ address next ++ " target: " ++
      address target ++
      s!", diff = {(target - next).toInt64.toInt}, diff must fit in an i32 : 0x" ++
      Text.hexUpper place.toNat
  | lengthChanged place => "Internal error : 0x" ++ Text.hexUpper place.toNat

def shortOpcode : Transfer → List UInt8
  | .jmp => [0xEB]
  | .call => []
  | .jcc condition => [0x70 + UInt8.ofNat condition.code]

def nearOpcode : Transfer → List UInt8
  | .jmp => [0xE9]
  | .call => [0xE8]
  | .jcc condition => [0x0F, 0x80 + UInt8.ofNat condition.code]

/-- What stands before the displacement to the address that a branch goes through. A conditional
branch is the opposite one over a jump. -/
def farOpcode : Transfer → List UInt8
  | .jmp => [0xFF, 0x25]
  | .call => [0xFF, 0x15]
  | .jcc condition => [0x70 + UInt8.ofNat (condition.code ^^^ 1), 0x06, 0xFF, 0x25]

def branchBytes (codeSize : CodeSize) (pointer : Nat → UInt64) (ip target : UInt64)
    (c : Cell) (transfer : Transfer) : Except BlockError (List UInt8) :=
  let next := ip + UInt64.ofNat c.size
  let d := distance codeSize target next
  match c.reach with
  | .short =>
    if fitsByte d then .ok (shortOpcode transfer ++ signedBytes 1 d)
    else .error (.outOfRange c.place codeSize transfer true next target)
  | .far slot =>
    let d := (pointer slot - next).toInt64
    if !fitsDword d then .error (.relativeOutOfRange c.place next (pointer slot))
    else if c.size ≠ (farOpcode transfer).length + 4 then .error (.lengthChanged c.place)
    else .ok (farOpcode transfer ++ signedBytes 4 d)
  | _ =>
    if fitsDword d then .ok (nearOpcode transfer ++ signedBytes 4 d)
    else .error (.outOfRange c.place codeSize transfer false next target)

def cellBytes (codeSize : CodeSize) (addresses : Array UInt64) (pointer : Nat → UInt64)
    (ip : UInt64) (c : Cell) : Except BlockError (List UInt8) :=
  let target := c.destination.resolve addresses
  match c.fragment with
  | .code encoded =>
    match encoded.target with
    | none => .ok (encoded.before ++ encoded.after)
    | some _ =>
      let next := ip + UInt64.ofNat c.size
      let d := (target - next).toInt64
      if fitsDword d then .ok (encoded.before ++ signedBytes 4 d ++ encoded.after)
      else .error (.relativeOutOfRange c.place next target)
  | .refused refusal instruction => .error (.refused c.place refusal instruction)
  | .branch transfer _ => branchBytes codeSize pointer ip target c transfer
  | .data bytes => .ok bytes
  | .mark => .ok []

def cellsBytes (codeSize : CodeSize) (addresses : Array UInt64) (pointer : Nat → UInt64) :
    UInt64 → List Cell → Except BlockError (List (List UInt8))
  | _, [] => .ok []
  | ip, c :: rest => do
    let bytes ← cellBytes codeSize addresses pointer ip c
    let more ← cellsBytes codeSize addresses pointer (ip + UInt64.ofNat c.size) rest
    return bytes :: more

def Cell.slot? (c : Cell) : Option Nat :=
  match c.reach with
  | .far slot => some slot
  | _ => none

def farCells (cells : List Cell) : List Cell :=
  (cells.filter fun c => c.slot?.isSome).mergeSort fun a b => a.slot?.getD 0 ≤ b.slot?.getD 0

def paddingByte : UInt8 := 0xCC

def paddingLength (address : UInt64) : Nat :=
  (8 - address.toNat % 8) % 8

def writeCells (codeSize : CodeSize) (base : UInt64) (cells : List Cell) :
    Except BlockError (List UInt8) := do
  let sizes := cells.map Cell.size
  let addresses := (addressesFrom base sizes).toArray
  let codeEnd := base + UInt64.ofNat (total sizes)
  let padding := paddingLength codeEnd
  let far := farCells cells
  let slots := far.filterMap Cell.slot?
  let pointer (slot : Nat) : UInt64 :=
    codeEnd + UInt64.ofNat (padding + 8 * (slots.countP (· < slot)))
  let parts ← cellsBytes codeSize addresses pointer base cells
  if far.isEmpty then return parts.flatten
  else
    let pointers := far.flatMap fun c => lowBytes 8 (c.destination.resolve addresses).toNat
    return parts.flatten ++ List.replicate padding paddingByte ++ pointers

def writeBlock (codeSize : CodeSize) (base : UInt64) (entries : List Entry) :
    Except BlockError (List UInt8) :=
  let cells := entries.map (Cell.ofEntry codeSize entries)
  writeCells codeSize base (sweepAll codeSize base maxSweeps cells 0)

end AsmLoader.Assembly
