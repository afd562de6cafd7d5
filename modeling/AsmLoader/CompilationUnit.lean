import AsmLoader.Listing
import AsmLoader.Manager
import AsmLoader.Registry
import AsmLoader.Symbol.Expansion
/-!
# Compilation units

A unit holds a source and its symbols, and may be attached to a manager. Assembling it expands
the source, asks the unit's engine for code and loads the code; what comes of it is kept until
the next time. Code can be run as long as the load that brought it is the last one of its
manager.
-/

namespace AsmLoader

structure Blob where
  entry : UInt64
  bytes : Code
  generation : UInt64
  deriving DecidableEq, Repr

structure CompilationUnit (σ : Type) where
  source : String
  symbols : Symbol.Table
  manager : Option Handle
  engine : σ
  blob : Option Blob
  diagnostics : List Diagnostic
  errors : String

inductive UnitError where
  | noManager
  | notCompiled
  | overwritten
  | emptyProgram
  deriving DecidableEq, Repr

def UnitError.message : UnitError → String
  | noManager => "No manager attached to the compilation unit"
  | notCompiled => "Compilation unit has not been successfully assembled"
  | overwritten => "Compiled code was overwritten by a later load into the same region"
  | emptyProgram => "Compiled program is empty"

inductive Outcome where
  | compiled (entry : UInt64) (size : Nat)
  | failed
  deriving DecidableEq, Repr

/-- A call of loaded code: where it starts, and whether the registers that a called function
keeps are guarded around it. -/
structure Invocation where
  entry : UInt64
  guarded : Bool
  deriving DecidableEq, Repr

namespace CompilationUnit

variable {σ : Type}

def create (engine : σ) : CompilationUnit σ :=
  ⟨"", .empty, none, engine, none, [], ""⟩

def isCompiled (u : CompilationUnit σ) : Bool :=
  u.blob.isSome

def code? (u : CompilationUnit σ) : Option Code :=
  u.blob.map Blob.bytes

def entry? (u : CompilationUnit σ) : Option UInt64 :=
  u.blob.map Blob.entry

/-- Takes another source. Code stays until the next time the unit is assembled. -/
def setSource (u : CompilationUnit σ) (source : String) : CompilationUnit σ :=
  { u with source }

def setEngine (u : CompilationUnit σ) (engine : σ) : CompilationUnit σ :=
  { u with engine }

def mapSymbols (u : CompilationUnit σ) (f : Symbol.Table → Symbol.Table) : CompilationUnit σ :=
  { u with symbols := f u.symbols }

/-- Attaches a manager. The code of another manager is dropped. -/
def attach (u : CompilationUnit σ) (h : Handle) : CompilationUnit σ :=
  if u.manager.any (· ≠ h) then { u with manager := some h, blob := none }
  else { u with manager := some h }

def detach (u : CompilationUnit σ) : CompilationUnit σ :=
  { u with manager := none, blob := none }

def expandedSource (u : CompilationUnit σ) : String :=
  u.symbols.expandString u.source

def reset (u : CompilationUnit σ) : CompilationUnit σ :=
  { u with blob := none, diagnostics := [], errors := "" }

def fail (u : CompilationUnit σ) (diagnostics : List Diagnostic) : CompilationUnit σ :=
  let reasons := if diagnostics.isEmpty then [.general "assembly failed"] else diagnostics
  { u with diagnostics := reasons, errors := Diagnostic.render reasons }

def succeed (u : CompilationUnit σ) (blob : Blob) : CompilationUnit σ :=
  { u with blob := some blob }

def outOfMemory (size : Nat) (capacity : UInt64) : Diagnostic :=
  .general
    s!"out of memory: {size} bytes of code exceed the region capacity of {capacity} bytes"

def assemble (e : Engine σ) (m : Manager) (u : CompilationUnit σ) :
    Outcome × Manager × CompilationUnit σ :=
  match e.assemble u.engine u.expandedSource m.target with
  | (.error diagnostics, engine) => (.failed, m, (u.reset.setEngine engine).fail diagnostics)
  | (.ok code, engine) =>
    match m.load code with
    | (none, m) =>
      (.failed, m, (u.reset.setEngine engine).fail [outOfMemory code.length m.capacity])
    | (some generation, m) =>
      (.compiled m.base code.length, m,
        (u.reset.setEngine engine).succeed ⟨m.base, code, generation⟩)

/-- The call that runs the code, given the manager that the unit is attached to. -/
def run (manager : Option Manager) (guarded : Bool) (u : CompilationUnit σ) :
    Except UnitError Invocation :=
  match u.blob, manager with
  | none, _ => .error .notCompiled
  | some _, none => .error .noManager
  | some blob, some m =>
    if blob.bytes.isEmpty then .error .emptyProgram
    else if m.generation ≠ blob.generation then .error .overwritten
    else .ok ⟨blob.entry, guarded⟩

def listing? (u : CompilationUnit σ) : Option String :=
  u.blob.map fun blob => Listing.render blob.entry blob.bytes

end CompilationUnit

end AsmLoader
