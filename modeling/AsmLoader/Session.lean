import AsmLoader.CompilationUnit
/-!
# Sessions

The managers and units of one process. Units are attached to managers by handle and may share
them. At most one manager at a time may have a region at a fixed address; the slot for it is
claimed before the region is asked for, and given back if that fails.
-/

namespace AsmLoader

open Region (AllocationError Config Host Placement Span)

/-- The live managers and units of a process, and whether the slot for a fixed region
is taken. -/
structure Session (σ : Type) where
  managers : Registry Manager
  units : Registry (CompilationUnit σ)
  fixedLive : Bool

namespace Session

variable {σ : Type}

def empty : Session σ := ⟨.empty, .empty, false⟩

def spans (s : Session σ) : List Span :=
  s.managers.values.map Manager.span

def openManager (host : Host) (s : Session σ) (config : Config) :
    Except AllocationError (Handle × Session σ) :=
  match config.placement, s.fixedLive with
  | .fixed address, true => .error (.fixedRegionInUse address)
  | placement, live =>
    match Manager.create host s.spans config with
    | .error e => .error e
    | .ok m =>
      .ok (s.managers.next,
        { s with managers := s.managers.add m, fixedLive := live || placement.address?.isSome })

/-- Releases a manager. Units that are attached to it are detached first. -/
def release (s : Session σ) (h : Handle) : Session σ :=
  match s.managers.find? h with
  | none => s
  | some m =>
    { managers := s.managers.erase h
      units := s.units.map fun u => if u.manager = some h then u.detach else u
      fixedLive := s.fixedLive && !m.isFixed }

def createUnit (s : Session σ) (engine : σ) : Handle × Session σ :=
  (s.units.next, { s with units := s.units.add (.create engine) })

def dropUnit (s : Session σ) (h : Handle) : Session σ :=
  { s with units := s.units.erase h }

def modifyUnit (s : Session σ) (h : Handle) (f : CompilationUnit σ → CompilationUnit σ) :
    Session σ :=
  match s.units.find? h with
  | none => s
  | some u => { s with units := s.units.set h (f u) }

def attach (s : Session σ) (unit manager : Handle) : Session σ :=
  match s.managers.find? manager with
  | none => s
  | some _ => s.modifyUnit unit (·.attach manager)

def managerOf (s : Session σ) (u : CompilationUnit σ) : Option Manager :=
  u.manager.bind s.managers.find?

def assemble (e : Engine σ) (s : Session σ) (h : Handle) :
    Option (Except UnitError Outcome × Session σ) := do
  let u ← s.units.find? h
  match u.manager, s.managerOf u with
  | some mh, some m =>
    let (outcome, m, u) := u.assemble e m
    return (.ok outcome,
      { s with managers := s.managers.set mh m, units := s.units.set h u })
  | _, _ => return (.error .noManager, s)

def run (s : Session σ) (h : Handle) (guarded : Bool) :
    Option (Except UnitError Invocation) := do
  let u ← s.units.find? h
  return u.run (s.managerOf u) guarded

end Session

end AsmLoader
