import AsmLoader.Engine
import AsmLoader.Region.Allocation
/-!
# Managers

A manager owns a region and loads code at its start. It counts its loads, so that a later load
can be noticed, and covers what an earlier and longer load left behind with a byte that traps.
-/

namespace AsmLoader

open Region (Config AllocationError Host Span)

/-- A region with what was asked for, the number of loads into it, and the length of the last. -/
structure Manager where
  config : Config
  region : Region
  generation : UInt64
  used : Nat

namespace Manager

def trapByte : UInt8 := 0xCC

def create (host : Host) (live : List Span) (config : Config) : Except AllocationError Manager :=
  (Region.allocate host live config).map fun region => ⟨config, region, 0, 0⟩

def base (m : Manager) : UInt64 := m.region.base

def capacity (m : Manager) : UInt64 := m.config.capacity

def mappedLen (m : Manager) : UInt64 := m.region.len

def isFixed (m : Manager) : Bool := m.config.placement.address?.isSome

def span (m : Manager) : Span := ⟨m.region.base, m.region.len⟩

def target (m : Manager) : Target := ⟨m.base, m.capacity, Target.hostBitness⟩

/-- Loads code at the start of the region and covers the rest of the load before it. The answer
is the number of the load, or none if the code is longer than the capacity or the region has no
room for it. -/
def load (m : Manager) (code : Code) : Option UInt64 × Manager :=
  if m.capacity.toNat < code.length then (none, m)
  else
    match m.region.write? 0 code with
    | none => (none, m)
    | some written =>
      match written.fill? (UInt64.ofNat code.length) (m.used - code.length) trapByte with
      | none => (none, { m with region := written })
      | some region =>
        (some (m.generation + 1),
          { m with region, generation := m.generation + 1, used := code.length })

def load? (m : Manager) (code : Code) : Option Manager :=
  match m.load code with
  | (some _, after) => some after
  | (none, _) => none

end Manager

end AsmLoader
