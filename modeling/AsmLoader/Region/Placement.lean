/-!
# Placement and configuration of regions

How much memory a region asks for, and whether its address matters.
-/

namespace AsmLoader.Region

inductive Placement where
  | anywhere
  | fixed (address : UInt64)
  deriving DecidableEq, Repr, Inhabited

namespace Placement

def address? : Placement → Option UInt64
  | anywhere => none
  | fixed address => some address

def default : Placement := anywhere

end Placement

structure Config where
  capacity : UInt64
  placement : Placement
  deriving DecidableEq, Repr, Inhabited

namespace Config

def defaultCapacity : UInt64 := 0x100000

def defaultFixedBase : UInt64 := 0x10000000

def ofCapacity (capacity : UInt64) : Config :=
  ⟨capacity, Placement.default⟩

def default : Config := ofCapacity defaultCapacity

def withCapacity (c : Config) (capacity : UInt64) : Config :=
  { c with capacity }

def fixedAt (c : Config) (address : UInt64) : Config :=
  { c with placement := .fixed address }

def anywhere (c : Config) : Config :=
  { c with placement := .anywhere }

end Config

end AsmLoader.Region
