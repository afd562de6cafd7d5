import AsmLoader.Region.Allocation
/-!
# A host

The user half of a 48-bit address space. A fixed range is mapped if it ends inside that half and
meets no range that is mapped; any other range comes after all that are mapped, high in the
space.
-/

namespace AsmLoader.Region

/-- The length of a page of this host. -/
def pageSize : Nat := 4096

namespace Host

def spaceEnd : Nat := 0x800000000000 - Region.pageSize

def freeStart : Nat := 0x7F0000000000

def noRoom : MapFailure := .refused "Cannot allocate memory (os error 12)"

def spanEnd (s : Span) : Nat :=
  s.base.toNat + s.len.toNat

def meets (s : Span) (address len : Nat) : Bool :=
  address < spanEnd s && s.base.toNat < address + len

def nextFree (live : List Span) : Nat :=
  live.foldl (fun top s => if freeStart ≤ s.base.toNat then max top (spanEnd s) else top)
    freeStart

def mapRange (live : List Span) (len : UInt64) : Option UInt64 → Except MapFailure UInt64
  | some address =>
    if spaceEnd < address.toNat + len.toNat then .error noRoom
    else if live.any (meets · address.toNat len.toNat) then .error .occupied
    else .ok address
  | none =>
    let base := nextFree live
    if spaceEnd < base + len.toNat then .error noRoom
    else .ok (UInt64.ofNat base)

/-- The host with the user half of a 48-bit address space. -/
def standard : Host := ⟨Int64.ofNat Region.pageSize, mapRange⟩

end Host

end AsmLoader.Region
