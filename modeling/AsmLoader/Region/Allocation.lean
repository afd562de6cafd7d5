import AsmLoader.Region.Basic
import AsmLoader.Region.Placement
import AsmLoader.Text.Numeral
/-!
# Allocation

A region is mapped by the host. What is asked for is checked first, in a fixed order; only then
the host is asked, and it may refuse, or map something that is of no use. The host is a
parameter: the page size that it reports, and a function of the ranges that are mapped already
and of the request.
-/

namespace AsmLoader.Region

structure Span where
  base : UInt64
  len : UInt64
  deriving DecidableEq, Repr

/-- Why a host does not map a range: it is taken, or for a reason of the host's own. -/
inductive MapFailure where
  | occupied
  | refused (reason : String)
  deriving DecidableEq, Repr

def MapFailure.reason : MapFailure → String
  | occupied => "File exists (os error 17)"
  | refused reason => reason

/-- A host reports a page size, which is negative if it knows none, and answers a request for a
length, at an address or anywhere, with the base of the mapping. It sees the ranges that are
mapped already. An address may be no more than a hint to it. -/
structure Host where
  reportedPageSize : Int64
  map : List Span → UInt64 → Option UInt64 → Except MapFailure UInt64

namespace Host

def fallbackPageSize : UInt64 := 4096

/-- The page size that the host reports, if it is a power of two. -/
def pageSize (host : Host) : UInt64 :=
  let reported := host.reportedPageSize.toUInt64
  if 0 ≤ host.reportedPageSize ∧ reported.toNat.isPowerOfTwo then reported else fallbackPageSize

theorem isPowerOfTwo_pageSize (host : Host) : host.pageSize.toNat.isPowerOfTwo := by
  simp only [pageSize]
  split
  next hreported => exact hreported.2
  next => exact ⟨12, rfl⟩

end Host

structure Misalignment where
  address : UInt64
  pageSize : UInt64
  deriving DecidableEq, Repr

inductive AllocationError where
  | zeroCapacity
  | capacityOverflow (capacity : UInt64)
  | misalignedBase (found : Misalignment)
  | fixedRegionInUse (address : UInt64)
  | addressUnavailable (address len : UInt64)
  | host (len : UInt64) (reason : String)
  deriving DecidableEq, Repr

def AllocationError.message : AllocationError → String
  | zeroCapacity => "Region capacity must be non-zero"
  | capacityOverflow capacity =>
    s!"Region capacity of {capacity} bytes overflows when rounded to pages"
  | misalignedBase ⟨address, pageSize⟩ =>
    "Fixed base address " ++ Text.hexLower address.toNat ++
      s!" is not aligned to the {pageSize}-byte page size"
  | fixedRegionInUse address =>
    "A fixed-address region at " ++ Text.hexLower address.toNat ++
      " is already live in this process"
  | addressUnavailable address len =>
    "Address range at " ++ Text.hexLower address.toNat ++ s!" ({len} bytes) is unavailable"
  | host len reason => s!"Failed to map {len} bytes of executable memory: " ++ reason

/-- The capacity in whole pages, unless that leaves the 64 bits. A page size is a power of two,
so the mask cuts off what does not fill a page. -/
def roundToPages? (pageSize capacity : UInt64) : Option UInt64 :=
  let padded := capacity + (pageSize - 1)
  if padded < capacity then none else some (padded &&& ~~~(pageSize - 1))

def isPageAddress (pageSize address : UInt64) : Bool :=
  address != 0 && address &&& (pageSize - 1) == 0

def ofMapping (base len : UInt64) : Except AllocationError Region :=
  if base = 0 then .error (.host len "mmap returned a null mapping") else .ok (zeroed base len)

/-- Asks the host for a range. What it maps elsewhere than at a fixed address is given back. -/
def mapSpan (host : Host) (live : List Span) (len : UInt64) (placement : Placement) :
    Except AllocationError Region :=
  match host.map live len placement.address?, placement.address? with
  | .error .occupied, some address => .error (.addressUnavailable address len)
  | .error failure, _ => .error (.host len failure.reason)
  | .ok base, some address =>
    if base ≠ address then .error (.addressUnavailable address len) else ofMapping base len
  | .ok base, none => ofMapping base len

def allocate (host : Host) (live : List Span) (config : Config) :
    Except AllocationError Region :=
  if config.capacity = 0 then .error .zeroCapacity
  else
    match roundToPages? host.pageSize config.capacity with
    | none => .error (.capacityOverflow config.capacity)
    | some len =>
      match config.placement with
      | .anywhere => mapSpan host live len .anywhere
      | .fixed address =>
        if isPageAddress host.pageSize address then mapSpan host live len (.fixed address)
        else .error (.misalignedBase ⟨address, host.pageSize⟩)

end AsmLoader.Region
