import AsmLoader.Proofs.Region.Rounding
/-!
# What comes of asking for a region

A request is refused by the checks before the host is asked, by the host, or because what the
host has mapped is not what was asked for. A region that comes of it is at the address that was
asked for, if there was one, and its bytes are zero.
-/

namespace AsmLoader.Region

variable {host : Host} {live : List Span} {config : Config} {r : Region} {len : UInt64}

/-! ## Answers of a host -/

theorem ofMapping_eq_ok_iff {base : UInt64} :
    ofMapping base len = .ok r ↔ base ≠ 0 ∧ r = zeroed base len := by
  unfold ofMapping
  split
  next hnull => simp [hnull]
  next hbase => simp [hbase, eq_comm]

/-- A region comes of an answer that is not null and, for a fixed region, is what was
asked for. -/
theorem mapSpan_eq_ok_iff {placement : Placement} :
    mapSpan host live len placement = .ok r ↔
      ∃ base, host.map live len placement.address? = .ok base ∧ base ≠ 0 ∧
        (∀ address, placement.address? = some address → base = address) ∧
        r = zeroed base len := by
  unfold mapSpan
  generalize host.map live len placement.address? = answer
  generalize placement.address? = asked
  cases answer with
  | error failure => cases failure <;> cases asked <;> simp
  | ok base =>
      cases asked with
      | none => simp [ofMapping_eq_ok_iff]
      | some address =>
          by_cases hsame : base = address <;> simp [ofMapping_eq_ok_iff, hsame]

/-! ## A region -/

/-- What is true of a region that was allocated. -/
structure Allocated (host : Host) (config : Config) (r : Region) : Prop where
  roundToPages?_eq : roundToPages? host.pageSize config.capacity = some r.len
  eq_zeroed : r = zeroed r.base r.len
  base_ne_zero : r.base ≠ 0
  base_eq : ∀ address, config.placement = .fixed address →
    r.base = address ∧ host.pageSize.toNat ∣ address.toNat

theorem allocated_of_allocate (h : allocate host live config = .ok r) :
    Allocated host config r := by
  unfold allocate at h
  split at h
  next => cases h
  next =>
    split at h
    next => cases h
    next len hlen =>
      split at h
      next hplacement =>
        obtain ⟨base, -, hbase, -, rfl⟩ := mapSpan_eq_ok_iff.mp h
        refine ⟨hlen, rfl, hbase, fun address hfixed => ?_⟩
        rw [hplacement] at hfixed
        cases hfixed
      next address hplacement =>
        split at h
        next hpage =>
          obtain ⟨base, -, hbase, hasked, rfl⟩ := mapSpan_eq_ok_iff.mp h
          refine ⟨hlen, rfl, hbase, fun address' hfixed => ?_⟩
          obtain rfl : address = address' := by
            rw [hplacement] at hfixed
            exact Placement.fixed.inj hfixed
          exact ⟨hasked address rfl, ((isPageAddress_iff host.isPowerOfTwo_pageSize).mp hpage).2⟩
        next => cases h

theorem Allocated.capacity_le (h : Allocated host config r) :
    config.capacity.toNat ≤ r.len.toNat :=
  (isLeast_roundToPages? host.isPowerOfTwo_pageSize h.roundToPages?_eq).1.2

/-! ## A refusal -/

/-- What a request is refused for: it asks for nothing or too much, or for what is no start of a
page, or the host does not map it. -/
inductive Refusal (host : Host) (config : Config) : AllocationError → Prop where
  | zeroCapacity (capacity_eq : config.capacity = 0) : Refusal host config .zeroCapacity
  | capacityOverflow (overflow : roundToPages? host.pageSize config.capacity = none) :
      Refusal host config (.capacityOverflow config.capacity)
  | misalignedBase (address : UInt64) (placement_eq : config.placement = .fixed address)
      (misaligned : ¬isPageAddress host.pageSize address) :
      Refusal host config (.misalignedBase ⟨address, host.pageSize⟩)
  | addressUnavailable (address len : UInt64)
      (placement_eq : config.placement = .fixed address) :
      Refusal host config (.addressUnavailable address len)
  | host (len : UInt64) (reason : String) : Refusal host config (.host len reason)

theorem refusal_of_mapSpan {e : AllocationError}
    (h : mapSpan host live len config.placement = .error e) : Refusal host config e := by
  have hmapping {base : UInt64} (h : ofMapping base len = .error e) : Refusal host config e := by
    unfold ofMapping at h
    split at h <;> cases h
    exact .host _ _
  have hfixed {address : UInt64} (haddress : config.placement.address? = some address) :
      config.placement = .fixed address := by
    cases hplacement : config.placement with
    | anywhere =>
        rw [hplacement] at haddress
        cases haddress
    | fixed address' =>
        rw [hplacement] at haddress
        rw [Option.some.inj haddress]
  unfold mapSpan at h
  split at h
  next address _ haddress =>
    cases h
    exact .addressUnavailable address len (hfixed haddress)
  next =>
    cases h
    exact .host _ _
  next address _ haddress =>
    split at h
    next =>
      cases h
      exact .addressUnavailable address len (hfixed haddress)
    next => exact hmapping h
  next => exact hmapping h

theorem refusal_of_allocate {e : AllocationError} (h : allocate host live config = .error e) :
    Refusal host config e := by
  unfold allocate at h
  split at h
  next hzero =>
    cases h
    exact .zeroCapacity hzero
  next =>
    split at h
    next hnone =>
      cases h
      exact .capacityOverflow hnone
    next len hlen =>
      split at h
      next hplacement => exact refusal_of_mapSpan (hplacement ▸ h)
      next address hplacement =>
        split at h
        next => exact refusal_of_mapSpan (hplacement ▸ h)
        next hpage =>
          cases h
          exact .misalignedBase address hplacement hpage

/-- An overflow is reported of no request but those whose capacity does not fit in
whole pages. -/
theorem allocate_eq_capacityOverflow_iff {capacity : UInt64} :
    allocate host live config = .error (.capacityOverflow capacity) ↔
      config.capacity = capacity ∧ 2 ^ 64 - host.pageSize.toNat < capacity.toNat := by
  have hpage := host.isPowerOfTwo_pageSize
  constructor
  · intro h
    cases refusal_of_allocate h with
    | capacityOverflow hnone => exact ⟨rfl, (roundToPages?_eq_none_iff hpage).mp hnone⟩
  · rintro ⟨rfl, hlarge⟩
    have hzero : config.capacity ≠ 0 := by
      intro hzero
      rw [hzero] at hlarge
      simp at hlarge
    rw [allocate, if_neg hzero, (roundToPages?_eq_none_iff hpage).mpr hlarge]

end AsmLoader.Region
