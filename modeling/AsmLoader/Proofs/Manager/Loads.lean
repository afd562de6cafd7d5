import AsmLoader.Manager
import AsmLoader.Region.Host
import AsmLoader.Proofs.Region.Contents
import AsmLoader.Proofs.Region.Outcomes
import Mathlib.Data.List.Induction
import Mathlib.Data.Nat.Basic
import Mathlib.Order.Lattice
import Mathlib.Tactic.SplitIfs
/-!
# Loading code

What one load does to a manager, and what the region holds after any number of them. A manager
remembers the length of its last load only, yet each load covers all that an earlier one left
behind it: the bytes past the last code are trap bytes up to the longest code ever loaded, and
zero from there on.
-/

namespace AsmLoader.Manager

open Region (Config Host Span)

/-! ## One load -/

/-- What a manager is after a load of a code. -/
structure Loaded (m : Manager) (code : Code) (after : Manager) : Prop where
  length_le : code.length ≤ m.capacity.toNat
  config_eq : after.config = m.config
  base_eq : after.base = m.base
  mappedLen_eq : after.mappedLen = m.mappedLen
  generation_eq : after.generation = m.generation + 1
  used_eq : after.used = code.length
  length_le_mappedLen : code.length ≤ m.mappedLen.toNat
  byteAt_eq : ∀ i, after.region.byteAt i =
    if i < code.length then code.getD i 0
    else if i < m.used then trapByte
    else m.region.byteAt i

theorem load_eq_of_lt {m : Manager} {code : Code} (h : m.capacity.toNat < code.length) :
    m.load code = (none, m) := by
  rw [load, if_pos h]

theorem load?_eq_none_of_lt {m : Manager} {code : Code} (h : m.capacity.toNat < code.length) :
    m.load? code = none := by
  rw [load?, load_eq_of_lt h]

theorem load?_eq_some {m after : Manager} {code : Code} (h : m.load? code = some after) :
    code.length ≤ m.capacity.toNat ∧ ∃ written region, m.region.write? 0 code = some written ∧
      written.fill? (UInt64.ofNat code.length) (m.used - code.length) trapByte = some region ∧
      after = { m with region, generation := m.generation + 1, used := code.length } ∧
      m.load code = (some after.generation, after) := by
  unfold load? load at h
  split at h
  next number loaded hload =>
    cases h
    split at hload
    next => cases hload
    next hcapacity =>
      split at hload
      next => cases hload
      next written hwritten =>
        split at hload
        next => cases hload
        next region hregion =>
          cases hload
          refine ⟨by omega, written, region, hwritten, hregion, rfl, ?_⟩
          simp only [load, if_neg hcapacity, hwritten, hregion]
  next => cases h

theorem load_eq_some_iff {m after : Manager} {code : Code} {number : UInt64} :
    m.load code = (some number, after) ↔ m.load? code = some after ∧
    after.generation = number := by
  constructor
  · intro h
    have hsome : m.load? code = some after := by rw [load?, h]
    obtain ⟨-, _, _, -, -, -, hload⟩ := load?_eq_some hsome
    rw [h] at hload
    exact ⟨hsome, (Option.some.inj (congrArg Prod.fst hload)).symm⟩
  · rintro ⟨hsome, rfl⟩
    obtain ⟨-, _, _, -, -, -, hload⟩ := load?_eq_some hsome
    exact hload

theorem toNat_ofNat_length {m : Manager} {code : Code} (h : code.length ≤ m.capacity.toNat) :
    (UInt64.ofNat code.length).toNat = code.length := by
  have hlt := m.capacity.toNat_lt
  rw [UInt64.toNat_ofNat_of_lt' (by simp [UInt64.size]; omega)]

theorem loaded_of_load? {m after : Manager} {code : Code} (h : m.load? code = some after) :
    Loaded m code after := by
  obtain ⟨hlength, written, filled, hwritten, hfilled, rfl, -⟩ := load?_eq_some h
  have hoffset := toNat_ofNat_length hlength
  obtain ⟨hwrite, rfl⟩ := Region.fits_of_write? hwritten
  obtain ⟨hfill, rfl⟩ := Region.fits_of_write? hfilled
  refine ⟨hlength, rfl, rfl, rfl, rfl, rfl, by simpa [mappedLen] using hwrite, ?_⟩
  intro i
  dsimp only
  rw [Region.byteAt_overwrite, Region.byteAt_overwrite, hoffset, List.length_replicate,
    UInt64.toNat_zero, Nat.zero_add, Nat.sub_zero]
  by_cases hcode : i < code.length
  · rw [if_neg (by omega), if_pos ⟨Nat.zero_le i, hcode⟩, if_pos hcode]
  · rw [if_neg hcode]
    by_cases hused : i < m.used
    · rw [if_pos (by omega), if_pos hused, List.getD_replicate _ (by omega)]
    · rw [if_neg (by omega), if_neg (by omega), if_neg hused]

theorem Loaded.read?_eq {m after : Manager} {code : Code} (h : Loaded m code after) :
    after.region.read? 0 (UInt64.ofNat code.length) = some code := by
  apply Region.read?_zero_eq_some
  · exact toNat_ofNat_length h.length_le
  · change code.length ≤ after.mappedLen.toNat
    rw [h.mappedLen_eq]
    exact h.length_le_mappedLen
  · intro i hi
    rw [h.byteAt_eq, if_pos hi]

/-- The region of a manager has room for its capacity and for its last load. -/
structure HasRoom (m : Manager) : Prop where
  capacity_le : m.capacity.toNat ≤ m.mappedLen.toNat
  used_le : m.used ≤ m.mappedLen.toNat

theorem generation_of_create {host : Host} {live : List Span} {config : Config} {m : Manager}
    (h : create host live config = .ok m) : m.generation = 0 := by
  unfold create at h
  cases halloc : Region.allocate host live config with
  | error e => rw [halloc] at h; cases h
  | ok region =>
      rw [halloc] at h
      obtain rfl := Except.ok.inj h
      rfl

namespace HasRoom

variable {m after : Manager} {code : Code}

theorem exists_load? (hm : m.HasRoom) (hlength : code.length ≤ m.capacity.toNat) :
    ∃ after, m.load? code = some after := by
  have hoffset := toNat_ofNat_length hlength
  have hwrite : (0 : UInt64).toNat + code.length ≤ m.region.len.toNat := by
    simp only [UInt64.toNat_zero, Nat.zero_add]
    exact hlength.trans hm.capacity_le
  have hfill : (UInt64.ofNat code.length).toNat +
      (List.replicate (m.used - code.length) trapByte).length ≤
        (m.region.overwrite 0 code hwrite).len.toNat := by
    rw [hoffset, List.length_replicate]
    change code.length + (m.used - code.length) ≤ m.mappedLen.toNat
    have hcapacity := hm.capacity_le
    have hused := hm.used_le
    omega
  simp only [load?, load, if_neg (Nat.not_lt.mpr hlength), m.region.write?_eq_some hwrite,
    Region.fill?, Region.write?_eq_some _ hfill]
  exact ⟨_, rfl⟩

/-- Where there is room, a load that is refused has not touched the region: the code is too long
for the capacity, and that is found before anything is written. -/
theorem load_cases (hm : m.HasRoom) (code : Code) :
    (m.capacity.toNat < code.length ∧ m.load? code = none ∧ m.load code = (none, m)) ∨
      ∃ after, m.load? code = some after ∧ m.load code = (some after.generation, after) := by
  by_cases hlength : code.length ≤ m.capacity.toNat
  · obtain ⟨after, hafter⟩ := hm.exists_load? hlength
    exact Or.inr ⟨after, hafter, load_eq_some_iff.mpr ⟨hafter, rfl⟩⟩
  · have hlt : m.capacity.toNat < code.length := by omega
    exact Or.inl ⟨hlt, load?_eq_none_of_lt hlt, load_eq_of_lt hlt⟩

theorem load (hm : m.HasRoom) (h : Loaded m code after) : after.HasRoom := by
  constructor
  · rw [capacity, h.config_eq, h.mappedLen_eq]
    exact hm.capacity_le
  · rw [h.used_eq, h.mappedLen_eq]
    exact h.length_le_mappedLen

theorem create {host : Host} {live : List Span} {config : Config} {m : Manager}
    (h : create host live config = .ok m) : m.HasRoom := by
  unfold Manager.create at h
  cases halloc : Region.allocate host live config with
  | error e => rw [halloc] at h; cases h
  | ok region =>
      rw [halloc] at h
      obtain rfl := Except.ok.inj h
      exact ⟨(Region.allocated_of_allocate halloc).capacity_le, Nat.zero_le _⟩

end HasRoom

/-! ## Any number of loads -/

/-- The manager after a code was offered to it, which it may refuse. -/
def offer (m : Manager) (code : Code) : Manager :=
  (m.load code).2

def offerAll (m : Manager) (codes : List Code) : Manager :=
  codes.foldl offer m

def loadedOf (m : Manager) : List Code → List Code
  | [] => []
  | code :: rest =>
    match m.load? code with
    | some after => code :: after.loadedOf rest
    | none => m.loadedOf rest

def highMark (codes : List Code) : Nat :=
  codes.foldl (fun high code => max high code.length) 0

def lastCode (codes : List Code) : Code :=
  codes.getLastD []

@[simp] theorem highMark_concat (codes : List Code) (code : Code) :
    highMark (codes ++ [code]) = max (highMark codes) code.length := by
  simp [highMark]

@[simp] theorem lastCode_concat (codes : List Code) (code : Code) :
    lastCode (codes ++ [code]) = code := by
  simp [lastCode]

theorem length_lastCode_le (codes : List Code) : (lastCode codes).length ≤ highMark codes := by
  induction codes using List.reverseRecOn with
  | nil => simp [lastCode]
  | append_singleton codes code _ =>
      rw [lastCode_concat, highMark_concat]
      exact Nat.le_max_right _ _

/-- What is true of a manager into which these codes have been loaded. -/
structure Holds (m : Manager) (codes : List Code) : Prop where
  capacity_le : m.capacity.toNat ≤ m.mappedLen.toNat
  highMark_le : highMark codes ≤ m.capacity.toNat
  used_eq : m.used = (lastCode codes).length
  generation_eq : m.generation = UInt64.ofNat codes.length
  byteAt_eq : ∀ i, m.region.byteAt i =
    if i < (lastCode codes).length then (lastCode codes).getD i 0
    else if i < highMark codes then trapByte
    else 0

theorem holds_create {host : Host} {live : List Span} {config : Config} {m : Manager}
    (h : create host live config = .ok m) : Holds m [] := by
  unfold create at h
  cases halloc : Region.allocate host live config with
  | error e => rw [halloc] at h; cases h
  | ok region =>
      rw [halloc] at h
      obtain rfl := Except.ok.inj h
      have hallocated := Region.allocated_of_allocate halloc
      refine ⟨hallocated.capacity_le, Nat.zero_le _, rfl, rfl, ?_⟩
      intro i
      change region.byteAt i = _
      rw [hallocated.eq_zeroed, Region.byteAt_zeroed]
      simp [lastCode, highMark]

namespace Holds

variable {m after : Manager} {codes : List Code} {code : Code}

theorem hasRoom (h : Holds m codes) : m.HasRoom := by
  refine ⟨h.capacity_le, ?_⟩
  rw [h.used_eq]
  exact ((length_lastCode_le codes).trans h.highMark_le).trans h.capacity_le

theorem load?_isSome (h : Holds m codes) (code : Code) :
    (m.load? code).isSome = decide (code.length ≤ m.capacity.toNat) := by
  by_cases hlength : code.length ≤ m.capacity.toNat
  · obtain ⟨after, hafter⟩ := h.hasRoom.exists_load? hlength
    rw [hafter, decide_eq_true hlength]
    rfl
  · rw [load?_eq_none_of_lt (by omega), decide_eq_false hlength]
    rfl

/-- One more load. The bytes that it does not cover are those past the last code, where only the
trap bytes of earlier loads stand. -/
theorem load (h : Holds m codes) (hload : m.load? code = some after) :
    Holds after (codes ++ [code]) := by
  have hl := loaded_of_load? hload
  have hlast := length_lastCode_le codes
  refine ⟨?_, ?_, ?_, ?_, ?_⟩
  · rw [hl.mappedLen_eq, capacity, hl.config_eq]
    exact h.capacity_le
  · rw [highMark_concat, capacity, hl.config_eq]
    exact max_le h.highMark_le hl.length_le
  · rw [hl.used_eq, lastCode_concat]
  · rw [hl.generation_eq, h.generation_eq, List.length_append, List.length_singleton,
      UInt64.ofNat_add]
    rfl
  · intro i
    rw [hl.byteAt_eq, h.used_eq, h.byteAt_eq, lastCode_concat, highMark_concat]
    split_ifs <;> first | rfl | omega

theorem offerAll (h : Holds m codes) (offered : List Code) :
    Holds (m.offerAll offered) (codes ++ m.loadedOf offered) := by
  induction offered generalizing m codes with
  | nil => simpa [Manager.offerAll, loadedOf] using h
  | cons code rest ih =>
      rw [Manager.offerAll, List.foldl_cons, offer, loadedOf]
      rcases h.hasRoom.load_cases code with ⟨-, hnone, hload⟩ | ⟨after, hsome, hload⟩
      · rw [hnone, hload]
        exact ih h
      · rw [hsome, hload]
        have hnext := ih (h.load hsome)
        rw [List.append_assoc, List.singleton_append] at hnext
        exact hnext

theorem loadedOf_eq_filter (h : Holds m codes) (offered : List Code) :
    m.loadedOf offered = offered.filter fun code => code.length ≤ m.capacity.toNat := by
  induction offered generalizing m codes with
  | nil => rfl
  | cons code rest ih =>
      have hsome := h.load?_isSome code
      rw [loadedOf, List.filter_cons]
      cases hload : m.load? code with
      | none =>
          rw [hload] at hsome
          rw [if_neg (by simpa using hsome.symm), ih h]
      | some after =>
          rw [hload] at hsome
          rw [if_pos (by simpa using hsome.symm)]
          have hrest := ih (h.load hload)
          rw [capacity, (loaded_of_load? hload).config_eq] at hrest
          exact congrArg (code :: ·) hrest

end Holds

theorem mappedLen_load (m : Manager) (code : Code) :
    (m.load code).2.mappedLen = m.mappedLen := by
  unfold load
  split
  next => rfl
  next =>
    split
    next => rfl
    next written hwritten =>
      obtain ⟨_, rfl⟩ := Region.fits_of_write? hwritten
      split
      next => rfl
      next region hregion =>
        obtain ⟨_, rfl⟩ := Region.fits_of_write? hregion
        rfl

theorem mappedLen_offerAll (m : Manager) (codes : List Code) :
    (m.offerAll codes).mappedLen = m.mappedLen := by
  induction codes generalizing m with
  | nil => rfl
  | cons code rest ih =>
      rw [offerAll, List.foldl_cons]
      exact (ih (m.offer code)).trans (m.mappedLen_load code)

/-- After any codes were offered to a new manager, its whole region reads as the last code that
was loaded, trap bytes up to the end of the longest one, and zeros; and those that were loaded
are those not longer than the capacity. -/
theorem read?_offerAll {host : Host} {live : List Span} {config : Config} {m : Manager}
    (hm : create host live config = .ok m) (codes : List Code) :
    let loaded := m.loadedOf codes
    let last := lastCode loaded
    let high := highMark loaded
    loaded = codes.filter (fun code => code.length ≤ m.capacity.toNat) ∧
      (m.offerAll codes).region.read? 0 m.mappedLen =
        some (last ++ List.replicate (high - last.length) trapByte ++
          List.replicate (m.mappedLen.toNat - high) 0) := by
  intro loaded last high
  have hnew := holds_create hm
  have hafter : Holds (m.offerAll codes) loaded := hnew.offerAll codes
  have hlen := mappedLen_offerAll m codes
  have hlast : last.length ≤ high := length_lastCode_le loaded
  have hhigh : high ≤ m.mappedLen.toNat := by
    rw [← hlen]
    exact hafter.highMark_le.trans hafter.capacity_le
  refine ⟨hnew.loadedOf_eq_filter codes, ?_⟩
  have hlength : (last ++ List.replicate (high - last.length) trapByte ++
      List.replicate (m.mappedLen.toNat - high) (0 : UInt8)).length = m.mappedLen.toNat := by
    simp only [List.length_append, List.length_replicate]
    omega
  apply Region.read?_zero_eq_some
  · exact hlength.symm
  · rw [hlength]
    exact (congrArg UInt64.toNat hlen).ge
  · intro i hi
    rw [hafter.byteAt_eq]
    change (if i < last.length then last.getD i 0 else if i < high then trapByte else 0) = _
    rw [List.append_assoc]
    by_cases hcode : i < last.length
    · rw [if_pos hcode, List.getD_append _ _ _ _ hcode]
    · rw [if_neg hcode, List.getD_append_right _ _ _ _ (by omega)]
      by_cases htrap : i < high
      · rw [if_pos htrap, List.getD_append _ _ _ _ (by simp; omega),
          List.getD_replicate _ (by omega)]
      · rw [if_neg htrap, List.getD_append_right _ _ _ _ (by simp; omega),
          List.getD_replicate _ (by simp; omega)]

/-- Four bytes, five that are refused, and one: three bytes of the first code are covered. -/
theorem read?_offerAll_longer_refused_shorter :
    let m : Manager := ⟨.ofCapacity 4, .zeroed 0x7F0000000000 4096, 0, 0⟩
    create Host.standard [] (.ofCapacity 4) = .ok m ∧
      (m.offerAll [[0x90, 0x90, 0x90, 0xC3], [1, 2, 3, 4, 5], [0xC3]]).region.read? 0 4096 =
        some ([0xC3] ++ List.replicate 3 0xCC ++ List.replicate 4092 0) := by
  intro m
  have hm : create Host.standard [] (.ofCapacity 4) = .ok m := rfl
  obtain ⟨hloaded, hread⟩ :=
    read?_offerAll hm [[0x90, 0x90, 0x90, 0xC3], [1, 2, 3, 4, 5], [0xC3]]
  rw [hloaded] at hread
  exact ⟨hm, hread⟩

end AsmLoader.Manager
