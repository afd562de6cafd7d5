import Mathlib.Data.List.Permutation
import AsmLoader.Proofs.Source.Addressing
/-!
# Which registers are an address

The registers of an accepted address are a base, an index with a scale, or both. The order in
which they stand decides only which of two registers without a scale becomes the base.
-/

namespace AsmLoader.Source

open Machine (Register Scale Width)

/-- What the registers of an address can be. An index is no stack pointer and has the width of
the base. -/
inductive AddressForm : List (Register × Int64) → Prop where
  | none : AddressForm []
  | base (b : Register) : AddressForm [(b, 1)]
  | index {i : Register} (scale : Scale) (hnumber : i.number.val ≠ 4) :
      AddressForm [(i, Int64.ofNat scale.factor)]
  | both {b i : Register} (scale : Scale) {registers : List (Register × Int64)}
      (hnumber : i.number.val ≠ 4) (hwidth : b.width = i.width)
      (horder : registers.Perm [(b, 1), (i, Int64.ofNat scale.factor)]) : AddressForm registers

section Registers

variable {registers others : List (Register × Int64)} {displacement : Int64}

theorem AddressForm.perm (h : AddressForm registers) (hperm : registers.Perm others) :
    AddressForm others := by
  cases h with
  | none => rw [← hperm.nil_eq]; exact .none
  | base b => rw [← hperm.singleton_eq]; exact .base b
  | index scale hnumber => rw [← hperm.singleton_eq]; exact .index scale hnumber
  | both scale hnumber hwidth horder =>
      exact .both scale hnumber hwidth (hperm.symm.trans horder)

theorem ofRegisters_eq (haddressable : ∀ r ∈ registers.map Prod.fst, isAddressable r) :
    Location.ofRegisters registers displacement = baseAndIndex registers >>= fun split =>
      (split.2.elim (.ok none) fun term => (checkIndex split.1 term.1 term.2).map some) >>=
        fun index =>
          if split.1.isNone && index.isNone then .ok (.absolute displacement)
          else if Machine.fitsDword displacement then .ok (.indexed split.1 index displacement)
          else .error (.displacementRange displacement) := by
  unfold Location.ofRegisters
  split
  next r factor hfound =>
    have hmem : r ∈ registers.map Prod.fst :=
      List.mem_map_of_mem (List.mem_of_find?_eq_some hfound)
    have hnot := List.find?_some hfound
    simp [haddressable r hmem] at hnot
  next =>
    cases baseAndIndex registers with
    | error e => rfl
    | ok split =>
        obtain ⟨base, index⟩ := split
        cases index <;> rfl

theorem ofRegisters_index {base : Option Register} {i : Register} {scale : Scale}
    (haddressable : ∀ r ∈ registers.map Prod.fst, isAddressable r)
    (hsplit : baseAndIndex registers = .ok (base, some (i, Int64.ofNat scale.factor)))
    (hnumber : i.number.val ≠ 4) (hwidth : ∀ b ∈ base, b.width = i.width)
    (hfits : Machine.fitsDword displacement) :
    Location.ofRegisters registers displacement =
      .ok (.indexed base (some (i, scale)) displacement) := by
  have hchecked : checkIndex base i (Int64.ofNat scale.factor) = .ok (i, scale) :=
    checkIndex_eq_ok_iff.mpr ⟨scale, rfl, rfl, hnumber, hwidth⟩
  rw [ofRegisters_eq haddressable, hsplit, ok_bind]
  simp only [Option.elim, hchecked, Except.map, ok_bind, Option.isNone_some, Bool.and_false,
    hfits, if_true, Bool.false_eq_true, if_false]

theorem addressForm_of_baseAndIndex {base : Option Register} {index : Option (Register × Int64)}
    (hsplit : baseAndIndex registers = .ok (base, index))
    (hindex : ∀ r factor, index = some (r, factor) →
      ∃ checked, checkIndex base r factor = .ok checked) : AddressForm registers := by
  have hscale {r : Register} {factor : Int64} (h : index = some (r, factor)) :
      ∃ scale : Scale, factor = Int64.ofNat scale.factor ∧ r.number.val ≠ 4 ∧
        ∀ b ∈ base, b.width = r.width := by
    obtain ⟨checked, hchecked⟩ := hindex r factor h
    obtain ⟨scale, -, hfactor, hnumber, hwidth⟩ := checkIndex_eq_ok_iff.mp hchecked
    exact ⟨scale, hfactor, hnumber, hwidth⟩
  cases ordered_of_baseAndIndex hsplit with
  | none => exact .none
  | base b => exact .base b
  | index r factor =>
      obtain ⟨scale, rfl, hnumber, -⟩ := hscale rfl
      exact .index scale hnumber
  | baseFirst b r factor =>
      obtain ⟨scale, rfl, hnumber, hwidth⟩ := hscale rfl
      exact .both scale hnumber (hwidth b rfl) (List.Perm.refl _)
  | indexFirst b r factor =>
      obtain ⟨scale, rfl, hnumber, hwidth⟩ := hscale rfl
      exact .both scale hnumber (hwidth b rfl) (List.Perm.swap _ _ [])

theorem exists_ofRegisters_of_perm {b i : Register} {scale : Scale}
    (haddressable : ∀ r ∈ registers.map Prod.fst, isAddressable r) (hnumber : i.number.val ≠ 4)
    (hwidth : b.width = i.width)
    (horder : registers.Perm [(b, 1), (i, Int64.ofNat scale.factor)])
    (hfits : Machine.fitsDword displacement) :
    ∃ location, Location.ofRegisters registers displacement = .ok location := by
  have hbase {registers : List (Register × Int64)}
      (haddressable : ∀ r ∈ registers.map Prod.fst, isAddressable r)
      (hsplit : baseAndIndex registers = .ok (some b, some (i, Int64.ofNat scale.factor))) :
      ∃ location, Location.ofRegisters registers displacement = .ok location := by
    refine ⟨_, ofRegisters_index haddressable hsplit hnumber ?_ hfits⟩
    rintro other ⟨⟩
    exact hwidth
  rcases List.perm_pair.mp horder with rfl | rfl
  · exact hbase haddressable (by simp [baseAndIndex, hnumber])
  · by_cases hone : Int64.ofNat scale.factor = 1
    · by_cases hstack : b.number.val = 4
      · exact hbase haddressable (by simp [baseAndIndex, hone, hstack])
      · have hsplit : baseAndIndex [(i, Int64.ofNat scale.factor), (b, 1)] =
            .ok (some i, some (b, Int64.ofNat Scale.one.factor)) := by
          rw [hone, baseAndIndex, if_neg (by simp [hstack]), if_pos rfl]
          rfl
        refine ⟨_, ofRegisters_index haddressable hsplit hstack ?_ hfits⟩
        rintro other ⟨⟩
        exact hwidth.symm
    · exact hbase haddressable (by simp [baseAndIndex, hone])

/-- Registers and a displacement are accepted just if the registers can address memory and are of
one of the forms, and the displacement beside them has 32 bits. -/
theorem exists_ofRegisters_iff :
    (∃ location, Location.ofRegisters registers displacement = .ok location) ↔
    (∀ r ∈ registers.map Prod.fst, isAddressable r) ∧ AddressForm registers ∧
      (registers = [] ∨ Machine.fitsDword displacement) := by
  constructor
  · rintro ⟨location, h⟩
    have haddressable := (ofRegisters_cases h).1
    rw [ofRegisters_eq haddressable] at h
    obtain ⟨⟨base, index⟩, hsplit, h⟩ := bind_eq_ok_iff.mp h
    obtain ⟨checked, hchecked, h⟩ := bind_eq_ok_iff.mp h
    refine ⟨haddressable, addressForm_of_baseAndIndex hsplit ?_, ?_⟩
    · rintro r factor rfl
      obtain ⟨i, hi, -⟩ := map_eq_ok_iff.mp hchecked
      exact ⟨i, hi⟩
    · split at h
      next hnone =>
        obtain ⟨rfl, rfl⟩ : base = none ∧ checked = none := by simpa using hnone
        cases index with
        | none =>
            cases ordered_of_baseAndIndex hsplit
            exact .inl rfl
        | some term =>
            obtain ⟨_, -, hsome⟩ := map_eq_ok_iff.mp hchecked
            cases hsome
      next =>
        split at h
        next hfits => exact .inr hfits
        next => cases h
  · rintro ⟨haddressable, hform, hfits⟩
    have hbase (b : Register) (heq : registers = [(b, 1)]) :
        ∃ location, Location.ofRegisters registers displacement = .ok location := by
      subst heq
      have hfits : Machine.fitsDword displacement := by simpa using hfits
      refine ⟨.indexed (some b) none displacement, ?_⟩
      rw [ofRegisters_eq haddressable]
      simp [baseAndIndex, ok_bind, hfits]
    cases hform with
    | none => exact ⟨.absolute displacement, rfl⟩
    | base b => exact hbase b rfl
    | @index i scale hnumber =>
        by_cases hone : Int64.ofNat scale.factor = 1
        · exact hbase i (by rw [hone])
        · have hsplit : baseAndIndex [(i, Int64.ofNat scale.factor)] =
              .ok (none, some (i, Int64.ofNat scale.factor)) := by
            rw [baseAndIndex, if_neg hone]
          exact ⟨_, ofRegisters_index haddressable hsplit hnumber (by simp)
            (by simpa using hfits)⟩
    | both scale hnumber hwidth horder =>
        have hne : registers ≠ [] := by
          rintro rfl
          cases horder.nil_eq
        exact exists_ofRegisters_of_perm haddressable hnumber hwidth horder
          (hfits.resolve_left hne)

end Registers

end AsmLoader.Source
