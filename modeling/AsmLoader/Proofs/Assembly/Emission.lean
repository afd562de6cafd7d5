import AsmLoader.Assembly.Program
import AsmLoader.Proofs.Outcome
import Mathlib.Data.List.ReduceOption
/-!
# What statements emit

A statement that has code emits something just when its labels may sit on it. When nothing is
reported, every statement has code, and the entries of the block are what the statements emit.
-/

namespace AsmLoader.Assembly

open Machine (CodeSize Width)
open Source (DataItem Statement)

variable {c : Context} {capacity : UInt64} {s : Statement} {e : Emission}

/-! ## Emissions that are nothing -/

theorem bytes_pos (w : Width) : 0 < w.bytes := by
  cases w <;> decide

theorem itemBytes_eq_nil_iff {unit : Width} {item : DataItem} {bytes : List UInt8}
    (h : itemBytes unit item = .ok bytes) : bytes = [] ↔ ¬takesRoom item := by
  have hunit := bytes_pos unit
  have hne {bytes : List UInt8} (hlength : bytes.length = unit.bytes) : bytes ≠ [] := by
    rintro rfl
    exact Nat.ne_of_gt hunit hlength.symm
  cases item with
  | value value =>
      have hbytes : bytes = Machine.signedBytes unit.bytes value := by
        simp only [itemBytes] at h
        split at h
        next =>
          obtain ⟨-, -, h⟩ := bind_eq_ok_iff.mp h
          cases h
          rfl
        next =>
          cases h
          rfl
      have hbytes_ne := hne (hbytes ▸ Machine.length_signedBytes _ _)
      simp [takesRoom, hbytes_ne]
  | bytes text =>
      cases h
      cases bytes <;> simp [takesRoom]
  | uninitialized =>
      cases h
      simpa [takesRoom] using Nat.ne_of_gt hunit

theorem ofBytes_eq_nothing_iff {bytes : List UInt8} :
    Emission.ofBytes bytes = .nothing ↔ bytes = [] := by
  cases bytes <;> simp [Emission.ofBytes]

theorem flatten_eq_nil_iff_of_items {unit : Width} {items : List DataItem}
    {parts : List (List UInt8)}
    (h : List.Forall₂ (fun item part => itemBytes unit item = .ok part) items parts) :
    parts.flatten = [] ↔ ¬items.any takesRoom := by
  induction h with
  | nil => simp
  | cons hitem _ ih => simp [itemBytes_eq_nil_iff hitem, ih]

theorem reservedBytes_eq_zero_iff (unit : Width) (count : UInt64) :
    (reservedBytes unit count).toNat = 0 ↔ count = 0 := by
  have hunit := bytes_pos unit
  have hsize : UInt64.size = 2 ^ 64 := rfl
  rw [← UInt64.toNat_inj, UInt64.toNat_zero]
  unfold reservedBytes
  dsimp only
  split
  next hlt =>
    rw [UInt64.toNat_ofNat_of_lt' hlt, Nat.mul_eq_zero]
    omega
  next hge =>
    have hcount : count.toNat ≠ 0 := by
      intro hzero
      rw [hzero] at hge
      omega
    simp [hcount]

theorem eq_nothing_iff (h : emission c capacity s = .ok e) : e = .nothing ↔ ¬emits s := by
  unfold emits
  cases hbody : s.body with
  | instruction mnemonic operands =>
      simp only [emission, hbody] at h
      obtain ⟨args, -, h⟩ := bind_eq_ok_iff.mp h
      obtain ⟨selected, -, h⟩ := bind_eq_ok_iff.mp h
      cases h
      cases selected <;> simp [Emission.ofSelected]
  | data unit items =>
      simp only [emission, hbody] at h
      obtain ⟨parts, hparts, h⟩ := bind_eq_ok_iff.mp h
      cases h
      rw [ofBytes_eq_nothing_iff, flatten_eq_nil_iff_of_items (mapM_eq_ok_iff.mp hparts)]
  | reserve unit count =>
      simp only [emission, hbody] at h
      split at h
      next => cases h
      next =>
        cases h
        rw [ofBytes_eq_nothing_iff, List.replicate_eq_nil_iff, reservedBytes_eq_zero_iff]
        simp
  | empty =>
      simp only [emission, hbody] at h
      cases h
      simp
  | mode size =>
      simp only [emission, hbody] at h
      cases h
      simp

/-! ## The emissions of all statements -/

theorem emissions_spec {lines : List String} {numbered : List (Statement × PlaceId)}
    (h : (emissions c capacity lines numbered).2 = []) :
    ∃ es, List.Forall₂ (fun s e => emission c capacity s = .ok e) (numbered.map Prod.fst) es ∧
      (emissions c capacity lines numbered).1 =
        ((numbered.map Prod.snd).zip es).filter fun p => p.2 ≠ .nothing := by
  induction numbered with
  | nil => exact ⟨[], .nil, rfl⟩
  | cons p rest ih =>
      obtain ⟨s, place⟩ := p
      rw [emissions] at h ⊢
      dsimp only at h ⊢
      cases he : emission c capacity s with
      | error error => simp [he] at h
      | ok e =>
          by_cases hnothing : e = .nothing
          · subst hnothing
            simp only [he] at h ⊢
            obtain ⟨es, hes, hemitted⟩ := ih h
            exact ⟨_ :: es, .cons he hes, by simp [hemitted]⟩
          · simp only [he] at h ⊢
            obtain ⟨es, hes, hemitted⟩ := ih h
            exact ⟨_ :: es, .cons he hes, by simp [hemitted, hnothing]⟩

theorem reports_emissions_of_ok {c : Context} {capacity : UInt64} {lines : List String}
    {numbered : List (Statement × PlaceId)}
    (h : ∀ p ∈ numbered, ∃ e, emission c capacity p.1 = .ok e) :
    (emissions c capacity lines numbered).2 = [] := by
  induction numbered with
  | nil => rfl
  | cons p rest ih =>
      obtain ⟨e, he⟩ := h p List.mem_cons_self
      have hrest := ih fun q hq => h q (List.mem_cons_of_mem p hq)
      rw [emissions]
      dsimp only
      rw [he]
      cases e <;> exact hrest

end AsmLoader.Assembly
