import AsmLoader.Proofs.Assembly.DataLayout
import AsmLoader.Proofs.Assembly.Relocation
/-!
# Room in the region

The capacity of the region is asked for in one place, which is where a reservation is put into
the code, and it is asked of that reservation alone. What a source is assembled to does not
depend on it otherwise: a source has the code that it has in all the room there is, if each of
its reservations on its own has room.
-/

namespace AsmLoader

/-- The target with all the room that there can be. -/
def Target.roomy (target : Target) : Target :=
  { target with capacity := UInt64.ofNat (UInt64.size - 1) }

theorem Target.le_capacity_roomy (target : Target) (n : UInt64) : n ≤ target.roomy.capacity := by
  have hroom : target.roomy.capacity.toNat = UInt64.size - 1 := rfl
  have hlt := n.toNat_lt_size
  rw [UInt64.le_iff_toNat_le, hroom]
  omega

end AsmLoader

namespace AsmLoader.Assembly

open Machine (CodeSize Width)
open Source (Body Statement)

/-! ## Reservations -/

def FitsIn (capacity : UInt64) : Body → Prop
  | .reserve unit count => reservedBytes unit count ≤ capacity
  | _ => True

/-- A body that puts no bytes into the code but zeros that it reserves. -/
def OnlyReserves : Body → Prop
  | .data .. | .instruction .. => False
  | .reserve .. | .empty | .mode _ => True

section

variable {c : Context} {capacity : UInt64} {s : Statement} {e : Emission} {unit : Width}
  {count : UInt64}

theorem emission_reserve (hbody : s.body = .reserve unit count) :
    emission c capacity s =
      if capacity < reservedBytes unit count then
        .error (.reservationTooLarge (reservedBytes unit count))
      else .ok (.ofBytes (List.replicate (reservedBytes unit count).toNat 0)) := by
  simp [emission, hbody]

theorem emission_of_reserve (hbody : s.body = .reserve unit count)
    (h : capacity < reservedBytes unit count) :
    emission c capacity s = .error (.reservationTooLarge (reservedBytes unit count)) := by
  rw [emission_reserve hbody, if_pos h]

theorem fitsIn_of_emission (h : emission c capacity s = .ok e) : FitsIn capacity s.body := by
  unfold FitsIn
  split
  next unit count hbody =>
    rw [emission_reserve hbody] at h
    split at h
    next => cases h
    next hroom => exact UInt64.not_lt.mp hroom
  next => trivial

theorem emission_eq_ok_iff {capacity' : UInt64} (hle : capacity ≤ capacity') :
    emission c capacity s = .ok e ↔
      emission c capacity' s = .ok e ∧ FitsIn capacity s.body := by
  refine ⟨fun h => ⟨emission_mono hle h, fitsIn_of_emission h⟩, fun ⟨h, hfits⟩ => ?_⟩
  cases hbody : s.body with
  | reserve unit count =>
      rw [hbody] at hfits
      have hroom : ¬capacity < reservedBytes unit count := UInt64.not_lt.mpr hfits
      have hroom' : ¬capacity' < reservedBytes unit count :=
        UInt64.not_lt.mpr (UInt64.le_trans hfits hle)
      rw [emission_reserve hbody, if_neg hroom'] at h
      rw [emission_reserve hbody, if_neg hroom, h]
  | _ =>
      simp only [emission, hbody] at h ⊢
      exact h

/-! ## The bytes of a reservation -/

theorem eq_of_written_ofBytes {codeSize : CodeSize} {bytes part : List UInt8} {d : Displacement}
    (h : (Emission.ofBytes bytes).Written codeSize part d) : part = bytes := by
  unfold Emission.ofBytes at h
  split at h
  next hempty => rw [h.1, List.isEmpty_iff.mp hempty]
  next =>
    cases h
    rfl

theorem length_of_reserve {codeSize : CodeSize} {part : List UInt8} {d : Displacement}
    (he : emission c capacity s = .ok e) (h : e.Written codeSize part d)
    (hbody : s.body = .reserve unit count) :
    part.length = (reservedBytes unit count).toNat ∧ part.length ≤ capacity.toNat := by
  have hfits := fitsIn_of_emission he
  rw [hbody] at hfits
  rw [emission_reserve hbody, if_neg (UInt64.not_lt.mpr hfits)] at he
  cases he
  obtain rfl := eq_of_written_ofBytes h
  rw [List.length_replicate]
  exact ⟨rfl, UInt64.le_iff_toNat_le.mp hfits⟩

theorem exists_fixedBytes_of_onlyReserves (codeSize : CodeSize) (h : OnlyReserves s.body)
    (he : emission c capacity s = .ok e) :
    ∃ part, FixedBytes codeSize c capacity s part ∧
      part.length ≤ (if emits s then 1 else 0) * capacity.toNat := by
  cases hbody : s.body with
  | reserve unit count =>
      have hfits := fitsIn_of_emission he
      rw [hbody] at hfits
      have hemission : emission c capacity s =
          .ok (.ofBytes (List.replicate (reservedBytes unit count).toNat 0)) := by
        rw [emission_reserve hbody, if_neg (UInt64.not_lt.mpr hfits)]
      refine ⟨_, ⟨_, hemission, bytes?_ofBytes codeSize _⟩, ?_⟩
      rw [List.length_replicate]
      split
      next => rw [Nat.one_mul]; exact UInt64.le_iff_toNat_le.mp hfits
      next hemits =>
        have hzero : count = 0 := by simpa [emits, hbody] using hemits
        rw [(reservedBytes_eq_zero_iff unit count).mpr hzero, Nat.zero_mul]
  | empty | mode =>
      have hnothing : emission c capacity s = .ok .nothing := by simp [emission, hbody]
      exact ⟨[], ⟨.nothing, hnothing, rfl⟩, Nat.zero_le _⟩
  | data | instruction =>
      rw [hbody] at h
      cases h

end

/-! ## Sources -/

section

variable {codeSize : CodeSize} {target : Target} {statements : List Statement}
  {es : List Emission} {code : Code} {source : String}

theorem emitted_iff : Emitted codeSize target.capacity statements es ↔
    Emitted codeSize target.roomy.capacity statements es ∧
      ∀ s ∈ statements, FitsIn target.capacity s.body := by
  have hle := target.le_capacity_roomy target.capacity
  unfold Emitted
  simp only [emission_eq_ok_iff hle]
  rw [and_comm, ← List.forall₂_and_left]
  simp only [and_comm]

theorem assembles_iff : Assembles codeSize target statements es code ↔
    Assembles codeSize target.roomy statements es code ∧
      ∀ s ∈ statements, FitsIn target.capacity s.body := by
  constructor
  · rintro ⟨hbits, hmodes, hlabels, hemitted, hwritten⟩
    obtain ⟨hroomy, hfits⟩ := emitted_iff.mp hemitted
    exact ⟨⟨hbits, hmodes, hlabels, hroomy, hwritten⟩, hfits⟩
  · rintro ⟨⟨hbits, hmodes, hlabels, hroomy, hwritten⟩, hfits⟩
    exact ⟨hbits, hmodes, hlabels, emitted_iff.mpr ⟨hroomy, hfits⟩, hwritten⟩

theorem length_flatten_le {n : Nat} {parts : List (List UInt8)}
    (h : List.Forall₂ (fun s part => part.length ≤ (if emits s then 1 else 0) * n)
      statements parts) : parts.flatten.length ≤ statements.countP emits * n := by
  induction h with
  | nil => simp
  | @cons s part statements parts hpart _ ih =>
      rw [List.flatten_cons, List.length_append, List.countP_cons, Nat.add_mul]
      omega

/-- Statements that only reserve are assembled to as many bytes as each of them has room for at
most. -/
theorem Assembles.length_le (h : Assembles codeSize target statements es code)
    (hparse : Source.parse source = .ok statements)
    (honly : ∀ s ∈ statements, OnlyReserves s.body) :
    code.length ≤ statements.countP emits * target.capacity.toNat := by
  have hparts : ∀ s ∈ statements, ∃ part,
      FixedBytes codeSize (contextOf codeSize statements) target.capacity s part ∧
        part.length ≤ (if emits s then 1 else 0) * target.capacity.toNat := by
    intro s hs
    obtain ⟨e, -, he⟩ := exists_mem_of_forall₂ h.emitted hs
    exact exists_fixedBytes_of_onlyReserves codeSize (honly s hs) he
  obtain ⟨parts, hparts⟩ := exists_forall₂ hparts
  have hcode := assemble_of_fixedBytes hparse h.bits_eq h.modes_eq h.labels_nodup
    (hparts.imp fun _ _ hpart => hpart.1)
  rw [assemble_of_parse hparse, h.assembleStatements_eq] at hcode
  cases hcode
  exact length_flatten_le (hparts.imp fun _ _ hpart => hpart.2)

theorem assemble_roomy_iff (hparse : Source.parse source = .ok statements) :
    assemble source target = .ok code ↔ assemble source target.roomy = .ok code ∧
      ∀ s ∈ statements, FitsIn target.capacity s.body := by
  rw [assemble_of_parse hparse, assemble_of_parse hparse, assembleStatements_eq_ok_iff,
    assembleStatements_eq_ok_iff]
  constructor
  · rintro ⟨codeSize, es, h⟩
    obtain ⟨hroomy, hfits⟩ := assembles_iff.mp h
    exact ⟨⟨codeSize, es, hroomy⟩, hfits⟩
  · rintro ⟨⟨codeSize, es, hroomy⟩, hfits⟩
    exact ⟨codeSize, es, assembles_iff.mpr ⟨hroomy, hfits⟩⟩

end

/-- What the capacity of the region has to do with the answer to a source. -/
structure ChecksReservations (source : String) (target : Target) : Prop where
  /-- The code is that in all the room there is, if each reservation on its own has room. -/
  code_iff : ∀ statements code, Source.parse source = .ok statements →
    (assemble source target = .ok code ↔ assemble source target.roomy = .ok code ∧
      ∀ s ∈ statements, FitsIn target.capacity s.body)
  /-- Every reservation takes no more of the code than there is room for. -/
  reserved : ∀ statements code, Source.parse source = .ok statements →
    assemble source target = .ok code → ∃ codeSize parts, codeSize.bits = target.bitness ∧
      Arranged codeSize target statements parts code ∧
      ∀ (i : Nat) (s : Statement) (unit : Width) (count : UInt64),
        statements[i]? = some s → s.body = .reserve unit count →
          ∃ part, parts[i]? = some part ∧ part.length = (reservedBytes unit count).toNat ∧
            part.length ≤ target.capacity.toNat
  /-- A source that only reserves has room for each of its reservations. -/
  length_le : ∀ statements code, Source.parse source = .ok statements →
    assemble source target = .ok code → (∀ s ∈ statements, OnlyReserves s.body) →
      code.length ≤ statements.countP emits * target.capacity.toNat
  /-- A reservation that has no room is reported on its line. -/
  reported : ∀ (statements : List Statement) (s : Statement) (unit : Width) (count : UInt64),
    Source.parse source = .ok statements → s ∈ statements → s.body = .reserve unit count →
      target.capacity < reservedBytes unit count → ∃ reports,
        assemble source target = .error reports ∧
          reportAt (Text.linesOf source) s.line
            (StatementError.reservationTooLarge (reservedBytes unit count)).message ∈ reports
  /-- No source is refused without a diagnostic. -/
  refused : ∀ reports, assemble source target = .error reports → reports ≠ []

/-- The capacity of the region bounds each reservation of a source, and nothing else. -/
theorem assemble_checksReservations (source : String) (target : Target)
    (hbitness : target.bitness = 32 ∨ target.bitness = 64) :
    ChecksReservations source target where
  code_iff _ _ hparse := assemble_roomy_iff hparse
  reserved statements code hparse h := by
    obtain ⟨statements', codeSize, es, parts, hparse', hbits, hes, hlaid⟩ :=
      exists_laid_of_assemble h
    obtain rfl : statements' = statements := Except.ok.inj (hparse'.symm.trans hparse)
    have harranged := arranged_partsOf hes hlaid
    refine ⟨codeSize, _, hbits, harranged, fun i s unit count hs hbody => ?_⟩
    obtain ⟨e, part, d, he, hpart, hwritten, -⟩ := harranged.written i s hs
    exact ⟨part, hpart, length_of_reserve he hwritten hbody⟩
  length_le statements code hparse h honly := by
    rw [assemble_of_parse hparse] at h
    obtain ⟨codeSize, es, hassembles⟩ := exists_assembles h
    exact hassembles.length_le hparse honly
  reported statements s unit count hparse hs hbody hroom := by
    obtain ⟨codeSize, hsize⟩ := exists_effectiveSize hbitness statements
    exact exists_error_of_emission hparse hsize hs (emission_of_reserve hbody hroom)
  refused _ h := reports_ne_nil h

/-- Two reservations that have room one at a time. -/
theorem two_reservations_overrun :
    let target : Target := ⟨0x10000000, 8, 64⟩
    ChecksReservations "rb 8\nrb 8" target ∧
      ∃ code, assemble "rb 8\nrb 8" target = .ok code ∧ code.length = 16 := by
  intro target
  have hparse : Source.parse "rb 8\nrb 8" =
      .ok [⟨1, [], .reserve .byte 8⟩, ⟨2, [], .reserve .byte 8⟩] := by decide +kernel
  refine ⟨assemble_checksReservations _ _ (.inr rfl), List.replicate 16 0, ?_, rfl⟩
  rw [assemble_of_parse hparse]
  decide +kernel

end AsmLoader.Assembly
