import AsmLoader.Proofs.Assembly.FixedSource
import AsmLoader.Proofs.Assembly.ImmediateRange
/-!
# The layout of data

A source of data and reservations is laid out as it is written: one element after the other, with
nothing between them, and the same at any base. All that it can be refused for is a number that
an element has no room for.
-/

namespace AsmLoader.Machine

/-! ## Numbers in bytes -/

theorem ofLowBytes_lt (bytes : List UInt8) : ofLowBytes bytes < 256 ^ bytes.length := by
  induction bytes with
  | nil => simp [ofLowBytes]
  | cons b rest ih =>
      have hb := b.toNat_lt
      rw [ofLowBytes, List.length_cons, Nat.pow_succ]
      omega

theorem lowBytes_ofLowBytes (bytes : List UInt8) :
    lowBytes bytes.length (ofLowBytes bytes) = bytes := by
  induction bytes with
  | nil => rfl
  | cons b rest ih =>
      have hb := b.toNat_lt
      have hlow : (b.toNat + 256 * ofLowBytes rest) % 256 = b.toNat := by omega
      have hrest : (b.toNat + 256 * ofLowBytes rest) / 256 = ofLowBytes rest := by omega
      rw [List.length_cons, lowBytes, ofLowBytes, hlow, hrest, ih, UInt8.ofNat_toNat]

theorem pow_bytes (w : Width) : ((256 ^ w.bytes : Nat) : Int) = 2 ^ w.bits := by
  cases w <;> norm_num [Width.bits, Width.bytes]

theorem ofLowBytes_signedBytes (w : Width) (value : Int64) :
    (ofLowBytes (signedBytes w.bytes value) : Int) ≡ value.toInt [ZMOD 2 ^ w.bits] := by
  have hdvd : (2 ^ w.bits : Int) ∣ (2 ^ 64 : Nat) := by
    cases w <;> norm_num [Width.bits, Width.bytes]
  rw [Int.ModEq, signedBytes, ofLowBytes_lowBytes, Int.natCast_emod, pow_bytes, Int.emod_emod,
    toNat_toUInt64_emod value hdvd]

theorem eq_of_ofLowBytes_modEq {w : Width} {bytes bytes' : List UInt8}
    (hlength : bytes.length = w.bytes) (hlength' : bytes'.length = w.bytes)
    (h : (ofLowBytes bytes : Int) ≡ ofLowBytes bytes' [ZMOD 2 ^ w.bits]) : bytes = bytes' := by
  have hlt := ofLowBytes_lt bytes
  have hlt' := ofLowBytes_lt bytes'
  rw [hlength] at hlt
  rw [hlength'] at hlt'
  have hvalue : ofLowBytes bytes = ofLowBytes bytes' := by
    rw [← pow_bytes, Int.natCast_modEq_iff] at h
    exact h.eq_of_lt_of_lt hlt hlt'
  rw [← lowBytes_ofLowBytes bytes, ← lowBytes_ofLowBytes bytes', hlength, hlength', hvalue]

end AsmLoader.Machine

namespace AsmLoader.Source

open Machine (Width)

/-! ## Layouts -/

/-- The bytes of an element of data: those of a number, the lowest first; those of a text as they
are; and zeros where nothing is given. -/
inductive DataItem.Layout (unit : Width) : DataItem → List UInt8 → Prop where
  | value {v : Int64} {bytes : List UInt8} (hlength : bytes.length = unit.bytes)
      (hvalue : (Machine.ofLowBytes bytes : Int) ≡ v.toInt [ZMOD 2 ^ unit.bits]) :
      Layout unit (.value v) bytes
  | bytes (text : List UInt8) : Layout unit (.bytes text) text
  | uninitialized : Layout unit .uninitialized (List.replicate unit.bytes 0)

inductive Body.Layout : Body → List UInt8 → Prop where
  | empty : Layout .empty []
  | data {unit : Width} {items : List DataItem} {parts : List (List UInt8)}
      (h : List.Forall₂ (DataItem.Layout unit) items parts) :
      Layout (.data unit items) parts.flatten
  | reserve (unit : Width) (count : UInt64) :
      Layout (.reserve unit count) (List.replicate (count.toNat * unit.bytes) 0)

def Body.IsData : Body → Prop
  | empty | data .. | reserve .. => True
  | mode _ | instruction .. => False

/-- Every number in an element of less than 8 bytes is a signed or an unsigned number of its
bits. -/
def Body.ValuesFit : Body → Prop
  | data unit items => unit.bytes < 8 → ∀ v, .value v ∈ items →
      -2 ^ (unit.bits - 1) ≤ v.toInt ∧ v.toInt < 2 ^ unit.bits
  | _ => True

/-! ## No more than one layout -/

theorem DataItem.rightUnique_layout (unit : Width) :
    Relator.RightUnique (DataItem.Layout unit) := by
  intro item bytes bytes' h h'
  cases h with
  | bytes =>
      cases h'
      rfl
  | uninitialized =>
      cases h'
      rfl
  | value hlength hvalue =>
      cases h' with
      | value hlength' hvalue' =>
          exact Machine.eq_of_ofLowBytes_modEq hlength hlength' (hvalue.trans hvalue'.symm)

theorem Body.rightUnique_layout : Relator.RightUnique Body.Layout := by
  intro body bytes bytes' h h'
  cases h with
  | empty =>
      cases h'
      rfl
  | reserve =>
      cases h'
      rfl
  | @data unit items parts hparts =>
      cases h' with
      | @data _ _ parts' hparts' =>
          rw [(DataItem.rightUnique_layout unit).forall₂ hparts hparts']

end AsmLoader.Source

namespace AsmLoader.Assembly

open Machine (CodeSize Width)
open Source (Body DataItem Statement)

/-! ## Elements -/

theorem exists_wrapImmediate {w : Width} {v : Int64}
    (h : w.bytes < 8 → -2 ^ (w.bits - 1) ≤ v.toInt ∧ v.toInt < 2 ^ w.bits) (hw : w ≠ .qword) :
    ∃ v', wrapImmediate w v = .ok v' := by
  have hbytes : w.bytes < 8 := by
    cases w with
    | qword => exact absurd rfl hw
    | byte | word | dword => decide
  rcases wrapImmediate_cases hw v with ⟨-, v', hv', -⟩ | ⟨hout, -⟩
  · exact ⟨v', hv'⟩
  · refine absurd (h hbytes) ?_
    rwa [InBounds, numberBounds, if_neg hw] at hout

theorem exists_itemBytes (unit : Width) (item : DataItem) :
    ∃ bytes, item.Layout unit bytes ∧
      ((unit.bytes < 8 → ∀ v, item = .value v →
          -2 ^ (unit.bits - 1) ≤ v.toInt ∧ v.toInt < 2 ^ unit.bits) →
        itemBytes unit item = .ok bytes) := by
  cases item with
  | bytes text => exact ⟨text, .bytes text, fun _ => rfl⟩
  | uninitialized => exact ⟨_, .uninitialized, fun _ => rfl⟩
  | value v =>
      refine ⟨Machine.signedBytes unit.bytes v, .value (Machine.length_signedBytes _ _)
        (Machine.ofLowBytes_signedBytes unit v), fun hfit => ?_⟩
      by_cases hunit : unit = .qword
      · subst hunit
        rfl
      · obtain ⟨v', hv'⟩ := exists_wrapImmediate (fun hbytes => hfit hbytes v rfl) hunit
        simp only [itemBytes, ne_eq, hunit, not_false_eq_true, if_true, hv']
        rfl

/-! ## Statements -/

theorem toNat_reservedBytes {unit : Width} {count : UInt64}
    (h : count.toNat * unit.bytes < UInt64.size) :
    (reservedBytes unit count).toNat = count.toNat * unit.bytes := by
  unfold reservedBytes
  dsimp only
  rw [if_pos h, UInt64.toNat_ofNat_of_lt' h]

theorem exists_layout {s : Statement} (hdata : s.body.IsData) {capacity : UInt64}
    (hroom : ∀ unit count, s.body = .reserve unit count →
      count.toNat * unit.bytes ≤ capacity.toNat) (codeSize : CodeSize) (c : Context) :
    ∃ part, s.body.Layout part ∧ (s.body.ValuesFit → FixedBytes codeSize c capacity s part) := by
  unfold FixedBytes emission
  cases hbody : s.body with
  | empty => exact ⟨[], .empty, fun _ => ⟨.nothing, rfl, rfl⟩⟩
  | mode | instruction =>
      rw [hbody] at hdata
      cases hdata
  | data unit items =>
      obtain ⟨parts, hparts⟩ := exists_forall₂ fun item (_ : item ∈ items) =>
        exists_itemBytes unit item
      refine ⟨parts.flatten, .data (hparts.imp fun _ _ h => h.1), fun hfit => ?_⟩
      have hitems : ∀ item ∈ items, unit.bytes < 8 → ∀ v, item = .value v →
          -2 ^ (unit.bits - 1) ≤ v.toInt ∧ v.toInt < 2 ^ unit.bits :=
        fun item hitem hunit v hv => hfit hunit v (hv ▸ hitem)
      have hbytes : items.mapM (itemBytes unit) = .ok parts :=
        mapM_eq_ok_iff.mpr (((List.forall₂_and_left _ _).mpr ⟨hitems, hparts⟩).imp
          fun _ _ h => h.2.2 h.1)
      refine ⟨.ofBytes parts.flatten, ?_, bytes?_ofBytes codeSize _⟩
      simp only [hbytes, ok_bind]
      rfl
  | reserve unit count =>
      have hle := hroom unit count hbody
      have htotal := toNat_reservedBytes (Nat.lt_of_le_of_lt hle capacity.toNat_lt)
      have hfits : ¬capacity < reservedBytes unit count := by
        rw [UInt64.lt_iff_toNat_lt, htotal]
        omega
      refine ⟨_, .reserve unit count, fun _ => ⟨_, if_neg hfits, ?_⟩⟩
      rw [bytes?_ofBytes, htotal]

/-! ## Sources -/

theorem valuesFit_of_assemble {source : String} {target : Target} {code : Code}
    {statements : List Statement} (hparse : Source.parse source = .ok statements)
    (h : assemble source target = .ok code) : ∀ s ∈ statements, s.body.ValuesFit := by
  intro s hs
  rw [assemble_of_parse hparse] at h
  obtain ⟨codeSize, es, hassembles⟩ := exists_assembles h
  obtain ⟨e, -, he⟩ := exists_mem_of_forall₂ hassembles.emitted hs
  unfold Body.ValuesFit
  split
  next unit items hbody => exact fun _ v hv => values_of_emission he hbody hv
  next => trivial

/-- A source of data, whose labels are defined once each and whose reservations fit the region,
has the bytes of its statements one after the other as its code, at any base, if all numbers fit
their elements; and otherwise no code. -/
theorem assemble_data {source : String} {statements : List Statement} {target : Target}
    (hparse : Source.parse source = .ok statements) (hdata : ∀ s ∈ statements, s.body.IsData)
    (hlabels : (statements.flatMap Statement.labels).Nodup)
    (hroom : ∀ s ∈ statements, ∀ unit count, s.body = .reserve unit count →
      count.toNat * unit.bytes ≤ target.capacity.toNat)
    (hbitness : target.bitness = 32 ∨ target.bitness = 64) :
    ∃ parts, List.Forall₂ (fun s part => s.body.Layout part) statements parts ∧
      ∀ base code, assemble source { target with base } = .ok code ↔
        (∀ s ∈ statements, s.body.ValuesFit) ∧ code = parts.flatten := by
  obtain ⟨codeSize, hbits⟩ := exists_bits_eq_iff.mpr hbitness
  have hmodes : ∀ s ∈ statements, ∀ size, s.body = .mode size → size.bits = target.bitness := by
    intro s hs size hbody
    have hnone := hdata s hs
    rw [hbody] at hnone
    cases hnone
  obtain ⟨parts, hparts⟩ := exists_forall₂ fun s hs =>
    exists_layout (hdata s hs) (hroom s hs) codeSize (contextOf codeSize statements)
  have hcode (hfit : ∀ s ∈ statements, s.body.ValuesFit) (base : UInt64) :
      assemble source { target with base } = .ok parts.flatten := by
    have hfixed := ((List.forall₂_and_left _ _).mpr ⟨hfit, hparts⟩).imp fun _ _ h => h.2.2 h.1
    exact assemble_of_fixedBytes hparse hbits hmodes hlabels hfixed
  refine ⟨parts, hparts.imp fun _ _ h => h.1, fun base code => ⟨fun h => ?_, ?_⟩⟩
  · have hfit := valuesFit_of_assemble hparse h
    exact ⟨hfit, Except.ok.inj (h.symm.trans (hcode hfit base))⟩
  · rintro ⟨hfit, rfl⟩
    exact hcode hfit base

/-- Elements and a reservation at a base from which the code runs over the end of the address
space. -/
theorem assemble_data_over_end :
    let statements : List Statement :=
      [⟨1, [], .data .word [.value 0x6261, .value 0xFFFF, .uninitialized]⟩,
        ⟨2, [], .reserve .dword 2⟩]
    let code : Code := [0x61, 0x62, 0xFF, 0xFF, 0, 0] ++ [0, 0, 0, 0, 0, 0, 0, 0]
    Source.parse "dw 'ab', 65535, ?\nrd 2" = .ok statements ∧
      (∀ s ∈ statements, s.body.ValuesFit) ∧
        assemble "dw 'ab', 65535, ?\nrd 2" ⟨0xFFFFFFFFFFFFFFF8, 8, 32⟩ = .ok code := by
  intro statements code
  have hparse : Source.parse "dw 'ab', 65535, ?\nrd 2" = .ok statements := by decide +kernel
  have hdata : ∀ s ∈ statements, s.body.IsData := by simp [statements, Body.IsData]
  have hroom : ∀ s ∈ statements, ∀ unit count, s.body = .reserve unit count →
      count.toNat * unit.bytes ≤ (⟨0x10000000, 8, 32⟩ : Target).capacity.toNat := by
    simp only [statements, List.forall_mem_cons, reduceCtorEq, Body.reserve.injEq]
    refine ⟨nofun, ?_, nofun⟩
    rintro _ _ ⟨rfl, rfl⟩
    decide
  obtain ⟨parts, -, hcode⟩ := assemble_data hparse hdata (by decide) hroom (.inl rfl)
  have hvalue : assemble "dw 'ab', 65535, ?\nrd 2" ⟨0x10000000, 8, 32⟩ = .ok code := by
    rw [assemble_of_parse hparse]
    decide +kernel
  obtain ⟨hfit, hflatten⟩ := (hcode 0x10000000 code).mp hvalue
  exact ⟨hparse, hfit, (hcode _ _).mpr ⟨hfit, hflatten⟩⟩

end AsmLoader.Assembly
