import AsmLoader.Proofs.Assembly.Counting
import AsmLoader.Proofs.Assembly.Success
/-!
# Labels resolve

Whatever names a label in a source that is assembled leads to the first byte of the statement
that the label leads to, or to the end of the statements if it leads there. A branch in 32-bit
code does so in 32 bits, which differs from the address only over 2^31 bytes or more.
-/

namespace AsmLoader.Assembly

open Machine (CodeSize fitsDword landing)
open Source (Statement)

/-- The address of a statement among the parts of the code, or that of their end. -/
def addressAt (base : UInt64) (parts : List (List UInt8)) (k : Nat) : UInt64 :=
  base + UInt64.ofNat (offset parts k)

theorem length_field_bounds {codeSize : CodeSize} {e : Emission} {part field : List UInt8}
    (h : e.Written codeSize part (.direct field)) :
    1 ≤ field.length ∧ field.length ≤ 4 ∧ field.length ≤ part.length := by
  unfold Emission.Written at h
  split at h
  next => exact absurd h.2 (by simp)
  next =>
    cases h with
    | relative _ hfield =>
        simp only [List.length_append, hfield]
        omega
    | short _ hfield =>
        simp only [List.length_append, hfield]
        omega
    | near hfield =>
        simp only [List.length_append, hfield]
        omega

section Laid

variable {codeSize : CodeSize} {statements : List Statement} {es : List Emission}
  {target : Target} {parts : List (List UInt8)} {code : Code}
  (hlt : (bindLabels statements).1.places < 2 ^ 64)
  (hes : Emitted codeSize target.capacity statements es)
  (hlaid : Laid codeSize target.base (itemsOf codeSize statements es).reduceOption parts code)
include hlt hes hlaid

theorem addressIn_place {k : Nat} {place : PlaceId}
    (hplace : (numbersOf statements)[k]? = some place) (hne : place ≠ 0) :
    (destinationOf (itemsOf codeSize statements es).reduceOption place).addressIn target.base
        parts =
      addressAt target.base (partsOf (itemsOf codeSize statements es) statements parts) k := by
  have hk : k ≤ statements.length := by
    have hlength := (List.getElem?_eq_some_iff.mp hplace).1
    rw [length_numbersOf] at hlength
    omega
  rw [destinationOf_itemsOf hes hlt hplace hne, Destination.addressIn, addressAt,
    offset_partsOf hlaid hk]
  exact UInt64.add_zero _

/-- A place whose number does not fit 32 bits is that after code that fills the first 2^32
addresses and has no piece without a number. -/
theorem fills_of_place (hbase : target.base.toNat + code.length ≤ 2 ^ 32)
    (hdisplacement : HasDisplacement (itemsOf codeSize statements es).reduceOption parts)
    {k : Nat} {place : PlaceId} (hplace : (numbersOf statements)[k]? = some place)
    (hlarge : 2 ^ 32 ≤ place.toNat) :
    target.base.toNat = 0 ∧ parts.flatten.length = 2 ^ 32 ∧ place.toNat = 2 ^ 32 ∧
      k = statements.length ∧
      total ((itemsOf codeSize statements es).reduceOption.map Entry.unnamed) = 0 := by
  have hne : place ≠ 0 := by
    rintro rfl
    simp at hlarge
  have hcount := unnamed_add_places_lt hes hlt hlaid hdisplacement
  have hle := (mem_numbersOf_iff hlt hne).mp (List.mem_of_getElem? hplace)
  have hlength := hlaid.starts.length_le
  have hlastEntry : (lastEntry (bindLabels statements).2.2).length =
      if (bindLabels statements).2.2 = 0 then 0 else 1 := by
    unfold lastEntry
    split <;> rfl
  split at hlastEntry
  next => omega
  next hlast =>
    have hplaces : (bindLabels statements).1.places = 2 ^ 32 := by omega
    have hnumber : place = (bindLabels statements).2.2 := by
      rw [last_bindLabels hlast, hplaces, ← UInt64.toNat_inj]
      change place.toNat = 2 ^ 32
      omega
    have hk : k = statements.length :=
      eq_of_getElem?_numbersOf hlt hplace (hnumber ▸ getElem?_numbersOf_length statements) hne
    refine ⟨?_, ?_, ?_, hk, ?_⟩ <;> omega

/-- In code that ends within the first 2^32 addresses the number of a place leads to it even if
only 32 bits of the number are left, as long as some statement has a displacement. -/
theorem truncate_addressIn_place (hcode : codeSize = .bits32)
    (hbase : target.base.toNat + code.length ≤ 2 ^ 32)
    (hdisplacement : HasDisplacement (itemsOf codeSize statements es).reduceOption parts)
    {k : Nat} {place : PlaceId} (hplace : (numbersOf statements)[k]? = some place)
    (hne : place ≠ 0) :
    codeSize.truncate ((destinationOf (itemsOf codeSize statements es).reduceOption
        (codeSize.truncate place)).addressIn target.base parts) =
      codeSize.truncate (addressAt target.base
        (partsOf (itemsOf codeSize statements es) statements parts) k) := by
  subst hcode
  by_cases hsmall : place.toNat < 2 ^ 32
  · have htruncate : CodeSize.bits32.truncate place = place := by
      rw [← UInt64.toNat_inj, CodeSize.toNat_truncate, Nat.mod_eq_of_lt hsmall]
    rw [htruncate, addressIn_place hlt hes hlaid hplace hne]
  · -- The number has become 0, which leads to address 0, and so does the end of the code.
    obtain ⟨hzero, hflatten, hnumber, hk, hunnamed⟩ :=
      fills_of_place hlt hes hlaid hbase hdisplacement hplace (Nat.le_of_not_lt hsmall)
    have hoffset : offset (partsOf (itemsOf .bits32 statements es) statements parts) k =
        2 ^ 32 := by
      rw [hk, ← (arranged_partsOf hes hlaid).length_eq, offset_length,
        flatten_partsOf hes hlaid, hflatten]
    have htruncate : CodeSize.bits32.truncate place = 0 := by
      rw [← UInt64.toNat_inj, CodeSize.toNat_truncate, UInt64.toNat_zero]
      omega
    rw [htruncate, destinationOf, if_pos rfl, unnamedDestination, hunnamed, if_neg (by omega),
      Destination.addressIn, addressAt, hoffset, CodeSize.truncate_eq_iff, UInt64.toNat_add,
      hzero]
    rfl

omit hlt in
theorem hasDisplacement_of_reference {i : Nat} {s : Statement} (hs : statements[i]? = some s)
    {name : String} (hname : name ∈ s.references) :
    HasDisplacement (itemsOf codeSize statements es).reduceOption parts := by
  obtain ⟨e, place, he, -, hitem⟩ := getElem?_itemsOf hes hs
  obtain ⟨number, -, hnumber⟩ := reference?_emission he hname
  cases hfragment : e.fragment? codeSize with
  | none =>
      rw [eq_nothing_of_fragment? hfragment] at hnumber
      cases hnumber
  | some fragment =>
      rw [Emission.item?, hfragment, Option.map_some] at hitem
      have hentry := getElem?_reduceOption hitem
      obtain ⟨part, d, hpart, hwritten, hleads⟩ := hlaid.written _ _ hentry
      have hlands := (hleads _ (target?_of_written hfragment hwritten hnumber)).1
      refine ⟨_, _, part, d, hentry, hpart, hwritten, ?_⟩
      rintro rfl
      exact hlands

theorem resolves_reference
    (hbase : codeSize = .bits32 → target.base.toNat + code.length ≤ 2 ^ 32) {i : Nat}
    {s : Statement} (hs : statements[i]? = some s) {name : String}
    (hname : name ∈ s.references) :
    ∃ e part field k, emission (contextOf codeSize statements) target.capacity s = .ok e ∧
      (partsOf (itemsOf codeSize statements es) statements parts)[i]? = some part ∧
      e.Written codeSize part (.direct field) ∧ location? statements name = some k ∧
      codeSize.truncate (landing (addressAt target.base
          (partsOf (itemsOf codeSize statements es) statements parts) (i + 1)) field) =
        codeSize.truncate (addressAt target.base
          (partsOf (itemsOf codeSize statements es) statements parts) k) := by
  obtain ⟨e, part, d, he, hpart, hwritten, hleads⟩ := written_partsOf hes hlaid hs
  obtain ⟨place, hfind, hreference⟩ := reference?_emission he hname
  obtain ⟨k, hk, hplace⟩ := location?_of_find? hfind
  have hne := find?_bindLabels_ne_zero hlt hfind
  obtain ⟨hlands, hdirect⟩ := hleads place hreference
  cases hcode : codeSize with
  | bits64 =>
      subst hcode
      have hdestination := destinationOf_itemsOf hes hlt hplace hne
      obtain ⟨field, rfl⟩ := hdirect (.inr (by
        change (destinationOf _ place).isInside = true
        rw [hdestination]
        rfl))
      have haddress := addressIn_place hlt hes hlaid hplace hne
      exact ⟨e, part, field, k, he, hpart, hwritten, hk, hlands.trans haddress⟩
  | bits32 =>
      obtain ⟨field, rfl⟩ := hdirect (.inl hcode)
      have haddress := truncate_addressIn_place hlt hes hlaid hcode (hbase hcode)
        (hasDisplacement_of_reference hes hlaid hs hname) hplace hne
      subst hcode
      exact ⟨e, part, field, k, he, hpart, hwritten, hk, hlands.trans haddress⟩

end Laid

theorem fitsDword_of_parts {base : UInt64} {code : Code} {parts : List (List UInt8)}
    {part : List UInt8} {i k : Nat} (hcode : parts.flatten <+: code)
    (hbase : base.toNat + code.length ≤ 2 ^ 32) (hlength : code.length ≤ 2 ^ 31)
    (hpart : parts[i]? = some part) (hpos : 0 < part.length) :
    fitsDword (addressAt base parts k - addressAt base parts (i + 1)).toInt64 := by
  have hflatten := hcode.length_le
  have hnext := offset_succ hpart
  have htoNat (j : Nat) : (addressAt base parts j).toNat = base.toNat + offset parts j := by
    have hle := offset_le parts j
    rw [addressAt, UInt64.toNat_add, UInt64.toNat_ofNat']
    omega
  have hi := offset_le parts (i + 1)
  have hk := offset_le parts k
  apply Machine.fitsDword_of_near <;> rw [htoNat, htoNat] <;> omega

/-! ## A jump over 2^31 bytes -/

/-- A jump over some bytes, to the instruction after them. -/
def jumpOver (bytes : List UInt8) : List Entry :=
  [⟨0, .branch .jmp 1⟩, ⟨0, .data bytes⟩, ⟨1, .code ⟨[0x90], none, []⟩⟩]

def cellsOver (bytes : List UInt8) (reach : Reach) (settled : Bool) : List Cell :=
  [⟨0, .branch .jmp 1, .inside 2 0, 5, reach, settled⟩,
    ⟨0, .data bytes, .address 0, bytes.length, .unknown, true⟩,
    ⟨1, .code ⟨[0x90], none, []⟩, .address 0, 1, .unknown, true⟩]

section Over

variable {bytes : List UInt8} (hlength : bytes.length = 2 ^ 31)
include hlength

theorem addressesFrom_cellsOver (reach : Reach) (settled : Bool) :
    addressesFrom 0 ((cellsOver bytes reach settled).map Cell.size) = [0, 5, 0x80000005] := by
  simp only [cellsOver, List.map_cons, List.map_nil, addressesFrom, hlength]
  rfl

/-- The distance is -2^31 in four bytes, so that the jump stays as long as it is. -/
theorem sweepAll_cellsOver : sweepAll .bits32 0 maxSweeps (cellsOver bytes .unknown false) 0 =
    cellsOver bytes .near true := by
  have haddresses := addressesFrom_cellsOver hlength .unknown false
  unfold cellsOver at haddresses ⊢
  have hstart : (⟨0, 0, #[0, 5, 0x80000005], #[], 0⟩ : Sweep) = ⟨0, 0, _, #[], 0⟩ :=
    congrArg (fun addresses : List UInt64 => Sweep.mk 0 0 addresses.toArray #[] 0)
      haddresses.symm
  exact sweepAll_of_kept hstart rfl rfl (by simp) 4

omit hlength in
theorem cellsBytes_cellsOver (pointer : Nat → UInt64) :
    cellsBytes .bits32 #[0, 5, 0x80000005] pointer 0 (cellsOver bytes .near true) =
      .ok [[0xE9, 0, 0, 0, 0x80], bytes, [0x90]] := by
  have hjump : cellBytes .bits32 #[0, 5, 0x80000005] pointer 0
      ⟨0, .branch .jmp 1, .inside 2 0, 5, .near, true⟩ = .ok [0xE9, 0, 0, 0, 0x80] := by
    simp only [cellBytes, branchBytes]
    rfl
  simp only [cellsOver, cellsBytes, hjump, ok_bind]
  rfl

theorem writeBlock_jumpOver :
    writeBlock .bits32 0 (jumpOver bytes) = .ok ([0xE9, 0, 0, 0, 0x80] ++ bytes ++ [0x90]) := by
  have hcells : (jumpOver bytes).map (Cell.ofEntry .bits32 (jumpOver bytes)) =
      cellsOver bytes .unknown false := rfl
  unfold writeBlock
  dsimp only
  rw [hcells, sweepAll_cellsOver hlength, writeCells]
  dsimp only
  rw [addressesFrom_cellsOver hlength, cellsBytes_cellsOver, ok_bind, farCells_of_slot?]
  · rfl
  · simp [cellsOver, Cell.slot?]

end Over

def farStatements : List Statement :=
  [⟨1, [], .instruction "jmp" [.symbol "L"]⟩, ⟨2, [], .reserve .byte 0x80000000⟩,
    ⟨3, ["L"], .instruction "nop" []⟩]

def farEmissions : List Emission :=
  [.branch .jmp 1, .data (List.replicate (2 ^ 31) 0), .instruction (.bare .nop)]

theorem emission_reserve_far : emission (contextOf .bits32 farStatements) 0x100000000
    ⟨2, [], .reserve .byte 0x80000000⟩ = .ok (.data (List.replicate (2 ^ 31) 0)) := by
  have hne : (List.replicate (2 ^ 31) (0 : UInt8)).isEmpty = false := by
    rw [List.isEmpty_eq_false_iff, ne_eq, ← List.length_eq_zero_iff, List.length_replicate]
    decide
  have htotal : reservedBytes .byte 0x80000000 = 0x80000000 := rfl
  simp only [emission, htotal]
  rw [if_neg (by decide)]
  change Except.ok (Emission.ofBytes (List.replicate (2 ^ 31) 0)) = _
  rw [Emission.ofBytes, hne]
  rfl

theorem assembles_far : Assembles .bits32 ⟨0, 0x100000000, 32⟩ farStatements farEmissions
    ([0xE9, 0, 0, 0, 0x80] ++ List.replicate (2 ^ 31) 0 ++ [0x90]) where
  bits_eq := rfl
  modes_eq := by simp [farStatements]
  labels_nodup := by decide
  emitted := .cons rfl (.cons emission_reserve_far (.cons rfl .nil))
  written := by
    have hitems : (itemsOf .bits32 farStatements farEmissions).reduceOption =
        jumpOver (List.replicate (2 ^ 31) 0) := rfl
    rw [hitems]
    exact writeBlock_jumpOver List.length_replicate

/-! ## Sources -/

/-- The code of a source is that of its statements, one after the other, and every label that an
operand of a statement names is met: the end of the statement, the displacement that it is
written with, and the address of the statement that the label leads to are related as they should
be. -/
def MeetsLabels (meets : CodeSize → UInt64 → List UInt8 → UInt64 → Prop) (source : String)
    (target : Target) (code : Code) : Prop :=
  ∃ statements codeSize parts, Source.parse source = .ok statements ∧
    codeSize.bits = target.bitness ∧ Arranged codeSize target statements parts code ∧
    ∀ (i : Nat) (s : Statement) (name : String),
      statements[i]? = some s → name ∈ s.references →
        ∃ e part field k, emission (contextOf codeSize statements) target.capacity s = .ok e ∧
          parts[i]? = some part ∧ e.Written codeSize part (.direct field) ∧
          location? statements name = some k ∧
          meets codeSize (addressAt target.base parts (i + 1)) field
            (addressAt target.base parts k)

/-- Every label that an operand of a statement names resolves: the displacement of the statement,
added to the address of its end, is the address of the statement that the label leads to. In
32-bit code the sum is taken in 32 bits. That makes a difference just if four bytes cannot hold
the distance, and none if the code is no longer than 2^31 bytes. -/
def ResolvesLabels (source : String) (target : Target) (code : Code) : Prop :=
  MeetsLabels (fun codeSize next field address =>
    codeSize.truncate (landing next field) = codeSize.truncate address ∧
      (landing next field = address ↔
        codeSize = .bits64 ∨ fitsDword (address - next).toInt64) ∧
      (code.length ≤ 2 ^ 31 → landing next field = address)) source target code

theorem assemble_resolvesLabels {source : String} {target : Target} {code : Code}
    (hsource : source.length < 2 ^ 63)
    (hbase : target.bitness = 32 → target.base.toNat + code.length ≤ 2 ^ 32)
    (h : assemble source target = .ok code) : ResolvesLabels source target code := by
  obtain ⟨statements, codeSize, es, parts, hparse, hbits, hes, hlaid⟩ :=
    exists_laid_of_assemble h
  have hstatements := Source.length_statements_le hparse
  have hplaces := places_bindLabels_le statements
  have hlt : (bindLabels statements).1.places < 2 ^ 64 := by omega
  have hbase' : codeSize = .bits32 → target.base.toNat + code.length ≤ 2 ^ 32 := by
    rintro rfl
    exact hbase hbits.symm
  have harranged := arranged_partsOf hes hlaid
  refine ⟨statements, codeSize, _, hparse, hbits, harranged, ?_⟩
  intro i s name hs hname
  obtain ⟨e, part, field, k, he, hpart, hwritten, hk, hlands⟩ :=
    resolves_reference hlt hes hlaid hbase' hs hname
  refine ⟨e, part, field, k, he, hpart, hwritten, hk, hlands, ?_⟩
  cases codeSize with
  | bits64 => exact ⟨⟨fun _ => .inl rfl, fun _ => hlands⟩, fun _ => hlands⟩
  | bits32 =>
      obtain ⟨hpos, hle, hfieldLength⟩ := length_field_bounds hwritten
      have hiff := Machine.landing_eq_iff_fitsDword hle hlands
      refine ⟨by simpa using hiff, fun hlength => hiff.mpr ?_⟩
      exact fitsDword_of_parts harranged.starts (hbase' rfl) hlength hpart
        (Nat.lt_of_lt_of_le hpos hfieldLength)

theorem assemble_resolvesLabels_forward :
    ResolvesLabels "jmp done\nnop\ndone: ret" ⟨0x1000, 0x1000, 64⟩ [0xEB, 0x01, 0x90, 0xC3] :=
  assemble_resolvesLabels (by decide +kernel) (by decide) (by decide +kernel)

/-- In 32-bit code the displacement over 2^31 bytes leads as far back, and not to the label. -/
theorem far_label_not_reached :
    let source := "jmp L\nrb 0x80000000\nL: nop"
    let target : Target := ⟨0, 0x100000000, 32⟩
    let code : Code := [0xE9, 0, 0, 0, 0x80] ++ List.replicate (2 ^ 31) 0 ++ [0x90]
    assemble source target = .ok code ∧ target.base.toNat + code.length ≤ 2 ^ 32 ∧
      ¬MeetsLabels (fun _ next field address => landing next field = address) source target
        code := by
  intro source target code
  have hparse : Source.parse source = .ok farStatements := by decide +kernel
  refine ⟨?_, ?_, ?_⟩
  · rw [assemble_of_parse hparse]
    exact assembles_far.assembleStatements_eq _
  · rw [List.length_append, List.length_append, List.length_replicate]
    decide
  · rintro ⟨statements, codeSize, parts, hstatements, hbits, harranged, hmeets⟩
    obtain rfl : farStatements = statements := Except.ok.inj (hparse.symm.trans hstatements)
    obtain rfl : codeSize = .bits32 := by
      cases codeSize with
      | bits32 => rfl
      | bits64 => cases hbits
    obtain ⟨e, part, d, he, hpart, hwritten, -⟩ := harranged.written 1 _ rfl
    obtain ⟨e', part', field, k, -, -, hwritten', hk, hlands⟩ := hmeets 0 _ "L" rfl (by decide)
    cases Except.ok.inj (he.symm.trans emission_reserve_far)
    obtain rfl : k = 2 := Option.some.inj (hk.symm.trans (by decide))
    cases hwritten with
    | data =>
        have haddress : addressAt target.base parts 2 =
            addressAt target.base parts 1 + UInt64.ofNat (2 ^ 31) := by
          rw [addressAt, offset_succ hpart, List.length_replicate, addressAt, UInt64.ofNat_add,
            UInt64.add_assoc]
        exact Machine.landing_ne_of_le (length_field_bounds hwritten').2.1 (le_refl _)
          (by decide) (hlands.trans haddress)

end AsmLoader.Assembly
