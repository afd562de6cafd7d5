import AsmLoader.Proofs.Assembly.LabelResolution
/-!
# Branches to numbers

A branch to a number leads to that address, unless the number is taken for a place of the code:
places are numbered from 1, and 0 stands for the only piece without a number if there is just
one.
-/

namespace AsmLoader.Assembly

open Machine (CodeSize Transfer)
open Source (Statement)

def Mnemonic.transfer? : Mnemonic → Option Transfer
  | call => some .call
  | jmp => some .jmp
  | jcc condition => some (.jcc condition)
  | _ => none

def unnamedOf (item : Option Entry) : Nat :=
  item.elim 0 Entry.unnamed

/-- The place that a number is taken for: the item, and the offset in it. -/
def capture? (statements : List Statement) (items : List (Option Entry)) (number : UInt64) :
    Option (Nat × Nat) :=
  if number = 0 then
    if total (items.map unnamedOf) = 1 then
      (items.findIdx? (unnamedOf · == 1)).map fun k =>
        (k, (items[k]?.getD none).elim 0 Entry.unnamedOffset)
    else none
  else ((numbersOf statements).findIdx? (· == number)).map (·, 0)

theorem findIdx?_reduceOption {α : Type} (items : List (Option α)) (p : α → Bool) :
    items.reduceOption.findIdx? p =
      (items.findIdx? fun item => item.elim false p).map (rank items) := by
  induction items with
  | nil => rfl
  | cons item items ih =>
      cases item with
      | none =>
          rw [List.reduceOption_cons_of_none, ih, List.findIdx?_cons, Option.elim_none,
            if_neg Bool.false_ne_true, Option.map_map]
          rfl
      | some x =>
          rw [List.reduceOption_cons_of_some, List.findIdx?_cons, List.findIdx?_cons, ih,
            Option.elim_some]
          split
          next => rfl
          next =>
            have hrank : rank (some x :: items) ∘ (· + 1) = (· + 1) ∘ rank items :=
              funext (rank_succ_some x items)
            rw [Option.map_map, Option.map_map, hrank]

theorem total_map_reduceOption {α : Type} (items : List (Option α)) (f : α → Nat) :
    total (items.map fun item => item.elim 0 f) = total (items.reduceOption.map f) := by
  induction items with
  | nil => rfl
  | cons item items ih =>
      cases item with
      | none => simpa [total] using ih
      | some x => simpa [total] using ih

section Laid

variable {codeSize : CodeSize} {statements : List Statement} {es : List Emission}
  {target : Target} {parts : List (List UInt8)} {code : Code}
  (hes : Emitted codeSize target.capacity statements es)
  (hlaid : Laid codeSize target.base (itemsOf codeSize statements es).reduceOption parts code)
include hes hlaid

theorem addressIn_inside {k shift : Nat}
    (hk : k < (itemsOf codeSize statements es).length) :
    (Destination.inside (rank (itemsOf codeSize statements es) k) shift).addressIn target.base
        parts =
      addressAt target.base (partsOf (itemsOf codeSize statements es) statements parts) k +
        UInt64.ofNat shift := by
  rw [length_itemsOf hes] at hk
  rw [Destination.addressIn, addressAt, offset_partsOf hlaid (Nat.le_of_lt_succ hk)]

theorem addressIn_unnamedDestination :
    (unnamedDestination (itemsOf codeSize statements es).reduceOption).addressIn target.base
        parts =
      (capture? statements (itemsOf codeSize statements es) 0).elim 0 fun place =>
        addressAt target.base (partsOf (itemsOf codeSize statements es) statements parts)
          place.1 +
          UInt64.ofNat place.2 := by
  have htotal : total ((itemsOf codeSize statements es).map unnamedOf) =
      total ((itemsOf codeSize statements es).reduceOption.map Entry.unnamed) :=
    total_map_reduceOption _ _
  have hfind : (itemsOf codeSize statements es).reduceOption.findIdx? (·.unnamed == 1) =
      ((itemsOf codeSize statements es).findIdx? (unnamedOf · == 1)).map
        (rank (itemsOf codeSize statements es)) := by
    rw [findIdx?_reduceOption]
    congr 2
    funext item
    cases item <;> rfl
  rw [unnamedDestination, capture?, if_pos rfl, htotal, hfind]
  split
  next =>
    cases hk : (itemsOf codeSize statements es).findIdx? (unnamedOf · == 1) with
    | none => rfl
    | some k =>
        obtain ⟨hlength, hunnamed, -⟩ := List.findIdx?_eq_some_iff_getElem.mp hk
        have hget := List.getElem?_eq_getElem hlength
        cases hitem : (itemsOf codeSize statements es)[k] with
        | none =>
            rw [hitem] at hunnamed
            cases hunnamed
        | some e =>
            rw [hitem] at hget
            rw [Option.map_some, Option.map_some]
            dsimp only
            rw [getElem?_reduceOption hget, hget]
            exact addressIn_inside hes hlaid hlength
  next => rfl

/-- A number leads to the place that it is taken for, and to itself as an address otherwise. -/
theorem addressIn_destinationOf (number : UInt64) :
    (destinationOf (itemsOf codeSize statements es).reduceOption number).addressIn target.base
        parts =
      (capture? statements (itemsOf codeSize statements es) number).elim number fun place =>
        addressAt target.base (partsOf (itemsOf codeSize statements es) statements parts)
          place.1 +
          UInt64.ofNat place.2 := by
  by_cases hzero : number = 0
  · rw [hzero, destinationOf, if_pos rfl]
    exact addressIn_unnamedDestination hes hlaid
  · have hfind : (itemsOf codeSize statements es).reduceOption.findIdx? (·.place == number) =
        ((numbersOf statements).findIdx? (· == number)).map
          (rank (itemsOf codeSize statements es)) := by
      rw [findIdx?_reduceOption, ← map_place_itemsOf hes, List.findIdx?_map]
      congr 2
      funext item
      cases item with
      | none => simp [Ne.symm hzero]
      | some e => rfl
    rw [destinationOf, if_neg hzero, capture?, if_neg hzero, hfind]
    cases hk : (numbersOf statements).findIdx? (· == number) with
    | none => rfl
    | some k =>
        have hlength := (List.findIdx?_eq_some_iff_getElem.mp hk).1
        rw [← map_place_itemsOf hes, List.length_map] at hlength
        exact addressIn_inside hes hlaid hlength

end Laid

theorem exists_one_of_total_eq_one {ns : List Nat} (h : total ns = 1) : 1 ∈ ns := by
  induction ns with
  | nil => cases h
  | cons n ns ih =>
      rw [total] at h
      by_cases hn : n = 1
      · exact hn ▸ List.mem_cons_self
      · exact List.mem_cons_of_mem _ (ih (by omega))

theorem isSome_capture?_iff {statements : List Statement} {items : List (Option Entry)}
    (hlt : (bindLabels statements).1.places < 2 ^ 64) (number : UInt64) :
    (capture? statements items number).isSome ↔
      if number = 0 then total (items.map unnamedOf) = 1
      else number.toNat ≤ (bindLabels statements).1.places := by
  unfold capture?
  split
  next =>
    split
    next htotal =>
      obtain ⟨item, hitem, hone⟩ := List.mem_map.mp (exists_one_of_total_eq_one htotal)
      rw [Option.isSome_map, List.findIdx?_isSome, List.any_eq_true]
      exact ⟨fun _ => htotal, fun _ => ⟨item, hitem, by simpa using hone⟩⟩
    next htotal => simp [htotal]
  next hne =>
    rw [Option.isSome_map, List.findIdx?_isSome, ← mem_numbersOf_iff hlt hne, List.any_eq_true]
    simp

theorem emission_of_immediate {c : Context} {capacity : UInt64} {s : Statement} {name : String}
    {mnemonic : Mnemonic} {transfer : Transfer} {value : Int64}
    (hbody : s.body = .instruction name [.immediate value])
    (hname : Mnemonic.ofName? name = some mnemonic)
    (htransfer : mnemonic.transfer? = some transfer) :
    emission c capacity s = .ok (.branch transfer value.toUInt64) := by
  have hselect : select c.codeSize name [.immediate value] =
      .ok (.branch transfer value.toUInt64) := by
    rw [select_of_ofName? hname]
    cases mnemonic <;> cases htransfer <;>
      simp [Mnemonic.isLongModeOnly, selectKnown, selectTransfer, selectJcc]
  simp only [emission, hbody]
  change (do
    let selected ← select c.codeSize name [.immediate value]
    return Emission.ofSelected selected) = _
  rw [hselect]
  rfl

/-- The code of a source is that of its statements, one after the other, and every branch of
a statement to an immediate leads to that address, by itself or through eight bytes of the
code, unless the number is taken for a place of the code. That is so just for the numbers up
to that of the last place, and for 0 if just one piece has no number; then the branch leads
to that place. -/
def BranchesToNumbers (source : String) (target : Target) (code : Code) : Prop :=
  ∃ statements es parts, Source.parse source = .ok statements ∧
    Emitted .bits64 target.capacity statements es ∧
    Arranged .bits64 target statements parts code ∧
    (∀ number : UInt64,
      (capture? statements (itemsOf .bits64 statements es) number).isSome ↔
        if number = 0 then total ((itemsOf .bits64 statements es).map unnamedOf) = 1
        else number.toNat ≤ (bindLabels statements).1.places) ∧
    ∀ (i : Nat) (s : Statement) (name : String) (mnemonic : Mnemonic) (transfer : Transfer)
      (value : Int64),
      statements[i]? = some s → s.body = .instruction name [.immediate value] →
        Mnemonic.ofName? name = some mnemonic → mnemonic.transfer? = some transfer →
          ∃ part d, parts[i]? = some part ∧
            (Emission.branch transfer value.toUInt64).Written .bits64 part d ∧
            d.LeadsTo .bits64 target.base code (addressAt target.base parts (i + 1))
              ((capture? statements (itemsOf .bits64 statements es) value.toUInt64).elim
                value.toUInt64 fun place =>
                  addressAt target.base parts place.1 + UInt64.ofNat place.2)

theorem assemble_branchesToNumbers {source : String} {target : Target} {code : Code}
    (hsource : source.length < 2 ^ 63) (htarget : target.bitness = 64)
    (h : assemble source target = .ok code) : BranchesToNumbers source target code := by
  obtain ⟨statements, codeSize, es, parts, hparse, hbits, hes, hlaid⟩ :=
    exists_laid_of_assemble h
  have hstatements := Source.length_statements_le hparse
  have hplaces := places_bindLabels_le statements
  have hlt : (bindLabels statements).1.places < 2 ^ 64 := by omega
  have hcode : codeSize = .bits64 := by
    cases codeSize with
    | bits32 => cases hbits.trans htarget
    | bits64 => rfl
  subst hcode
  refine ⟨statements, es, _, hparse, hes, arranged_partsOf hes hlaid, isSome_capture?_iff hlt,
    ?_⟩
  intro i s name mnemonic transfer value hs hbody hname htransfer
  obtain ⟨e, part, d, he, hpart, hwritten, hleads⟩ := written_partsOf hes hlaid hs
  cases he.symm.trans (emission_of_immediate hbody hname htransfer)
  obtain ⟨hlands, -⟩ := hleads value.toUInt64 rfl
  rw [addressIn_destinationOf hes hlaid] at hlands
  exact ⟨part, d, hpart, hwritten, hlands⟩

/-- The first branch leads to the label, whose place has the number 1, and the second through
eight bytes of the code. -/
theorem assemble_branchesToNumbers_captured :
    BranchesToNumbers "x: nop\njmp 1\ncall 0x7fff00000000" ⟨0x10000000, 0x1000, 64⟩
      [0x90, 0xEB, 0xFD, 0xFF, 0x15, 0x07, 0, 0, 0, 0xCC, 0xCC, 0xCC, 0xCC, 0xCC, 0xCC, 0xCC,
        0, 0, 0, 0, 0xFF, 0x7F, 0, 0] :=
  assemble_branchesToNumbers (by decide +kernel) rfl (by decide +kernel)

end AsmLoader.Assembly
