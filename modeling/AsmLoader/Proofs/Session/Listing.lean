import AsmLoader.Proofs.Assembly.Disassembly
import AsmLoader.Proofs.Listing.Columns
import AsmLoader.Proofs.Session.RunSafety
/-!
# The listing of a unit

A listing decodes the code of a unit from its front, without any knowledge of the source. If the
source has no data and its branches name labels, the listing covers the code exactly: it has a
line for each instruction of the source.
-/

namespace AsmLoader.Session

open Assembly (BranchesToLabels IsCodeOf OnlyInstructs isInstruction offset)
open Region (Host)
open Source (Statement)

variable {σ : Type}

/-- This is the text that a unit was last assembled from, its symbols expanded, by an engine that
answers to it what the assembler does. The unit may have taken another source since. -/
def LastSource (e : Engine σ) (operations : List (Operation σ)) (unit : Handle)
    (source : String) : Prop :=
  ∃ before later u, operations = before ++ .assemble unit :: later ∧ .assemble unit ∉ later ∧
    (after e before).units.find? unit = some u ∧ u.expandedSource = source ∧
      ∀ target, (e.assemble u.engine source target).1 = Assembly.assemble source target

/-- A listing has one line for each instruction of a source, in order: at the address where the
bytes of this instruction start, with these bytes. The bytes of all lines are the code. -/
structure Covers (statements : List Statement) (entry : UInt64) (code : Code) (listing : String)
    (parts : List (List UInt8)) : Prop where
  written : List.Forall₂ (IsCodeOf statements) (statements.filter isInstruction) parts
  flatten_eq : parts.flatten = code
  length_eq : (Text.linesOf listing).length = (statements.filter isInstruction).length
  address_eq : ∀ (i : Nat) (line : String), (Text.linesOf listing)[i]? = some line →
    Listing.address? line = some (entry + UInt64.ofNat (offset parts i))
  bytes_eq : (Text.linesOf listing).map Listing.bytes? = parts.map some
  /-- No line stands for bytes that are no instruction. -/
  instruction : ∀ line ∈ Text.linesOf listing,
    ∃ address bytes decoded, line = (⟨address, bytes, some decoded⟩ : Listing.Line).shown

/-! ## The last place in a list -/

theorem eq_of_append_cons {α : Type} {x : α} {before before' later later' : List α}
    (h : before ++ x :: later = before' ++ x :: later') (hlater : x ∉ later)
    (hlater' : x ∉ later') : before = before' := by
  rcases List.append_eq_append_iff.mp h with ⟨between, rfl, hrest⟩ | ⟨between, rfl, hrest⟩
  · cases between with
    | nil => simp
    | cons y between =>
        obtain ⟨rfl, rfl⟩ := List.cons.inj hrest
        exact absurd (by simp) hlater
  · cases between with
    | nil => simp
    | cons y between =>
        obtain ⟨rfl, rfl⟩ := List.cons.inj hrest
        exact absurd (by simp) hlater'

/-- The code that a unit holds is that of the text it was last assembled from, for a 64-bit
target. -/
theorem exists_assemble_of_blob {e : Engine σ} {operations : List (Operation σ)} {unit : Handle}
    {u : CompilationUnit σ} {blob : Blob} {source : String}
    (hu : (after e operations).units.find? unit = some u) (hblob : u.blob = some blob)
    (hlast : LastSource e operations unit source) :
    ∃ target : Target, target.bitness = 64 ∧
      Assembly.assemble source target = .ok blob.bytes := by
  obtain ⟨before, later, asked, hoperations, hlater, hasked, hsource, hengine⟩ := hlast
  obtain ⟨k, -, before', later', asked', m, hoperations', hlater', hasked', -, -, hanswer, -⟩ :=
    lastAnswer_of_blob e operations hu hblob
  -- both have the place where the unit is assembled for the last time
  obtain rfl := eq_of_append_cons (hoperations.symm.trans hoperations') hlater hlater'
  obtain rfl := Option.some.inj (hasked.symm.trans hasked')
  rw [hsource, hengine] at hanswer
  exact ⟨m.target, rfl, hanswer⟩

/-! ## Coverage -/

theorem covers_render {statements : List Statement} {parts : List (List UInt8)}
    (h : List.Forall₂ (fun s part => IsCodeOf statements s part ∧ Machine.DecodesWhole part)
      (statements.filter isInstruction) parts) (entry : UInt64) :
    Covers statements entry parts.flatten (Listing.render entry parts.flatten) parts := by
  have hdecodes : ∀ part ∈ parts, Machine.DecodesWhole part := by
    intro part hpart
    obtain ⟨s, -, -, hwhole⟩ := exists_mem_of_forall₂ h.flip hpart
    exact hwhole
  obtain ⟨hbytes, haddress, hdecoded⟩ := Listing.shows_lines hdecodes entry
  have hlines := Listing.linesOf_render entry parts.flatten
  refine ⟨h.imp fun _ _ hpart => hpart.1, rfl, ?_, ?_, ?_, ?_⟩
  · rw [hlines, List.length_map, h.length_eq, ← List.length_map Listing.Line.bytes, hbytes]
  · intro i line hline
    rw [hlines, List.getElem?_map] at hline
    obtain ⟨l, hl, rfl⟩ := Option.map_eq_some_iff.mp hline
    rw [Listing.Line.address?_shown, haddress i l hl]
  · rw [hlines, Listing.map_bytes?_shown, hbytes]
  · intro line hline
    rw [hlines] at hline
    obtain ⟨⟨address, bytes, decoded⟩, hl, rfl⟩ := List.mem_map.mp hline
    obtain ⟨d, rfl⟩ := Option.isSome_iff_exists.mp (hdecoded _ hl)
    exact ⟨address, bytes, d, rfl⟩

/-- Whatever has been done to the managers and units of a process: the listing of a unit with
code covers it exactly, if the source that the unit was last assembled from has only instructions
and labels and all its branches name labels. -/
theorem listing_covers (e : Engine σ) (operations : List (Operation σ)) (unit : Handle)
    (u : CompilationUnit σ) (source : String) (entry : UInt64) (code : Code)
    (hu : (after e operations).units.find? unit = some u) (hentry : u.entry? = some entry)
    (hcode : u.code? = some code) (hlast : LastSource e operations unit source)
    (hsource : source.length < 2 ^ 63)
    (honly : ∀ statements, Source.parse source = .ok statements →
      ∀ s ∈ statements, OnlyInstructs s.body)
    (hbranches : BranchesToLabels source) :
    ∃ listing statements parts, u.listing? = some listing ∧
      Source.parse source = .ok statements ∧ Covers statements entry code listing parts := by
  obtain ⟨blob, hblob, rfl⟩ := Option.map_eq_some_iff.mp hcode
  obtain rfl : blob.entry = entry := by
    rw [CompilationUnit.entry?, hblob] at hentry
    exact Option.some.inj hentry
  obtain ⟨target, htarget, hassemble⟩ := exists_assemble_of_blob hu hblob hlast
  obtain ⟨statements, parts, hparse, hflatten, hparts⟩ :=
    Assembly.exists_instructions hsource htarget honly hbranches hassemble
  refine ⟨_, statements, parts, by rw [CompilationUnit.listing?, hblob, Option.map_some],
    hparse, ?_⟩
  rw [← hflatten]
  exact covers_render hparts blob.entry

/-- A loop over a label before it and a call of a label after it, at the address of
the region. -/
theorem listing_covers_loop :
    let source := "again: mov eax, 300\njne again\ncall done\ndone: ret"
    let operations : List (Operation Unit) :=
      [.openManager Host.standard (.ofCapacity 64), .createUnit (), .attach 0 0,
        .setSource 0 source, .assemble 0, .setSource 0 "nop"]
    ∃ u, (after Assembly.engine operations).units.find? 0 = some u ∧
      ∃ listing statements parts, u.listing? = some listing ∧
        Source.parse source = .ok statements ∧
        Covers statements 0x7F0000000000
          [0xB8, 0x2C, 1, 0, 0, 0x75, 0xF9, 0xE8, 0, 0, 0, 0, 0xC3] listing parts := by
  intro source operations
  have hparse : Source.parse source =
      .ok [⟨1, ["again"], .instruction "mov" [.register (.low .dword 0), .immediate 300]⟩,
        ⟨2, [], .instruction "jne" [.symbol "again"]⟩,
        ⟨3, [], .instruction "call" [.symbol "done"]⟩,
        ⟨4, ["done"], .instruction "ret" []⟩] := by decide +kernel
  have hstate : ((after Assembly.engine operations).units.find? 0).any (fun u =>
      u.entry? == some 0x7F0000000000 &&
        u.code? == some [0xB8, 0x2C, 1, 0, 0, 0x75, 0xF9, 0xE8, 0, 0, 0, 0, 0xC3]) := by
    decide +kernel
  obtain ⟨u, hu, hfound⟩ := (Option.any_eq_true _ _).mp hstate
  simp only [Bool.and_eq_true, beq_iff_eq] at hfound
  have hlast : LastSource Assembly.engine operations 0 source := by
    refine ⟨operations.take 4, operations.drop 5, _, rfl, ?_, rfl, ?_, fun _ => rfl⟩
    · simp [operations]
    · decide +kernel
  refine ⟨u, hu, listing_covers Assembly.engine operations 0 u source _ _ hu hfound.1
    hfound.2 hlast
    (by decide +kernel) ?_ ?_⟩
  · intro statements hstatements s hs
    cases hparse.symm.trans hstatements
    simp only [List.mem_cons, List.not_mem_nil, or_false] at hs
    rcases hs with rfl | rfl | rfl | rfl <;> trivial
  · intro statements hstatements s hs name m value hbody
    cases hparse.symm.trans hstatements
    simp only [List.mem_cons, List.not_mem_nil, or_false] at hs
    rcases hs with rfl | rfl | rfl | rfl <;> simp at hbody

end AsmLoader.Session
