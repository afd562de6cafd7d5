import AsmLoader.Proofs.Assembly.Encoded
import AsmLoader.Proofs.Assembly.Rejection
/-!
# Sizes of memory operands

The bytes of a statement access memory of the size that its operand was given. Calls and jumps do
not: an address is read from memory at the width of the code, whatever size was written.
-/

namespace AsmLoader.Assembly

open Machine (Address CodeSize Instruction Place Width readAccess?)
open Source (Location Operand Statement)

/-- The width at which memory of a size is accessed. -/
def accessWidth (codeSize : CodeSize) : Mnemonic → Width → Width
  | .call, _ | .jmp, _ => nativeWidth codeSize
  | _, w => w

/-- The code of a source is that of its statements, one after the other, and the bytes of a
statement with a memory operand that has a size access memory of that size, unless they call or
jump to an address that they read. -/
def KeepsMemorySizes (source : String) (target : Target) (code : Code) : Prop :=
  ∃ statements codeSize parts, Source.parse source = .ok statements ∧
    codeSize.bits = target.bitness ∧ Arranged codeSize target statements parts code ∧
    ∀ (i : Nat) (s : Statement) (name : String) (m : Mnemonic) (operands : List Operand)
        (w : Width)
      (location : Location),
      statements[i]? = some s → s.body = .instruction name operands →
        Mnemonic.ofName? name = some m → m ≠ .lea → .memory (some w) location ∈ operands →
          ∃ part, parts[i]? = some part ∧
            readAccess? codeSize part = some (accessWidth codeSize m w)

/-- The line of a statement that has no code is reported, and no source is refused without a
diagnostic. -/
def ReportsRefusals (source : String) (target : Target) : Prop :=
  (∀ reports, assemble source target = .error reports → reports ≠ []) ∧
    ∀ (statements : List Statement) (codeSize : CodeSize) (s : Statement) (e : StatementError),
      Source.parse source = .ok statements → effectiveSize? target statements = some codeSize →
        s ∈ statements → emission (contextOf codeSize statements) target.capacity s = .error e →
          ∃ reports, assemble source target = .error reports ∧
            reportAt (Text.linesOf source) s.line e.message ∈ reports

/-! ## What is selected for memory -/

theorem Context.exists_memory_mem {c : Context} {operands : List Operand} {args : List Argument}
    {size : Option Width} {location : Location} (h : operands.mapM c.argument = .ok args)
    (hmemory : .memory size location ∈ operands) : ∃ address, .memory size address ∈ args := by
  obtain ⟨a, ha, hargument⟩ := exists_mem_of_forall₂ (mapM_eq_ok_iff.mp h) hmemory
  obtain ⟨address, -, haddress⟩ := bind_eq_ok_iff.mp hargument
  cases haddress
  exact ⟨address, ha⟩

section

variable {codeSize : CodeSize} {m : Mnemonic} {args : List Argument} {w : Width}
  {address : Address PlaceId}

theorem Argument.At.access?_eq {w' : Width} {p : Place PlaceId}
    (h : (Argument.memory (some w) address).At w' p) : p.access? w' = some w := by
  cases h with
  | memory hsize =>
      obtain rfl : w = w' := by simpa using hsize
      rfl

theorem Argument.access?_of_eq_ofPlace {p : Place PlaceId}
    (h : .memory (some w) address = ofPlace p) : p.access? p.width = some w := by
  cases p with
  | register r => cases h
  | memory =>
      cases h
      rfl

/-- An instruction that is selected for memory of a size accesses memory of that size, but for
calls and jumps. -/
theorem Selects.exists_access {selected : Selected} (h : Selects codeSize m args selected)
    (hm : m ≠ .lea) (hmemory : .memory (some w) address ∈ args) :
    ∃ i, selected = .instruction i ∧ i.access? = some (accessWidth codeSize m w) := by
  cases h with
  | @mov dst _ _ h | @arith _ dst _ _ h | @test dst _ _ h | @xchg dst _ _ h =>
      obtain rfl : _ = dst := by simpa using hmemory
      exact ⟨_, rfl, h.access?_eq⟩
  | @testSwapped src _ _ h | @xchgSwapped src _ _ h | @movLoad _ src _ h | @arithLoad _ _ src _ h
  | @movsxd _ src _ _ h | @imul _ src _ _ h | @cmov _ _ src _ _ h =>
      obtain rfl : _ = src := by simpa using hmemory
      exact ⟨_, rfl, h.access?_eq⟩
  | @imulPlaceImmediate _ src _ _ _ _ h =>
      obtain rfl : _ = src := by simpa using hmemory
      exact ⟨_, rfl, h.access?_eq⟩
  | @push src _ h | @pop src _ h | @set _ src _ h =>
      obtain rfl : _ = src := by simpa using hmemory
      exact ⟨_, rfl, h.access?_eq⟩
  | movMemory | testImmediateSwapped =>
      obtain ⟨rfl, -⟩ : w = _ ∧ address = _ := by simpa using hmemory
      exact ⟨_, rfl, rfl⟩
  | @arithImmediate _ p | @testImmediate p | @shift _ p | @shiftByCl _ p | @unary _ p =>
      have hplace : .memory (some w) address = Argument.ofPlace p := by simpa using hmemory
      exact ⟨_, rfl, Argument.access?_of_eq_ofPlace hplace⟩
  | @movzx _ p | @movsx _ p =>
      have hplace : .memory (some w) address = Argument.ofPlace p := by simpa using hmemory
      exact ⟨_, rfl, Argument.access?_of_eq_ofPlace hplace⟩
  | callMemory | jmpMemory => exact ⟨_, rfl, rfl⟩
  | lea | leaLabel => exact absurd rfl hm
  | bare | retPop | movFull | movRegister | movLabel | imulImmediate | pushImmediate
  | branchLabel | branchImmediate | callRegister | jmpRegister =>
      simp at hmemory

end

/-! ## Whole sources -/

theorem keepsMemorySizes_of_assemble {source : String} {target : Target} {code : Code}
    (h : assemble source target = .ok code) : KeepsMemorySizes source target code := by
  obtain ⟨statements, codeSize, es, parts, hparse, hbits, hes, hlaid⟩ :=
    exists_laid_of_assemble h
  have harranged := arranged_partsOf hes hlaid
  refine ⟨statements, codeSize, _, hparse, hbits, harranged, ?_⟩
  intro i s name m operands w location hs hbody hname hm hmemory
  obtain ⟨args, selected, part, hargs, hselects, hpart, hencoded⟩ :=
    harranged.exists_selects hs hbody hname
  obtain ⟨address, haddress⟩ := Context.exists_memory_mem hargs hmemory
  obtain ⟨instruction, rfl, haccess⟩ := hselects.exists_access hm haddress
  obtain ⟨⟨encoded, hencode, hfilled⟩, hlegacy⟩ := hencoded instruction rfl
  exact ⟨part, hpart,
    Instruction.readAccess?_of_encode hencode hfilled hlegacy hselects.regular haccess⟩

/-- The code of a source accesses memory at the sizes that its operands were given, but for calls
and jumps, and a source that is refused is refused with a diagnostic. -/
theorem assemble_memorySizes (source : String) (target : Target) :
    (∀ code, assemble source target = .ok code → KeepsMemorySizes source target code) ∧
      ReportsRefusals source target :=
  ⟨fun _ h => keepsMemorySizes_of_assemble h, fun _ h => reports_ne_nil h,
    fun _ _ _ _ hparse hsize hs he => exists_error_of_emission hparse hsize hs he⟩

/-- The size of the first operand is kept. The second is of four bytes, and its call
reads eight. -/
theorem assemble_memorySizes_call_dword :
    KeepsMemorySizes "inc word [rax]\ncall dword [rax]" ⟨0x10000000, 0x1000, 64⟩
        [0x66, 0xFF, 0x00, 0xFF, 0x10] ∧
      readAccess? .bits64 [0x66, 0xFF, 0x00] = some .word ∧
      readAccess? .bits64 [0xFF, 0x10] = some .qword := by
  have hcode : assemble "inc word [rax]\ncall dword [rax]" ⟨0x10000000, 0x1000, 64⟩ =
      .ok [0x66, 0xFF, 0x00, 0xFF, 0x10] := by decide +kernel
  exact ⟨(assemble_memorySizes _ _).1 _ hcode, by decide, by decide⟩

end AsmLoader.Assembly
