import AsmLoader.Proofs.Assembly.Selects
/-!
# Known mnemonics

An instruction is unknown by its name alone, although names and operands are looked at together.
The known names are those of a list, and those of the three families that end in the suffix of a
condition; which operands they take is no part of it. So a name that is known is never reported
as unknown, however it is used, and each has a use in 64-bit code.
-/

namespace AsmLoader.Assembly

open Machine (Arith CodeSize Condition Instruction Place Register Shift Transfer Unary
  Width)

namespace Mnemonic

variable {name : String}

/-! ## The families -/

theorem mem_all (c : Condition) : c ∈ Condition.all := by
  cases c <;> decide

theorem ofSuffix?_of_mem_suffixes :
    ∀ c ∈ Condition.all, ∀ suffix ∈ c.suffixes, Condition.ofSuffix? suffix = some c := by
  decide +kernel

theorem ofSuffix?_eq_some_iff {suffix : String} {c : Condition} :
    Condition.ofSuffix? suffix = some c ↔ suffix ∈ c.suffixes := by
  constructor
  · intro h
    simpa using List.find?_some h
  · exact ofSuffix?_of_mem_suffixes c (mem_all c) suffix

theorem ofFamily?_eq_some_iff {start : String} {make : Condition → Mnemonic} {m : Mnemonic} :
    ofFamily? start make name = some m ↔
      ∃ condition : Condition, ∃ suffix ∈ condition.suffixes,
        name = start ++ suffix ∧ m = make condition := by
  simp only [ofFamily?, Option.bind_eq_bind, Option.bind_eq_some_iff, suffix?_eq_some_iff,
    ofSuffix?_eq_some_iff, Option.pure_def, Option.some.injEq]
  constructor
  · rintro ⟨suffix, hname, condition, hsuffix, rfl⟩
    exact ⟨condition, suffix, hsuffix, hname, rfl⟩
  · rintro ⟨condition, suffix, hsuffix, hname, rfl⟩
    exact ⟨suffix, hname, condition, hsuffix, rfl⟩

theorem isKnown_iff : isKnown name ↔ name ∈ plainNames ∨
    ∃ start ∈ familyStarts, ∃ condition : Condition, ∃ suffix ∈ condition.suffixes,
      name = start ++ suffix := by
  have hfamily (start : String) :
      ((suffix? start name).any fun suffix => (Condition.ofSuffix? suffix).isSome) = true ↔
        ∃ condition : Condition, ∃ suffix ∈ condition.suffixes, name = start ++ suffix := by
    simp only [Option.any_eq_true, suffix?_eq_some_iff, Option.isSome_iff_exists,
      ofSuffix?_eq_some_iff]
    constructor
    · rintro ⟨suffix, hname, condition, hsuffix⟩
      exact ⟨condition, suffix, hsuffix, hname⟩
    · rintro ⟨condition, suffix, hsuffix, hname⟩
      exact ⟨suffix, hname, condition, hsuffix⟩
  simp only [isKnown, Bool.or_eq_true, List.contains_iff_mem, List.any_eq_true, hfamily]

/-- The beginning of a family is no name without a suffix. -/
example : isKnown "setpo" ∧ ¬isKnown "set" := by
  decide +kernel

theorem mem_plain_of_ofName? {name : String} {m : Mnemonic} (h : ofName? name = some m)
    (hjcc : ∀ condition, m ≠ jcc condition) (hset : ∀ condition, m ≠ set condition)
    (hcmov : ∀ condition, m ≠ cmov condition) : (name, m) ∈ plain := by
  unfold ofName? at h
  split at h
  next m' hlookup =>
    cases h
    obtain ⟨before, after, hplain, -⟩ := List.lookup_eq_some_iff.mp hlookup
    simp [hplain]
  next =>
    simp only [Option.orElse_eq_orElse, Option.orElse_eq_or, Option.or_eq_some_iff,
      ofFamily?_eq_some_iff] at h
    rcases h with ⟨c, -, -, -, rfl⟩ | ⟨-, ⟨c, -, -, -, rfl⟩ | ⟨-, c, -, -, -, rfl⟩⟩
    · exact absurd rfl (hjcc c)
    · exact absurd rfl (hset c)
    · exact absurd rfl (hcmov c)

end Mnemonic

/-! ## What a known instruction can be refused for -/

/-- What can be wrong with the operands of an instruction that is known. -/
inductive OperandFault (invalid : StatementError) : StatementError → Prop where
  | shape : OperandFault invalid invalid
  | sizeMismatch : OperandFault invalid .sizeMismatch
  | missingSize : OperandFault invalid .missingSize
  | immediateRange {value : Int64} {bits : Nat} :
      OperandFault invalid (.immediateRange value bits)

attribute [simp] OperandFault.shape OperandFault.sizeMismatch OperandFault.missingSize
  OperandFault.immediateRange

def FaultsOperands {α : Type} (invalid : StatementError) (x : Except StatementError α) : Prop :=
  ∀ e, x = .error e → OperandFault invalid e

namespace FaultsOperands

variable {α β : Type} {invalid : StatementError}

@[simp]
theorem ok (a : α) : FaultsOperands invalid (.ok a) :=
  fun _ h => by cases h

@[simp]
theorem of_choose (i : Instruction PlaceId) : FaultsOperands invalid (choose i) :=
  ok _

@[simp]
theorem error_iff {e : StatementError} :
    FaultsOperands invalid (.error e : Except StatementError α) ↔ OperandFault invalid e := by
  constructor
  · intro h
    exact h e rfl
  · rintro h _ ⟨⟩
    exact h

@[simp]
theorem bind {x : Except StatementError α} {f : α → Except StatementError β}
    (hx : FaultsOperands invalid x) (hf : ∀ a, FaultsOperands invalid (f a)) :
    FaultsOperands invalid (x >>= f) := by
  intro e h
  rcases bind_eq_error_iff.mp h with h | ⟨a, -, h⟩
  · exact hx e h
  · exact hf a e h

@[simp]
theorem ite {p : Prop} [Decidable p] {x y : Except StatementError α}
    (hx : FaultsOperands invalid x) (hy : FaultsOperands invalid y) :
    FaultsOperands invalid (if p then x else y) := by
  split
  · exact hx
  · exact hy

/-! ### The checks -/

variable {codeSize : CodeSize} {dst src : Argument}

@[simp]
theorem of_checkSameWidth : FaultsOperands invalid (checkSameWidth dst src) := by
  unfold checkSameWidth
  split <;> simp

@[simp]
theorem of_wrapImmediate {w : Width} {value : Int64} :
    FaultsOperands invalid (wrapImmediate w value) := by
  simp [wrapImmediate]

@[simp]
theorem of_immediateAt {w : Width} {value : Int64} :
    FaultsOperands invalid (immediateAt w value) := by
  unfold immediateAt
  split
  next => simp [extendedImmediate]
  next => exact of_wrapImmediate

@[simp]
theorem of_memoryImmediate {size : Option Width} {value : Int64} :
    FaultsOperands invalid (memoryImmediate size value) := by
  cases size with
  | none => simp [memoryImmediate]
  | some w => exact bind of_immediateAt fun _ => ok _

@[simp]
theorem of_placeOf : FaultsOperands invalid (placeOf dst invalid) := by
  unfold placeOf
  split <;> simp

@[simp]
theorem of_stackPlace : FaultsOperands invalid (stackPlace codeSize dst invalid) := by
  unfold stackPlace
  split <;> simp

/-! ### The families -/

theorem of_selectMov : FaultsOperands invalid (selectMov codeSize dst src invalid) := by
  refine bind of_checkSameWidth fun _ => ?_
  split <;> simp

theorem of_selectArith {op : Arith} :
    FaultsOperands invalid (selectArith op dst src invalid) := by
  refine bind of_checkSameWidth fun _ => ?_
  split <;> simp

theorem of_selectTest : FaultsOperands invalid (selectTest dst src invalid) := by
  refine bind of_checkSameWidth fun _ => ?_
  split <;> simp

theorem of_selectXchg : FaultsOperands invalid (selectXchg dst src invalid) := by
  refine bind of_checkSameWidth fun _ => ?_
  split <;> simp

theorem of_selectLea : FaultsOperands invalid (selectLea dst src invalid) := by
  unfold selectLea
  split <;> simp

theorem of_selectExtend {make : Register → Place PlaceId → Instruction PlaceId} :
    FaultsOperands invalid (selectExtend make dst src invalid) := by
  unfold selectExtend
  split <;> simp

theorem of_selectMovsxd : FaultsOperands invalid (selectMovsxd dst src invalid) := by
  unfold selectMovsxd
  split <;> simp

theorem of_selectShift {op : Shift} :
    FaultsOperands invalid (selectShift op dst src invalid) := by
  unfold selectShift
  split <;> simp

theorem of_selectUnary {op : Unary} : FaultsOperands invalid (selectUnary op dst invalid) := by
  simp [selectUnary]

theorem of_selectImul : FaultsOperands invalid (selectImul dst src invalid) := by
  refine bind of_checkSameWidth fun _ => ?_
  split <;> simp

theorem of_selectImulImmediate {value : Int64} :
    FaultsOperands invalid (selectImulImmediate dst src value invalid) := by
  refine bind of_checkSameWidth fun _ => ?_
  split <;> simp

theorem of_selectPush : FaultsOperands invalid (selectPush codeSize src invalid) := by
  unfold selectPush
  split <;> simp

theorem of_selectPop : FaultsOperands invalid (selectPop codeSize dst invalid) := by
  simp [selectPop]

theorem of_selectTransfer {transfer : Transfer} {make : Place PlaceId → Instruction PlaceId} :
    FaultsOperands invalid (selectTransfer codeSize transfer make dst invalid) := by
  unfold selectTransfer
  split <;> simp

theorem of_selectJcc {condition : Condition} :
    FaultsOperands invalid (selectJcc condition dst invalid) := by
  unfold selectJcc
  split <;> simp

theorem of_selectSet {condition : Condition} :
    FaultsOperands invalid (selectSet condition dst invalid) := by
  unfold selectSet
  split <;> simp

theorem of_selectCmov {condition : Condition} :
    FaultsOperands invalid (selectCmov condition dst src invalid) := by
  refine bind of_checkSameWidth fun _ => ?_
  split <;> simp

theorem of_selectKnown {m : Mnemonic} {args : List Argument} :
    FaultsOperands invalid (selectKnown codeSize m args invalid) := by
  unfold selectKnown
  split
  next => exact of_choose _
  next => simp
  next => exact of_selectMov
  next => exact of_selectArith
  next => exact of_selectTest
  next => exact of_selectXchg
  next => exact of_selectLea
  next => exact of_selectExtend
  next => exact of_selectExtend
  next => exact of_selectMovsxd
  next => exact of_selectShift
  next => exact of_selectUnary
  next => exact of_selectImul
  next => exact of_selectImulImmediate
  next => exact of_selectPush
  next => exact of_selectPop
  next => exact of_selectTransfer
  next => exact of_selectTransfer
  next => exact of_selectJcc
  next => exact of_selectSet
  next => exact of_selectCmov
  next => exact error_iff.mpr .shape

end FaultsOperands

/-! ## A use for each mnemonic -/

def Mnemonic.someOperands : Mnemonic → List Argument
  | .bare _ => []
  | .mov | .arith _ | .test | .xchg | .cmov _ =>
    [.register (.accumulator .qword), .register (.accumulator .qword)]
  | .lea => [.register (.accumulator .qword), .label 1]
  | .movzx | .movsx => [.register (.accumulator .dword), .register (.accumulator .byte)]
  | .movsxd => [.register (.accumulator .qword), .register (.accumulator .dword)]
  | .shift _ => [.register (.accumulator .qword), .register .cl]
  | .unary _ | .push | .pop => [.register (.accumulator .qword)]
  | .call | .jmp | .jcc _ => [.label 1]
  | .set _ => [.register (.accumulator .byte)]

theorem exists_selectKnown (m : Mnemonic) (invalid : StatementError) :
    ∃ selected, selectKnown .bits64 m m.someOperands invalid = .ok selected := by
  cases m <;> exact ⟨_, rfl⟩

/-! ## Unknown and misused -/

variable {name : String}

theorem exists_mnemonic_of_isKnown (hname : isKnown name) :
    ∃ m, Mnemonic.ofName? name = some m := by
  rwa [isKnown_eq_isSome, Option.isSome_iff_exists] at hname

theorem select_of_not_isKnown (hname : ¬isKnown name) (codeSize : CodeSize)
    (args : List Argument) : select codeSize name args = .error (.unknownInstruction name) := by
  rw [isKnown_eq_isSome, Option.not_isSome_iff_eq_none] at hname
  rw [select_eq_selectNamed, selectNamed, hname]

theorem select_ne_unknownInstruction (hname : isKnown name) (codeSize : CodeSize)
    (args : List Argument) (other : String) :
    select codeSize name args ≠ .error (.unknownInstruction other) := by
  obtain ⟨m, hm⟩ := exists_mnemonic_of_isKnown hname
  intro h
  rw [select_of_ofName? hm] at h
  split at h
  next => cases h
  next =>
    have hfault : OperandFault _ _ := FaultsOperands.of_selectKnown _ h
    cases hfault

/-- An instruction is reported as unknown just when its name is not known, in code of both sizes
and with whatever operands; and every name that is known stands for an instruction of 64-bit code
with some operands. -/
theorem select_tells_known (name : String) :
    (∀ codeSize args other, select codeSize name args = .error (.unknownInstruction other) ↔
        isKnown name = false ∧ other = name) ∧
      (isKnown name = true → ∃ args selected, select .bits64 name args = .ok selected) := by
  rw [← Bool.not_eq_true]
  refine ⟨fun codeSize args other => ⟨fun h => ?_, ?_⟩, fun hname => ?_⟩
  · have hname : ¬isKnown name := fun hknown =>
      select_ne_unknownInstruction hknown codeSize args other h
    rw [select_of_not_isKnown hname] at h
    cases h
    exact ⟨hname, rfl⟩
  · rintro ⟨hname, rfl⟩
    exact select_of_not_isKnown hname codeSize args
  · obtain ⟨m, hm⟩ := exists_mnemonic_of_isKnown hname
    obtain ⟨selected, hselected⟩ := exists_selectKnown m (.invalidOperands name)
    exact ⟨m.someOperands, selected, by simpa [select_of_ofName? hm] using hselected⟩

/-- The name of a conditional jump is known, and the jump has a use. -/
theorem jnae_has_use : isKnown "jnae" = true ∧
    ∃ args selected, select .bits64 "jnae" args = .ok selected := by
  have hname : isKnown "jnae" = true := by decide +kernel
  exact ⟨hname, (select_tells_known "jnae").2 hname⟩

end AsmLoader.Assembly
