import AsmLoader.Proofs.Assembly.ImmediateRange
import AsmLoader.Proofs.Assembly.Mnemonics
/-!
# Destinations

An instruction with two or three operands works on the first of them, which is a register or
memory. The one use that puts a number first is a test of memory of a known size, which is taken
as the test with the operands in the other order.
-/

namespace AsmLoader.Assembly

open Machine (Address CodeSize Place Width)

def Argument.IsPlace : Argument → Prop
  | .register _ | .memory .. => True
  | .immediate _ | .label _ => False

/-- A test of memory of a known size against a number, with the number first. -/
def TestsNumberFirst (name : String) (args : List Argument) : Prop :=
  name = "test" ∧ ∃ value w address, args = [.immediate value, .memory (some w) address]

/-! ## The operands of what is selected -/

section

variable {codeSize : CodeSize} {m : Mnemonic} {name : String} {dst src : Argument}
  {rest : List Argument} {selected : Selected}

@[simp]
theorem Argument.isPlace_ofPlace (p : Place PlaceId) : (ofPlace p).IsPlace := by
  cases p <;> trivial

theorem Argument.At.isPlace {w : Width} {a : Argument} {p : Place PlaceId} (h : a.At w p) :
    a.IsPlace := by
  cases h <;> trivial

theorem Selects.isPlace_or_test (h : Selects codeSize m (dst :: src :: rest) selected) :
    dst.IsPlace ∨ m = .test ∧ ∃ value w address,
      dst :: src :: rest = [.immediate value, .memory (some w) address] := by
  cases h with
  | testImmediateSwapped hv => exact .inr ⟨rfl, _, _, _, rfl⟩
  | mov h | arith h | test h | xchg h => exact .inl h.isPlace
  | arithImmediate | testImmediate | shift | shiftByCl => exact .inl (Argument.isPlace_ofPlace _)
  | _ => exact .inl trivial

theorem eq_test_of_ofName? (h : Mnemonic.ofName? name = some .test) : name = "test" := by
  have hmem := Mnemonic.mem_plain_of_ofName? h (by simp) (by simp) (by simp)
  simpa [Mnemonic.plain] using hmem

theorem select_test_comm (value : Int64) (w : Width) (address : Address PlaceId) :
    select codeSize "test" [.immediate value, .memory (some w) address] =
      select codeSize "test" [.memory (some w) address, .immediate value] := by
  have hname : Mnemonic.ofName? "test" = some .test := rfl
  have hfirst := selectTest_swapped w address value (.invalidOperands "test")
  have hlast := selectTest_immediate (.memory w address) value (.invalidOperands "test")
  simp only [select_of_ofName? hname, Mnemonic.isLongModeOnly, Bool.false_eq_true, and_false,
    if_false, selectKnown]
  exact hfirst.trans hlast.symm

/-- An instruction that is accepted with two operands or more has a register or memory for the
first, in code of both sizes. The exception is a test with the number first, which stands for the
test with the memory first. -/
theorem select_destination (h : select codeSize name (dst :: src :: rest) = .ok selected) :
    dst.IsPlace ∨ TestsNumberFirst name (dst :: src :: rest) ∧
      select codeSize name [src, dst] = .ok selected := by
  obtain ⟨m, hname, hselects⟩ := selects_of_select h
  rcases hselects.isPlace_or_test with hplace | ⟨rfl, value, w, address, hargs⟩
  · exact .inl hplace
  · obtain rfl := eq_test_of_ofName? hname
    obtain ⟨rfl, rfl, rfl⟩ : dst = .immediate value ∧ src = .memory (some w) address ∧
        rest = [] := by
      simpa using hargs
    refine .inr ⟨⟨rfl, value, w, address, rfl⟩, ?_⟩
    rw [← select_test_comm, h]

end

/-- The byte at an address is tested against a number that is written first. -/
theorem test_number_first_selected :
    select .bits64 "test" [.immediate 5, .memory (some .byte) (.relative 1)] =
        .ok (.instruction (.testImmediate (.memory .byte (.relative 1)) 5)) ∧
      TestsNumberFirst "test" [.immediate 5, .memory (some .byte) (.relative 1)] := by
  have h : select .bits64 "test" [.immediate 5, .memory (some .byte) (.relative 1)] =
      .ok (.instruction (.testImmediate (.memory .byte (.relative 1)) 5)) := by rfl
  have hfirst : ¬(Argument.immediate 5).IsPlace := id
  exact ⟨h, ((select_destination h).resolve_left hfirst).1⟩

end AsmLoader.Assembly
