import AsmLoader.Proofs.Assembly.Acceptance
import AsmLoader.Proofs.Assembly.Selects
import AsmLoader.Proofs.Machine.Extension
/-!
# Statements as encoded instructions

A statement with an instruction is written as the bytes of what is selected for it. That
instruction has widths that go together, and in 32-bit code only registers that there are, so its
bytes show what it does.
-/

namespace AsmLoader.Assembly

open Machine (CodeSize Instruction Place Register Width)
open Source (Operand Statement)

def Argument.Legacy : Argument → Prop
  | register r => ¬r.isLongModeOnly
  | memory _ address => address.Legacy
  | immediate _ | label _ => True

theorem nativeWidth_eq (codeSize : CodeSize) : nativeWidth codeSize = codeSize.width := by
  cases codeSize <;> rfl

theorem Argument.legacy_ofPlace {p : Place PlaceId} (h : (ofPlace p).Legacy) : p.Legacy := by
  cases p <;> exact h

theorem Argument.At.legacy {w : Width} {a : Argument} {p : Place PlaceId} (h : a.At w p)
    (ha : a.Legacy) : p.Legacy := by
  cases h <;> exact ha

theorem Context.legacy_argument {c : Context} {operand : Operand} {a : Argument}
    (h : c.argument operand = .ok a) (hregisters : ∀ r ∈ operand.registers, ¬r.isLongModeOnly) :
    a.Legacy := by
  cases operand with
  | register r =>
      obtain ⟨_, -, ha⟩ := bind_eq_ok_iff.mp h
      cases ha
      exact hregisters r (List.mem_singleton.mpr rfl)
  | immediate value =>
      cases h
      trivial
  | symbol name =>
      obtain ⟨place, -, ha⟩ := bind_eq_ok_iff.mp h
      cases ha
      trivial
  | memory size location =>
      obtain ⟨address, haddress, ha⟩ := bind_eq_ok_iff.mp h
      cases ha
      unfold Context.address at haddress
      split at haddress
      next =>
        obtain ⟨place, -, haddress⟩ := bind_eq_ok_iff.mp haddress
        cases haddress
        trivial
      next => cases haddress
      next base displacement =>
        obtain ⟨_, -, haddress⟩ := bind_eq_ok_iff.mp haddress
        cases haddress
        have hbase := hregisters base (List.mem_singleton.mpr rfl)
        exact ⟨Register.number_lt_of_legacy hbase, by simp⟩
      next base index scale displacement =>
        obtain ⟨_, -, haddress⟩ := bind_eq_ok_iff.mp haddress
        obtain ⟨_, -, haddress⟩ := bind_eq_ok_iff.mp haddress
        cases haddress
        have hbase := hregisters base List.mem_cons_self
        have hindex := hregisters index (List.mem_cons_of_mem _ (List.mem_singleton.mpr rfl))
        refine ⟨Register.number_lt_of_legacy hbase, ?_⟩
        rintro _ ⟨⟩
        exact Register.number_lt_of_legacy hindex
      next index scale displacement =>
        obtain ⟨_, -, haddress⟩ := bind_eq_ok_iff.mp haddress
        cases haddress
        exact Register.number_lt_of_legacy (hregisters index (List.mem_singleton.mpr rfl))
      next => cases haddress

namespace Selects

variable {codeSize : CodeSize} {m : Mnemonic} {args : List Argument} {i : Instruction PlaceId}

theorem regular (h : Selects codeSize m args (.instruction i)) : i.Regular codeSize := by
  have hextend {d w : Width} (h : canExtend d w) : w = .byte ∨ w = .word := by
    cases d <;> cases w <;> simp [canExtend] at h ⊢
  have hstack {p : Place PlaceId} (hp : Stackable codeSize p) :
      ∀ w ∈ p.access? p.width, w = .word ∨ w = codeSize.width := by
    rintro w hw
    cases p with
    | register r => cases hw
    | memory w' address =>
        cases hw
        exact .inr (hp.trans (nativeWidth_eq codeSize))
  cases h with
  | movzx h | movsx h => exact hextend h
  | movsxd hd => exact hd
  | imul hd | imulImmediate hd | imulPlaceImmediate hd | cmov hd => exact hd
  | push _ hp | pop _ hp => exact hstack hp
  | callRegister | jmpRegister =>
      rintro w hw
      cases hw
  | callMemory | jmpMemory =>
      rintro w hw
      cases hw
      exact nativeWidth_eq codeSize
  | _ => trivial

theorem legacy (h : Selects codeSize m args (.instruction i)) (hargs : ∀ a ∈ args, a.Legacy) :
    i.Legacy := by
  have hfirst {a : Argument} {rest : List Argument} (h : ∀ b ∈ a :: rest, b.Legacy) : a.Legacy :=
    h a List.mem_cons_self
  have hsecond {a b : Argument} {rest : List Argument} (h : ∀ c ∈ a :: b :: rest, c.Legacy) :
      b.Legacy := h b (List.mem_cons_of_mem _ List.mem_cons_self)
  cases h with
  | bare | retPop | pushImmediate => trivial
  | mov h | arith h | test h | xchg h => exact ⟨hsecond hargs, h.legacy (hfirst hargs)⟩
  | testSwapped h | xchgSwapped h => exact ⟨hfirst hargs, h.legacy (hsecond hargs)⟩
  | movLoad h | arithLoad h => exact ⟨hfirst hargs, h.legacy (hsecond hargs)⟩
  | movFull | movRegister | movMemory => exact hfirst hargs
  | movLabel | leaLabel => exact ⟨hfirst hargs, trivial⟩
  | lea => exact ⟨hfirst hargs, hsecond hargs⟩
  | arithImmediate | testImmediate | shift | shiftByCl | unary =>
      exact Argument.legacy_ofPlace (hfirst hargs)
  | testImmediateSwapped => exact hsecond hargs
  | movzx | movsx => exact ⟨hfirst hargs, Argument.legacy_ofPlace (hsecond hargs)⟩
  | movsxd _ h | imul _ h | imulPlaceImmediate _ h | cmov _ h =>
      exact ⟨hfirst hargs, h.legacy (hsecond hargs)⟩
  | imulImmediate => exact ⟨hfirst hargs, hfirst hargs⟩
  | push h | pop h | set h => exact h.legacy (hfirst hargs)
  | callRegister | callMemory | jmpRegister | jmpMemory => exact hfirst hargs

end Selects

theorem exists_selects_of_emission {c : Context} {capacity : UInt64} {s : Statement}
    {e : Emission} {name : String} {operands : List Operand} (he : emission c capacity s = .ok e)
    (hbody : s.body = .instruction name operands) :
    ∃ args m selected, operands.mapM c.argument = .ok args ∧ Mnemonic.ofName? name = some m ∧
      Selects c.codeSize m args selected ∧ e = .ofSelected selected := by
  simp only [emission, hbody] at he
  obtain ⟨args, hargs, he⟩ := bind_eq_ok_iff.mp he
  obtain ⟨selected, hselected, he⟩ := bind_eq_ok_iff.mp he
  obtain ⟨m, hname, hselects⟩ := selects_of_select hselected
  cases he
  exact ⟨args, m, selected, hargs, hname, hselects, rfl⟩

theorem exists_encoded_of_written {codeSize : CodeSize} {i : Instruction PlaceId}
    {part : List UInt8} {d : Displacement}
    (h : (Emission.instruction i).Written codeSize part d) :
    ∃ encoded, i.encode codeSize = .ok encoded ∧ encoded.Filled part := by
  change (Fragment.ofInstruction codeSize i).Written part d at h
  unfold Fragment.ofInstruction at h
  cases hencode : i.encode codeSize with
  | error refusal =>
      rw [hencode] at h
      cases h
  | ok encoded =>
      rw [hencode] at h
      refine ⟨encoded, rfl, ?_⟩
      cases h with
      | plain htarget => exact ⟨[], by simp, by simp [htarget]⟩
      | relative htarget hfield => exact ⟨_, rfl, by simp [htarget, hfield]⟩

theorem legacy_of_emission {c : Context} {capacity : UInt64} {s : Statement} {e : Emission}
    {name : String} {operands : List Operand} {args : List Argument}
    (he : emission c capacity s = .ok e) (hbody : s.body = .instruction name operands)
    (hargs : operands.mapM c.argument = .ok args) (hsize : c.codeSize = .bits32) :
    ∀ a ∈ args, a.Legacy := by
  intro a ha
  obtain ⟨operand, hoperand, hargument⟩ :=
    exists_mem_of_forall₂ (mapM_eq_ok_iff.mp hargs).flip ha
  apply Context.legacy_argument hargument
  intro r hr
  exact registers_of_emission he hsize hbody hoperand hr

theorem Arranged.exists_selects {codeSize : CodeSize} {target : Target}
    {statements : List Statement} {parts : List (List UInt8)} {code : Code}
    (h : Arranged codeSize target statements parts code) {i : Nat} {s : Statement}
    (hs : statements[i]? = some s) {name : String} {operands : List Operand}
    (hbody : s.body = .instruction name operands) {m : Mnemonic}
    (hname : Mnemonic.ofName? name = some m) :
    ∃ args selected part,
      operands.mapM (contextOf codeSize statements).argument = .ok args ∧
        Selects codeSize m args selected ∧ parts[i]? = some part ∧
        ∀ instruction, selected = .instruction instruction →
          (∃ encoded, instruction.encode codeSize = .ok encoded ∧ encoded.Filled part) ∧
            (codeSize = .bits32 → instruction.Legacy) := by
  obtain ⟨e, part, d, he, hpart, hwritten, -⟩ := h.written i s hs
  obtain ⟨args, m', selected, hargs, hname', hselects, rfl⟩ :=
    exists_selects_of_emission he hbody
  cases hname.symm.trans hname'
  refine ⟨args, selected, part, hargs, hselects, hpart, ?_⟩
  rintro instruction rfl
  exact ⟨exists_encoded_of_written hwritten, fun hsize =>
    hselects.legacy (legacy_of_emission he hbody hargs hsize)⟩

end AsmLoader.Assembly
