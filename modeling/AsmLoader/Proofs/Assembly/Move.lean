import AsmLoader.Proofs.Assembly.FixedSource
import AsmLoader.Proofs.Source.LineEnds
/-!
# Moves of whole numbers

A move of a number into a 64-bit register is the one instruction that holds all 64 bits of a
number. It is followed here from its text to its bytes.
-/

namespace AsmLoader.Source

open Machine (Register)

/-! ## The text of a move -/

def moveText (r : Register) (operand : String) : String :=
  "mov " ++ r.name ++ ", " ++ operand

theorem toList_moveText (r : Register) (operand : String) :
    (moveText r operand).toList =
      "mov".toList ++ ' ' :: (r.name.toList ++ ',' :: ' ' :: operand.toList) := by
  simp [moveText]

section

variable (n : Fin 16)

theorem isName_name_qword : Symbol.isName (Register.low .qword n).name.toList := by
  revert n
  decide

theorem wordToken_name_qword :
    wordToken (Register.low .qword n).name.toList =
      .ok (.word (Register.low .qword n).name) := by
  revert n
  decide

theorem name_qword_read :
    Register.ofName? (Register.low .qword n).name = some (.low .qword n) ∧
      Keyword.ofWord? (Register.low .qword n).name = none := by
  revert n
  decide +kernel

theorem isDataKeyword_name_qword : isDataKeyword (Register.low .qword n).name = false := by
  rw [isDataKeyword, (name_qword_read n).2]

theorem readOperand_name_qword :
    readOperand none [.word (Register.low .qword n).name] =
      .ok (.register (.low .qword n)) := by
  have hsize : sizeOverride [.word (Register.low .qword n).name] =
      (none, [.word (Register.low .qword n).name]) := by
    rw [sizeOverride, (name_qword_read n).2]
  have hvalue : operandOf none (.word (Register.low .qword n).name) =
      .ok (.ofRegister (.low .qword n)) := by
    rw [operandOf, (name_qword_read n).1]
  have hread : readExpression none [.word (Register.low .qword n).name] =
      .ok (.ofRegister (.low .qword n)) := by
    rw [readExpression, List.foldlM_cons, Reading.step, Reading.stepFactor, hvalue]
    · rfl
    all_goals simp
  rw [readOperand, hsize]
  simp only [hread]
  rfl

theorem readOperand_number (scope : Scope) (value : Int64) :
    readOperand scope [.number value] = .ok (.immediate value) :=
  rfl

theorem isPlainWord_mov : IsPlainWord "mov" :=
  ⟨by decide, rfl, by decide⟩

theorem tokenize_moveText (value : UInt64) :
    tokenize (moveText (.low .qword n) (Symbol.renderAddress value)).toList =
      .ok [.word "mov", .word (Register.low .qword n).name, .mark ',',
        .number value.toInt64] := by
  have hname := Symbol.isWord_of_isName (isName_name_qword n)
  have hvalue := Symbol.isWord_renderAddress value
  have hlast : wordToken (Symbol.renderAddress value).toList = .ok (.number value.toInt64) := by
    rw [wordToken, readLiteral?_renderAddress]
  have hnumber : tokenize (Symbol.renderAddress value).toList = .ok [.number value.toInt64] := by
    rw [← List.append_nil (Symbol.renderAddress value).toList,
      tokenize_word hvalue.ne_nil hvalue.isNameChar rfl, hlast, tokenize_nil]
    rfl
  have hrest : tokenize (' ' :: ((Register.low .qword n).name.toList ++ ',' :: ' ' ::
      (Symbol.renderAddress value).toList)) =
      .ok [.word (Register.low .qword n).name, .mark ',', .number value.toInt64] := by
    rw [tokenize_blank (by decide), tokenize_word hname.ne_nil hname.isNameChar rfl,
      wordToken_name_qword,
      tokenize_mark (by decide) (by decide) (by decide) (by decide) (by decide),
      tokenize_blank (by decide), hnumber]
    rfl
  rw [toList_moveText, isPlainWord_mov.tokenize_append rfl hrest]

theorem readBody_move (value : Int64) :
    readBody none "mov" [.word (Register.low .qword n).name, .mark ',', .number value] =
      .ok (.instruction "mov" [.register (.low .qword n), .immediate value]) := by
  have hkeyword : Keyword.ofWord? "mov" = none := isPlainWord_mov.ofWord?_eq
  have hregister : Register.ofName? "mov" = none := by
    rw [Register.ofName?, isPlainWord_mov.toLower_eq]
    decide
  have hreserved : isReserved "mov" = false := by
    rw [isReserved, hkeyword, hregister]
    rfl
  have hsplit : splitCommas [.word (Register.low .qword n).name, .mark ',', .number value] =
      [[.word (Register.low .qword n).name], [.number value]] := by
    simp [splitCommas]
  have hoperands : readOperands none
      [.word (Register.low .qword n).name, .mark ',', .number value] =
        .ok [.register (.low .qword n), .immediate value] := by
    rw [readOperands, if_neg (by simp), hsplit, mapM_eq_ok_iff]
    exact .cons (readOperand_name_qword n) (.cons (readOperand_number none value) .nil)
  simp only [readBody, hkeyword, hreserved, isPlainWord_mov.toLower_eq, hoperands]
  rfl

theorem parse_moveText (value : UInt64) :
    parse (moveText (.low .qword n) (Symbol.renderAddress value)) =
      .ok [⟨1, [], .instruction "mov"
        [.register (.low .qword n), .immediate value.toInt64]⟩] := by
  have hnewline : ¬Symbol.isNameChar '\n' := by decide
  apply parse_of_line
  · have hname := (Symbol.isWord_of_isName (isName_name_qword n)).not_mem hnewline
    have hvalue := (Symbol.isWord_renderAddress value).not_mem hnewline
    simp [toList_moveText, hname, hvalue]
  · have hdata : dataName? [.word "mov", .word (Register.low .qword n).name, .mark ',',
        .number value.toInt64] = none := by
      simp [dataName?, isDataKeyword_name_qword]
    rw [readLine, tokenize_moveText]
    dsimp only [readLabels]
    rw [hdata, readRest, readBody_move]
    rfl

end

end AsmLoader.Source

namespace AsmLoader.Assembly

open Machine (Instruction Register lowBytes signedBytes)
open Source (moveText parse_moveText)

variable (n : Fin 16)

theorem select_move (value : Int64) :
    select .bits64 "mov" [.register (.low .qword n), .immediate value] =
      .ok (.instruction (.movImmediate (.register (.low .qword n)) value)) := by
  have hmov : Mnemonic.ofName? "mov" = some .mov := by rfl
  rw [select_of_ofName? hmov]
  rfl

def moveForm (value : Int64) : Machine.Form PlaceId :=
  ⟨false, true, [0xB8], .inOpcode (.low .qword n), signedBytes 8 value⟩

theorem extensionPrefix_moveForm (value : Int64) :
    (moveForm n value).extensionPrefix = [0x48 + UInt8.ofNat (n.val / 8)] := by
  have hbits :
      UInt8.ofNat (0x48 + (decide (8 ≤ n.val)).toNat) = 0x48 + UInt8.ofNat (n.val / 8) := by
    revert n
    decide
  rw [← hbits]
  rfl

theorem encode_move (value : Int64) :
    (Instruction.movImmediate (.register (.low .qword n)) value : Instruction PlaceId).encode
        .bits64 =
      .ok ⟨[0x48 + UInt8.ofNat (n.val / 8), 0xB8 + UInt8.ofNat (n.val % 8)] ++
        signedBytes 8 value, none, []⟩ := by
  change Except.ok (Machine.Encoded.mk ((moveForm n value).extensionPrefix ++
    [0xB8 + UInt8.ofNat (n.val % 8)] ++ signedBytes 8 value) none []) = _
  rw [extensionPrefix_moveForm]
  rfl

theorem fixedBytes_move {c : Context} (hc : c.codeSize = .bits64) (capacity : UInt64)
    (line : Nat) (value : Int64) :
    FixedBytes .bits64 c capacity
      ⟨line, [], .instruction "mov" [.register (.low .qword n), .immediate value]⟩
      ([0x48 + UInt8.ofNat (n.val / 8), 0xB8 + UInt8.ofNat (n.val % 8)] ++
        signedBytes 8 value) := by
  have hregister : c.checkRegister (.low .qword n) = .ok () := by
    simp [Context.checkRegister, hc]
  have hargument : c.argument (.register (.low .qword n)) = .ok (.register (.low .qword n)) := by
    rw [Context.argument, hregister]
    rfl
  have harguments : [.register (.low .qword n), .immediate value].mapM c.argument =
      .ok [.register (.low .qword n), .immediate value] :=
    mapM_eq_ok_iff.mpr (.cons hargument (.cons rfl .nil))
  refine ⟨.instruction (.movImmediate (.register (.low .qword n)) value), ?_, ?_⟩
  · simp only [emission, harguments, ok_bind, hc, select_move]
    rfl
  · rw [Emission.bytes?, Emission.fragment?, Fragment.ofInstruction, encode_move]
    simp [Fragment.bytes?]

/-- A source that is a move of a number into a 64-bit register is ten bytes: the extension
prefix, the opcode with the low bits of the register, and the number. -/
theorem assemble_moveText (value : UInt64) {target : Target} (htarget : target.bitness = 64) :
    assemble (moveText (.low .qword n) (Symbol.renderAddress value)) target =
      .ok ([0x48 + UInt8.ofNat (n.val / 8), 0xB8 + UInt8.ofNat (n.val % 8)] ++
        lowBytes 8 value.toNat) := by
  have hbytes : signedBytes 8 value.toInt64 = lowBytes 8 value.toNat := rfl
  have hbits : Machine.CodeSize.bits64.bits = target.bitness := htarget.symm
  have hcode := assemble_of_fixedBytes (parse_moveText n value) hbits (by simp) (by simp)
    (.cons (fixedBytes_move n rfl target.capacity 1 value.toInt64) .nil)
  rwa [List.flatten_cons, List.flatten_nil, List.append_nil, hbytes] at hcode

end AsmLoader.Assembly
