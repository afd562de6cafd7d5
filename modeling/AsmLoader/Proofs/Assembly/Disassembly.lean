import AsmLoader.Proofs.Assembly.Encoded
import AsmLoader.Proofs.Assembly.Relocation
import AsmLoader.Proofs.Assembly.Success
import AsmLoader.Proofs.Machine.Decoding
/-!
# Statements are decoded whole

What a statement with an instruction is written as is what the decoder takes first. A branch is
too, as long as it reaches its target by itself, and all branches to labels do. Code without data
is then that of its instructions, one after the other, with nothing after them.
-/

namespace AsmLoader.Assembly

open Machine (DecodesWhole Reader Transfer)
open Source (Body Operand Statement)

/-! ## Branches -/

theorem takes_short {transfer : Transfer} (hcall : transfer ≠ .call) {field : List UInt8}
    (hfield : field.length = 1) : Reader.whole.Takes (shortOpcode transfer ++ field) := by
  have hsigned := Reader.takes_signed hfield
  cases transfer with
  | call => exact absurd rfl hcall
  | jmp =>
      apply Reader.takes_whole_of_opcode
      exact (Reader.reads_byte 0xEB).bind (hsigned.then_pure fun _ => ⟨_, rfl⟩)
  | jcc condition =>
      apply Reader.takes_whole_of_opcode
      cases condition <;> exact (Reader.reads_byte _).bind (hsigned.then_pure fun _ => ⟨_, rfl⟩)

theorem takes_near (transfer : Transfer) {field : List UInt8} (hfield : field.length = 4) :
    Reader.whole.Takes (nearOpcode transfer ++ field) := by
  have hsigned := Reader.takes_signed hfield
  cases transfer with
  | call =>
      apply Reader.takes_whole_of_opcode
      exact (Reader.reads_byte 0xE8).bind (hsigned.then_pure fun _ => ⟨_, rfl⟩)
  | jmp =>
      apply Reader.takes_whole_of_opcode
      exact (Reader.reads_byte 0xE9).bind (hsigned.then_pure fun _ => ⟨_, rfl⟩)
  | jcc condition =>
      apply Reader.takes_whole_of_opcode
      cases condition <;> exact (Reader.reads_byte 0x0F).bind
        ((Reader.reads_byte _).bind (hsigned.then_pure fun _ => ⟨_, rfl⟩))

theorem decodesWhole_of_branch {transfer : Transfer} {target : UInt64} {part field : List UInt8}
    (h : (Fragment.branch transfer target).Written part (.direct field)) :
    DecodesWhole part := by
  cases h with
  | short hcall hfield =>
      apply Machine.decodesWhole_of_takes (takes_short hcall hfield)
      have hopcode := length_shortOpcode hcall
      rw [List.length_append, hfield, hopcode]
      decide
  | near hfield =>
      apply Machine.decodesWhole_of_takes (takes_near transfer hfield)
      rw [List.length_append, hfield, length_nearOpcode]
      cases transfer <;> simp [nearSize, Machine.maxInstructionSize]

/-! ## Statements -/

theorem decodesWhole_of_written {c : Context} {capacity : UInt64} {s : Statement} {e : Emission}
    {name : String} {operands : List Operand} {part : List UInt8} {d : Displacement}
    (hc : c.codeSize = .bits64) (he : emission c capacity s = .ok e)
    (hbody : s.body = .instruction name operands) (h : e.Written .bits64 part d)
    (hdirect : e.reference? ≠ none → ∃ field, d = .direct field) : DecodesWhole part := by
  obtain ⟨args, m, selected, -, -, hselects, rfl⟩ := exists_selects_of_emission he hbody
  rw [hc] at hselects
  cases selected with
  | instruction i =>
      obtain ⟨encoded, hencode, hfilled⟩ := exists_encoded_of_written h
      exact Machine.Instruction.decodesWhole_of_encode hencode hselects.regular hfilled
  | branch transfer target =>
      obtain ⟨field, rfl⟩ := hdirect nofun
      exact decodesWhole_of_branch h

def OnlyInstructs : Body → Prop
  | .data .. | .reserve .. => False
  | .instruction .. | .empty | .mode _ => True

def isInstruction (s : Statement) : Bool :=
  match s.body with
  | .instruction .. => true
  | _ => false

/-- The bytes are those of what is selected for the instruction of a statement in 64-bit code. -/
def IsCodeOf (statements : List Statement) (s : Statement) (part : List UInt8) : Prop :=
  ∃ name operands args selected d, s.body = .instruction name operands ∧
    operands.mapM (contextOf .bits64 statements).argument = .ok args ∧
    select .bits64 name args = .ok selected ∧
    (Emission.ofSelected selected).Written .bits64 part d

theorem isCodeOf_of_written {statements : List Statement} {capacity : UInt64} {s : Statement}
    {e : Emission} {name : String} {operands : List Operand} {part : List UInt8}
    {d : Displacement} (he : emission (contextOf .bits64 statements) capacity s = .ok e)
    (hbody : s.body = .instruction name operands) (h : e.Written .bits64 part d) :
    IsCodeOf statements s part := by
  simp only [emission, hbody] at he
  obtain ⟨args, hargs, he⟩ := bind_eq_ok_iff.mp he
  obtain ⟨selected, hselected, he⟩ := bind_eq_ok_iff.mp he
  cases he
  exact ⟨name, operands, args, selected, d, hbody, hargs, hselected, h⟩

theorem isInstruction_iff {s : Statement} :
    isInstruction s ↔ ∃ name operands, s.body = .instruction name operands := by
  unfold isInstruction
  split
  next name operands hbody => simp [hbody]
  next hbody => simpa using hbody

theorem not_emits_of_onlyInstructs {s : Statement} (honly : OnlyInstructs s.body)
    (hs : isInstruction s = false) : ¬emits s := by
  cases hbody : s.body with
  | instruction name operands => simp [isInstruction, hbody] at hs
  | data | reserve =>
      rw [hbody] at honly
      exact honly.elim
  | empty | mode => simp [emits, hbody]

/-! ## Sources -/

theorem exists_parts_of_filter {R : Statement → List UInt8 → Prop} {p : Statement → Bool}
    {statements : List Statement} {parts : List (List UInt8)}
    (h : List.Forall₂ (fun s part => if p s then R s part else part = []) statements parts) :
    ∃ kept, List.Forall₂ R (statements.filter p) kept ∧ kept.flatten = parts.flatten := by
  induction h with
  | nil => exact ⟨[], .nil, rfl⟩
  | @cons s part statements parts hpart _ ih =>
      obtain ⟨kept, hkept, hflatten⟩ := ih
      split at hpart
      next hs =>
        rw [List.filter_cons_of_pos hs]
        exact ⟨part :: kept, .cons hpart hkept, by rw [List.flatten_cons, hflatten]; rfl⟩
      next hs =>
        rw [List.filter_cons_of_neg hs, hpart]
        exact ⟨kept, hkept, by rw [hflatten]; rfl⟩

section Laid

variable {target : Target} {statements : List Statement} {es : List Emission}
  {parts : List (List UInt8)} {code : Code}

theorem forall₂_decodesWhole (hlt : (bindLabels statements).1.places < 2 ^ 64)
    (hes : Emitted .bits64 target.capacity statements es)
    (hlaid : Laid .bits64 target.base (itemsOf .bits64 statements es).reduceOption parts code)
    (honly : ∀ s ∈ statements, OnlyInstructs s.body) (hnamed : TargetsNamed statements) :
    List.Forall₂ (fun s part => if isInstruction s then
      IsCodeOf statements s part ∧ DecodesWhole part else part = []) statements
      (partsOf (itemsOf .bits64 statements es) statements parts) := by
  rw [List.forall₂_iff_get]
  refine ⟨(arranged_partsOf hes hlaid).length_eq.symm, fun i hi hi' => ?_⟩
  have hs : statements[i]? = some (statements.get ⟨i, hi⟩) := List.getElem?_eq_getElem hi
  generalize statements.get ⟨i, hi⟩ = s at hs ⊢
  have hmem := List.mem_of_getElem? hs
  obtain ⟨e, part, d, he, hpart, hwritten, hleads⟩ := written_partsOf hes hlaid hs
  obtain rfl : (partsOf (itemsOf .bits64 statements es) statements parts).get ⟨i, hi'⟩ = part :=
    Option.some.inj ((List.getElem?_eq_getElem hi').symm.trans hpart)
  split
  next hinstruction =>
    obtain ⟨name, operands, hbody⟩ := isInstruction_iff.mp hinstruction
    refine ⟨isCodeOf_of_written he hbody hwritten, ?_⟩
    apply decodesWhole_of_written rfl he hbody hwritten
    intro hreference
    obtain ⟨number, hnumber⟩ := Option.ne_none_iff_exists'.mp hreference
    exact (hleads number hnumber).2
      (.inr (isInside_of_reference hlt hes hnamed hmem he hnumber))
  next hother =>
    rw [eq_nil_iff_of_written he hwritten]
    exact not_emits_of_onlyInstructs (honly s hmem) (by simpa using hother)

end Laid

/-- 64-bit code of a source without data whose branches name labels is that of its instructions,
one after the other, each of which is decoded whole. -/
theorem exists_instructions {source : String} {target : Target} {code : Code}
    (hsource : source.length < 2 ^ 63) (htarget : target.bitness = 64)
    (honly : ∀ statements, Source.parse source = .ok statements →
      ∀ s ∈ statements, OnlyInstructs s.body)
    (hbranches : BranchesToLabels source) (h : assemble source target = .ok code) :
    ∃ statements parts, Source.parse source = .ok statements ∧ parts.flatten = code ∧
      List.Forall₂ (fun s part => IsCodeOf statements s part ∧ DecodesWhole part)
        (statements.filter isInstruction) parts := by
  obtain ⟨statements, hparse, hassemble⟩ := assemble_eq_ok_iff.mp h
  obtain ⟨codeSize, es, hassembles⟩ := exists_assembles hassemble
  obtain rfl : codeSize = .bits64 := by
    have hbits := hassembles.bits_eq.trans htarget
    cases codeSize with
    | bits32 => cases hbits
    | bits64 => rfl
  have hes := hassembles.emitted
  have hplaces := places_bindLabels_le statements
  have hstatements := Source.length_statements_le hparse
  have hlt : (bindLabels statements).1.places < 2 ^ 64 := by omega
  have hinside := leadsInside_itemsOf hlt hes (hbranches.targetsNamed hparse)
  obtain ⟨entryParts, hlaid, rfl⟩ := exists_laid_flatten hinside hassembles.written
  obtain ⟨parts, hparts, hflatten⟩ := exists_parts_of_filter
    (forall₂_decodesWhole hlt hes hlaid (honly statements hparse)
      (hbranches.targetsNamed hparse))
  rw [flatten_partsOf hes hlaid] at hflatten
  exact ⟨statements, parts, hparse, hflatten, hparts⟩

end AsmLoader.Assembly
