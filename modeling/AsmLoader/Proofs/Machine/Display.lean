import AsmLoader.Machine.Decoding
import AsmLoader.Proofs.Text.Numeral
import Mathlib.Tactic.IntervalCases
/-!
# An instruction is shown on one line

The names, numbers and words that an instruction is shown with have no character that ends a
line, so neither has its text.
-/

namespace AsmLoader.Text

def Unbroken (s : String) : Prop :=
  '\n' ∉ s.toList ∧ '\r' ∉ s.toList

instance (s : String) : Decidable (Unbroken s) :=
  inferInstanceAs (Decidable (_ ∧ _))

@[simp] theorem unbroken_append {s t : String} :
    Unbroken (s ++ t) ↔ Unbroken s ∧ Unbroken t := by
  simp only [Unbroken, String.toList_append, List.mem_append, not_or]
  exact and_and_and_comm

theorem unbroken_hexPadded (width n : Nat) : Unbroken (hexPadded width n) :=
  ⟨not_mem_hexPadded (by decide) width n, not_mem_hexPadded (by decide) width n⟩

theorem unbroken_intercalate {separator : String} (hseparator : Unbroken separator)
    {parts : List String} (h : ∀ s ∈ parts, Unbroken s) :
    Unbroken (String.intercalate separator parts) := by
  induction parts with
  | nil =>
      rw [String.intercalate_nil]
      decide
  | cons s parts ih =>
      have hs := h s List.mem_cons_self
      have hrest := ih fun t ht => h t (List.mem_cons_of_mem s ht)
      cases parts with
      | nil =>
          rw [String.intercalate_singleton]
          exact hs
      | cons t parts =>
          rw [String.intercalate_cons_cons]
          simp [hs, hseparator, hrest]

end AsmLoader.Text

namespace AsmLoader.Machine

open Text (Unbroken unbroken_append)

/-! ## Numbers -/

@[simp] theorem unbroken_paddedNumberText (width n : Nat) :
    Unbroken (paddedNumberText width n) := by
  have hdigits := Text.unbroken_hexPadded width n
  unfold paddedNumberText
  split
  next hn => interval_cases n <;> decide
  next =>
    dsimp only
    split
    next => exact unbroken_append.mpr ⟨unbroken_append.mpr ⟨by decide, hdigits⟩, by decide⟩
    next => exact unbroken_append.mpr ⟨hdigits, by decide⟩

@[simp] theorem unbroken_numberText (n : Nat) : Unbroken (numberText n) :=
  unbroken_paddedNumberText 0 n

@[simp] theorem unbroken_immediateText (w : Width) (value : Int64) :
    Unbroken (immediateText w value) :=
  unbroken_numberText _

/-! ## Places -/

@[simp] theorem unbroken_name (r : Register) : Unbroken r.name := by
  cases r with
  | low w n => cases w <;> revert n <;> decide
  | high n => revert n; decide

@[simp] theorem unbroken_addressRegister (size : CodeSize) (n : Fin 16) :
    Unbroken (addressRegister size n) := by
  cases size <;> exact unbroken_name _

theorem unbroken_displacementText (displacement : Int32) :
    Unbroken (displacementText displacement) := by
  unfold displacementText
  dsimp only
  split_ifs
  · decide
  · exact unbroken_append.mpr ⟨by decide, unbroken_numberText _⟩
  · exact unbroken_append.mpr ⟨by decide, unbroken_numberText _⟩

theorem unbroken_scaledText (size : CodeSize) (index : Fin 16) (scale : Scale) :
    Unbroken (scaledText size index scale) := by
  have hfactor : Unbroken (toString scale.factor) := by cases scale <;> decide
  exact unbroken_append.mpr
    ⟨unbroken_append.mpr ⟨unbroken_addressRegister size index, by decide⟩, hfactor⟩

theorem unbroken_indexText (size : CodeSize) (index : Fin 16) (scale : Scale) :
    Unbroken (indexText size index scale) := by
  cases scale with
  | one => exact unbroken_addressRegister size index
  | two | four | eight => exact unbroken_scaledText size index _

@[simp] theorem unbroken_address (address : Address UInt64) : Unbroken address.text := by
  have hopen : Unbroken "[" := by decide
  have hclose : Unbroken "]" := by decide
  have hplus : Unbroken "+" := by decide
  cases address with
  | relative target => simp [Address.text, hopen, hclose]
  | based size base index displacement =>
      have hdisplacement := unbroken_displacementText displacement
      cases index with
      | none => simp [Address.text, hopen, hclose, hdisplacement]
      | some index =>
          have hindex := unbroken_indexText size index.1 index.2
          simp [Address.text, hopen, hclose, hplus, hdisplacement, hindex]
  | scaled size index scale displacement =>
      have hdisplacement := unbroken_displacementText displacement
      have hscaled := unbroken_scaledText size index scale
      simp [Address.text, hopen, hclose, hdisplacement, hscaled]

@[simp] theorem unbroken_place (p : Place UInt64) : Unbroken p.text := by
  cases p with
  | register r => exact unbroken_name r
  | memory w address => exact unbroken_address address

@[simp] theorem unbroken_textWithWidth (p : Place UInt64) : Unbroken p.textWithWidth := by
  cases p with
  | register r => exact unbroken_name r
  | memory w address =>
      have hw : Unbroken w.text := by cases w <;> decide
      exact unbroken_append.mpr ⟨hw, unbroken_address address⟩

/-! ## Instructions and branches -/

theorem unbroken_suffix (condition : Condition) : Unbroken condition.suffix := by
  cases condition <;> decide

theorem unbroken_mnemonic (style : Style) (i : Instruction UInt64) :
    Unbroken (i.parts style).1 := by
  have hbare : ∀ op : Bare, Unbroken op.text := fun op => by cases op <;> decide
  have harith : ∀ op : Arith, Unbroken op.text := fun op => by cases op <;> decide
  have hshift : ∀ op : Shift, Unbroken op.text := fun op => by cases op <;> decide
  have hunary : ∀ op : Unary, Unbroken op.text := fun op => by cases op <;> decide
  cases i with
  | bare op => exact hbare op
  | arith op | arithLoad op | arithImmediate op => exact harith op
  | shift op | shiftByCl op => exact hshift op
  | unary op => exact hunary op
  | set condition dst => exact unbroken_append.mpr ⟨by decide, unbroken_suffix condition⟩
  | cmov condition dst src => exact unbroken_append.mpr ⟨by decide, unbroken_suffix condition⟩
  | imulImmediate dst src value =>
      have hname : Unbroken "imul" := by decide
      simp only [Instruction.parts]
      split <;> exact hname
  | _ =>
      simp only [Instruction.parts]
      decide

theorem unbroken_operands (style : Style) (i : Instruction UInt64) :
    ∀ s ∈ (i.parts style).2, Unbroken s := by
  have hcl : Unbroken "cl" := by decide
  cases i with
  | xchg dst src => cases hfirst : style.registerFirst <;> simp [Instruction.parts, hfirst]
  | set condition dst => cases hwidth : style.widthOfSet <;> simp [Instruction.parts, hwidth]
  | imulImmediate dst src value =>
      simp only [Instruction.parts]
      split <;> simp
  | _ => simp [Instruction.parts, hcl]

theorem unbroken_text (style : Style) (i : Instruction UInt64) : Unbroken (i.text style) := by
  have hmnemonic := unbroken_mnemonic style i
  unfold Instruction.text
  split
  next mnemonic hparts =>
    rw [hparts] at hmnemonic
    exact hmnemonic
  next mnemonic operands hparts =>
    have hoperands := unbroken_operands style i
    rw [hparts] at hmnemonic hoperands
    exact unbroken_append.mpr ⟨unbroken_append.mpr ⟨hmnemonic, by decide⟩,
      Text.unbroken_intercalate (by decide) hoperands⟩

theorem unbroken_textTo {style : Style} (hstyle : Unbroken style.nearWords) (size : CodeSize)
    (short : Bool) (target : UInt64) (transfer : Transfer) :
    Unbroken (transfer.textTo style size short target) := by
  have htransfer : Unbroken transfer.text := by
    cases transfer with
    | jmp | call => decide
    | jcc condition => exact unbroken_append.mpr ⟨by decide, unbroken_suffix condition⟩
  have hform : Unbroken
      (if short then "short " else if transfer = .call then "" else style.nearWords) := by
    split_ifs
    · decide
    · decide
    · exact hstyle
  exact unbroken_append.mpr ⟨unbroken_append.mpr
    ⟨unbroken_append.mpr ⟨htransfer, by decide⟩, hform⟩, unbroken_paddedNumberText _ _⟩

theorem unbroken_decoded (d : Decoded) : Unbroken d.text := by
  cases d with
  | instruction i => exact unbroken_text .listing i
  | branch transfer short target =>
      exact unbroken_textTo (by decide) .bits64 short target transfer

end AsmLoader.Machine
