import AsmLoader.Proofs.Machine.Dissection
import Mathlib.Data.Fintype.Basic
import Mathlib.Tactic.FinCases
/-!
# What instructions show

The immediate of an instruction, and the width of the memory that it accesses, are told by its
bytes. There is one lemma for each shape of instruction; which opcode it has at which width, and
whether a shorter form takes its place, is looked at only here.
-/

namespace AsmLoader.Machine

variable {α : Type} {size : CodeSize}

/-- A number that is read back from so many bytes. -/
def FitsBytes (count : Nat) (value : Int64) : Prop :=
  -(256 ^ count : Nat) ≤ value.toInt * 2 ∧ value.toInt * 2 < (256 ^ count : Nat)

theorem fitsBytes_of_fitsByte {value : Int64} (h : fitsByte value) : FitsBytes 1 value := by
  simp only [fitsByte, Bool.and_eq_true, decide_eq_true_eq] at h
  constructor <;> norm_num <;> omega

theorem ImmediateKind.read?_signed {count : Nat} {value : Int64} (hcount : count ≤ 8)
    (h : FitsBytes count value) :
    (signed count).read? (signedBytes count value) = some value.toInt := by
  rw [read?, if_pos (length_signedBytes count value), ofSignedBytes_signedBytes hcount h.1 h.2]

/-- The bytes of a form show that it has an immediate. -/
structure Form.ShowsImmediate (size : CodeSize) (f : Form α) (x : Int) : Prop where
  plain : f.isPlain size
  immediate : f.dissection.immediate? = some x

/-- The bytes of a form show that it accesses memory of a width. -/
structure Form.ShowsAccess (size : CodeSize) (f : Form α) (w : Width) : Prop where
  plain : f.isPlain size
  access : f.dissection.access? size = some w

theorem Form.immediate_dissection (f : Form α) : f.dissection.immediate = f.immediate := by
  unfold dissection
  split <;> rfl

theorem Form.showsImmediate_of_kind {f : Form α} {x : Int} (kind : ImmediateKind)
    (hplain : f.isPlain size) (hkind : f.dissection.kind? = some kind)
    (hread : kind.read? f.immediate = some x) : f.ShowsImmediate size x := by
  refine ⟨hplain, ?_⟩
  rw [Dissection.immediate?, hkind, immediate_dissection]
  exact hread

theorem Form.showsImmediate_of_signed {f : Form α} {count : Nat} {value : Int64}
    (hplain : f.isPlain size) (hkind : f.dissection.kind? = some (.signed count))
    (himmediate : f.immediate = signedBytes count value) (hcount : count ≤ 8)
    (h : FitsBytes count value) : f.ShowsImmediate size value.toInt := by
  apply showsImmediate_of_kind (.signed count) hplain hkind
  rw [himmediate]
  exact ImmediateKind.read?_signed hcount h

theorem immediateBytes_le (w : Width) : immediateBytes w ≤ 8 := by
  cases w <;> decide

namespace Instruction

def immediate? : Instruction α → Option Int
  | retPop count => some count.toNat
  | movImmediate _ value | arithImmediate _ _ value | testImmediate _ value => some value.toInt
  | imulImmediate _ _ value | pushImmediate value => some value.toInt
  | shift _ _ count => some count.toNat
  | _ => none

def ImmediateFits : Instruction α → Prop
  | movImmediate (.register r) value => FitsBytes r.width.bytes value
  | movImmediate (.memory w _) value => FitsBytes (immediateBytes w) value
  | arithImmediate _ dst value | testImmediate dst value =>
    FitsBytes (immediateBytes dst.width) value
  | imulImmediate dst _ value => FitsBytes (immediateBytes dst.width) value
  | pushImmediate value => FitsBytes 4 value
  | _ => True

end Instruction

def Place.access? (w : Width) : Place α → Option Width
  | register _ => none
  | memory .. => some w

namespace Instruction

/-- The width of the memory that an instruction reads or writes at the place that it names. -/
def access? : Instruction α → Option Width
  | mov dst src | arith _ dst src | test dst src | xchg dst src => dst.access? src.width
  | movLoad dst _ | arithLoad _ dst _ => some dst.width
  | movImmediate dst _ | arithImmediate _ dst _ | testImmediate dst _ => dst.access? dst.width
  | shift _ dst _ | shiftByCl _ dst | unary _ dst => dst.access? dst.width
  | movzx _ src | movsx _ src | push src => src.access? src.width
  | movsxd _ src => src.access? .dword
  | imul dst src | imulImmediate dst src _ | cmov _ dst src => src.access? dst.width
  | pop dst | callPlace dst | jmpPlace dst => dst.access? dst.width
  | set _ dst => dst.access? .byte
  | bare _ | nopPlace _ | interrupt _ | retPop _ | lea .. | pushImmediate _ => none

/-- The widths of an instruction are some that it has. -/
def Regular (size : CodeSize) : Instruction α → Prop
  | movzx _ src | movsx _ src => src.width = .byte ∨ src.width = .word
  | movsxd dst _ => dst.width = .qword
  | imul dst _ | imulImmediate dst _ _ | cmov _ dst _ => dst.width ≠ .byte
  | push place | pop place => ∀ w ∈ place.access? place.width, w = .word ∨ w = size.width
  | callPlace place | jmpPlace place => ∀ w ∈ place.access? place.width, w = size.width
  | _ => True

end Instruction

/-! ## Opcodes that tell bytes from other widths -/

def IsByteOpcode (b : UInt8) : Prop :=
  b.toNat % 2 = 0 ∧ hasOperandByte false b.toNat ∧ hasOperandByte false (b.toNat + 1) ∧
    b.toNat + 1 ∉ [0x63, 0x8D, 0x8F, 0xFF]

instance (b : UInt8) : Decidable (IsByteOpcode b) :=
  inferInstanceAs (Decidable (_ ∧ _ ∧ _ ∧ _))

theorem isPlain_of_hasOperandByte {narrow wide : Bool} {b : UInt8} {field : Field}
    {place : Place α} {immediate : List UInt8} (h : hasOperandByte false b.toNat) :
    (⟨narrow, wide, [b], .operandByte field place, immediate⟩ : Form α).isPlain size := by
  have hnarrow : b ≠ 0x66 := by
    rintro rfl
    cases h
  have hescape : b ≠ 0x0F := by
    rintro rfl
    cases h
  have haddress : b ≠ 0x67 := by
    rintro rfl
    cases h
  have hextension : b.toNat / 16 ≠ 4 := by
    simp only [hasOperandByte, Bool.false_eq_true, if_false, Bool.or_eq_true, Bool.and_eq_true,
      decide_eq_true_eq, List.mem_cons, List.not_mem_nil, or_false] at h
    omega
  simp [Form.isPlain, Form.head, Form.operand?, h, hnarrow, hescape, haddress, hextension]

theorem access?_of_not_special {d : Dissection} {field : Nat} (hescaped : d.escaped = false)
    (hoperand : d.operand = some (field, true))
    (hspecial : d.opcode ∉ [0x63, 0x8D, 0x8F, 0xFF]) : d.access? size = some d.width := by
  simp only [List.mem_cons, List.not_mem_nil, or_false, not_or] at hspecial
  simp [Dissection.access?, hescaped, hoperand, hspecial]

theorem showsAccess_opcodeAt {b : UInt8} (hb : IsByteOpcode b) (w : Width) (field : Field)
    (w' : Width) (address : Address α) (immediate : List UInt8) :
    (Form.sized w [opcodeAt w b] (.operandByte field (.memory w' address)) immediate).ShowsAccess
      size w := by
  obtain ⟨heven, hbyte, hnext, hspecial⟩ := hb
  have hsucc : (b + 1).toNat = b.toNat + 1 := by
    have hlt := b.toNat_lt
    rw [UInt8.toNat_add]
    change (b.toNat + 1) % 256 = b.toNat + 1
    omega
  have hodd : (b.toNat + 1) % 2 ≠ 0 := by omega
  have hwidth : (Form.sized w [opcodeAt w b] (.operandByte field (.memory w' address))
      immediate).dissection.width = w := by
    cases w <;>
      simp [Form.dissection, Form.head, Form.sized, opcodeAt, Dissection.width,
        Dissection.fullWidth, hsucc, heven, hodd]
  have hopcode : hasOperandByte false (opcodeAt w b).toNat ∧
      (opcodeAt w b).toNat ∉ [0x63, 0x8D, 0x8F, 0xFF] := by
    cases w with
    | byte =>
        refine ⟨hbyte, ?_⟩
        simp only [opcodeAt, List.mem_cons, List.not_mem_nil, or_false]
        omega
    | word | dword | qword =>
        change hasOperandByte false (b + 1).toNat ∧ (b + 1).toNat ∉ _
        rw [hsucc]
        exact ⟨hnext, hspecial⟩
  refine ⟨isPlain_of_hasOperandByte hopcode.1, ?_⟩
  rw [access?_of_not_special rfl rfl hopcode.2, hwidth]

theorem isByteOpcode_arith (op : Arith) :
    IsByteOpcode (8 * UInt8.ofNat op.code.val) ∧
    IsByteOpcode (8 * UInt8.ofNat op.code.val + 2) := by
  cases op <;> decide

namespace Instruction

/-! ## Immediates -/

section

attribute [local simp] Form.sized Form.withDigit Form.withRegister Form.onStack Form.dissection
  Form.head Form.operand? Form.isPlain opcodeAt opcodeWith hasOperandByte Field.value Place.width
  Place.isMemory Dissection.kind? Dissection.access? Dissection.width Dissection.fullWidth
  Dissection.stackWidth Dissection.targetWidth Width.bytes immediateBytes

theorem showsImmediate_retPop (count : UInt16) :
    ((retPop count : Instruction α).form size).ShowsImmediate size count.toNat := by
  have hlt : count.toNat < 256 ^ 2 := count.toNat_lt
  apply Form.showsImmediate_of_kind (.unsigned 2)
  · cases size <;> rfl
  · simp [form]
  · change ImmediateKind.read? (.unsigned 2) (lowBytes 2 count.toNat) = _
    rw [ImmediateKind.read?, if_pos (length_lowBytes 2 _), ofLowBytes_lowBytes,
      Nat.mod_eq_of_lt hlt]

theorem showsImmediate_movRegister {r : Register} {value : Int64}
    (h : FitsBytes r.width.bytes value) :
    ((movImmediate (.register r) value : Instruction α).form size).ShowsImmediate size
      value.toInt := by
  obtain ⟨k, hk⟩ : ∃ k : Fin 8, r.number.val % 8 = k.val := ⟨Fin.ofNat 8 r.number.val, rfl⟩
  have hbytes : r.width.bytes ≤ 8 := by cases r.width <;> decide
  apply Form.showsImmediate_of_signed _ _ rfl hbytes h
  · simp only [form, Form.sized, Form.isPlain, Form.head, opcodeWith, Form.operand?, hk]
    generalize r.width = w
    cases w <;> cases size <;> fin_cases k <;> rfl
  · simp only [form, Form.sized, Form.dissection, Form.head, opcodeWith, Form.operand?, hk]
    generalize r.width = w
    cases w <;> fin_cases k <;> simp

theorem showsImmediate_movMemory {w : Width} {address : Address α} {value : Int64}
    (h : FitsBytes (immediateBytes w) value) :
    ((movImmediate (.memory w address) value).form size).ShowsImmediate size value.toInt := by
  apply Form.showsImmediate_of_signed _ _ rfl (immediateBytes_le w) h
  · cases w <;> cases size <;> simp [form]
  · cases w <;> simp [form]

theorem showsImmediate_arith {op : Arith} {dst : Place α} {value : Int64}
    (h : FitsBytes (immediateBytes dst.width) value) :
    ((arithImmediate op dst value).form size).ShowsImmediate size value.toInt := by
  have hcount := immediateBytes_le dst.width
  simp only [form, arithImmediateForm]
  generalize hw : dst.width = w at h hcount ⊢
  split_ifs with haccumulator hbyte hfits
  · apply Form.showsImmediate_of_signed _ _ rfl hcount h
    · cases w <;> cases op <;> cases size <;> rfl
    · cases w <;> cases op <;> simp [Arith.code]
  · rw [Form.withDigit, hw]
    apply Form.showsImmediate_of_signed _ _ rfl hcount h
    · cases w <;> cases size <;> rfl
    · cases w <;> simp
  · apply Form.showsImmediate_of_signed _ _ rfl (by decide) (fitsBytes_of_fitsByte hfits)
    · cases w <;> cases size <;> rfl
    · cases w <;> simp
  · rw [Form.withDigit, hw]
    apply Form.showsImmediate_of_signed _ _ rfl hcount h
    · cases w <;> cases size <;> rfl
    · cases w <;> simp

theorem showsImmediate_test {dst : Place α} {value : Int64}
    (h : FitsBytes (immediateBytes dst.width) value) :
    ((testImmediate dst value).form size).ShowsImmediate size value.toInt := by
  have hcount := immediateBytes_le dst.width
  simp only [form, Form.withDigit]
  generalize dst.width = w at h hcount ⊢
  split
  next =>
    apply Form.showsImmediate_of_signed _ _ rfl hcount h
    · cases w <;> cases size <;> rfl
    · cases w <;> simp
  next =>
    apply Form.showsImmediate_of_signed _ _ rfl hcount h
    · cases w <;> cases size <;> rfl
    · cases w <;> simp

theorem showsImmediate_shift (op : Shift) (dst : Place α) (count : UInt8) :
    ((shift op dst count).form size).ShowsImmediate size count.toNat := by
  simp only [form, Form.withDigit]
  generalize dst.width = w
  split
  next hone =>
    subst hone
    apply Form.showsImmediate_of_kind .one
    · cases w <;> cases size <;> rfl
    · cases w <;> simp
    · rfl
  next =>
    apply Form.showsImmediate_of_kind (.unsigned 1)
    · cases w <;> cases size <;> rfl
    · cases w <;> simp
    · change ImmediateKind.read? (.unsigned 1) [count] = _
      simp [ImmediateKind.read?, ofLowBytes]

theorem showsImmediate_imul {dst : Register} {src : Place α} {value : Int64}
    (h : FitsBytes (immediateBytes dst.width) value) (hd : dst.width ≠ .byte) :
    ((imulImmediate dst src value).form size).ShowsImmediate size value.toInt := by
  simp only [form]
  generalize dst.width = w at h hd ⊢
  split
  next hfits =>
    apply Form.showsImmediate_of_signed _ _ rfl (by decide) (fitsBytes_of_fitsByte hfits)
    · cases w <;> cases size <;> rfl
    · cases w <;> simp
  next =>
    apply Form.showsImmediate_of_signed _ _ rfl (immediateBytes_le w) h
    · cases w <;> cases size <;> rfl
    · cases w <;> simp at hd ⊢

theorem showsImmediate_push {value : Int64} (h : FitsBytes 4 value) :
    ((pushImmediate value : Instruction α).form size).ShowsImmediate size value.toInt := by
  simp only [form]
  split
  next hfits =>
    apply Form.showsImmediate_of_signed _ _ rfl (by decide) (fitsBytes_of_fitsByte hfits)
    · cases size <;> rfl
    · simp
  next =>
    apply Form.showsImmediate_of_signed _ _ rfl (by decide) h
    · cases size <;> rfl
    · simp

theorem showsImmediate {i : Instruction α} {x : Int} (h : i.immediate? = some x)
    (hfits : i.ImmediateFits) (hregular : i.Regular size) :
    (i.form size).ShowsImmediate size x := by
  cases i with
  | retPop count =>
      cases h
      exact showsImmediate_retPop count
  | movImmediate dst value =>
      cases h
      cases dst with
      | register r => exact showsImmediate_movRegister hfits
      | memory w address => exact showsImmediate_movMemory hfits
  | arithImmediate op dst value =>
      cases h
      exact showsImmediate_arith hfits
  | testImmediate dst value =>
      cases h
      exact showsImmediate_test hfits
  | shift op dst count =>
      cases h
      exact showsImmediate_shift op dst count
  | imulImmediate dst src value =>
      cases h
      exact showsImmediate_imul hfits hregular
  | pushImmediate value =>
      cases h
      exact showsImmediate_push hfits
  | _ => cases h

end

/-! ## Accesses -/

section

attribute [local simp] Form.sized Form.withRegister Form.onStack Form.dissection Form.head
  Form.operand? Form.isPlain opcodeAt hasOperandByte Field.value Place.width Place.isMemory
  Dissection.access? Dissection.width Dissection.fullWidth Dissection.stackWidth
  Dissection.targetWidth

variable {w : Width} {address : Address α}

theorem showsAccess_movzx {dst : Register} (hw : w = .byte ∨ w = .word) :
    ((movzx dst (.memory w address)).form size).ShowsAccess size w := by
  rcases hw with rfl | rfl <;> constructor <;> simp [form]

theorem showsAccess_movsx {dst : Register} (hw : w = .byte ∨ w = .word) :
    ((movsx dst (.memory w address)).form size).ShowsAccess size w := by
  rcases hw with rfl | rfl <;> constructor <;> simp [form]

theorem showsAccess_movsxd {dst : Register} (hdst : dst.width = .qword) :
    ((movsxd dst (.memory w address)).form size).ShowsAccess size .dword := by
  constructor <;> simp [form, hdst]

theorem showsAccess_imul {dst : Register} (hdst : dst.width ≠ .byte) :
    ((imul dst (.memory w address)).form size).ShowsAccess size dst.width := by
  generalize h : dst.width = w' at hdst ⊢
  constructor <;> cases w' <;> simp [form, h] at hdst ⊢

theorem showsAccess_imulImmediate {dst : Register} {value : Int64} (hdst : dst.width ≠ .byte) :
    ((imulImmediate dst (.memory w address) value).form size).ShowsAccess size dst.width := by
  simp only [form]
  generalize dst.width = w' at hdst ⊢
  split <;> constructor <;> cases w' <;> simp at hdst ⊢

theorem showsAccess_cmov {condition : Condition} {dst : Register} (hdst : dst.width ≠ .byte) :
    ((cmov condition dst (.memory w address)).form size).ShowsAccess size dst.width := by
  generalize h : dst.width = w' at hdst ⊢
  constructor <;> cases w' <;> cases condition <;> simp [form, h, Condition.code] at hdst ⊢

theorem showsAccess_set {condition : Condition} :
    ((set condition (.memory w address)).form size).ShowsAccess size .byte := by
  constructor <;> cases condition <;> simp [form, Condition.code]

theorem showsAccess_unary {op : Unary} :
    ((unary op (.memory w address)).form size).ShowsAccess size w := by
  constructor <;> cases op <;> cases w <;> simp [form, Unary.code, Form.withDigit]

theorem showsAccess_push (hw : w = .word ∨ w = size.width) :
    ((push (.memory w address)).form size).ShowsAccess size w := by
  rcases hw with rfl | rfl <;> constructor <;> cases size <;> simp [form, CodeSize.width]

theorem showsAccess_pop (hw : w = .word ∨ w = size.width) :
    ((pop (.memory w address)).form size).ShowsAccess size w := by
  rcases hw with rfl | rfl <;> constructor <;> cases size <;> simp [form, CodeSize.width]

theorem showsAccess_callPlace (hw : w = size.width) :
    ((callPlace (.memory w address)).form size).ShowsAccess size w := by
  subst hw
  constructor <;> cases size <;> simp [form, CodeSize.width]

theorem showsAccess_jmpPlace (hw : w = size.width) :
    ((jmpPlace (.memory w address)).form size).ShowsAccess size w := by
  subst hw
  constructor <;> cases size <;> simp [form, CodeSize.width]

end

theorem showsAccess_arithImmediate {op : Arith} {w : Width} {address : Address α}
    {value : Int64} :
    ((arithImmediate op (.memory w address) value).form size).ShowsAccess size w := by
  simp only [form, arithImmediateForm, Place.isAccumulator, Bool.false_eq_true, if_false]
  split_ifs with hbyte hfits
  · exact showsAccess_opcodeAt (by decide) w _ _ _ _
  · have hw : opcodeAt w 0x82 = 0x83 := by cases w <;> simp [Place.width] at hbyte ⊢ <;> rfl
    rw [← hw]
    exact showsAccess_opcodeAt (by decide) w _ _ _ _
  · exact showsAccess_opcodeAt (by decide) w _ _ _ _

theorem showsAccess_shift {op : Shift} {w : Width} {address : Address α} {count : UInt8} :
    ((shift op (.memory w address) count).form size).ShowsAccess size w := by
  simp only [form]
  split
  next => exact showsAccess_opcodeAt (by decide) w _ _ _ _
  next => exact showsAccess_opcodeAt (by decide) w _ _ _ _

theorem showsAccess {w : Width} {i : Instruction α} (h : i.access? = some w)
    (hregular : i.Regular size) : (i.form size).ShowsAccess size w := by
  have memory {w w' : Width} {place : Place α} (h : place.access? w' = some w) :
      w' = w ∧ ∃ w'' address, place = .memory w'' address := by
    cases place with
    | register r => cases h
    | memory w'' address => exact ⟨Option.some.inj h, w'', address, rfl⟩
  cases i with
  | mov dst src =>
      obtain ⟨rfl, w', address, rfl⟩ := memory h
      exact showsAccess_opcodeAt (by decide) _ _ _ _ _
  | movLoad dst src =>
      cases h
      exact showsAccess_opcodeAt (by decide) _ _ _ _ _
  | movImmediate dst value =>
      obtain ⟨rfl, w', address, rfl⟩ := memory h
      exact showsAccess_opcodeAt (by decide) _ _ _ _ _
  | arith op dst src =>
      obtain ⟨rfl, w', address, rfl⟩ := memory h
      exact showsAccess_opcodeAt (isByteOpcode_arith op).1 _ _ _ _ _
  | arithLoad op dst src =>
      cases h
      exact showsAccess_opcodeAt (isByteOpcode_arith op).2 _ _ _ _ _
  | arithImmediate op dst value =>
      obtain ⟨rfl, w', address, rfl⟩ := memory h
      exact showsAccess_arithImmediate
  | test dst src =>
      obtain ⟨rfl, w', address, rfl⟩ := memory h
      exact showsAccess_opcodeAt (by decide) _ _ _ _ _
  | testImmediate dst value =>
      obtain ⟨rfl, w', address, rfl⟩ := memory h
      exact showsAccess_opcodeAt (by decide) _ _ _ _ _
  | xchg dst src =>
      obtain ⟨rfl, w', address, rfl⟩ := memory h
      exact showsAccess_opcodeAt (by decide) _ _ _ _ _
  | shift op dst count =>
      obtain ⟨rfl, w', address, rfl⟩ := memory h
      exact showsAccess_shift
  | shiftByCl op dst =>
      obtain ⟨rfl, w', address, rfl⟩ := memory h
      exact showsAccess_opcodeAt (by decide) _ _ _ _ _
  | unary op dst =>
      obtain ⟨rfl, w', address, rfl⟩ := memory h
      exact showsAccess_unary
  | movzx dst src =>
      obtain ⟨rfl, w', address, rfl⟩ := memory h
      exact showsAccess_movzx hregular
  | movsx dst src =>
      obtain ⟨rfl, w', address, rfl⟩ := memory h
      exact showsAccess_movsx hregular
  | movsxd dst src =>
      obtain ⟨rfl, w', address, rfl⟩ := memory h
      exact showsAccess_movsxd hregular
  | imul dst src =>
      obtain ⟨rfl, w', address, rfl⟩ := memory h
      exact showsAccess_imul hregular
  | imulImmediate dst src value =>
      obtain ⟨rfl, w', address, rfl⟩ := memory h
      exact showsAccess_imulImmediate hregular
  | cmov condition dst src =>
      obtain ⟨rfl, w', address, rfl⟩ := memory h
      exact showsAccess_cmov hregular
  | push src =>
      obtain ⟨rfl, w', address, rfl⟩ := memory h
      exact showsAccess_push (hregular _ rfl)
  | pop dst =>
      obtain ⟨rfl, w', address, rfl⟩ := memory h
      exact showsAccess_pop (hregular _ rfl)
  | callPlace target =>
      obtain ⟨rfl, w', address, rfl⟩ := memory h
      exact showsAccess_callPlace (hregular _ rfl)
  | jmpPlace target =>
      obtain ⟨rfl, w', address, rfl⟩ := memory h
      exact showsAccess_jmpPlace (hregular _ rfl)
  | set condition dst =>
      obtain ⟨rfl, w', address, rfl⟩ := memory h
      exact showsAccess_set
  | bare | nopPlace | interrupt | retPop | lea | pushImmediate => cases h

end Instruction

end AsmLoader.Machine
