import AsmLoader.Proofs.Assembly.Encoded
import Mathlib.Data.Int.ModEq
/-!
# Ranges of immediates

An instruction takes an immediate at some width, and of that only a range: any signed or unsigned
number of the width, if it has up to 32 bits; a signed number of 32 bits, if it has 64; and a
count that is not negative. In the range the instruction has the number as its immediate, up to a
multiple of what the width counts. Outside it the same operands are refused.
-/

namespace AsmLoader.Source

open Machine (Width)

/-- What can be told of an operand without its numbers, labels and registers. -/
inductive Shape where
  | register (width : Width)
  | memory (size : Option Width)
  | immediate
  | label
  deriving DecidableEq, Repr

def Operand.shape : Operand → Shape
  | register r => .register r.width
  | immediate _ => .immediate
  | symbol _ => .label
  | memory size _ => .memory size

def Shape.width? : Shape → Option Width
  | register w => some w
  | memory size => size
  | immediate | label => none

end AsmLoader.Source

namespace AsmLoader.Assembly

open Machine (Address Arith CodeSize FitsBytes Instruction Place Register Width fitsDword
  immediateBytes)
open Source (Operand Shape Statement)

/-- The width at which an immediate is taken: that of a count, that of the stack, or that of the
first operand that has one. -/
def immediateWidth? (codeSize : CodeSize) (m : Mnemonic) (shapes : List Shape) : Option Width :=
  match m with
  | .bare _ => some .word
  | .shift _ => some .byte
  | .push => some (nativeWidth codeSize)
  | _ => shapes.findSome? Shape.width?

/-- The numbers that stand for one of a width: those from the first on that are less than the
second. -/
def numberBounds (w : Width) : Int × Int :=
  if w = .qword then (-2 ^ 31, 2 ^ 31) else (-2 ^ (w.bits - 1), 2 ^ w.bits)

/-- The numbers that an instruction takes at a width. Only a register can be given any number of
64 bits. -/
def immediateBounds (m : Mnemonic) (shapes : List Shape) (w : Width) : Int × Int :=
  match m, shapes with
  | .bare _, _ | .shift _, _ => (0, 2 ^ w.bits)
  | .mov, .register .qword :: _ => (-2 ^ 63, 2 ^ 63)
  | _, _ => numberBounds w

def InBounds (bounds : Int × Int) (x : Int) : Prop :=
  bounds.1 ≤ x ∧ x < bounds.2

def immediateBits (w : Width) : Nat :=
  if w = .qword then 32 else w.bits

def Argument.shape : Argument → Shape
  | register r => .register r.width
  | immediate _ => .immediate
  | label _ => .label
  | memory size _ => .memory size

theorem Context.shape_argument {c : Context} {operand : Operand} {a : Argument}
    (h : c.argument operand = .ok a) : a.shape = operand.shape := by
  cases operand with
  | immediate value =>
      cases h
      rfl
  | register | symbol | memory =>
      obtain ⟨_, -, ha⟩ := bind_eq_ok_iff.mp h
      cases ha
      rfl

theorem Context.map_shape {c : Context} {operands : List Operand} {args : List Argument}
    (h : operands.mapM c.argument = .ok args) :
    args.map Argument.shape = operands.map Operand.shape := by
  rw [mapM_eq_ok_iff] at h
  induction h with
  | nil => rfl
  | cons hargument _ ih => rw [List.map_cons, List.map_cons, ih, shape_argument hargument]

theorem Argument.width?_shape_ofPlace (p : Place PlaceId) :
    (ofPlace p).shape.width? = some p.width := by
  cases p <;> rfl

/-! ## Numbers at a width -/

theorem count_eq (w : Width) : w.count = 2 ^ w.bits := by
  cases w <;> rfl

theorem wrapImmediate_cases {w : Width} (hw : w ≠ .qword) (v : Int64) :
    (InBounds (numberBounds w) v.toInt ∧ ∃ v', wrapImmediate w v = .ok v' ∧
      FitsBytes (immediateBytes w) v' ∧ v'.toInt ≡ v.toInt [ZMOD 2 ^ w.bits]) ∨
    (¬InBounds (numberBounds w) v.toInt ∧
      wrapImmediate w v = .error (.immediateRange v (immediateBits w))) := by
  have hbounds : InBounds (numberBounds w) v.toInt ↔
      -(w.count / 2 : Nat) ≤ v.toInt ∧ v.toInt < w.count := by
    cases w <;> first | rfl | exact absurd rfl hw
  rw [hbounds, wrapImmediate, immediateBits, if_neg hw]
  split
  next hin =>
    have hcount : 0 < w.count ∧ w.count ≤ 2 ^ 32 := by
      cases w <;> simp [Width.count] at hw ⊢
    have hlow := Int.le_bmod (x := v.toInt) hcount.1
    have hhigh := Int.bmod_lt (x := v.toInt) hcount.1
    have hvalue : (Int64.ofInt (v.toInt.bmod w.count)).toInt = v.toInt.bmod w.count := by
      rw [Int64.toInt_ofInt]
      apply Int.bmod_eq_of_le_mul_two <;> simp only [Int64.size] <;> omega
    have hbytes : 256 ^ immediateBytes w = w.count := by
      cases w <;> first | rfl | exact absurd rfl hw
    have hmodulus : (2 ^ w.bits : Int) = w.count := by
      rw [count_eq]
      push_cast
      rfl
    refine .inl ⟨hin, _, rfl, ?_, ?_⟩
    · rw [FitsBytes, hvalue, hbytes]
      omega
    · rw [hvalue, hmodulus, Int.ModEq, Int.bmod_emod]
  next hout => exact .inr ⟨hout, rfl⟩

theorem immediateAt_cases (w : Width) (v : Int64) :
    (InBounds (numberBounds w) v.toInt ∧ ∃ v', immediateAt w v = .ok v' ∧
      FitsBytes (immediateBytes w) v' ∧ v'.toInt ≡ v.toInt [ZMOD 2 ^ w.bits]) ∨
    (¬InBounds (numberBounds w) v.toInt ∧
      immediateAt w v = .error (.immediateRange v (immediateBits w))) := by
  by_cases hw : w = .qword
  · subst hw
    have hbounds : InBounds (numberBounds .qword) v.toInt ↔ fitsDword v := by
      simp [InBounds, numberBounds, fitsDword]
    rw [hbounds, immediateAt, extendedImmediate]
    split
    next hfits =>
      refine .inl ⟨hfits, v, rfl, ?_, rfl⟩
      simp only [fitsDword, Bool.and_eq_true, decide_eq_true_eq] at hfits
      constructor <;> simp only [immediateBytes] <;> norm_num <;> omega
    next hout => exact .inr ⟨hout, rfl⟩
  · rw [Selects.immediateAt_of_ne_qword hw]
    exact wrapImmediate_cases hw v

theorem immediateAt_spec {w : Width} {v v' : Int64} (h : immediateAt w v = .ok v') :
    InBounds (numberBounds w) v.toInt ∧ FitsBytes (immediateBytes w) v' ∧
      v'.toInt ≡ v.toInt [ZMOD 2 ^ w.bits] := by
  rcases immediateAt_cases w v with ⟨hin, v'', hv, hfits, hmod⟩ | ⟨-, herror⟩
  · cases hv.symm.trans h
    exact ⟨hin, hfits, hmod⟩
  · cases herror.symm.trans h

theorem immediateAt_eq_error {w : Width} {v : Int64} (h : ¬InBounds (numberBounds w) v.toInt) :
    immediateAt w v = .error (.immediateRange v (immediateBits w)) := by
  rcases immediateAt_cases w v with ⟨hin, -⟩ | ⟨-, herror⟩
  · exact absurd hin h
  · exact herror

/-! ## Immediates of selected instructions -/

def Mnemonic.takesCount : Mnemonic → Bool
  | bare _ | shift _ => true
  | _ => false

theorem Argument.immediate_ne_ofPlace (v : Int64) (p : Place PlaceId) :
    immediate v ≠ ofPlace p := by
  cases p <;> exact nofun

theorem Argument.At.ne_immediate {w : Width} {a : Argument} {p : Place PlaceId} (h : a.At w p)
    (v : Int64) : immediate v ≠ a := by
  cases h <;> exact nofun

/-- What an instruction that was selected for an immediate has as its own. -/
structure Takes (codeSize : CodeSize) (m : Mnemonic) (shapes : List Shape) (v : Int64)
    (i : Instruction PlaceId) (w : Width) (x : Int) : Prop where
  width : immediateWidth? codeSize m shapes = some w
  bounds : InBounds (immediateBounds m shapes w) v.toInt
  immediate : i.immediate? = some x
  fits : i.ImmediateFits
  modEq : x ≡ v.toInt [ZMOD 2 ^ w.bits]
  count : m.takesCount → x = v.toInt

theorem toNat_toUInt64_of_nonneg {v : Int64} (h : 0 ≤ v.toInt) :
    (v.toUInt64.toNat : Int) = v.toInt := by
  have hmod := Machine.toNat_toUInt64_emod v (m := 2 ^ 64) (by norm_num)
  have hlt := v.toUInt64.toNat_lt
  have hhigh := v.toInt_lt
  omega

section

variable {codeSize : CodeSize} {m : Mnemonic} {args : List Argument} {shapes : List Shape}
  {i : Instruction PlaceId} {v v' : Int64} {w : Width}

theorem Takes.of_immediateAt (hv : immediateAt w v = .ok v')
    (hwidth : immediateWidth? codeSize m shapes = some w)
    (hbounds : immediateBounds m shapes w = numberBounds w)
    (himmediate : i.immediate? = some v'.toInt)
    (hfits : FitsBytes (immediateBytes w) v' → i.ImmediateFits) (hcount : m.takesCount = false) :
    Takes codeSize m shapes v i w v'.toInt := by
  obtain ⟨hin, hbytes, hmod⟩ := immediateAt_spec hv
  refine ⟨hwidth, ?_, himmediate, hfits hbytes, hmod, ?_⟩
  · rw [hbounds]
    exact hin
  · rw [hcount]
    exact nofun

theorem Takes.of_count {count : Nat} (hv : 0 ≤ v.toInt ∧ v.toInt < 2 ^ w.bits)
    (hcount : v.toUInt64.toNat % 2 ^ w.bits = count)
    (hwidth : immediateWidth? codeSize m shapes = some w)
    (hbounds : immediateBounds m shapes w = (0, 2 ^ w.bits))
    (himmediate : i.immediate? = some (count : Int)) (hfits : i.ImmediateFits) :
    Takes codeSize m shapes v i w count := by
  have hvalue : (count : Int) = v.toInt := by
    have hnat := toNat_toUInt64_of_nonneg hv.1
    rw [← hcount, Nat.mod_eq_of_lt, hnat]
    have hlt := hv.2
    rw [← hnat] at hlt
    exact_mod_cast hlt
  refine ⟨hwidth, ?_, himmediate, hfits, ?_, fun _ => hvalue⟩
  · rw [hbounds]
    exact hv
  · rw [hvalue]

theorem immediateBounds_mov_register (hw : w ≠ .qword) :
    immediateBounds .mov (.register w :: shapes) w = numberBounds w := by
  cases w <;> first | rfl | exact absurd rfl hw

theorem immediateBytes_of_ne_qword (hw : w ≠ .qword) : immediateBytes w = w.bytes := by
  cases w <;> first | rfl | exact absurd rfl hw

/-- An instruction that is selected for an immediate takes it. -/
theorem Selects.takes (h : Selects codeSize m args (.instruction i))
    (hv : .immediate v ∈ args) : ∃ w x, Takes codeSize m (args.map Argument.shape) v i w x := by
  cases h with
  | retPop hrange =>
      obtain rfl : v = _ := by simpa using hv
      refine ⟨.word, _, .of_count ?_ ?_ rfl rfl rfl trivial⟩
      · simp only [Width.bits, Width.bytes]
        omega
      · simp [Width.bits, Width.bytes]
  | shift hrange =>
      obtain rfl : v = _ := by simpa [Argument.immediate_ne_ofPlace] using hv
      refine ⟨.byte, _, .of_count ?_ ?_ rfl rfl rfl trivial⟩
      · simp only [Width.bits, Width.bytes]
        omega
      · simp [Width.bits, Width.bytes]
  | @movFull d v hd =>
      obtain rfl : _ = v := by simpa using hv
      have hlow := Int64.le_toInt v
      have hhigh := Int64.toInt_lt v
      refine ⟨.qword, _, ?_, ?_, rfl, ?_, rfl, ?_⟩
      · rw [List.map_cons, Argument.shape, hd]
        rfl
      · rw [List.map_cons, Argument.shape, hd]
        exact ⟨hlow, hhigh⟩
      · simp only [Instruction.ImmediateFits, hd, FitsBytes, Width.bytes]
        norm_num
        omega
      · rintro ⟨⟩
  | movRegister hd hvalue =>
      obtain rfl : v = _ := by simpa using hv
      refine ⟨_, _, .of_immediateAt hvalue rfl (immediateBounds_mov_register hd) rfl ?_ rfl⟩
      simp only [Instruction.ImmediateFits, immediateBytes_of_ne_qword hd, imp_self]
  | movMemory hvalue =>
      obtain rfl : v = _ := by simpa using hv
      exact ⟨_, _, .of_immediateAt hvalue rfl rfl rfl id rfl⟩
  | arithImmediate hvalue | testImmediate hvalue =>
      obtain rfl : v = _ := by simpa [Argument.immediate_ne_ofPlace] using hv
      refine ⟨_, _, .of_immediateAt hvalue ?_ rfl rfl id rfl⟩
      simp [immediateWidth?, Argument.width?_shape_ofPlace]
  | testImmediateSwapped hvalue =>
      obtain rfl : v = _ := by simpa using hv
      exact ⟨_, _, .of_immediateAt hvalue rfl rfl rfl id rfl⟩
  | imulImmediate hd hvalue =>
      obtain rfl : v = _ := by simpa using hv
      exact ⟨_, _, .of_immediateAt hvalue rfl rfl rfl id rfl⟩
  | imulPlaceImmediate hd hsrc hvalue =>
      obtain rfl : v = _ := by simpa [hsrc.ne_immediate] using hv
      exact ⟨_, _, .of_immediateAt hvalue rfl rfl rfl id rfl⟩
  | pushImmediate hvalue =>
      obtain rfl : v = _ := by simpa using hv
      refine ⟨_, _, .of_immediateAt hvalue rfl rfl rfl ?_ rfl⟩
      cases codeSize <;> exact id
  | mov h | arith h | test h | testSwapped h | xchg h | xchgSwapped h | movLoad h | arithLoad h
  | movsxd _ h | imul _ h | push h | pop h | set h | cmov _ h =>
      simp [h.ne_immediate] at hv
  | bare | movLabel | lea | leaLabel | movzx | movsx | shiftByCl | unary | callRegister
  | callMemory | jmpRegister | jmpMemory =>
      simp [Argument.immediate_ne_ofPlace] at hv

/-! ## Immediates out of bounds -/

theorem eq_of_append_immediate (front : List Argument) {back before after : List Argument}
    {a : Argument} (h : front ++ a :: back = before ++ .immediate v :: after)
    (hfront : .immediate v ∉ front) (hback : .immediate v ∉ back) :
    before = front ∧ after = back := by
  obtain ⟨hbefore, -, hafter⟩ := (List.append_cons_inj_of_notMem hfront hback).mp h
  exact ⟨hbefore.symm, hafter.symm⟩

theorem checkSameWidth_immediate (a : Argument) (v : Int64) :
    checkSameWidth a (.immediate v) = .ok () := by
  unfold checkSameWidth
  split
  next hwidth => cases hwidth
  next => rfl

theorem Argument.At.checkSameWidth_eq {d : Register} {a : Argument} {p : Place PlaceId}
    (h : a.At d.width p) : checkSameWidth (.register d) a = .ok () := by
  cases h with
  | register hr => simp [checkSameWidth, width?, hr]
  | memory hsize => rcases hsize with rfl | rfl <;> simp [checkSameWidth, width?]

theorem selectMov_register (codeSize : CodeSize) {d : Register} (hd : d.width ≠ .qword)
    (v : Int64) (invalid : StatementError) :
    selectMov codeSize (.register d) (.immediate v) invalid = (do
      let v' ← immediateAt d.width v
      choose (.movImmediate (.register d) v')) := by
  simp only [selectMov, checkSameWidth_immediate, ok_bind, if_neg hd,
    Selects.immediateAt_of_ne_qword hd]

theorem selectMov_memory (codeSize : CodeSize) (w : Width) (address : Address PlaceId)
    (v : Int64) (invalid : StatementError) :
    selectMov codeSize (.memory (some w) address) (.immediate v) invalid = (do
      let v' ← immediateAt w v
      choose (.movImmediate (.memory w address) v')) := by
  simp only [selectMov, checkSameWidth_immediate, ok_bind, memoryImmediate, bind_assoc,
    pure_bind]

theorem selectArith_immediate (op : Arith) (p : Place PlaceId) (v : Int64)
    (invalid : StatementError) :
    selectArith op (.ofPlace p) (.immediate v) invalid = (do
      let v' ← immediateAt p.width v
      choose (.arithImmediate op p v')) := by
  cases p with
  | register r => rfl
  | memory w address =>
      simp only [Argument.ofPlace, selectArith, checkSameWidth_immediate, ok_bind,
        memoryImmediate, bind_assoc, pure_bind, Place.width]

theorem selectTest_immediate (p : Place PlaceId) (v : Int64) (invalid : StatementError) :
    selectTest (.ofPlace p) (.immediate v) invalid = (do
      let v' ← immediateAt p.width v
      choose (.testImmediate p v')) := by
  cases p with
  | register r => rfl
  | memory w address =>
      simp only [Argument.ofPlace, selectTest, memoryFirst, checkSameWidth_immediate, ok_bind,
        memoryImmediate, bind_assoc, pure_bind, Place.width]

theorem selectTest_swapped (w : Width) (address : Address PlaceId) (v : Int64)
    (invalid : StatementError) :
    selectTest (.immediate v) (.memory (some w) address) invalid = (do
      let v' ← immediateAt w v
      choose (.testImmediate (.memory w address) v')) := by
  have hsame : checkSameWidth (.immediate v) (.memory (some w) address) = .ok () := rfl
  simp only [selectTest, memoryFirst, hsame, ok_bind, memoryImmediate, bind_assoc, pure_bind]

theorem selectImul_immediate {d : Register} (hd : d.width ≠ .byte) (v : Int64)
    (invalid : StatementError) :
    selectImul (.register d) (.immediate v) invalid = (do
      let v' ← immediateAt d.width v
      choose (.imulImmediate d (.register d) v')) := by
  simp only [selectImul, checkSameWidth_immediate, ok_bind, if_neg hd]

theorem selectImulImmediate_eq {d : Register} {src : Argument} {p : Place PlaceId}
    (hd : d.width ≠ .byte) (h : src.At d.width p) (v : Int64) (invalid : StatementError) :
    selectImulImmediate (.register d) src v invalid = (do
      let v' ← immediateAt d.width v
      choose (.imulImmediate d p v')) := by
  unfold selectImulImmediate
  rw [h.checkSameWidth_eq, ok_bind]
  cases h <;> simp only [if_neg hd]

theorem width_eq_of_ofPlace {p : Place PlaceId} {rest : List Shape}
    (h : ((Argument.ofPlace p).shape :: rest).findSome? Shape.width? = some w) :
    p.width = w := by
  rw [List.findSome?_cons, Argument.width?_shape_ofPlace] at h
  exact Option.some_injective _ h

theorem eq_error_of_immediateAt {selection : Selection} {make : Int64 → Selection}
    (h : selection = immediateAt w v >>= make) (hv : ¬InBounds (numberBounds w) v.toInt) :
    selection = .error (.immediateRange v (immediateBits w)) := by
  rw [h, immediateAt_eq_error hv, error_bind]

theorem Selects.selectKnown_eq_error {before after : List Argument}
    (h : Selects codeSize m args (.instruction i))
    (hargs : args = before ++ .immediate v' :: after)
    (hw : immediateWidth? codeSize m (args.map Argument.shape) = some w)
    (hv : ¬InBounds (immediateBounds m (args.map Argument.shape) w) v.toInt)
    (invalid : StatementError) :
    selectKnown codeSize m (before ++ .immediate v :: after) invalid =
      .error (.immediateRange v (immediateBits w)) := by
  have hmem : .immediate v' ∈ args := by simp [hargs]
  cases h with
  | retPop =>
      obtain ⟨rfl, rfl⟩ := eq_of_append_immediate [] hargs (by simp) (by simp)
      cases hw
      have hrange : ¬(0 ≤ v.toInt ∧ v.toInt ≤ 0xFFFF) := by
        simp only [InBounds, immediateBounds, Width.bits, Width.bytes] at hv
        omega
      simp [selectKnown, hrange, immediateBits, Width.bits, Width.bytes]
  | @shift _ p =>
      obtain ⟨rfl, rfl⟩ := eq_of_append_immediate [_] hargs
        (by simp [Argument.immediate_ne_ofPlace]) (by simp)
      cases hw
      have hrange : ¬(0 ≤ v.toInt ∧ v.toInt ≤ 255) := by
        simp only [InBounds, immediateBounds, Width.bits, Width.bytes] at hv
        omega
      cases p <;>
        simp [selectKnown, selectShift, Argument.ofPlace, hrange, immediateBits, Width.bits,
          Width.bytes]
  | movFull hd =>
      -- every number is in these bounds
      rw [List.map_cons, Argument.shape, hd] at hw hv
      cases hw
      exact absurd ⟨Int64.le_toInt v, Int64.toInt_lt v⟩ hv
  | movRegister hd =>
      obtain ⟨rfl, rfl⟩ := eq_of_append_immediate [_] hargs (by simp) (by simp)
      cases hw
      rw [List.map_cons, Argument.shape, immediateBounds_mov_register hd] at hv
      exact eq_error_of_immediateAt (selectMov_register codeSize hd v invalid) hv
  | movMemory =>
      obtain ⟨rfl, rfl⟩ := eq_of_append_immediate [_] hargs (by simp) (by simp)
      cases hw
      exact eq_error_of_immediateAt (selectMov_memory codeSize _ _ v invalid) hv
  | arithImmediate =>
      obtain ⟨rfl, rfl⟩ := eq_of_append_immediate [_] hargs
        (by simp [Argument.immediate_ne_ofPlace]) (by simp)
      obtain rfl := width_eq_of_ofPlace hw
      exact eq_error_of_immediateAt (selectArith_immediate _ _ v invalid) hv
  | testImmediate =>
      obtain ⟨rfl, rfl⟩ := eq_of_append_immediate [_] hargs
        (by simp [Argument.immediate_ne_ofPlace]) (by simp)
      obtain rfl := width_eq_of_ofPlace hw
      exact eq_error_of_immediateAt (selectTest_immediate _ v invalid) hv
  | testImmediateSwapped =>
      obtain ⟨rfl, rfl⟩ := eq_of_append_immediate [] hargs (by simp) (by simp)
      cases hw
      exact eq_error_of_immediateAt (selectTest_swapped _ _ v invalid) hv
  | imulImmediate hd =>
      obtain ⟨rfl, rfl⟩ := eq_of_append_immediate [_] hargs (by simp) (by simp)
      cases hw
      exact eq_error_of_immediateAt (selectImul_immediate hd v invalid) hv
  | imulPlaceImmediate hd hsrc =>
      obtain ⟨rfl, rfl⟩ := eq_of_append_immediate [_, _] hargs (by simp [hsrc.ne_immediate])
        (by simp)
      cases hw
      exact eq_error_of_immediateAt (selectImulImmediate_eq hd hsrc v invalid) hv
  | pushImmediate =>
      obtain ⟨rfl, rfl⟩ := eq_of_append_immediate [] hargs (by simp) (by simp)
      cases hw
      exact eq_error_of_immediateAt rfl hv
  | mov h | arith h | test h | testSwapped h | xchg h | xchgSwapped h | movLoad h | arithLoad h
  | movsxd _ h | imul _ h | push h | pop h | set h | cmov _ h =>
      simp [h.ne_immediate] at hmem
  | bare | movLabel | lea | leaLabel | movzx | movsx | shiftByCl | unary | callRegister
  | callMemory | jmpRegister | jmpMemory =>
      simp [Argument.immediate_ne_ofPlace] at hmem

end

end AsmLoader.Assembly
