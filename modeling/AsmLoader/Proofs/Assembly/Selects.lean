import AsmLoader.Proofs.Assembly.ImmediateTargets
/-!
# What is selected

All that a mnemonic and its arguments can stand for, one case for each shape that the arguments
can have. Facts about selected instructions are read off these cases, and need not go through the
checks by which a shape is told.
-/

namespace AsmLoader.Assembly

open Machine
  (Address Arith Bare CodeSize Condition Instruction Place Register Shift Transfer Unary
  Width)

/-- An argument that can be taken for a place of a width: a register of that width, or memory
that is not said to have another. -/
inductive Argument.At (w : Width) : Argument → Place PlaceId → Prop where
  | register {r} (h : r.width = w) : At w (.register r) (.register r)
  | memory {size address} (h : size = none ∨ size = some w) :
      At w (.memory size address) (.memory w address)

def Argument.ofPlace : Place PlaceId → Argument
  | .register r => .register r
  | .memory w address => .memory (some w) address

def Stackable (codeSize : CodeSize) : Place PlaceId → Prop
  | .register r => r.width = .word ∨ r.width = nativeWidth codeSize ∨ r.width = .qword
  | .memory w _ => w = nativeWidth codeSize

/-- A mnemonic and its arguments stand for an instruction or a branch. -/
inductive Selects (codeSize : CodeSize) : Mnemonic → List Argument → Selected → Prop where
  | bare {op} : Selects codeSize (.bare op) [] (.instruction (.bare op))
  | retPop {v} (hv : 0 ≤ v.toInt ∧ v.toInt ≤ 0xFFFF) :
      Selects codeSize (.bare .ret) [.immediate v] (.instruction (.retPop v.toUInt64.toUInt16))
  | mov {dst p s} (h : dst.At s.width p) :
      Selects codeSize .mov [dst, .register s] (.instruction (.mov p s))
  | movLoad {d src address} (h : src.At d.width (.memory d.width address)) :
      Selects codeSize .mov [.register d, src] (.instruction (.movLoad d address))
  | movFull {d v} (h : d.width = .qword) :
      Selects codeSize .mov [.register d, .immediate v]
        (.instruction (.movImmediate (.register d) v))
  | movRegister {d v v'} (h : d.width ≠ .qword) (hv : immediateAt d.width v = .ok v') :
      Selects codeSize .mov [.register d, .immediate v]
        (.instruction (.movImmediate (.register d) v'))
  | movMemory {w address v v'} (hv : immediateAt w v = .ok v') :
      Selects codeSize .mov [.memory (some w) address, .immediate v]
        (.instruction (.movImmediate (.memory w address) v'))
  | movLabel {d place} (h : d.width = .qword ∨ (d.width = .dword ∧ codeSize = .bits32)) :
      Selects codeSize .mov [.register d, .label place]
        (.instruction (.lea d (.relative place)))
  | arith {op dst p s} (h : dst.At s.width p) :
      Selects codeSize (.arith op) [dst, .register s] (.instruction (.arith op p s))
  | arithLoad {op d src address} (h : src.At d.width (.memory d.width address)) :
      Selects codeSize (.arith op) [.register d, src] (.instruction (.arithLoad op d address))
  | arithImmediate {op p v v'} (hv : immediateAt p.width v = .ok v') :
      Selects codeSize (.arith op) [.ofPlace p, .immediate v]
        (.instruction (.arithImmediate op p v'))
  | test {dst p s} (h : dst.At s.width p) :
      Selects codeSize .test [dst, .register s] (.instruction (.test p s))
  | testSwapped {src p s} (h : src.At s.width p) :
      Selects codeSize .test [.register s, src] (.instruction (.test p s))
  | testImmediate {p v v'} (hv : immediateAt p.width v = .ok v') :
      Selects codeSize .test [.ofPlace p, .immediate v] (.instruction (.testImmediate p v'))
  | testImmediateSwapped {w address v v'} (hv : immediateAt w v = .ok v') :
      Selects codeSize .test [.immediate v, .memory (some w) address]
        (.instruction (.testImmediate (.memory w address) v'))
  | xchg {dst p s} (h : dst.At s.width p) :
      Selects codeSize .xchg [dst, .register s] (.instruction (.xchg p s))
  | xchgSwapped {src p s} (h : src.At s.width p) :
      Selects codeSize .xchg [.register s, src] (.instruction (.xchg p s))
  | lea {d size address} (h : d.width ≠ .byte) :
      Selects codeSize .lea [.register d, .memory size address] (.instruction (.lea d address))
  | leaLabel {d place} (h : d.width = .qword ∨ d.width = .dword) :
      Selects codeSize .lea [.register d, .label place] (.instruction (.lea d (.relative place)))
  | movzx {d p} (h : canExtend d.width p.width) :
      Selects codeSize .movzx [.register d, .ofPlace p] (.instruction (.movzx d p))
  | movsx {d p} (h : canExtend d.width p.width) :
      Selects codeSize .movsx [.register d, .ofPlace p] (.instruction (.movsx d p))
  | movsxd {d src p} (hd : d.width = .qword) (h : src.At .dword p) :
      Selects codeSize .movsxd [.register d, src] (.instruction (.movsxd d p))
  | shift {op p v} (hv : 0 ≤ v.toInt ∧ v.toInt ≤ 255) :
      Selects codeSize (.shift op) [.ofPlace p, .immediate v]
        (.instruction (.shift op p v.toUInt64.toUInt8))
  | shiftByCl {op p} :
      Selects codeSize (.shift op) [.ofPlace p, .register .cl] (.instruction (.shiftByCl op p))
  | unary {op p} : Selects codeSize (.unary op) [.ofPlace p] (.instruction (.unary op p))
  | imul {d src p} (hd : d.width ≠ .byte) (h : src.At d.width p) :
      Selects codeSize (.unary .imul) [.register d, src] (.instruction (.imul d p))
  | imulImmediate {d v v'} (hd : d.width ≠ .byte) (hv : immediateAt d.width v = .ok v') :
      Selects codeSize (.unary .imul) [.register d, .immediate v]
        (.instruction (.imulImmediate d (.register d) v'))
  | imulPlaceImmediate {d src p v v'} (hd : d.width ≠ .byte) (h : src.At d.width p)
      (hv : immediateAt d.width v = .ok v') :
      Selects codeSize (.unary .imul) [.register d, src, .immediate v]
        (.instruction (.imulImmediate d p v'))
  | push {src p} (h : src.At p.width p) (hp : Stackable codeSize p) :
      Selects codeSize .push [src] (.instruction (.push p))
  | pushImmediate {v v'} (hv : immediateAt (nativeWidth codeSize) v = .ok v') :
      Selects codeSize .push [.immediate v] (.instruction (.pushImmediate v'))
  | pop {dst p} (h : dst.At p.width p) (hp : Stackable codeSize p) :
      Selects codeSize .pop [dst] (.instruction (.pop p))
  | branchLabel {m transfer place} (h : m.transfer? = some transfer) :
      Selects codeSize m [.label place] (.branch transfer place)
  | branchImmediate {m transfer v} (h : m.transfer? = some transfer) :
      Selects codeSize m [.immediate v] (.branch transfer v.toUInt64)
  | callRegister {r} (h : r.width = nativeWidth codeSize ∨ r.width = .qword) :
      Selects codeSize .call [.register r] (.instruction (.callPlace (.register r)))
  | callMemory {size address} :
      Selects codeSize .call [.memory size address]
        (.instruction (.callPlace (.memory (nativeWidth codeSize) address)))
  | jmpRegister {r} (h : r.width = nativeWidth codeSize ∨ r.width = .qword) :
      Selects codeSize .jmp [.register r] (.instruction (.jmpPlace (.register r)))
  | jmpMemory {size address} :
      Selects codeSize .jmp [.memory size address]
        (.instruction (.jmpPlace (.memory (nativeWidth codeSize) address)))
  | set {condition dst p} (h : dst.At .byte p) :
      Selects codeSize (.set condition) [dst] (.instruction (.set condition p))
  | cmov {condition d src p} (hd : d.width ≠ .byte) (h : src.At d.width p) :
      Selects codeSize (.cmov condition) [.register d, src]
        (.instruction (.cmov condition d p))

namespace Selects

variable {codeSize : CodeSize} {dst src : Argument} {invalid : StatementError}
  {selected : Selected}

/-! ## Widths that agree -/

theorem eq_of_checkSameWidth {u : Unit} (h : checkSameWidth dst src = .ok u) {d s : Width}
    (hd : dst.width? = some d) (hs : src.width? = some s) : d = s := by
  simp only [checkSameWidth, hd, hs] at h
  split at h
  next heq => exact heq
  next => cases h

theorem at_register {u : Unit} {d s : Register}
    (h : checkSameWidth (.register d) (.register s) = .ok u) :
    (Argument.register d).At s.width (.register d) :=
  .register (eq_of_checkSameWidth h rfl rfl)

theorem at_memory_left {u : Unit} {size : Option Width} {address : Address PlaceId}
    {s : Register} (h : checkSameWidth (.memory size address) (.register s) = .ok u) :
    (Argument.memory size address).At s.width (.memory s.width address) := by
  cases size with
  | none => exact .memory (.inl rfl)
  | some w => exact .memory (.inr (congrArg some (eq_of_checkSameWidth h rfl rfl)))

theorem at_memory_right {u : Unit} {size : Option Width} {address : Address PlaceId}
    {d : Register} (h : checkSameWidth (.register d) (.memory size address) = .ok u) :
    (Argument.memory size address).At d.width (.memory d.width address) := by
  cases size with
  | none => exact .memory (.inl rfl)
  | some w => exact .memory (.inr (congrArg some (eq_of_checkSameWidth h rfl rfl).symm))

theorem at_register_right {u : Unit} {d s : Register}
    (h : checkSameWidth (.register d) (.register s) = .ok u) :
    (Argument.register s).At d.width (.register s) :=
  .register (eq_of_checkSameWidth h rfl rfl).symm

theorem ofPlace_of_placeOf {p : Place PlaceId} (h : placeOf dst invalid = .ok p) :
    dst = .ofPlace p := by
  unfold placeOf at h
  split at h <;> cases h <;> rfl

theorem immediate_of_memoryImmediate {size : Option Width} {v v' : Int64} {w : Width}
    (h : memoryImmediate size v = .ok (w, v')) : size = some w ∧ immediateAt w v = .ok v' := by
  cases size with
  | none => cases h
  | some w' =>
      obtain ⟨v'', hv, h⟩ := bind_eq_ok_iff.mp h
      cases h
      exact ⟨rfl, hv⟩

theorem immediateAt_of_ne_qword {w : Width} (h : w ≠ .qword) (v : Int64) :
    immediateAt w v = wrapImmediate w v := by
  cases w <;> first | rfl | exact absurd rfl h

/-! ## The families -/

theorem of_selectMov (h : selectMov codeSize dst src invalid = .ok selected) :
    Selects codeSize .mov [dst, src] selected := by
  unfold selectMov at h
  rw [bind_eq_ok_iff] at h
  obtain ⟨_, hsame, h⟩ := h
  split at h
  next d s =>
    cases h
    exact .mov (at_register hsame)
  next d size address =>
    cases h
    exact .movLoad (at_memory_right hsame)
  next size address s =>
    cases h
    exact .mov (at_memory_left hsame)
  next d v =>
    split at h
    next hwidth =>
      cases h
      exact .movFull hwidth
    next hwidth =>
      rw [bind_eq_ok_iff] at h
      obtain ⟨v', hv, h⟩ := h
      cases h
      exact .movRegister hwidth ((immediateAt_of_ne_qword hwidth v).trans hv)
  next size address v =>
    rw [bind_eq_ok_iff] at h
    obtain ⟨⟨w, v'⟩, hmemory, h⟩ := h
    obtain ⟨rfl, hv⟩ := immediate_of_memoryImmediate hmemory
    cases h
    exact .movMemory hv
  next d place =>
    split at h
    next hwidth =>
      cases h
      exact .movLabel hwidth
    next => cases h
  next => cases h

theorem of_selectArith {op : Arith} (h : selectArith op dst src invalid = .ok selected) :
    Selects codeSize (.arith op) [dst, src] selected := by
  unfold selectArith at h
  rw [bind_eq_ok_iff] at h
  obtain ⟨_, hsame, h⟩ := h
  split at h
  next d s =>
    cases h
    exact .arith (at_register hsame)
  next d size address =>
    cases h
    exact .arithLoad (at_memory_right hsame)
  next size address s =>
    cases h
    exact .arith (at_memory_left hsame)
  next d v =>
    rw [bind_eq_ok_iff] at h
    obtain ⟨v', hv, h⟩ := h
    cases h
    exact @arithImmediate _ op (.register d) _ _ hv
  next size address v =>
    rw [bind_eq_ok_iff] at h
    obtain ⟨⟨w, v'⟩, hmemory, h⟩ := h
    obtain ⟨rfl, hv⟩ := immediate_of_memoryImmediate hmemory
    cases h
    exact @arithImmediate _ op (.memory w address) _ _ hv
  next => cases h

theorem memoryFirst_cases {first second : Argument} (h : memoryFirst dst src = (first, second)) :
    (dst = first ∧ src = second) ∨
      ∃ size address, dst = second ∧ src = .memory size address ∧
        first = .memory size address := by
  unfold memoryFirst at h
  split at h
  next =>
    cases h
    exact .inl ⟨rfl, rfl⟩
  next =>
    cases h
    exact .inr ⟨_, _, rfl, rfl, rfl⟩
  next =>
    cases h
    exact .inl ⟨rfl, rfl⟩

theorem of_selectTest (h : selectTest dst src invalid = .ok selected) :
    Selects codeSize .test [dst, src] selected := by
  unfold selectTest at h
  rw [bind_eq_ok_iff] at h
  obtain ⟨_, hsame, h⟩ := h
  split at h
  next d s hfirst =>
    cases h
    rcases memoryFirst_cases hfirst with ⟨rfl, rfl⟩ | ⟨_, _, -, -, hmemory⟩
    · exact .test (at_register hsame)
    · cases hmemory
  next size address s hfirst =>
    cases h
    rcases memoryFirst_cases hfirst with ⟨rfl, rfl⟩ | ⟨_, _, rfl, rfl, hmemory⟩
    · exact .test (at_memory_left hsame)
    · cases hmemory
      exact .testSwapped (at_memory_right hsame)
  next d v hfirst =>
    rw [bind_eq_ok_iff] at h
    obtain ⟨v', hv, h⟩ := h
    cases h
    rcases memoryFirst_cases hfirst with ⟨rfl, rfl⟩ | ⟨_, _, -, -, hmemory⟩
    · exact @testImmediate _ (.register d) _ _ hv
    · cases hmemory
  next size address v hfirst =>
    rw [bind_eq_ok_iff] at h
    obtain ⟨⟨w, v'⟩, hmemory, h⟩ := h
    obtain ⟨rfl, hv⟩ := immediate_of_memoryImmediate hmemory
    cases h
    rcases memoryFirst_cases hfirst with ⟨rfl, rfl⟩ | ⟨_, _, rfl, rfl, hmemory⟩
    · exact @testImmediate _ (.memory w address) _ _ hv
    · cases hmemory
      exact .testImmediateSwapped hv
  next => cases h

theorem of_selectXchg (h : selectXchg dst src invalid = .ok selected) :
    Selects codeSize .xchg [dst, src] selected := by
  unfold selectXchg at h
  rw [bind_eq_ok_iff] at h
  obtain ⟨_, hsame, h⟩ := h
  split at h
  next d s hfirst =>
    cases h
    rcases memoryFirst_cases hfirst with ⟨rfl, rfl⟩ | ⟨_, _, -, -, hmemory⟩
    · exact .xchg (at_register hsame)
    · cases hmemory
  next size address s hfirst =>
    cases h
    rcases memoryFirst_cases hfirst with ⟨rfl, rfl⟩ | ⟨_, _, rfl, rfl, hmemory⟩
    · exact .xchg (at_memory_left hsame)
    · cases hmemory
      exact .xchgSwapped (at_memory_right hsame)
  next => cases h

theorem of_selectLea (h : selectLea dst src invalid = .ok selected) :
    Selects codeSize .lea [dst, src] selected := by
  unfold selectLea at h
  split at h
  next =>
    split at h
    next => cases h
    next hwidth =>
      cases h
      exact .lea hwidth
  next =>
    split at h
    next hwidth =>
      cases h
      exact .leaLabel hwidth
    next => cases h
  next => cases h

theorem of_selectExtend {make : Register → Place PlaceId → Instruction PlaceId}
    (h : selectExtend make dst src invalid = .ok selected) :
    ∃ d p, dst = .register d ∧ src = .ofPlace p ∧ canExtend d.width p.width ∧
      selected = .instruction (make d p) := by
  unfold selectExtend at h
  split at h
  next => cases h
  next d s =>
    split at h
    next hextend =>
      cases h
      exact ⟨d, .register s, rfl, rfl, hextend, rfl⟩
    next => cases h
  next d w address =>
    split at h
    next hextend =>
      cases h
      exact ⟨d, .memory w address, rfl, rfl, hextend, rfl⟩
    next => cases h
  next => cases h

theorem of_selectMovsxd (h : selectMovsxd dst src invalid = .ok selected) :
    Selects codeSize .movsxd [dst, src] selected := by
  unfold selectMovsxd at h
  split at h
  next =>
    split at h
    next hwidths =>
      cases h
      exact .movsxd hwidths.1 (.register hwidths.2)
    next => cases h
  next =>
    split at h
    next hwidths =>
      cases h
      exact .movsxd hwidths.1 (.memory hwidths.2)
    next => cases h
  next => cases h

theorem of_selectShift {op : Shift} (h : selectShift op dst src invalid = .ok selected) :
    Selects codeSize (.shift op) [dst, src] selected := by
  unfold selectShift at h
  split at h
  next => cases h
  next =>
    split at h
    next hcl =>
      obtain ⟨p, hp, h⟩ := bind_eq_ok_iff.mp h
      cases h
      rw [ofPlace_of_placeOf hp, hcl]
      exact .shiftByCl
    next => cases h
  next =>
    split at h
    next hv =>
      obtain ⟨p, hp, h⟩ := bind_eq_ok_iff.mp h
      cases h
      rw [ofPlace_of_placeOf hp]
      exact .shift hv
    next => cases h
  next => cases h

theorem of_selectUnary {op : Unary} (h : selectUnary op dst invalid = .ok selected) :
    Selects codeSize (.unary op) [dst] selected := by
  obtain ⟨p, hp, h⟩ := bind_eq_ok_iff.mp h
  cases h
  rw [ofPlace_of_placeOf hp]
  exact .unary

theorem of_selectImul (h : selectImul dst src invalid = .ok selected) :
    Selects codeSize (.unary .imul) [dst, src] selected := by
  unfold selectImul at h
  rw [bind_eq_ok_iff] at h
  obtain ⟨_, hsame, h⟩ := h
  split at h
  next =>
    split at h
    next => cases h
    next hd =>
      cases h
      exact .imul hd (at_register_right hsame)
  next =>
    split at h
    next => cases h
    next hd =>
      cases h
      exact .imul hd (at_memory_right hsame)
  next =>
    split at h
    next => cases h
    next hd =>
      rw [bind_eq_ok_iff] at h
      obtain ⟨v', hv, h⟩ := h
      cases h
      exact .imulImmediate hd hv
  next => cases h

theorem of_selectImulImmediate {v : Int64}
    (h : selectImulImmediate dst src v invalid = .ok selected) :
    Selects codeSize (.unary .imul) [dst, src, .immediate v] selected := by
  unfold selectImulImmediate at h
  rw [bind_eq_ok_iff] at h
  obtain ⟨_, hsame, h⟩ := h
  split at h
  next =>
    split at h
    next => cases h
    next hd =>
      rw [bind_eq_ok_iff] at h
      obtain ⟨v', hv, h⟩ := h
      cases h
      exact .imulPlaceImmediate hd (at_register_right hsame) hv
  next =>
    split at h
    next => cases h
    next hd =>
      rw [bind_eq_ok_iff] at h
      obtain ⟨v', hv, h⟩ := h
      cases h
      exact .imulPlaceImmediate hd (at_memory_right hsame) hv
  next => cases h

theorem at_of_stackPlace {p : Place PlaceId} (h : stackPlace codeSize dst invalid = .ok p) :
    dst.At p.width p ∧ Stackable codeSize p := by
  unfold stackPlace at h
  split at h
  next =>
    split at h
    next hwidth =>
      cases h
      exact ⟨.register rfl, hwidth⟩
    next => cases h
  next =>
    split at h
    next hsize =>
      cases h
      exact ⟨.memory hsize, rfl⟩
    next => cases h
  next => cases h

theorem of_selectPush (h : selectPush codeSize src invalid = .ok selected) :
    Selects codeSize .push [src] selected := by
  unfold selectPush at h
  split at h
  next =>
    rw [bind_eq_ok_iff] at h
    obtain ⟨v', hv, h⟩ := h
    cases h
    exact .pushImmediate hv
  next =>
    obtain ⟨p, hp, h⟩ := bind_eq_ok_iff.mp h
    cases h
    exact .push (at_of_stackPlace hp).1 (at_of_stackPlace hp).2

theorem of_selectPop (h : selectPop codeSize dst invalid = .ok selected) :
    Selects codeSize .pop [dst] selected := by
  obtain ⟨p, hp, h⟩ := bind_eq_ok_iff.mp h
  cases h
  exact .pop (at_of_stackPlace hp).1 (at_of_stackPlace hp).2

theorem of_selectCall
    (h : selectTransfer codeSize .call .callPlace dst invalid = .ok selected) :
    Selects codeSize .call [dst] selected := by
  unfold selectTransfer at h
  split at h
  next =>
    cases h
    exact .branchLabel rfl
  next =>
    cases h
    exact .branchImmediate rfl
  next =>
    split at h
    next hwidth =>
      cases h
      exact .callRegister hwidth
    next => cases h
  next =>
    cases h
    exact .callMemory

theorem of_selectJmp (h : selectTransfer codeSize .jmp .jmpPlace dst invalid = .ok selected) :
    Selects codeSize .jmp [dst] selected := by
  unfold selectTransfer at h
  split at h
  next =>
    cases h
    exact .branchLabel rfl
  next =>
    cases h
    exact .branchImmediate rfl
  next =>
    split at h
    next hwidth =>
      cases h
      exact .jmpRegister hwidth
    next => cases h
  next =>
    cases h
    exact .jmpMemory

theorem of_selectJcc {condition : Condition}
    (h : selectJcc condition dst invalid = .ok selected) :
    Selects codeSize (.jcc condition) [dst] selected := by
  unfold selectJcc at h
  split at h
  next =>
    cases h
    exact .branchLabel rfl
  next =>
    cases h
    exact .branchImmediate rfl
  next => cases h

theorem of_selectSet {condition : Condition}
    (h : selectSet condition dst invalid = .ok selected) :
    Selects codeSize (.set condition) [dst] selected := by
  unfold selectSet at h
  split at h
  next =>
    split at h
    next hwidth =>
      cases h
      exact .set (.register hwidth)
    next => cases h
  next =>
    split at h
    next hsize =>
      cases h
      exact .set (.memory hsize)
    next => cases h
  next => cases h

theorem of_selectCmov {condition : Condition}
    (h : selectCmov condition dst src invalid = .ok selected) :
    Selects codeSize (.cmov condition) [dst, src] selected := by
  unfold selectCmov at h
  rw [bind_eq_ok_iff] at h
  obtain ⟨_, hsame, h⟩ := h
  split at h
  next =>
    split at h
    next => cases h
    next hd =>
      cases h
      exact .cmov hd (at_register_right hsame)
  next =>
    split at h
    next => cases h
    next hd =>
      cases h
      exact .cmov hd (at_memory_right hsame)
  next => cases h

theorem of_selectKnown {m : Mnemonic} {args : List Argument}
    (h : selectKnown codeSize m args invalid = .ok selected) :
    Selects codeSize m args selected := by
  unfold selectKnown at h
  split at h
  next =>
    cases h
    exact .bare
  next =>
    split at h
    next hv =>
      cases h
      exact .retPop hv
    next => cases h
  next => exact of_selectMov h
  next => exact of_selectArith h
  next => exact of_selectTest h
  next => exact of_selectXchg h
  next => exact of_selectLea h
  next =>
    obtain ⟨d, p, rfl, rfl, hextend, rfl⟩ := of_selectExtend h
    exact .movzx hextend
  next =>
    obtain ⟨d, p, rfl, rfl, hextend, rfl⟩ := of_selectExtend h
    exact .movsx hextend
  next => exact of_selectMovsxd h
  next => exact of_selectShift h
  next => exact of_selectUnary h
  next => exact of_selectImul h
  next => exact of_selectImulImmediate h
  next => exact of_selectPush h
  next => exact of_selectPop h
  next => exact of_selectCall h
  next => exact of_selectJmp h
  next => exact of_selectJcc h
  next => exact of_selectSet h
  next => exact of_selectCmov h
  next => cases h

end Selects

/-- Whatever is selected is one of the cases. -/
theorem selects_of_select {codeSize : CodeSize} {name : String} {args : List Argument}
    {selected : Selected} (h : select codeSize name args = .ok selected) :
    ∃ m, Mnemonic.ofName? name = some m ∧ Selects codeSize m args selected := by
  rw [select_eq_selectNamed, selectNamed] at h
  split at h
  next => cases h
  next m hname =>
    split at h
    next => cases h
    next => exact ⟨m, hname, .of_selectKnown h⟩

end AsmLoader.Assembly
