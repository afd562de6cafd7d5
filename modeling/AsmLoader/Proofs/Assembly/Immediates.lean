import AsmLoader.Proofs.Assembly.Encoded
import AsmLoader.Proofs.Assembly.ImmediateRange
import AsmLoader.Proofs.Assembly.Rejection
/-!
# Immediates

The bytes of a statement have the immediate that was written, up to a multiple of what its width
counts, whichever opcode was chosen for it. A number that the width has no room for is never cut
down to one that it has room for: the statement is reported, and the source has no code.
-/

namespace AsmLoader.Assembly

open Machine (CodeSize Instruction Width readImmediate?)
open Source (Operand Statement)

/-- The code of a source is that of its statements, one after the other, and the bytes of a
statement that is no branch have the immediate that it was given, as a number of the width. A
count is taken as it is. -/
def KeepsImmediates (source : String) (target : Target) (code : Code) : Prop :=
  ∃ statements codeSize parts, Source.parse source = .ok statements ∧
    codeSize.bits = target.bitness ∧ Arranged codeSize target statements parts code ∧
    ∀ (i : Nat) (s : Statement) (name : String) (m : Mnemonic) (operands : List Operand)
        (v : Int64),
      statements[i]? = some s → s.body = .instruction name operands →
        Mnemonic.ofName? name = some m → m.transfer? = none → .immediate v ∈ operands →
          ∃ part w x, parts[i]? = some part ∧
            immediateWidth? codeSize m (operands.map Operand.shape) = some w ∧
            InBounds (immediateBounds m (operands.map Operand.shape) w) v.toInt ∧
            readImmediate? codeSize part = some x ∧ x ≡ v.toInt [ZMOD 2 ^ w.bits] ∧
            (m.takesCount → x = v.toInt)

/-- A number that is out of bounds, in a statement that would have code with another number in
its place, is reported at the line of the statement, and the source has no code. -/
def RefusesImmediates (source : String) (target : Target) : Prop :=
  ∀ (statements : List Statement) (codeSize : CodeSize) (s : Statement) (name : String)
    (m : Mnemonic) (before after : List Operand) (v : Int64) (w : Width),
    Source.parse source = .ok statements → effectiveSize? target statements = some codeSize →
      s ∈ statements → s.body = .instruction name (before ++ .immediate v :: after) →
      Mnemonic.ofName? name = some m → m.transfer? = none →
      (∃ v' e, emission (contextOf codeSize statements) target.capacity
        { s with body := .instruction name (before ++ .immediate v' :: after) } = .ok e) →
      immediateWidth? codeSize m ((before ++ .immediate v :: after).map Operand.shape) = some w →
      ¬InBounds (immediateBounds m ((before ++ .immediate v :: after).map Operand.shape) w)
        v.toInt →
        ∃ reports, assemble source target = .error reports ∧
          reportAt (Text.linesOf source) s.line
            (StatementError.immediateRange v (immediateBits w)).message ∈ reports

/-! ## The bytes of a statement -/

theorem Selects.exists_instruction {codeSize : CodeSize} {m : Mnemonic} {args : List Argument}
    {selected : Selected} (h : Selects codeSize m args selected) (hm : m.transfer? = none) :
    ∃ i, selected = .instruction i := by
  cases h with
  | branchLabel htransfer | branchImmediate htransfer => cases hm.symm.trans htransfer
  | _ => exact ⟨_, rfl⟩

theorem Context.immediate_mem {c : Context} {operands : List Operand} {args : List Argument}
    {v : Int64} (h : operands.mapM c.argument = .ok args) (hv : .immediate v ∈ operands) :
    .immediate v ∈ args := by
  obtain ⟨a, ha, hargument⟩ := exists_mem_of_forall₂ (mapM_eq_ok_iff.mp h) hv
  cases hargument
  exact ha

theorem keepsImmediates_of_assemble {source : String} {target : Target} {code : Code}
    (h : assemble source target = .ok code) : KeepsImmediates source target code := by
  obtain ⟨statements, codeSize, es, parts, hparse, hbits, hes, hlaid⟩ :=
    exists_laid_of_assemble h
  have harranged := arranged_partsOf hes hlaid
  refine ⟨statements, codeSize, _, hparse, hbits, harranged, ?_⟩
  intro i s name m operands v hs hbody hname htransfer hv
  obtain ⟨args, selected, part, hargs, hselects, hpart, hencoded⟩ :=
    harranged.exists_selects hs hbody hname
  obtain ⟨instruction, rfl⟩ := hselects.exists_instruction htransfer
  obtain ⟨⟨encoded, hencode, hfilled⟩, hlegacy⟩ := hencoded instruction rfl
  obtain ⟨w, x, htakes⟩ := hselects.takes (Context.immediate_mem hargs hv)
  rw [Context.map_shape hargs] at htakes
  exact ⟨part, w, x, hpart, htakes.width, htakes.bounds,
    Instruction.readImmediate?_of_encode hencode hfilled hlegacy hselects.regular htakes.fits
      htakes.immediate,
    htakes.modEq, htakes.count⟩

/-! ## Numbers out of bounds -/

theorem select_eq_error {codeSize : CodeSize} {name : String} {m : Mnemonic}
    {before after : List Argument} {v v' : Int64} {selected : Selected} {w : Width}
    (h : select codeSize name (before ++ .immediate v' :: after) = .ok selected)
    (hname : Mnemonic.ofName? name = some m) (htransfer : m.transfer? = none)
    (hw : immediateWidth? codeSize m ((before ++ .immediate v :: after).map Argument.shape) =
      some w)
    (hv : ¬InBounds
      (immediateBounds m ((before ++ .immediate v :: after).map Argument.shape) w) v.toInt) :
    select codeSize name (before ++ .immediate v :: after) =
      .error (.immediateRange v (immediateBits w)) := by
  have hshapes : (before ++ .immediate v :: after).map Argument.shape =
      (before ++ .immediate v' :: after).map Argument.shape := by
    simp [Argument.shape]
  rw [hshapes] at hw hv
  rw [select_of_ofName? hname] at h ⊢
  split at h
  next => cases h
  next hmode =>
    have hselects := Selects.of_selectKnown h
    obtain ⟨i, rfl⟩ := hselects.exists_instruction htransfer
    rw [if_neg hmode]
    exact hselects.selectKnown_eq_error rfl hw hv _

theorem Context.exists_arguments {c : Context} {before after : List Operand} {v' : Int64}
    {args : List Argument} (h : (before ++ .immediate v' :: after).mapM c.argument = .ok args) :
    ∃ front back, args = front ++ .immediate v' :: back ∧ ∀ v,
      (before ++ .immediate v :: after).mapM c.argument =
        .ok (front ++ .immediate v :: back) := by
  have happend (v : Int64) : (before ++ .immediate v :: after).mapM c.argument = (do
      let front ← before.mapM c.argument
      let back ← after.mapM c.argument
      return front ++ .immediate v :: back) := by
    have hargument : c.argument (.immediate v) = .ok (.immediate v) := rfl
    rw [List.mapM_append, List.mapM_cons, hargument, ok_bind]
    simp only [bind_assoc, pure_bind]
  rw [happend] at h
  obtain ⟨front, hfront, h⟩ := bind_eq_ok_iff.mp h
  obtain ⟨back, hback, h⟩ := bind_eq_ok_iff.mp h
  cases h
  refine ⟨front, back, rfl, fun v => ?_⟩
  rw [happend, hfront, ok_bind, hback]
  rfl

theorem emission_eq_error {c : Context} {capacity : UInt64} {s : Statement} {name : String}
    {m : Mnemonic} {before after : List Operand} {v v' : Int64} {e : Emission} {w : Width}
    (he : emission c capacity
      { s with body := .instruction name (before ++ .immediate v' :: after) } = .ok e)
    (hbody : s.body = .instruction name (before ++ .immediate v :: after))
    (hname : Mnemonic.ofName? name = some m) (htransfer : m.transfer? = none)
    (hw : immediateWidth? c.codeSize m ((before ++ .immediate v :: after).map Operand.shape) =
      some w)
    (hv : ¬InBounds (immediateBounds m ((before ++ .immediate v :: after).map Operand.shape) w)
      v.toInt) :
    emission c capacity s = .error (.immediateRange v (immediateBits w)) := by
  obtain ⟨args, hargs, he⟩ := bind_eq_ok_iff.mp he
  obtain ⟨selected, hselected, -⟩ := bind_eq_ok_iff.mp he
  obtain ⟨front, back, rfl, harguments⟩ := Context.exists_arguments hargs
  rw [← Context.map_shape (harguments v)] at hw hv
  have herror := select_eq_error hselected hname htransfer hw hv
  simp only [emission, hbody]
  rw [harguments, ok_bind, herror, error_bind]

/-- The code of a source has the immediates of its statements, as numbers of their widths, and a
source with a number that is out of bounds has no code. -/
theorem assemble_immediates (source : String) (target : Target) :
    (∀ code, assemble source target = .ok code → KeepsImmediates source target code) ∧
      RefusesImmediates source target := by
  refine ⟨fun code h => keepsImmediates_of_assemble h, ?_⟩
  rintro statements codeSize s name m before after v w hparse hsize hs hbody hname htransfer
    ⟨v', e, he⟩ hw hv
  exact exists_error_of_emission hparse hsize hs
    (emission_eq_error he hbody hname htransfer hw hv)

/-- A number of 32 bits that stands for -1 is written as one byte, and a number that 32 bits have
no room for is refused. -/
theorem assemble_immediates_shortened_not_truncated :
    KeepsImmediates "mov al, 255\nadd ecx, 0xFFFFFFFF\nret 8" ⟨0x10000000, 0x1000, 64⟩
        [0xB0, 0xFF, 0x83, 0xC1, 0xFF, 0xC2, 0x08, 0x00] ∧
      ∃ reports, assemble "nop\nadd rcx, 0x80000000" ⟨0x10000000, 0x1000, 64⟩ = .error reports ∧
        reportAt ["nop", "add rcx, 0x80000000"] 2
          "immediate 2147483648 does not fit in 32 bits" ∈
          reports := by
  have hcode : assemble "mov al, 255\nadd ecx, 0xFFFFFFFF\nret 8" ⟨0x10000000, 0x1000, 64⟩ =
      .ok [0xB0, 0xFF, 0x83, 0xC1, 0xFF, 0xC2, 0x08, 0x00] := by decide +kernel
  have hparse : Source.parse "nop\nadd rcx, 0x80000000" =
      .ok [⟨1, [], .instruction "nop" []⟩,
        ⟨2, [], .instruction "add" [.register (.low .qword 1), .immediate 0x80000000]⟩] := by
    decide +kernel
  refine ⟨(assemble_immediates _ _).1 _ hcode, ?_⟩
  apply (assemble_immediates "nop\nadd rcx, 0x80000000" ⟨0x10000000, 0x1000, 64⟩).2 _ .bits64 _
    "add" (.arith .add) [.register (.low .qword 1)] [] 0x80000000 .qword hparse
      (by decide +kernel)
    (List.mem_cons_of_mem _ List.mem_cons_self) rfl (by decide +kernel) rfl
  · exact ⟨1, .instruction (.arithImmediate .add (.register (.low .qword 1)) 1),
      by decide +kernel⟩
  · rfl
  · rintro ⟨-, hlt⟩
    exact absurd hlt (by decide)

end AsmLoader.Assembly
