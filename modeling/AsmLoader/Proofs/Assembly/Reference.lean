import AsmLoader.Assembly.Program
import AsmLoader.Proofs.Assembly.Dispatch
import AsmLoader.Proofs.Machine.Reference
import AsmLoader.Proofs.Outcome
/-!
# References of statements

An operand that names a label is resolved to the place of the label, and whatever instruction or
branch is selected for the operands leads to that place.
-/

namespace AsmLoader.Source

def Operand.reference? : Operand → Option String
  | symbol name => some name
  | memory _ (.label name) => some name
  | _ => none

/-- The labels that the operands of a statement name. -/
def Statement.references (s : Statement) : List String :=
  match s.body with
  | .instruction _ operands => operands.filterMap Operand.reference?
  | _ => []

end AsmLoader.Source

namespace AsmLoader.Assembly

open Machine (Arith Condition CodeSize Instruction Place Register Shift Transfer Unary)
open Source (Operand Statement)

def Argument.reference? : Argument → Option PlaceId
  | label place => some place
  | memory _ address => address.reference?
  | register _ | immediate _ => none

def Selected.reference? : Selected → Option UInt64
  | instruction i => i.reference?
  | branch _ target => some target

def Emission.reference? : Emission → Option UInt64
  | instruction i => i.reference?
  | branch _ target => some target
  | nothing | data _ => none

attribute [local grind =] Argument.reference? Selected.reference? Machine.Address.reference?
  Place.reference? Instruction.reference?
attribute [local grind] choose

/-! ## From operands to arguments -/

theorem Context.reference?_argument {c : Context} {operand : Operand} {a : Argument}
    {name : String} (h : c.argument operand = .ok a) (hname : operand.reference? = some name) :
    ∃ place, c.place? name = some place ∧ a.reference? = some place := by
  have hlabel {place : PlaceId} (h : c.label name = .ok place) : c.place? name = some place := by
    unfold label at h
    split at h <;> simp_all
  unfold Operand.reference? at hname
  split at hname
  next =>
    cases hname
    obtain ⟨place, hplace, ha⟩ := bind_eq_ok_iff.mp h
    cases ha
    exact ⟨place, hlabel hplace, rfl⟩
  next =>
    cases hname
    obtain ⟨address, haddress, ha⟩ := bind_eq_ok_iff.mp h
    obtain ⟨place, hplace, hrelative⟩ := bind_eq_ok_iff.mp haddress
    cases ha
    cases hrelative
    exact ⟨place, hlabel hplace, rfl⟩
  next => cases hname

/-! ## From arguments to a selection -/

section Selections

variable {codeSize : CodeSize} {dst src : Argument} {invalid : StatementError}
  {selected : Selected} {place : PlaceId}

theorem reference?_selectMov (h : selectMov codeSize dst src invalid = .ok selected)
    (hplace : dst.reference? = some place ∨ src.reference? = some place) :
    selected.reference? = some place := by
  obtain ⟨-, -, h⟩ := bind_eq_ok_iff.mp h
  split at h <;> grind [bind_eq_ok_iff]

theorem reference?_selectArith {op : Arith} (h : selectArith op dst src invalid = .ok selected)
    (hplace : dst.reference? = some place ∨ src.reference? = some place) :
    selected.reference? = some place := by
  obtain ⟨-, -, h⟩ := bind_eq_ok_iff.mp h
  split at h <;> grind [bind_eq_ok_iff]

theorem reference?_memoryFirst (dst src : Argument) :
    memoryFirst dst src = (dst, src) ∨ memoryFirst dst src = (src, dst) := by
  unfold memoryFirst
  split <;> simp

theorem reference?_selectTest (h : selectTest dst src invalid = .ok selected)
    (hplace : dst.reference? = some place ∨ src.reference? = some place) :
    selected.reference? = some place := by
  obtain ⟨-, -, h⟩ := bind_eq_ok_iff.mp h
  have horder := reference?_memoryFirst dst src
  split at h <;> grind [bind_eq_ok_iff]

theorem reference?_selectXchg (h : selectXchg dst src invalid = .ok selected)
    (hplace : dst.reference? = some place ∨ src.reference? = some place) :
    selected.reference? = some place := by
  obtain ⟨-, -, h⟩ := bind_eq_ok_iff.mp h
  have horder := reference?_memoryFirst dst src
  split at h <;> grind

theorem reference?_selectLea (h : selectLea dst src invalid = .ok selected)
    (hplace : dst.reference? = some place ∨ src.reference? = some place) :
    selected.reference? = some place := by
  unfold selectLea at h
  split at h <;> grind

theorem reference?_selectExtend {make : Register → Place PlaceId → Instruction PlaceId}
    (hmake : ∀ d place, (make d place).reference? = place.reference?)
    (h : selectExtend make dst src invalid = .ok selected)
    (hplace : dst.reference? = some place ∨ src.reference? = some place) :
    selected.reference? = some place := by
  unfold selectExtend at h
  split at h <;> grind

theorem reference?_selectMovsxd (h : selectMovsxd dst src invalid = .ok selected)
    (hplace : dst.reference? = some place ∨ src.reference? = some place) :
    selected.reference? = some place := by
  unfold selectMovsxd at h
  split at h <;> grind

theorem reference?_placeOf {p : Place PlaceId} (h : placeOf dst invalid = .ok p)
    (hplace : dst.reference? = some place) : p.reference? = some place := by
  unfold placeOf at h
  split at h <;> grind

theorem reference?_selectShift {op : Shift} (h : selectShift op dst src invalid = .ok selected)
    (hplace : dst.reference? = some place ∨ src.reference? = some place) :
    selected.reference? = some place := by
  unfold selectShift at h
  split at h <;> grind [bind_eq_ok_iff, reference?_placeOf]

theorem reference?_selectUnary {op : Unary} (h : selectUnary op dst invalid = .ok selected)
    (hplace : dst.reference? = some place) : selected.reference? = some place := by
  obtain ⟨p, hp, h⟩ := bind_eq_ok_iff.mp h
  cases h
  exact reference?_placeOf hp hplace

theorem reference?_selectImul (h : selectImul dst src invalid = .ok selected)
    (hplace : dst.reference? = some place ∨ src.reference? = some place) :
    selected.reference? = some place := by
  obtain ⟨-, -, h⟩ := bind_eq_ok_iff.mp h
  split at h <;> grind [bind_eq_ok_iff]

theorem reference?_selectImulImmediate {value : Int64}
    (h : selectImulImmediate dst src value invalid = .ok selected)
    (hplace : dst.reference? = some place ∨ src.reference? = some place) :
    selected.reference? = some place := by
  obtain ⟨-, -, h⟩ := bind_eq_ok_iff.mp h
  split at h <;> grind [bind_eq_ok_iff]

theorem reference?_stackPlace {p : Place PlaceId} (h : stackPlace codeSize dst invalid = .ok p)
    (hplace : dst.reference? = some place) : p.reference? = some place := by
  unfold stackPlace at h
  split at h <;> grind

theorem reference?_selectPush (h : selectPush codeSize dst invalid = .ok selected)
    (hplace : dst.reference? = some place) : selected.reference? = some place := by
  unfold selectPush at h
  split at h <;> grind [bind_eq_ok_iff, reference?_stackPlace]

theorem reference?_selectPop (h : selectPop codeSize dst invalid = .ok selected)
    (hplace : dst.reference? = some place) : selected.reference? = some place := by
  obtain ⟨p, hp, h⟩ := bind_eq_ok_iff.mp h
  cases h
  exact reference?_stackPlace hp hplace

theorem reference?_selectTransfer {transfer : Transfer}
    {make : Place PlaceId → Instruction PlaceId}
    (hmake : ∀ place, (make place).reference? = place.reference?)
    (h : selectTransfer codeSize transfer make dst invalid = .ok selected)
    (hplace : dst.reference? = some place) : selected.reference? = some place := by
  unfold selectTransfer at h
  split at h <;> grind

theorem reference?_selectJcc {condition : Condition}
    (h : selectJcc condition dst invalid = .ok selected)
    (hplace : dst.reference? = some place) : selected.reference? = some place := by
  unfold selectJcc at h
  split at h <;> grind

theorem reference?_selectSet {condition : Condition}
    (h : selectSet condition dst invalid = .ok selected)
    (hplace : dst.reference? = some place) : selected.reference? = some place := by
  unfold selectSet at h
  split at h <;> grind

theorem reference?_selectCmov {condition : Condition}
    (h : selectCmov condition dst src invalid = .ok selected)
    (hplace : dst.reference? = some place ∨ src.reference? = some place) :
    selected.reference? = some place := by
  obtain ⟨-, -, h⟩ := bind_eq_ok_iff.mp h
  split at h <;> grind

end Selections

theorem reference?_select {codeSize : CodeSize} {mnemonic : String} {args : List Argument}
    {selected : Selected} (h : select codeSize mnemonic args = .ok selected) {a : Argument}
    (ha : a ∈ args) {place : PlaceId} (hplace : a.reference? = some place) :
    selected.reference? = some place := by
  have pair {dst src : Argument} (ha : a ∈ [dst, src]) :
      dst.reference? = some place ∨ src.reference? = some place := by
    rcases List.mem_cons.mp ha with rfl | ha
    · exact .inl hplace
    · exact .inr (List.mem_singleton.mp ha ▸ hplace)
  have single {dst : Argument} (ha : a ∈ [dst]) : dst.reference? = some place :=
    List.mem_singleton.mp ha ▸ hplace
  rw [select_eq_selectNamed, selectNamed] at h
  split at h
  next => cases h
  split at h
  next => cases h
  unfold selectKnown at h
  split at h
  next => cases ha
  next => cases single ha
  next => exact reference?_selectMov h (pair ha)
  next => exact reference?_selectArith h (pair ha)
  next => exact reference?_selectTest h (pair ha)
  next => exact reference?_selectXchg h (pair ha)
  next => exact reference?_selectLea h (pair ha)
  next => exact reference?_selectExtend (fun _ _ => rfl) h (pair ha)
  next => exact reference?_selectExtend (fun _ _ => rfl) h (pair ha)
  next => exact reference?_selectMovsxd h (pair ha)
  next => exact reference?_selectShift h (pair ha)
  next => exact reference?_selectUnary h (single ha)
  next => exact reference?_selectImul h (pair ha)
  next dst src value =>
    apply reference?_selectImulImmediate h
    rcases List.mem_cons.mp ha with rfl | ha
    · exact .inl hplace
    · rcases List.mem_cons.mp ha with rfl | ha
      · exact .inr hplace
      · cases single ha
  next => exact reference?_selectPush h (single ha)
  next => exact reference?_selectPop h (single ha)
  next => exact reference?_selectTransfer (fun _ => rfl) h (single ha)
  next => exact reference?_selectTransfer (fun _ => rfl) h (single ha)
  next => exact reference?_selectJcc h (single ha)
  next => exact reference?_selectSet h (single ha)
  next => exact reference?_selectCmov h (pair ha)
  next => cases h

/-- What a statement puts into the code leads to the place of a label that it names. -/
theorem reference?_emission {c : Context} {capacity : UInt64} {s : Statement} {e : Emission}
    (h : emission c capacity s = .ok e) {name : String} (hname : name ∈ s.references) :
    ∃ place, c.place? name = some place ∧ e.reference? = some place := by
  unfold Statement.references at hname
  split at hname
  next mnemonic operands hbody =>
    obtain ⟨operand, hoperand, hname⟩ := List.mem_filterMap.mp hname
    simp only [emission, hbody] at h
    obtain ⟨args, hargs, h⟩ := bind_eq_ok_iff.mp h
    obtain ⟨selected, hselected, h⟩ := bind_eq_ok_iff.mp h
    obtain ⟨a, ha, hargument⟩ := exists_mem_of_forall₂ (mapM_eq_ok_iff.mp hargs) hoperand
    obtain ⟨place, hplace, hreference⟩ := Context.reference?_argument hargument hname
    have hselects := reference?_select hselected ha hreference
    cases h
    refine ⟨place, hplace, ?_⟩
    cases selected <;> exact hselects
  next => cases hname

end AsmLoader.Assembly
