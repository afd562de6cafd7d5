import AsmLoader.Proofs.Assembly.Correspondence
import Mathlib.Data.Set.Function
/-!
# The names of labels

A name is there to say which definition a reference means, and for nothing else. Statements whose
names are all replaced by others have the same code, as long as different names stay different.
-/

namespace AsmLoader.Source

/-! ## Other names -/

variable (f : String → String)

def Location.rename : Location → Location
  | label name => .label (f name)
  | absolute address => .absolute address
  | indexed base index displacement => .indexed base index displacement

def Operand.rename : Operand → Operand
  | register r => .register r
  | immediate value => .immediate value
  | symbol name => .symbol (f name)
  | memory size location => .memory size (location.rename f)

def Body.rename : Body → Body
  | empty => .empty
  | mode size => .mode size
  | instruction mnemonic operands => .instruction mnemonic (operands.map (Operand.rename f))
  | data unit items => .data unit items
  | reserve unit count => .reserve unit count

def Statement.rename (s : Statement) : Statement :=
  ⟨s.line, s.labels.map f, s.body.rename f⟩

def namesOf (statements : List Statement) : Set String :=
  {name | ∃ s ∈ statements, name ∈ s.labels ∨ name ∈ s.references}

end AsmLoader.Source

namespace AsmLoader.Assembly

open Source (Body Location Operand Statement namesOf)

variable {f : String → String} {c c' : Context}

/-! ## Operands under other names -/

section Operands

variable (hsize : c.codeSize = c'.codeSize)

theorem label_rename {name : String} (hname : c.place? name = c'.place? (f name))
    {place : PlaceId} : c.label name = .ok place ↔ c'.label (f name) = .ok place := by
  unfold Context.label
  rw [hname]
  cases c'.place? (f name) <;> simp

include hsize

theorem checkRegister_congr (r : Machine.Register) : c.checkRegister r = c'.checkRegister r := by
  rw [Context.checkRegister, Context.checkRegister, hsize]

theorem address_rename {location : Location} {size : Option Machine.Width}
    (hname : ∀ name, (Operand.memory size location).reference? = some name →
      c.place? name = c'.place? (f name)) {address : Machine.Address PlaceId} :
    c.address location = .ok address ↔ c'.address (location.rename f) = .ok address := by
  cases location with
  | label name =>
      simp only [Context.address, Location.rename, bind_eq_ok_iff, label_rename (hname name rfl)]
  | absolute a => simp [Context.address, Location.rename]
  | indexed base index displacement =>
      rcases base with _ | base <;> rcases index with _ | ⟨index, scale⟩ <;>
        simp only [Location.rename, Context.address, checkRegister_congr hsize]

theorem argument_rename {operand : Operand}
    (hname : ∀ name, operand.reference? = some name → c.place? name = c'.place? (f name))
    {a : Argument} : c.argument operand = .ok a ↔ c'.argument (operand.rename f) = .ok a := by
  cases operand with
  | register r =>
      rw [Operand.rename, Context.argument, Context.argument, checkRegister_congr hsize]
  | immediate value => exact Iff.rfl
  | symbol name =>
      simp only [Context.argument, Operand.rename, bind_eq_ok_iff, label_rename (hname name rfl)]
  | memory size location =>
      simp only [Context.argument, Operand.rename, bind_eq_ok_iff, address_rename hsize hname]

theorem arguments_rename {operands : List Operand}
    (hname : ∀ name ∈ operands.filterMap Operand.reference?, c.place? name = c'.place? (f name))
    {args : List Argument} :
    operands.mapM c.argument = .ok args ↔
      (operands.map (Operand.rename f)).mapM c'.argument = .ok args := by
  rw [mapM_eq_ok_iff, mapM_eq_ok_iff, List.forall₂_map_left_iff]
  induction operands generalizing args with
  | nil => simp
  | cons operand rest ih =>
      have hfirst :
          ∀ name, operand.reference? = some name → c.place? name = c'.place? (f name) :=
        fun name hreference => hname name (List.mem_filterMap.mpr
          ⟨operand, List.mem_cons_self, hreference⟩)
      have hrest : ∀ name ∈ rest.filterMap Operand.reference?,
          c.place? name = c'.place? (f name) := by
        intro name hmem
        obtain ⟨other, hother, hreference⟩ := List.mem_filterMap.mp hmem
        exact hname name
          (List.mem_filterMap.mpr ⟨other, List.mem_cons_of_mem _ hother, hreference⟩)
      simp only [List.forall₂_cons_left_iff, argument_rename hsize hfirst, ih hrest]

theorem emission_rename {s : Statement}
    (hname : ∀ name ∈ s.references, c.place? name = c'.place? (f name)) {capacity : UInt64}
    {e : Emission} :
    emission c capacity s = .ok e ↔ emission c' capacity (s.rename f) = .ok e := by
  unfold Statement.references at hname
  cases hbody : s.body with
  | instruction mnemonic operands =>
      rw [hbody] at hname
      simp only [emission, Statement.rename, hbody, Body.rename, bind_eq_ok_iff,
        arguments_rename hsize hname, hsize]
  | empty => simp [emission, Statement.rename, hbody, Body.rename]
  | mode size => simp [emission, Statement.rename, hbody, Body.rename]
  | data unit items => simp [emission, Statement.rename, hbody, Body.rename]
  | reserve unit count => simp [emission, Statement.rename, hbody, Body.rename]

end Operands

/-! ## Statements under other names -/

def Renames (f : String → String) (names : Set String) (name name' : String) : Prop :=
  name ∈ names ∧ f name = name'

theorem biUnique_renames {names : Set String} (hf : Set.InjOn f names) :
    Relator.BiUnique (Renames f names) := by
  constructor
  · rintro a b _ ⟨ha, rfl⟩ ⟨hb, heq⟩
    exact hf ha hb heq.symm
  · rintro a _ _ ⟨-, rfl⟩ ⟨-, rfl⟩
    rfl

theorem corresponds_rename {names : Set String} {s : Statement}
    (hlabels : ∀ name ∈ s.labels, name ∈ names)
    (hreferences : ∀ name ∈ s.references, name ∈ names) :
    Corresponds (Renames f names) s (s.rename f) := by
  refine ⟨?_, ?_, ?_, ?_⟩
  · rw [Statement.rename, List.forall₂_map_right_iff, List.forall₂_same]
    exact fun name hname => ⟨hlabels name hname, rfl⟩
  · unfold emits Statement.rename
    cases s.body <;> rfl
  · intro size
    unfold Statement.rename
    cases s.body <;> simp [Body.rename]
  · intro c c' capacity e hsize hplaces
    apply emission_rename hsize
    exact fun name hname => hplaces name (f name) ⟨hreferences name hname, rfl⟩

/-- Statements have the same code under other names, if no two of their names become one. Where
they have none, they have none under other names. -/
theorem assembleStatements_rename (f : String → String) {statements : List Statement}
    (hf : Set.InjOn f (namesOf statements)) (lines lines' : List String) (target : Target)
    (code : Code) :
    assembleStatements lines target statements = .ok code ↔
      assembleStatements lines' target (statements.map (Statement.rename f)) = .ok code := by
  apply assembleStatements_of_corresponds (biUnique_renames hf)
  rw [List.forall₂_map_right_iff, List.forall₂_same]
  intro s hs
  exact corresponds_rename (fun name hname => ⟨s, hs, .inl hname⟩)
    fun name hname => ⟨s, hs, .inr hname⟩

/-- Two labels change their names with each other: one is referred to from both sides and the
other, which stands for the end, from before it is defined. -/
theorem assembleStatements_rename_exchanged :
    let f := fun name => if name = "a" then "b" else "a"
    let statements : List Statement :=
      [⟨1, ["a"], .instruction "jne" [.symbol "b"]⟩,
        ⟨2, [], .instruction "lea" [.register (.low .qword 0), .memory none (.label "a")]⟩,
        ⟨3, ["b"], .empty⟩]
    Set.InjOn f (namesOf statements) ∧
      assembleStatements [] ⟨0x10000000, 0x1000, 64⟩ (statements.map (Statement.rename f)) =
        .ok [0x75, 0x07, 0x48, 0x8D, 0x05, 0xF7, 0xFF, 0xFF, 0xFF] := by
  intro f statements
  have hnames : ∀ name ∈ namesOf statements, name = "a" ∨ name = "b" := by
    rintro name ⟨s, hs, hname⟩
    simp only [statements, List.mem_cons, List.not_mem_nil, or_false] at hs
    rcases hs with rfl | rfl | rfl <;>
      simp [Statement.references, Operand.reference?] at hname <;> simp [hname]
  have hf : Set.InjOn f (namesOf statements) := by
    intro a ha b hb heq
    rcases hnames a ha with rfl | rfl <;> rcases hnames b hb with rfl | rfl <;> simp_all [f]
  have hcode : assembleStatements [] ⟨0x10000000, 0x1000, 64⟩ statements =
      .ok [0x75, 0x07, 0x48, 0x8D, 0x05, 0xF7, 0xFF, 0xFF, 0xFF] := by decide +kernel
  exact ⟨hf, (assembleStatements_rename f hf [] [] _ _).mp hcode⟩

end AsmLoader.Assembly
