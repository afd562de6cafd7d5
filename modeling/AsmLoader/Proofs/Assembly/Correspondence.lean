import AsmLoader.Proofs.Assembly.Success
/-!
# Statements that correspond

Two sources whose statements say the same, each under names of its own, have the same code. Their
names correspond if neither has two names for one of the other. What is defined and waits then
corresponds from one statement to the next, so that a place has the same number in both; the
numbers of lines do not matter.
-/

namespace AsmLoader.Assembly

open Machine (CodeSize)
open Source (Statement)

variable {R : String → String → Prop}

/-! ## Labels -/

theorem lookup_eq_of_forall₂ {α : Type} (hR : Relator.BiUnique R) {name name' : String}
    (hname : R name name') {table table' : List (String × α)}
    (h : List.Forall₂ (fun p p' => R p.1 p'.1 ∧ p.2 = p'.2) table table') :
    table.lookup name = table'.lookup name' := by
  induction h with
  | nil => rfl
  | @cons p p' _ _ hp _ ih =>
      have hsame : name = p.1 ↔ name' = p'.1 := Relator.rel_eq hR hname hp.1
      have hbeq : (name == p.1) = (name' == p'.1) := by
        rw [Bool.eq_iff_iff, beq_iff_eq, beq_iff_eq, hsame]
      rw [List.lookup_cons, List.lookup_cons, hbeq, hp.2, ih]

namespace Labels

structure Corresponds (R : String → String → Prop) (labels labels' : Labels) : Prop where
  names : List.Forall₂ R labels.names labels'.names
  waiting : List.Forall₂ R labels.waiting labels'.waiting
  placed : List.Forall₂ (fun p p' => R p.1 p'.1 ∧ p.2 = p'.2) labels.placed labels'.placed
  places_eq : labels.places = labels'.places

namespace Corresponds

variable {labels labels' : Labels}

theorem empty : Corresponds R empty empty :=
  ⟨.nil, .nil, .nil, rfl⟩

theorem define (h : labels.Corresponds R labels') (hR : Relator.BiUnique R) {name name' : String}
    (hname : R name name') (line line' : Nat) :
    (labels.define line name).Corresponds R (labels'.define line' name') := by
  have hmem : name ∈ labels.names ↔ name' ∈ labels'.names := List.rel_mem hR hname h.names
  by_cases hdefined : name ∈ labels.names
  · obtain ⟨first, hlookup⟩ := Option.ne_none_iff_exists'.mp
      fun hnone => lookup_defined_eq_none_iff.mp hnone hdefined
    obtain ⟨first', hlookup'⟩ := Option.ne_none_iff_exists'.mp
      fun hnone => lookup_defined_eq_none_iff.mp hnone (hmem.mp hdefined)
    simp only [Labels.define, hlookup, hlookup']
    exact ⟨h.names, h.waiting, h.placed, h.places_eq⟩
  · have hlookup := lookup_defined_eq_none_iff.mpr hdefined
    have hlookup' :=
      lookup_defined_eq_none_iff.mpr fun hdefined' => hdefined (hmem.mpr hdefined')
    simp only [Labels.define, hlookup, hlookup']
    refine ⟨?_, List.rel_append h.waiting (.cons hname .nil), h.placed, h.places_eq⟩
    have hnames := List.rel_append h.names (.cons hname .nil)
    simpa [Labels.names] using hnames

theorem defineAll (h : labels.Corresponds R labels') (hR : Relator.BiUnique R)
    {names names' : List String} (hnames : List.Forall₂ R names names') (line line' : Nat) :
    (names.foldl (Labels.define line) labels).Corresponds R
      (names'.foldl (Labels.define line') labels') := by
  induction hnames generalizing labels labels' with
  | nil => exact h
  | cons hname _ ih => exact ih (h.define hR hname line line')

theorem settle (h : labels.Corresponds R labels') :
    labels.settle.1.Corresponds R labels'.settle.1 ∧ labels.settle.2 = labels'.settle.2 := by
  have hempty : labels.waiting.isEmpty = labels'.waiting.isEmpty := by
    have hlength := h.waiting.length_eq
    rw [Bool.eq_iff_iff, List.isEmpty_iff_length_eq_zero, List.isEmpty_iff_length_eq_zero,
      hlength]
  unfold Labels.settle
  rw [← hempty, ← h.places_eq]
  split
  next => exact ⟨h, rfl⟩
  next =>
    refine ⟨⟨h.names, .nil, List.rel_append h.placed ?_, rfl⟩, rfl⟩
    rw [List.forall₂_map_left_iff, List.forall₂_map_right_iff]
    exact h.waiting.imp fun _ _ hname => ⟨hname, rfl⟩

theorem statement (h : labels.Corresponds R labels') (hR : Relator.BiUnique R) {s s' : Statement}
    (hlabels : List.Forall₂ R s.labels s'.labels) (hemits : emits s = emits s') :
    (labels.statement s).1.Corresponds R (labels'.statement s').1 ∧
      (labels.statement s).2 = (labels'.statement s').2 := by
  have hdefined := h.defineAll hR hlabels s.line s'.line
  unfold Labels.statement
  dsimp only
  rw [← hemits]
  split
  next => exact hdefined.settle
  next => exact ⟨hdefined, rfl⟩

theorem statements (h : labels.Corresponds R labels') (hR : Relator.BiUnique R)
    {statements statements' : List Statement}
    (hstatements : List.Forall₂ (fun s s' => List.Forall₂ R s.labels s'.labels ∧
      emits s = emits s')
      statements statements') :
    (labels.statements statements).1.Corresponds R (labels'.statements statements').1 ∧
      (labels.statements statements).2 = (labels'.statements statements').2 := by
  induction hstatements generalizing labels labels' with
  | nil => exact ⟨h, rfl⟩
  | cons hs _ ih =>
      obtain ⟨hfirst, hplace⟩ := h.statement hR hs.1 hs.2
      obtain ⟨hrest, hplaces⟩ := ih hfirst
      rw [statements_cons, statements_cons, hplace, hplaces]
      exact ⟨hrest, rfl⟩

theorem find?_eq (h : labels.Corresponds R labels') (hR : Relator.BiUnique R)
    {name name' : String} (hname : R name name') : labels.find? name = labels'.find? name' :=
  lookup_eq_of_forall₂ hR hname h.placed

end Corresponds

end Labels

/-! ## Statements -/

/-- Two statements that say the same where their names have the same places. -/
structure Corresponds (R : String → String → Prop) (s s' : Statement) : Prop where
  labels : List.Forall₂ R s.labels s'.labels
  emits_eq : emits s = emits s'
  mode_iff : ∀ size, s.body = .mode size ↔ s'.body = .mode size
  emission_iff :
    ∀ (c c' : Context) (capacity : UInt64) (e : Emission), c.codeSize = c'.codeSize →
    (∀ name name', R name name' → c.place? name = c'.place? name') →
      (emission c capacity s = .ok e ↔ emission c' capacity s' = .ok e)

variable {statements statements' : List Statement} {codeSize : CodeSize} {target : Target}
  {es : List Emission} {code : Code}

theorem bindLabels_of_corresponds (hR : Relator.BiUnique R)
    (h : List.Forall₂ (Corresponds R) statements statements') :
    (bindLabels statements).2 = (bindLabels statements').2 ∧
      ∀ name name', R name name' →
        (bindLabels statements).1.find? name = (bindLabels statements').1.find? name' := by
  obtain ⟨hlabels, hplaces⟩ := Labels.Corresponds.empty.statements hR
    (h.imp fun _ _ hs => ⟨hs.labels, hs.emits_eq⟩)
  obtain ⟨hsettled, hlast⟩ := hlabels.settle
  exact ⟨Prod.ext hplaces hlast, fun _ _ hname => hsettled.find?_eq hR hname⟩

theorem emitted_iff_of_corresponds (hR : Relator.BiUnique R)
    (h : List.Forall₂ (Corresponds R) statements statements') (codeSize : CodeSize)
    (capacity : UInt64) (es : List Emission) :
    Emitted codeSize capacity statements es ↔ Emitted codeSize capacity statements' es := by
  have hplaces := (bindLabels_of_corresponds hR h).2
  unfold Emitted
  generalize hc : contextOf codeSize statements = c
  generalize hc' : contextOf codeSize statements' = c'
  have hsize : c.codeSize = c'.codeSize := by rw [← hc, ← hc']; rfl
  have hcontext : ∀ name name', R name name' → c.place? name = c'.place? name' := by
    rw [← hc, ← hc']
    exact hplaces
  clear hplaces hc hc'
  induction h generalizing es with
  | nil => simp
  | cons hs _ ih =>
      simp only [List.forall₂_cons_left_iff, ih,
        hs.emission_iff c c' capacity _ hsize hcontext]

theorem nodup_iff_of_corresponds (hR : Relator.BiUnique R)
    (h : List.Forall₂ (Corresponds R) statements statements') :
    (statements.flatMap Statement.labels).Nodup ↔ (statements'.flatMap Statement.labels).Nodup :=
  List.rel_nodup hR (List.rel_flatMap h fun _ _ hs => hs.labels)

theorem modes_iff_of_corresponds (h : List.Forall₂ (Corresponds R) statements statements')
    (bitness : Nat) :
    (∀ s ∈ statements, ∀ size, s.body = .mode size → size.bits = bitness) ↔
      ∀ s ∈ statements', ∀ size, s.body = .mode size → size.bits = bitness := by
  induction h with
  | nil => simp
  | cons hs _ ih => simp only [List.forall_mem_cons, ih, hs.mode_iff]

/-- Statements that correspond have the same code. -/
theorem assembles_iff_of_corresponds (hR : Relator.BiUnique R)
    (h : List.Forall₂ (Corresponds R) statements statements') :
    Assembles codeSize target statements es code ↔
      Assembles codeSize target statements' es code := by
  have hitems : itemsOf codeSize statements es = itemsOf codeSize statements' es := by
    rw [itemsOf, itemsOf, (bindLabels_of_corresponds hR h).1]
  have hmodes := modes_iff_of_corresponds h target.bitness
  have hlabels := nodup_iff_of_corresponds hR h
  have hemitted := emitted_iff_of_corresponds hR h codeSize target.capacity es
  constructor
  · rintro ⟨hbits, hm, hl, he, hw⟩
    exact ⟨hbits, hmodes.mp hm, hlabels.mp hl, hemitted.mp he, hitems ▸ hw⟩
  · rintro ⟨hbits, hm, hl, he, hw⟩
    exact ⟨hbits, hmodes.mpr hm, hlabels.mpr hl, hemitted.mpr he, hitems ▸ hw⟩

theorem assembleStatements_of_corresponds (hR : Relator.BiUnique R)
    (h : List.Forall₂ (Corresponds R) statements statements') (lines lines' : List String) :
    assembleStatements lines target statements = .ok code ↔
      assembleStatements lines' target statements' = .ok code := by
  simp only [assembleStatements_eq_ok_iff, assembles_iff_of_corresponds hR h]

end AsmLoader.Assembly
