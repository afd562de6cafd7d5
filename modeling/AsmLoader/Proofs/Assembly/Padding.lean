import AsmLoader.Proofs.Assembly.Correspondence
import AsmLoader.Proofs.Source.Padding
/-!
# Padding in code

Padding is not there in the code. A line that says nothing takes no place and gives none away, so
that a label which waits before it still waits after it, and every place keeps its number and its
bytes.
-/

namespace AsmLoader.Assembly

open Machine (CodeSize)
open Source (Body IsSilent LinesPadded Statement StatementsPadded)

variable {bitness : Nat} {statements statements' : List Statement} {s s' : Statement}

theorem biUnique_eq : Relator.BiUnique (Eq : String → String → Prop) :=
  ⟨fun _ _ _ h h' => h.trans h'.symm, fun _ _ _ h h' => h.symm.trans h'⟩

/-! ## Statements that say nothing -/

theorem emission_congr (h : s'.body = s.body) (c : Context) (capacity : UInt64) :
    emission c capacity s' = emission c capacity s := by
  unfold emission
  rw [h]

theorem emits_congr (h : s'.body = s.body) : emits s' = emits s := by
  unfold emits
  rw [h]

theorem emits_of_isSilent (h : s.body.IsSilent bitness) : emits s = false := by
  unfold emits
  cases hbody : s.body <;> simp_all [Body.IsSilent, takesRoom]

theorem emission_of_isSilent (h : s.body.IsSilent bitness) (c : Context) (capacity : UInt64) :
    emission c capacity s = .ok .nothing := by
  unfold emission
  cases hbody : s.body with
  | empty => rfl
  | mode size => rfl
  | instruction mnemonic operands =>
      rw [hbody] at h
      cases h
  | data unit items =>
      rw [hbody] at h
      obtain rfl : items = [.bytes []] := h
      rfl
  | reserve unit count =>
      rw [hbody] at h
      obtain rfl : count = 0 := h
      have hzero : reservedBytes unit 0 = 0 := by cases unit <;> decide
      simp [hzero, Emission.ofBytes]

theorem statement_of_isSilent (hlabels : s.labels = []) (hbody : s.body.IsSilent bitness)
    (labels : Labels) : labels.statement s = (labels, 0) := by
  simp [Labels.statement, hlabels, emits_of_isSilent hbody]

/-! ## Padded statements -/

theorem labels_of_padded (h : StatementsPadded bitness statements statements') :
    statements'.flatMap Statement.labels = statements.flatMap Statement.labels := by
  induction h with
  | nil => rfl
  | statement hlabels _ _ ih => rw [List.flatMap_cons, List.flatMap_cons, ih, hlabels]
  | silent hlabels _ _ ih => rw [List.flatMap_cons, ih, hlabels, List.nil_append]

theorem modes_of_padded (h : StatementsPadded bitness statements statements')
    (hmodes : ∀ s ∈ statements, ∀ size, s.body = .mode size → size.bits = bitness) :
    ∀ s ∈ statements', ∀ size, s.body = .mode size → size.bits = bitness := by
  induction h with
  | nil => exact hmodes
  | statement _ hbody _ ih =>
      rw [List.forall_mem_cons] at hmodes ⊢
      exact ⟨hbody ▸ hmodes.1, ih hmodes.2⟩
  | silent _ hbody _ ih =>
      rw [List.forall_mem_cons]
      refine ⟨fun size hmode => ?_, ih hmodes⟩
      rwa [hmode] at hbody

theorem statements_of_padded (h : StatementsPadded bitness statements statements')
    {labels labels' : Labels} (hlabels : labels.Corresponds Eq labels') :
    (labels.statements statements).1.Corresponds Eq (labels'.statements statements').1 := by
  induction h generalizing labels labels' with
  | nil => exact hlabels
  | @statement s s' _ _ hsame hbody _ ih =>
      rw [Labels.statements_cons, Labels.statements_cons]
      have hs : List.Forall₂ Eq s.labels s'.labels := List.forall₂_eq_eq_eq ▸ hsame.symm
      exact ih (hlabels.statement biUnique_eq hs (emits_congr hbody).symm).1
  | silent hnone hbody _ ih =>
      rw [Labels.statements_cons, statement_of_isSilent hnone hbody]
      exact ih hlabels

theorem exists_emitted_of_padded (h : StatementsPadded bitness statements statements')
    {labels labels' : Labels} (hlabels : labels.Corresponds Eq labels') {c : Context}
    {capacity : UInt64} {es : List Emission}
    (hes : List.Forall₂ (fun s e => emission c capacity s = .ok e) statements es) :
    ∃ es', List.Forall₂ (fun s e => emission c capacity s = .ok e) statements' es' ∧
      (((labels'.statements statements').2.zip es').filter fun p => p.2 ≠ .nothing) =
        ((labels.statements statements).2.zip es).filter fun p => p.2 ≠ .nothing := by
  induction h generalizing labels labels' es with
  | nil =>
      cases hes
      exact ⟨[], .nil, rfl⟩
  | @statement s s' _ _ hsame hbody _ ih =>
      cases hes with
      | @cons _ e _ es he hes =>
          have hs : List.Forall₂ Eq s.labels s'.labels := List.forall₂_eq_eq_eq ▸ hsame.symm
          obtain ⟨hnext, hplace⟩ :=
            hlabels.statement biUnique_eq hs (emits_congr hbody).symm
          obtain ⟨es', hes', hzip⟩ := ih hnext hes
          refine ⟨e :: es', .cons ((emission_congr hbody c capacity).trans he) hes', ?_⟩
          rw [Labels.statements_cons, Labels.statements_cons, List.zip_cons_cons,
            List.zip_cons_cons, List.filter_cons, List.filter_cons, hzip, hplace]
  | silent hnone hbody _ ih =>
      obtain ⟨es', hes', hzip⟩ := ih hlabels hes
      refine ⟨.nothing :: es', .cons (emission_of_isSilent hbody c capacity) hes', ?_⟩
      rw [Labels.statements_cons, statement_of_isSilent hnone hbody, List.zip_cons_cons,
        List.filter_cons_of_neg (by simp), hzip]

/-- Padded statements have the same code. -/
theorem Assembles.padded {codeSize : CodeSize} {target : Target} {es : List Emission}
    {code : Code} (h : Assembles codeSize target statements es code)
    (hpadded : StatementsPadded target.bitness statements statements') :
    ∃ es', Assembles codeSize target statements' es' code := by
  have hempty : Labels.empty.Corresponds Eq Labels.empty := .empty
  obtain ⟨hlabels, hlast⟩ := (statements_of_padded hpadded hempty).settle
  have hcontext : contextOf codeSize statements = contextOf codeSize statements' :=
    congrArg (Context.mk codeSize) (funext fun _ => hlabels.find?_eq biUnique_eq rfl)
  obtain ⟨es', hes', hzip⟩ := exists_emitted_of_padded hpadded hempty h.emitted
  refine ⟨es', h.bits_eq, modes_of_padded hpadded h.modes_eq, ?_, ?_, ?_⟩
  · rw [labels_of_padded hpadded]
    exact h.labels_nodup
  · rw [Emitted, ← hcontext]
    exact hes'
  · have hitems : (itemsOf codeSize statements' es').reduceOption =
        (itemsOf codeSize statements es).reduceOption := by
      rw [reduceOption_itemsOf, reduceOption_itemsOf]
      exact congrArg₂ (fun placed last => entriesOf codeSize placed ++ lastEntry last) hzip
        hlast.symm
    rw [hitems, h.written]

/-! ## Padded sources -/

/-- A source that has code has the same with a line more that says nothing, wherever among its
lines it stands, and with a comment at the end of any of them. -/
theorem assemble_padded {target : Target} {source padded : String} {code : Code}
    (hpadded : Source.Padded target.bitness source padded)
    (h : assemble source target = .ok code) : assemble padded target = .ok code := by
  obtain ⟨statements, hparse, h⟩ := assemble_eq_ok_iff.mp h
  obtain ⟨codeSize, es, hassembles⟩ := exists_assembles h
  have hbitness := exists_bits_eq_iff.mp ⟨codeSize, hassembles.bits_eq⟩
  obtain ⟨statements', hparse', hstatements⟩ :=
    Source.parse_padded hparse (LinesPadded.of_padded hbitness hpadded)
  obtain ⟨es', hassembles'⟩ := hassembles.padded hstatements
  rw [assemble_of_parse hparse', hassembles'.assembleStatements_eq]

/-- A line that says nothing between a label and the statement that it names. -/
theorem assemble_padded_waiting :
    assemble "x:\n  rb 0 ; none\njmp x" ⟨0x10000000, 0x1000, 64⟩ = .ok [0xEB, 0xFE] := by
  have hsilent : IsSilent 64 "  rb 0 ; none" :=
    ⟨[' ', ' '], "rb 0", [' '], "; none".toList, by simp [Source.silentTexts], by simp,
      by simp [Text.isBlank], by simp [Text.isBlank], by simp⟩
  have hbefore : Text.IsComplete "x:\n".toList := by simp [Text.IsComplete]
  exact assemble_padded (.line hbefore (by simp) hsilent)
    (by decide +kernel : assemble ("x:\n" ++ "jmp x") ⟨0x10000000, 0x1000, 64⟩ = _)

end AsmLoader.Assembly
