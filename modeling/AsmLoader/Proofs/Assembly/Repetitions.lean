import AsmLoader.Proofs.Assembly.Acceptance
import AsmLoader.Proofs.Source.Definitions
/-!
# Labels that are defined again

Of the labels of a source with one name, the first is the one that counts. Every other is
reported on its own line, and each of these reports names the line of the first.
-/

namespace AsmLoader.Assembly

open Source (Statement marksOf)

/-- The repetitions among labels with their lines: every label whose name an earlier one has,
with the line of the first that has it. -/
def repetitionsOf (marks : List (String × Nat)) : List Repetition :=
  marks.zipIdx.filterMap fun p =>
    ((marks.take p.2).lookup p.1.1).map (⟨p.1.2, p.1.1, ·⟩)

theorem repetitionsOf_concat (marks : List (String × Nat)) (name : String) (line : Nat) :
    repetitionsOf (marks ++ [(name, line)]) =
      repetitionsOf marks ++ ((marks.lookup name).map (⟨line, name, ·⟩)).toList := by
  unfold repetitionsOf
  rw [List.zipIdx_append, List.filterMap_append]
  congr 1
  · apply List.filterMap_congr
    intro p hp
    have hlt : p.2 < marks.length := by
      have hindex := List.snd_lt_of_mem_zipIdx hp
      omega
    rw [List.take_append_of_le_length (Nat.le_of_lt hlt)]
  · cases hlookup : marks.lookup name <;> simp [hlookup]

theorem mem_repetitionsOf_iff {marks : List (String × Nat)} {r : Repetition} :
    r ∈ repetitionsOf marks ↔ ∃ i, marks[i]? = some (r.name, r.line) ∧
      (marks.take i).lookup r.name = some r.firstLine := by
  unfold repetitionsOf
  rw [List.mem_filterMap]
  constructor
  · rintro ⟨⟨⟨name, line⟩, i⟩, hmem, hr⟩
    obtain ⟨firstLine, hfirst, rfl⟩ := Option.map_eq_some_iff.mp hr
    exact ⟨i, List.mem_zipIdx_iff_getElem?.mp hmem, hfirst⟩
  · rintro ⟨i, hi, hfirst⟩
    exact ⟨((r.name, r.line), i), List.mem_zipIdx_iff_getElem?.mpr hi, by simp [hfirst]⟩

/-! ## The first label of a name -/

structure FirstMark (marks : List (String × Nat)) (name : String) (i line : Nat) : Prop where
  getElem?_eq : marks[i]? = some (name, line)
  ne_before : ∀ j < i, ∀ line', marks[j]? ≠ some (name, line')

theorem lookup_eq_some_iff_getElem? {α β : Type} [BEq α] [LawfulBEq α] {l : List (α × β)} {a : α}
    {b : β} : l.lookup a = some b ↔
      ∃ j : Nat, l[j]? = some (a, b) ∧ ∀ k < j, ∀ b', l[k]? ≠ some (a, b') := by
  rw [List.lookup_eq_some_iff]
  constructor
  · rintro ⟨before, after, rfl, hbefore⟩
    refine ⟨before.length, by simp, fun k hk b' hb' => ?_⟩
    rw [List.getElem?_append_left hk] at hb'
    have hne := hbefore _ (List.mem_of_getElem? hb')
    simp at hne
  · rintro ⟨j, hj, hfirst⟩
    obtain ⟨hlt, heq⟩ := List.getElem?_eq_some_iff.mp hj
    refine ⟨l.take j, l.drop (j + 1), ?_, fun p hp => ?_⟩
    · rw [← heq, List.getElem_cons_drop, List.take_append_drop]
    · obtain ⟨k, hk, hp⟩ := List.mem_take_iff_getElem.mp hp
      have hne : a ≠ p.1 := by
        rintro rfl
        refine hfirst k (by omega) p.2 ?_
        rw [← hp, List.getElem?_eq_getElem]
      simpa using hne

theorem lookup_take_eq_some_iff {marks : List (String × Nat)} {name : String} {i line : Nat} :
    (marks.take i).lookup name = some line ↔ ∃ j < i, FirstMark marks name j line := by
  rw [lookup_eq_some_iff_getElem?]
  constructor
  · rintro ⟨j, hj, hfirst⟩
    rw [List.getElem?_take, Option.ite_none_right_eq_some] at hj
    obtain ⟨hlt, hj⟩ := hj
    refine ⟨j, hlt, hj, fun k hk line' hline' => hfirst k hk line' ?_⟩
    rwa [List.getElem?_take_of_lt (hk.trans hlt)]
  · rintro ⟨j, hlt, hj, hfirst⟩
    refine ⟨j, by rwa [List.getElem?_take_of_lt hlt], fun k hk line' hline' =>
      hfirst k hk line' ?_⟩
    rwa [List.getElem?_take_of_lt (hk.trans hlt)] at hline'

theorem repetitionsOf_eq_nil {marks : List (String × Nat)} (h : (marks.map Prod.fst).Nodup) :
    repetitionsOf marks = [] := by
  rw [List.eq_nil_iff_forall_not_mem]
  intro r hr
  obtain ⟨i, hi, hfirst⟩ := mem_repetitionsOf_iff.mp hr
  obtain ⟨j, hlt, hj, -⟩ := lookup_take_eq_some_iff.mp hfirst
  have hilt : i < (marks.map Prod.fst).length := by
    rw [List.length_map]
    exact (List.getElem?_eq_some_iff.mp hi).1
  apply List.nodup_iff_getElem?_ne_getElem?.mp h j i hlt hilt
  rw [List.getElem?_map, List.getElem?_map, hi, hj]
  rfl

/-! ## The labels of statements -/

/-- What is known of the labels after some definitions: the lines of the first, and the
repetitions. -/
structure Labels.Records (labels : Labels) (marks : List (String × Nat)) : Prop where
  lookup_eq : ∀ name, labels.defined.lookup name = marks.lookup name
  repetitions_eq : labels.repetitions = repetitionsOf marks

namespace Labels.Records

variable {labels : Labels} {marks : List (String × Nat)}

theorem empty : Labels.empty.Records [] :=
  ⟨fun _ => rfl, rfl⟩

theorem define (h : labels.Records marks) (line : Nat) (name : String) :
    (labels.define line name).Records (marks ++ [(name, line)]) := by
  have hname := h.lookup_eq name
  refine ⟨fun other => ?_, ?_⟩
  · unfold Labels.define
    split
    next firstLine hfirst =>
      rw [List.lookup_append, ← h.lookup_eq]
      by_cases heq : other = name
      · rw [heq, hfirst]
        rfl
      · simp [List.lookup_cons, beq_eq_false_iff_ne.mpr heq]
    next =>
      rw [List.lookup_append, List.lookup_append, h.lookup_eq]
  · rw [repetitionsOf_concat, ← h.repetitions_eq, ← hname]
    unfold Labels.define
    split
    next firstLine hfirst => simp [hfirst]
    next hfree => simp [hfree]

theorem defineAll (h : labels.Records marks) (line : Nat) (names : List String) :
    (names.foldl (Labels.define line) labels).Records (marks ++ names.map (·, line)) := by
  induction names generalizing labels marks with
  | nil => simpa using h
  | cons name names ih => simpa using ih (h.define line name)

theorem settle (h : labels.Records marks) : labels.settle.1.Records marks :=
  ⟨fun name => by rw [defined_settle, h.lookup_eq], by rw [repetitions_settle, h.repetitions_eq]⟩

theorem statement (h : labels.Records marks) (s : Statement) :
    (labels.statement s).1.Records (marks ++ s.labels.map (·, s.line)) := by
  have hdefined := h.defineAll s.line s.labels
  unfold Labels.statement
  dsimp only
  split
  next => exact hdefined.settle
  next => exact hdefined

theorem statements (h : labels.Records marks) (rest : List Statement) :
    (labels.statements rest).1.Records (marks ++ marksOf rest) := by
  induction rest generalizing labels marks with
  | nil => simpa [marksOf, Labels.statements] using h
  | cons s rest ih =>
      have hrest := ih (h.statement s)
      rwa [List.append_assoc] at hrest

end Labels.Records

/-- The repetitions that are reported of statements are those among their labels. -/
theorem repetitions_bindLabels (statements : List Statement) :
    (bindLabels statements).1.repetitions = repetitionsOf (marksOf statements) :=
  (Labels.Records.empty.statements statements).settle.repetitions_eq

/-! ## The statement with the first label of a name -/

theorem map_fst_marksOf (statements : List Statement) :
    (marksOf statements).map Prod.fst = statements.flatMap Statement.labels := by
  rw [marksOf, List.map_flatMap]
  simp [Function.comp_def]

theorem lookup_marksOf (statements : List Statement) (name : String) :
    (marksOf statements).lookup name =
      (statements.find? fun s => decide (name ∈ s.labels)).map Statement.line := by
  induction statements with
  | nil => rfl
  | cons s rest ih =>
      change (s.labels.map (·, s.line) ++ marksOf rest).lookup name = _
      rw [List.lookup_append, lookup_map_pair, ih, List.find?_cons]
      by_cases hmem : name ∈ s.labels <;> simp [hmem]

theorem exists_statement_of_find? {statements : List Statement} {name : String} {place : PlaceId}
    (h : (bindLabels statements).1.find? name = some place) :
    ∃ k s, statements[k]? = some s ∧ name ∈ s.labels ∧
      (∀ j < k, ∀ s', statements[j]? = some s' → name ∉ s'.labels) ∧
      (marksOf statements).lookup name = some s.line ∧
      (numbersOf statements)[k + (statements.drop k).findIdx emits]? = some place := by
  obtain ⟨l, hlocation, hplace⟩ := location?_of_find? h
  obtain ⟨k, hk, rfl⟩ := Option.map_eq_some_iff.mp hlocation
  obtain ⟨hlt, hname, hbefore⟩ := List.findIdx?_eq_some_iff_getElem.mp hk
  have hfind : statements.find? (fun s => decide (name ∈ s.labels)) = some statements[k] := by
    rw [List.find?_eq_some_iff_getElem]
    exact ⟨hname, k, hlt, rfl, fun j hj => by simpa using hbefore j hj⟩
  refine ⟨k, statements[k], List.getElem?_eq_getElem hlt, of_decide_eq_true hname, ?_,
    ?_, hplace⟩
  · intro j hj s' hs'
    obtain ⟨hjlt, rfl⟩ := List.getElem?_eq_some_iff.mp hs'
    simpa using hbefore j hj
  · rw [lookup_marksOf, hfind]
    rfl

end AsmLoader.Assembly
