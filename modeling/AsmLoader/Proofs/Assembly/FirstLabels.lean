import AsmLoader.Proofs.Assembly.Repetitions
/-!
# First labels

Among the labels of statements, in the order in which they stand, the first with a name gives the
name its place. Each other label with the name is reported, once and on its own line, and each of
these reports cites the line of the first, not that of the label before it.
-/

namespace AsmLoader.Assembly

open Source (Statement marksOf)

/-! ## What is reported of labels -/

/-- A label has the name of an earlier one, be it on an earlier line or on the same. -/
def Repeats (marks : List (String × Nat)) (i : Nat) : Prop :=
  ∃ name line j line', marks[i]? = some (name, line) ∧ j < i ∧ marks[j]? = some (name, line')

/-- A diagnostic tells the name of a label on the line of the label, and cites the line of the
first label with the name. -/
def Cites (lines : List String) (marks : List (String × Nat)) (i : Nat) (d : Diagnostic) :
    Prop :=
  ∃ name line j firstLine, marks[i]? = some (name, line) ∧ j < i ∧
    FirstMark marks name j firstLine ∧
    d = ⟨some line, "label '" ++ name ++ s!"' is already defined on line {firstLine}",
      lines[line - 1]?⟩

def repetitionReports (lines : List String) (statements : List Statement) : List Diagnostic :=
  (bindLabels statements).1.repetitions.map fun r => reportAt lines r.line r.message

section

variable {marks : List (String × Nat)} {name : String} {i line : Nat}

theorem lookup_eq_some_iff_exists_firstMark :
    marks.lookup name = some line ↔ ∃ i, FirstMark marks name i line := by
  rw [lookup_eq_some_iff_getElem?]
  exact ⟨fun ⟨i, hi, hfirst⟩ => ⟨i, hi, hfirst⟩, fun ⟨i, hi, hfirst⟩ => ⟨i, hi, hfirst⟩⟩

theorem repeats_iff :
    Repeats marks i ↔
      ∃ name line, marks[i]? = some (name, line) ∧ ((marks.take i).lookup name).isSome := by
  simp only [Repeats, List.lookup_isSome_iff, beq_iff_eq]
  constructor
  · rintro ⟨name, line, j, line', hi, hlt, hj⟩
    refine ⟨name, line, hi, (name, line'), ?_, rfl⟩
    exact List.mem_of_getElem? (by rwa [List.getElem?_take_of_lt hlt])
  · rintro ⟨name, line, hi, p, hp, rfl⟩
    obtain ⟨j, hj, rfl⟩ := List.mem_take_iff_getElem.mp hp
    exact ⟨_, line, j, _, hi, by omega, List.getElem?_eq_getElem _⟩

def repeatedIndices (marks : List (String × Nat)) : List Nat :=
  (marks.zipIdx.filter fun p => ((marks.take p.2).lookup p.1.1).isSome).map Prod.snd

theorem pairwise_repeatedIndices (marks : List (String × Nat)) :
    (repeatedIndices marks).Pairwise (· < ·) := by
  have hindices : (marks.zipIdx.map Prod.snd).Pairwise (· < ·) := by
    rw [List.zipIdx_map_snd]
    exact List.pairwise_lt_range'
  exact hindices.sublist (List.filter_sublist.map _)

theorem mem_repeatedIndices_iff : i ∈ repeatedIndices marks ↔ Repeats marks i := by
  rw [repeats_iff]
  simp only [repeatedIndices, List.mem_map, List.mem_filter, List.mem_zipIdx_iff_getElem?]
  constructor
  · rintro ⟨⟨⟨name, line⟩, i⟩, ⟨hi, hearlier⟩, rfl⟩
    exact ⟨name, line, hi, hearlier⟩
  · rintro ⟨name, line, hi, hearlier⟩
    exact ⟨((name, line), i), ⟨hi, hearlier⟩, rfl⟩

theorem forall₂_filterMap {α β : Type} (f : α → Option β) (l : List α) :
    List.Forall₂ (fun a b => f a = some b) (l.filter fun a => (f a).isSome) (l.filterMap f) := by
  induction l with
  | nil => exact .nil
  | cons a l ih =>
      cases ha : f a with
      | none => simpa [ha] using ih
      | some b => simpa [ha] using ih

theorem forall₂_repetitionsOf (marks : List (String × Nat)) :
    List.Forall₂ (fun i (r : Repetition) => marks[i]? = some (r.name, r.line) ∧
        ∃ j < i, FirstMark marks r.name j r.firstLine)
      (repeatedIndices marks) (repetitionsOf marks) := by
  have hindexed : ∀ p ∈ marks.zipIdx.filter fun p => ((marks.take p.2).lookup p.1.1).isSome,
      marks[p.2]? = some p.1 :=
    fun p hp => List.mem_zipIdx_iff_getElem?.mp (List.mem_filter.mp hp).1
  have hreported := forall₂_filterMap
    (fun p : (String × Nat) × Nat => ((marks.take p.2).lookup p.1.1).map
      (Repetition.mk p.1.2 p.1.1 ·)) marks.zipIdx
  simp only [Option.isSome_map] at hreported
  rw [repeatedIndices, List.forall₂_map_left_iff]
  refine ((List.forall₂_and_left _ _).mpr ⟨hindexed, hreported⟩).imp ?_
  rintro ⟨⟨name, line⟩, i⟩ r ⟨hi, hr⟩
  obtain ⟨firstLine, hfirst, rfl⟩ := Option.map_eq_some_iff.mp hr
  exact ⟨hi, lookup_take_eq_some_iff.mp hfirst⟩

end

theorem forall₂_repetitionReports (lines : List String) (statements : List Statement) :
    List.Forall₂ (Cites lines (marksOf statements)) (repeatedIndices (marksOf statements))
      (repetitionReports lines statements) := by
  rw [repetitionReports, List.forall₂_map_right_iff, repetitions_bindLabels]
  refine (forall₂_repetitionsOf (marksOf statements)).imp ?_
  rintro i ⟨line, name, firstLine⟩ ⟨hi, j, hlt, hfirst⟩
  exact ⟨name, line, j, firstLine, hi, hlt, hfirst, rfl⟩

/-- Wherever labels are reported, statements have no code: the reports follow what is said of
code sizes, and the statements that cannot be encoded follow them. -/
theorem assembleStatements_of_repetitionReports {lines : List String} {target : Target}
    {statements : List Statement} {codeSize : Machine.CodeSize}
    (hsize : effectiveSize? target statements = some codeSize)
    (hreports : repetitionReports lines statements ≠ []) :
    assembleStatements lines target statements = .error
      ((selectCodeSize target.bitness none statements).2.map
          (fun c => reportAt lines c.line c.message) ++
        repetitionReports lines statements ++
        (emissions (contextOf codeSize statements) target.capacity lines
          (statements.zip (bindLabels statements).2.1)).2) := by
  have hnonempty : ¬(reportsOf codeSize lines target statements).isEmpty := by
    rw [List.isEmpty_iff, reportsOf, List.append_eq_nil_iff, List.append_eq_nil_iff]
    rintro ⟨⟨-, hnone⟩, -⟩
    exact hreports hnone
  rw [assembleStatements_eq hsize, if_neg hnonempty]
  rfl

/-! ## What names are bound to -/

namespace Labels

/-- The names that have a place, and after them those that wait for one, are the names that are
defined, in the order of their first labels. -/
def Accounts (labels : Labels) : Prop :=
  labels.placed.map Prod.fst ++ labels.waiting = labels.names

namespace Accounts

variable {labels : Labels}

theorem empty : Labels.empty.Accounts := rfl

theorem define (h : labels.Accounts) (line : Nat) (name : String) :
    (labels.define line name).Accounts := by
  unfold Accounts at h ⊢
  unfold Labels.define
  split
  next => exact h
  next => simp only [names, List.map_append, List.map_cons, List.map_nil, ← List.append_assoc, h]

theorem defineAll (h : labels.Accounts) (line : Nat) (names : List String) :
    (names.foldl (Labels.define line) labels).Accounts := by
  induction names generalizing labels with
  | nil => exact h
  | cons name names ih => exact ih (h.define line name)

theorem settle (h : labels.Accounts) : labels.settle.1.Accounts := by
  unfold Accounts at h ⊢
  rw [names_settle, ← h]
  unfold Labels.settle
  split
  next => rfl
  next => simp [Function.comp_def]

theorem statement (h : labels.Accounts) (s : Statement) : (labels.statement s).1.Accounts := by
  have hdefined := h.defineAll s.line s.labels
  unfold Labels.statement
  dsimp only
  split
  next => exact hdefined.settle
  next => exact hdefined

theorem statements (h : labels.Accounts) (rest : List Statement) :
    (labels.statements rest).1.Accounts := by
  induction rest generalizing labels with
  | nil => exact h
  | cons s rest ih => exact ih (h.statement s)

end Accounts

end Labels

section

variable {statements : List Statement} {name : String} {place : PlaceId}

theorem map_fst_placed (statements : List Statement) :
    (bindLabels statements).1.placed.map Prod.fst = (bindLabels statements).1.names := by
  have haccounts : (bindLabels statements).1.Accounts :=
    (Labels.Accounts.empty.statements statements).settle
  have hwaiting : (bindLabels statements).1.waiting = [] := Labels.waiting_settle
  unfold Labels.Accounts at haccounts
  rwa [hwaiting, List.append_nil] at haccounts

theorem nodup_placed (statements : List Statement) :
    ((bindLabels statements).1.placed.map Prod.fst).Nodup := by
  have hempty : Labels.empty.names.Nodup := .nil
  rw [map_fst_placed]
  change (Labels.empty.statements statements).1.settle.1.names.Nodup
  rw [Labels.names_settle]
  exact Labels.nodup_statements statements hempty

theorem mem_placed_iff :
    name ∈ (bindLabels statements).1.placed.map Prod.fst ↔
      ∃ i line, FirstMark (marksOf statements) name i line := by
  have hrecords : (bindLabels statements).1.Records (marksOf statements) :=
    (Labels.Records.empty.statements statements).settle
  have hlookup : name ∈ (bindLabels statements).1.names ↔
      ∃ line, (marksOf statements).lookup name = some line := by
    rw [← hrecords.lookup_eq, ← Option.ne_none_iff_exists', ne_eq,
      Labels.lookup_defined_eq_none_iff, not_not]
  rw [map_fst_placed, hlookup, exists_comm]
  simp only [lookup_eq_some_iff_exists_firstMark]

theorem lookup_eq_some_iff_mem {α β : Type} [BEq α] [LawfulBEq α] {l : List (α × β)}
    (hnodup : (l.map Prod.fst).Nodup) {a : α} {b : β} : l.lookup a = some b ↔ (a, b) ∈ l := by
  have hmem {b : β} (h : l.lookup a = some b) : (a, b) ∈ l := by
    obtain ⟨j, hj, -⟩ := lookup_eq_some_iff_getElem?.mp h
    exact List.mem_of_getElem? hj
  refine ⟨hmem, fun h => ?_⟩
  obtain ⟨b', hb'⟩ := Option.isSome_iff_exists.mp
    (List.lookup_isSome_iff.mpr ⟨(a, b), h, beq_self_eq_true a⟩)
  have hsame : (a, b') = (a, b) := List.inj_on_of_nodup_map hnodup (hmem hb') h rfl
  rw [hb', (Prod.mk.inj hsame).2]

/-- A name is bound to one place and to no other: that of the first statement that emits
something, from the first one with the name on, or that of the end. -/
structure BoundAtFirst (statements : List Statement) (name : String) (line : Nat)
    (place : PlaceId) : Prop where
  find?_eq : (bindLabels statements).1.find? name = some place
  mem_placed_iff : ∀ place', (name, place') ∈ (bindLabels statements).1.placed ↔ place' = place
  leads : ∃ k s, statements[k]? = some s ∧ s.line = line ∧ name ∈ s.labels ∧
    (∀ j < k, ∀ s', statements[j]? = some s' → name ∉ s'.labels) ∧
    (numbersOf statements)[k + (statements.drop k).findIdx emits]? = some place

theorem exists_boundAtFirst {i line : Nat} (h : FirstMark (marksOf statements) name i line) :
    ∃ place, BoundAtFirst statements name line place := by
  have hnodup := nodup_placed statements
  obtain ⟨⟨name, place⟩, hmem, rfl⟩ := List.mem_map.mp (mem_placed_iff.mpr ⟨i, line, h⟩)
  have hfind : (bindLabels statements).1.find? name = some place :=
    (lookup_eq_some_iff_mem hnodup).mpr hmem
  have hfirst := lookup_eq_some_iff_exists_firstMark.mpr ⟨i, h⟩
  obtain ⟨k, s, hs, hname, hbefore, hline, hplace⟩ := exists_statement_of_find? hfind
  refine ⟨place, hfind, fun place' => ?_, k, s, hs, ?_, hname, hbefore, hplace⟩
  · rw [← lookup_eq_some_iff_mem hnodup]
    change (bindLabels statements).1.find? name = some place' ↔ place' = place
    rw [hfind, Option.some.injEq, eq_comm]
  · exact Option.some.inj (hline.symm.trans hfirst)

theorem eq_of_numbered (hlength : statements.length < 2 ^ 63)
    (h : (bindLabels statements).1.find? name = some place) {j k : Nat}
    (hj : (numbersOf statements)[j]? = some place)
    (hk : (numbersOf statements)[k]? = some place) : j = k := by
  have hplaces := places_bindLabels_le statements
  have hlt : (bindLabels statements).1.places < 2 ^ 64 := by omega
  exact eq_of_getElem?_numbersOf hlt hj hk (find?_bindLabels_ne_zero hlt h)

end

/-! ## The first label counts -/

/-- Of the labels with one name the first counts, and all others are reported. -/
structure CountsFirst (statements : List Statement) : Prop where
  /-- There is one report for each label that has the name of an earlier one, in their order. -/
  reports : ∀ lines : List String, ∃ indices : List Nat, indices.Pairwise (· < ·) ∧
    (∀ i, i ∈ indices ↔ Repeats (marksOf statements) i) ∧
    List.Forall₂ (Cites lines (marksOf statements)) indices (repetitionReports lines statements)
  /-- If there are any, the statements are refused, and these reports are given with
  the others. -/
  refuses : ∀ (lines : List String) (target : Target) (codeSize : Machine.CodeSize),
    effectiveSize? target statements = some codeSize → repetitionReports lines statements ≠ [] →
      assembleStatements lines target statements = .error
        ((selectCodeSize target.bitness none statements).2.map
            (fun c => reportAt lines c.line c.message) ++
          repetitionReports lines statements ++
          (emissions (contextOf codeSize statements) target.capacity lines
            (statements.zip (bindLabels statements).2.1)).2)
  /-- The names that are bound are those of the labels, none of them twice. -/
  mem_names_iff : ∀ name, name ∈ (bindLabels statements).1.placed.map Prod.fst ↔
    ∃ i line, FirstMark (marksOf statements) name i line
  names_nodup : ((bindLabels statements).1.placed.map Prod.fst).Nodup
  /-- Each is bound to the place of its first label. -/
  bound : ∀ name i line, FirstMark (marksOf statements) name i line →
    ∃ place, BoundAtFirst statements name line place
  /-- The place of a name is that of one location, as long as 64 bits can count
  the statements. -/
  location_unique : statements.length < 2 ^ 63 → ∀ (name : String) (place : PlaceId) (j k : Nat),
    (bindLabels statements).1.find? name = some place →
      (numbersOf statements)[j]? = some place → (numbersOf statements)[k]? = some place → j = k

/-- However many labels have one name, each of them but the first is reported once, in the order
of the source and on its own line, and every report cites the line of the first. The name is
bound to one place, that of its first label. -/
theorem bindLabels_countsFirst (statements : List Statement) : CountsFirst statements where
  reports lines := ⟨repeatedIndices (marksOf statements), pairwise_repeatedIndices _,
    fun _ => mem_repeatedIndices_iff, forall₂_repetitionReports lines statements⟩
  refuses _ _ _ hsize hreports := assembleStatements_of_repetitionReports hsize hreports
  mem_names_iff _ := mem_placed_iff
  names_nodup := nodup_placed statements
  bound _ _ _ h := exists_boundAtFirst h
  location_unique hlength _ _ _ _ h hj hk := eq_of_numbered hlength h hj hk

/-- The third label of a name, like the second, is told of the first one. -/
example :
    (repetitionReports ["a: a:", "b:", "a: b: nop"]
        [⟨1, ["a", "a"], .empty⟩, ⟨2, ["b"], .empty⟩,
          ⟨3, ["a", "b"], .instruction "nop" []⟩]).map
      (fun d => (d.line, d.message)) =
      [(some 1, "label 'a' is already defined on line 1"),
        (some 3, "label 'a' is already defined on line 1"),
        (some 3, "label 'b' is already defined on line 2")] := by
  decide

end AsmLoader.Assembly
