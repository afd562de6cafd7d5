import AsmLoader.Assembly.Labels
import Mathlib.Data.List.Nodup
import Mathlib.Tactic.Ring
import Mathlib.Tactic.SplitIfs
/-!
# Places and their numbers

A name is fresh until a statement defines it, then it waits, and it gets the place of the first
statement from there on that emits something. Places are numbered in the order of the source, so
that no two of them share a number unless it is 0, which marks a statement without a label.
-/

namespace AsmLoader.Assembly

open Source (Statement)

/-- Where a name leads: to the first statement that emits something from the one on that defines
the name, or to the end of the statements. -/
def location? (statements : List Statement) (name : String) : Option Nat :=
  (statements.findIdx? fun s => decide (name ∈ s.labels)).map fun j =>
    j + (statements.drop j).findIdx emits

theorem lookup_map_pair {β : Type} (names : List String) (place : β) (name : String) :
    (names.map (·, place)).lookup name = if name ∈ names then some place else none := by
  induction names with
  | nil => rfl
  | cons other names ih =>
      rw [List.map_cons, List.lookup_cons, ih]
      by_cases heq : name = other
      · simp [heq]
      · simp [heq, beq_eq_false_iff_ne.mpr heq]

namespace Labels

variable {labels : Labels} {name : String} {place : PlaceId}

/-! ## What becomes of a name -/

structure Fresh (labels : Labels) (name : String) : Prop where
  undefined : labels.defined.lookup name = none
  not_waiting : name ∉ labels.waiting
  unplaced : labels.find? name = none

structure Waits (labels : Labels) (name : String) : Prop where
  defined : labels.defined.lookup name ≠ none
  waiting : name ∈ labels.waiting
  unplaced : labels.find? name = none

structure Placed (labels : Labels) (name : String) (place : PlaceId) : Prop where
  defined : labels.defined.lookup name ≠ none
  not_waiting : name ∉ labels.waiting
  placed : labels.find? name = some place

theorem fresh_empty (name : String) : empty.Fresh name :=
  ⟨rfl, by simp [empty], rfl⟩

section Define

variable {line : Nat} {other : String}

theorem lookup_defined_define (h : labels.defined.lookup name ≠ none) :
    (labels.define line other).defined.lookup name ≠ none := by
  unfold define
  split
  next => exact h
  next =>
    rw [List.lookup_append]
    simp [h]

theorem find?_define : (labels.define line other).find? name = labels.find? name := by
  unfold define
  split <;> rfl

theorem Fresh.define_self (h : labels.Fresh name) : (labels.define line name).Waits name := by
  unfold define
  rw [h.undefined]
  exact ⟨by simp [List.lookup_append], by simp, h.unplaced⟩

theorem Fresh.define (h : labels.Fresh name) (hne : name ≠ other) :
    (labels.define line other).Fresh name := by
  refine ⟨?_, ?_, find?_define.trans h.unplaced⟩ <;> unfold Labels.define <;> split
  next => exact h.undefined
  next => simp [List.lookup_append, h.undefined, hne]
  next => exact h.not_waiting
  next => simp [h.not_waiting, hne]

theorem Waits.define (h : labels.Waits name) : (labels.define line other).Waits name := by
  refine ⟨lookup_defined_define h.defined, ?_, find?_define.trans h.unplaced⟩
  unfold Labels.define
  split
  next => exact h.waiting
  next => exact List.mem_append_left _ h.waiting

theorem Placed.define (h : labels.Placed name place) :
    (labels.define line other).Placed name place := by
  refine ⟨lookup_defined_define h.defined, ?_, find?_define.trans h.placed⟩
  unfold Labels.define
  split
  next => exact h.not_waiting
  next hfree =>
    have hne : name ≠ other := fun heq => h.defined (heq ▸ hfree)
    simp [h.not_waiting, hne]

end Define

section DefineAll

variable {line : Nat} {names : List String}

theorem Waits.defineAll (h : labels.Waits name) :
    (names.foldl (Labels.define line) labels).Waits name := by
  induction names generalizing labels with
  | nil => exact h
  | cons other names ih => exact ih h.define

theorem Placed.defineAll (h : labels.Placed name place) :
    (names.foldl (Labels.define line) labels).Placed name place := by
  induction names generalizing labels with
  | nil => exact h
  | cons other names ih => exact ih h.define

theorem Fresh.defineAll (h : labels.Fresh name) (hmem : name ∉ names) :
    (names.foldl (Labels.define line) labels).Fresh name := by
  induction names generalizing labels with
  | nil => exact h
  | cons other names ih =>
      rw [List.mem_cons, not_or] at hmem
      exact ih (h.define hmem.1) hmem.2

theorem Fresh.waits_defineAll (h : labels.Fresh name) (hmem : name ∈ names) :
    (names.foldl (Labels.define line) labels).Waits name := by
  induction names generalizing labels with
  | nil => cases hmem
  | cons other names ih =>
      rw [List.foldl_cons]
      by_cases heq : name = other
      · exact Waits.defineAll (heq ▸ h.define_self)
      · exact ih (h.define heq) ((List.mem_cons.mp hmem).resolve_left heq)

end DefineAll

theorem find?_settle : labels.settle.1.find? name =
    (labels.find? name).or (if name ∈ labels.waiting then some labels.settle.2 else none) := by
  unfold settle
  split
  next hempty => simp [List.isEmpty_iff.mp hempty]
  next => simp [find?, List.lookup_append, lookup_map_pair]

theorem waiting_settle : labels.settle.1.waiting = [] := by
  unfold settle
  split
  next hempty => exact List.isEmpty_iff.mp hempty
  next => rfl

theorem defined_settle : labels.settle.1.defined = labels.defined := by
  unfold settle
  split <;> rfl

theorem Waits.settle (h : labels.Waits name) :
    labels.settle.1.Placed name labels.settle.2 := by
  refine ⟨?_, by simp [waiting_settle], ?_⟩
  · rw [defined_settle]
    exact h.defined
  · rw [find?_settle, h.unplaced, if_pos h.waiting]
    rfl

theorem Placed.settle (h : labels.Placed name place) : labels.settle.1.Placed name place := by
  refine ⟨?_, by simp [waiting_settle], ?_⟩
  · rw [defined_settle]
    exact h.defined
  · rw [find?_settle, h.placed]
    rfl

theorem Fresh.settle (h : labels.Fresh name) : labels.settle.1.Fresh name := by
  refine ⟨?_, by simp [waiting_settle], ?_⟩
  · rw [defined_settle]
    exact h.undefined
  · rw [find?_settle, h.unplaced, if_neg h.not_waiting]
    rfl

/-! ## Over a statement, and over all of them -/

section Statements

variable {s : Statement} {rest : List Statement}

theorem Placed.statement (h : labels.Placed name place) :
    (labels.statement s).1.Placed name place := by
  unfold Labels.statement
  split
  next => exact h.defineAll.settle
  next => exact h.defineAll

theorem Waits.statement (h : labels.Waits name) (hemits : emits s) :
    (labels.statement s).1.Placed name (labels.statement s).2 := by
  unfold Labels.statement
  rw [if_pos hemits]
  exact h.defineAll.settle

theorem Waits.statement_of_not_emits (h : labels.Waits name) (hemits : ¬emits s) :
    (labels.statement s).1.Waits name := by
  unfold Labels.statement
  rw [if_neg hemits]
  exact h.defineAll

theorem Fresh.statement (h : labels.Fresh name) (hmem : name ∉ s.labels) :
    (labels.statement s).1.Fresh name := by
  unfold Labels.statement
  split
  next => exact (h.defineAll hmem).settle
  next => exact h.defineAll hmem

theorem Fresh.placed_statement (h : labels.Fresh name) (hmem : name ∈ s.labels)
    (hemits : emits s) : (labels.statement s).1.Placed name (labels.statement s).2 := by
  unfold Labels.statement
  rw [if_pos hemits]
  exact (h.waits_defineAll hmem).settle

theorem Fresh.waits_statement (h : labels.Fresh name) (hmem : name ∈ s.labels)
    (hemits : ¬emits s) : (labels.statement s).1.Waits name := by
  unfold Labels.statement
  rw [if_neg hemits]
  exact h.waits_defineAll hmem

theorem Placed.statements (h : labels.Placed name place) :
    (labels.statements rest).1.Placed name place := by
  induction rest generalizing labels with
  | nil => exact h
  | cons s rest ih => exact ih h.statement

theorem Waits.find?_statements (h : labels.Waits name)
    (hfind : (labels.statements rest).1.find? name = some place) :
    (labels.statements rest).2[rest.findIdx emits]? = some place := by
  induction rest generalizing labels with
  | nil => cases h.unplaced.symm.trans hfind
  | cons s rest ih =>
      by_cases hemits : emits s
      · have hplaced : ((labels.statement s).1.statements rest).1.Placed name _ :=
          (h.statement hemits).statements
        have heq : (labels.statement s).2 = place :=
          Option.some.inj (hplaced.placed.symm.trans hfind)
        simp [List.findIdx_cons, hemits, Labels.statements, heq]
      · have hrest := ih (h.statement_of_not_emits hemits) hfind
        simpa [List.findIdx_cons, hemits, Labels.statements] using hrest

theorem location?_cons_of_mem (hmem : name ∈ s.labels) :
    location? (s :: rest) name = some ((s :: rest).findIdx emits) := by
  simp [location?, List.findIdx?_cons, hmem]

theorem location?_cons_of_not_mem (hmem : name ∉ s.labels) :
    location? (s :: rest) name = (location? rest name).map (· + 1) := by
  simp only [location?, List.findIdx?_cons, hmem, decide_false, Bool.false_eq_true, if_false,
    Option.map_map]
  congr 1
  funext j
  simp only [Function.comp_apply, List.drop_succ_cons]
  omega

/-- The place of a name is that of the statement it leads to. -/
theorem Fresh.find?_statements (h : labels.Fresh name)
    (hfind : (labels.statements rest).1.find? name = some place) :
    ∃ k, location? rest name = some k ∧ (labels.statements rest).2[k]? = some place := by
  induction rest generalizing labels with
  | nil => cases h.unplaced.symm.trans hfind
  | cons s rest ih =>
      by_cases hmem : name ∈ s.labels
      · refine ⟨_, location?_cons_of_mem hmem, ?_⟩
        by_cases hemits : emits s
        · have hplaced : ((labels.statement s).1.statements rest).1.Placed name _ :=
            (h.placed_statement hmem hemits).statements
          have heq : (labels.statement s).2 = place :=
            Option.some.inj (hplaced.placed.symm.trans hfind)
          simp [List.findIdx_cons, hemits, Labels.statements, heq]
        · have hrest := (h.waits_statement hmem hemits).find?_statements hfind
          simpa [List.findIdx_cons, hemits, Labels.statements] using hrest
      · obtain ⟨k, hk, hnumber⟩ := ih (h.statement hmem) hfind
        refine ⟨k + 1, ?_, ?_⟩
        · rw [location?_cons_of_not_mem hmem, hk]
          rfl
        · simpa [Labels.statements] using hnumber

end Statements

/-! ## The numbers of places -/

section Numbers

variable {s : Statement} {rest : List Statement}

theorem places_define (line : Nat) (other : String) :
    (labels.define line other).places = labels.places := by
  unfold define
  split <;> rfl

theorem places_defineAll (line : Nat) (names : List String) :
    (names.foldl (Labels.define line) labels).places = labels.places := by
  induction names generalizing labels with
  | nil => rfl
  | cons other names ih => exact ih.trans (places_define line other)

theorem settle_cases (labels : Labels) :
    (labels.settle.2 = 0 ∧ labels.settle.1.places = labels.places) ∨
      (labels.settle.2 = UInt64.ofNat (labels.places + 1) ∧
        labels.settle.1.places = labels.places + 1) := by
  unfold settle
  split
  next => exact .inl ⟨rfl, rfl⟩
  next => exact .inr ⟨rfl, rfl⟩

theorem statement_cases (labels : Labels) (s : Statement) :
    ((labels.statement s).2 = 0 ∧ (labels.statement s).1.places = labels.places) ∨
      (emits s ∧ (labels.statement s).2 = UInt64.ofNat (labels.places + 1) ∧
        (labels.statement s).1.places = labels.places + 1) := by
  have hdefined : (s.labels.foldl (define s.line) labels).places = labels.places :=
    places_defineAll _ _
  unfold Labels.statement
  split
  next hemits =>
    rcases settle_cases (s.labels.foldl (define s.line) labels) with
      ⟨hnumber, hplaces⟩ | ⟨hnumber, hplaces⟩
    · exact .inl ⟨hnumber, hplaces.trans hdefined⟩
    · rw [hdefined] at hnumber hplaces
      exact .inr ⟨hemits, hnumber, hplaces⟩
  next => exact .inl ⟨rfl, hdefined⟩

theorem statements_cons (labels : Labels) (s : Statement) (rest : List Statement) :
    labels.statements (s :: rest) =
      (((labels.statement s).1.statements rest).1,
        (labels.statement s).2 :: ((labels.statement s).1.statements rest).2) :=
  rfl

theorem length_statements (labels : Labels) (rest : List Statement) :
    (labels.statements rest).2.length = rest.length := by
  induction rest generalizing labels with
  | nil => rfl
  | cons s rest ih => simp [Labels.statements, ih]

theorem places_le_statements (labels : Labels) (rest : List Statement) :
    labels.places ≤ (labels.statements rest).1.places := by
  induction rest generalizing labels with
  | nil => exact Nat.le_refl _
  | cons s rest ih =>
      have hrest := ih (labels.statement s).1
      rw [statements_cons]
      dsimp only
      rcases statement_cases labels s with ⟨-, hplaces⟩ | ⟨-, -, hplaces⟩ <;> omega

theorem places_statements_le (labels : Labels) (rest : List Statement) :
    (labels.statements rest).1.places ≤ labels.places + rest.length := by
  induction rest generalizing labels with
  | nil => exact Nat.le_refl _
  | cons s rest ih =>
      have hrest := ih (labels.statement s).1
      rw [statements_cons, List.length_cons]
      dsimp only
      rcases statement_cases labels s with ⟨-, hplaces⟩ | ⟨-, -, hplaces⟩ <;> omega

theorem ofNat_ne_zero {n : Nat} (hpos : 0 < n) (hlt : n < 2 ^ 64) : UInt64.ofNat n ≠ 0 := by
  rw [ne_eq, ← UInt64.toNat_inj, UInt64.toNat_ofNat_of_lt' hlt]
  exact Nat.ne_of_gt hpos

theorem filter_statements (hlt : (labels.statements rest).1.places < 2 ^ 64) :
    (labels.statements rest).2.filter (· ≠ 0) =
      (List.range' (labels.places + 1)
        ((labels.statements rest).1.places - labels.places)).map UInt64.ofNat := by
  induction rest generalizing labels with
  | nil => simp [Labels.statements]
  | cons s rest ih =>
      have hle := places_le_statements (labels.statement s).1 rest
      rw [statements_cons] at hlt ⊢
      dsimp only at hlt ⊢
      rcases statement_cases labels s with ⟨hnumber, hplaces⟩ | ⟨-, hnumber, hplaces⟩
      · rw [hnumber, List.filter_cons_of_neg (by simp), ih hlt, hplaces]
      · have hne : UInt64.ofNat (labels.places + 1) ≠ 0 := ofNat_ne_zero (by omega) (by omega)
        rw [hnumber, List.filter_cons_of_pos (by simpa using hne), ih hlt, hplaces]
        have hcount : ((labels.statement s).1.statements rest).1.places - labels.places =
            ((labels.statement s).1.statements rest).1.places - (labels.places + 1) + 1 := by
          omega
        rw [hcount, List.range'_succ, List.map_cons]

theorem emits_of_number_ne_zero {i : Nat} {number : PlaceId}
    (hnumber : (labels.statements rest).2[i]? = some number) (hne : number ≠ 0)
    (hs : rest[i]? = some s) : emits s := by
  induction rest generalizing labels i with
  | nil => cases hs
  | cons s' rest ih =>
      cases i with
      | zero =>
          simp only [Labels.statements, List.getElem?_cons_zero, Option.some.injEq] at hnumber hs
          subst hs
          rcases statement_cases labels s' with ⟨hzero, -⟩ | ⟨hemits, -⟩
          · exact absurd (hnumber.symm.trans hzero) hne
          · exact hemits
      | succ i => exact ih hnumber hs

def Numbered (labels : Labels) : Prop :=
  ∀ name place, labels.find? name = some place →
    ∃ n, 0 < n ∧ n ≤ labels.places ∧ place = UInt64.ofNat n

theorem Numbered.defineAll (h : labels.Numbered) (line : Nat) (names : List String) :
    (names.foldl (Labels.define line) labels).Numbered := by
  induction names generalizing labels with
  | nil => exact h
  | cons other names ih =>
      apply ih
      intro name place hfind
      rw [places_define]
      exact h name place (find?_define ▸ hfind)

theorem Numbered.settle (h : labels.Numbered) : labels.settle.1.Numbered := by
  intro name place hfind
  rw [find?_settle] at hfind
  rcases Option.or_eq_some_iff.mp hfind with hfind | ⟨-, hfind⟩
  · obtain ⟨n, hpos, hle, rfl⟩ := h name place hfind
    rcases settle_cases labels with ⟨-, hplaces⟩ | ⟨-, hplaces⟩
    · exact ⟨n, hpos, by omega, rfl⟩
    · exact ⟨n, hpos, by omega, rfl⟩
  · split at hfind
    next hwaiting =>
      have hne : ¬labels.waiting.isEmpty := by
        intro hempty
        rw [List.isEmpty_iff.mp hempty] at hwaiting
        cases hwaiting
      cases hfind
      refine ⟨labels.places + 1, by omega, ?_, ?_⟩ <;> simp [Labels.settle, hne]
    next => cases hfind

theorem Numbered.statements (h : labels.Numbered) : (labels.statements rest).1.Numbered := by
  induction rest generalizing labels with
  | nil => exact h
  | cons s rest ih =>
      rw [statements_cons]
      apply ih
      have hdefined := h.defineAll s.line s.labels
      unfold Labels.statement
      split
      next => exact hdefined.settle
      next => exact hdefined

end Numbers

theorem statements_concat (labels : Labels) (rest : List Statement) (s : Statement) :
    labels.statements (rest ++ [s]) =
      (((labels.statements rest).1.statement s).1,
        (labels.statements rest).2 ++ [((labels.statements rest).1.statement s).2]) := by
  induction rest generalizing labels with
  | nil => rfl
  | cons s' rest ih =>
      rw [List.cons_append, statements_cons, ih, statements_cons]
      rfl

end Labels

/-! ## The labels of a whole source -/

section Source

variable {statements : List Statement} {name : String} {place : PlaceId}

/-- A statement that stands for the end of a source: the names that still wait there get its
place. -/
def ending : Statement :=
  ⟨0, [], .reserve .byte 1⟩

def numbersOf (statements : List Statement) : List PlaceId :=
  (bindLabels statements).2.1 ++ [(bindLabels statements).2.2]

theorem statements_ending (statements : List Statement) :
    Labels.empty.statements (statements ++ [ending]) =
      ((bindLabels statements).1, numbersOf statements) :=
  Labels.statements_concat _ _ _

theorem length_numbersOf (statements : List Statement) :
    (numbersOf statements).length = statements.length + 1 := by
  have hlength := Labels.length_statements Labels.empty (statements ++ [ending])
  rw [statements_ending, List.length_append] at hlength
  exact hlength

theorem getElem?_numbersOf_length (statements : List Statement) :
    (numbersOf statements)[statements.length]? = some (bindLabels statements).2.2 := by
  have hlength := length_numbersOf statements
  rw [numbersOf, List.length_append] at hlength
  rw [numbersOf, ← Nat.add_right_cancel hlength, List.getElem?_concat_length]

theorem places_bindLabels_le (statements : List Statement) :
    (bindLabels statements).1.places ≤ statements.length + 1 := by
  have hplaces := Labels.places_statements_le Labels.empty (statements ++ [ending])
  rw [statements_ending, List.length_append] at hplaces
  change (bindLabels statements).1.places ≤ 0 + (statements.length + 1) at hplaces
  rwa [Nat.zero_add] at hplaces

theorem filter_numbersOf (hlt : (bindLabels statements).1.places < 2 ^ 64) :
    (numbersOf statements).filter (· ≠ 0) =
      (List.range' 1 (bindLabels statements).1.places).map UInt64.ofNat := by
  have hplaces : (Labels.empty.statements (statements ++ [ending])).1.places < 2 ^ 64 := by
    rw [statements_ending]
    exact hlt
  have hfilter := Labels.filter_statements hplaces
  rw [statements_ending] at hfilter
  exact hfilter

theorem pairwise_numbersOf (hlt : (bindLabels statements).1.places < 2 ^ 64) :
    (numbersOf statements).Pairwise fun a b => a ≠ 0 → a ≠ b := by
  have hnodup : ((numbersOf statements).filter (· ≠ 0)).Nodup := by
    rw [filter_numbersOf hlt]
    apply List.Nodup.map_on _ List.nodup_range'
    intro a ha b hb heq
    rw [List.mem_range'_1] at ha hb
    have hsize : UInt64.size = 2 ^ 64 := rfl
    rw [← UInt64.toNat_inj, UInt64.toNat_ofNat_of_lt' (by omega),
      UInt64.toNat_ofNat_of_lt' (by omega)] at heq
    exact heq
  apply (List.pairwise_filter.mp hnodup).imp
  intro a b hne ha heq
  exact hne (by simpa using ha) (by simpa [← heq] using ha) heq

theorem eq_of_getElem?_numbersOf (hlt : (bindLabels statements).1.places < 2 ^ 64) {j k : Nat}
    (hj : (numbersOf statements)[j]? = some place) (hk : (numbersOf statements)[k]? = some place)
    (hne : place ≠ 0) : j = k := by
  obtain ⟨hj, rfl⟩ := List.getElem?_eq_some_iff.mp hj
  obtain ⟨hk, heq⟩ := List.getElem?_eq_some_iff.mp hk
  have hpairwise := List.pairwise_iff_getElem.mp (pairwise_numbersOf hlt)
  rcases Nat.lt_trichotomy j k with hlt | heq | hlt
  · exact absurd heq.symm (hpairwise j k _ _ hlt hne)
  · exact heq
  · exact absurd heq (hpairwise k j _ _ hlt (heq ▸ hne))

theorem mem_numbersOf_iff (hlt : (bindLabels statements).1.places < 2 ^ 64) (hne : place ≠ 0) :
    place ∈ numbersOf statements ↔ place.toNat ≤ (bindLabels statements).1.places := by
  have hfilter : place ∈ numbersOf statements ↔
      place ∈ (numbersOf statements).filter (· ≠ 0) := by
    rw [List.mem_filter]
    simp [hne]
  rw [hfilter, filter_numbersOf hlt, List.mem_map]
  constructor
  · rintro ⟨n, hn, rfl⟩
    rw [List.mem_range'_1] at hn
    rw [UInt64.toNat_ofNat']
    exact Nat.le_trans (Nat.mod_le _ _) (by omega)
  · intro hle
    have hpos : place.toNat ≠ 0 := fun hzero => hne (UInt64.toNat_inj.mp hzero)
    refine ⟨place.toNat, ?_, UInt64.ofNat_toNat⟩
    rw [List.mem_range'_1]
    omega

theorem last_bindLabels (hne : (bindLabels statements).2.2 ≠ 0) :
    (bindLabels statements).2.2 = UInt64.ofNat (bindLabels statements).1.places := by
  rcases Labels.settle_cases (Labels.empty.statements statements).1 with
    ⟨hzero, -⟩ | ⟨hnumber, hplaces⟩
  · exact absurd hzero hne
  · exact hnumber.trans (congrArg UInt64.ofNat hplaces.symm)

theorem emits_of_mem_numbersOf {i : Nat} {s : Statement}
    (hplace : (numbersOf statements)[i]? = some place) (hne : place ≠ 0)
    (hs : statements[i]? = some s) : emits s := by
  have hi : i < statements.length := (List.getElem?_eq_some_iff.mp hs).1
  have hnumber : (Labels.empty.statements (statements ++ [ending])).2[i]? = some place := by
    rw [statements_ending]
    exact hplace
  apply Labels.emits_of_number_ne_zero hnumber hne
  rw [List.getElem?_append_left hi, hs]

theorem find?_bindLabels_ne_zero (hlt : (bindLabels statements).1.places < 2 ^ 64)
    (h : (bindLabels statements).1.find? name = some place) : place ≠ 0 := by
  have hempty : Labels.empty.Numbered := by
    intro name place hfind
    cases hfind
  have hnumbered : (Labels.empty.statements (statements ++ [ending])).1.Numbered :=
    hempty.statements
  rw [statements_ending] at hnumbered
  obtain ⟨n, hpos, hle, rfl⟩ := hnumbered name place h
  dsimp only at hle
  exact Labels.ofNat_ne_zero hpos (by omega)

theorem findIdx_concat_ending (statements : List Statement) :
    (statements ++ [ending]).findIdx emits = statements.findIdx emits := by
  rw [List.findIdx_append]
  split
  next => rfl
  next hlength =>
    have hle : statements.findIdx emits ≤ statements.length := List.findIdx_le_length
    have hemits : [ending].findIdx emits = 0 := by rfl
    omega

theorem location?_concat_ending (statements : List Statement) (name : String) :
    location? (statements ++ [ending]) name = location? statements name := by
  unfold location?
  have hending : [ending].findIdx? (fun s => decide (name ∈ s.labels)) = none := by
    simp [ending]
  rw [List.findIdx?_append, hending, Option.map_none, Option.or_none]
  cases hfind : statements.findIdx? fun s => decide (name ∈ s.labels) with
  | none => rfl
  | some j =>
      have hj : j < statements.length := (List.findIdx?_eq_some_iff_getElem.mp hfind).1
      rw [Option.map_some, Option.map_some, List.drop_append_of_le_length (Nat.le_of_lt hj),
        findIdx_concat_ending]

/-- The place of a name is that of the statement, or of the end, that the name leads to. -/
theorem location?_of_find? (h : (bindLabels statements).1.find? name = some place) :
    ∃ k, location? statements name = some k ∧ (numbersOf statements)[k]? = some place := by
  have hplaced : (Labels.empty.statements (statements ++ [ending])).1.find? name =
      some place := by
    rw [statements_ending]
    exact h
  have hfind := (Labels.fresh_empty name).find?_statements hplaced
  rwa [statements_ending, location?_concat_ending] at hfind

end Source

end AsmLoader.Assembly
