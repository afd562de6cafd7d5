import AsmLoader.Assembly.Tape
import AsmLoader.Proofs.Assembly.Rejection
/-!
# Labels that are set

A statement takes labels just if something is appended for it, be it only the filler of one that
cannot be encoded. So a label that is set never meets another one that waits, and what follows it
in the calls is the statement that it stands before. An assembler that only refuses labels that
are set already, or while another one waits, refuses none; its answer is that of the program.
-/

namespace AsmLoader.Assembly

open Machine (CodeSize Width)
open Source (DataItem Statement)

/-! ## What is appended for a statement -/

/-- Something that a label can sit on: an instruction, or some data. -/
def Fragment.HasContent : Fragment → Prop
  | .data bytes => bytes ≠ []
  | .mark => False
  | .code _ | .refused .. | .branch .. => True

section Content

variable {c : Context} {capacity : UInt64} {s : Statement} {e : Emission} {codeSize : CodeSize}

theorem Fragment.hasContent_ofInstruction (i : Machine.Instruction PlaceId) :
    (Fragment.ofInstruction codeSize i).HasContent := by
  unfold Fragment.ofInstruction
  split <;> trivial

theorem mapM_itemBytes_of_no_room {unit : Width} {items : List DataItem}
    (h : ¬items.any takesRoom) : items.mapM (itemBytes unit) = .ok (items.map fun _ => []) := by
  rw [mapM_eq_ok_iff, List.forall₂_map_right_iff, List.forall₂_same]
  intro item hitem
  have hroom : ¬takesRoom item := fun htakes => h (List.any_eq_true.mpr ⟨item, hitem, htakes⟩)
  cases item with
  | value value => exact absurd rfl hroom
  | bytes bytes =>
      cases bytes with
      | nil => rfl
      | cons byte bytes => exact absurd rfl hroom
  | uninitialized => exact absurd rfl hroom

theorem emission_of_not_emits (c : Context) (capacity : UInt64) (h : ¬emits s) :
    emission c capacity s = .ok .nothing := by
  unfold emits at h
  cases hbody : s.body with
  | instruction mnemonic operands => simp [hbody] at h
  | data unit items =>
      simp only [hbody] at h
      simp only [emission, hbody, mapM_itemBytes_of_no_room h]
      rw [ok_bind]
      change Except.ok (Emission.ofBytes _) = _
      rw [ofBytes_eq_nothing_iff.mpr (by simp)]
  | reserve unit count =>
      simp only [hbody, bne_iff_ne, not_not] at h
      have hzero := (reservedBytes_eq_zero_iff unit count).mpr h
      have hroom : ¬capacity < reservedBytes unit count := by
        rw [UInt64.lt_iff_toNat_lt, hzero]
        exact Nat.not_lt_zero _
      simp only [emission, hbody, if_neg hroom, hzero]
      rfl
  | empty => simp only [emission, hbody]
  | mode size => simp only [emission, hbody]

theorem emits_iff_appends (h : emission c capacity s = .ok e) :
    emits s ↔ ∃ fragment, e.fragment? codeSize = some fragment ∧ fragment.HasContent := by
  have hnothing := eq_nothing_iff h
  cases e with
  | nothing => simpa [Emission.fragment?] using hnothing
  | data bytes =>
      have hemits : emits s := by simpa using hnothing
      have hbytes := ne_nil_of_emission h
      simp [hemits, Emission.fragment?, Fragment.HasContent, hbytes]
  | instruction i =>
      have hemits : emits s := by simpa using hnothing
      simp [hemits, Emission.fragment?, Fragment.hasContent_ofInstruction]
  | branch transfer destination =>
      have hemits : emits s := by simpa using hnothing
      simp [hemits, Emission.fragment?, Fragment.HasContent]

def appendedFor (c : Context) (capacity : UInt64) (s : Statement) : Option Fragment :=
  match emission c capacity s with
  | .ok e => e.fragment? c.codeSize
  | .error _ => some (filler c.codeSize)

theorem exists_appendedFor (c : Context) (capacity : UInt64) (h : emits s) :
    ∃ fragment, appendedFor c capacity s = some fragment ∧ fragment.HasContent := by
  unfold appendedFor
  cases he : emission c capacity s with
  | ok e => exact (emits_iff_appends he).mp h
  | error e => exact ⟨_, rfl, Fragment.hasContent_ofInstruction _⟩

end Content

/-! ## Labels that are not refused -/

namespace Tape

def Waits (tape : Tape) : Prop :=
  ∃ place, tape.getLast? = some (.setLabel place)

theorem not_waits_nil : ¬Waits [] := by
  rintro ⟨place, h⟩
  cases h

theorem not_waits_concat_append (tape : Tape) (fragment : Fragment) :
    ¬Waits (tape ++ [.append fragment]) := by
  rintro ⟨place, h⟩
  rw [List.getLast?_concat] at h
  cases h

end Tape

/-- Only a label that is set already is refused, and any label while another one waits. -/
def LabelRefusal.OnlyTaken (refusal? : LabelRefusal) : Prop :=
  ∀ tape place, refusal? tape place ≠ none → Call.setLabel place ∈ tape ∨ tape.Waits

/-- The calls for a statement: its label is set, if it has one, and what it emits is appended. -/
def callsFor (c : Context) (capacity : UInt64) (numbered : Statement × PlaceId) : Tape :=
  (if numbered.2 = 0 then [] else [.setLabel numbered.2]) ++
    (appendedFor c capacity numbered.1).toList.map .append

def callsOf (c : Context) (capacity : UInt64) (numbered : List (Statement × PlaceId)) : Tape :=
  numbered.flatMap (callsFor c capacity)

/-- After some calls the labels of statements can be set: none of them is set yet, none waits,
and only statements that take labels have one, each its own. -/
structure Tape.Admits (tape : Tape) (numbered : List (Statement × PlaceId)) : Prop where
  idle : ¬tape.Waits
  unset : ∀ x ∈ numbered, x.2 ≠ 0 → Call.setLabel x.2 ∉ tape
  takes : ∀ x ∈ numbered, x.2 ≠ 0 → emits x.1
  distinct : (numbered.map Prod.snd).Pairwise fun a b => a ≠ 0 → a ≠ b

section Calls

variable {refusal? : LabelRefusal} {c : Context} {capacity : UInt64} {lines : List String}
  {tape : Tape} {x : Statement × PlaceId} {rest more numbered : List (Statement × PlaceId)}
  {place : PlaceId}

theorem setLabel_mem_callsFor_iff :
    Call.setLabel place ∈ callsFor c capacity x ↔ place = x.2 ∧ x.2 ≠ 0 := by
  unfold callsFor
  split <;> simp [*]

theorem setLabel_mem_callsOf_iff :
    Call.setLabel place ∈ callsOf c capacity numbered ↔
      ∃ x ∈ numbered, place = x.2 ∧ x.2 ≠ 0 := by
  simp [callsOf, setLabel_mem_callsFor_iff]

theorem callsFor_of_label (c : Context) (capacity : UInt64) (hemits : emits x.1)
    (hne : x.2 ≠ 0) :
    ∃ fragment, appendedFor c capacity x.1 = some fragment ∧ fragment.HasContent ∧
      callsFor c capacity x = [.setLabel x.2, .append fragment] := by
  obtain ⟨fragment, happended, hcontent⟩ := exists_appendedFor c capacity hemits
  refine ⟨fragment, happended, hcontent, ?_⟩
  rw [callsFor, if_neg hne, happended]
  rfl

theorem not_waits_callsFor (hidle : ¬tape.Waits) (hemits : x.2 ≠ 0 → emits x.1) :
    ¬(tape ++ callsFor c capacity x).Waits := by
  by_cases hzero : x.2 = 0
  · rw [callsFor, if_pos hzero, List.nil_append]
    cases appendedFor c capacity x.1 with
    | none => simpa using hidle
    | some fragment => exact Tape.not_waits_concat_append tape fragment
  · obtain ⟨fragment, -, -, hcalls⟩ := callsFor_of_label c capacity (hemits hzero) hzero
    rw [hcalls, List.append_cons]
    exact Tape.not_waits_concat_append _ fragment

/-- What one statement preserves. -/
theorem Tape.Admits.callsFor (h : tape.Admits (x :: rest)) (c : Context) (capacity : UInt64) :
    (tape ++ callsFor c capacity x).Admits rest where
  idle := not_waits_callsFor h.idle (h.takes x List.mem_cons_self)
  unset y hy hne hmem := by
    rcases List.mem_append.mp hmem with hmem | hmem
    · exact h.unset y (List.mem_cons_of_mem x hy) hne hmem
    · obtain ⟨hsame, hx⟩ := setLabel_mem_callsFor_iff.mp hmem
      have hdistinct := (List.pairwise_cons.mp h.distinct).1 y.2 (List.mem_map_of_mem hy) hx
      exact hdistinct hsame.symm
  takes y hy := h.takes y (List.mem_cons_of_mem x hy)
  distinct := (List.pairwise_cons.mp h.distinct).2

/-- What any number of statements preserve. -/
theorem Tape.Admits.callsOf (h : tape.Admits (numbered ++ more)) (c : Context)
    (capacity : UInt64) : (tape ++ callsOf c capacity numbered).Admits more := by
  induction numbered generalizing tape with
  | nil => simpa [Assembly.callsOf] using h
  | cons x rest ih =>
      have hrest := ih (h.callsFor c capacity)
      rwa [List.append_assoc] at hrest

theorem Tape.Admits.refusal?_eq_none (h : tape.Admits (x :: rest))
    (hrefusal : refusal?.OnlyTaken) (hne : x.2 ≠ 0) : refusal? tape x.2 = none := by
  by_contra hrefused
  rcases hrefusal tape x.2 hrefused with hset | hwaits
  · exact h.unset x List.mem_cons_self hne hset
  · exact h.idle hwaits

/-! ## The pass -/

def failureOf (c : Context) (capacity : UInt64) (lines : List String) (s : Statement) :
    List Diagnostic :=
  match emission c capacity s with
  | .ok _ => []
  | .error e => [reportAt lines s.line e.message]

def succeeds (c : Context) (capacity : UInt64) (s : Statement) : Bool :=
  match emission c capacity s with
  | .ok _ => emits s
  | .error _ => false

theorem Pass.statement_eq {pass : Pass} (h : pass.tape.Admits (x :: rest))
    (hrefusal : refusal?.OnlyTaken) (c : Context) (capacity : UInt64) (lines : List String) :
    pass.statement refusal? c capacity lines x =
      ⟨pass.tape ++ callsFor c capacity x, pass.reports ++ failureOf c capacity lines x.1,
        pass.emitted || succeeds c capacity x.1⟩ := by
  have hanchor : pass.anchor refusal? lines x.1.line x.2 =
      { pass with tape := pass.tape ++ if x.2 = 0 then [] else [.setLabel x.2] } := by
    unfold anchor
    split
    next => simp
    next hne => rw [h.refusal?_eq_none hrefusal hne]
  rw [statement, hanchor, encode, callsFor, appendedFor, failureOf, succeeds]
  cases emission c capacity x.1 <;> simp

theorem Pass.statements_eq {pass : Pass} (h : pass.tape.Admits (numbered ++ more))
    (hrefusal : refusal?.OnlyTaken) :
    pass.statements refusal? c capacity lines numbered =
      ⟨pass.tape ++ callsOf c capacity numbered,
        pass.reports ++ numbered.flatMap (fun x => failureOf c capacity lines x.1),
        pass.emitted || numbered.any fun x => succeeds c capacity x.1⟩ := by
  induction numbered generalizing pass with
  | nil => simp [statements, callsOf]
  | cons x rest ih =>
      have hfirst := statement_eq h hrefusal c capacity lines
      have hadmits :
          (pass.statement refusal? c capacity lines x).tape.Admits (rest ++ more) := by
        rw [hfirst]
        exact h.callsFor c capacity
      rw [statements, List.foldl_cons, ← statements, ih hadmits, hfirst]
      simp [callsOf, Bool.or_assoc]

end Calls

/-! ## The calls and the program -/

section Program

variable {refusal? : LabelRefusal} {c : Context} {capacity : UInt64} {lines : List String}
  {numbered : List (Statement × PlaceId)} {statements : List Statement}

theorem reports_emissions (c : Context) (capacity : UInt64) (lines : List String)
    (numbered : List (Statement × PlaceId)) :
    (emissions c capacity lines numbered).2 =
      numbered.flatMap fun x => failureOf c capacity lines x.1 := by
  induction numbered with
  | nil => rfl
  | cons x rest ih =>
      rw [emissions, List.flatMap_cons, ← ih, failureOf]
      dsimp only
      cases he : emission c capacity x.1 with
      | error e => rfl
      | ok e => cases e <;> rfl

theorem isEmpty_emissions (c : Context) (capacity : UInt64) (lines : List String)
    (numbered : List (Statement × PlaceId)) :
    (emissions c capacity lines numbered).1.isEmpty =
      !numbered.any fun x => succeeds c capacity x.1 := by
  induction numbered with
  | nil => rfl
  | cons x rest ih =>
      rw [emissions, List.any_cons, succeeds]
      dsimp only
      cases he : emission c capacity x.1 with
      | error e => exact ih
      | ok e =>
          have hnothing := eq_nothing_iff he
          cases e with
          | nothing =>
              have hemits : emits x.1 = false := by simpa using hnothing
              simpa [hemits] using ih
          | data | instruction | branch =>
              have hemits : emits x.1 = true := by simpa using hnothing
              simp [hemits]

theorem entriesFrom_callsOf (htakes : ∀ x ∈ numbered, x.2 ≠ 0 → emits x.1)
    (hreports : (emissions c capacity lines numbered).2 = []) (more : Tape) :
    Tape.entriesFrom 0 (callsOf c capacity numbered ++ more) =
      entriesOf c.codeSize (emissions c capacity lines numbered).1 ++
      Tape.entriesFrom 0 more := by
  induction numbered with
  | nil => rfl
  | cons x rest ih =>
      rw [reports_emissions, List.flatMap_cons, List.append_eq_nil_iff, ← reports_emissions]
        at hreports
      have hrest := ih (fun y hy => htakes y (List.mem_cons_of_mem x hy)) hreports.2
      have hfirst := htakes x List.mem_cons_self
      rw [callsOf, List.flatMap_cons, ← callsOf, List.append_assoc, callsFor, appendedFor,
        emissions]
      dsimp only
      cases he : emission c capacity x.1 with
      | error e => simp [failureOf, he] at hreports
      | ok e =>
          have hnothing := eq_nothing_iff he
          cases e with
          | nothing =>
              have hzero : x.2 = 0 := by
                by_contra hne
                exact hnothing.mp rfl (hfirst hne)
              simpa [hzero, Emission.fragment?] using hrest
          | data | instruction | branch =>
              by_cases hzero : x.2 = 0 <;>
                simp [hzero, Emission.fragment?, Tape.entriesFrom, entriesOf, hrest]

def numberedOf (statements : List Statement) : List (Statement × PlaceId) :=
  statements.zip (bindLabels statements).2.1

theorem zip_ending (statements : List Statement) :
    (statements ++ [ending]).zip (numbersOf statements) =
      numberedOf statements ++ [(ending, (bindLabels statements).2.2)] := by
  rw [numbersOf, List.zip_append (length_places statements).symm]
  rfl

theorem admits_numberedOf (hlt : (bindLabels statements).1.places < 2 ^ 64) :
    Tape.Admits [] (numberedOf statements ++ [(ending, (bindLabels statements).2.2)]) := by
  rw [← zip_ending]
  refine ⟨Tape.not_waits_nil, fun x _ _ hmem => (List.not_mem_nil hmem).elim, ?_, ?_⟩
  · intro x hx hne
    obtain ⟨i, hi⟩ := List.mem_iff_getElem?.mp hx
    obtain ⟨hs, hplace⟩ := List.getElem?_zip_eq_some.mp hi
    have hplaces : (Labels.empty.statements (statements ++ [ending])).2[i]? = some x.2 := by
      rw [statements_ending]
      exact hplace
    exact Labels.emits_of_number_ne_zero hplaces hne hs
  · have hlength : (numbersOf statements).length ≤ (statements ++ [ending]).length := by
      rw [length_numbersOf, List.length_append]
      rfl
    rw [List.map_snd_zip hlength]
    exact pairwise_numbersOf hlt

/-- The second pass over the statements of a source, after some reports. -/
def secondPass (refusal? : LabelRefusal) (c : Context) (capacity : UInt64) (lines : List String)
    (reports : List Diagnostic) (statements : List Statement) : Pass :=
  Pass.statements refusal? c capacity lines ⟨[], reports, false⟩ (numberedOf statements)

theorem secondPass_eq (hrefusal : refusal?.OnlyTaken)
    (hlt : (bindLabels statements).1.places < 2 ^ 64) (c : Context) (capacity : UInt64)
    (lines : List String) (reports : List Diagnostic) :
    secondPass refusal? c capacity lines reports statements =
      ⟨callsOf c capacity (numberedOf statements),
        reports ++ (emissions c capacity lines (numberedOf statements)).2,
        !(emissions c capacity lines (numberedOf statements)).1.isEmpty⟩ := by
  have hadmits := admits_numberedOf hlt
  rw [secondPass, Pass.statements_eq hadmits hrefusal, reports_emissions, isEmpty_emissions]
  simp

def closingCalls (last : PlaceId) : Tape :=
  if last = 0 then [] else [.setLabel last, .append .mark]

theorem entriesFrom_closingCalls (last : PlaceId) :
    (closingCalls last).entriesFrom 0 = lastEntry last := by
  unfold closingCalls lastEntry
  split <;> rfl

theorem close_callsOf (hrefusal : refusal?.OnlyTaken)
    (hlt : (bindLabels statements).1.places < 2 ^ 64) :
    (callsOf c capacity (numberedOf statements)).close refusal? (bindLabels statements).2.2 =
      .ok (callsOf c capacity (numberedOf statements) ++ closingCalls
        (bindLabels statements).2.2) := by
  have hadmits := (admits_numberedOf hlt).callsOf c capacity
  rw [List.nil_append] at hadmits
  unfold Tape.close closingCalls
  split
  next => rw [List.append_nil]
  next hne => rw [hadmits.refusal?_eq_none hrefusal hne]

/-- The answer by way of the calls is that of the program. -/
theorem assembleByCalls_eq (hrefusal : refusal?.OnlyTaken)
    (hlt : (bindLabels statements).1.places < 2 ^ 64) (lines : List String) (target : Target) :
    assembleByCalls refusal? lines target statements =
      assembleStatements lines target statements := by
  cases hsize : effectiveSize? target statements with
  | none =>
      unfold effectiveSize? at hsize
      simp only [assembleByCalls, assembleStatements, hsize]
  | some codeSize =>
      have hpass :=
        secondPass_eq hrefusal hlt (contextOf codeSize statements) target.capacity lines
      have htakes : ∀ x ∈ numberedOf statements, x.2 ≠ 0 → emits x.1 := fun x hx =>
        (admits_numberedOf hlt).takes x (List.mem_append_left _ hx)
      rw [assembleStatements_eq hsize]
      unfold effectiveSize? at hsize
      simp only [assembleByCalls, hsize]
      change Pass.answer refusal? codeSize target.base (bindLabels statements).2.2
        (secondPass refusal? (contextOf codeSize statements) target.capacity lines _
          statements) = _
      rw [hpass, Pass.answer]
      dsimp only
      change (if (reportsOf codeSize lines target statements).isEmpty then _ else _) = _
      split
      next hreports =>
        have hfailures := (List.append_eq_nil_iff.mp (List.isEmpty_iff.mp hreports)).2
        rw [close_callsOf hrefusal hlt]
        dsimp only
        rw [entriesFrom_callsOf htakes hfailures, entriesFrom_closingCalls, writeEmissions]
        change _ = if (emissions (contextOf codeSize statements) target.capacity lines
          (numberedOf statements)).1.isEmpty then _ else _
        cases (emissions (contextOf codeSize statements) target.capacity lines
          (numberedOf statements)).1.isEmpty <;> rfl
      next => rfl

end Program

/-! ## Labels never dangle -/

/-- What a second pass does with labels. That of a statement is set once: after the calls for the
statements before it, and right before what is appended for the statement. Nothing else is set
until the end, where a label is not refused either, so that only failures are reported. -/
structure SetsLabels (refusal? : LabelRefusal) (c : Context) (capacity : UInt64)
    (lines : List String) (reports : List Diagnostic) (statements : List Statement) : Prop where
  sets_once : ∀ (i : Nat) (place : PlaceId), (bindLabels statements).2.1[i]? = some place →
    place ≠ 0 → ∃ s fragment after, statements[i]? = some s ∧ emits s ∧
      appendedFor c capacity s = some fragment ∧ fragment.HasContent ∧
      (secondPass refusal? c capacity lines reports statements).tape =
        callsOf c capacity ((numberedOf statements).take i) ++
          .setLabel place :: .append fragment :: after ∧
      refusal? (callsOf c capacity ((numberedOf statements).take i)) place = none ∧
      Call.setLabel place ∉ callsOf c capacity ((numberedOf statements).take i) ∧
      Call.setLabel place ∉ after
  sets_only : ∀ place,
    Call.setLabel place ∈ (secondPass refusal? c capacity lines reports statements).tape →
      place ≠ 0 ∧ place ∈ (bindLabels statements).2.1
  closes : (secondPass refusal? c capacity lines reports statements).tape.close refusal?
      (bindLabels statements).2.2 =
    .ok ((secondPass refusal? c capacity lines reports statements).tape ++
      closingCalls (bindLabels statements).2.2)
  reports_eq : (secondPass refusal? c capacity lines reports statements).reports =
    reports ++ (emissions c capacity lines (statements.zip (bindLabels statements).2.1)).2
  names_set : ∀ name place, (bindLabels statements).1.find? name = some place →
    place ≠ 0 ∧ (place ∈ (bindLabels statements).2.1 ∨ place = (bindLabels statements).2.2)

section SetsLabels

variable {refusal? : LabelRefusal} {c : Context} {capacity : UInt64}
  {statements : List Statement}

theorem exists_numberedOf_eq {i : Nat} {place : PlaceId}
    (hplace : (bindLabels statements).2.1[i]? = some place) :
    ∃ s rest, statements[i]? = some s ∧
      numberedOf statements = (numberedOf statements).take i ++ (s, place) :: rest := by
  obtain ⟨hi, rfl⟩ := List.getElem?_eq_some_iff.mp hplace
  have his : i < statements.length := by rwa [length_places] at hi
  have hin : i < (numberedOf statements).length := by
    rw [numberedOf, List.length_zip, length_places]
    omega
  have hx : (numberedOf statements)[i] = (statements[i], (bindLabels statements).2.1[i]) :=
    List.getElem_zip
  refine ⟨statements[i], (numberedOf statements).drop (i + 1), List.getElem?_eq_getElem his, ?_⟩
  rw [← hx, List.getElem_cons_drop, List.take_append_drop]

theorem set_once (hrefusal : refusal?.OnlyTaken)
    (hlt : (bindLabels statements).1.places < 2 ^ 64) {i : Nat} {place : PlaceId}
    (hplace : (bindLabels statements).2.1[i]? = some place) (hne : place ≠ 0) :
    ∃ s fragment after, statements[i]? = some s ∧ emits s ∧
      appendedFor c capacity s = some fragment ∧ fragment.HasContent ∧
      callsOf c capacity (numberedOf statements) =
        callsOf c capacity ((numberedOf statements).take i) ++
          .setLabel place :: .append fragment :: after ∧
      refusal? (callsOf c capacity ((numberedOf statements).take i)) place = none ∧
      Call.setLabel place ∉ callsOf c capacity ((numberedOf statements).take i) ∧
      Call.setLabel place ∉ after := by
  have hall := admits_numberedOf hlt
  obtain ⟨s, rest, hs, hsplit⟩ := exists_numberedOf_eq hplace
  generalize (numberedOf statements).take i = before at hsplit ⊢
  rw [hsplit, List.append_assoc] at hall
  have hadmits := hall.callsOf c capacity
  rw [List.nil_append] at hadmits
  have hemits : emits s := hadmits.takes _ List.mem_cons_self hne
  obtain ⟨fragment, happended, hcontent, hcalls⟩ :=
    callsFor_of_label c capacity (x := (s, place)) hemits hne
  refine ⟨s, fragment, callsOf c capacity rest, hs, hemits, happended, hcontent, ?_,
    hadmits.refusal?_eq_none hrefusal hne, hadmits.unset _ List.mem_cons_self hne, ?_⟩
  · rw [hsplit, callsOf, List.flatMap_append, List.flatMap_cons, hcalls]
    rfl
  · rw [setLabel_mem_callsOf_iff]
    rintro ⟨y, hy, hsame, -⟩
    have hmem : y.2 ∈ (rest ++ [(ending, (bindLabels statements).2.2)]).map Prod.snd :=
      List.mem_map_of_mem (List.mem_append_left _ hy)
    exact (List.pairwise_cons.mp hadmits.distinct).1 _ hmem hne hsame

theorem setsLabels (hrefusal : refusal?.OnlyTaken)
    (hlt : (bindLabels statements).1.places < 2 ^ 64) (c : Context) (capacity : UInt64)
    (lines : List String) (reports : List Diagnostic) :
    SetsLabels refusal? c capacity lines reports statements := by
  have hpass := secondPass_eq hrefusal hlt c capacity lines reports
  refine ⟨?_, ?_, ?_, ?_, ?_⟩
  · intro i place hplace hne
    rw [hpass]
    exact set_once hrefusal hlt hplace hne
  · intro place hplace
    rw [hpass, setLabel_mem_callsOf_iff] at hplace
    obtain ⟨x, hx, rfl, hne⟩ := hplace
    exact ⟨hne, (List.of_mem_zip hx).2⟩
  · rw [hpass]
    exact close_callsOf hrefusal hlt
  · rw [hpass]
    rfl
  · intro name place hfind
    obtain ⟨k, -, hk⟩ := location?_of_find? hfind
    have hmem := List.mem_of_getElem? hk
    rw [numbersOf, List.mem_append, List.mem_singleton] at hmem
    exact ⟨find?_bindLabels_ne_zero hlt hfind, hmem⟩

end SetsLabels

/-- Statements take labels just if something is appended for them, and those that take none are
never refused. So labels never dangle: the second pass sets each of them once, right before
something that is appended, and its answer is that of the program. -/
theorem labels_never_dangle {refusal? : LabelRefusal} {source : String}
    {statements : List Statement} (hrefusal : refusal?.OnlyTaken)
    (hsource : source.length < 2 ^ 63) (hparse : Source.parse source = .ok statements) :
    (∀ s ∈ statements, ∀ (c : Context) (capacity : UInt64),
      (∀ e, emission c capacity s = .ok e →
        (emits s ↔ ∃ fragment, e.fragment? c.codeSize = some fragment ∧ fragment.HasContent)) ∧
      (¬emits s → emission c capacity s = .ok .nothing)) ∧
    (∀ codeSize capacity reports, SetsLabels refusal? (contextOf codeSize statements) capacity
      (Text.linesOf source) reports statements) ∧
    ∀ target, assembleByCalls refusal? (Text.linesOf source) target statements =
      assemble source target := by
  have hstatements := Source.length_statements_le hparse
  have hplaces := places_bindLabels_le statements
  have hlt : (bindLabels statements).1.places < 2 ^ 64 := by omega
  refine ⟨?_, ?_, ?_⟩
  · intro s _ c capacity
    exact ⟨fun e he => emits_iff_appends he, emission_of_not_emits c capacity⟩
  · intro codeSize capacity reports
    exact setsLabels hrefusal hlt _ capacity _ reports
  · intro target
    rw [assemble_of_parse hparse]
    exact assembleByCalls_eq hrefusal hlt _ target

def refuseTaken : LabelRefusal := fun tape place =>
  if Call.setLabel place ∈ tape then some "Labels can't be re-used and can only be set once"
  else
    match tape.getLast? with
    | some (.setLabel _) => some "At most one label per instruction is allowed"
    | _ => none

theorem onlyTaken_refuseTaken : refuseTaken.OnlyTaken := by
  intro tape place hrefused
  unfold refuseTaken at hrefused
  split at hrefused
  next hset => exact .inl hset
  next =>
    split at hrefused
    next other hlast => exact .inr ⟨other, hlast⟩
    next => exact absurd rfl hrefused

/-- Two labels wait over an empty text for an instruction that there is not, one for a branch,
and one for the end. -/
theorem labels_never_dangle_over_errors :
    SetsLabels refuseTaken (contextOf .bits64 [⟨1, ["a"], .data .byte [.bytes []]⟩,
        ⟨2, ["b"], .instruction "foo" []⟩, ⟨3, ["c"], .empty⟩,
        ⟨4, [], .instruction "jmp" [.symbol "d"]⟩, ⟨5, ["d"], .reserve .byte 0⟩]) 0x1000
      (Text.linesOf "a: db ''\nb: foo\nc:\njmp d\nd: rb 0") []
      [⟨1, ["a"], .data .byte [.bytes []]⟩, ⟨2, ["b"], .instruction "foo" []⟩,
        ⟨3, ["c"], .empty⟩, ⟨4, [], .instruction "jmp" [.symbol "d"]⟩,
        ⟨5, ["d"], .reserve .byte 0⟩] :=
  (labels_never_dangle onlyTaken_refuseTaken (by decide +kernel) (by decide +kernel)).2.1 .bits64
    0x1000 []

end AsmLoader.Assembly
