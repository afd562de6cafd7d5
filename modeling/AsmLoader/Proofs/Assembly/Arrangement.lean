import AsmLoader.Proofs.Assembly.Emission
import AsmLoader.Proofs.Assembly.Numbering
import AsmLoader.Proofs.Assembly.Reference
import AsmLoader.Proofs.Assembly.Spread
/-!
# The arrangement of a source

The code of a source is what its statements emit, one after the other, and what the block puts
after them. Every statement that refers to a number leads where that number does.
-/

namespace AsmLoader.Assembly

open Machine (CodeSize)
open Source (Statement)

variable {codeSize : CodeSize} {statements : List Statement} {es : List Emission}

/-! ## The entries of statements -/

def Emission.item? (codeSize : CodeSize) (place : PlaceId) (e : Emission) : Option Entry :=
  (e.fragment? codeSize).map (⟨place, ·⟩)

def lastItem? (place : PlaceId) : Option Entry :=
  if place = 0 then none else some ⟨place, .mark⟩

/-- The entries of statements and of the end after them. -/
def itemsOf (codeSize : CodeSize) (statements : List Statement) (es : List Emission) :
    List (Option Entry) :=
  ((bindLabels statements).2.1.zip es).map (fun p => p.2.item? codeSize p.1) ++
    [lastItem? (bindLabels statements).2.2]

def contextOf (codeSize : CodeSize) (statements : List Statement) : Context :=
  ⟨codeSize, (bindLabels statements).1.find?⟩

def Emitted (codeSize : CodeSize) (capacity : UInt64) (statements : List Statement)
    (es : List Emission) : Prop :=
  List.Forall₂ (fun s e => emission (contextOf codeSize statements) capacity s = .ok e)
    statements es

theorem reduceOption_itemsOf (codeSize : CodeSize) (statements : List Statement)
    (es : List Emission) :
    (itemsOf codeSize statements es).reduceOption =
      entriesOf codeSize (((bindLabels statements).2.1.zip es).filter fun p => p.2 ≠ .nothing) ++
        lastEntry (bindLabels statements).2.2 := by
  have hlast (place : PlaceId) : [lastItem? place].reduceOption = lastEntry place := by
    unfold lastItem? lastEntry
    split <;> rfl
  rw [itemsOf, List.reduceOption_append, hlast, entriesOf, List.filterMap_filter,
    List.reduceOption, List.filterMap_map]
  congr 1
  apply List.filterMap_congr
  rintro ⟨place, e⟩ -
  cases e <;> simp [Emission.item?, Emission.fragment?]

theorem length_places (statements : List Statement) :
    (bindLabels statements).2.1.length = statements.length := by
  have hlength := length_numbersOf statements
  rw [numbersOf, List.length_append] at hlength
  exact Nat.add_right_cancel hlength

theorem eq_nothing_of_fragment? {e : Emission} (h : e.fragment? codeSize = none) :
    e = .nothing := by
  cases e <;> simp [Emission.fragment?] at h ⊢

section Items

variable {capacity : UInt64} (hes : Emitted codeSize capacity statements es)
include hes

theorem length_itemsOf : (itemsOf codeSize statements es).length = statements.length + 1 := by
  rw [itemsOf, List.length_append, List.length_map, List.length_zip, length_places,
    ← hes.length_eq, Nat.min_self]
  rfl

theorem getElem?_itemsOf {i : Nat} {s : Statement} (hs : statements[i]? = some s) :
    ∃ e place, emission (contextOf codeSize statements) capacity s = .ok e ∧
      (numbersOf statements)[i]? = some place ∧
      (itemsOf codeSize statements es)[i]? = some (e.item? codeSize place) := by
  obtain ⟨hi, -⟩ := List.getElem?_eq_some_iff.mp hs
  have hplaces : i < (bindLabels statements).2.1.length := by rwa [length_places]
  have hlength : i < es.length := by rwa [← hes.length_eq]
  have he : emission (contextOf codeSize statements) capacity s = .ok es[i] := by
    have hget := hes.get hi hlength
    rw [List.getElem?_eq_getElem hi, Option.some.injEq] at hs
    simpa [hs] using hget
  refine ⟨es[i], (bindLabels statements).2.1[i], he, ?_, ?_⟩
  · rw [numbersOf, List.getElem?_append_left hplaces, List.getElem?_eq_getElem hplaces]
  · rw [itemsOf, List.getElem?_append_left (by simp [hplaces, hlength])]
    simp [hplaces, hlength]

theorem getElem?_itemsOf_length :
    (itemsOf codeSize statements es)[statements.length]? =
      some (lastItem? (bindLabels statements).2.2) := by
  have hlength : (((bindLabels statements).2.1.zip es).map
      fun p => p.2.item? codeSize p.1).length = statements.length := by
    rw [List.length_map, List.length_zip, length_places, ← hes.length_eq, Nat.min_self]
  rw [itemsOf, ← hlength, List.getElem?_concat_length]

theorem map_place_itemsOf :
    (itemsOf codeSize statements es).map (fun item => item.elim 0 Entry.place) =
      numbersOf statements := by
  apply List.ext_getElem?
  intro i
  rw [List.getElem?_map]
  rcases Nat.lt_trichotomy i statements.length with hi | rfl | hi
  · have hs := List.getElem?_eq_getElem hi
    obtain ⟨e, place, he, hplace, hitem⟩ := getElem?_itemsOf hes hs
    rw [hitem, hplace, Option.map_some, Emission.item?]
    cases hfragment : e.fragment? codeSize with
    | some fragment => rfl
    | none =>
        have hnothing := eq_nothing_of_fragment? hfragment
        by_cases hzero : place = 0
        · rw [hzero]
          rfl
        · exact absurd (emits_of_mem_numbersOf hplace hzero hs) ((eq_nothing_iff he).mp hnothing)
  · rw [getElem?_itemsOf_length hes, getElem?_numbersOf_length, Option.map_some, lastItem?]
    split
    next hzero =>
      rw [hzero]
      rfl
    next => rfl
  · rw [List.getElem?_eq_none (by rw [length_itemsOf hes]; omega),
      List.getElem?_eq_none (by rw [length_numbersOf]; omega)]
    rfl

theorem pairwise_place_itemsOf (hlt : (bindLabels statements).1.places < 2 ^ 64) :
    (itemsOf codeSize statements es).reduceOption.Pairwise fun a b =>
      a.place ≠ 0 → a.place ≠ b.place := by
  have hpairwise := pairwise_numbersOf hlt
  rw [← map_place_itemsOf hes, List.pairwise_map] at hpairwise
  rw [List.reduceOption, List.pairwise_filterMap]
  apply hpairwise.imp
  intro item item' hne a ha b hb
  rw [id_eq] at ha hb
  subst ha hb
  exact hne

theorem destinationOf_itemsOf (hlt : (bindLabels statements).1.places < 2 ^ 64) {k : Nat}
    {place : PlaceId} (hplace : (numbersOf statements)[k]? = some place) (hne : place ≠ 0) :
    destinationOf (itemsOf codeSize statements es).reduceOption place =
      .inside (rank (itemsOf codeSize statements es) k) 0 := by
  obtain ⟨e, hitem, rfl⟩ : ∃ e : Entry,
      (itemsOf codeSize statements es)[k]? = some (some e) ∧ e.place = place := by
    rw [← map_place_itemsOf hes, List.getElem?_map] at hplace
    obtain ⟨item, hitem, helim⟩ := Option.map_eq_some_iff.mp hplace
    cases item with
    | none => exact absurd helim.symm hne
    | some e => exact ⟨e, hitem, helim⟩
  have hentry := getElem?_reduceOption hitem
  obtain ⟨hrank, hget⟩ := List.getElem?_eq_some_iff.mp hentry
  have hfind : (itemsOf codeSize statements es).reduceOption.findIdx? (·.place == e.place) =
      some (rank (itemsOf codeSize statements es) k) := by
    rw [List.findIdx?_eq_some_iff_getElem]
    refine ⟨hrank, by simp [hget], ?_⟩
    intro j hj
    have hpairwise := List.pairwise_iff_getElem.mp (pairwise_place_itemsOf hes hlt) j _
      (Nat.lt_trans hj hrank) hrank hj
    rw [hget] at hpairwise
    intro heq
    rw [beq_iff_eq] at heq
    exact hpairwise (heq ▸ hne) heq
  rw [destinationOf, if_neg hne, hfind]

end Items

/-! ## The bytes of an emission -/

/-- The bytes that an emission can be written as, and the displacement among them. -/
def Emission.Written (codeSize : CodeSize) (e : Emission) (part : List UInt8)
    (d : Displacement) : Prop :=
  match e.fragment? codeSize with
  | none => part = [] ∧ d = .absent
  | some fragment => fragment.Written part d

theorem ne_nil_of_emission {capacity : UInt64} {c : Context} {s : Statement} {bytes : List UInt8}
    (h : emission c capacity s = .ok (.data bytes)) : bytes ≠ [] := by
  have hdata {bytes' : List UInt8} (h : Emission.ofBytes bytes' = .data bytes) : bytes ≠ [] := by
    unfold Emission.ofBytes at h
    split at h
    next => cases h
    next hne =>
      cases h
      simpa using hne
  unfold emission at h
  split at h
  next =>
    obtain ⟨args, -, h⟩ := bind_eq_ok_iff.mp h
    obtain ⟨selected, -, h⟩ := bind_eq_ok_iff.mp h
    cases selected <;> cases h
  next =>
    obtain ⟨parts, -, h⟩ := bind_eq_ok_iff.mp h
    exact hdata (Except.ok.inj h)
  next =>
    dsimp only at h
    split at h
    next => cases h
    next => exact hdata (Except.ok.inj h)
  next => cases h
  next => cases h

theorem solid_of_emission {capacity : UInt64} {c : Context} {s : Statement} {e : Emission}
    {fragment : Fragment} (he : emission c capacity s = .ok e)
    (hfragment : e.fragment? codeSize = some fragment) : fragment.Solid := by
  cases e with
  | nothing => cases hfragment
  | data bytes =>
      cases hfragment
      exact ne_nil_of_emission he
  | branch transfer target =>
      cases hfragment
      trivial
  | instruction i =>
      cases hfragment
      unfold Fragment.ofInstruction
      split
      next hencode => exact Machine.Instruction.before_ne_nil_of_encode hencode
      next => trivial

theorem eq_nil_iff_of_written {capacity : UInt64} {c : Context} {s : Statement} {e : Emission}
    {part : List UInt8} {d : Displacement} (he : emission c capacity s = .ok e)
    (h : e.Written codeSize part d) : part = [] ↔ ¬emits s := by
  rw [← eq_nothing_iff he]
  unfold Emission.Written at h
  split at h
  next hfragment => simp [h.1, eq_nothing_of_fragment? hfragment]
  next hfragment =>
    have hne := ne_nil_of_written h (solid_of_emission he hfragment)
    have hsome : e ≠ .nothing := by
      rintro rfl
      cases hfragment
    simp [hne, hsome]

theorem target?_of_written {e : Emission} {fragment : Fragment} {part : List UInt8}
    {d : Displacement} {number : UInt64} (hfragment : e.fragment? codeSize = some fragment)
    (h : fragment.Written part d) (hnumber : e.reference? = some number) :
    fragment.target? codeSize = some (codeSize.truncate number) := by
  cases e with
  | nothing => cases hnumber
  | data bytes => cases hnumber
  | branch transfer target =>
      cases hnumber
      cases hfragment
      rfl
  | instruction i =>
      change i.reference? = some number at hnumber
      cases hfragment
      unfold Fragment.ofInstruction at h ⊢
      cases hencode : i.encode codeSize with
      | error refusal =>
          rw [hencode] at h
          cases h
      | ok encoded =>
          change encoded.target = _
          rw [Machine.Instruction.target_of_encode hencode, hnumber]
          cases codeSize with
          | bits64 => rfl
          | bits32 =>
              rw [Machine.Instruction.reference?_of_encode_bits32 hencode] at hnumber
              cases hnumber

/-! ## The arrangement -/

def partsOf (items : List (Option Entry)) (statements : List Statement)
    (parts : List (List UInt8)) : List (List UInt8) :=
  (spread items parts).take statements.length

/-- Code is what the statements of a source emit, one after the other, and what is appended. -/
structure Arranged (codeSize : CodeSize) (target : Target) (statements : List Statement)
    (parts : List (List UInt8)) (code : Code) : Prop where
  starts : parts.flatten <+: code
  length_eq : parts.length = statements.length
  written : ∀ (i : Nat) (s : Statement), statements[i]? = some s → ∃ e part d,
    emission (contextOf codeSize statements) target.capacity s = .ok e ∧
      parts[i]? = some part ∧ e.Written codeSize part d ∧ (part = [] ↔ ¬emits s)

section Laid

variable {target : Target} {parts : List (List UInt8)} {code : Code}
  (hes : Emitted codeSize target.capacity statements es)
  (hlaid : Laid codeSize target.base (itemsOf codeSize statements es).reduceOption parts code)
include hes hlaid

omit hes in
theorem offset_partsOf {k : Nat} (hk : k ≤ statements.length) :
    offset (partsOf (itemsOf codeSize statements es) statements parts) k =
      offset parts (rank (itemsOf codeSize statements es) k) := by
  rw [← offset_spread hlaid.length_eq, partsOf, offset, List.take_take, Nat.min_eq_left hk,
    offset]

/-- A statement is written as bytes of its own, and leads where the number that it refers to
does. -/
theorem written_partsOf {i : Nat} {s : Statement} (hs : statements[i]? = some s) :
    ∃ e part d, emission (contextOf codeSize statements) target.capacity s = .ok e ∧
      (partsOf (itemsOf codeSize statements es) statements parts)[i]? = some part ∧
      e.Written codeSize part d ∧
      ∀ number, e.reference? = some number →
        d.LeadsTo codeSize target.base code
            (target.base + UInt64.ofNat
              (offset (partsOf (itemsOf codeSize statements es) statements parts) (i + 1)))
            ((destinationOf (itemsOf codeSize statements es).reduceOption
              (codeSize.truncate number)).addressIn target.base parts) ∧
          (codeSize = .bits32 ∨ (destinationOf (itemsOf codeSize statements es).reduceOption
            (codeSize.truncate number)).isInside → ∃ field, d = .direct field) := by
  obtain ⟨hi, -⟩ := List.getElem?_eq_some_iff.mp hs
  obtain ⟨e, place, he, -, hitem⟩ := getElem?_itemsOf hes hs
  rw [offset_partsOf hlaid hi, partsOf, List.getElem?_take_of_lt hi]
  cases hfragment : e.fragment? codeSize with
  | none =>
      rw [Emission.item?, hfragment] at hitem
      refine ⟨e, [], .absent, he, getElem?_spread_none hitem, ?_, ?_⟩
      · rw [Emission.Written, hfragment]
        exact ⟨rfl, rfl⟩
      · intro number hnumber
        rw [eq_nothing_of_fragment? hfragment] at hnumber
        cases hnumber
  | some fragment =>
      rw [Emission.item?, hfragment, Option.map_some] at hitem
      obtain ⟨part, d, hpart, hwritten, hleads⟩ :=
        hlaid.written _ _ (getElem?_reduceOption hitem)
      refine ⟨e, part, d, he, ?_, ?_, ?_⟩
      · rw [getElem?_spread_some hlaid.length_eq hitem, hpart]
      · rw [Emission.Written, hfragment]
        exact hwritten
      · intro number hnumber
        rw [rank_succ_of_some hitem]
        exact hleads _ (target?_of_written hfragment hwritten hnumber)

theorem flatten_partsOf :
    (partsOf (itemsOf codeSize statements es) statements parts).flatten = parts.flatten := by
  have hend : (spread (itemsOf codeSize statements es) parts)[statements.length]? = some [] := by
    have hitem := getElem?_itemsOf_length hes
    unfold lastItem? at hitem
    split at hitem
    next => exact getElem?_spread_none hitem
    next =>
      obtain ⟨part, d, hpart, hwritten, -⟩ := hlaid.written _ _ (getElem?_reduceOption hitem)
      rw [getElem?_spread_some hlaid.length_eq hitem, hpart]
      cases hwritten
      rfl
  have hlength := length_spread (itemsOf codeSize statements es) parts
  rw [length_itemsOf hes] at hlength
  have hconcat : (spread (itemsOf codeSize statements es) parts).take statements.length ++ [[]] =
      spread (itemsOf codeSize statements es) parts := by
    have hsplit := List.take_add_one (l := spread (itemsOf codeSize statements es) parts)
      (i := statements.length)
    rw [hend, List.take_of_length_le (by omega)] at hsplit
    exact hsplit.symm
  calc (partsOf (itemsOf codeSize statements es) statements parts).flatten
      = (spread (itemsOf codeSize statements es) parts).flatten := by
        rw [← hconcat, List.flatten_concat, List.append_nil, partsOf]
    _ = parts.flatten := flatten_spread hlaid.length_eq

theorem arranged_partsOf : Arranged codeSize target statements
    (partsOf (itemsOf codeSize statements es) statements parts) code := by
  refine ⟨?_, ?_, ?_⟩
  · rw [flatten_partsOf hes hlaid]
    exact hlaid.starts
  · rw [partsOf, List.length_take, length_spread, length_itemsOf hes]
    omega
  · intro i s hs
    obtain ⟨e, part, d, he, hpart, hwritten, -⟩ := written_partsOf hes hlaid hs
    exact ⟨e, part, d, he, hpart, hwritten, eq_nil_iff_of_written he hwritten⟩

end Laid

end AsmLoader.Assembly
