import AsmLoader.Proofs.Assembly.Arrangement
/-!
# Places take room

Every place but that after the code has at least one byte, and so has every piece without a
number. Code that ends within the first 2^32 addresses therefore has no more places than 32 bits
can tell apart, unless it fills all of them, and then the number 0 leads to its end.
-/

namespace AsmLoader.Assembly

open Machine (CodeSize)
open Source (Statement)

/-! ## Sums -/

theorem total_append (xs ys : List Nat) : total (xs ++ ys) = total xs + total ys := by
  induction xs with
  | nil => simp [total]
  | cons x xs ih =>
      rw [List.cons_append, total, total, ih]
      omega

theorem total_le_length_flatten {α : Type} {weight : α → Nat} {xs : List α}
    {parts : List (List UInt8)}
    (h : List.Forall₂ (fun x part => weight x ≤ part.length) xs parts) :
    total (xs.map weight) ≤ parts.flatten.length := by
  induction h with
  | nil => exact Nat.le_refl _
  | cons hx _ ih =>
      rw [List.map_cons, total, List.flatten_cons, List.length_append]
      omega

theorem total_lt_length_flatten {α : Type} {weight : α → Nat} {xs : List α}
    {parts : List (List UInt8)}
    (h : List.Forall₂ (fun x part => weight x ≤ part.length) xs parts) {r : Nat} {x : α}
    {part : List UInt8} (hx : xs[r]? = some x) (hpart : parts[r]? = some part)
    (hlt : weight x < part.length) : total (xs.map weight) < parts.flatten.length := by
  induction h generalizing r with
  | nil => cases hx
  | cons hle hrest ih =>
      rw [List.map_cons, total, List.flatten_cons, List.length_append]
      cases r with
      | zero =>
          cases hx
          cases hpart
          have hrest := total_le_length_flatten hrest
          omega
      | succ r =>
          have hrest := ih hx hpart
          omega

theorem total_unnamed {entries : List Entry} (h : ∀ e ∈ entries, 1 ≤ e.pieces) :
    total (entries.map Entry.unnamed) + entries.countP (·.place ≠ 0) =
      total (entries.map Entry.pieces) := by
  induction entries with
  | nil => rfl
  | cons e entries ih =>
      have hpieces := h e List.mem_cons_self
      have hrest := ih fun e he => h e (List.mem_cons_of_mem _ he)
      simp only [List.map_cons, total, List.countP_cons, Entry.unnamed]
      split <;> simp_all <;> omega

def Entry.room (e : Entry) : Nat :=
  if e.fragment = .mark then 0 else e.pieces

theorem room_of_solid {e : Entry} (h : e.fragment.Solid) : e.room = e.pieces := by
  apply if_neg
  intro hmark
  rw [hmark] at h
  exact h

theorem room_le_of_written {e : Entry} {part : List UInt8} {d : Displacement}
    (h : e.fragment.Written part d) (hsolid : e.fragment.Solid ∨ e.fragment = .mark) :
    e.room + (if d = .absent then 0 else 1) ≤ part.length := by
  rcases hsolid with hsolid | hmark
  · rw [room_of_solid hsolid]
    exact pieces_le_of_written h hsolid
  · rw [hmark] at h
    cases h
    simp [Entry.room, hmark]

def HasDisplacement (entries : List Entry) (parts : List (List UInt8)) : Prop :=
  ∃ (r : Nat) (e : Entry) (part : List UInt8) (d : Displacement),
    entries[r]? = some e ∧ parts[r]? = some part ∧ e.fragment.Written part d ∧ d ≠ .absent

section Places

variable {codeSize : CodeSize} {statements : List Statement} {es : List Emission}
  {target : Target} {parts : List (List UInt8)} {code : Code}
  (hes : Emitted codeSize target.capacity statements es)
include hes

theorem countP_place_itemsOf (hlt : (bindLabels statements).1.places < 2 ^ 64) :
    (itemsOf codeSize statements es).reduceOption.countP (·.place ≠ 0) =
      (bindLabels statements).1.places := by
  have hfilter := congrArg List.length (filter_numbersOf hlt)
  rw [← map_place_itemsOf hes, ← List.countP_eq_length_filter, List.countP_map, List.length_map,
    List.length_range'] at hfilter
  rw [← hfilter, List.reduceOption, List.countP_filterMap]
  apply List.countP_congr
  intro item _
  cases item with
  | none => simp
  | some e => by_cases hzero : e.place = 0 <;> simp [hzero]

theorem solid_of_mem_entriesOf {e : Entry}
    (he : e ∈ entriesOf codeSize
      (((bindLabels statements).2.1.zip es).filter fun p => p.2 ≠ .nothing)) :
    e.fragment.Solid := by
  obtain ⟨⟨place, emitted⟩, hmem, hentry⟩ := List.mem_filterMap.mp he
  obtain ⟨fragment, hfragment, rfl⟩ := Option.map_eq_some_iff.mp hentry
  have hemitted := (List.of_mem_zip (List.mem_filter.mp hmem).1).2
  obtain ⟨s, -, hs⟩ := exists_mem_of_forall₂ hes.flip hemitted
  exact solid_of_emission hs hfragment

theorem total_pieces_itemsOf :
    total ((itemsOf codeSize statements es).reduceOption.map Entry.pieces) =
      total ((itemsOf codeSize statements es).reduceOption.map Entry.room) +
        (lastEntry (bindLabels statements).2.2).length := by
  have hsolid := List.map_congr_left fun e he =>
    room_of_solid (solid_of_mem_entriesOf hes (e := e) he)
  have hlast (place : PlaceId) : total ((lastEntry place).map Entry.pieces) =
      total ((lastEntry place).map Entry.room) + (lastEntry place).length := by
    unfold lastEntry
    split <;> rfl
  rw [reduceOption_itemsOf, List.map_append, List.map_append, total_append, total_append, hsolid,
    hlast, Nat.add_assoc]

theorem solid_or_mark_of_mem_itemsOf {e : Entry}
    (he : e ∈ (itemsOf codeSize statements es).reduceOption) :
    e.fragment.Solid ∨ e.fragment = .mark := by
  rw [reduceOption_itemsOf, List.mem_append] at he
  rcases he with he | he
  · exact .inl (solid_of_mem_entriesOf hes he)
  · unfold lastEntry at he
    split at he
    next => cases he
    next =>
      rw [List.mem_singleton.mp he]
      exact .inr rfl

/-- If the code has a displacement, the places and the pieces without a number are fewer than its
bytes, but for the place after the code. -/
theorem unnamed_add_places_lt (hlt : (bindLabels statements).1.places < 2 ^ 64)
    (hlaid : Laid codeSize target.base (itemsOf codeSize statements es).reduceOption parts code)
    (hdisplacement : HasDisplacement (itemsOf codeSize statements es).reduceOption parts) :
    total ((itemsOf codeSize statements es).reduceOption.map Entry.unnamed) +
        (bindLabels statements).1.places <
      parts.flatten.length + (lastEntry (bindLabels statements).2.2).length := by
  obtain ⟨r, e, part, d, he, hpart, hwritten, hd⟩ := hdisplacement
  have hsolid {e : Entry} := solid_or_mark_of_mem_itemsOf hes (e := e)
  have hroom : List.Forall₂ (fun (e : Entry) part => e.room ≤ part.length)
      (itemsOf codeSize statements es).reduceOption parts := by
    rw [List.forall₂_iff_get]
    refine ⟨hlaid.length_eq.symm, ?_⟩
    intro i hi hi'
    obtain ⟨part, d, hpart, hwritten, -⟩ := hlaid.written i _ (List.getElem?_eq_getElem hi)
    rw [List.getElem?_eq_getElem hi', Option.some.injEq] at hpart
    have hle := room_le_of_written hwritten (hsolid (List.getElem_mem hi))
    rw [List.get_eq_getElem, List.get_eq_getElem]
    dsimp only
    rw [hpart]
    omega
  have hstrict : e.room < part.length := by
    have hle := room_le_of_written hwritten (hsolid (List.mem_of_getElem? he))
    rwa [if_neg hd] at hle
  have htotal := total_lt_length_flatten hroom he hpart hstrict
  have hunnamed := total_unnamed fun e he => one_le_pieces (hsolid (e := e) he)
  rw [countP_place_itemsOf hes hlt, total_pieces_itemsOf hes] at hunnamed
  omega

end Places

end AsmLoader.Assembly
