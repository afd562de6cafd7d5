import AsmLoader.Proofs.Assembly.Layout
import Mathlib.Data.List.ReduceOption
/-!
# From entries back to statements

Only statements that emit something have an entry in a block. The parts of the entries are spread
over all statements again, with no bytes for those that have none, and no byte of the code moves.
-/

namespace AsmLoader.Assembly

variable {α : Type} {items : List (Option α)} {parts : List (List UInt8)}

/-- The number of entries before an item. -/
def rank (items : List (Option α)) (k : Nat) : Nat :=
  (items.take k).reduceOption.length

/-- The parts of the items, from those of the entries. -/
def spread : List (Option α) → List (List UInt8) → List (List UInt8)
  | [], _ => []
  | none :: items, parts => [] :: spread items parts
  | some _ :: items, part :: parts => part :: spread items parts
  | some _ :: items, [] => [] :: spread items []

theorem rank_succ_none (items : List (Option α)) (k : Nat) :
    rank (none :: items) (k + 1) = rank items k :=
  rfl

theorem rank_succ_some (x : α) (items : List (Option α)) (k : Nat) :
    rank (some x :: items) (k + 1) = rank items k + 1 := by
  simp [rank]

theorem length_spread (items : List (Option α)) (parts : List (List UInt8)) :
    (spread items parts).length = items.length := by
  induction items generalizing parts with
  | nil => rfl
  | cons item items ih =>
      cases item with
      | none => simp [spread, ih]
      | some x => cases parts <;> simp [spread, ih]

theorem length_of_cons_some {x : α} {part : List UInt8}
    (h : (part :: parts).length = (some x :: items).reduceOption.length) :
    parts.length = items.reduceOption.length := by
  rw [List.reduceOption_cons_of_some, List.length_cons, List.length_cons] at h
  exact Nat.add_right_cancel h

theorem flatten_spread (hlength : parts.length = items.reduceOption.length) :
    (spread items parts).flatten = parts.flatten := by
  induction items generalizing parts with
  | nil =>
      rw [List.reduceOption_nil, List.length_nil, List.length_eq_zero_iff] at hlength
      rw [hlength]
      rfl
  | cons item items ih =>
      cases item with
      | none => simpa [spread] using ih hlength
      | some x =>
          cases parts with
          | nil => simp at hlength
          | cons part parts =>
              simp [spread, ih (length_of_cons_some hlength)]

theorem offset_spread (hlength : parts.length = items.reduceOption.length) (k : Nat) :
    offset (spread items parts) k = offset parts (rank items k) := by
  induction items generalizing parts k with
  | nil =>
      rw [List.reduceOption_nil, List.length_nil, List.length_eq_zero_iff] at hlength
      simp [offset, spread, hlength]
  | cons item items ih =>
      cases k with
      | zero => rfl
      | succ k =>
          cases item with
          | none =>
              rw [spread, offset_cons_succ, rank_succ_none, List.length_nil, Nat.zero_add]
              exact ih hlength k
          | some x =>
              cases parts with
              | nil => simp at hlength
              | cons part parts =>
                  rw [spread, offset_cons_succ, rank_succ_some, offset_cons_succ,
                    ih (length_of_cons_some hlength) k]

theorem getElem?_spread_none {k : Nat} (hk : items[k]? = some none) :
    (spread items parts)[k]? = some [] := by
  induction items generalizing parts k with
  | nil => cases hk
  | cons item items ih =>
      cases k with
      | zero =>
          cases hk
          rfl
      | succ k =>
          cases item with
          | none => exact ih hk
          | some x => cases parts <;> exact ih hk

theorem getElem?_spread_some (hlength : parts.length = items.reduceOption.length)
    {k : Nat} {x : α}
    (hk : items[k]? = some (some x)) : (spread items parts)[k]? = parts[rank items k]? := by
  induction items generalizing parts k with
  | nil => cases hk
  | cons item items ih =>
      cases item with
      | none =>
          cases k with
          | zero => cases hk
          | succ k =>
              rw [rank_succ_none]
              exact ih hlength hk
      | some y =>
          cases parts with
          | nil => simp at hlength
          | cons part parts =>
              cases k with
              | zero => rfl
              | succ k =>
                  rw [rank_succ_some]
                  exact ih (length_of_cons_some hlength) hk

theorem getElem?_reduceOption {k : Nat} {x : α} (hk : items[k]? = some (some x)) :
    items.reduceOption[rank items k]? = some x := by
  induction items generalizing k with
  | nil => cases hk
  | cons item items ih =>
      cases item with
      | none =>
          cases k with
          | zero => cases hk
          | succ k =>
              rw [rank_succ_none]
              exact ih hk
      | some y =>
          cases k with
          | zero =>
              cases hk
              rfl
          | succ k =>
              rw [rank_succ_some]
              exact ih hk

theorem rank_succ_of_some {k : Nat} {x : α} (hk : items[k]? = some (some x)) :
    rank items (k + 1) = rank items k + 1 := by
  have hlt : k < items.length := (List.getElem?_eq_some_iff.mp hk).1
  rw [rank, List.take_add_one, hk, Option.toList_some, List.reduceOption_append,
    List.length_append]
  rfl

end AsmLoader.Assembly
