import AsmLoader.Listing
import AsmLoader.Proofs.Assembly.Layout
import AsmLoader.Proofs.Machine.Decoding
/-!
# The rows of a listing

A listing knows nothing of where instructions start: it decodes the code from the front and goes
on where the last instruction ended. Code that is made of parts that are decoded whole has a row
for each part, at the address where it starts.
-/

namespace AsmLoader.Listing

open Assembly (offset)
open Machine (DecodesWhole)

variable {part rest : List UInt8} {parts : List (List UInt8)}

theorem lines_append (h : DecodesWhole part) (address : UInt64) (rest : List UInt8) :
    ∃ d, lines address (part ++ rest) =
      ⟨address, part, some d⟩ :: lines (address + UInt64.ofNat part.length) rest := by
  obtain ⟨d, hd⟩ := h address rest
  obtain ⟨b, more, rfl⟩ := List.exists_cons_of_ne_nil h.ne_nil
  refine ⟨d, ?_⟩
  rw [List.cons_append] at hd ⊢
  rw [lines, hd]
  simp

/-- The rows show the parts, one after the other, each at the address where it starts. -/
structure Shows (entry : UInt64) (parts : List (List UInt8)) (rows : List Line) : Prop where
  bytes_eq : rows.map Line.bytes = parts
  address_eq : ∀ (i : Nat) (l : Line), rows[i]? = some l →
    l.address = entry + UInt64.ofNat (offset parts i)
  decoded : ∀ l ∈ rows, l.decoded.isSome

theorem shows_lines (h : ∀ part ∈ parts, DecodesWhole part) (entry : UInt64) :
    Shows entry parts (lines entry parts.flatten) := by
  induction parts generalizing entry with
  | nil => exact ⟨by simp [lines], fun i l hl => by simp [lines] at hl, by simp [lines]⟩
  | cons part parts ih =>
      obtain ⟨d, hlines⟩ := lines_append (h part List.mem_cons_self) entry parts.flatten
      obtain ⟨hbytes, haddress, hdecoded⟩ := ih (fun p hp => h p (List.mem_cons_of_mem part hp))
        (entry + UInt64.ofNat part.length)
      rw [List.flatten_cons, hlines]
      refine ⟨by rw [List.map_cons, hbytes], ?_, List.forall_mem_cons.mpr ⟨rfl, hdecoded⟩⟩
      intro i l hl
      cases i with
      | zero =>
          cases hl
          simp [offset]
      | succ i =>
          rw [haddress i l hl, Assembly.offset_cons_succ, UInt64.ofNat_add, UInt64.add_assoc]

end AsmLoader.Listing
