import AsmLoader.Proofs.Assembly.Sweep
import AsmLoader.Proofs.Machine.Displacement
/-!
# Pieces of code

The bytes of one cell, and the displacement among them. A displacement leads to its target by
itself, or to an address after the code that holds the target.
-/

namespace AsmLoader.Assembly

open Machine (CodeSize Transfer fitsByte fitsDword landing signedBytes)

inductive Displacement where
  | absent
  | direct (field : List UInt8)
  | through (field : List UInt8)
  deriving DecidableEq, Repr

/-- The bytes that a fragment can be written as, and the displacement among them. -/
inductive Fragment.Written : Fragment → List UInt8 → Displacement → Prop where
  | plain {encoded} (htarget : encoded.target = none) :
      Written (.code encoded) (encoded.before ++ encoded.after) .absent
  | relative {encoded target field} (htarget : encoded.target = some target)
      (hfield : field.length = 4) :
      Written (.code encoded) (encoded.before ++ field ++ encoded.after) (.direct field)
  | short {transfer target field} (hcall : transfer ≠ .call) (hfield : field.length = 1) :
      Written (.branch transfer target) (shortOpcode transfer ++ field) (.direct field)
  | near {transfer target field} (hfield : field.length = 4) :
      Written (.branch transfer target) (nearOpcode transfer ++ field) (.direct field)
  | far {transfer target field} (hfield : field.length = 4) :
      Written (.branch transfer target) (farOpcode transfer ++ field) (.through field)
  | data {bytes} : Written (.data bytes) bytes .absent
  | mark : Written .mark [] .absent

def Fragment.target? (codeSize : CodeSize) : Fragment → Option UInt64
  | code encoded => encoded.target
  | branch _ target => some (codeSize.truncate target)
  | refused .. | data _ | mark => none

def Fragment.Solid : Fragment → Prop
  | code encoded => encoded.before ≠ []
  | data bytes => bytes ≠ []
  | mark => False
  | refused .. | branch .. => True

theorem one_le_pieces {e : Entry} (h : e.fragment.Solid ∨ e.fragment = .mark) :
    1 ≤ e.pieces := by
  unfold Entry.pieces
  split
  next bytes hfragment =>
    rw [hfragment] at h
    have hpos := List.length_pos_iff.mpr (h.resolve_right (by simp))
    rw [Entry.pieceLength]
    omega
  next => exact Nat.le_refl _

/-- What a fragment is written as has as many bytes as it has pieces, and one more if there is a
displacement among them. -/
theorem pieces_le_of_written {e : Entry} {part : List UInt8} {d : Displacement}
    (h : e.fragment.Written part d) (hsolid : e.fragment.Solid) :
    e.pieces + (if d = .absent then 0 else 1) ≤ part.length := by
  unfold Entry.pieces
  generalize e.fragment = fragment at h hsolid ⊢
  cases h with
  | plain =>
      have hpos := List.length_pos_iff.mpr hsolid
      simp only [if_true, List.length_append]
      omega
  | relative _ hfield =>
      simp only [reduceCtorEq, if_false, List.length_append, hfield]
      omega
  | @short transfer _ _ hcall hfield =>
      have hopcode : 1 ≤ (shortOpcode transfer).length := by
        cases transfer <;> first | exact absurd rfl hcall | simp [shortOpcode]
      simp only [reduceCtorEq, if_false, List.length_append, hfield]
      omega
  | near hfield =>
      simp only [reduceCtorEq, if_false, List.length_append, hfield]
      omega
  | far hfield =>
      simp only [reduceCtorEq, if_false, List.length_append, hfield]
      omega
  | data =>
      have hpos := List.length_pos_iff.mpr hsolid
      simp only [if_true, Entry.pieceLength]
      omega
  | mark => exact hsolid.elim

theorem length_shortOpcode {transfer : Transfer} (hcall : transfer ≠ .call) :
    (shortOpcode transfer).length + 1 = shortSize := by
  cases transfer <;> first | rfl | exact absurd rfl hcall

theorem length_nearOpcode (transfer : Transfer) :
    (nearOpcode transfer).length + 4 = nearSize transfer := by
  cases transfer <;> rfl

theorem truncate_landing {codeSize : CodeSize} {next target : UInt64} {field : List UInt8}
    (hfield : Machine.ofSignedBytes field = (distance codeSize target next).toInt) :
    codeSize.truncate (landing next field) = codeSize.truncate target := by
  rw [Machine.landing_of_eq hfield]
  cases codeSize with
  | bits32 => exact Machine.CodeSize.truncate_add_toInt32 next target
  | bits64 => exact Machine.add_toInt64_sub next target

theorem ne_nil_of_written {fragment : Fragment} {part : List UInt8} {d : Displacement}
    (h : fragment.Written part d) (hsolid : fragment.Solid) : part ≠ [] := by
  have hpieces := one_le_pieces (e := ⟨0, fragment⟩) (.inl hsolid)
  have hle := pieces_le_of_written (e := ⟨0, fragment⟩) h hsolid
  rw [← List.length_pos_iff]
  omega

/-- Where the displacement of a cell leads, from its end on. -/
inductive Cell.Leads (codeSize : CodeSize) (pointer : Nat → UInt64) (next target : UInt64)
    (c : Cell) : Displacement → Prop where
  | absent (htarget : c.fragment.target? codeSize = none) :
      Leads codeSize pointer next target c .absent
  | direct {field}
      (hlanding : codeSize.truncate (landing next field) = codeSize.truncate target) :
      Leads codeSize pointer next target c (.direct field)
  | through {field slot} (hreach : c.reach = .far slot)
      (hfar : Sweep.alwaysNear codeSize c = false)
      (hlanding : landing next field = pointer slot) :
      Leads codeSize pointer next target c (.through field)

variable {codeSize : CodeSize} {c : Cell} {addresses : Array UInt64} {pointer : Nat → UInt64}
  {ip : UInt64} {part : List UInt8}

theorem written_branchBytes {transfer : Transfer} {number target : UInt64}
    (hfragment : c.fragment = .branch transfer number) (hshaped : c.Shaped codeSize)
    (h : branchBytes codeSize pointer ip target c transfer = .ok part) :
    part.length = c.size ∧ ∃ d, c.fragment.Written part d ∧
      c.Leads codeSize pointer (ip + UInt64.ofNat c.size) target d := by
  simp only [Cell.Shaped, hfragment] at hshaped
  rw [hfragment]
  unfold branchBytes at h
  cases hreach : c.reach with
  | unknown => simp [hreach] at hshaped
  | short =>
      simp only [hreach] at hshaped h
      split at h
      next hfits =>
        cases h
        refine ⟨?_, _, .short hshaped.1 (Machine.length_signedBytes 1 _), .direct ?_⟩
        · rw [List.length_append, Machine.length_signedBytes, hshaped.2,
            length_shortOpcode hshaped.1]
        · exact truncate_landing (Machine.ofSignedBytes_of_fitsByte hfits)
      next => cases h
  | near =>
      simp only [hreach] at hshaped h
      split at h
      next hfits =>
        cases h
        refine ⟨?_, _, .near (Machine.length_signedBytes 4 _), .direct ?_⟩
        · rw [List.length_append, Machine.length_signedBytes, hshaped, length_nearOpcode]
        · exact truncate_landing (Machine.ofSignedBytes_of_fitsDword hfits)
      next => cases h
  | far slot =>
      simp only [hreach] at hshaped h
      split at h
      next => cases h
      next hfits =>
        split at h
        next => cases h
        next hsize =>
          cases h
          rw [Bool.not_eq_true, Bool.not_eq_false'] at hfits
          refine ⟨?_, _, .far (Machine.length_signedBytes 4 _), .through hreach hshaped ?_⟩
          · rw [List.length_append, Machine.length_signedBytes]
            omega
          · rw [Machine.landing_of_eq (Machine.ofSignedBytes_of_fitsDword hfits),
              Machine.add_toInt64_sub]

/-- What is written of a cell is as long as the cell, and leads to its destination. -/
theorem written_cellBytes (hshaped : c.Shaped codeSize)
    (h : cellBytes codeSize addresses pointer ip c = .ok part) :
    part.length = c.size ∧ ∃ d, c.fragment.Written part d ∧
      c.Leads codeSize pointer (ip + UInt64.ofNat c.size)
      (c.destination.resolve addresses) d := by
  unfold cellBytes at h
  cases hfragment : c.fragment with
  | code encoded =>
      simp only [hfragment] at h
      simp only [Cell.Shaped, hfragment] at hshaped
      cases htarget : encoded.target with
      | none =>
          simp only [htarget] at h
          cases h
          refine ⟨?_, _, .plain htarget, .absent ?_⟩
          · simp [hshaped, Machine.Encoded.size, htarget]
          · simp [Fragment.target?, hfragment, htarget]
      | some target =>
          simp only [htarget] at h
          split at h
          next hfits =>
            cases h
            refine ⟨?_, _, .relative htarget (Machine.length_signedBytes 4 _), .direct ?_⟩
            · simp [hshaped, Machine.Encoded.size, htarget, Nat.add_assoc]
            · rw [Machine.landing_of_eq (Machine.ofSignedBytes_of_fitsDword hfits),
                Machine.add_toInt64_sub]
          next => cases h
  | refused refusal i => simp [hfragment] at h
  | branch transfer number =>
      simp only [hfragment] at h
      exact hfragment ▸ written_branchBytes hfragment hshaped h
  | data bytes =>
      simp only [hfragment] at h
      simp only [Cell.Shaped, hfragment] at hshaped
      cases h
      exact ⟨hshaped.symm, _, .data, .absent (by simp [Fragment.target?, hfragment])⟩
  | mark =>
      simp only [hfragment] at h
      simp only [Cell.Shaped, hfragment] at hshaped
      cases h
      exact ⟨hshaped.symm, _, .mark, .absent (by simp [Fragment.target?, hfragment])⟩

end AsmLoader.Assembly
