import AsmLoader.Proofs.Assembly.Layout
/-!
# Blocks of fixed bytes

Data, and an instruction that leads to no place, have the same bytes wherever they stand. A block
of nothing else is these bytes one after the other: no sweep changes it, and nothing is put after
it.
-/

namespace AsmLoader.Assembly

open Machine (CodeSize)

variable {codeSize : CodeSize} {cells : List Cell} {c : Cell} {part : List UInt8}

/-- The bytes of a fragment, if they are the same wherever it stands. -/
def Fragment.bytes? : Fragment → Option (List UInt8)
  | code encoded =>
    match encoded.target with
    | none => some (encoded.before ++ encoded.after)
    | some _ => none
  | data bytes => some bytes
  | mark => some []
  | refused .. | branch .. => none

theorem Cell.settled_ofEntry {e : Entry} (h : e.fragment.bytes? = some part)
    (entries : List Entry) : (ofEntry codeSize entries e).settled := by
  unfold ofEntry
  unfold Fragment.bytes? at h
  split at h
  next hfragment =>
    split at h
    next htarget => simp [hfragment, htarget]
    next => cases h
  next hfragment => simp [hfragment]
  next hfragment => simp [hfragment]
  all_goals cases h

/-! ## Sweeps -/

namespace Sweep

theorem step_of_settled (codeSize : CodeSize) (s : Sweep) (h : c.settled) :
    (s.step codeSize c).cells = s.cells.push c ∧ (s.step codeSize c).saved = s.saved := by
  simp [step, shorten, h]

theorem foldl_step_of_settled (codeSize : CodeSize) (s : Sweep) (h : ∀ c ∈ cells, c.settled) :
    (cells.foldl (step codeSize) s).cells.toList = s.cells.toList ++ cells ∧
      (cells.foldl (step codeSize) s).saved = s.saved := by
  induction cells generalizing s with
  | nil => simp
  | cons c cells ih =>
      obtain ⟨hcells, hsaved⟩ := step_of_settled codeSize s (h c List.mem_cons_self)
      have hrest := ih (s.step codeSize c) fun c' hc' => h c' (List.mem_cons_of_mem c hc')
      rw [hcells, hsaved] at hrest
      simpa using hrest

end Sweep

theorem sweepAll_of_settled (h : ∀ c ∈ cells, c.settled) (base : UInt64) (count slots : Nat) :
    sweepAll codeSize base count cells slots = cells := by
  cases count with
  | zero => rfl
  | succ count =>
      obtain ⟨hcells, hsaved⟩ := Sweep.foldl_step_of_settled codeSize
        ⟨base, 0, (addressesFrom base (cells.map Cell.size)).toArray, #[], slots⟩ h
      rw [sweepAll, if_pos hsaved, hcells, List.nil_append]

theorem sweepAll_of_kept {base : UInt64} {slots : Nat} {c' : Cell} {start : Sweep}
    (hstart : start =
      ⟨base, 0, (addressesFrom base ((c :: cells).map Cell.size)).toArray, #[], slots⟩)
    (hcell : (start.step codeSize c).cells = #[c']) (hkept : (start.step codeSize c).saved = 0)
    (h : ∀ c ∈ cells, c.settled) (count : Nat) :
    sweepAll codeSize base (count + 1) (c :: cells) slots = c' :: cells := by
  obtain ⟨hcells, hsaved⟩ := Sweep.foldl_step_of_settled codeSize (start.step codeSize c) h
  rw [hcell] at hcells
  rw [hkept] at hsaved
  rw [sweepAll, ← hstart, List.foldl_cons, if_pos hsaved, hcells]
  rfl

/-! ## Writing -/

section Write

variable {addresses : Array UInt64} {pointer : Nat → UInt64} {parts : List (List UInt8)}

theorem cellBytes_of_bytes? (h : c.fragment.bytes? = some part) (ip : UInt64) :
    cellBytes codeSize addresses pointer ip c = .ok part := by
  unfold cellBytes
  unfold Fragment.bytes? at h
  split at h
  next hfragment =>
    split at h
    next htarget =>
      cases h
      simp [hfragment, htarget]
    next => cases h
  next hfragment =>
    cases h
    simp [hfragment]
  next hfragment =>
    cases h
    simp [hfragment]
  all_goals cases h

theorem cellsBytes_of_bytes?
    (h : List.Forall₂ (fun c part => c.fragment.bytes? = some part) cells parts) (ip : UInt64) :
    cellsBytes codeSize addresses pointer ip cells = .ok parts := by
  induction h generalizing ip with
  | nil => rfl
  | cons hc _ ih => rw [cellsBytes, cellBytes_of_bytes? hc, ok_bind, ih, ok_bind]; rfl

end Write

theorem writeBlock_of_bytes? {entries : List Entry} {parts : List (List UInt8)}
    (h : List.Forall₂ (fun e part => e.fragment.bytes? = some part) entries parts)
    (base : UInt64) : writeBlock codeSize base entries = .ok parts.flatten := by
  have hsettled : ∀ c ∈ entries.map (Cell.ofEntry codeSize entries), c.settled := by
    intro c hc
    obtain ⟨e, he, rfl⟩ := List.mem_map.mp hc
    obtain ⟨part, -, hpart⟩ := exists_mem_of_forall₂ h he
    exact Cell.settled_ofEntry hpart entries
  have hslot : ∀ c ∈ entries.map (Cell.ofEntry codeSize entries), c.slot? = none := by
    intro c hc
    obtain ⟨e, -, rfl⟩ := List.mem_map.mp hc
    exact Cell.slot?_ofEntry entries e
  have hbytes : List.Forall₂ (fun c part => c.fragment.bytes? = some part)
      (entries.map (Cell.ofEntry codeSize entries)) parts := by
    rw [List.forall₂_map_left_iff]
    refine h.imp fun e part hpart => ?_
    rwa [(Cell.core_ofEntry entries e).2]
  unfold writeBlock
  dsimp only
  rw [sweepAll_of_settled hsettled, writeCells]
  dsimp only
  rw [cellsBytes_of_bytes? hbytes, ok_bind, farCells_of_slot? hslot]
  rfl

end AsmLoader.Assembly
