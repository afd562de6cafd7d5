import AsmLoader.Proofs.Assembly.Piece
/-!
# The layout of a block

The code of a block is what is written of its entries, one after the other, and the addresses
that far branches go through. Each branch and each instruction with a reference leads to the
entry or the address that its number stands for.
-/

namespace AsmLoader.Assembly

open Machine (CodeSize landing lowBytes)

variable {codeSize : CodeSize} {base : UInt64} {code part : List UInt8}
  {parts : List (List UInt8)} {cells : List Cell} {entries : List Entry} {sizes : List Nat}

/-! ## Offsets and addresses -/

def offset (parts : List (List UInt8)) (i : Nat) : Nat :=
  (parts.take i).flatten.length

theorem offset_cons_succ (part : List UInt8) (parts : List (List UInt8)) (i : Nat) :
    offset (part :: parts) (i + 1) = part.length + offset parts i := by
  simp [offset]

theorem offset_length (parts : List (List UInt8)) :
    offset parts parts.length = parts.flatten.length := by
  rw [offset, List.take_length]

theorem offset_succ {i : Nat} (h : parts[i]? = some part) :
    offset parts (i + 1) = offset parts i + part.length := by
  rw [offset, List.take_add_one, h, List.flatten_append, List.length_append, offset]
  simp

theorem offset_le (parts : List (List UInt8)) (i : Nat) :
    offset parts i ≤ parts.flatten.length := by
  conv_rhs => rw [← List.take_append_drop i parts, List.flatten_append, List.length_append]
  exact Nat.le_add_right _ _

theorem total_take_map_length (parts : List (List UInt8)) (i : Nat) :
    total ((parts.map List.length).take i) = offset parts i := by
  induction parts generalizing i with
  | nil => cases i <;> rfl
  | cons part parts ih =>
      cases i with
      | zero => rfl
      | succ i =>
          rw [offset_cons_succ, ← ih]
          rfl

theorem total_map_length (parts : List (List UInt8)) :
    total (parts.map List.length) = parts.flatten.length := by
  have htotal := total_take_map_length parts parts.length
  rwa [offset_length, List.take_of_length_le (by simp)] at htotal

theorem getElem?_addressesFrom (base : UInt64) {i : Nat} (hi : i < sizes.length) :
    (addressesFrom base sizes)[i]? = some (base + UInt64.ofNat (total (sizes.take i))) := by
  induction sizes generalizing base i with
  | nil => cases hi
  | cons size sizes ih =>
      cases i with
      | zero => simp [addressesFrom, total]
      | succ i =>
          rw [addressesFrom, List.getElem?_cons_succ, ih _ (Nat.lt_of_succ_lt_succ hi)]
          rw [List.take_succ_cons, total, UInt64.ofNat_add, UInt64.add_assoc]

/-! ## The parts -/

/-- What is written of cells is as long as they are, and each part leads where its cell does. -/
theorem cellsBytes_spec {addresses : Array UInt64} {pointer : Nat → UInt64} {ip : UInt64}
    (hshaped : ∀ c ∈ cells, c.Shaped codeSize)
    (h : cellsBytes codeSize addresses pointer ip cells = .ok parts) :
    parts.map List.length = cells.map Cell.size ∧
      ∀ (i : Nat) (c : Cell), cells[i]? = some c → ∃ part d, parts[i]? = some part ∧
        c.fragment.Written part d ∧ c.Leads codeSize pointer
          (ip + UInt64.ofNat (offset parts (i + 1))) (c.destination.resolve addresses) d := by
  induction cells generalizing ip parts with
  | nil =>
      cases h
      exact ⟨rfl, fun i c hc => by simp at hc⟩
  | cons c cells ih =>
      obtain ⟨part, hpart, h⟩ := bind_eq_ok_iff.mp h
      obtain ⟨rest, hrest, h⟩ := bind_eq_ok_iff.mp h
      cases h
      obtain ⟨hsize, d, hwritten, hleads⟩ :=
        written_cellBytes (hshaped c List.mem_cons_self) hpart
      obtain ⟨hsizes, hparts⟩ := ih (fun c hc => hshaped c (List.mem_cons_of_mem _ hc)) hrest
      refine ⟨by rw [List.map_cons, List.map_cons, hsize, hsizes], ?_⟩
      intro i c' hc'
      cases i with
      | zero =>
          cases hc'
          refine ⟨part, d, rfl, hwritten, ?_⟩
          simpa [offset, hsize] using hleads
      | succ i =>
          obtain ⟨part', d', hpart', hwritten', hleads'⟩ := hparts i c' hc'
          refine ⟨part', d', hpart', hwritten', ?_⟩
          rwa [offset_cons_succ, hsize, UInt64.ofNat_add, ← UInt64.add_assoc]

/-! ## The addresses after the code -/

theorem Cell.slot?_eq_some {c : Cell} {slot : Nat} :
    c.slot? = some slot ↔ c.reach = .far slot := by
  unfold slot?
  split <;> simp_all

theorem mem_farCells {c : Cell} : c ∈ farCells cells ↔ c ∈ cells ∧ c.slot?.isSome := by
  rw [farCells, List.mem_mergeSort, List.mem_filter]

theorem farCells_of_slot? (h : ∀ c ∈ cells, c.slot? = none) : farCells cells = [] := by
  rw [List.eq_nil_iff_forall_not_mem]
  intro c hc
  obtain ⟨hmem, hslot⟩ := mem_farCells.mp hc
  simp [h c hmem] at hslot

theorem filterMap_farCells_perm (cells : List Cell) :
    ((farCells cells).filterMap Cell.slot?).Perm (cells.filterMap Cell.slot?) := by
  have hperm : (farCells cells).Perm (cells.filter fun c => c.slot?.isSome) :=
    List.mergeSort_perm _ _
  refine (hperm.filterMap _).trans (List.Perm.of_eq ?_)
  rw [List.filterMap_filter]
  congr 1
  funext c
  cases c.slot? <;> rfl

theorem pairwise_slots_farCells (hnodup : (cells.filterMap Cell.slot?).Nodup) :
    ((farCells cells).filterMap Cell.slot?).Pairwise (· < ·) := by
  have hsorted : ((farCells cells).filterMap Cell.slot?).Pairwise (· ≤ ·) := by
    rw [List.pairwise_filterMap]
    refine List.Pairwise.imp ?_ (List.pairwise_mergeSort ?_ ?_
      (cells.filter fun c => c.slot?.isSome))
    · intro a b hle x hx y hy
      simpa [hx, hy] using hle
    · intro a b c
      simp only [decide_eq_true_eq]
      exact Nat.le_trans
    · intro a b
      simp only [Bool.or_eq_true, decide_eq_true_eq]
      exact Nat.le_total _ _
  have hstrict := hsorted.and ((filterMap_farCells_perm cells).nodup_iff.mpr hnodup)
  exact hstrict.imp fun h => Nat.lt_of_le_of_ne h.1 h.2

theorem countP_lt_of_pairwise {xs : List Nat} (h : xs.Pairwise (· < ·)) {k x : Nat}
    (hx : xs[k]? = some x) : xs.countP (· < x) = k := by
  induction xs generalizing k with
  | nil => cases hx
  | cons y xs ih =>
      rw [List.pairwise_cons] at h
      rw [List.countP_cons]
      cases k with
      | zero =>
          cases hx
          have hnone : xs.countP (· < x) = 0 := by
            rw [List.countP_eq_zero]
            intro z hz
            simpa using Nat.le_of_lt (h.1 z hz)
          simp [hnone]
      | succ k =>
          have hlt : y < x := h.1 x (List.mem_of_getElem? hx)
          rw [ih h.2 hx, if_pos (decide_eq_true hlt)]

theorem getElem?_filterMap_slot? (h : ∀ c ∈ cells, c.slot?.isSome) (k : Nat) :
    (cells.filterMap Cell.slot?)[k]? = cells[k]?.bind Cell.slot? := by
  induction cells generalizing k with
  | nil => rfl
  | cons c cells ih =>
      obtain ⟨slot, hslot⟩ := Option.isSome_iff_exists.mp (h c List.mem_cons_self)
      rw [List.filterMap_cons_some hslot]
      cases k with
      | zero => exact hslot.symm
      | succ k => exact ih (fun c hc => h c (List.mem_cons_of_mem _ hc)) k

theorem take_drop_flatMap {α : Type} {f : α → List UInt8} {size : Nat}
    (hf : ∀ x, (f x).length = size) {xs : List α} {k : Nat} {x : α} (hx : xs[k]? = some x) :
    ((xs.flatMap f).drop (size * k)).take size = f x := by
  induction xs generalizing k with
  | nil => cases hx
  | cons y xs ih =>
      rw [List.flatMap_cons]
      cases k with
      | zero =>
          cases hx
          rw [Nat.mul_zero, List.drop_zero, List.take_append_of_le_length (by rw [hf]),
            List.take_of_length_le (by rw [hf])]
      | succ k =>
          have hdrop : (f y).drop size = [] := List.drop_eq_nil_of_le (by rw [hf])
          rw [Nat.mul_succ, Nat.add_comm, ← List.drop_drop,
            List.drop_append_of_le_length (by rw [hf]), hdrop, List.nil_append]
          exact ih hx

def appended (base : UInt64) (addresses : Array UInt64) (parts : List (List UInt8))
    (cells : List Cell) : List UInt8 :=
  if (farCells cells).isEmpty then []
  else
    List.replicate (paddingLength (base + UInt64.ofNat parts.flatten.length)) paddingByte ++
      (farCells cells).flatMap fun c => lowBytes 8 (c.destination.resolve addresses).toNat

def pointerOffset (base : UInt64) (parts : List (List UInt8)) (cells : List Cell) (slot : Nat) :
    Nat :=
  parts.flatten.length + (paddingLength (base + UInt64.ofNat parts.flatten.length) +
    8 * ((farCells cells).filterMap Cell.slot?).countP (· < slot))

/-- The eight bytes that a far branch goes through hold its destination. -/
theorem take_drop_pointerOffset {addresses : Array UInt64} {c : Cell} {slot : Nat}
    (hnodup : (cells.filterMap Cell.slot?).Nodup) (hc : c ∈ cells)
    (hslot : c.slot? = some slot) : ((parts.flatten ++ appended base addresses parts cells).drop
      (pointerOffset base parts cells slot)).take 8 =
        lowBytes 8 (c.destination.resolve addresses).toNat := by
  have hfar : c ∈ farCells cells := mem_farCells.mpr ⟨hc, by rw [hslot]; rfl⟩
  obtain ⟨k, hk⟩ := List.getElem?_of_mem hfar
  have hsome : ((farCells cells).filterMap Cell.slot?)[k]? = some slot := by
    rw [getElem?_filterMap_slot? (fun c hc => (mem_farCells.mp hc).2), hk]
    exact hslot
  have hcount := countP_lt_of_pairwise (pairwise_slots_farCells hnodup) hsome
  have hne : ¬(farCells cells).isEmpty := by
    intro hempty
    rw [List.isEmpty_iff.mp hempty] at hfar
    cases hfar
  rw [pointerOffset, hcount, appended, if_neg hne, ← List.drop_drop, List.drop_left,
    ← List.drop_drop, List.drop_left' List.length_replicate]
  exact take_drop_flatMap (fun c => Machine.length_lowBytes 8 _) hk

/-! ## Where numbers lead -/

def Destination.addressIn (base : UInt64) (parts : List (List UInt8)) : Destination → UInt64
  | inside index shift => base + UInt64.ofNat (offset parts index) + UInt64.ofNat shift
  | address a => a

theorem lt_length_of_destinationOf {target : UInt64} {index shift : Nat}
    (h : destinationOf entries target = .inside index shift) : index < entries.length := by
  have hfound {p : Entry → Bool} {i : Nat} (h : entries.findIdx? p = some i) :
      i < entries.length := (List.findIdx?_eq_some_iff_getElem.mp h).1
  unfold destinationOf unnamedDestination at h
  split at h
  next =>
    split at h
    next =>
      split at h
      next hfind =>
        cases h
        exact hfound hfind
      next => cases h
    next => cases h
  next =>
    split at h
    next hfind =>
      cases h
      exact hfound hfind
    next => cases h

theorem resolve_destinationOf (base : UInt64) (hsizes : parts.map List.length = sizes)
    (hlength : parts.length = entries.length) (target : UInt64) :
    (destinationOf entries target).resolve (addressesFrom base sizes).toArray =
      (destinationOf entries target).addressIn base parts := by
  cases hdestination : destinationOf entries target with
  | address a => rfl
  | inside index shift =>
      have hindex : index < sizes.length := by
        rw [← hsizes, List.length_map, hlength]
        exact lt_length_of_destinationOf hdestination
      have haddress := getElem?_addressesFrom base hindex
      rw [← hsizes, total_take_map_length] at haddress
      rw [Destination.resolve, Destination.addressIn, ← hsizes, Array.getD_eq_getD_getElem?,
        List.getElem?_toArray, haddress, Option.getD_some]

theorem destination_ofEntry {e : Entry} {target : UInt64}
    (h : e.fragment.target? codeSize = some target) :
    (Cell.ofEntry codeSize entries e).destination = destinationOf entries target := by
  unfold Cell.ofEntry
  cases hfragment : e.fragment with
  | code encoded =>
      have htarget : encoded.target = some target := by
        simpa [hfragment, Fragment.target?] using h
      simp [htarget]
  | branch transfer number =>
      have htarget : codeSize.truncate number = target := by
        simpa [hfragment, Fragment.target?] using h
      simp [htarget]
  | refused refusal i => simp [hfragment, Fragment.target?] at h
  | data bytes => simp [hfragment, Fragment.target?] at h
  | mark => simp [hfragment, Fragment.target?] at h

/-- Whether a displacement leads from the end of its instruction to an address: by itself, or
through eight bytes of the code that hold the address. -/
def Displacement.LeadsTo (codeSize : CodeSize) (base : UInt64) (code : List UInt8)
    (next target : UInt64) : Displacement → Prop
  | absent => False
  | direct field => codeSize.truncate (landing next field) = codeSize.truncate target
  | through field => ∃ o, landing next field = base + UInt64.ofNat o ∧
      (code.drop o).take 8 = lowBytes 8 target.toNat

/-- Code is what is written of some entries, and each of them leads where its number does. -/
structure Laid (codeSize : CodeSize) (base : UInt64) (entries : List Entry)
    (parts : List (List UInt8)) (code : List UInt8) : Prop where
  starts : parts.flatten <+: code
  length_eq : parts.length = entries.length
  written : ∀ (i : Nat) (e : Entry), entries[i]? = some e → ∃ part d, parts[i]? = some part ∧
    e.fragment.Written part d ∧ ∀ target, e.fragment.target? codeSize = some target →
      d.LeadsTo codeSize base code (base + UInt64.ofNat (offset parts (i + 1)))
          ((destinationOf entries target).addressIn base parts) ∧
        (codeSize = .bits32 ∨ (destinationOf entries target).isInside →
          ∃ field, d = .direct field)

theorem Cell.Leads.leadsTo {pointer : Nat → UInt64} {next target : UInt64} {c : Cell}
    {d : Displacement} (h : c.Leads codeSize pointer next target d)
    (hpointer : ∀ slot, c.slot? = some slot → ∃ o, pointer slot = base + UInt64.ofNat o ∧
      (code.drop o).take 8 = lowBytes 8 target.toNat)
    (htarget : c.fragment.target? codeSize ≠ none) :
    d.LeadsTo codeSize base code next target ∧
      (codeSize = .bits32 ∨ c.destination.isInside → ∃ field, d = .direct field) := by
  cases h with
  | absent hnone => exact absurd hnone htarget
  | direct hlanding => exact ⟨hlanding, fun _ => ⟨_, rfl⟩⟩
  | through hreach hfar hlanding =>
      obtain ⟨o, ho, htake⟩ := hpointer _ (Cell.slot?_eq_some.mpr hreach)
      refine ⟨⟨o, hlanding.trans ho, htake⟩, ?_⟩
      intro hnear
      rw [Sweep.alwaysNear, Bool.or_eq_false_iff] at hfar
      rcases hnear with rfl | hinside
      · simp at hfar
      · simp [hinside] at hfar

theorem writeCells_eq_ok {cells : List Cell} (hshaped : ∀ c ∈ cells, c.Shaped codeSize)
    (h : writeCells codeSize base cells = .ok code) :
    ∃ parts pointer,
      cellsBytes codeSize (addressesFrom base (cells.map Cell.size)).toArray pointer base cells =
          .ok parts ∧
        (∀ slot, pointer slot = base + UInt64.ofNat (pointerOffset base parts cells slot)) ∧
        code = parts.flatten ++
          appended base (addressesFrom base (cells.map Cell.size)).toArray parts cells := by
  obtain ⟨parts, hparts, h⟩ := bind_eq_ok_iff.mp h
  have htotal : total (cells.map Cell.size) = parts.flatten.length := by
    rw [← (cellsBytes_spec hshaped hparts).1, total_map_length]
  refine ⟨parts, _, hparts, ?_, ?_⟩
  · intro slot
    rw [htotal, pointerOffset, UInt64.add_assoc, ← UInt64.ofNat_add]
  · rw [htotal] at h
    unfold appended
    split at h
    next hempty =>
      cases h
      rw [if_pos hempty, List.append_nil]
    next hempty =>
      cases h
      rw [if_neg hempty, List.append_assoc]

theorem laid_of_cellsBytes {cells : List Cell} {pointer : Nat → UInt64}
    (hswept : Swept codeSize (entries.map (Cell.ofEntry codeSize entries)) cells)
    (hparts : cellsBytes codeSize (addressesFrom base (cells.map Cell.size)).toArray pointer base
      cells = .ok parts)
    (hpointer : ∀ slot, pointer slot = base + UInt64.ofNat
      (pointerOffset base parts cells slot)) :
    Laid codeSize base entries parts (parts.flatten ++
      appended base (addressesFrom base (cells.map Cell.size)).toArray parts cells) := by
  obtain ⟨hsizes, hwritten⟩ := cellsBytes_spec hswept.shaped hparts
  have hlength : parts.length = entries.length := by
    have hcells := congrArg List.length hswept.core
    have hparts := congrArg List.length hsizes
    simp only [List.length_map] at hcells hparts
    rw [hparts, hcells]
  refine ⟨List.prefix_append _ _, hlength, ?_⟩
  intro i e he
  obtain ⟨c, hc, hcore⟩ : ∃ c, cells[i]? = some c ∧
      c.core = (Cell.ofEntry codeSize entries e).core := by
    have hget := congrArg (·[i]?) hswept.core
    simpa [he] using hget
  simp only [Cell.core, Prod.mk.injEq] at hcore
  have hfragment : c.fragment = e.fragment :=
    hcore.2.1.trans (Cell.core_ofEntry entries e).2
  obtain ⟨part, d, hpart, hd, hleads⟩ := hwritten i c hc
  rw [hfragment] at hd
  refine ⟨part, d, hpart, hd, ?_⟩
  intro target htarget
  have hdestination : c.destination = destinationOf entries target :=
    hcore.2.2.trans (destination_ofEntry htarget)
  have haddress := resolve_destinationOf base hsizes hlength target
  rw [← hdestination] at haddress ⊢
  rw [haddress] at hleads
  refine hleads.leadsTo (fun slot hslot => ⟨_, hpointer slot, ?_⟩) (by simp [hfragment, htarget])
  rw [take_drop_pointerOffset hswept.nodup (List.mem_of_getElem? hc) hslot, haddress]

theorem swept_ofEntries (codeSize : CodeSize) (base : UInt64) (entries : List Entry) :
    Swept codeSize (entries.map (Cell.ofEntry codeSize entries))
      (sweepAll codeSize base maxSweeps (entries.map (Cell.ofEntry codeSize entries)) 0) := by
  apply swept_sweepAll
  · intro c hc
    obtain ⟨e, -, rfl⟩ := List.mem_map.mp hc
    exact Cell.ready_ofEntry entries e
  · have hnone : (entries.map (Cell.ofEntry codeSize entries)).filterMap Cell.slot? = [] := by
      rw [List.filterMap_eq_nil_iff]
      intro c hc
      obtain ⟨e, -, rfl⟩ := List.mem_map.mp hc
      exact Cell.slot?_ofEntry entries e
    exact ⟨hnone ▸ List.nodup_nil, by simp [hnone]⟩

theorem exists_laid (h : writeBlock codeSize base entries = .ok code) :
    ∃ parts, Laid codeSize base entries parts code := by
  have hswept := swept_ofEntries codeSize base entries
  obtain ⟨parts, pointer, hparts, hpointer, rfl⟩ := writeCells_eq_ok hswept.shaped h
  exact ⟨parts, laid_of_cellsBytes hswept hparts hpointer⟩

end AsmLoader.Assembly
