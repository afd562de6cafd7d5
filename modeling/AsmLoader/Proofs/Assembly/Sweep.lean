import AsmLoader.Assembly.Block
import AsmLoader.Proofs.Outcome
import Mathlib.Data.List.Nodup
import Mathlib.Tactic.SplitIfs
/-!
# What sweeps keep

A sweep changes how long a cell is and how far it reaches, never what it is or where it leads.
After the first sweep every cell is as long as what will be written of it, and only a branch out
of 64-bit code goes through an address after the code. No two branches share such an address.
-/

namespace AsmLoader.Assembly

open Machine (CodeSize)

variable {codeSize : CodeSize} {c : Cell} {s : Sweep} {cells : List Cell} {slots : Nat}

/-! ## A cell -/

def Cell.core (c : Cell) : PlaceId × Fragment × Destination :=
  (c.place, c.fragment, c.destination)

/-- The cell is as long as what will be written of it. -/
def Cell.Shaped (codeSize : CodeSize) (c : Cell) : Prop :=
  match c.fragment with
  | .code encoded => c.size = encoded.size
  | .refused .. => True
  | .branch transfer _ =>
    match c.reach with
    | .unknown => False
    | .short => transfer ≠ .call ∧ c.size = shortSize
    | .near => c.size = nearSize transfer
    | .far _ => Sweep.alwaysNear codeSize c = false
  | .data bytes => c.size = bytes.length
  | .mark => c.size = 0

def Fragment.isElastic : Fragment → Bool
  | code _ | branch .. => true
  | refused .. | data _ | mark => false

/-- The cell is shaped, or the next sweep will shape it. -/
def Cell.Ready (codeSize : CodeSize) (c : Cell) : Prop :=
  c.Shaped codeSize ∨ (c.settled = false ∧ c.fragment.isElastic)

theorem Cell.ready_ofEntry (entries : List Entry) (e : Entry) :
    (ofEntry codeSize entries e).Ready codeSize := by
  unfold ofEntry
  cases hfragment : e.fragment with
  | code encoded =>
      dsimp only
      split
      next => exact .inr ⟨rfl, rfl⟩
      next => exact .inl rfl
  | refused refusal i => exact .inl trivial
  | branch transfer target => exact .inr ⟨rfl, rfl⟩
  | data bytes => exact .inl rfl
  | mark => exact .inl rfl

theorem Cell.core_ofEntry (entries : List Entry) (e : Entry) :
    (ofEntry codeSize entries e).place = e.place ∧
      (ofEntry codeSize entries e).fragment = e.fragment := by
  unfold ofEntry
  split
  next => split <;> exact ⟨rfl, by simp [*]⟩
  all_goals exact ⟨rfl, by simp [*]⟩

theorem Cell.slot?_ofEntry (entries : List Entry) (e : Entry) :
    (ofEntry codeSize entries e).slot? = none := by
  unfold ofEntry
  split
  next => split <;> rfl
  all_goals rfl

namespace Sweep

/-- What a sweep can make of a cell, with the number of addresses then. -/
inductive Shortened (codeSize : CodeSize) (slots : Nat) (c : Cell) : Cell → Nat → Prop where
  | kept (hkept : c.settled ∨ ¬c.fragment.isElastic) : Shortened codeSize slots c c slots
  | code {encoded} (hfragment : c.fragment = .code encoded) :
      Shortened codeSize slots c { c with size := encoded.size, settled := true } slots
  | short {transfer target} (hfragment : c.fragment = .branch transfer target)
      (hcall : transfer ≠ .call) :
      Shortened codeSize slots c
        { c with reach := .short, size := shortSize, settled := true } slots
  | near {transfer target} (hfragment : c.fragment = .branch transfer target) (settled : Bool) :
      Shortened codeSize slots c
        { c with reach := .near, size := nearSize transfer, settled } slots
  | stillFar {transfer target slot} (hfragment : c.fragment = .branch transfer target)
      (hfar : alwaysNear codeSize c = false) (hreach : c.reach = .far slot) :
      Shortened codeSize slots c c slots
  | far {transfer target} (hfragment : c.fragment = .branch transfer target)
      (hfar : alwaysNear codeSize c = false) :
      Shortened codeSize slots c { c with reach := .far slots } (slots + 1)

theorem shortened_makeFar {transfer : Machine.Transfer} {target : UInt64}
    (hfragment : c.fragment = .branch transfer target) (hfar : alwaysNear codeSize c = false) :
    Shortened codeSize slots c (makeFar slots c).1 (makeFar slots c).2 := by
  unfold makeFar
  split
  next hreach => exact .stillFar hfragment hfar hreach
  next => exact .far hfragment hfar

theorem shortened_shortenCall {target : UInt64} (hfragment : c.fragment = .branch .call target) :
    Shortened codeSize s.slots c (shortenCall codeSize s c).1 (shortenCall codeSize s c).2 := by
  unfold shortenCall
  dsimp only
  split
  next => exact .near hfragment true
  next hfar =>
    rw [Bool.or_eq_true, not_or, Bool.not_eq_true] at hfar
    exact shortened_makeFar hfragment hfar.1

theorem shortened_shortenJump {transfer : Machine.Transfer} {target : UInt64}
    (hfragment : c.fragment = .branch transfer target) (hcall : transfer ≠ .call) :
    Shortened codeSize s.slots c (shortenJump codeSize s transfer c).1
      (shortenJump codeSize s transfer c).2 := by
  unfold shortenJump
  dsimp only
  split
  next => exact .short hfragment hcall
  split
  next => exact .near hfragment _
  next hfar =>
    split
    next => exact .near hfragment _
    next => exact shortened_makeFar hfragment (Bool.not_eq_true _ ▸ hfar)

theorem shortened_shorten (codeSize : CodeSize) (s : Sweep) (c : Cell) :
    Shortened codeSize s.slots c (s.shorten codeSize c).1 (s.shorten codeSize c).2 := by
  unfold shorten
  split
  next hsettled => exact .kept (.inl hsettled)
  split
  next hfragment => exact .code hfragment
  next hfragment => exact shortened_shortenCall hfragment
  next hcall hfragment => exact shortened_shortenJump hfragment hcall
  all_goals
    next hfragment =>
      apply Shortened.kept
      right
      simp [hfragment, Fragment.isElastic]

theorem Shortened.core {c' : Cell} {slots' : Nat} (h : Shortened codeSize slots c c' slots') :
    c'.core = c.core := by
  cases h <;> rfl

theorem Shortened.shaped {c' : Cell} {slots' : Nat} (h : Shortened codeSize slots c c' slots')
    (hready : c.Ready codeSize) : c'.Shaped codeSize := by
  cases h with
  | kept hkept =>
      rcases hready with hshaped | ⟨hsettled, helastic⟩
      · exact hshaped
      · rcases hkept with hkept | hkept
        · simp [hsettled] at hkept
        · exact absurd helastic hkept
  | code hfragment => simp [Cell.Shaped, hfragment]
  | short hfragment hcall => simp [Cell.Shaped, hfragment, hcall]
  | near hfragment => simp [Cell.Shaped, hfragment]
  | stillFar hfragment hfar hreach => simpa [Cell.Shaped, hfragment, hreach] using hfar
  | far hfragment hfar =>
      simp only [Cell.Shaped, hfragment]
      exact hfar

theorem exists_step (codeSize : CodeSize) (s : Sweep) (c : Cell) :
    ∃ c', (s.step codeSize c).cells = s.cells.push c' ∧
      Shortened codeSize s.slots c c' (s.step codeSize c).slots := by
  have hc := shortened_shorten codeSize
    { s with addresses := s.addresses.setIfInBounds s.cells.size s.ip } c
  unfold step
  dsimp only at hc ⊢
  generalize shorten codeSize _ c = result at hc ⊢
  exact ⟨result.1, rfl, hc⟩

end Sweep

/-! ## The addresses after the code -/

/-- The addresses after the code are set aside for one branch each. -/
structure Distinct (cells : List Cell) (slots : Nat) : Prop where
  nodup : (cells.filterMap Cell.slot?).Nodup
  lt : ∀ slot ∈ cells.filterMap Cell.slot?, slot < slots

theorem Distinct.shortened {before after : List Cell} {c' : Cell} {slots' : Nat}
    (h : Distinct (before ++ c :: after) slots)
    (hc : Sweep.Shortened codeSize slots c c' slots') :
    Distinct (before ++ c' :: after) slots' := by
  have hsublist : ((before ++ after).filterMap Cell.slot?).Sublist
      ((before ++ c :: after).filterMap Cell.slot?) :=
    ((List.sublist_cons_self c after).append_left before).filterMap _
  -- A branch that has come near gives its address up.
  have hdrop (hnone : c'.slot? = none) : Distinct (before ++ c' :: after) slots := by
    have heq : (before ++ c' :: after).filterMap Cell.slot? =
        (before ++ after).filterMap Cell.slot? := by
      rw [List.filterMap_append, List.filterMap_cons_none hnone, ← List.filterMap_append]
    rw [← heq] at hsublist
    exact ⟨h.nodup.sublist hsublist, fun slot hslot => h.lt slot (hsublist.subset hslot)⟩
  cases hc with
  | kept => exact h
  | @code encoded _ =>
      have heq : (before ++ c :: after).filterMap Cell.slot? =
          (before ++ { c with size := encoded.size, settled := true } :: after).filterMap
            Cell.slot? := by
        rw [List.filterMap_append, List.filterMap_append, List.filterMap_cons,
          List.filterMap_cons]
        rfl
      exact ⟨heq ▸ h.nodup, heq ▸ h.lt⟩
  | short => exact hdrop rfl
  | near => exact hdrop rfl
  | stillFar => exact h
  | far =>
      have hperm :
          ((before ++ { c with reach := .far slots } :: after).filterMap Cell.slot?).Perm
          (slots :: (before ++ after).filterMap Cell.slot?) := by
        have hslot : Cell.slot? { c with reach := .far slots } = some slots := rfl
        rw [List.filterMap_append, List.filterMap_cons_some hslot, List.filterMap_append]
        exact List.perm_middle
      have hfresh : slots ∉ (before ++ after).filterMap Cell.slot? := by
        intro hmem
        exact Nat.lt_irrefl _ (h.lt slots (hsublist.subset hmem))
      have hnodup := List.nodup_cons.mpr ⟨hfresh, h.nodup.sublist hsublist⟩
      refine ⟨hperm.nodup_iff.mpr hnodup, ?_⟩
      intro slot hslot
      rcases List.mem_cons.mp (hperm.mem_iff.mp hslot) with rfl | hmem
      · exact Nat.lt_succ_self _
      · exact Nat.lt_succ_of_lt (h.lt slot (hsublist.subset hmem))

/-! ## Sweeps -/

namespace Sweep

/-- The cells that a sweep has gone over are what it was given, each as short as it
has become. -/
theorem foldl_step (codeSize : CodeSize) (s : Sweep) (cells : List Cell) :
    ∃ done, (cells.foldl (step codeSize) s).cells.toList = s.cells.toList ++ done ∧
      List.Forall₂ (fun c c' => ∃ slots slots', Shortened codeSize slots c c' slots')
        cells done ∧
      (Distinct (s.cells.toList ++ cells) s.slots →
        Distinct (s.cells.toList ++ done) (cells.foldl (step codeSize) s).slots) := by
  induction cells generalizing s with
  | nil => exact ⟨[], by simp, .nil, id⟩
  | cons c cells ih =>
      obtain ⟨c', hcells, hc⟩ := exists_step codeSize s c
      obtain ⟨done, hdone, hshortened, hdistinct⟩ := ih (s.step codeSize c)
      rw [hcells, Array.toList_push, List.append_assoc, List.append_assoc] at hdistinct
      rw [hcells, Array.toList_push, List.append_assoc] at hdone
      exact ⟨c' :: done, hdone, .cons ⟨_, _, hc⟩ hshortened, fun h => hdistinct (h.shortened hc)⟩

end Sweep

/-- What all sweeps together make of some cells. -/
structure Swept (codeSize : CodeSize) (cells result : List Cell) : Prop where
  core : result.map Cell.core = cells.map Cell.core
  shaped : ∀ c ∈ result, c.Shaped codeSize
  nodup : (result.filterMap Cell.slot?).Nodup

theorem Sweep.spec {s : Sweep} (hcells : s.cells = #[])
    (hready : ∀ c ∈ cells, c.Ready codeSize) (hdistinct : Distinct cells s.slots) :
    Swept codeSize cells (cells.foldl (step codeSize) s).cells.toList ∧
      Distinct (cells.foldl (step codeSize) s).cells.toList
        (cells.foldl (step codeSize) s).slots := by
  obtain ⟨done, hdone, hshortened, hdone_distinct⟩ := foldl_step codeSize s cells
  rw [hcells, List.nil_append] at hdone
  rw [hcells, List.nil_append, List.nil_append] at hdone_distinct
  rw [hdone]
  refine ⟨⟨?_, ?_, (hdone_distinct hdistinct).nodup⟩, hdone_distinct hdistinct⟩
  · clear hdone hdone_distinct hdistinct hready
    induction hshortened with
    | nil => rfl
    | cons hc _ ih =>
        obtain ⟨_, _, hc⟩ := hc
        rw [List.map_cons, List.map_cons, ih, hc.core]
  · intro c' hc'
    obtain ⟨c, hc, _, _, hshortened⟩ := exists_mem_of_forall₂ hshortened.flip hc'
    exact hshortened.shaped (hready c hc)

theorem swept_sweepAll {base : UInt64} {count : Nat} (hready : ∀ c ∈ cells, c.Ready codeSize)
    (hdistinct : Distinct cells slots) :
    Swept codeSize cells (sweepAll codeSize base (count + 1) cells slots) := by
  induction count generalizing cells slots with
  | zero =>
      rw [sweepAll]
      split
      next => exact (Sweep.spec rfl hready hdistinct).1
      next => exact (Sweep.spec rfl hready hdistinct).1
  | succ count ih =>
      rw [sweepAll]
      split
      next => exact (Sweep.spec rfl hready hdistinct).1
      next =>
        obtain ⟨hswept, hnext⟩ := Sweep.spec
          (s := ⟨base, 0, (addressesFrom base (cells.map Cell.size)).toArray, #[], slots⟩) rfl
          hready hdistinct
        have hrest := ih (fun c hc => .inl (hswept.shaped c hc)) hnext
        exact ⟨hrest.core.trans hswept.core, hrest.shaped, hrest.nodup⟩

end AsmLoader.Assembly
