import AsmLoader.Proofs.Assembly.Rejection
import AsmLoader.Proofs.Assembly.Selects
/-!
# Relocation

Distances inside a block do not change when the whole block moves. A block whose branches and
references all stay inside it therefore has the same bytes wherever it stands, and so has 64-bit
code of a source whose branches all name labels. No string has 2^63 characters, so that the
places of a source have different numbers.
-/

namespace AsmLoader.Assembly

open Machine (CodeSize)
open Source (Operand Statement)

/-! ## Addresses that move together -/

theorem add_right_comm (a b c : UInt64) : a + b + c = a + c + b := by
  rw [UInt64.add_assoc, UInt64.add_comm b c, ← UInt64.add_assoc]

theorem add_sub_add_right (a b c : UInt64) : (a + c) - (b + c) = a - b := by
  grind

theorem addressesFrom_add (base delta : UInt64) (sizes : List Nat) :
    addressesFrom (base + delta) sizes = (addressesFrom base sizes).map (· + delta) := by
  induction sizes generalizing base with
  | nil => rfl
  | cons size sizes ih =>
      rw [addressesFrom, addressesFrom, List.map_cons, ← ih, add_right_comm]

theorem length_addressesFrom (base : UInt64) (sizes : List Nat) :
    (addressesFrom base sizes).length = sizes.length := by
  induction sizes generalizing base with
  | nil => rfl
  | cons size sizes ih => rw [addressesFrom, List.length_cons, ih, List.length_cons]

theorem distance_add (codeSize : CodeSize) (target next delta : UInt64) :
    distance codeSize (target + delta) (next + delta) = distance codeSize target next := by
  unfold distance
  rw [add_sub_add_right]

def Destination.Within (count : Nat) (d : Destination) : Prop :=
  ∃ index shift, d = .inside index shift ∧ index < count

theorem Destination.Within.isInside {count : Nat} {d : Destination} (h : d.Within count) :
    d.isInside := by
  obtain ⟨index, shift, rfl, -⟩ := h
  rfl

theorem Destination.Within.resolve_add {addresses : Array UInt64} {d : Destination}
    (h : d.Within addresses.size) (delta : UInt64) :
    d.resolve (addresses.map (· + delta)) = d.resolve addresses + delta := by
  obtain ⟨index, shift, rfl, hindex⟩ := h
  simp only [Destination.resolve, Array.getD_eq_getD_getElem?, Array.getElem?_map,
    Array.getElem?_eq_getElem hindex, Option.map_some, Option.getD_some]
  exact add_right_comm _ _ _

section Block

variable {codeSize : CodeSize} {base delta : UInt64} {count : Nat} {c : Cell} {s : Sweep}
  {cells : List Cell}

/-- A cell that leads somewhere leads into the block, and not through an address after
the code. -/
structure Cell.Tied (codeSize : CodeSize) (count : Nat) (c : Cell) : Prop where
  within : c.fragment.target? codeSize ≠ none → c.destination.Within count
  slot?_eq_none : c.slot? = none

theorem Cell.Tied.within_of_branch (h : c.Tied codeSize count) {transfer : Machine.Transfer}
    {target : UInt64} (hfragment : c.fragment = .branch transfer target) :
    c.destination.Within count := by
  apply h.within
  simp [hfragment, Fragment.target?]

/-! ## Sweeps -/

namespace Sweep

def shift (delta : UInt64) (s : Sweep) : Sweep :=
  { s with ip := s.ip + delta, addresses := s.addresses.map (· + delta) }

theorem saved_shift (delta : UInt64) (s : Sweep) : (s.shift delta).saved = s.saved := rfl

theorem distanceAt_shift (h : c.destination.Within s.addresses.size) (size : Nat) :
    (s.shift delta).distanceAt codeSize c size = s.distanceAt codeSize c size := by
  have htarget := h.resolve_add delta
  have hnext : s.ip + delta + UInt64.ofNat size = s.ip + UInt64.ofNat size + delta :=
    add_right_comm _ _ _
  simp only [distanceAt, expectedDistance, shift, htarget, hnext, add_sub_add_right]

theorem shorten_shift (h : c.Tied codeSize s.addresses.size) :
    (s.shift delta).shorten codeSize c = s.shorten codeSize c := by
  unfold shorten
  split
  next => rfl
  split
  next => rfl
  next hfragment =>
    have hdistance (size : Nat) :
        (s.shift delta).distanceAt codeSize c size = s.distanceAt codeSize c size :=
      distanceAt_shift (h.within_of_branch hfragment) size
    simp only [shortenCall, hdistance]
    rfl
  next hfragment =>
    have hdistance (size : Nat) :
        (s.shift delta).distanceAt codeSize c size = s.distanceAt codeSize c size :=
      distanceAt_shift (h.within_of_branch hfragment) size
    simp only [shortenJump, hdistance]
    rfl
  all_goals rfl

theorem size_addresses_step (codeSize : CodeSize) (s : Sweep) (c : Cell) :
    (s.step codeSize c).addresses.size = s.addresses.size :=
  Array.size_setIfInBounds

theorem step_shift (h : c.Tied codeSize s.addresses.size) :
    (s.shift delta).step codeSize c = (s.step codeSize c).shift delta := by
  have haddresses : (s.addresses.map (· + delta)).setIfInBounds s.cells.size (s.ip + delta) =
      (s.addresses.setIfInBounds s.cells.size s.ip).map (· + delta) :=
    Array.map_setIfInBounds.symm
  have hsize : c.Tied codeSize (s.addresses.setIfInBounds s.cells.size s.ip).size := by
    rwa [Array.size_setIfInBounds]
  let entered : Sweep := { s with addresses := s.addresses.setIfInBounds s.cells.size s.ip }
  have hshorten : (entered.shift delta).shorten codeSize c = entered.shorten codeSize c :=
    shorten_shift hsize
  simp only [step, shift, haddresses, entered] at hshorten ⊢
  simp only [hshorten, add_right_comm]

theorem foldl_shift (h : ∀ c ∈ cells, c.Tied codeSize s.addresses.size) :
    cells.foldl (step codeSize) (s.shift delta) =
      (cells.foldl (step codeSize) s).shift delta := by
  induction cells generalizing s with
  | nil => rfl
  | cons c cells ih =>
      rw [List.foldl_cons, List.foldl_cons, step_shift (h c List.mem_cons_self)]
      apply ih
      intro c' hc'
      rw [size_addresses_step]
      exact h c' (List.mem_cons_of_mem c hc')

theorem Shortened.tied {slots slots' : Nat} {c' : Cell}
    (hshortened : Shortened codeSize slots c c' slots') (h : c.Tied codeSize count) :
    c'.Tied codeSize count := by
  have hcore := hshortened.core
  simp only [Cell.core, Prod.mk.injEq] at hcore
  refine ⟨?_, ?_⟩
  · rw [hcore.2.1, hcore.2.2]
    exact h.within
  · have hslot := h.slot?_eq_none
    cases hshortened with
    | kept => exact hslot
    | code => exact hslot
    | short => rfl
    | near => rfl
    | stillFar => exact hslot
    | far hfragment hfar =>
        have hinside := (h.within_of_branch hfragment).isInside
        simp [alwaysNear, hinside] at hfar

theorem tied_foldl_step (hcells : s.cells = #[]) (h : ∀ c ∈ cells, c.Tied codeSize count) :
    (cells.foldl (step codeSize) s).cells.toList.length = cells.length ∧
      ∀ c ∈ (cells.foldl (step codeSize) s).cells.toList, c.Tied codeSize count := by
  obtain ⟨done, hdone, hshortened, -⟩ := foldl_step codeSize s cells
  rw [hcells, List.nil_append] at hdone
  rw [hdone]
  refine ⟨hshortened.length_eq.symm, ?_⟩
  intro c' hc'
  obtain ⟨c, hc, slots, slots', hstep⟩ := exists_mem_of_forall₂ hshortened.flip hc'
  exact hstep.tied (h c hc)

end Sweep

theorem sweepAll_shift {sweeps slots : Nat} (h : ∀ c ∈ cells, c.Tied codeSize cells.length) :
    sweepAll codeSize (base + delta) sweeps cells slots =
      sweepAll codeSize base sweeps cells slots ∧
      (sweepAll codeSize base sweeps cells slots).length = cells.length ∧
      ∀ c ∈ sweepAll codeSize base sweeps cells slots, c.Tied codeSize cells.length := by
  induction sweeps generalizing cells slots with
  | zero => exact ⟨rfl, rfl, h⟩
  | succ sweeps ih =>
      have hlength : (addressesFrom base (cells.map Cell.size)).toArray.size = cells.length := by
        rw [List.size_toArray, length_addressesFrom, List.length_map]
      have hstart :
          (⟨base + delta, 0, (addressesFrom (base + delta) (cells.map Cell.size)).toArray, #[],
            slots⟩ : Sweep) =
          (⟨base, 0, (addressesFrom base (cells.map Cell.size)).toArray, #[], slots⟩ :
            Sweep).shift
            delta := by
        rw [Sweep.shift, addressesFrom_add, List.map_toArray]
      obtain ⟨hsame, htied⟩ := Sweep.tied_foldl_step
        (s := ⟨base, 0, (addressesFrom base (cells.map Cell.size)).toArray, #[], slots⟩) rfl h
      rw [sweepAll, sweepAll, hstart, Sweep.foldl_shift (hlength ▸ h)]
      generalize cells.foldl (Sweep.step codeSize) ⟨base, 0, _, #[], slots⟩ = swept
        at hsame htied ⊢
      have hshift := swept.saved_shift delta
      by_cases hsaved : swept.saved = 0
      · rw [if_pos (hshift.trans hsaved), if_pos hsaved]
        exact ⟨rfl, hsame, htied⟩
      · rw [if_neg (hshift ▸ hsaved), if_neg hsaved]
        obtain ⟨hrest, hlength, hrest_tied⟩ := @ih swept.cells.toList swept.slots (hsame ▸ htied)
        exact ⟨hrest, hlength.trans hsame, hsame ▸ hrest_tied⟩

/-! ## The bytes of a block -/

theorem branchBytes_shift {pointer pointer' : Nat → UInt64} {ip target : UInt64}
    {transfer : Machine.Transfer} {bytes : List UInt8} (hslot : c.slot? = none)
    (h : branchBytes codeSize pointer ip target c transfer = .ok bytes) :
    branchBytes codeSize pointer' (ip + delta) (target + delta) c transfer = .ok bytes := by
  have hnext : ip + delta + UInt64.ofNat c.size = ip + UInt64.ofNat c.size + delta :=
    add_right_comm _ _ _
  unfold branchBytes at h ⊢
  simp only [hnext, distance_add] at h ⊢
  cases hreach : c.reach with
  | far slot => simp [Cell.slot?, hreach] at hslot
  | short | unknown | near =>
      simp only [hreach] at h ⊢
      split at h
      next hfits => rwa [if_pos hfits]
      next => cases h

theorem cellBytes_shift {addresses : Array UInt64} {pointer pointer' : Nat → UInt64}
    {ip : UInt64} {bytes : List UInt8} (hc : c.Tied codeSize addresses.size)
    (h : cellBytes codeSize addresses pointer ip c = .ok bytes) :
    cellBytes codeSize (addresses.map (· + delta)) pointer' (ip + delta) c = .ok bytes := by
  have hnext : ip + delta + UInt64.ofNat c.size = ip + UInt64.ofNat c.size + delta :=
    add_right_comm _ _ _
  unfold cellBytes at h ⊢
  cases hfragment : c.fragment with
  | code encoded =>
      simp only [hfragment] at h ⊢
      cases htarget : encoded.target with
      | none => simpa only [htarget] using h
      | some target =>
          have hwithin := hc.within (by simp [hfragment, Fragment.target?, htarget])
          simp only [htarget, hwithin.resolve_add, hnext, add_sub_add_right] at h ⊢
          split at h
          next hfits => rwa [if_pos hfits]
          next => cases h
  | refused refusal i =>
      simp only [hfragment] at h
      cases h
  | branch transfer target =>
      simp only [hfragment, (hc.within_of_branch hfragment).resolve_add] at h ⊢
      exact branchBytes_shift hc.slot?_eq_none h
  | data bytes => simpa only [hfragment] using h
  | mark => simpa only [hfragment] using h

theorem cellsBytes_shift {addresses : Array UInt64} {pointer pointer' : Nat → UInt64}
    {ip : UInt64}
    {parts : List (List UInt8)} (hcells : ∀ c ∈ cells, c.Tied codeSize addresses.size)
    (h : cellsBytes codeSize addresses pointer ip cells = .ok parts) :
    cellsBytes codeSize (addresses.map (· + delta)) pointer' (ip + delta) cells = .ok parts := by
  induction cells generalizing ip parts with
  | nil => exact h
  | cons c cells ih =>
      obtain ⟨bytes, hbytes, h⟩ := bind_eq_ok_iff.mp h
      obtain ⟨more, hmore, h⟩ := bind_eq_ok_iff.mp h
      cases h
      have hrest := ih (fun c' hc' => hcells c' (List.mem_cons_of_mem c hc')) hmore
      rw [cellsBytes, cellBytes_shift (hcells c List.mem_cons_self) hbytes, ok_bind,
        add_right_comm, hrest]
      rfl

theorem writeCells_shift {code : List UInt8} (hcells : ∀ c ∈ cells, c.Tied codeSize cells.length)
    (h : writeCells codeSize base cells = .ok code) :
    writeCells codeSize (base + delta) cells = .ok code := by
  have hlength : (addressesFrom base (cells.map Cell.size)).toArray.size = cells.length := by
    rw [List.size_toArray, length_addressesFrom, List.length_map]
  obtain ⟨parts, hparts, h⟩ := bind_eq_ok_iff.mp h
  unfold writeCells
  dsimp only at h ⊢
  rw [addressesFrom_add, ← List.map_toArray, cellsBytes_shift (hlength ▸ hcells) hparts, ok_bind]
  rw [farCells_of_slot? fun c hc => (hcells c hc).slot?_eq_none] at h ⊢
  exact h

def LeadsInside (codeSize : CodeSize) (entries : List Entry) : Prop :=
  ∀ e ∈ entries, ∀ target, e.fragment.target? codeSize = some target →
    (destinationOf entries target).isInside

theorem LeadsInside.tied {entries : List Entry} (h : LeadsInside codeSize entries) :
    ∀ c ∈ entries.map (Cell.ofEntry codeSize entries),
      c.Tied codeSize (entries.map (Cell.ofEntry codeSize entries)).length := by
  intro c hc
  obtain ⟨e, he, rfl⟩ := List.mem_map.mp hc
  refine ⟨?_, Cell.slot?_ofEntry entries e⟩
  rw [(Cell.core_ofEntry entries e).2, List.length_map]
  intro htarget
  obtain ⟨target, htarget⟩ := Option.ne_none_iff_exists'.mp htarget
  have hdestination := h e he target htarget
  rw [destination_ofEntry htarget]
  cases hd : destinationOf entries target with
  | inside index offset => exact ⟨index, offset, rfl, lt_length_of_destinationOf hd⟩
  | address a => simp [hd, Destination.isInside] at hdestination

/-- A block whose entries lead only into it has the same bytes wherever it stands. -/
theorem writeBlock_shift {entries : List Entry} {code : List UInt8}
    (hinside : LeadsInside codeSize entries) (h : writeBlock codeSize base entries = .ok code) :
    writeBlock codeSize (base + delta) entries = .ok code := by
  obtain ⟨hsweeps, hlength, hswept⟩ :=
    @sweepAll_shift codeSize base delta _ maxSweeps 0 hinside.tied
  rw [← hlength] at hswept
  unfold writeBlock at h ⊢
  dsimp only at h ⊢
  rw [hsweeps]
  exact writeCells_shift hswept h

theorem exists_laid_flatten {entries : List Entry} {code : List UInt8}
    (hinside : LeadsInside codeSize entries) (h : writeBlock codeSize base entries = .ok code) :
    ∃ parts, Laid codeSize base entries parts code ∧ code = parts.flatten := by
  have hswept := swept_ofEntries codeSize base entries
  obtain ⟨-, -, htied⟩ := @sweepAll_shift codeSize base 0 _ maxSweeps 0 hinside.tied
  obtain ⟨parts, pointer, hparts, hpointer, rfl⟩ := writeCells_eq_ok hswept.shaped h
  refine ⟨parts, laid_of_cellsBytes hswept hparts hpointer, ?_⟩
  rw [appended, farCells_of_slot? fun c hc => (htied c hc).slot?_eq_none]
  exact List.append_nil _

end Block

/-! ## What statements lead to -/

theorem Argument.reference?_ofPlace (p : Machine.Place PlaceId) :
    (Argument.ofPlace p).reference? = p.reference? := by
  cases p <;> rfl

theorem Argument.At.reference?_eq {w : Machine.Width} {a : Argument} {p : Machine.Place PlaceId}
    (h : a.At w p) : p.reference? = a.reference? := by
  cases h <;> rfl

theorem Selects.reference?_cases {codeSize : CodeSize} {m : Mnemonic} {args : List Argument}
    {selected : Selected} (h : Selects codeSize m args selected) {number : UInt64}
    (hnumber : selected.reference? = some number) :
    (∃ a ∈ args, a.reference? = some number) ∨
      ∃ value transfer, args = [.immediate value] ∧ m.transfer? = some transfer := by
  have first {a : Argument} {rest : List Argument} (ha : a.reference? = some number) :
      ∃ a' ∈ a :: rest, a'.reference? = some number := ⟨a, List.mem_cons_self, ha⟩
  have second {a b : Argument} {rest : List Argument} (hb : b.reference? = some number) :
      ∃ a' ∈ a :: b :: rest, a'.reference? = some number :=
    ⟨b, List.mem_cons_of_mem a List.mem_cons_self, hb⟩
  cases h with
  | bare | retPop | movFull | movRegister | imulImmediate | pushImmediate | callRegister
  | jmpRegister => cases hnumber
  | mov h | arith h | test h | xchg h | push h | pop h | set h =>
      exact .inl (first (h.reference?_eq.symm.trans hnumber))
  | testSwapped h | xchgSwapped h | movLoad h | arithLoad h | movsxd _ h | imul _ h | cmov _ h
  | imulPlaceImmediate _ h => exact .inl (second (h.reference?_eq.symm.trans hnumber))
  | arithImmediate | testImmediate | shift | shiftByCl | unary =>
      exact .inl (first ((Argument.reference?_ofPlace _).trans hnumber))
  | movzx | movsx => exact .inl (second ((Argument.reference?_ofPlace _).trans hnumber))
  | movMemory | callMemory | jmpMemory | branchLabel => exact .inl (first hnumber)
  | testImmediateSwapped | movLabel | lea | leaLabel => exact .inl (second hnumber)
  | branchImmediate h => exact .inr ⟨_, _, rfl, h⟩

theorem Context.exists_place_of_argument {c : Context} {operand : Operand} {a : Argument}
    (h : c.argument operand = .ok a) {place : PlaceId} (hplace : a.reference? = some place) :
    ∃ name, c.place? name = some place := by
  have hlabel {name : String} {place : PlaceId} (h : c.label name = .ok place) :
      c.place? name = some place := by
    unfold label at h
    split at h
    next hname =>
      cases h
      exact hname
    next => cases h
  cases operand with
  | register r =>
      obtain ⟨_, -, h⟩ := bind_eq_ok_iff.mp h
      cases h
      cases hplace
  | immediate value =>
      cases h
      cases hplace
  | symbol name =>
      obtain ⟨place', hname, h⟩ := bind_eq_ok_iff.mp h
      cases h
      cases hplace
      exact ⟨name, hlabel hname⟩
  | memory size location =>
      obtain ⟨address, haddress, h⟩ := bind_eq_ok_iff.mp h
      cases h
      unfold Context.address at haddress
      split at haddress
      next name =>
        obtain ⟨place', hname, haddress⟩ := bind_eq_ok_iff.mp haddress
        cases haddress
        cases hplace
        exact ⟨name, hlabel hname⟩
      next => cases haddress
      next =>
        obtain ⟨_, -, haddress⟩ := bind_eq_ok_iff.mp haddress
        cases haddress
        cases hplace
      next =>
        obtain ⟨_, -, haddress⟩ := bind_eq_ok_iff.mp haddress
        obtain ⟨_, -, haddress⟩ := bind_eq_ok_iff.mp haddress
        cases haddress
        cases hplace
      next =>
        obtain ⟨_, -, haddress⟩ := bind_eq_ok_iff.mp haddress
        cases haddress
        cases hplace
      next => cases haddress

theorem Context.eq_immediate_of_argument {c : Context} {operand : Operand} {value : Int64}
    (h : c.argument operand = .ok (.immediate value)) : operand = .immediate value := by
  cases operand with
  | immediate value' =>
      cases h
      rfl
  | register r =>
      obtain ⟨_, -, h⟩ := bind_eq_ok_iff.mp h
      cases h
  | symbol name =>
      obtain ⟨_, -, h⟩ := bind_eq_ok_iff.mp h
      cases h
  | memory size location =>
      obtain ⟨_, -, h⟩ := bind_eq_ok_iff.mp h
      cases h

theorem reference?_emission_cases {c : Context} {capacity : UInt64} {s : Statement}
    {e : Emission} (h : emission c capacity s = .ok e) {number : UInt64}
    (hnumber : e.reference? = some number) : (∃ name, c.place? name = some number) ∨
      ∃ name m value transfer, s.body = .instruction name [.immediate value] ∧
        Mnemonic.ofName? name = some m ∧ m.transfer? = some transfer := by
  cases hbody : s.body with
  | instruction name operands =>
      simp only [emission, hbody] at h
      obtain ⟨args, hargs, h⟩ := bind_eq_ok_iff.mp h
      obtain ⟨selected, hselected, h⟩ := bind_eq_ok_iff.mp h
      cases h
      have hreference : selected.reference? = some number := by
        cases selected <;> exact hnumber
      obtain ⟨m, hm, hselects⟩ := selects_of_select hselected
      rcases hselects.reference?_cases hreference with ⟨a, ha, hplace⟩ | ⟨value, transfer,
        rfl, ht⟩
      · obtain ⟨operand, -, hargument⟩ :=
          exists_mem_of_forall₂ (mapM_eq_ok_iff.mp hargs).flip ha
        exact .inl (Context.exists_place_of_argument hargument hplace)
      · have hall := mapM_eq_ok_iff.mp hargs
        cases hall with
        | cons hargument hnil =>
            cases hnil
            rw [Context.eq_immediate_of_argument hargument]
            exact .inr ⟨name, m, value, transfer, rfl, hm, ht⟩
  | data unit items =>
      simp only [emission, hbody] at h
      obtain ⟨parts, -, h⟩ := bind_eq_ok_iff.mp h
      cases h
      unfold Emission.ofBytes at hnumber
      split at hnumber <;> cases hnumber
  | reserve unit count =>
      simp only [emission, hbody] at h
      split at h
      next => cases h
      next =>
        cases h
        unfold Emission.ofBytes at hnumber
        split at hnumber <;> cases hnumber
  | empty =>
      simp only [emission, hbody] at h
      cases h
      cases hnumber
  | mode size =>
      simp only [emission, hbody] at h
      cases h
      cases hnumber

/-! ## More room -/

theorem emission_mono {c : Context} {capacity capacity' : UInt64} (hle : capacity ≤ capacity')
    {s : Statement} {e : Emission} (h : emission c capacity s = .ok e) :
    emission c capacity' s = .ok e := by
  unfold emission at h ⊢
  split at h
  next => exact h
  next => exact h
  next unit count hbody =>
    have hroom : ¬capacity < reservedBytes unit count := by
      intro hlt
      simp [hlt] at h
    have hroom' : ¬capacity' < reservedBytes unit count := by
      rw [UInt64.not_lt] at hroom ⊢
      exact UInt64.le_trans hroom hle
    simp only [if_neg hroom] at h
    simp only [if_neg hroom']
    exact h
  next => exact h
  next => exact h

theorem reports_emissions_mono {c : Context} {capacity capacity' : UInt64}
    (hle : capacity ≤ capacity') {lines : List String} {numbered : List (Statement × PlaceId)}
    (h : (emissions c capacity lines numbered).2 = []) :
    (emissions c capacity' lines numbered).2 = [] := by
  obtain ⟨es, hes, -⟩ := emissions_spec h
  apply reports_emissions_of_ok
  intro p hp
  obtain ⟨e, -, he⟩ := exists_mem_of_forall₂ hes (List.mem_map_of_mem hp)
  exact ⟨e, emission_mono hle he⟩

theorem reportsOf_mono {codeSize : CodeSize} {lines : List String} {target : Target}
    {statements : List Statement} {base capacity : UInt64} (hle : target.capacity ≤ capacity)
    (h : reportsOf codeSize lines target statements = []) :
    reportsOf codeSize lines { target with base, capacity } statements = [] := by
  rw [reportsOf, List.append_eq_nil_iff] at h ⊢
  exact ⟨h.1, reports_emissions_mono hle h.2⟩

/-! ## Whole sources -/

/-- No call, jump or conditional jump of a source has a number for its target. -/
def BranchesToLabels (source : String) : Prop :=
  ∀ statements, Source.parse source = .ok statements → ∀ s ∈ statements,
    ∀ name m value, s.body = .instruction name [.immediate value] →
      Mnemonic.ofName? name = some m → m.transfer? = none

def TargetsNamed (statements : List Statement) : Prop :=
  ∀ s ∈ statements, ∀ name m value, s.body = .instruction name [.immediate value] →
    Mnemonic.ofName? name = some m → m.transfer? = none

theorem BranchesToLabels.targetsNamed {source : String} {statements : List Statement}
    (h : BranchesToLabels source) (hparse : Source.parse source = .ok statements) :
    TargetsNamed statements :=
  h statements hparse

section

variable {statements : List Statement} {es : List Emission} {capacity : UInt64}

theorem isInside_destinationOf {codeSize : CodeSize}
    (hlt : (bindLabels statements).1.places < 2 ^ 64)
    (hes : Emitted codeSize capacity statements es) {name : String} {place : PlaceId}
    (hname : (bindLabels statements).1.find? name = some place) :
    (destinationOf (itemsOf codeSize statements es).reduceOption place).isInside := by
  obtain ⟨k, -, hplace⟩ := location?_of_find? hname
  rw [destinationOf_itemsOf hes hlt hplace (find?_bindLabels_ne_zero hlt hname)]
  rfl

theorem exists_statement_of_entry (hes : Emitted .bits64 capacity statements es) {entry : Entry}
    (hentry : entry ∈ (itemsOf .bits64 statements es).reduceOption) {number : UInt64}
    (hnumber : entry.fragment.target? .bits64 = some number) :
    ∃ s ∈ statements, ∃ e, emission (contextOf .bits64 statements) capacity s = .ok e ∧
      e.reference? = some number := by
  rw [reduceOption_itemsOf, List.mem_append] at hentry
  rcases hentry with hentry | hentry
  · obtain ⟨⟨place, e⟩, hp, hfragment⟩ := List.mem_filterMap.mp hentry
    obtain ⟨fragment, hfragment, rfl⟩ := Option.map_eq_some_iff.mp hfragment
    obtain ⟨s, hs, he⟩ :=
      exists_mem_of_forall₂ hes.flip (List.of_mem_zip (List.mem_filter.mp hp).1).2
    refine ⟨s, hs, e, he, ?_⟩
    cases e with
    | nothing => cases hfragment
    | data bytes =>
        cases hfragment
        cases hnumber
    | branch transfer target =>
        cases hfragment
        exact hnumber
    | instruction i =>
        cases hfragment
        unfold Fragment.ofInstruction at hnumber
        split at hnumber
        next hencode => exact (Machine.Instruction.target_of_encode hencode).symm.trans hnumber
        next => cases hnumber
  · unfold lastEntry at hentry
    split at hentry
    next => cases hentry
    next =>
      obtain rfl := List.mem_singleton.mp hentry
      cases hnumber

theorem isInside_of_reference (hlt : (bindLabels statements).1.places < 2 ^ 64)
    (hes : Emitted .bits64 capacity statements es) (hnamed : TargetsNamed statements)
    {s : Statement} (hs : s ∈ statements) {e : Emission}
    (he : emission (contextOf .bits64 statements) capacity s = .ok e) {number : UInt64}
    (hnumber : e.reference? = some number) :
    (destinationOf (itemsOf .bits64 statements es).reduceOption number).isInside := by
  rcases reference?_emission_cases he hnumber with ⟨name, hname⟩ | hbranch
  · exact isInside_destinationOf hlt hes hname
  · obtain ⟨name, m, value, transfer, hbody, hm, htransfer⟩ := hbranch
    cases (hnamed s hs name m value hbody hm).symm.trans htransfer

/-- The entries of statements whose branches name labels lead into their block. -/
theorem leadsInside_itemsOf (hlt : (bindLabels statements).1.places < 2 ^ 64)
    (hes : Emitted .bits64 capacity statements es) (hnamed : TargetsNamed statements) :
    LeadsInside .bits64 (itemsOf .bits64 statements es).reduceOption := by
  intro entry hentry number hnumber
  obtain ⟨s, hs, e, he, hreference⟩ := exists_statement_of_entry hes hentry hnumber
  exact isInside_of_reference hlt hes hnamed hs he hreference

end

/-- 64-bit code whose branches name labels is the same at every address, and wherever there is as
much room for it. -/
theorem assemble_relocated {source : String} {target : Target} {code : Code}
    (hsource : source.length < 2 ^ 63) (htarget : target.bitness = 64)
    (hbranches : BranchesToLabels source) (h : assemble source target = .ok code)
    {base capacity : UInt64} (hcapacity : target.capacity ≤ capacity) :
    assemble source { target with base, capacity } = .ok code := by
  obtain ⟨statements, codeSize, hparse, hsize, hreports⟩ := no_reports_of_assemble h
  have hplaces := places_bindLabels_le statements
  have hstatements := Source.length_statements_le hparse
  have hlt : (bindLabels statements).1.places < 2 ^ 64 := by omega
  have hbits : codeSize = .bits64 := by
    have hcode := bits_of_no_reports hsize hreports
    cases codeSize with
    | bits32 => cases hcode.trans htarget
    | bits64 => rfl
  subst hbits
  obtain ⟨es, hes, hassemble⟩ := assemble_eq_writeBlock hparse hsize hreports
  have hsize' : effectiveSize? { target with base, capacity } statements = some .bits64 := hsize
  have hreports' :
      reportsOf .bits64 (Text.linesOf source) { target with base, capacity } statements =
      [] := reportsOf_mono hcapacity hreports
  obtain ⟨es', hes', hassemble'⟩ := assemble_eq_writeBlock hparse hsize' hreports'
  have hsame : es = es' := by
    have hmono : Emitted .bits64 capacity statements es :=
      hes.imp fun _ _ he => emission_mono hcapacity he
    exact Except.ok.inj ((mapM_eq_ok_iff.mpr hmono).symm.trans (mapM_eq_ok_iff.mpr hes'))
  subst hsame
  have hinside := leadsInside_itemsOf hlt hes (hbranches.targetsNamed hparse)
  have hblock : writeBlock .bits64 target.base (itemsOf .bits64 statements es).reduceOption =
      .ok code := by
    rw [hassemble] at h
    cases hblock :
        writeBlock .bits64 target.base (itemsOf .bits64 statements es).reduceOption with
    | ok code' =>
        rw [hblock] at h
        cases h
        rfl
    | error e =>
        rw [hblock] at h
        cases h
  have hmoved : writeBlock .bits64 base (itemsOf .bits64 statements es).reduceOption =
      .ok code := by
    have hbase : target.base + (base - target.base) = base := by
      rw [UInt64.add_comm, UInt64.sub_add_cancel]
    rw [← hbase]
    exact writeBlock_shift hinside hblock
  rw [hassemble', hmoved]
  rfl

/-- The code refers to its end, forwards and through memory, and moves to the last addresses. -/
theorem assemble_relocated_to_end :
    assemble "jne done\nlea rax, [done]\nrb 3\ndone:" ⟨0xFFFFFFFFFFFFFFF8, 3, 64⟩ =
      .ok [0x75, 0x0A, 0x48, 0x8D, 0x05, 0x03, 0, 0, 0, 0, 0, 0] := by
  have hparse : Source.parse "jne done\nlea rax, [done]\nrb 3\ndone:" =
      .ok [⟨1, [], .instruction "jne" [.symbol "done"]⟩,
        ⟨2, [], .instruction "lea" [.register (.low .qword 0), .memory none (.label "done")]⟩,
        ⟨3, [], .reserve .byte 3⟩, ⟨4, ["done"], .empty⟩] := by decide +kernel
  have hbranches : BranchesToLabels "jne done\nlea rax, [done]\nrb 3\ndone:" := by
    intro statements hstatements s hs name m value hbody
    cases hparse.symm.trans hstatements
    simp only [List.mem_cons, List.not_mem_nil, or_false] at hs
    rcases hs with rfl | rfl | rfl | rfl <;> simp at hbody
  have hlow : assemble "jne done\nlea rax, [done]\nrb 3\ndone:" ⟨0x10000000, 3, 64⟩ =
      .ok [0x75, 0x0A, 0x48, 0x8D, 0x05, 0x03, 0, 0, 0, 0, 0, 0] := by decide +kernel
  exact assemble_relocated (by decide +kernel) rfl hbranches hlow (by decide)

end AsmLoader.Assembly
