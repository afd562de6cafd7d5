import AsmLoader.Proofs.Session.LoadNumbers
import AsmLoader.Region.Host
/-!
# Running code is safe

Whatever has been done to the managers and units of a process: when the code of a unit may be
run, the region of its manager holds that code, the call goes to the start of the region, and the
code was made for just this address.
-/

namespace AsmLoader.Session

open Region (Config Host)

variable {σ : Type} {s : Session σ}

/-- The last request of a unit for code was answered with this code, for a manager at this
address. -/
def LastAnswer (e : Engine σ) (operations : List (Operation σ)) (unit manager : Handle)
    (code : Code) (base : UInt64) : Prop :=
  ∃ before later u m,
    operations = before ++ .assemble unit :: later ∧ .assemble unit ∉ later ∧
      (after e before).units.find? unit = some u ∧ u.manager = some manager ∧
      (after e before).managers.find? manager = some m ∧
      (e.assemble u.engine u.expandedSource m.target).1 = .ok code ∧ m.target.base = base

theorem LastAnswer.concat {e : Engine σ} {operations : List (Operation σ)}
    {unit manager : Handle} {code : Code} {base : UInt64}
    (hlast : LastAnswer e operations unit manager code base)
    {operation : Operation σ} (hne : operation ≠ .assemble unit) :
    LastAnswer e (operations ++ [operation]) unit manager code base := by
  obtain ⟨before, later, u, m, rfl, hlater, hrest⟩ := hlast
  refine ⟨before, later ++ [operation], u, m, by simp, ?_, hrest⟩
  rw [List.mem_append, List.mem_singleton]
  rintro (hmem | heq)
  · exact hlater hmem
  · exact hne heq.symm

/-! ## Where the code of a unit comes from -/

theorem lastAnswer_of_blob (e : Engine σ) (operations : List (Operation σ)) {unit : Handle}
    {u : CompilationUnit σ} {blob : Blob} (hu : (after e operations).units.find? unit = some u)
    (hblob : u.blob = some blob) :
    ∃ k, u.manager = some k ∧ LastAnswer e operations unit k blob.bytes blob.entry := by
  induction operations using List.reverseRecOn generalizing u with
  | nil => cases hu
  | append_singleton operations operation ih =>
      rw [after_concat] at hu
      rcases held_or_loaded (sound_after e operations) hu hblob with
        ⟨old, hold, holdBlob, hmanager, hne, -⟩ |
          ⟨asked, k, m, hasked, hk, huk, hm, hbase, hanswer, hloads⟩
      · obtain ⟨k, hk, hlast⟩ := ih hold holdBlob
        exact ⟨k, hmanager ▸ hk, hlast.concat hne⟩
      · rw [hloads.1.1]
        exact ⟨k, huk, operations, [], asked, m, by simp, by simp, hasked, hk, hm,
          hanswer, hbase⟩

/-! ## Running -/

theorem run_eq_ok {unit : Handle} {guarded : Bool} {call : Invocation}
    (hrun : s.run unit guarded = some (.ok call)) :
    ∃ u blob m, s.units.find? unit = some u ∧ u.blob = some blob ∧ s.managerOf u = some m ∧
      m.generation = blob.generation ∧ call = ⟨blob.entry, guarded⟩ := by
  unfold run at hrun
  simp only [Option.bind_eq_bind, Option.bind_eq_some_iff, Option.pure_def,
    Option.some.injEq] at hrun
  obtain ⟨u, hu, hcall⟩ := hrun
  unfold CompilationUnit.run at hcall
  split at hcall
  next => cases hcall
  next => cases hcall
  next _ _ blob m hblob hmanager =>
    split at hcall
    next => cases hcall
    next =>
      split at hcall
      next => cases hcall
      next hgeneration =>
        cases hcall
        exact ⟨u, blob, m, hu, hblob, hmanager, not_not.mp hgeneration, rfl⟩

/-- After any operations on any managers and units, with fewer loads for each manager than 64
bits can count: a unit that may be run has its code at the start of the region of its manager,
the call enters it there, and the engine gave this code, when it was last asked on behalf of the
unit, for that very address. -/
theorem run_enters_own_code (e : Engine σ) (operations : List (Operation σ)) (unit : Handle)
    (guarded : Bool) (call : Invocation) (hfew : FewLoads e operations)
    (hrun : (after e operations).run unit guarded = some (.ok call)) :
    ∃ u k m code, (after e operations).units.find? unit = some u ∧ u.manager = some k ∧
      (after e operations).managers.find? k = some m ∧ u.code? = some code ∧
      m.region.read? 0 (UInt64.ofNat code.length) = some code ∧
      u.entry? = some m.base ∧ call = ⟨m.base, guarded⟩ ∧
      LastAnswer e operations unit k code m.base := by
  obtain ⟨u, blob, m, hu, hblob, hm, hgeneration, hcall⟩ := run_eq_ok hrun
  obtain ⟨k, hk, hfound⟩ := managerOf_eq_some.mp hm
  obtain ⟨i, k', m', hk', hm', hbacks, -, hloads, hread⟩ := current_of_blob hu hblob
  obtain rfl : k' = k := Option.some.inj (hk'.symm.trans hk)
  obtain rfl : m' = m := Option.some.inj (hm'.symm.trans hfound)
  obtain ⟨k'', hk'', hlast⟩ := lastAnswer_of_blob e operations hu hblob
  obtain rfl : k'' = k' := Option.some.inj (hk''.symm.trans hk)
  have hsince : ¬CompiledSince e operations k'' i :=
    (generation_eq_iff hfew hfound hloads).mp hgeneration
  refine ⟨u, k'', m', blob.bytes, hu, hk, hfound, ?_, hread hsince, ?_, ?_, ?_⟩
  · rw [CompilationUnit.code?, hblob, Option.map_some]
  · rw [CompilationUnit.entry?, hblob, Option.map_some, hbacks.entry_eq]
  · rw [hcall, hbacks.entry_eq]
  · rw [← hbacks.entry_eq]
    exact hlast

/-- Two units share a manager and are assembled in turn; the first one, assembled again at the
end, may be run. -/
theorem run_enters_own_code_shared :
    let e := Engine.ofFunction fun _ _ => .ok [0x90, 0xC3]
    let operations : List (Operation Unit) :=
      [.openManager Host.standard (.ofCapacity 4096), .createUnit (), .createUnit (),
        .attach 0 0, .attach 1 0, .assemble 0, .assemble 1, .setSource 0 "ret", .assemble 0]
    let call : Invocation := ⟨0x7F0000000000, true⟩
    FewLoads e operations ∧ (after e operations).run 0 true = some (.ok call) ∧
      ∃ u k m code, (after e operations).units.find? 0 = some u ∧ u.manager = some k ∧
        (after e operations).managers.find? k = some m ∧ u.code? = some code ∧
        m.region.read? 0 (UInt64.ofNat code.length) = some code ∧
        u.entry? = some m.base ∧ call = ⟨m.base, true⟩ ∧
        LastAnswer e operations 0 k code m.base := by
  intro e operations call
  have hrun : (after e operations).run 0 true = some (.ok call) := by decide +kernel
  have hfew : FewLoads e operations := fewLoads_of_length_lt (by decide)
  exact ⟨hfew, hrun, run_enters_own_code e operations 0 true call hfew hrun⟩

end AsmLoader.Session
