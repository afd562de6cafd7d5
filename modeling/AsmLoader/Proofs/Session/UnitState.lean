import AsmLoader.Proofs.Session.LoadNumbers
import AsmLoader.Region.Host
/-!
# What a unit holds

The code, the manager, the diagnostics and their text are kept apart in a unit, and each
operation changes some of them. They fit together at all times: the text is that of the
diagnostics, there is code only without diagnostics, and code has been loaded by the manager that
the unit has.
-/

namespace AsmLoader.Session

open Region (Host)

variable {σ : Type} {s : Session σ} {e : Engine σ} {operation : Operation σ} {unit : Handle}
  {u v : CompilationUnit σ}

/-- The text of a unit is that of its diagnostics, and it has none beside code. -/
structure Reported (u : CompilationUnit σ) : Prop where
  errors_eq : u.errors = Diagnostic.render u.diagnostics
  diagnostics_eq : u.blob ≠ none → u.diagnostics = []

theorem reported_create (engine : σ) : Reported (CompilationUnit.create engine) :=
  ⟨rfl, fun _ => rfl⟩

theorem Effect.reported (heffect : Effect e unit s operation u v) (hu : Reported u) :
    Reported v := by
  cases heffect with
  | kept hblob hreports =>
      obtain ⟨hdiagnostics, herrors⟩ := hreports
      constructor
      · rw [herrors, hdiagnostics]
        exact hu.errors_eq
      · rw [hblob, hdiagnostics]
        exact hu.diagnostics_eq
  | taken hblob hreports =>
      obtain ⟨hdiagnostics, herrors⟩ := hreports
      constructor
      · rw [herrors, hdiagnostics]
        exact hu.errors_eq
      · intro hsome
        exact absurd hblob hsome
  | failed engine diagnostics heq =>
      subst heq
      exact ⟨rfl, fun hsome => absurd rfl hsome⟩
  | loaded engine k m after code heq =>
      subst heq
      exact ⟨rfl, fun _ => rfl⟩

theorem reported_after (e : Engine σ) (operations : List (Operation σ))
    (hu : (after e operations).units.find? unit = some u) : Reported u := by
  induction operations using List.reverseRecOn generalizing u with
  | nil => cases hu
  | append_singleton operations operation ih =>
      rw [after_concat] at hu
      rcases effect_perform (sound_after e operations) hu with
        ⟨-, engine, -, rfl⟩ | ⟨old, hold, heffect⟩
      · exact reported_create engine
      · exact heffect.reported (ih hold)

/-- After any operations on any managers and units: the text of a unit is that of its
diagnostics, and empty only if there are none; and if the unit has code, it is attached to a
manager and has no diagnostics, and at some place of the history the manager loaded this code for
it, at its base and within its capacity and its region, under a number that is not later than its
last as long as 64 bits can count its loads. -/
theorem unit_state (e : Engine σ) (operations : List (Operation σ)) (unit : Handle)
    (u : CompilationUnit σ) (hu : (after e operations).units.find? unit = some u) :
    u.errors = Diagnostic.render u.diagnostics ∧
      (u.errors = "" ↔ u.diagnostics = []) ∧
      ∀ blob, u.blob = some blob → ∃ k m, u.manager = some k ∧
        (after e operations).managers.find? k = some m ∧
        u.diagnostics = [] ∧ u.errors = "" ∧
        (∃ i, Occurs e operations (Loads e unit k blob.bytes blob.generation) i) ∧
        (FewLoads e operations → 1 ≤ blob.generation ∧ blob.generation ≤ m.generation) ∧
        blob.bytes.length ≤ m.capacity.toNat ∧ blob.bytes.length ≤ m.mappedLen.toNat ∧
        blob.entry = m.base := by
  have hs := sound_after e operations
  have hreported := reported_after e operations hu
  have hempty : u.errors = "" ↔ u.diagnostics = [] := by
    rw [hreported.errors_eq]
    exact Diagnostic.render_eq_empty_iff
  refine ⟨hreported.errors_eq, hempty, ?_⟩
  intro blob hblob
  obtain ⟨i, k, m, hk, hm, hbacks, -, hloads, -⟩ := current_of_blob hu hblob
  have hnone : u.diagnostics = [] := hreported.diagnostics_eq (by simp [hblob])
  exact ⟨k, m, hk, hm, hnone, hempty.mpr hnone, ⟨i, hloads⟩,
    fun hfew => number_between hfew hm hloads, hbacks.length_le,
    hbacks.length_le.trans (hs.hasRoom k m hm).capacity_le, hbacks.entry_eq⟩

/-- A unit that failed at first holds the code of its second attempt, which a load for another
unit has followed: it was the first of the two loads of their manager. -/
theorem unit_state_after_failure :
    let e := Engine.ofFunction fun source _ =>
      if source = "" then .error [] else .ok [0x90, 0xC3]
    let operations : List (Operation Unit) :=
      [.openManager Host.standard (.ofCapacity 16), .createUnit (), .createUnit (),
        .attach 0 0, .attach 1 0, .assemble 0, .setSource 0 "nop", .assemble 0,
        .setSource 1 "nop", .assemble 1]
    ∃ u, (after e operations).units.find? 0 = some u ∧
      u.blob = some ⟨0x7F0000000000, [0x90, 0xC3], 1⟩ ∧ u.diagnostics = [] ∧ u.errors = "" ∧
      ∃ k m i, u.manager = some k ∧ (after e operations).managers.find? k = some m ∧
        Occurs e operations (Loads e 0 k [0x90, 0xC3] 1) i ∧ 1 ≤ m.generation := by
  intro e operations
  have hblob : ((after e operations).units.find? 0).bind CompilationUnit.blob =
      some ⟨0x7F0000000000, [0x90, 0xC3], 1⟩ := by
    decide +kernel
  obtain ⟨u, hu, hblob⟩ := Option.bind_eq_some_iff.mp hblob
  obtain ⟨-, -, hcode⟩ := unit_state e operations 0 u hu
  obtain ⟨k, m, hk, hm, hdiagnostics, herrors, ⟨i, hloads⟩, hnumber, -⟩ := hcode _ hblob
  have hfew : FewLoads e operations := fewLoads_of_length_lt (by decide)
  exact ⟨u, hu, hblob, hdiagnostics, herrors, k, m, i, hk, hm, hloads, (hnumber hfew).2⟩

end AsmLoader.Session
