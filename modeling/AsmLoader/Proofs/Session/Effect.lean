import AsmLoader.Proofs.Session.Invariant
/-!
# What an operation does

Of the operations on a session few matter to the code of a unit. Assembling the unit brings it
code or takes it away; so does a change of its manager; all else leaves it alone. A manager
changes only when a unit that is attached to it is assembled and its code is loaded.
-/

namespace AsmLoader.Session

open Region (Config Host)

variable {σ : Type} {s : Session σ} {h unit k : Handle} {operation : Operation σ}

/-- The operation assembles the unit for this manager, which loads so many bytes. -/
def Compiles (e : Engine σ) (unit manager : Handle) (size : Nat) (s : Session σ)
    (operation : Operation σ) : Prop :=
  operation = .assemble unit ∧
    (∃ u, s.units.find? unit = some u ∧ u.manager = some manager) ∧
    ∃ entry next, s.assemble e unit = some (.ok (.compiled entry size), next)

/-- The operation leaves the unit without code: the unit is assembled and that fails, it is
detached, its manager is released, or another manager is attached to it. -/
def Discards (e : Engine σ) (unit : Handle) (s : Session σ) : Operation σ → Prop
  | .assemble h => h = unit ∧ ∃ next, s.assemble e h = some (.ok .failed, next)
  | .detach h => h = unit
  | .release k => ∃ u, s.units.find? unit = some u ∧ u.manager = some k
  | .attach h k =>
    h = unit ∧ (s.managers.find? k).isSome ∧
      ∃ u other, s.units.find? unit = some u ∧ u.manager = some other ∧ other ≠ k
  | _ => False

/-- The operation assembles the unit, and its manager loads this code as its load of
this number. -/
def Loads (e : Engine σ) (unit manager : Handle) (code : Code) (number : UInt64) (s : Session σ)
    (operation : Operation σ) : Prop :=
  Compiles e unit manager code.length s operation ∧
    ∃ m after, s.managers.find? manager = some m ∧ m.load code = (some number, after) ∧
      (s.perform e operation).managers.find? manager = some after

theorem not_compiles_of_ne {e : Engine σ} (hne : operation ≠ .assemble unit) (k : Handle)
    (n : Nat) : ¬Compiles e unit k n s operation :=
  fun hcompiles => hne hcompiles.1

/-- The operation concerns no unit's code or manager, whatever the session. -/
def Neutral : Operation σ → Prop
  | .assemble _ | .attach _ _ | .detach _ | .release _ => False
  | _ => True

theorem Neutral.ne_assemble (hn : Neutral operation) : operation ≠ .assemble unit := by
  rintro rfl
  exact hn

theorem Neutral.not_discards {e : Engine σ} (hn : Neutral operation) :
    ¬Discards e unit s operation := by
  cases operation <;> simp_all [Neutral, Discards]

theorem Compiles.unique {e : Engine σ} {k' : Handle} {n n' : Nat}
    (hc : Compiles e unit k n s operation) (hc' : Compiles e unit k' n' s operation) :
    k = k' ∧ n = n' := by
  obtain ⟨-, ⟨u, hu, hk⟩, entry, next, hassemble⟩ := hc
  obtain ⟨-, ⟨u', hu', hk'⟩, entry', next', hassemble'⟩ := hc'
  rw [hu] at hu'
  cases hu'
  rw [hk] at hk'
  cases hk'
  rw [hassemble] at hassemble'
  cases hassemble'
  exact ⟨rfl, rfl⟩

/-! ## Effects on a unit -/

/-- What an operation does to a unit that is there before and after it. -/
inductive Effect (e : Engine σ) (unit : Handle) (s : Session σ) (operation : Operation σ)
    (u v : CompilationUnit σ) : Prop where
  | kept (blob_eq : v.blob = u.blob)
      (reports_eq : v.diagnostics = u.diagnostics ∧ v.errors = u.errors)
      (manager_eq : v.manager = u.manager ∨ u.manager = none)
      (detached : operation = .assemble unit → u.manager = none)
      (not_discards : ¬Discards e unit s operation)
      (not_compiles : ∀ k n, ¬Compiles e unit k n s operation)
  | taken (blob_eq : v.blob = none)
      (reports_eq : v.diagnostics = u.diagnostics ∧ v.errors = u.errors)
      (discards : Discards e unit s operation)
      (not_compiles : ∀ k n, ¬Compiles e unit k n s operation)
  | failed (engine : σ) (diagnostics : List Diagnostic)
      (unit_eq : v = (u.reset.setEngine engine).fail diagnostics)
      (discards : Discards e unit s operation)
      (not_compiles : ∀ k n, ¬Compiles e unit k n s operation)
  | loaded (engine : σ) (k : Handle) (m after : Manager) (code : Code)
      (unit_eq : v = (u.reset.setEngine engine).succeed ⟨m.base, code, after.generation⟩)
      (manager_eq : u.manager = some k) (find_eq : s.managers.find? k = some m)
      (answer_eq : (e.assemble u.engine u.expandedSource m.target).1 = .ok code)
      (loads : Loads e unit k code after.generation s operation)

section Effect

variable {e : Engine σ} {u v : CompilationUnit σ}

theorem Effect.same (hne : operation ≠ .assemble unit) (hd : ¬Discards e unit s operation) :
    Effect e unit s operation u u :=
  .kept rfl ⟨rfl, rfl⟩ (.inl rfl) (fun heq => absurd heq hne) hd (not_compiles_of_ne hne)

theorem Effect.neutral (hn : Neutral operation) : Effect e unit s operation u u :=
  .same hn.ne_assemble hn.not_discards

theorem unit_of_modifyUnit {f : CompilationUnit σ → CompilationUnit σ}
    (hv : (s.modifyUnit h f).units.find? unit = some v) :
    ∃ u, s.units.find? unit = some u ∧ (h = unit ∧ v = f u ∨ h ≠ unit ∧ v = u) := by
  rw [find?_units_modifyUnit] at hv
  split at hv
  next heq =>
    obtain ⟨u, hu, rfl⟩ := Option.map_eq_some_iff.mp hv
    exact ⟨u, hu, Or.inl ⟨heq.symm, rfl⟩⟩
  next hne => exact ⟨v, hv, Or.inr ⟨Ne.symm hne, rfl⟩⟩

theorem effect_edit (f : CompilationUnit σ → CompilationUnit σ)
    (hf : ∀ u, (f u).blob = u.blob ∧ (f u).diagnostics = u.diagnostics ∧
      (f u).errors = u.errors ∧
      (f u).manager = u.manager)
    (hn : Neutral operation) (hv : (s.modifyUnit h f).units.find? unit = some v) :
    ∃ u, s.units.find? unit = some u ∧ Effect e unit s operation u v := by
  obtain ⟨u, hu, ⟨-, rfl⟩ | ⟨-, rfl⟩⟩ := unit_of_modifyUnit hv
  · obtain ⟨hblob, hdiagnostics, herrors, hmanager⟩ := hf u
    exact ⟨u, hu, .kept hblob ⟨hdiagnostics, herrors⟩ (.inl hmanager)
      (fun heq => absurd heq hn.ne_assemble) hn.not_discards (not_compiles_of_ne hn.ne_assemble)⟩
  · exact ⟨_, hu, .neutral hn⟩

theorem effect_release (hs : s.Sound) (hv : (s.release k).units.find? unit = some v) :
    ∃ u, s.units.find? unit = some u ∧ Effect e unit s (.release k) u v := by
  have hne : (.release k : Operation σ) ≠ .assemble unit := by simp
  unfold release at hv
  split at hv
  next hnone =>
    refine ⟨v, hv, .same hne ?_⟩
    rintro ⟨u, hu, hk⟩
    obtain ⟨m, hm⟩ := (hs.unit_sound unit u hu).manager_live k hk
    rw [hnone] at hm
    cases hm
  next =>
    dsimp only at hv
    rw [Registry.find?_map] at hv
    obtain ⟨u, hu, rfl⟩ := Option.map_eq_some_iff.mp hv
    refine ⟨u, hu, ?_⟩
    split
    next hk => exact .taken rfl ⟨rfl, rfl⟩ ⟨u, hu, hk⟩ (not_compiles_of_ne hne)
    next hk =>
      apply Effect.same hne
      rintro ⟨u', hu', hk'⟩
      rw [hu] at hu'
      cases hu'
      exact hk hk'

theorem effect_detach (hv : (s.modifyUnit h (·.detach)).units.find? unit = some v) :
    ∃ u, s.units.find? unit = some u ∧ Effect e unit s (.detach h) u v := by
  have hne : (.detach h : Operation σ) ≠ .assemble unit := by simp
  obtain ⟨u, hu, ⟨heq, rfl⟩ | ⟨hother, rfl⟩⟩ := unit_of_modifyUnit hv
  · exact ⟨u, hu, .taken rfl ⟨rfl, rfl⟩ heq (not_compiles_of_ne hne)⟩
  · exact ⟨_, hu, .same hne hother⟩

theorem effect_attach (hv : (s.attach h k).units.find? unit = some v) :
    ∃ u, s.units.find? unit = some u ∧ Effect e unit s (.attach h k) u v := by
  have hne : (.attach h k : Operation σ) ≠ .assemble unit := by simp
  unfold attach at hv
  split at hv
  next hnone =>
    refine ⟨v, hv, .same hne ?_⟩
    rintro ⟨-, hsome, -⟩
    rw [hnone] at hsome
    cases hsome
  next m hm =>
    obtain ⟨u, hu, ⟨heq, rfl⟩ | ⟨hother, rfl⟩⟩ := unit_of_modifyUnit hv
    · refine ⟨u, hu, ?_⟩
      have hnot (hsame : ∀ other, u.manager = some other → other = k) :
          ¬Discards e unit s (.attach h k) := by
        rintro ⟨-, -, u', other, hu', hmanager, hother⟩
        rw [hu] at hu'
        cases hu'
        exact hother (hsame other hmanager)
      cases hmanager : u.manager with
      | none =>
          rw [CompilationUnit.attach, hmanager, if_neg (by simp)]
          exact .kept rfl ⟨rfl, rfl⟩ (.inr hmanager) (fun _ => hmanager)
            (hnot fun other hother => by rw [hmanager] at hother; cases hother)
            (not_compiles_of_ne hne)
      | some other =>
          by_cases hother : other = k
          · subst hother
            rw [CompilationUnit.attach, hmanager, if_neg (by simp)]
            exact .kept rfl ⟨rfl, rfl⟩ (.inl hmanager.symm) (fun heq => absurd heq hne)
              (hnot fun other' hother' => Option.some.inj (hother'.symm.trans hmanager))
              (not_compiles_of_ne hne)
          · rw [CompilationUnit.attach, hmanager, if_pos (by simpa using hother)]
            exact .taken rfl ⟨rfl, rfl⟩ ⟨heq, by rw [hm]; rfl, u, other, hu, hmanager, hother⟩
              (not_compiles_of_ne hne)
    · refine ⟨_, hu, .same hne ?_⟩
      rintro ⟨heq, -⟩
      exact hother heq

theorem units_openManager {host : Host} {config : Config} {next : Session σ}
    (hopen : s.openManager host config = .ok (h, next)) : next.units = s.units := by
  unfold openManager at hopen
  split at hopen
  next => cases hopen
  next =>
    split at hopen
    next => cases hopen
    next => cases hopen; rfl

theorem next_le_openManager {host : Host} {config : Config} {next : Session σ}
    (hopen : s.openManager host config = .ok (h, next)) :
    s.managers.next ≤ next.managers.next := by
  unfold openManager at hopen
  split at hopen
  next => cases hopen
  next =>
    split at hopen
    next => cases hopen
    next =>
      cases hopen
      exact Nat.le_succ _

theorem Attempt.find?_units {result : Except UnitError Outcome} {next : Session σ}
    (hattempt : Attempt e s h result next) (hne : unit ≠ h) :
    next.units.find? unit = s.units.find? unit := by
  cases hattempt with
  | detached => rfl
  | failed => exact (Registry.find?_set _ _ _ _).trans (if_neg hne)
  | compiled => exact (Registry.find?_set _ _ _ _).trans (if_neg hne)

theorem perform_assemble {result : Except UnitError Outcome} {next : Session σ}
    (hassemble : s.assemble e h = some (result, next)) : s.perform e (.assemble h) = next := by
  simp only [perform, hassemble]

theorem not_compiles_of_assemble {result : Except UnitError Outcome} {next : Session σ}
    (hassemble : s.assemble e h = some (result, next))
    (hresult : ∀ entry n, result ≠ .ok (.compiled entry n)) (unit k : Handle) (n : Nat) :
    ¬Compiles e unit k n s (.assemble h) := by
  rintro ⟨⟨⟩, -, entry, next', hcompiled⟩
  rw [hassemble] at hcompiled
  cases hcompiled
  exact hresult entry n rfl

theorem effect_assemble (hs : s.Sound) (hu : s.units.find? unit = some u)
    (hv : (s.perform e (.assemble unit)).units.find? unit = some v) :
    Effect e unit s (.assemble unit) u v := by
  obtain ⟨result, next, hassemble, hattempt⟩ := exists_attempt hs e hu
  have hperform := perform_assemble hassemble
  rw [hperform] at hv
  cases hattempt with
  | detached u' hu' hdetached =>
      rw [hu] at hv hu'
      cases hv
      cases hu'
      have hmanager : u.manager = none := by
        cases hmanager : u.manager with
        | none => rfl
        | some k =>
            obtain ⟨m, hm⟩ := (hs.unit_sound unit u hu).manager_live k hmanager
            rw [managerOf_eq_some.mpr ⟨k, hmanager, hm⟩] at hdetached
            cases hdetached
      refine .kept rfl ⟨rfl, rfl⟩ (.inl rfl) (fun _ => hmanager) ?_
        (not_compiles_of_assemble hassemble nofun unit)
      rintro ⟨-, next, hfailed⟩
      rw [hassemble] at hfailed
      cases hfailed
  | failed u' k m answer engine diagnostics hu' =>
      dsimp only at hv
      rw [Registry.find?_set, if_pos rfl, hu] at hv
      cases hv
      rw [hu] at hu'
      cases hu'
      exact .failed engine diagnostics rfl ⟨rfl, _, hassemble⟩
        (not_compiles_of_assemble hassemble nofun unit)
  | compiled u' k m after code engine hu' hk hm hasked hload =>
      dsimp only at hv
      rw [Registry.find?_set, if_pos rfl, hu] at hv
      cases hv
      rw [hu] at hu'
      cases hu'
      refine .loaded engine k m after code rfl hk hm (congrArg Prod.fst hasked)
        ⟨⟨rfl, ⟨u, hu, hk⟩, _, _, hassemble⟩, m, after, hm,
          Manager.load_eq_some_iff.mpr ⟨hload, rfl⟩, ?_⟩
      rw [hperform]
      dsimp only
      rw [Registry.find?_set, if_pos rfl, hm]
      rfl

/-- A unit that is there after an operation was created by it, or the operation had one of the
four effects on it. -/
theorem effect_perform (hs : s.Sound) (hv : (s.perform e operation).units.find? unit = some v) :
    (unit = s.units.next ∧ ∃ engine, operation = .createUnit engine ∧ v = .create engine) ∨
      ∃ u, s.units.find? unit = some u ∧ Effect e unit s operation u v := by
  cases operation with
  | openManager host config =>
      right
      simp only [perform] at hv
      split at hv
      next hopen => exact ⟨v, units_openManager hopen ▸ hv, .neutral trivial⟩
      next => exact ⟨v, hv, .neutral trivial⟩
  | release k => exact Or.inr (effect_release hs hv)
  | createUnit engine =>
      change (s.units.add (.create engine)).find? unit = some v at hv
      rw [Registry.find?_add hs.units_issued] at hv
      split at hv
      next heq =>
        cases hv
        exact Or.inl ⟨heq, engine, rfl, rfl⟩
      next => exact Or.inr ⟨v, hv, .neutral trivial⟩
  | dropUnit h =>
      right
      change (s.units.erase h).find? unit = some v at hv
      rw [Registry.find?_erase] at hv
      split at hv
      next => cases hv
      next => exact ⟨v, hv, .neutral trivial⟩
  | setSource h source =>
      exact Or.inr (effect_edit (·.setSource source) (fun _ => ⟨rfl, rfl, rfl, rfl⟩) trivial hv)
  | setEngine h engine =>
      exact Or.inr (effect_edit (·.setEngine engine) (fun _ => ⟨rfl, rfl, rfl, rfl⟩) trivial hv)
  | attach h k => exact Or.inr (effect_attach hv)
  | detach h => exact Or.inr (effect_detach hv)
  | predefine h name address =>
      exact Or.inr (effect_edit (·.mapSymbols (·.insert name address))
        (fun _ => ⟨rfl, rfl, rfl, rfl⟩) trivial hv)
  | undefine h name =>
      exact Or.inr (effect_edit (·.mapSymbols (·.erase name))
        (fun _ => ⟨rfl, rfl, rfl, rfl⟩) trivial hv)
  | clearPredefinitions h =>
      exact Or.inr (effect_edit (·.mapSymbols fun _ => .empty)
        (fun _ => ⟨rfl, rfl, rfl, rfl⟩) trivial hv)
  | assemble h =>
      right
      by_cases hother : unit = h
      · subst hother
        cases hu : s.units.find? unit with
        | none =>
            have hnone : s.perform e (.assemble unit) = s := by simp [perform, assemble, hu]
            rw [hnone, hu] at hv
            cases hv
        | some u => exact ⟨u, rfl, effect_assemble hs hu hv⟩
      · have hne : (.assemble h : Operation σ) ≠ .assemble unit := by
          rintro ⟨⟩
          exact hother rfl
        have hd : ¬Discards e unit s (.assemble h) := fun hd => hother hd.1.symm
        simp only [perform] at hv
        split at hv
        next hassemble =>
          exact ⟨v, (attempt_of_assemble hs hassemble).find?_units hother ▸ hv, .same hne hd⟩
        next => exact ⟨v, hv, .same hne hd⟩
  | run h guarded => exact Or.inr ⟨v, hv, .neutral trivial⟩

/-- Code that a unit has after an operation it had before, for the same manager, unless the
operation has just loaded it. -/
theorem held_or_loaded (hs : s.Sound) (hv : (s.perform e operation).units.find? unit = some v)
    {blob : Blob} (hblob : v.blob = some blob) :
    (∃ u, s.units.find? unit = some u ∧ u.blob = some blob ∧ v.manager = u.manager ∧
        operation ≠ .assemble unit ∧ ¬Discards e unit s operation) ∨
      ∃ u k m, s.units.find? unit = some u ∧ u.manager = some k ∧ v.manager = some k ∧
        s.managers.find? k = some m ∧ m.base = blob.entry ∧
        (e.assemble u.engine u.expandedSource m.target).1 = .ok blob.bytes ∧
        Loads e unit k blob.bytes blob.generation s operation := by
  rcases effect_perform hs hv with ⟨-, engine, -, rfl⟩ | ⟨u, hu, heffect⟩
  · cases hblob
  · cases heffect with
    | kept hkept _ hmanager hdetached hd _ =>
        rw [hkept] at hblob
        -- A unit that holds code has a manager.
        obtain ⟨k, m, hk, -, -⟩ := (hs.unit_sound unit u hu).blob_backed blob hblob
        have hattached : u.manager ≠ none := by
          rw [hk]
          exact Option.some_ne_none k
        exact Or.inl ⟨u, hu, hblob, hmanager.resolve_right hattached,
          fun heq => hattached (hdetached heq), hd⟩
    | taken hnone =>
        rw [hnone] at hblob
        cases hblob
    | failed engine diagnostics heq =>
        rw [heq] at hblob
        cases hblob
    | loaded engine k m after code heq hk hm hanswer hloads =>
        subst heq
        cases hblob
        exact Or.inr ⟨u, k, m, hu, hk, hk, hm, rfl, hanswer, hloads⟩

end Effect

/-! ## Effects on a manager -/

section Managers

variable {e : Engine σ} {m m' : Manager}

theorem find?_managers_openManager (hs : s.Sound) {host : Host} {config : Config}
    {next : Session σ} (hopen : s.openManager host config = .ok (h, next))
    (hm : s.managers.find? k = some m) : next.managers.find? k = some m := by
  have hne : k ≠ s.managers.next := Nat.ne_of_lt (hs.managers_issued k m hm)
  unfold openManager at hopen
  split at hopen
  next => cases hopen
  next =>
    split at hopen
    next => cases hopen
    next =>
      cases hopen
      dsimp only
      rw [Registry.find?_add hs.managers_issued, if_neg hne, hm]

theorem find?_managers_assemble (hs : s.Sound) {result : Except UnitError Outcome}
    {next : Session σ} (hassemble : s.assemble e h = some (result, next)) :
    ((∀ k, next.managers.find? k = s.managers.find? k) ∧
        ∀ entry n, result ≠ .ok (.compiled entry n)) ∨
      ∃ k m code after, Compiles e h k code.length s (.assemble h) ∧
        s.managers.find? k = some m ∧ m.load? code = some after ∧
        ∀ k', next.managers.find? k' = if k' = k then some after else s.managers.find? k' := by
  cases attempt_of_assemble hs hassemble with
  | detached => exact Or.inl ⟨fun _ => rfl, nofun⟩
  | failed u k m answer engine diagnostics hu hk hm =>
      exact Or.inl ⟨Registry.find?_set_of_find? hm, nofun⟩
  | compiled u k m after code engine hu hk hm hasked hload =>
      refine Or.inr ⟨k, m, code, after, ⟨rfl, ⟨u, hu, hk⟩, _, _, hassemble⟩, hm, hload, ?_⟩
      intro k'
      dsimp only
      rw [Registry.find?_set]
      by_cases hkk : k' = k
      · rw [if_pos hkk, if_pos hkk, hkk, hm, Option.map_some]
      · rw [if_neg hkk, if_neg hkk]

theorem run_congr {next : Session σ} (hunit : next.units.find? unit = s.units.find? unit)
    (hmanagers : ∀ k, next.managers.find? k = s.managers.find? k) (guarded : Bool) :
    next.run unit guarded = s.run unit guarded := by
  have hmanager (u : CompilationUnit σ) : next.managerOf u = s.managerOf u := by
    unfold managerOf
    congr 1
    funext k
    exact hmanagers k
  simp only [run, hunit, hmanager]

/-- An attempt to assemble that brings no code touches no manager and no other unit. -/
theorem assemble_frame (hs : s.Sound) {result : Except UnitError Outcome} {next : Session σ}
    (hassemble : s.assemble e h = some (result, next))
    (hresult : ∀ entry n, result ≠ .ok (.compiled entry n)) :
    (∀ k, next.managers.find? k = s.managers.find? k) ∧
      ∀ other, other ≠ h → next.units.find? other = s.units.find? other ∧
        ∀ guarded, next.run other guarded = s.run other guarded := by
  have hmanagers : ∀ k, next.managers.find? k = s.managers.find? k := by
    rcases find?_managers_assemble hs hassemble with
      ⟨hsame, -⟩ | ⟨k, m, code, after, ⟨-, -, entry, next', hcompiled⟩, -⟩
    · exact hsame
    · rw [hassemble] at hcompiled
      cases hcompiled
      exact absurd rfl (hresult entry code.length)
  refine ⟨hmanagers, fun other hne => ?_⟩
  have hother := (attempt_of_assemble hs hassemble).find?_units hne
  exact ⟨hother, run_congr hother hmanagers⟩

theorem manager_of_ne_assemble (hs : s.Sound) (hne : ∀ unit, operation ≠ .assemble unit)
    (hm : s.managers.find? k = some m)
    (hm' : (s.perform e operation).managers.find? k = some m') : m' = m := by
  have hmodify (h : Handle) (f : CompilationUnit σ → CompilationUnit σ) :
      (s.modifyUnit h f).managers.find? k = some m := by
    rw [managers_modifyUnit, hm]
  suffices hsame : (s.perform e operation).managers.find? k = some m from
    Option.some.inj (hm'.symm.trans hsame)
  cases operation with
  | openManager host config =>
      simp only [perform]
      split
      next hopen => exact find?_managers_openManager hs hopen hm
      next => exact hm
  | release k' =>
      change (s.release k').managers.find? k = some m' at hm'
      change (s.release k').managers.find? k = some m
      unfold release at hm' ⊢
      split at hm'
      next => exact hm
      next =>
        dsimp only at hm' ⊢
        rw [Registry.find?_erase] at hm' ⊢
        split at hm'
        next => cases hm'
        next hkk => rw [if_neg hkk, hm]
  | createUnit engine => exact hm
  | dropUnit h => exact hm
  | setSource h source => exact hmodify h _
  | setEngine h engine => exact hmodify h _
  | attach h k' =>
      change (s.attach h k').managers.find? k = some m
      unfold attach
      split
      next => exact hm
      next => exact hmodify h _
  | detach h => exact hmodify h _
  | predefine h name address => exact hmodify h _
  | undefine h name => exact hmodify h _
  | clearPredefinitions h => exact hmodify h _
  | assemble h => exact absurd rfl (hne h)
  | run h guarded => exact hm

theorem manager_of_assemble (hs : s.Sound) (hm : s.managers.find? k = some m)
    (hm' : (s.perform e (.assemble h)).managers.find? k = some m') :
    (m' = m ∧ ∀ unit n, ¬Compiles e unit k n s (.assemble h)) ∨
      ∃ unit code, Compiles e unit k code.length s (.assemble h) ∧ m.load? code = some m' := by
  cases hassemble : s.assemble e h with
  | none =>
      have hnone : s.perform e (.assemble h) = s := by simp [perform, hassemble]
      rw [hnone, hm] at hm'
      cases hm'
      refine Or.inl ⟨rfl, ?_⟩
      rintro unit n ⟨⟨⟩, -, entry, next, hcompiled⟩
      rw [hassemble] at hcompiled
      cases hcompiled
  | some answer =>
      obtain ⟨result, next⟩ := answer
      rw [perform_assemble hassemble] at hm'
      rcases find?_managers_assemble hs hassemble with
        ⟨hmanagers, hresult⟩ | ⟨k', m₀, code, after, hc, hm₀, hload, hmanagers⟩
      · rw [hmanagers, hm] at hm'
        cases hm'
        exact Or.inl ⟨rfl, fun unit n => not_compiles_of_assemble hassemble hresult unit k n⟩
      · rw [hmanagers] at hm'
        split at hm'
        next heq =>
          cases hm'
          subst heq
          rw [hm] at hm₀
          cases hm₀
          exact Or.inr ⟨h, code, hc, hload⟩
        next hne =>
          rw [hm] at hm'
          cases hm'
          refine Or.inl ⟨rfl, ?_⟩
          intro unit n hcompiles
          obtain ⟨⟨⟩, -⟩ := id hcompiles
          exact hne (hcompiles.unique hc).1

/-- A manager that is there before and after an operation is the same, unless a unit was compiled
for it. -/
theorem manager_perform (hs : s.Sound) (hm : s.managers.find? k = some m)
    (hm' : (s.perform e operation).managers.find? k = some m') :
    (m' = m ∧ ∀ unit n, ¬Compiles e unit k n s operation) ∨
      ∃ unit code, Compiles e unit k code.length s operation ∧ m.load? code = some m' := by
  by_cases hop : ∃ h, operation = .assemble h
  · obtain ⟨h, rfl⟩ := hop
    exact manager_of_assemble hs hm hm'
  · have hne : ∀ unit, operation ≠ .assemble unit := not_exists.mp hop
    exact Or.inl ⟨manager_of_ne_assemble hs hne hm hm',
      fun unit n => not_compiles_of_ne (hne unit) k n⟩

end Managers

end AsmLoader.Session
