import AsmLoader.Proofs.Session.LoadNumbers
import AsmLoader.Region.Host
/-!
# What a load can be refused for

A load writes the code, covers what the load before it left behind, and counts itself. After any
operations on a process only the length of the code can be in the way, and that is found first: a
load is done as a whole or not at all.
-/

namespace AsmLoader

open Region (AllocationError Config Host Span pageLengths)

namespace Manager

/-- A manager loads a code as a whole, or is left as it was because the code is longer than the
capacity. -/
structure LoadsWhole (m : Manager) (code : Code) : Prop where
  refused_iff : (m.load code).1 = none ↔ m.capacity.toNat < code.length
  eq_of_refused : (m.load code).1 = none → (m.load code).2 = m
  loaded : code.length ≤ m.capacity.toNat → ∃ written filled,
    m.region.write? 0 code = some written ∧
      written.fill? (UInt64.ofNat code.length) (m.used - code.length) trapByte = some filled ∧
      m.load code = (some (m.generation + 1),
        { m with region := filled, generation := m.generation + 1, used := code.length })

theorem HasRoom.loadsWhole {m : Manager} (hm : m.HasRoom) (code : Code) : m.LoadsWhole code := by
  have hloaded (hlength : code.length ≤ m.capacity.toNat) : ∃ written filled,
      m.region.write? 0 code = some written ∧
        written.fill? (UInt64.ofNat code.length) (m.used - code.length) trapByte = some filled ∧
        m.load code = (some (m.generation + 1),
          { m with region := filled, generation := m.generation + 1, used := code.length }) := by
    obtain ⟨after, hafter⟩ := hm.exists_load? hlength
    obtain ⟨-, written, filled, hwritten, hfilled, rfl, hload⟩ := load?_eq_some hafter
    exact ⟨written, filled, hwritten, hfilled, hload⟩
  have hrefused : (m.load code).1 = none ↔ m.capacity.toNat < code.length := by
    refine ⟨fun hnone => ?_, fun hlt => by rw [load_eq_of_lt hlt]⟩
    by_contra hle
    obtain ⟨_, _, -, -, hload⟩ := hloaded (Nat.not_lt.mp hle)
    rw [hload] at hnone
    cases hnone
  refine ⟨hrefused, fun hnone => ?_, hloaded⟩
  rw [load_eq_of_lt (hrefused.mp hnone)]

end Manager

namespace Session

/-- A region is as long as the least number of pages that has room for its capacity, and only a
capacity that this takes out of the 64 bits overflows. So whatever has been done to the managers
and units of a process, each manager has room: it refuses a code that is longer than its capacity
and stays what it was, and it loads any other as a whole, in both steps, and counts one load
more, which 64 bits can hold if they can hold the number of its loads. -/
theorem loads_whole :
    (∀ (host : Host) (live : List Span) (config : Config) (r : Region),
        Region.allocate host live config = .ok r →
          IsLeast (pageLengths host.pageSize.toNat config.capacity.toNat) r.len.toNat) ∧
      (∀ (host : Host) (live : List Span) (config : Config) (capacity : UInt64),
        Region.allocate host live config = .error (.capacityOverflow capacity) ↔
          config.capacity = capacity ∧ 2 ^ 64 - host.pageSize.toNat < capacity.toNat) ∧
      ∀ {σ : Type} (e : Engine σ) (operations : List (Operation σ)) (k : Handle) (m : Manager),
        (after e operations).managers.find? k = some m →
          (∀ code, m.LoadsWhole code) ∧
            (loadCount e operations k + 1 < UInt64.size →
              (m.generation + 1).toNat = m.generation.toNat + 1) := by
  refine ⟨?_, ?_, ?_⟩
  · intro host live config r h
    exact Region.isLeast_roundToPages? host.isPowerOfTwo_pageSize
      (Region.allocated_of_allocate h).roundToPages?_eq
  · intro host live config capacity
    exact Region.allocate_eq_capacityOverflow_iff
  · intro σ e operations k m hm
    refine ⟨fun code => ((sound_after e operations).hasRoom k m hm).loadsWhole code, ?_⟩
    intro hcount
    rw [generation_after hm, UInt64.toNat_add, UInt64.toNat_ofNat_of_lt' (by omega)]
    exact Nat.mod_eq_of_lt hcount

/-- The largest capacity in whole pages, here of 16 KiB, is its own length, and the next one
overflows. A manager with room for four bytes, in a region of a page, refuses five after it has
loaded four, and its next load is its second. -/
theorem loads_whole_at_limits :
    let host : Host := ⟨0x4000, fun _ _ _ => .ok 0x4000⟩
    let e := Engine.ofFunction fun _ _ => .ok [0x90, 0x90, 0x90, 0xC3]
    let operations : List (Operation Unit) :=
      [.openManager Host.standard (.ofCapacity 4), .createUnit (), .attach 0 0, .assemble 0]
    (∃ r, Region.allocate host [] (.ofCapacity 0xFFFFFFFFFFFFC000) = .ok r ∧
        IsLeast (pageLengths 0x4000 0xFFFFFFFFFFFFC000) r.len.toNat) ∧
      Region.allocate host [] (.ofCapacity 0xFFFFFFFFFFFFC001) =
        .error (.capacityOverflow 0xFFFFFFFFFFFFC001) ∧
      ∃ m, (after e operations).managers.find? 0 = some m ∧ m.generation = 1 ∧
        (m.load [1, 2, 3, 4, 5]).1 = none ∧ (m.load [1, 2, 3, 4, 5]).2 = m ∧
        (m.generation + 1).toNat = 2 := by
  intro host e operations
  obtain ⟨hlength, hoverflow, hloads⟩ := loads_whole
  have hpage : host.pageSize = 0x4000 := by decide
  have hlargest : Region.allocate host [] (.ofCapacity 0xFFFFFFFFFFFFC000) =
      .ok (.zeroed 0x4000 0xFFFFFFFFFFFFC000) := by
    rw [Region.allocate, hpage]
    rfl
  have hleast := hlength _ _ _ _ hlargest
  rw [hpage] at hleast
  have hlarger := (hoverflow host [] (.ofCapacity 0xFFFFFFFFFFFFC001) _).mpr ⟨rfl, by decide⟩
  refine ⟨⟨_, hlargest, hleast⟩, hlarger, ?_⟩
  have hfound : ((after e operations).managers.find? 0).any (fun m => m.generation == 1 &&
      m.capacity.toNat == 4) := by decide +kernel
  obtain ⟨m, hm, hstate⟩ := (Option.any_eq_true _ _).mp hfound
  simp only [Bool.and_eq_true, beq_iff_eq] at hstate
  obtain ⟨hwhole, hcounts⟩ := hloads e operations 0 m hm
  have hrefused : (m.load [1, 2, 3, 4, 5]).1 = none := by
    rw [(hwhole _).refused_iff, hstate.2]
    decide
  have hcount : loadCount e operations 0 ≤ 4 := loadCount_le_length
  have hnext := hcounts (Nat.lt_of_le_of_lt (Nat.succ_le_succ hcount) (by decide))
  rw [hstate.1] at hnext
  refine ⟨m, hm, hstate.1, hrefused, (hwhole _).eq_of_refused hrefused, ?_⟩
  rw [hstate.1]
  exact hnext

end Session

end AsmLoader
