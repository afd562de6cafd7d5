import AsmLoader.Proofs.Assembly.Move
import AsmLoader.Proofs.Session.Invariant
import AsmLoader.Region.Host
/-!
# Predefined names in units

A unit whose source mentions a predefined name is assembled as if the value of the name stood in
its place, and a value is never shortened on its way: not by the text that is written for it, nor
when that is read as a signed number, nor as an immediate.
-/

namespace AsmLoader

open Machine (Register lowBytes)
open Region (Host)

/-! ## Expansion of a move -/

namespace Symbol.Table

variable (t : Table)

theorem expand_word_of_find? {word : String} (hword : IsWord word.toList)
    (h : t.find? word = none) {rest : List Char} (hrest : rest.head?.any isNameChar = false) :
    t.expand (word.toList ++ rest) = word.toList ++ t.expand rest := by
  rw [t.expand_word_append hword hrest, expandPiece, String.ofList_toList, h]

theorem expandString_moveText {n : Fin 16} {name : String} {value : UInt64}
    (hmov : t.find? "mov" = none) (hregister : t.find? (Register.low .qword n).name = none)
    (hname : isValidName name) (hfind : t.find? name = some value) :
    t.expandString (Source.moveText (.low .qword n) name) =
      Source.moveText (.low .qword n) (renderAddress value) := by
  have hvalue : t.expand name.toList = (renderAddress value).toList := by
    rw [t.expand_of_isWord (isWord_of_isName hname), expandPiece, String.ofList_toList, hfind]
  apply String.toList_injective
  rw [toList_expandString, Source.toList_moveText, Source.toList_moveText,
    t.expand_word_of_find? (isWord_of_isName rfl) hmov rfl,
    t.expand_other (by decide) (by decide) (by decide),
    t.expand_word_of_find? (isWord_of_isName (Source.isName_name_qword n)) hregister rfl,
    t.expand_other (by decide) (by decide) (by decide),
    t.expand_other (by decide) (by decide) (by decide), hvalue]

end Symbol.Table

namespace Session

variable {σ : Type}

theorem exists_compiled {s : Session σ} (hs : s.Sound) {e : Engine σ} {unit : Handle}
    {u : CompilationUnit σ} (hu : s.units.find? unit = some u) {m : Manager}
    (hm : s.managerOf u = some m) {code : Code}
    (hanswer : (e.assemble u.engine u.expandedSource m.target).1 = .ok code)
    (hlength : code.length ≤ m.capacity.toNat) :
    ∃ next v, s.assemble e unit = some (.ok (.compiled m.base code.length), next) ∧
      next.units.find? unit = some v ∧ v.code? = some code := by
  obtain ⟨result, next, hassemble, hattempt⟩ := exists_attempt hs e hu
  cases hattempt with
  | detached u' hu' hnone =>
      rw [hu] at hu'
      cases hu'
      rw [hm] at hnone
      cases hnone
  | failed u' k m' answer engine diagnostics hu' hk hm' hasked hrefused =>
      rw [hu] at hu'
      cases hu'
      obtain rfl : m' = m := by simpa [managerOf, hk, hm'] using hm
      rw [hasked] at hanswer
      obtain rfl : answer = .ok code := hanswer
      rcases hrefused with ⟨reports, herror⟩ | ⟨code', hcode, hlong⟩
      · cases herror
      · cases hcode
        omega
  | compiled u' k m' loaded code' engine hu' hk hm' hasked hload =>
      rw [hu] at hu'
      cases hu'
      obtain rfl : m' = m := by simpa [managerOf, hk, hm'] using hm
      rw [hasked] at hanswer
      cases hanswer
      refine ⟨_, (u.reset.setEngine engine).succeed ⟨m'.base, code, loaded.generation⟩,
        hassemble, ?_, rfl⟩
      rw [Registry.find?_set, if_pos rfl, hu, Option.map_some]

/-- A name that a unit predefines, and moves into a 64-bit register, is compiled to the ten bytes
that hold its address, whatever has happened to the process before. -/
theorem assemble_predefined (e : Engine σ) (operations : List (Operation σ)) (unit : Handle)
    (u : CompilationUnit σ) (m : Manager) (n : Fin 16) (name : String) (address : UInt64)
    (hu : (after e operations).units.find? unit = some u)
    (hengine : ∀ source target,
      (e.assemble u.engine source target).1 = Assembly.assemble source target)
    (hsource : u.source = "mov " ++ (Register.low .qword n).name ++ ", " ++ name)
    (hsymbols : u.symbols = Symbol.Table.empty.insert name address)
    (hname : Symbol.isValidName name) (hmov : name ≠ "mov")
    (hregister : name ≠ (Register.low .qword n).name)
    (hmanager : (after e operations).managerOf u = some m) (hcapacity : 10 ≤ m.capacity.toNat) :
    ∃ next v, (after e operations).assemble e unit = some (.ok (.compiled m.base 10), next) ∧
      next.units.find? unit = some v ∧
      v.code? = some ([0x48 + UInt8.ofNat (n.val / 8), 0xB8 + UInt8.ofNat (n.val % 8)] ++
        lowBytes 8 address.toNat) := by
  have hexpanded : u.expandedSource =
      Source.moveText (.low .qword n) (Symbol.renderAddress address) := by
    rw [CompilationUnit.expandedSource, hsource, hsymbols]
    apply Symbol.Table.expandString_moveText _ _ _ hname
    · simp
    · simp [hmov.symm]
    · simp [hregister.symm]
  have hanswer : (e.assemble u.engine u.expandedSource m.target).1 =
      .ok ([0x48 + UInt8.ofNat (n.val / 8), 0xB8 + UInt8.ofNat (n.val % 8)] ++
        lowBytes 8 address.toNat) := by
    rw [hengine, hexpanded]
    exact Assembly.assemble_moveText n address rfl
  exact exists_compiled (sound_after e operations) hu hmanager hanswer hcapacity

/-- The highest address, under a name that would be a number if it were not predefined, in the
last register. -/
theorem assemble_predefined_highest :
    let operations : List (Operation Unit) :=
      [.openManager Host.standard (.ofCapacity 10), .createUnit (), .attach 0 0,
        .predefine 0 "$ff" 0xFFFFFFFFFFFFFFFF, .setSource 0 "mov r15, $ff"]
    ∃ next v, (after Assembly.engine operations).assemble Assembly.engine 0 =
        some (.ok (.compiled 0x7F0000000000 10), next) ∧
      next.units.find? 0 = some v ∧
      v.code? = some [0x49, 0xBF, 0xFF, 0xFF, 0xFF, 0xFF, 0xFF, 0xFF, 0xFF, 0xFF] := by
  intro operations
  have hstate : ((after Assembly.engine operations).units.find? 0).map (fun u =>
      (u.source, u.symbols,
        ((after Assembly.engine operations).managerOf u).map fun m => (m.base, m.capacity))) =
      some ("mov r15, $ff", Symbol.Table.empty.insert "$ff" 0xFFFFFFFFFFFFFFFF,
        some (0x7F0000000000, 10)) := by
    decide +kernel
  obtain ⟨u, hu, hdata⟩ := Option.map_eq_some_iff.mp hstate
  obtain ⟨hsource, hdata⟩ := Prod.mk.inj hdata
  obtain ⟨hsymbols, hmanager⟩ := Prod.mk.inj hdata
  obtain ⟨m, hm, hshape⟩ := Option.map_eq_some_iff.mp hmanager
  obtain ⟨hbase, hcapacity⟩ := Prod.mk.inj hshape
  have hcompiled := assemble_predefined Assembly.engine operations 0 u m 15 "$ff"
    0xFFFFFFFFFFFFFFFF hu (fun _ _ => rfl) (hsource.trans (by decide +kernel)) hsymbols
    (by decide +kernel) (by decide +kernel) (by decide +kernel) hm (by rw [hcapacity]; decide)
  rwa [hbase] at hcompiled

end Session

end AsmLoader
