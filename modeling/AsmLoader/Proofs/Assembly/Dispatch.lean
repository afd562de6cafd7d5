import AsmLoader.Assembly.Selection
/-!
# Names and dispatch

Instructions are selected by name and operands together: which names are looked at depends on how
many operands there are, and each family of names has an exit of its own. The same selection in
two steps: first the name stands for a mnemonic or for nothing, whatever the operands are, and
then the mnemonic decides what operands it takes. That the two agree rests on the list of known
names, which is kept apart from the dispatch.
-/

namespace AsmLoader.Assembly

open Machine (Bare Arith Shift Unary Condition CodeSize)

inductive Mnemonic where
  | bare (op : Bare)
  | mov
  | arith (op : Arith)
  | test
  | xchg
  | lea
  | movzx
  | movsx
  | movsxd
  | shift (op : Shift)
  | unary (op : Unary)
  | push
  | pop
  | call
  | jmp
  | jcc (condition : Condition)
  | set (condition : Condition)
  | cmov (condition : Condition)
  deriving DecidableEq, Repr

namespace Mnemonic

def plain : List (String × Mnemonic) :=
  [("nop", bare .nop), ("int3", bare .int3), ("leave", bare .leave), ("cdq", bare .cdq),
   ("cqo", bare .cqo), ("cdqe", bare .cdqe), ("cld", bare .cld), ("std", bare .std),
   ("ud2", bare .ud2), ("pause", bare .pause), ("ret", bare .ret), ("mov", mov),
   ("add", arith .add), ("sub", arith .sub), ("and", arith .and), ("or", arith .or),
   ("xor", arith .xor), ("cmp", arith .cmp), ("adc", arith .adc), ("sbb", arith .sbb),
   ("test", test), ("xchg", xchg), ("lea", lea), ("movzx", movzx), ("movsx", movsx),
   ("movsxd", movsxd), ("shl", shift .shl), ("sal", shift .shl), ("shr", shift .shr),
   ("sar", shift .sar), ("rol", shift .rol), ("ror", shift .ror), ("inc", unary .inc),
   ("dec", unary .dec), ("neg", unary .neg), ("not", unary .not), ("mul", unary .mul),
   ("div", unary .div), ("idiv", unary .idiv), ("imul", unary .imul), ("push", push),
   ("pop", pop), ("call", call), ("jmp", jmp)]

def ofFamily? (start : String) (make : Condition → Mnemonic) (name : String) :
    Option Mnemonic := do
  let suffix ← suffix? start name
  let condition ← Condition.ofSuffix? suffix
  return make condition

def ofName? (name : String) : Option Mnemonic :=
  match plain.lookup name with
  | some mnemonic => some mnemonic
  | none =>
    ofFamily? "j" jcc name <|> ofFamily? "set" set name <|> ofFamily? "cmov" cmov name

def isLongModeOnly : Mnemonic → Bool
  | bare .cqo | bare .cdqe | movsxd => true
  | _ => false

end Mnemonic

def selectKnown (codeSize : CodeSize) (mnemonic : Mnemonic) (args : List Argument)
    (invalid : StatementError) : Selection :=
  match mnemonic, args with
  | .bare op, [] => choose (.bare op)
  | .bare .ret, [.immediate value] =>
    if 0 ≤ value.toInt ∧ value.toInt ≤ 0xFFFF then choose (.retPop value.toUInt64.toUInt16)
    else .error (.immediateRange value 16)
  | .mov, [dst, src] => selectMov codeSize dst src invalid
  | .arith op, [dst, src] => selectArith op dst src invalid
  | .test, [dst, src] => selectTest dst src invalid
  | .xchg, [dst, src] => selectXchg dst src invalid
  | .lea, [dst, src] => selectLea dst src invalid
  | .movzx, [dst, src] => selectExtend .movzx dst src invalid
  | .movsx, [dst, src] => selectExtend .movsx dst src invalid
  | .movsxd, [dst, src] => selectMovsxd dst src invalid
  | .shift op, [dst, count] => selectShift op dst count invalid
  | .unary op, [dst] => selectUnary op dst invalid
  | .unary .imul, [dst, src] => selectImul dst src invalid
  | .unary .imul, [dst, src, .immediate value] => selectImulImmediate dst src value invalid
  | .push, [src] => selectPush codeSize src invalid
  | .pop, [dst] => selectPop codeSize dst invalid
  | .call, [target] => selectTransfer codeSize .call .callPlace target invalid
  | .jmp, [target] => selectTransfer codeSize .jmp .jmpPlace target invalid
  | .jcc condition, [target] => selectJcc condition target invalid
  | .set condition, [dst] => selectSet condition dst invalid
  | .cmov condition, [dst, src] => selectCmov condition dst src invalid
  | _, _ => .error invalid

/-- The selection with the name looked up first. -/
def selectNamed (codeSize : CodeSize) (name : String) (args : List Argument) : Selection :=
  match Mnemonic.ofName? name with
  | none => .error (.unknownInstruction name)
  | some m =>
    if codeSize = .bits32 ∧ m.isLongModeOnly then .error (.longModeOnly name)
    else selectKnown codeSize m args (.invalidOperands name)

variable {name : String}

/-! ## Beginnings and suffixes -/

theorem after?_eq_some_iff {start name rest : List Char} :
    after? start name = some rest ↔ name = start ++ rest := by
  fun_induction after? start name with
  | case1 cs => simp
  | case2 start hstart =>
      cases start with
      | nil => exact absurd rfl hstart
      | cons p ps => simp
  | case3 ps c cs ih => simp [ih]
  | case4 p ps c cs hne => simp [Ne.symm hne]

theorem suffix?_eq_some_iff {start suffix : String} :
    suffix? start name = some suffix ↔ name = start ++ suffix := by
  rw [suffix?, Option.map_eq_some_iff]
  constructor
  · rintro ⟨rest, hrest, rfl⟩
    rw [← String.toList_inj, String.toList_append, String.toList_ofList,
      after?_eq_some_iff.mp hrest]
  · rintro rfl
    exact ⟨suffix.toList, after?_eq_some_iff.mpr String.toList_append, String.ofList_toList⟩

theorem suffix?_append_eq_none {start other : String} {c d : Char} {cs ds : List Char}
    (hstart : start.toList = c :: cs) (hother : other.toList = d :: ds) (hne : d ≠ c)
    (suffix : String) : suffix? start (other ++ suffix) = none := by
  rw [Option.eq_none_iff_forall_not_mem]
  intro rest hrest
  have heq := suffix?_eq_some_iff.mp hrest
  rw [← String.toList_inj, String.toList_append, String.toList_append, hstart, hother] at heq
  exact hne (List.head_eq_of_cons_eq heq)

/-! ## Names that do not depend on a condition -/

section Plain

variable {codeSize : CodeSize} {dst src third : Argument} {rest : List Argument}

theorem lookup_eq_none_of_not_mem {α : Type} {table : List (String × α)}
    (htable : table.map Prod.fst ⊆ plainNames) (h : name ∉ plainNames) :
    table.lookup name = none := by
  rw [List.lookup_eq_none_iff]
  intro entry hentry
  have hname : name ≠ entry.1 := by
    rintro rfl
    exact h (htable (List.mem_map_of_mem hentry))
  simpa using hname

theorem exists_mem_plain (h : name ∈ plainNames) : ∃ m, (name, m) ∈ Mnemonic.plain := by
  have hnames : plainNames = Mnemonic.plain.map Prod.fst := rfl
  rw [hnames, List.mem_map] at h
  obtain ⟨⟨_, m⟩, hentry, rfl⟩ := h
  exact ⟨m, hentry⟩

theorem mem_plainNames {m : Mnemonic} (h : (name, m) ∈ Mnemonic.plain) : name ∈ plainNames :=
  List.mem_map_of_mem (f := Prod.fst) h

theorem ofName?_of_mem_plain :
    ∀ entry ∈ Mnemonic.plain, Mnemonic.ofName? entry.1 = some entry.2 :=
  List.map_inj_left.mp rfl

/-! What is selected is compared name by name: for each number of operands the rows of the table
are evaluated on both sides, and only then the operands stand in the way. -/

theorem longMode_of_mem_plain : ∀ entry ∈ Mnemonic.plain,
    decide (entry.1 ∈ longModeNames) = entry.2.isLongModeOnly :=
  List.map_inj_left.mp rfl

theorem selectBare_of_mem_plain : ∀ entry ∈ Mnemonic.plain,
    selectBare entry.1 = selectKnown codeSize entry.2 [] (.invalidOperands entry.1) :=
  List.map_inj_left.mp rfl

theorem selectOne_of_mem_plain : ∀ entry ∈ Mnemonic.plain,
    selectOne codeSize entry.1 dst =
      selectKnown codeSize entry.2 [dst] (.invalidOperands entry.1) := by
  cases dst <;> exact List.map_inj_left.mp rfl

theorem selectTwo_of_mem_plain : ∀ entry ∈ Mnemonic.plain,
    selectTwo codeSize entry.1 dst src =
      selectKnown codeSize entry.2 [dst, src] (.invalidOperands entry.1) := by
  cases dst <;> exact List.map_inj_left.mp rfl

theorem imul_of_mem_plain : ∀ entry ∈ Mnemonic.plain,
    decide (entry.1 = "imul") = decide (entry.2 = .unary .imul) :=
  List.map_inj_left.mp rfl

theorem isKnown_of_mem (h : name ∈ plainNames) : isKnown name = true := by
  rw [isKnown, List.contains_iff_mem.mpr h, Bool.true_or]

theorem refuse_of_mem (h : name ∈ plainNames) :
    refuse name = .error (.invalidOperands name) := by
  rw [refuse, if_pos (isKnown_of_mem h)]

theorem selectThree_of_ne (h : name ≠ "imul") :
    selectThree name dst src third = refuse name := by
  unfold selectThree
  split
  next => exact absurd rfl h
  next => rfl

theorem selectKnown_three_of_ne {m : Mnemonic} (invalid : StatementError)
    (h : m ≠ .unary .imul) :
    selectKnown codeSize m [dst, src, third] invalid = .error invalid := by
  unfold selectKnown
  split <;> simp_all

theorem selectThree_of_mem_plain {m : Mnemonic} (hm : (name, m) ∈ Mnemonic.plain) :
    selectThree name dst src third =
      selectKnown codeSize m [dst, src, third] (.invalidOperands name) := by
  have himul : name = "imul" ↔ m = .unary .imul := decide_eq_decide.mp (imul_of_mem_plain _ hm)
  by_cases h : name = "imul"
  · obtain rfl := himul.mp h
    subst h
    cases third <;> rfl
  · rw [selectThree_of_ne h, selectKnown_three_of_ne _ (mt himul.mpr h),
      refuse_of_mem (mem_plainNames hm)]

end Plain

/-! ## Names of the families and other names -/

section Families

variable {codeSize : CodeSize} {suffix : String}

theorem ofFamily?_eq (start : String) (make : Condition → Mnemonic) (name : String) :
    Mnemonic.ofFamily? start make name =
      ((suffix? start name).bind Condition.ofSuffix?).map make := by
  cases hsuffix : suffix? start name with
  | none => simp [Mnemonic.ofFamily?, hsuffix]
  | some suffix =>
      cases hc : Condition.ofSuffix? suffix <;> simp [Mnemonic.ofFamily?, hsuffix, hc]

theorem ofName?_cases (h : name ∉ plainNames) :
    (∃ suffix, suffix? "j" name = some suffix ∧ suffix? "set" name = none ∧
        suffix? "cmov" name = none ∧
        Mnemonic.ofName? name = (Condition.ofSuffix? suffix).map .jcc) ∨
      (∃ suffix, suffix? "j" name = none ∧ suffix? "set" name = some suffix ∧
        suffix? "cmov" name = none ∧
        Mnemonic.ofName? name = (Condition.ofSuffix? suffix).map .set) ∨
      (∃ suffix, suffix? "j" name = none ∧ suffix? "set" name = none ∧
        suffix? "cmov" name = some suffix ∧
        Mnemonic.ofName? name = (Condition.ofSuffix? suffix).map .cmov) ∨
      suffix? "j" name = none ∧ suffix? "set" name = none ∧ suffix? "cmov" name = none ∧
        Mnemonic.ofName? name = none := by
  have hlookup : Mnemonic.plain.lookup name = none :=
    lookup_eq_none_of_not_mem (List.Subset.refl plainNames) h
  simp only [Mnemonic.ofName?, hlookup, ofFamily?_eq]
  cases hj : suffix? "j" name with
  | some suffix =>
      obtain rfl := suffix?_eq_some_iff.mp hj
      have hset : suffix? "set" ("j" ++ suffix) = none :=
        suffix?_append_eq_none rfl rfl (by decide) suffix
      have hcmov : suffix? "cmov" ("j" ++ suffix) = none :=
        suffix?_append_eq_none rfl rfl (by decide) suffix
      refine .inl ⟨suffix, rfl, hset, hcmov, ?_⟩
      simp only [hset, hcmov, Option.bind_some, Option.bind_none, Option.map_none,
        Option.orElse_eq_orElse, Option.orElse_eq_or, Option.or_none]
  | none =>
      cases hset : suffix? "set" name with
      | some suffix =>
          obtain rfl := suffix?_eq_some_iff.mp hset
          have hcmov : suffix? "cmov" ("set" ++ suffix) = none :=
            suffix?_append_eq_none rfl rfl (by decide) suffix
          refine .inr (.inl ⟨suffix, rfl, rfl, hcmov, ?_⟩)
          simp only [hcmov, Option.bind_some, Option.bind_none, Option.map_none,
            Option.orElse_eq_orElse, Option.orElse_eq_or, Option.or_none, Option.none_or]
      | none =>
          cases hcmov : suffix? "cmov" name with
          | some suffix => exact .inr (.inr (.inl ⟨suffix, rfl, rfl, rfl, rfl⟩))
          | none => exact .inr (.inr (.inr ⟨rfl, rfl, rfl, rfl⟩))

/-- The list of known names agrees with the names that stand for a mnemonic. -/
theorem isKnown_eq_isSome (name : String) : isKnown name = (Mnemonic.ofName? name).isSome := by
  by_cases h : name ∈ plainNames
  · obtain ⟨m, hm⟩ := exists_mem_plain h
    rw [isKnown_of_mem h, ofName?_of_mem_plain _ hm, Option.isSome_some]
  · have hplain : plainNames.contains name = false := by
      rw [List.contains_eq_mem, decide_eq_false h]
    rcases ofName?_cases h with ⟨suffix, hj, hset, hcmov, hname⟩ |
      ⟨suffix, hj, hset, hcmov, hname⟩ | ⟨suffix, hj, hset, hcmov, hname⟩ |
      ⟨hj, hset, hcmov, hname⟩ <;>
      simp only [isKnown, hplain, familyStarts, List.any_cons, List.any_nil, hj, hset, hcmov,
        hname, Option.any_some, Option.any_none, Option.isSome_map, Option.isSome_none,
        Bool.false_or, Bool.or_false]

theorem selectBare_of_not_mem (h : name ∉ plainNames) : selectBare name = refuse name := by
  rw [selectBare, lookup_eq_none_of_not_mem (by decide) h]

theorem selectOne_of_not_mem (h : name ∉ plainNames) (arg : Argument) :
    selectOne codeSize name arg =
      match suffix? "j" name, suffix? "set" name with
      | some suffix, _ => selectFamily name suffix (selectJcc · arg (.invalidOperands name))
      | none, some suffix => selectFamily name suffix (selectSet · arg (.invalidOperands name))
      | none, none => refuse name := by
  unfold selectOne
  split
  next => exact absurd (by decide) h
  next => exact absurd (by decide) h
  next => exact absurd (by decide) h
  next => exact absurd (by decide) h
  next => exact absurd (by decide) h
  next =>
    rw [lookup_eq_none_of_not_mem (by decide) h]
    cases suffix? "j" name <;> cases suffix? "set" name <;> rfl

theorem selectTwo_of_not_mem (h : name ∉ plainNames) (dst src : Argument) :
    selectTwo codeSize name dst src =
      match suffix? "cmov" name with
      | some suffix => selectFamily name suffix (selectCmov · dst src (.invalidOperands name))
      | none => refuse name := by
  unfold selectTwo
  split
  next => exact absurd (by decide) h
  next => exact absurd (by decide) h
  next => exact absurd (by decide) h
  next => exact absurd (by decide) h
  next => exact absurd (by decide) h
  next => exact absurd (by decide) h
  next => exact absurd (by decide) h
  next => exact absurd (by decide) h
  next =>
    rw [lookup_eq_none_of_not_mem (by decide) h,
      lookup_eq_none_of_not_mem (by decide) h]
    cases suffix? "cmov" name <;> rfl

theorem selectThree_of_not_mem (h : name ∉ plainNames) (dst src third : Argument) :
    selectThree name dst src third = refuse name := by
  unfold selectThree
  split
  next => exact absurd (by decide) h
  next => rfl

end Families

/-! ## The two selections -/

section Selections

variable {codeSize : CodeSize} {args : List Argument}

theorem refuse_eq (name : String) : refuse name =
    match Mnemonic.ofName? name with
    | none => .error (.unknownInstruction name)
    | some _ => .error (.invalidOperands name) := by
  rw [refuse, isKnown_eq_isSome]
  cases Mnemonic.ofName? name <;> rfl

theorem selectKnown_of_four (m : Mnemonic) (invalid : StatementError) (a b c d : Argument)
    (rest : List Argument) :
    selectKnown codeSize m (a :: b :: c :: d :: rest) invalid = .error invalid := by
  unfold selectKnown
  split <;> simp_all

theorem dispatch_of_mem_plain {m : Mnemonic} (hm : (name, m) ∈ Mnemonic.plain) :
    dispatch codeSize name args = selectKnown codeSize m args (.invalidOperands name) := by
  match args with
  | [] => exact selectBare_of_mem_plain _ hm
  | [_] => exact selectOne_of_mem_plain _ hm
  | [_, _] => exact selectTwo_of_mem_plain _ hm
  | [_, _, _] => exact selectThree_of_mem_plain hm
  | a :: b :: c :: d :: rest =>
      rw [selectKnown_of_four]
      exact refuse_of_mem (mem_plainNames hm)

/-- A name that begins like a family stands for one of its instructions or for nothing, and with
the wrong number of operands the list of known names says which. -/
theorem dispatch_of_not_mem (h : name ∉ plainNames) : dispatch codeSize name args =
    match Mnemonic.ofName? name with
    | none => .error (.unknownInstruction name)
    | some m => selectKnown codeSize m args (.invalidOperands name) := by
  -- The operands are counted, and the name is looked at just as far as the dispatch does it.
  rcases args with _ | ⟨a, _ | ⟨b, _ | ⟨c, _ | ⟨d, rest⟩⟩⟩⟩ <;>
    rcases ofName?_cases h with ⟨suffix, hj, hset, hcmov, hname⟩ |
      ⟨suffix, hj, hset, hcmov, hname⟩ | ⟨suffix, hj, hset, hcmov, hname⟩ |
      ⟨hj, hset, hcmov, hname⟩ <;>
    simp only [dispatch, selectBare_of_not_mem h, selectOne_of_not_mem h, selectTwo_of_not_mem h,
      selectThree_of_not_mem h, refuse_eq, selectFamily, hname, hj, hset, hcmov] <;>
    cases Condition.ofSuffix? suffix <;> rfl

theorem isLongModeOnly_of_not_mem (h : name ∉ plainNames) {m : Mnemonic}
    (hm : Mnemonic.ofName? name = some m) : m.isLongModeOnly = false := by
  have hfamily {suffix : String} {make : Condition → Mnemonic}
      (hname : Mnemonic.ofName? name = (Condition.ofSuffix? suffix).map make)
      (hmake : ∀ c, (make c).isLongModeOnly = false) : m.isLongModeOnly = false := by
    rw [hname, Option.map_eq_some_iff] at hm
    obtain ⟨c, -, rfl⟩ := hm
    exact hmake c
  rcases ofName?_cases h with ⟨_, -, -, -, hname⟩ | ⟨_, -, -, -, hname⟩ | ⟨_, -, -, -, hname⟩ |
    ⟨-, -, -, hname⟩
  · exact hfamily hname fun _ => rfl
  · exact hfamily hname fun _ => rfl
  · exact hfamily hname fun _ => rfl
  · rw [hname] at hm
    cases hm

/-- What is selected by name and operands together is what the mnemonic of the name decides, and
a name without a mnemonic is unknown whatever the operands are. -/
theorem select_eq_selectNamed (codeSize : CodeSize) (name : String) (args : List Argument) :
    select codeSize name args = selectNamed codeSize name args := by
  by_cases h : name ∈ plainNames
  · obtain ⟨m, hm⟩ := exists_mem_plain h
    have hlong : name ∈ longModeNames ↔ m.isLongModeOnly = true := by
      rw [← longMode_of_mem_plain _ hm, decide_eq_true_iff]
    simp only [select, selectNamed, ofName?_of_mem_plain _ hm, dispatch_of_mem_plain hm, hlong]
  · have hlong : name ∉ longModeNames := by
      have hsubset : longModeNames ⊆ plainNames := by decide
      exact fun hmem => h (hsubset hmem)
    rw [select, selectNamed, dispatch_of_not_mem h, if_neg fun hboth => hlong hboth.2]
    cases hname : Mnemonic.ofName? name with
    | none => rfl
    | some m => simp [isLongModeOnly_of_not_mem h hname]

theorem select_of_ofName? {m : Mnemonic} (hname : Mnemonic.ofName? name = some m) :
    select codeSize name args =
      if codeSize = .bits32 ∧ m.isLongModeOnly then .error (.longModeOnly name)
      else selectKnown codeSize m args (.invalidOperands name) := by
  rw [select_eq_selectNamed, selectNamed, hname]

end Selections

end AsmLoader.Assembly
