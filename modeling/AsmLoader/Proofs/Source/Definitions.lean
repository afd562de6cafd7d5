import AsmLoader.Proofs.Source.Padding
import Mathlib.Data.List.Induction
/-!
# Definitions of labels

The labels of a source as they are written, line by line, and the names that they get. A name
that starts with a dot is local: it is put after the most recent label that is not. Names are put
together without a mark between the parts, and a global label may have dots of its own, so that
local labels of two global labels can have one name.
-/

namespace AsmLoader.Source

/-- A label as it is written where it is defined, and the number of the line. -/
structure Definition where
  line : Nat
  name : String
  deriving DecidableEq, Repr

/-- The labels at the start of a line: those with a colon, and the name of data. -/
def writtenLabels : List Token → List String
  | .word name :: .mark ':' :: rest => name :: writtenLabels rest
  | tokens => ((dataName? tokens).map Prod.fst).toList

def definitionsOn (number : Nat) (line : String) : List Definition :=
  match tokenize line.toList with
  | .ok tokens => (writtenLabels tokens).map (⟨number, ·⟩)
  | .error _ => []

def definitionsFrom (number : Nat) : List String → List Definition
  | [] => []
  | line :: rest => definitionsOn number line ++ definitionsFrom (number + 1) rest

def definitionsOf (source : String) : List Definition :=
  definitionsFrom 1 (Text.linesOf source)

def isLocal (name : String) : Bool :=
  name.toList.head? == some '.'

def lastGlobal (ds : List Definition) : Scope :=
  (ds.reverse.find? fun d => !isLocal d.name).map Definition.name

/-- A label of a source is defined under a global label, or under none. -/
structure Stands (ds : List Definition) (i : Nat) (scope : Scope) (d : Definition) : Prop where
  getElem?_eq : ds[i]? = some d
  lastGlobal_eq : lastGlobal (ds.take i) = scope

/-! ## Local names -/

section

variable {scope : Scope} {name label : String}

theorem exists_toList_of_isLocal (h : isLocal name) : ∃ rest, name.toList = '.' :: rest := by
  unfold isLocal at h
  cases hlist : name.toList with
  | nil => simp [hlist] at h
  | cons c rest =>
      rw [hlist] at h
      obtain rfl : c = '.' := by simpa using h
      exact ⟨rest, rfl⟩

theorem Scope.qualify_some (h : isLocal name) :
    Scope.qualify (some label) name = label ++ name := by
  obtain ⟨rest, hlist⟩ := exists_toList_of_isLocal h
  simp [qualify, hlist]

theorem Scope.qualify_none : Scope.qualify none name = name := by
  simp [qualify]

theorem Scope.after_eq : scope.after name = if isLocal name then scope else some name := by
  unfold after
  split
  next rest hlist => simp [isLocal, hlist]
  next hlist =>
    have hglobal : ¬isLocal name := fun h => by
      obtain ⟨rest, hrest⟩ := exists_toList_of_isLocal h
      exact hlist rest hrest
    rw [if_neg hglobal]

end

/-! ## All names -/

def qualifyAll : Scope → List Definition → List (String × Nat)
  | _, [] => []
  | scope, d :: ds => (scope.qualify d.name, d.line) :: qualifyAll (scope.after d.name) ds

def Scope.afterAll (scope : Scope) (ds : List Definition) : Scope :=
  ds.foldl (fun scope d => scope.after d.name) scope

section

variable {scope : Scope} {ds ds' : List Definition}

theorem qualifyAll_append :
    qualifyAll scope (ds ++ ds') = qualifyAll scope ds ++ qualifyAll
      (scope.afterAll ds) ds' := by
  induction ds generalizing scope with
  | nil => rfl
  | cons d ds ih =>
      rw [List.cons_append, qualifyAll, ih]
      rfl

theorem Scope.afterAll_append :
    scope.afterAll (ds ++ ds') = (scope.afterAll ds).afterAll ds' :=
  List.foldl_append

theorem getElem?_qualifyAll (i : Nat) :
    (qualifyAll scope ds)[i]? =
      ds[i]?.map fun d => ((scope.afterAll (ds.take i)).qualify d.name, d.line) := by
  induction ds generalizing scope i with
  | nil => rfl
  | cons d ds ih =>
      cases i with
      | zero => rfl
      | succ i => exact ih i

theorem lastGlobal_concat (ds : List Definition) (d : Definition) :
    lastGlobal (ds ++ [d]) = Scope.after (lastGlobal ds) d.name := by
  rw [Scope.after_eq, lastGlobal, List.reverse_append, List.reverse_singleton,
    List.singleton_append, List.find?_cons]
  cases isLocal d.name <;> rfl

theorem Scope.afterAll_none (ds : List Definition) : Scope.afterAll none ds = lastGlobal ds := by
  induction ds using List.reverseRecOn with
  | nil => rfl
  | append_singleton ds d ih =>
      rw [lastGlobal_concat, ← ih]
      exact afterAll_append

theorem Stands.getElem?_qualifyAll {i : Nat} {d : Definition} (h : Stands ds i scope d) :
    (qualifyAll none ds)[i]? = some (scope.qualify d.name, d.line) := by
  rw [Source.getElem?_qualifyAll, h.getElem?_eq, Scope.afterAll_none, h.lastGlobal_eq]
  rfl

theorem exists_stands {i line : Nat} {name : String}
    (h : (qualifyAll none ds)[i]? = some (name, line)) :
    ∃ scope d, Stands ds i scope d ∧ scope.qualify d.name = name ∧ d.line = line := by
  rw [getElem?_qualifyAll] at h
  obtain ⟨d, hd, heq⟩ := Option.map_eq_some_iff.mp h
  cases heq
  exact ⟨_, d, ⟨hd, rfl⟩, by rw [Scope.afterAll_none], rfl⟩

end

/-! ## Reading -/

def marksOf (statements : List Statement) : List (String × Nat) :=
  statements.flatMap fun s => s.labels.map (·, s.line)

section

variable {scope next : Scope}

theorem readLabels_eq_ok {tokens rest : List Token} {labels : List String}
    (h : readLabels scope tokens = (next, .ok (labels, rest))) (number : Nat) :
    ∃ names, writtenLabels tokens = names ++ ((dataName? rest).map Prod.fst).toList ∧
      labels.map (·, number) = qualifyAll scope (names.map (⟨number, ·⟩)) ∧
      next = scope.afterAll (names.map (⟨number, ·⟩)) := by
  fun_induction readLabels scope tokens generalizing next labels rest with
  | case1 scope name tokens hreserved => cases h
  | case2 scope name tokens hreserved next' result hread ih =>
      obtain ⟨rfl, hresult⟩ := Prod.mk.inj h
      obtain ⟨⟨labels', rest'⟩, rfl, heq⟩ := map_eq_ok_iff.mp hresult
      cases heq
      obtain ⟨names, hwritten, hlabels, hnext⟩ := ih hread
      refine ⟨name :: names, by rw [writtenLabels, hwritten]; rfl, ?_, hnext⟩
      rw [List.map_cons, hlabels]
      rfl
  | case3 scope tokens hcolon =>
      cases h
      refine ⟨[], ?_, rfl, rfl⟩
      rw [writtenLabels.eq_2 _ hcolon]
      rfl

theorem readRest_eq_ok {labels : List String} {tokens : List Token}
    {read : Option (List String × Body)} (h : readRest scope labels tokens = .ok read) :
    read.elim [] Prod.fst = labels := by
  unfold readRest at h
  split at h
  next =>
    cases h
    split
    next hempty => exact (List.isEmpty_iff.mp hempty).symm
    next => rfl
  next =>
    obtain ⟨body, -, rfl⟩ := map_eq_ok_iff.mp h
    rfl
  next => cases h

theorem readLine_eq_ok {line : String} {read : Option (List String × Body)}
    (h : readLine scope line.toList = (next, .ok read)) (number : Nat) :
    (read.elim [] Prod.fst).map (·, number) = qualifyAll scope (definitionsOn number line) ∧
      next = scope.afterAll (definitionsOn number line) := by
  unfold readLine at h
  unfold definitionsOn
  split at h
  next => cases h
  next tokens htokens =>
    rw [htokens]
    dsimp only
    split at h
    next => cases h
    next middle labels rest hread =>
      obtain ⟨names, hwritten, hlabels, hmiddle⟩ := readLabels_eq_ok hread number
      rw [hwritten, List.map_append, qualifyAll_append, Scope.afterAll_append, ← hlabels,
        ← hmiddle]
      split at h
      next name rest' hname =>
        obtain ⟨rfl, hrest⟩ := Prod.mk.inj h
        rw [readRest_eq_ok hrest, hname]
        exact ⟨by rw [List.map_append]; rfl, rfl⟩
      next hname =>
        obtain ⟨rfl, hrest⟩ := Prod.mk.inj h
        rw [readRest_eq_ok hrest, hname]
        exact ⟨(List.append_nil _).symm, rfl⟩

theorem marksOf_statementOf (number : Nat) (read : Option (List String × Body)) :
    marksOf (statementOf number read) = (read.elim [] Prod.fst).map (·, number) := by
  cases read <;> simp [marksOf, statementOf]

theorem marksOf_readLines {number : Nat} {lines : List String}
    (h : (readLines scope number lines).2 = []) :
    marksOf (readLines scope number lines).1 =
      qualifyAll scope (definitionsFrom number lines) := by
  induction lines generalizing scope number with
  | nil => rfl
  | cons line rest ih =>
      obtain ⟨read, hline⟩ := exists_readLine_eq h
      obtain ⟨hmarks, hnext⟩ := readLine_eq_ok hline number
      rw [readLines_cons hline] at h ⊢
      rw [definitionsFrom, qualifyAll_append, ← hmarks, ← hnext, ← ih h, marksOf,
        List.flatMap_append]
      exact congrArg (· ++ _) (marksOf_statementOf number read)

/-- The labels of a source that can be read are those written in it, each in its scope. -/
theorem marksOf_eq {source : String} {statements : List Statement}
    (h : parse source = .ok statements) :
    marksOf statements = qualifyAll none (definitionsOf source) := by
  rw [parse_eq_ok_iff] at h
  have hmarks := marksOf_readLines (congrArg Prod.snd h)
  rwa [h] at hmarks

end

/-! ## Names that are not empty -/

theorem word_ne_empty_of_wordToken {cs : List Char} (hne : cs ≠ []) {name : String}
    (h : wordToken cs = .ok (.word name)) : name ≠ "" := by
  unfold wordToken at h
  split at h
  next => cases h
  next =>
    split at h
    next => cases h
    next =>
      cases h
      rintro hempty
      exact hne (by simpa using congrArg String.toList hempty)

theorem word_ne_empty_of_tokenize {cs : List Char} {tokens : List Token}
    (h : tokenize cs = .ok tokens) {name : String} (hname : .word name ∈ tokens) :
    name ≠ "" := by
  induction cs using tokenize.induct generalizing tokens with
  | case1 =>
      rw [tokenize_nil] at h
      cases h
      cases hname
  | case2 c rest hc ih =>
      rw [tokenize_blank hc] at h
      exact ih h hname
  | case3 rest hc =>
      rw [tokenize_comment] at h
      cases h
      cases hname
  | case4 c rest _ _ hquote hnone =>
      rw [tokenize_quote hquote, hnone] at h
      cases h
  | case5 c rest _ _ hquote body after hsome ih =>
      rw [tokenize_quote hquote, hsome] at h
      obtain ⟨more, hmore, rfl⟩ := map_eq_ok_iff.mp h
      exact ih hmore ((List.mem_cons.mp hname).resolve_left (by simp))
  | case6 c rest hc hcomment hquote hchar ih =>
      rw [tokenize_name hchar] at h
      obtain ⟨token, htoken, h⟩ := bind_eq_ok_iff.mp h
      obtain ⟨more, hmore, rfl⟩ := map_eq_ok_iff.mp h
      rcases List.mem_cons.mp hname with rfl | hname
      · exact word_ne_empty_of_wordToken (List.cons_ne_nil _ _) htoken
      · exact ih hmore hname
  | case7 c rest hc hcomment hquote hchar hmark ih =>
      rw [tokenize_mark hc hcomment hquote hchar hmark] at h
      obtain ⟨more, hmore, rfl⟩ := map_eq_ok_iff.mp h
      exact ih hmore ((List.mem_cons.mp hname).resolve_left (by simp))
  | case8 c rest hc hcomment hquote hchar hmark =>
      rw [tokenize_unexpected hc hcomment hquote hchar hmark] at h
      cases h

theorem word_mem_of_mem_writtenLabels {tokens : List Token} {name : String}
    (h : name ∈ writtenLabels tokens) : .word name ∈ tokens := by
  fun_induction writtenLabels tokens with
  | case1 first rest ih =>
      rcases List.mem_cons.mp h with rfl | h
      · exact List.mem_cons_self
      · exact List.mem_cons_of_mem _ (List.mem_cons_of_mem _ (ih h))
  | case2 tokens =>
      unfold dataName? at h
      split at h
      next =>
        split at h
        next =>
          obtain rfl : name = _ := by simpa using h
          exact List.mem_cons_self
        next => simp at h
      next => simp at h

theorem name_ne_empty_of_definitionsFrom {number : Nat} {lines : List String} {d : Definition}
    (h : d ∈ definitionsFrom number lines) : d.name ≠ "" := by
  induction lines generalizing number with
  | nil => cases h
  | cons line rest ih =>
      rcases List.mem_append.mp h with h | h
      · unfold definitionsOn at h
        split at h
        next htokens =>
          obtain ⟨name, hname, rfl⟩ := List.mem_map.mp h
          exact word_ne_empty_of_tokenize htokens (word_mem_of_mem_writtenLabels hname)
        next => cases h
      · exact ih h

/-! ## Names that are the same -/

/-- A local name under one global label goes on with a part by which another global label is
longer, and then with the local name that stands under that one. -/
def Continues (scope : Scope) (name : String) (scope' : Scope) (name' : String) : Prop :=
  ∃ label part, scope = some label ∧ scope' = some (label ++ part) ∧ name = part ++ name'

theorem append_eq_append_iff {label name label' name' : String} :
    label ++ name = label' ++ name' ↔
      (∃ part, label' = label ++ part ∧ name = part ++ name') ∨
        ∃ part, label = label' ++ part ∧ name' = part ++ name := by
  constructor
  · intro h
    have hlists : label.toList ++ name.toList = label'.toList ++ name'.toList := by
      rw [← String.toList_append, h, String.toList_append]
    rcases List.append_eq_append_iff.mp hlists with ⟨part, hlabel, hname⟩ | ⟨part, hlabel, hname⟩
    · refine .inl ⟨String.ofList part, ?_, ?_⟩ <;>
        rw [← String.toList_inj, String.toList_append, String.toList_ofList]
      · exact hlabel
      · exact hname
    · refine .inr ⟨String.ofList part, ?_, ?_⟩ <;>
        rw [← String.toList_inj, String.toList_append, String.toList_ofList]
      · exact hlabel
      · exact hname
  · rintro (⟨part, rfl, rfl⟩ | ⟨part, rfl, rfl⟩)
    · rw [String.append_assoc]
    · rw [String.append_assoc]

theorem ne_append_of_isLocal {label name : String} (hname : isLocal name)
    (hlabel : label ≠ "" ∧ ¬isLocal label) (name' : String) : name ≠ label ++ name' := by
  rintro rfl
  refine hlabel.2 ?_
  cases hlist : label.toList with
  | nil => exact absurd (String.toList_eq_nil_iff.mp hlist) hlabel.1
  | cons c rest => simpa [isLocal, String.toList_append, hlist] using hname

/-- Local names in different scopes are the same only if one continues as the other. -/
theorem qualify_eq_qualify_iff {scope scope' : Scope} {name name' : String}
    (hname : isLocal name) (hname' : isLocal name')
    (hscope : ∀ label ∈ scope, label ≠ "" ∧ ¬isLocal label)
    (hscope' : ∀ label ∈ scope', label ≠ "" ∧ ¬isLocal label) (hne : scope ≠ scope') :
    scope.qualify name = scope'.qualify name' ↔
      Continues scope name scope' name' ∨ Continues scope' name' scope name := by
  cases scope with
  | none =>
      cases scope' with
      | none => exact absurd rfl hne
      | some label' =>
          rw [Scope.qualify_none, Scope.qualify_some hname']
          have hdiffer := ne_append_of_isLocal hname (hscope' label' rfl) name'
          simp [Continues, hdiffer]
  | some label =>
      cases scope' with
      | none =>
          rw [Scope.qualify_none, Scope.qualify_some hname]
          have hdiffer := ne_append_of_isLocal hname' (hscope label rfl) name
          simp [Continues, hdiffer.symm]
      | some label' =>
          rw [Scope.qualify_some hname, Scope.qualify_some hname', append_eq_append_iff]
          simp [Continues]

theorem Stands.label_ne_empty {source : String} {i : Nat} {scope : Scope} {d : Definition}
    (h : Stands (definitionsOf source) i scope d) :
    ∀ label ∈ scope, label ≠ "" ∧ ¬isLocal label := by
  rintro label hlabel
  rw [← h.lastGlobal_eq] at hlabel
  obtain ⟨d', hd', rfl⟩ := Option.map_eq_some_iff.mp hlabel
  have hmem : d' ∈ definitionsOf source :=
    List.mem_of_mem_take (List.mem_reverse.mp (List.mem_of_find?_eq_some hd'))
  exact ⟨name_ne_empty_of_definitionsFrom hmem, by simpa using List.find?_some hd'⟩

end AsmLoader.Source
