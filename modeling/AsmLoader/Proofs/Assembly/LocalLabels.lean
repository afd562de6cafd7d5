import AsmLoader.Proofs.Assembly.Repetitions
import AsmLoader.Proofs.Source.References
/-!
# Local labels

Local labels of different global labels have different names, except where a global label with
dots in it goes on as a local name under a shorter one does. What is reported as a repetition,
and what a reference leads to, is told by the names alone: the first label of a name is the one
that counts.
-/

namespace AsmLoader.Assembly

open Source (Continues Definition Scope Stands Statement Writes definitionsOf isLocal lastGlobal
  marksOf qualifyAll)

structure FirstNamed (ds : List Definition) (name : String) (i : Nat) (d : Definition) :
    Prop where
  getElem?_eq : ds[i]? = some d
  qualify_eq : Scope.qualify (lastGlobal (ds.take i)) d.name = name
  ne_before : ∀ j < i, ∀ scope d', Stands ds j scope d' → scope.qualify d'.name ≠ name

/-! ## The first of a name -/

variable {ds : List Definition} {name : String} {line i : Nat}

theorem exists_firstNamed_of_lookup (h : ((qualifyAll none ds).take i).lookup name = some line) :
    ∃ j d, j < i ∧ FirstNamed ds name j d ∧ d.line = line := by
  obtain ⟨j, hlt, hj, hfirst⟩ := lookup_take_eq_some_iff.mp h
  obtain ⟨scope, d, hd, hname, hline⟩ := Source.exists_stands hj
  refine ⟨j, d, hlt, ⟨hd.getElem?_eq, by rw [hd.lastGlobal_eq, hname], ?_⟩, hline⟩
  rintro k hk scope' d' hd' rfl
  exact hfirst k hk d'.line hd'.getElem?_qualifyAll

theorem lookup_of_firstNamed {j : Nat} {d : Definition} (h : FirstNamed ds name j d)
    (hlt : j < i) : ((qualifyAll none ds).take i).lookup name = some d.line := by
  have hd : Stands ds j (lastGlobal (ds.take j)) d := ⟨h.getElem?_eq, rfl⟩
  refine lookup_take_eq_some_iff.mpr ⟨j, hlt, ?_, fun k hk line' hline' => ?_⟩
  · rw [hd.getElem?_qualifyAll, h.qualify_eq]
  · obtain ⟨scope, d', hd', hname, -⟩ := Source.exists_stands hline'
    exact h.ne_before k hk scope d' hd' hname

/-! ## Sources -/

/-- How the labels of a source are kept apart. -/
structure SeparatesLabels (source : String) (statements : List Statement) : Prop where
  /-- The labels of the statements are those written in the source, with their full names. -/
  marks : ∀ i scope d, Stands (definitionsOf source) i scope d →
    (marksOf statements)[i]? = some (scope.qualify d.name, d.line)
  /-- Local labels of different global labels have one name just if one continues as
  the other. -/
  locals : ∀ i j scope scope' d d', Stands (definitionsOf source) i scope d →
    Stands (definitionsOf source) j scope' d' → isLocal d.name → isLocal d'.name →
      scope ≠ scope' →
        (scope.qualify d.name = scope'.qualify d'.name ↔
          Continues scope d.name scope' d'.name ∨ Continues scope' d'.name scope d.name)
  /-- A label is reported just if an earlier one has its name, and the first of these
  is cited. -/
  repetitions : ∀ r, r ∈ (bindLabels statements).1.repetitions ↔
    ∃ i j scope d first, Stands (definitionsOf source) i scope d ∧
      scope.qualify d.name = r.name ∧
      d.line = r.line ∧ j < i ∧ FirstNamed (definitionsOf source) r.name j first ∧
        first.line = r.firstLine
  /-- What a statement refers to is written on its line, under the most recent global label up to
  the end of the line. -/
  references : ∀ s ∈ statements, ∀ name ∈ s.references, ∃ line tokens,
    (Text.linesOf source)[s.line - 1]? = some line ∧ Source.tokenize line.toList = .ok tokens ∧
      Writes (lastGlobal ((definitionsOf source).filter fun d => d.line ≤ s.line)) tokens name
  /-- A name leads to the statement of the first label that has it. -/
  places : ∀ name place, (bindLabels statements).1.find? name = some place →
    ∃ i first k s, FirstNamed (definitionsOf source) name i first ∧ statements[k]? = some s ∧
      s.line = first.line ∧ name ∈ s.labels ∧
        (numbersOf statements)[k + (statements.drop k).findIdx emits]? = some place

theorem exists_first_of_find? {source : String} {statements : List Statement}
    (hmarks : marksOf statements = qualifyAll none (definitionsOf source)) {place : PlaceId}
    (h : (bindLabels statements).1.find? name = some place) :
    ∃ i first k s, FirstNamed (definitionsOf source) name i first ∧ statements[k]? = some s ∧
      s.line = first.line ∧ name ∈ s.labels ∧
        (numbersOf statements)[k + (statements.drop k).findIdx emits]? = some place := by
  obtain ⟨k, s, hs, hname, -, hlookup, hplace⟩ := exists_statement_of_find? h
  have hall : ((qualifyAll none (definitionsOf source)).take
      (qualifyAll none (definitionsOf source)).length).lookup name = some s.line := by
    rw [List.take_length, ← hmarks, hlookup]
  obtain ⟨i, first, -, hfirst, hline⟩ := exists_firstNamed_of_lookup hall
  exact ⟨i, first, k, s, hfirst, hs, hline.symm, hname, hplace⟩

/-- In a source that can be read, local labels of different global labels have different names,
unless one of them continues as the other; and labels with different names are neither reported
as repetitions of each other, nor led to by one another's references. -/
theorem separatesLabels_of_parse {source : String} {statements : List Statement}
    (hparse : Source.parse source = .ok statements) : SeparatesLabels source statements := by
  have hmarks := Source.marksOf_eq hparse
  refine ⟨fun i scope d hd => ?_, fun i j scope scope' d d' hd hd' hlocal hlocal' hne => ?_,
    fun r => ?_, fun s hs name hname => Source.writes_of_parse hparse hs hname,
    fun name place h => exists_first_of_find? hmarks h⟩
  · rw [hmarks]
    exact hd.getElem?_qualifyAll
  · exact Source.qualify_eq_qualify_iff hlocal hlocal' hd.label_ne_empty hd'.label_ne_empty hne
  · rw [repetitions_bindLabels, mem_repetitionsOf_iff, hmarks]
    constructor
    · rintro ⟨i, hi, hfirst⟩
      obtain ⟨scope, d, hd, hname, hline⟩ := Source.exists_stands hi
      obtain ⟨j, first, hlt, hfirst, hfirstLine⟩ := exists_firstNamed_of_lookup hfirst
      exact ⟨i, j, scope, d, first, hd, hname, hline, hlt, hfirst, hfirstLine⟩
    · rintro ⟨i, j, scope, d, first, hd, hname, hline, hlt, hfirst, hfirstLine⟩
      refine ⟨i, ?_, ?_⟩
      · rw [hd.getElem?_qualifyAll, hname, hline]
      · rw [lookup_of_firstNamed hfirst hlt, hfirstLine]

/-- Local labels of the same name under two global labels. -/
theorem separatesLabels_two_scopes :
    let statements : List Statement :=
      [⟨1, ["a", "a.x"], .instruction "nop" []⟩, ⟨2, ["b", "b.x"], .instruction "nop" []⟩]
    Source.parse "a: .x: nop\nb: .x: nop" = .ok statements ∧
      SeparatesLabels "a: .x: nop\nb: .x: nop" statements := by
  intro statements
  have hparse : Source.parse "a: .x: nop\nb: .x: nop" = .ok statements := by decide +kernel
  exact ⟨hparse, separatesLabels_of_parse hparse⟩

/-- Local labels under two global labels that have one name, the second of which is reported. -/
theorem local_labels_collide :
    let source := "a: nop\n.b.c: nop\na.b: nop\n.c: nop"
    ∃ statements, Source.parse source = .ok statements ∧
      Stands (definitionsOf source) 1 (some "a") ⟨2, ".b.c"⟩ ∧
      Stands (definitionsOf source) 3 (some "a.b") ⟨4, ".c"⟩ ∧
      isLocal ".b.c" ∧ isLocal ".c" ∧ (some "a" : Scope) ≠ some "a.b" ∧
      Scope.qualify (some "a") ".b.c" = Scope.qualify (some "a.b") ".c" ∧
      ⟨4, "a.b.c", 2⟩ ∈ (bindLabels statements).1.repetitions := by
  intro source
  have hparse : Source.parse source =
      .ok [⟨1, ["a"], .instruction "nop" []⟩, ⟨2, ["a.b.c"], .instruction "nop" []⟩,
        ⟨3, ["a.b"], .instruction "nop" []⟩, ⟨4, ["a.b.c"], .instruction "nop" []⟩] := by
    decide +kernel
  have hdefinitions : definitionsOf source =
      [⟨1, "a"⟩, ⟨2, ".b.c"⟩, ⟨3, "a.b"⟩, ⟨4, ".c"⟩] := by decide +kernel
  rw [hdefinitions]
  exact ⟨_, hparse, ⟨rfl, by decide⟩,
    ⟨rfl, by decide⟩, by decide, by decide, by decide, by decide, by decide⟩

end AsmLoader.Assembly
