import AsmLoader.Proofs.Symbol.Expansion
/-!
# Expanding again

An expanded text is cut into pieces where the text itself was cut, so that only its words are
looked up when it is expanded again. A number that was written for a word is no valid name. Hence
tables of valid names that do not contradict each other can be applied one after the other, in
any order, or all at once.
-/

namespace AsmLoader.Symbol.Table

variable {t u : Table}

/-! ## The pieces of an expanded text -/

def rewrite (t : Table) : Piece → Piece
  | .word cs => .word (t.expandPiece (.word cs))
  | .verbatim cs => .verbatim cs

theorem quotedSpan_expandQuoted (quote : Char) (cs : List Char) :
    quotedSpan quote (t.expandQuoted quote cs) =
      ((quotedSpan quote cs).1, t.expand (quotedSpan quote cs).2) := by
  induction cs with
  | nil => simp [quotedSpan]
  | cons c rest ih =>
      by_cases hquote : c = quote
      · subst hquote
        simp [t.expandQuoted_cons_self, quotedSpan]
      · by_cases hline : c = '\n'
        · subst hline
          have hexpand : t.expand ('\n' :: rest) = '\n' :: t.expand rest := by
            apply t.expand_other <;> decide
          simp [expandQuoted, quotedSpan, hquote, hexpand]
        · rw [t.expandQuoted_cons_of_ne hquote hline]
          simp only [quotedSpan, hquote, hline, if_false, ih]

theorem pieces_expand (t : Table) (cs : List Char) :
    pieces (t.expand cs) = (pieces cs).map t.rewrite := by
  induction cs using pieces.induct with
  | case1 => simp
  | case2 rest ih =>
      -- The text after the comment starts with a newline, if there is any.
      have hbody : ∀ c ∈ rest.takeWhile (· ≠ '\n'), decide (c ≠ '\n') := fun c hc =>
        List.mem_takeWhile_imp (p := fun c => decide (c ≠ '\n')) hc
      have hnewline : ∀ c, isNameChar c → decide (c ≠ '\n') := by
        intro c hc
        apply decide_eq_true
        rintro rfl
        revert hc
        decide
      have hend : (t.expand (rest.dropWhile (· ≠ '\n'))).head?.any (· ≠ '\n') = false := by
        rw [t.head?_any_expand_of hnewline, head?_any_dropWhile]
      rw [t.expand_comment, List.cons_append, pieces_comment, pieces_comment,
        takeWhile_append_of_head? hbody hend, dropWhile_append_of_head? hbody hend, ih]
      rfl
  | case3 c rest _ hquote ih =>
      rw [t.expand_quote hquote, pieces_quote hquote, pieces_quote hquote,
        quotedSpan_expandQuoted, ih]
      rfl
  | case4 c rest _ _ hname ih =>
      have hend : (t.expand (rest.dropWhile isNameChar)).head?.any isNameChar = false := by
        rw [t.head?_any_expand, head?_any_dropWhile]
      rw [t.expand_word hname, pieces_word hname,
        pieces_word_append (t.isWord_expandPiece (isWord_cons_takeWhile hname rest)) hend, ih]
      rfl
  | case5 c rest hcomment hquote hname ih =>
      rw [t.expand_other hcomment hquote hname, pieces_other hcomment hquote hname,
        pieces_other hcomment hquote hname, ih]
      rfl

/-! ## Two tables -/

def NamesValid (t : Table) : Prop :=
  ∀ name value, t.find? name = some value → isValidName name

def Agrees (t u : Table) : Prop :=
  ∀ name a b, t.find? name = some a → u.find? name = some b → a = b

/-- The entries of two tables. A name that both have is given the value in the second. -/
def union (t u : Table) : Table :=
  u.entries.foldr (fun entry both => both.insert entry.1 entry.2) t

theorem namesValid_empty : empty.NamesValid := by
  intro name value hfind
  cases hfind

theorem NamesValid.insert (ht : t.NamesValid) {name : String} (hname : isValidName name)
    (value : UInt64) : (t.insert name value).NamesValid := by
  intro other found hfind
  rw [find?_insert] at hfind
  split at hfind
  next heq => exact heq ▸ hname
  next => exact ht other found hfind

theorem Agrees.refl (t : Table) : t.Agrees t :=
  fun _ _ _ ha hb => Option.some.inj (ha.symm.trans hb)

theorem Agrees.symm (h : t.Agrees u) : u.Agrees t :=
  fun name a b ha hb => (h name b a hb ha).symm

@[simp] theorem find?_union (t u : Table) (name : String) :
    (t.union u).find? name = (u.find? name).or (t.find? name) := by
  obtain ⟨entries⟩ := u
  induction entries with
  | nil => rfl
  | cons entry rest ih =>
      change ((union t ⟨rest⟩).insert entry.1 entry.2).find? name =
        (((entry.1, entry.2) :: rest).lookup name).or (t.find? name)
      rw [find?_insert, lookup_cons_eq, ih]
      split <;> rfl

theorem NamesValid.find?_renderAddress (hu : u.NamesValid) (value : UInt64) :
    u.find? (renderAddress value) = none := by
  apply Option.eq_none_iff_forall_ne_some.mpr
  intro found hfind
  have hvalid := hu _ _ hfind
  rw [isValidName_renderAddress] at hvalid
  cases hvalid

theorem expandPiece_rewrite (hu : u.NamesValid) (hagree : t.Agrees u) (piece : Piece) :
    u.expandPiece (t.rewrite piece) = (t.union u).expandPiece piece := by
  cases piece with
  | verbatim cs => rfl
  | word cs =>
      simp only [rewrite, expandPiece, find?_union]
      cases ht : t.find? (String.ofList cs) with
      | none => simp
      | some value =>
          have hnumber := hu.find?_renderAddress value
          cases hfind : u.find? (String.ofList cs) with
          | none => simp [hnumber]
          | some other =>
              obtain rfl := hagree _ _ _ ht hfind
              simp [hnumber]

theorem expand_expand (hu : u.NamesValid) (hagree : t.Agrees u) (cs : List Char) :
    u.expand (t.expand cs) = (t.union u).expand cs := by
  rw [expand, pieces_expand, List.flatMap_map]
  exact List.flatMap_congr fun piece _ => expandPiece_rewrite hu hagree piece

theorem expand_comm (ht : t.NamesValid) (hu : u.NamesValid) (hagree : t.Agrees u)
    (cs : List Char) : u.expand (t.expand cs) = t.expand (u.expand cs) := by
  rw [expand_expand hu hagree, expand_expand ht hagree.symm]
  refine expand_congr fun word _ => expandPiece_congr ?_
  rw [find?_union, find?_union]
  cases htfind : t.find? (String.ofList word) with
  | none => simp
  | some a =>
      cases hufind : u.find? (String.ofList word) with
      | none => rfl
      | some b => rw [hagree _ a b htfind hufind]

/-! ## Any number of tables -/

def expandInTurn (source : String) (tables : List Table) : String :=
  tables.foldl (fun text t => t.expandString text) source

theorem expandString_comm (ht : t.NamesValid) (hu : u.NamesValid) (hagree : t.Agrees u)
    (source : String) :
    u.expandString (t.expandString source) = t.expandString (u.expandString source) := by
  simp only [expandString, String.toList_ofList, expand_comm ht hu hagree]

/-- Expanding with one table and then with another that does not contradict it is expanding with
the entries of both; a second time with the same table changes nothing; and any tables that do
not contradict each other may be applied in any order. -/
theorem expandString_expandString (ht : t.NamesValid) (hu : u.NamesValid) (hagree : t.Agrees u)
    (source : String) :
    u.expandString (t.expandString source) = (t.union u).expandString source ∧
      t.expandString (t.expandString source) = t.expandString source ∧
      ∀ tables others : List Table, tables.Perm others → (∀ v ∈ tables, v.NamesValid) →
        (∀ v ∈ tables, ∀ w ∈ tables, v.Agrees w) →
          expandInTurn source tables = expandInTurn source others := by
  refine ⟨?_, ?_, ?_⟩
  · simp only [expandString, String.toList_ofList, expand_expand hu hagree]
  · have hsame : (t.union t).expand source.toList = t.expand source.toList := by
      refine expand_congr fun word _ => expandPiece_congr ?_
      rw [find?_union, Option.or_self]
    simp only [expandString, String.toList_ofList, expand_expand ht (.refl t), hsame]
  · intro tables others hperm hvalid hagrees
    apply hperm.foldl_eq'
    intro v hv w hw text
    exact expandString_comm (hvalid v hv) (hvalid w hw) (hagrees v hv w hw) text

/-- A quote that is not closed, a comment and a character outside ASCII, with names in and around
them, one of which both tables have. -/
theorem expandString_expandString_unclosed :
    let t := (empty.insert "x" 1).insert "h" 0xBEEF
    let u := (empty.insert "_" 10).insert "h" 0xBEEF
    let source := "x _ xh+h'x h\nh;x\né_\"x\"_"
    t.NamesValid ∧ u.NamesValid ∧ t.Agrees u ∧
      u.expandString (t.expandString source) = "0x1 0xA xh+0xBEEF'x h\n0xBEEF;x\né0xA\"x\"0xA" ∧
      expandInTurn source [u, t, u] = expandInTurn source [u, u, t] := by
  intro t u source
  have ht : t.NamesValid :=
    (namesValid_empty.insert (by decide +kernel) _).insert (by decide +kernel) _
  have hu : u.NamesValid :=
    (namesValid_empty.insert (by decide +kernel) _).insert (by decide +kernel) _
  have hagree : t.Agrees u := by
    intro name a b ha hb
    rw [find?_insert, find?_insert] at ha hb
    split_ifs at ha hb <;> simp_all
  obtain ⟨hunion, -, hinturn⟩ := expandString_expandString ht hu hagree source
  refine ⟨ht, hu, hagree, ?_, ?_⟩
  · rw [hunion]
    decide +kernel
  · apply hinturn _ _ ((List.Perm.swap u t []).cons u)
    · simp [ht, hu]
    · simp [hagree, hagree.symm, Agrees.refl]

end AsmLoader.Symbol.Table
