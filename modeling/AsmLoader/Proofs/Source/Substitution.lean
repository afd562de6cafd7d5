import AsmLoader.Proofs.Symbol.Expansion
import AsmLoader.Source.Token
import Mathlib.Tactic.SplitIfs
/-!
# Expansion replaces tokens

The symbols of a table are replaced in the text of a source, before it is cut into tokens. The
two readers of a line agree on where its words, quoted texts and comment are, so the effect is
one on tokens: a word that the table knows becomes a number, and nothing else changes, not even
the cause for which a line is refused.
-/

namespace AsmLoader.Source

open AsmLoader.Symbol (isNameChar)

/-! ## Reading a line from its start -/

section Tokenize

variable {c : Char} {rest : List Char}

theorem isBlank_of_isNameChar (hc : isNameChar c) : Text.isBlank c = false := by
  have hle (d e : Char) : d ≤ e ↔ d.toNat ≤ e.toNat := Iff.rfl
  have hbounds : 36 ≤ c.toNat ∧ c.toNat ≤ 122 := by
    simp only [isNameChar, Symbol.isLetter, Symbol.isDigit, Bool.or_eq_true, Bool.and_eq_true,
      decide_eq_true_eq, beq_iff_eq, hle] at hc
    rcases hc with ((((hc | rfl) | rfl) | rfl) | rfl) | rfl
    · simp only [Char.reduceToNat] at hc
      omega
    all_goals decide
  simp [Text.isBlank]
  omega

theorem tokenize_nil : tokenize [] = .ok [] := by
  rw [tokenize.eq_def]

theorem tokenize_cons : tokenize (c :: rest) =
    if Text.isBlank c then tokenize rest
    else if c = ';' then .ok []
    else if c = '\'' ∨ c = '"' then
      match quotedBody? c rest with
      | none => .error .unclosedText
      | some (body, after) => (tokenize after).map (.text (utf8Bytes body) :: ·)
    else if isNameChar c then
      (wordToken (c :: rest.takeWhile isNameChar)).bind fun token =>
        (tokenize (rest.dropWhile isNameChar)).map (token :: ·)
    else if isMark c then (tokenize rest).map (.mark c :: ·)
    else .error (.unexpectedCharacter c) := by
  have hbind {α β : Type} (x : Except LineError α) (f : α → β) :
      (do let a ← x; return f a) = x.map f := by cases x <;> rfl
  rw [tokenize.eq_def]
  dsimp only
  split_ifs
  · rfl
  · rfl
  · split <;> simp_all
  · cases wordToken (c :: rest.takeWhile isNameChar) with
    | error e => rfl
    | ok token => exact hbind _ _
  · exact hbind _ _
  · rfl

theorem tokenize_blank (hc : Text.isBlank c) : tokenize (c :: rest) = tokenize rest := by
  rw [tokenize_cons, if_pos hc]

theorem tokenize_comment : tokenize (';' :: rest) = .ok [] := by
  rw [tokenize_cons, if_neg (by decide), if_pos rfl]

theorem tokenize_quote (hc : c = '\'' ∨ c = '"') :
    tokenize (c :: rest) =
      match quotedBody? c rest with
      | none => .error .unclosedText
      | some (body, after) => (tokenize after).map (.text (utf8Bytes body) :: ·) := by
  have hblank : ¬Text.isBlank c := by rcases hc with rfl | rfl <;> decide
  have hcomment : c ≠ ';' := by rcases hc with rfl | rfl <;> decide
  rw [tokenize_cons, if_neg hblank, if_neg hcomment, if_pos hc]

theorem tokenize_word {word : List Char} (hne : word ≠ []) (hword : ∀ c ∈ word, isNameChar c)
    (hrest : rest.head?.any isNameChar = false) :
    tokenize (word ++ rest) =
      (wordToken word).bind fun token => (tokenize rest).map (token :: ·) := by
  obtain ⟨c, more, rfl⟩ := List.exists_cons_of_ne_nil hne
  have hc : isNameChar c := hword c List.mem_cons_self
  have hmore : ∀ d ∈ more, isNameChar d := fun d hd => hword d (List.mem_cons_of_mem c hd)
  have hblank : ¬Text.isBlank c := by simp [isBlank_of_isNameChar hc]
  have hcomment : c ≠ ';' := Symbol.ne_semicolon_of_isNameChar hc
  have hquote : ¬(c = '\'' ∨ c = '"') := fun hq => Symbol.not_isNameChar_of_quote hq hc
  rw [List.cons_append, tokenize_cons, if_neg hblank, if_neg hcomment, if_neg hquote, if_pos hc,
    Symbol.takeWhile_append_of_head? hmore hrest, Symbol.dropWhile_append_of_head? hmore hrest]

theorem tokenize_mark (hblank : ¬Text.isBlank c) (hcomment : c ≠ ';')
    (hquote : ¬(c = '\'' ∨ c = '"')) (hname : ¬isNameChar c) (hmark : isMark c) :
    tokenize (c :: rest) = (tokenize rest).map (.mark c :: ·) := by
  rw [tokenize_cons, if_neg hblank, if_neg hcomment, if_neg hquote, if_neg hname, if_pos hmark]

theorem tokenize_unexpected (hblank : ¬Text.isBlank c) (hcomment : c ≠ ';')
    (hquote : ¬(c = '\'' ∨ c = '"')) (hname : ¬isNameChar c) (hmark : ¬isMark c) :
    tokenize (c :: rest) = .error (.unexpectedCharacter c) := by
  rw [tokenize_cons, if_neg hblank, if_neg hcomment, if_neg hquote, if_neg hname, if_neg hmark]

end Tokenize

/-! ## Quoted texts -/

section Quoted

variable {quote c : Char} {rest : List Char}

theorem quotedBody?_cons_of_ne (hc : c ≠ quote) :
    quotedBody? quote (c :: rest) =
      (quotedBody? quote rest).map fun (body, after) => (c :: body, after) := by
  cases rest <;> simp [quotedBody?, hc]

theorem quotedBody?_doubled :
    quotedBody? quote (quote :: quote :: rest) =
      (quotedBody? quote rest).map fun (body, after) => (quote :: body, after) := by
  simp [quotedBody?]

theorem quotedBody?_closed (hrest : rest.head? ≠ some quote) :
    quotedBody? quote (quote :: rest) = some ([], rest) := by
  cases rest with
  | nil => simp [quotedBody?]
  | cons d more =>
      have hd : d ≠ quote := by simpa using hrest
      simp [quotedBody?, hd]

theorem suffix_of_quotedBody? {quote : Char} {cs body after : List Char}
    (h : quotedBody? quote cs = some (body, after)) : after <:+ cs := by
  fun_induction quotedBody? quote cs generalizing body after with
  | case1 => cases h
  | case2 c rest _ ih =>
      obtain ⟨⟨body', after'⟩, hrest, heq⟩ := Option.map_eq_some_iff.mp h
      cases heq
      exact (ih hrest).trans (List.suffix_cons c rest)
  | case3 c _ rest ih =>
      obtain ⟨⟨body', after'⟩, hrest, heq⟩ := Option.map_eq_some_iff.mp h
      cases heq
      exact (ih hrest).trans ((List.suffix_cons quote rest).trans (List.suffix_cons c _))
  | case4 c _ d rest _ =>
      cases h
      exact List.suffix_cons c _
  | case5 c _ =>
      cases h
      exact List.suffix_cons c _

end Quoted

/-! ## Expansion -/

/-- Every name of the table can be written as a word of a source that is not a number. -/
def NamesWords (t : Symbol.Table) : Prop :=
  ∀ name value, t.find? name = some value →
    Symbol.isValidName name ∧ readLiteral? name.toList = none

/-- The number that a table gives for a word that it knows; any other token stays as it is. -/
def substitute (t : Symbol.Table) : Token → Token
  | .word name =>
    match t.find? name with
    | some value => .number value.toInt64
    | none => .word name
  | token => token

variable (t : Symbol.Table)

theorem readLiteral?_renderAddress (value : UInt64) :
    readLiteral? (Symbol.renderAddress value).toList = some value.toInt64 := by
  have hlower : (Symbol.renderAddress value).toList.map Char.toLower =
      '0' :: 'x' :: (Text.hexDigits value.toNat).map Char.toLower := by
    rw [Symbol.toList_renderAddress]
    rfl
  rw [readLiteral?, hlower, readLower?, Text.readUInt64?_toLower_hexDigits, Option.map_some]

theorem wordToken_expandPiece (ht : NamesWords t) (word : List Char) :
    wordToken (t.expandPiece (.word word)) = (wordToken word).map (substitute t) := by
  simp only [Symbol.Table.expandPiece]
  cases hfind : t.find? (String.ofList word) with
  | some value =>
      obtain ⟨hname, hliteral⟩ := ht _ _ hfind
      rw [String.toList_ofList] at hliteral
      have hdigit : ¬word.head?.any Symbol.isDigit := by
        rw [Symbol.isValidName, String.toList_ofList] at hname
        cases word with
        | nil => simp
        | cons c rest => simp_all [Symbol.isName]
      simp only [wordToken, readLiteral?_renderAddress, hliteral, if_neg hdigit]
      simp [substitute, hfind, Except.map]
  | none =>
      simp only [wordToken]
      split
      next => rfl
      next =>
        split
        next => rfl
        next => simp [substitute, hfind, Except.map]

/-- Inside quotes both readers go on from one closing quote to the next, where a quote that is
written twice ends one quoted text for expansion and starts another. -/
theorem quotedBody?_expandQuoted {quote : Char} (hquote : quote = '\'' ∨ quote = '"')
    {cs : List Char} (hline : '\n' ∉ cs) :
    quotedBody? quote (t.expandQuoted quote cs) =
      (quotedBody? quote cs).map fun (body, after) => (body, t.expand after) := by
  have hnewline : quote ≠ '\n' := by rcases hquote with rfl | rfl <;> decide
  induction cs using quotedBody?.induct quote with
  | case1 => simp [quotedBody?]
  | case2 c rest hc ih =>
      have hcline : c ≠ '\n' := fun heq => hline (heq ▸ List.mem_cons_self)
      rw [t.expandQuoted_cons_of_ne hc hcline, quotedBody?_cons_of_ne hc,
        quotedBody?_cons_of_ne hc, ih fun hmem => hline (List.mem_cons_of_mem c hmem),
        Option.map_map, Option.map_map]
      rfl
  | case3 c hc rest ih =>
      obtain rfl : c = quote := not_not.mp hc
      rw [t.expandQuoted_cons_self, t.expand_quote hquote, quotedBody?_doubled,
        quotedBody?_doubled, ih fun hmem =>
          hline (List.mem_cons_of_mem c (List.mem_cons_of_mem c hmem)),
        Option.map_map, Option.map_map]
      rfl
  | case4 c hc d rest hd =>
      obtain rfl : c = quote := not_not.mp hc
      rw [t.expandQuoted_cons_self, quotedBody?_closed, quotedBody?_closed]
      · rfl
      · simpa using hd
      · exact t.head?_expand_ne (Symbol.not_isNameChar_of_quote hquote) (by simpa using hd)
  | case5 c hc =>
      obtain rfl : c = quote := not_not.mp hc
      simp [t.expandQuoted_cons_self, quotedBody?]

/-- A line is cut into the same tokens before and after expansion, but for the words that the
table knows, which have become numbers; a line that is refused is refused for the same cause. -/
theorem tokenize_expand (ht : NamesWords t) (line : List Char) (hline : '\n' ∉ line) :
    tokenize (t.expand line) = (tokenize line).map (List.map (substitute t)) := by
  have hrest {c : Char} {rest : List Char} (h : '\n' ∉ c :: rest) : '\n' ∉ rest :=
    fun hmem => h (List.mem_cons_of_mem c hmem)
  induction line using tokenize.induct with
  | case1 =>
      rw [t.expand_nil, tokenize_nil]
      rfl
  | case2 c rest hblank ih =>
      have hcomment : c ≠ ';' := by
        rintro rfl
        revert hblank
        decide
      have hquote : ¬(c = '\'' ∨ c = '"') := by
        rintro (rfl | rfl) <;> revert hblank <;> decide
      have hname : ¬isNameChar c := by
        intro hname
        rw [isBlank_of_isNameChar hname] at hblank
        cases hblank
      rw [t.expand_other hcomment hquote hname, tokenize_blank hblank, tokenize_blank hblank,
        ih (hrest hline)]
  | case3 rest hblank =>
      rw [t.expand_comment, List.cons_append, tokenize_comment, tokenize_comment]
      rfl
  | case4 c rest hblank hcomment hquote hnone =>
      have hexpanded : quotedBody? c (t.expandQuoted c rest) = none := by
        rw [quotedBody?_expandQuoted t hquote (hrest hline), hnone, Option.map_none]
      rw [t.expand_quote hquote, tokenize_quote hquote, tokenize_quote hquote, hexpanded, hnone]
      rfl
  | case5 c rest hblank hcomment hquote body after hsome ih =>
      have hexpanded : quotedBody? c (t.expandQuoted c rest) = some (body, t.expand after) := by
        rw [quotedBody?_expandQuoted t hquote (hrest hline), hsome, Option.map_some]
      have hafter : '\n' ∉ after := fun hmem =>
        hrest hline ((suffix_of_quotedBody? hsome).subset hmem)
      rw [t.expand_quote hquote, tokenize_quote hquote, tokenize_quote hquote, hexpanded, hsome]
      dsimp only
      rw [ih hafter]
      cases tokenize after <;> rfl
  | case6 c rest hblank hcomment hquote hname ih =>
      -- The word, known to the table or not, is followed by something that is no name character,
      -- and so is what is written for it.
      have hword : ∀ d ∈ c :: rest.takeWhile isNameChar, isNameChar d := by
        intro d hd
        rcases List.mem_cons.mp hd with rfl | hd
        · exact hname
        · exact List.mem_takeWhile_imp hd
      have hend : (rest.dropWhile isNameChar).head?.any isNameChar = false := by
        have hnot := List.head?_dropWhile_not isNameChar rest
        cases hhead : (rest.dropWhile isNameChar).head? <;> simp_all
      have hend' : (t.expand (rest.dropWhile isNameChar)).head?.any isNameChar = false := by
        rw [t.head?_any_expand, hend]
      have hafter : '\n' ∉ rest.dropWhile isNameChar := fun hmem =>
        hrest hline ((List.dropWhile_suffix isNameChar).subset hmem)
      have hsplit : c :: rest =
          (c :: rest.takeWhile isNameChar) ++ rest.dropWhile isNameChar := by
        rw [List.cons_append, List.takeWhile_append_dropWhile]
      rw [t.expand_word hname, hsplit,
        tokenize_word (t.expandPiece_word_ne_nil (List.cons_ne_nil _ _))
          (t.all_isNameChar_expandPiece hword) hend',
        tokenize_word (List.cons_ne_nil _ _) hword hend, wordToken_expandPiece t ht, ih hafter]
      cases wordToken (c :: rest.takeWhile isNameChar) with
      | error e => rfl
      | ok token => cases tokenize (rest.dropWhile isNameChar) <;> rfl
  | case7 c rest hblank hcomment hquote hname hmark ih =>
      rw [t.expand_other hcomment hquote hname,
        tokenize_mark hblank hcomment hquote hname hmark,
        tokenize_mark hblank hcomment hquote hname hmark, ih (hrest hline)]
      cases tokenize rest <;> rfl
  | case8 c rest hblank hcomment hquote hname hmark =>
      rw [t.expand_other hcomment hquote hname,
        tokenize_unexpected hblank hcomment hquote hname hmark,
        tokenize_unexpected hblank hcomment hquote hname hmark]
      rfl

/-- Quotes that are written twice, a quote of the other kind, and a comment, with a name of the
table in each. -/
theorem tokenize_expand_doubled_quotes :
    let t := Symbol.Table.empty.insert "x" 0xFFFFFFFFFFFFFFFF
    let line := "x,xy 'x''x\"' x+1h;'x".toList
    NamesWords t ∧ '\n' ∉ line ∧
      t.expand line = "0xFFFFFFFFFFFFFFFF,xy 'x''x\"' 0xFFFFFFFFFFFFFFFF+1h;'x".toList ∧
      tokenize (t.expand line) =
        .ok [.number (-1), .mark ',', .word "xy", .text [0x78, 0x27, 0x78, 0x22], .number (-1),
          .mark '+', .number 1] := by
  intro t line
  have ht : NamesWords t := by
    intro name value hfind
    rw [Symbol.Table.find?_insert] at hfind
    split at hfind
    next heq =>
      subst heq
      decide +kernel
    next => cases hfind
  have hline : '\n' ∉ line := by decide +kernel
  have htokens : tokenize line = .ok [.word "x", .mark ',', .word "xy",
      .text [0x78, 0x27, 0x78, 0x22], .word "x", .mark '+', .number 1] := by decide +kernel
  refine ⟨ht, hline, by decide +kernel, ?_⟩
  rw [tokenize_expand t ht line hline, htokens]
  rfl

end AsmLoader.Source
