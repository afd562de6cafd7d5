import AsmLoader.Proofs.Outcome
import AsmLoader.Proofs.Source.Substitution
import AsmLoader.Proofs.Text.Lines
import AsmLoader.Source.Statement
/-!
# The ends of lines

What may stand at the end of a line without being said: a blank, such as the carriage return
before a newline, never changes the tokens of a line, and a comment changes none of a line that
has tokens at all. In a quoted text that is not closed both would be part of the text.
-/

namespace AsmLoader.Source

open AsmLoader.Symbol (isNameChar)

/-! ## Blanks and comments after quoted texts and words -/

theorem isBlank_ne_quote {c : Char} (hc : Text.isBlank c) : ¬(c = '\'' ∨ c = '"') := by
  rintro (rfl | rfl) <;> revert hc <;> decide

theorem not_isNameChar_of_isBlank {c : Char} (hc : Text.isBlank c) : isNameChar c = false := by
  by_contra hname
  rw [Bool.not_eq_false] at hname
  rw [isBlank_of_isNameChar hname] at hc
  cases hc

theorem quotedBody?_append {quote c : Char} (hc : c ≠ quote) {cs body after : List Char}
    (h : quotedBody? quote cs = some (body, after)) (rest : List Char) :
    quotedBody? quote (cs ++ c :: rest) = some (body, after ++ c :: rest) := by
  induction cs using quotedBody?.induct quote generalizing body with
  | case1 => cases h
  | case2 d cs hd ih =>
      rw [quotedBody?_cons_of_ne hd] at h
      obtain ⟨⟨body', after'⟩, hbody, heq⟩ := Option.map_eq_some_iff.mp h
      cases heq
      rw [List.cons_append, quotedBody?_cons_of_ne hd, ih hbody]
      rfl
  | case3 d hd cs ih =>
      obtain rfl : d = quote := not_not.mp hd
      rw [quotedBody?_doubled] at h
      obtain ⟨⟨body', after'⟩, hbody, heq⟩ := Option.map_eq_some_iff.mp h
      cases heq
      rw [List.cons_append, List.cons_append, quotedBody?_doubled, ih hbody]
      rfl
  | case4 d hd e cs he =>
      obtain rfl : d = quote := not_not.mp hd
      rw [quotedBody?_closed (by simpa using he)] at h
      cases h
      exact quotedBody?_closed (by simpa using he)
  | case5 d hd =>
      obtain rfl : d = quote := not_not.mp hd
      rw [quotedBody?_closed (by simp)] at h
      cases h
      exact quotedBody?_closed (by simpa using hc)

theorem quotedBody?_concat_eq_none {quote c : Char} (hc : c ≠ quote) {cs : List Char}
    (h : quotedBody? quote cs = none) : quotedBody? quote (cs ++ [c]) = none := by
  induction cs using quotedBody?.induct quote with
  | case1 => simp [quotedBody?_cons_of_ne hc, quotedBody?]
  | case2 d cs hd ih =>
      rw [quotedBody?_cons_of_ne hd, Option.map_eq_none_iff] at h
      rw [List.cons_append, quotedBody?_cons_of_ne hd, ih h, Option.map_none]
  | case3 d hd cs ih =>
      obtain rfl : d = quote := not_not.mp hd
      rw [quotedBody?_doubled, Option.map_eq_none_iff] at h
      rw [List.cons_append, List.cons_append, quotedBody?_doubled, ih h, Option.map_none]
  | case4 d hd e cs he =>
      obtain rfl : d = quote := not_not.mp hd
      rw [quotedBody?_closed (by simpa using he)] at h
      cases h
  | case5 d hd =>
      obtain rfl : d = quote := not_not.mp hd
      rw [quotedBody?_closed (by simp)] at h
      cases h

/-! ## Plain words -/

structure IsPlainWord (word : String) : Prop where
  isName : Symbol.isName word.toList
  wordToken_eq : wordToken word.toList = .ok (.word word)
  map_toLower : word.toList.map Char.toLower = word.toList

namespace IsPlainWord

variable {word : String}

theorem toLower_eq (h : IsPlainWord word) : word.toLower = word := by
  have hmap : word.toLower.toList = word.toList.map Char.toLower := String.toList_map
  exact String.toList_injective (hmap.trans h.map_toLower)

theorem ofWord?_eq (h : IsPlainWord word) : Keyword.ofWord? word = Keyword.ofLower? word := by
  rw [Keyword.ofWord?, h.toLower_eq]

theorem tokenize_append (h : IsPlainWord word) {rest : List Char} {tokens : List Token}
    (hend : rest.head?.any isNameChar = false) (hrest : tokenize rest = .ok tokens) :
    tokenize (word.toList ++ rest) = .ok (.word word :: tokens) := by
  have hword := Symbol.isWord_of_isName h.isName
  rw [tokenize_word hword.ne_nil hword.isNameChar hend, h.wordToken_eq, hrest]
  rfl

end IsPlainWord

/-! ## Tokens -/

theorem tokenize_name {c : Char} (hc : isNameChar c) (rest : List Char) :
    tokenize (c :: rest) = (wordToken (c :: rest.takeWhile isNameChar)).bind fun token =>
      (tokenize (rest.dropWhile isNameChar)).map (token :: ·) := by
  have hword := Symbol.isWord_cons_takeWhile hc rest
  rw [← tokenize_word hword.ne_nil hword.isNameChar (Symbol.head?_any_dropWhile isNameChar rest),
    List.cons_append, List.takeWhile_append_dropWhile]

theorem tokenize_concat_blank {blank : Char} (hblank : Text.isBlank blank) (cs : List Char) :
    tokenize (cs ++ [blank]) = tokenize cs := by
  induction cs using tokenize.induct with
  | case1 => rw [List.nil_append, tokenize_blank hblank]
  | case2 c rest hc ih => rw [List.cons_append, tokenize_blank hc, tokenize_blank hc, ih]
  | case3 rest hc => rw [List.cons_append, tokenize_comment, tokenize_comment]
  | case4 c rest _ _ hquote hnone =>
      have hne : blank ≠ c := fun heq => isBlank_ne_quote hblank (heq ▸ hquote)
      rw [List.cons_append, tokenize_quote hquote, tokenize_quote hquote, hnone,
        quotedBody?_concat_eq_none hne hnone]
  | case5 c rest _ _ hquote body after hsome ih =>
      have hne : blank ≠ c := fun heq => isBlank_ne_quote hblank (heq ▸ hquote)
      rw [List.cons_append, tokenize_quote hquote, tokenize_quote hquote, hsome,
        quotedBody?_append hne hsome]
      dsimp only
      rw [ih]
  | case6 c rest hc hcomment hquote hname ih =>
      have hend := not_isNameChar_of_isBlank hblank
      rw [List.cons_append, tokenize_name hname, tokenize_name hname,
        Symbol.takeWhile_append_cons hend, Symbol.dropWhile_append_cons hend, ih]
  | case7 c rest hc hcomment hquote hname hmark ih =>
      rw [List.cons_append, tokenize_mark hc hcomment hquote hname hmark,
        tokenize_mark hc hcomment hquote hname hmark, ih]
  | case8 c rest hc hcomment hquote hname hmark =>
      rw [List.cons_append, tokenize_unexpected hc hcomment hquote hname hmark,
        tokenize_unexpected hc hcomment hquote hname hmark]

theorem tokenize_append_comment {cs : List Char} {tokens : List Token}
    (h : tokenize cs = .ok tokens) (comment : List Char) :
    tokenize (cs ++ ';' :: comment) = .ok tokens := by
  induction cs using tokenize.induct generalizing tokens with
  | case1 =>
      rw [← h, List.nil_append, tokenize_comment, tokenize_nil]
  | case2 c rest hc ih =>
      rw [tokenize_blank hc] at h
      rw [List.cons_append, tokenize_blank hc, ih h]
  | case3 rest hc =>
      rw [← h, List.cons_append, tokenize_comment, tokenize_comment]
  | case4 c rest _ _ hquote hnone =>
      rw [tokenize_quote hquote, hnone] at h
      cases h
  | case5 c rest _ _ hquote body after hsome ih =>
      have hne : ';' ≠ c := by rcases hquote with rfl | rfl <;> decide
      rw [tokenize_quote hquote, hsome] at h
      obtain ⟨more, hmore, rfl⟩ := map_eq_ok_iff.mp h
      rw [List.cons_append, tokenize_quote hquote, quotedBody?_append hne hsome]
      dsimp only
      rw [ih hmore]
      rfl
  | case6 c rest hc hcomment hquote hname ih =>
      have hend : isNameChar ';' = false := by decide
      rw [tokenize_name hname] at h
      obtain ⟨token, htoken, h⟩ := bind_eq_ok_iff.mp h
      obtain ⟨more, hmore, rfl⟩ := map_eq_ok_iff.mp h
      rw [List.cons_append, tokenize_name hname, Symbol.takeWhile_append_cons hend,
        Symbol.dropWhile_append_cons hend, htoken, ih hmore]
      rfl
  | case7 c rest hc hcomment hquote hname hmark ih =>
      rw [tokenize_mark hc hcomment hquote hname hmark] at h
      obtain ⟨more, hmore, rfl⟩ := map_eq_ok_iff.mp h
      rw [List.cons_append, tokenize_mark hc hcomment hquote hname hmark, ih hmore]
      rfl
  | case8 c rest hc hcomment hquote hname hmark =>
      rw [tokenize_unexpected hc hcomment hquote hname hmark] at h
      cases h

theorem tokenize_append_blanks (cs : List Char) {blanks : List Char}
    (h : ∀ c ∈ blanks, Text.isBlank c) : tokenize (cs ++ blanks) = tokenize cs := by
  induction blanks generalizing cs with
  | nil => rw [List.append_nil]
  | cons c blanks ih =>
      rw [← List.singleton_append, ← List.append_assoc,
        ih _ fun d hd => h d (List.mem_cons_of_mem c hd),
        tokenize_concat_blank (h c List.mem_cons_self)]

theorem tokenize_blanks_append {blanks : List Char} (h : ∀ c ∈ blanks, Text.isBlank c)
    (cs : List Char) : tokenize (blanks ++ cs) = tokenize cs := by
  induction blanks with
  | nil => rfl
  | cons c blanks ih =>
      rw [List.cons_append, tokenize_blank (h c List.mem_cons_self),
        ih fun d hd => h d (List.mem_cons_of_mem c hd)]

theorem tokenize_dropReturn (line : List Char) :
    tokenize (Text.dropReturn line) = tokenize line := by
  unfold Text.dropReturn
  split
  next hlast =>
    rw [← tokenize_concat_blank (by decide : Text.isBlank '\r') line.dropLast,
      List.dropLast_append_getLast? '\r' hlast]
  next => rfl

/-! ## Lines -/

/-- A line is read by its tokens alone. -/
theorem readLine_congr {line line' : List Char} (h : tokenize line = tokenize line')
    (scope : Scope) : readLine scope line = readLine scope line' := by
  rw [readLine, readLine, h]

theorem parse_of_line {source : String} (hline : '\n' ∉ source.toList) {labels : List String}
    {body : Body} (hread : (readLine none source.toList).2 = .ok (some (labels, body))) :
    parse source = .ok [⟨1, labels, body⟩] := by
  have hne : source.toList ≠ [] := by
    intro hnil
    rw [hnil, readLine, tokenize_nil] at hread
    cases hread
  simp [parse, Text.linesOf_of_not_mem hline hne, readLines, hread]

end AsmLoader.Source
