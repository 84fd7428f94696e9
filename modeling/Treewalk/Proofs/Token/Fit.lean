import Treewalk.Proofs.Token.Comment
import Treewalk.Proofs.Token.Literal
import Treewalk.Proofs.Token.Longest

/-!
# What the pieces of a text are

`Piece.Fits` says what a piece is by its text and by what follows it, without saying how it is found. A
run of blanks, a word, a number and a symbol are the longest of their kind; comments and strings end as
`CommentMark.Closes` and `IsLiteral` say; and a fault is what is none of these.

`cut` cuts off a piece that fits (`Piece.Fits.isCut`), and every text begins with one (`beginsWithPiece`). So
the pieces of a text are the only ones that fit one before the other (`fitTogether_pieces`,
`pieces_of_fitTogether`), and another text is cut into given pieces if they fit there.
-/

namespace Treewalk

/-! ## Pieces that fit -/

/-- A comment that ends before the next line feed. -/
def IsLineComment (text rest : List Char) : Prop :=
  ∃ body, text = '/' :: '/' :: body ∧ '\n' ∉ body ∧ ∀ c ∈ rest.head?, c = '\n'

/-- A comment that ends with the mark that closes its first level. -/
def IsBlockComment (text : List Char) : Prop :=
  ∃ body, text = '/' :: '*' :: body ∧ CommentMark.Closes 1 (CommentMark.ofText body)

/-- A lexeme is what a text begins with if `rest` follows it there. A slash is none where a comment
begins. -/
def Lexeme.Fits (rest : List Char) : Lexeme → Prop
  | symbol s => Longest IsSymbol s.spelling.toList rest ∧
      (s = .slash → rest.head? ≠ some '/' ∧ rest.head? ≠ some '*')
  | keyword k => Longest IsWord k.spelling.toList rest
  | identifier name => Longest IsWord name.toList rest ∧ ∀ k : Keyword, k.spelling ≠ name
  | number digits value => Longest IsNumeral digits.toList rest ∧
      ∃ whole fraction, Numeral whole fraction digits.toList ∧ value = numeralValue whole fraction
  | string body => IsLiteral body rest

/-- A stretch of text cannot be read if `rest` follows it. -/
def ScanFault.Fits (text rest : List Char) : ScanFault → Prop
  | unknownCharacter c => text = [c] ∧ isSpacing c = false ∧ c ≠ '"' ∧ Text.isDigit c = false ∧
      isNameStart c = false ∧ ∀ s : Symbol, s.spelling.toList.head? ≠ some c
  | unterminatedString => ∃ body, text = '"' :: body ∧ '"' ∉ body ∧ rest = []
  | unmatchedComment => ∃ body, text = '/' :: '*' :: body ∧ CommentMark.Skips body rest ∧
      CommentMark.StaysOpen 1 (CommentMark.ofText (body ++ rest))

/-- A piece is what a text begins with if `rest` follows it there. -/
def Piece.Fits (p : Piece) (rest : List Char) : Prop :=
  match p.kind with
  | .blank => Longest IsBlank p.text rest
  | .comment => IsLineComment p.text rest ∨ IsBlockComment p.text
  | .token lexeme => p.text = lexeme.written.toList ∧ lexeme.Fits rest
  | .fault f => f.Fits p.text rest

/-- A blank piece is as long as blanks go. -/
theorem Piece.Fits.blank {p : Piece} {rest : List Char} (h : p.Fits rest) (hkind : p.kind = .blank) :
    Longest IsBlank p.text rest := by
  unfold Piece.Fits at h
  rwa [hkind] at h

/-- A token stands as it is written and fits what comes after it. -/
theorem Piece.Fits.token {p : Piece} {rest : List Char} {lexeme : Lexeme} (h : p.Fits rest)
    (hkind : p.kind = .token lexeme) : p.text = lexeme.written.toList ∧ lexeme.Fits rest := by
  unfold Piece.Fits at h
  rwa [hkind] at h

/-! ## Pieces are cut where they fit -/

/-- A piece is cut off the text that it begins. -/
def Piece.IsCut (p : Piece) (rest : List Char) : Prop :=
  ∃ c cs, p.text = c :: cs ∧ cut c (cs ++ rest) = (p.kind, p.text.length)

/-- A character that begins nothing but a word, a number or a symbol is no part of a comment either. -/
theorem cut_of_not {c : Char} {cs : List Char} (hspacing : isSpacing c = false) (hquote : c ≠ '"')
    (hcomment : c = '/' → cs.head? ≠ some '/' ∧ cs.head? ≠ some '*') :
    cut c cs = if Text.isDigit c then cutNumber (c :: cs)
      else if isNameStart c then cutWord c cs else cutSymbol c cs := by
  unfold cut
  rw [if_neg (Bool.eq_false_iff.1 hspacing), if_neg fun h => (hcomment h.1).1 h.2,
    if_neg fun h => (hcomment h.1).2 h.2, if_neg hquote]

/-- The spelling of a keyword is scanned to it. -/
theorem wordLexeme_spelling (k : Keyword) : wordLexeme k.spelling = .keyword k := by
  cases k <;> rfl

/-- Any other word is scanned to a name. -/
theorem wordLexeme_of_ne {name : String} (h : ∀ k : Keyword, k.spelling ≠ name) :
    wordLexeme name = .identifier name := by
  have hnone : Keyword.ofSpelling? name = none := by
    unfold Keyword.ofSpelling?
    refine List.find?_eq_none.2 fun k _ => ?_
    simpa using h k
  unfold wordLexeme
  rw [hnone]

section

variable {text rest : List Char}

/-- Blanks are cut off where they end. -/
theorem isCut_blank (h : Longest IsBlank text rest) : Piece.IsCut ⟨.blank, text⟩ rest := by
  obtain ⟨c, cs, rfl⟩ := List.exists_cons_of_ne_nil h.holds.ne_nil
  obtain ⟨hc, hrun⟩ := longest_isBlank.1 h
  refine ⟨c, cs, rfl, ?_⟩
  unfold cut
  rw [if_pos hc, hrun.split.1, List.length_cons, Nat.add_comm]

/-- A comment is cut off where it ends. -/
theorem isCut_comment (h : IsLineComment text rest ∨ IsBlockComment text) :
    Piece.IsCut ⟨.comment, text⟩ rest := by
  rcases h with ⟨body, rfl, hbody, hstop⟩ | ⟨body, rfl, hcloses⟩
  -- Behind the slashes the comment is a run up to the line feed or the end.
  · have hrun : Run (fun c => decide (c ≠ '\n')) ('/' :: body) rest := by
      refine ⟨fun c hc => decide_eq_true ?_, fun c hc => decide_eq_false (not_not_intro (hstop c hc))⟩
      rintro rfl
      exact (List.mem_cons.1 hc).elim (by decide) hbody
    refine ⟨'/', '/' :: body, rfl, ?_⟩
    unfold cut
    rw [if_neg (by decide), if_pos ⟨rfl, rfl⟩, hrun.split.1, Nat.add_comm]
    rfl
  · refine ⟨'/', '*' :: body, rfl, ?_⟩
    -- The levels of the block come down to zero at its end, so the scanner stops there.
    have hend : commentEnd 0 2 2 (body ++ rest) = .closed (2 + body.length) :=
      CommentMark.commentEnd_of_closes (by simpa using hcloses) rest
    show cutComment (body ++ rest) = _
    unfold cutComment
    rw [hend]
    simp only [List.length_cons, Prod.mk.injEq, true_and]
    omega

/-- A word is cut off where it ends, keyword or name. -/
theorem isCut_word {word : String} (h : Longest IsWord word.toList rest) :
    Piece.IsCut ⟨.token (wordLexeme word), word.toList⟩ rest := by
  obtain ⟨c, cs, hword, hc, -⟩ := id h.holds
  obtain ⟨hspacing, hslash, hquote, hdigit⟩ := not_other_of_isNameStart hc
  refine ⟨c, cs, hword, ?_⟩
  rw [hword] at h
  rw [cut_of_not hspacing hquote fun heq => absurd heq hslash, hdigit, if_neg Bool.false_ne_true,
    if_pos hc]
  unfold cutWord
  simp only [(longest_isWord.1 h).2.split.1, ← hword, String.ofList_toList]
  rw [hword, List.length_cons, Nat.add_comm]

/-- A token is cut off as long as it can be, whatever its kind. -/
theorem isCut_token {lexeme : Lexeme} (h : lexeme.Fits rest) :
    Piece.IsCut ⟨.token lexeme, lexeme.written.toList⟩ rest := by
  cases lexeme with
  | symbol s =>
    -- Symbols are tried last by `cut`, so no other piece may begin with the first character.
    obtain ⟨hlongest, hslash⟩ := h
    obtain ⟨c, cs, hs⟩ : ∃ c cs, s.spelling.toList = c :: cs := by
      rcases s.spelling_cases with ⟨c, hc, -⟩ | ⟨c, hc, -⟩
      · exact ⟨c, [], hc⟩
      · exact ⟨c, ['='], hc⟩
    obtain ⟨hspacing, hquote, hdigit, hname⟩ :=
      Symbol.not_other_of_mem (s := s) (c := c) (by rw [hs]; rfl)
    refine ⟨c, cs, hs, ?_⟩
    rw [cut_of_not hspacing hquote, hdigit, hname, if_neg Bool.false_ne_true, if_neg Bool.false_ne_true,
      cutSymbol_of_longest hlongest hs]
    · show _ = (_, s.spelling.toList.length)
      rw [hs, List.length_cons, Nat.add_comm]
    · rintro rfl
      obtain ⟨rfl, rfl⟩ := Symbol.eq_slash hs
      exact hslash rfl
  | keyword k =>
    have hcut := isCut_word h
    rwa [wordLexeme_spelling] at hcut
  | identifier name =>
    have hcut := isCut_word h.1
    rwa [wordLexeme_of_ne h.2] at hcut
  | number digits value =>
    obtain ⟨hlongest, whole, fraction, hnumeral, rfl⟩ := h
    have hcut := cutNumber_of_numeral hnumeral hlongest
    obtain ⟨c, cs, hwhole⟩ := List.exists_cons_of_ne_nil hnumeral.ne_nil
    have htext := hnumeral.eq
    have hc := hnumeral.isDigit c (by rw [hwhole]; exact List.mem_cons_self)
    obtain ⟨hspacing, hquote, hslash⟩ := not_other_of_isDigit hc
    rw [hwhole, List.cons_append] at htext
    refine ⟨c, _, htext, ?_⟩
    rw [String.ofList_toList] at hcut
    rw [cut_of_not hspacing hquote fun heq => absurd heq hslash, if_pos hc, ← List.cons_append, ← htext,
      hcut]
    rfl
  | string body =>
    refine ⟨'"', body ++ ['"'], by simp [Lexeme.written], ?_⟩
    show cutString (body ++ ['"'] ++ rest) = _
    unfold cutString
    rw [List.append_assoc, List.singleton_append, stringLength?_of_literal h]
    simp [Lexeme.written]
    omega

/-- A fault is cut off as what it reports. -/
theorem isCut_fault {f : ScanFault} (h : f.Fits text rest) : Piece.IsCut ⟨.fault f, text⟩ rest := by
  cases f with
  | unknownCharacter c =>
    obtain ⟨rfl, hspacing, hquote, hdigit, hname, hsymbol⟩ := h
    -- The character begins no symbol, neither alone nor with an equality sign after it.
    have hchar : Symbol.ofChar? c = none := by
      refine Decidable.byContradiction fun hne => ?_
      obtain ⟨s, hs⟩ := Option.ne_none_iff_exists'.1 hne
      exact hsymbol s (by rw [Symbol.spelling_of_ofChar? hs]; rfl)
    have hequal : Symbol.ofCharEqual? c = none := by
      refine Decidable.byContradiction fun hne => ?_
      obtain ⟨s, hs⟩ := Option.ne_none_iff_exists'.1 hne
      exact hsymbol s (by rw [Symbol.spelling_of_ofCharEqual? hs]; rfl)
    refine ⟨c, [], rfl, ?_⟩
    rw [cut_of_not hspacing hquote fun heq => absurd (heq ▸ rfl) (hsymbol .slash), hdigit, hname,
      if_neg Bool.false_ne_true, if_neg Bool.false_ne_true]
    unfold cutSymbol
    rw [hequal, hchar, ite_self]
    rfl
  | unterminatedString =>
    obtain ⟨body, rfl, hbody, rfl⟩ := h
    refine ⟨'"', body, rfl, ?_⟩
    show cutString (body ++ []) = _
    unfold cutString
    rw [List.append_nil, stringLength?_of_not_mem hbody, List.length_cons, Nat.add_comm]
  | unmatchedComment =>
    obtain ⟨body, rfl, hskips, hopen⟩ := h
    refine ⟨'/', '*' :: body, rfl, ?_⟩
    have hend : commentEnd 0 2 2 (body ++ rest) =
        .unmatched (if body = [] then 2 else 2 + body.length) :=
      CommentMark.commentEnd_of_unmatched (by simpa using hopen) hskips
    show cutComment (body ++ rest) = _
    unfold cutComment
    rw [hend]
    simp only [List.length_cons, Prod.mk.injEq, true_and]
    split
    · next hnil =>
      rw [hnil]
      rfl
    · omega

end

/-- A piece that fits is cut off. -/
theorem Piece.Fits.isCut {p : Piece} {rest : List Char} (h : p.Fits rest) : p.IsCut rest := by
  obtain ⟨kind, text⟩ := p
  cases kind with
  | blank => exact isCut_blank h
  | comment => exact isCut_comment h
  | token lexeme =>
    obtain ⟨rfl, h⟩ := h
    exact isCut_token h
  | fault f => exact isCut_fault h

/-! ## Every text begins with a piece that fits -/

/-- A text begins with a piece that fits before the rest of it. -/
def BeginsWithPiece (text : List Char) : Prop :=
  ∃ (p : Piece) (rest : List Char), p.text ++ rest = text ∧ p.Fits rest

section

variable {c : Char} {cs : List Char}

/-- Two slashes begin a comment. -/
theorem beginsWithPiece_lineComment (cs : List Char) : BeginsWithPiece ('/' :: '/' :: cs) := by
  have hrun := run_takeWhile (fun c => decide (c ≠ '\n')) cs
  have hsplit := List.takeWhile_append_dropWhile (p := fun c => decide (c ≠ '\n')) (l := cs)
  generalize cs.takeWhile (fun c => decide (c ≠ '\n')) = body,
    cs.dropWhile (fun c => decide (c ≠ '\n')) = rest at hrun hsplit
  refine ⟨⟨.comment, '/' :: '/' :: body⟩, rest, congrArg ('/' :: '/' :: ·) hsplit,
    .inl ⟨body, rfl, ?_, ?_⟩⟩
  · exact fun hmem => of_decide_eq_true (hrun.all '\n' hmem) rfl
  · exact fun c hc => not_not.1 (of_decide_eq_false (hrun.stop c hc))

/-- A block comment is closed or it is a fault. -/
theorem beginsWithPiece_blockComment (cs : List Char) : BeginsWithPiece ('/' :: '*' :: cs) := by
  cases hend : commentEnd 0 2 2 cs with
  | closed n =>
    obtain ⟨body, rest, rfl, -, hcloses⟩ := CommentMark.closes_of_commentEnd hend
    exact ⟨⟨.comment, '/' :: '*' :: body⟩, rest, rfl, .inr ⟨body, rfl, by simpa using hcloses⟩⟩
  | unmatched n =>
    obtain ⟨hopen, body, rest, rfl, hskips, -⟩ := CommentMark.unmatched_of_commentEnd hend
    exact ⟨⟨.fault .unmatchedComment, '/' :: '*' :: body⟩, rest, rfl, body, rfl, hskips,
      by simpa using hopen⟩

/-- A string is closed or it is a fault. -/
theorem beginsWithPiece_string (cs : List Char) : BeginsWithPiece ('"' :: cs) := by
  by_cases hquote : '"' ∈ cs
  · obtain ⟨body, rest, rfl, hbody⟩ := exists_literal hquote
    exact ⟨⟨.token (.string body), '"' :: body ++ ['"']⟩, rest, by simp, by simp [Lexeme.written], hbody⟩
  · exact ⟨⟨.fault .unterminatedString, '"' :: cs⟩, [], List.append_nil _, cs, rfl, hquote, rfl⟩

/-- A digit begins a number. -/
theorem beginsWithPiece_number (hc : Text.isDigit c = true) : BeginsWithPiece (c :: cs) := by
  obtain ⟨whole, fraction, text, rest, htext, hnumeral, hlongest⟩ := @exists_longest_isNumeral c cs hc
  refine ⟨⟨.token (.number (String.ofList text) (numeralValue whole fraction)), text⟩, rest, htext,
    String.toList_ofList.symm, ?_, whole, fraction, ?_, rfl⟩
  · rwa [String.toList_ofList]
  · rwa [String.toList_ofList]

/-- A letter begins a word. -/
theorem beginsWithPiece_word (hc : isNameStart c = true) : BeginsWithPiece (c :: cs) := by
  have hlongest := longest_isWord.2 ⟨hc, run_takeWhile isNamePart cs⟩
  have hsplit : c :: cs.takeWhile isNamePart ++ cs.dropWhile isNamePart = c :: cs := by
    rw [List.cons_append, List.takeWhile_append_dropWhile]
  by_cases hkeyword : ∃ k : Keyword, k.spelling = String.ofList (c :: cs.takeWhile isNamePart)
  · obtain ⟨k, hk⟩ := hkeyword
    have hk := (congrArg String.toList hk).trans String.toList_ofList
    refine ⟨⟨.token (.keyword k), c :: cs.takeWhile isNamePart⟩, _, hsplit, hk.symm, ?_⟩
    show Longest IsWord k.spelling.toList _
    rwa [hk]
  · refine ⟨⟨.token (.identifier _), c :: cs.takeWhile isNamePart⟩, _, hsplit,
      String.toList_ofList.symm, ?_, fun k hk => hkeyword ⟨k, hk⟩⟩
    rwa [String.toList_ofList]

/-- Any other character begins a symbol, or a fault if there is no such symbol. -/
theorem beginsWithPiece_symbol (hspacing : isSpacing c = false) (hquote : c ≠ '"')
    (hdigit : Text.isDigit c = false) (hname : isNameStart c = false)
    (hcomment : c = '/' → cs.head? ≠ some '/' ∧ cs.head? ≠ some '*') :
    BeginsWithPiece (c :: cs) := by
  -- A symbol of two characters is cut before one of the first of them alone.
  by_cases hpair : cs.head? = some '=' ∧ (Symbol.ofCharEqual? c).isSome
  · obtain ⟨hhead, hsome⟩ := hpair
    obtain ⟨cs, rfl⟩ := List.head?_eq_some_iff.1 hhead
    obtain ⟨s, hs⟩ := Option.isSome_iff_exists.1 hsome
    have hspelling := Symbol.spelling_of_ofCharEqual? hs
    refine ⟨⟨.token (.symbol s), [c, '=']⟩, cs, rfl, hspelling.symm, ?_, ?_⟩
    · rw [hspelling]
      exact longest_isSymbol_pair hs
    · rintro rfl
      cases hspelling
  cases hchar : Symbol.ofChar? c with
  | some s =>
    have hspelling := Symbol.spelling_of_ofChar? hchar
    refine ⟨⟨.token (.symbol s), [c]⟩, cs, rfl, hspelling.symm, ?_, ?_⟩
    · rw [hspelling, longest_isSymbol_singleton hchar]
      exact fun hhead => Option.not_isSome_iff_eq_none.1 fun hsome => hpair ⟨hhead, hsome⟩
    · rintro rfl
      cases hspelling
      exact hcomment rfl
  | none =>
    refine ⟨⟨.fault (.unknownCharacter c), [c]⟩, cs, rfl, rfl, hspacing, hquote, hdigit, hname, ?_⟩
    intro s hs
    rcases s.spelling_cases with ⟨d, hd, hsome⟩ | ⟨d, hd, -, hsome⟩
    · rw [hd] at hs
      cases hs
      rw [hchar] at hsome
      cases hsome
    · rw [hd] at hs
      cases hs
      rw [hchar] at hsome
      cases hsome

/-- Every text begins with a piece that fits. -/
theorem beginsWithPiece (c : Char) (cs : List Char) : BeginsWithPiece (c :: cs) := by
  -- In the order in which `cut` tries the kinds of pieces.
  by_cases hspacing : isSpacing c = true
  · refine ⟨⟨.blank, c :: cs.takeWhile isSpacing⟩, cs.dropWhile isSpacing, ?_,
      longest_isBlank.2 ⟨hspacing, run_takeWhile isSpacing cs⟩⟩
    rw [List.cons_append, List.takeWhile_append_dropWhile]
  by_cases hline : c = '/' ∧ cs.head? = some '/'
  · obtain ⟨rfl, hhead⟩ := hline
    obtain ⟨cs, rfl⟩ := List.head?_eq_some_iff.1 hhead
    exact beginsWithPiece_lineComment cs
  by_cases hblock : c = '/' ∧ cs.head? = some '*'
  · obtain ⟨rfl, hhead⟩ := hblock
    obtain ⟨cs, rfl⟩ := List.head?_eq_some_iff.1 hhead
    exact beginsWithPiece_blockComment cs
  by_cases hquote : c = '"'
  · subst hquote
    exact beginsWithPiece_string cs
  by_cases hdigit : Text.isDigit c = true
  · exact beginsWithPiece_number hdigit
  by_cases hname : isNameStart c = true
  · exact beginsWithPiece_word hname
  · exact beginsWithPiece_symbol (Bool.eq_false_iff.2 hspacing) hquote (Bool.eq_false_iff.2 hdigit)
      (Bool.eq_false_iff.2 hname) fun hc => ⟨fun h => hline ⟨hc, h⟩, fun h => hblock ⟨hc, h⟩⟩

end

/-! ## The pieces of a text -/

/-- Each of some pieces fits before those after it. -/
def FitTogether : List Piece → Prop
  | [] => True
  | p :: ps => p.Fits (ps.map Piece.text).flatten ∧ FitTogether ps

/-- A text begins with the piece that fits, and the rest of it falls into its own pieces. -/
theorem pieces_of_fits {p : Piece} {rest : List Char} (h : p.Fits rest) :
    pieces (p.text ++ rest) = p :: pieces rest := by
  obtain ⟨c, cs, htext, hcut⟩ := h.isCut
  rw [htext, List.cons_append, pieces, hcut, ← List.cons_append, ← htext, List.take_left, List.drop_left]

/-- The pieces of a text fit one before the other. -/
theorem fitTogether_pieces (text : List Char) : FitTogether (pieces text) := by
  induction text using pieces.induct with
  | case1 =>
    rw [pieces]
    trivial
  | case2 c cs ih =>
    -- The piece that fits is the one that is cut off, so the induction is about the rest after it.
    obtain ⟨p, rest, htext, hp⟩ := beginsWithPiece c cs
    have hpieces := pieces_of_fits hp
    rw [htext, pieces] at hpieces
    rw [pieces, hpieces]
    rw [(List.cons.inj hpieces).2] at ih
    refine ⟨?_, ih⟩
    rwa [pieces_flatten]

/-- Pieces that fit one before the other are the pieces of their text. -/
theorem pieces_of_fitTogether {ps : List Piece} (h : FitTogether ps) :
    pieces (ps.map Piece.text).flatten = ps := by
  induction ps with
  | nil => rw [List.map_nil, List.flatten_nil, pieces]
  | cons p ps ih => rw [List.map_cons, List.flatten_cons, pieces_of_fits h.1, ih h.2]

/-- Each of the pieces fits what comes after it. -/
theorem FitTogether.exists_fits {ps : List Piece} {p : Piece} (h : FitTogether ps) (hp : p ∈ ps) :
    ∃ rest, p.Fits rest := by
  induction ps with
  | nil => cases hp
  | cons q ps ih =>
    rcases List.mem_cons.1 hp with rfl | hp
    · exact ⟨_, h.1⟩
    · exact ih h.2 hp

/-- A piece that fits is never empty, so the text gets shorter. -/
theorem Piece.Fits.ne_nil {p : Piece} {rest : List Char} (h : p.Fits rest) : p.text ≠ [] := by
  obtain ⟨c, cs, htext, -⟩ := h.isCut
  rw [htext]
  exact List.cons_ne_nil c cs

/-! ## Other texts after a piece -/

/-- A lexeme fits before other texts too: before those that are the same up to their first blank, and in
which there is no quote if there is none in this one. -/
theorem Lexeme.Fits.transfer {lexeme : Lexeme} {rest rest' : List Char} (h : lexeme.Fits rest)
    (hbegins : rest'.takeWhile (!isSpacing ·) <+: rest)
    (hquote : ∀ body, lexeme = .string body → body.getLast? = some '\\' → '"' ∉ rest → '"' ∉ rest') :
    lexeme.Fits rest' := by
  cases lexeme with
  | symbol s =>
    refine ⟨h.1.transfer IsSymbol.not_isSpacing hbegins, fun hs => ?_⟩
    -- What the token looks at is no blank, so it is the same behind both.
    have hhead : ∀ c, isSpacing c = false → rest'.head? = some c → rest.head? = some c := by
      intro c hc heq
      obtain ⟨cs, rfl⟩ := List.head?_eq_some_iff.1 heq
      rw [List.takeWhile_cons_of_pos (by rw [hc]; rfl)] at hbegins
      obtain ⟨later, rfl⟩ := hbegins
      rfl
    exact ⟨fun heq => (h.2 hs).1 (hhead '/' (by decide) heq),
      fun heq => (h.2 hs).2 (hhead '*' (by decide) heq)⟩
  | keyword k => exact Longest.transfer h IsWord.not_isSpacing hbegins
  | identifier name => exact ⟨h.1.transfer IsWord.not_isSpacing hbegins, h.2⟩
  | number digits value => exact ⟨h.1.transfer IsNumeral.not_isSpacing hbegins, h.2⟩
  -- A string looks for a quote further on only if it ends with a backslash.
  | string body => exact ⟨h.escaped, fun hlast => hquote body rfl hlast (h.last hlast)⟩

end Treewalk
