import Treewalk.Proofs.Token.Fit
import Treewalk.Token.Scan

/-!
# Names in a text

A name begins with a letter or an underscore, goes on with letters, digits and underscores, and is no
keyword (`IsName`). Every identifier among the tokens of a text is a name (`Scan.isName`), so none of
them is the receiver's name and none of them holds a line feed.
-/

namespace Treewalk

/-- A word that can be declared and used by a program. -/
structure IsName (word : String) : Prop where
  start : word.toList.head?.any isNameStart = true
  rest : word.toList.all isNamePart = true
  noKeyword : Keyword.ofSpelling? word = none

/-- Characters can be looked at one by one. -/
instance : DecidablePred IsName := fun word =>
  decidable_of_iff (word.toList.head?.any isNameStart = true ∧ word.toList.all isNamePart = true ∧
    Keyword.ofSpelling? word = none) ⟨fun h => ⟨h.1, h.2.1, h.2.2⟩, fun h => ⟨h.1, h.2, h.3⟩⟩

/-- What a name begins with it may go on with. -/
theorem isNamePart_of_isNameStart {c : Char} (h : isNameStart c = true) : isNamePart c = true := by
  unfold isNameStart at h
  unfold isNamePart Char.isAlphanum
  rcases Bool.or_eq_true_iff.1 h with h | h
  · rw [h, Bool.true_or, Bool.true_or]
  · rw [h, Bool.or_true]

/-- There is no line feed in a name. -/
theorem IsName.not_mem_lineFeed {word : String} (h : IsName word) : '\n' ∉ word.toList := by
  intro hmem
  have hpart := List.all_eq_true.1 h.rest '\n' hmem
  exact absurd hpart (by decide)

/-- A name is a word that is no keyword. -/
theorem isName_iff {word : String} :
    IsName word ↔ IsWord word.toList ∧ ∀ k : Keyword, k.spelling ≠ word := by
  -- Keywords are found by their spellings, and all of them are in the list.
  have hkeyword : Keyword.ofSpelling? word = none ↔ ∀ k : Keyword, k.spelling ≠ word := by
    unfold Keyword.ofSpelling?
    rw [List.find?_eq_none]
    exact ⟨fun h k => by simpa using h k k.mem_all, fun h k _ => by simpa using h k⟩
  constructor
  · rintro ⟨hstart, hrest, hnone⟩
    refine ⟨?_, hkeyword.1 hnone⟩
    cases hword : word.toList with
    | nil =>
      rw [hword] at hstart
      cases hstart
    | cons c cs =>
      rw [hword] at hstart hrest
      exact ⟨c, cs, rfl, hstart, fun d hd => List.all_eq_true.1 hrest d (List.mem_cons_of_mem c hd)⟩
  · rintro ⟨⟨c, cs, hword, hc, hcs⟩, hne⟩
    refine ⟨by rw [hword]; exact hc, ?_, hkeyword.2 hne⟩
    rw [hword, List.all_cons, isNamePart_of_isNameStart hc, Bool.true_and]
    exact List.all_eq_true.2 hcs

/-- A token of pieces is one of the pieces. -/
theorem Scan.exists_piece {ps : List Piece} {line : Int} {t : Token}
    (ht : t ∈ (ofPieces line ps).tokens) : ∃ p ∈ ps, p.kind = .token t.lexeme := by
  induction ps generalizing line with
  | nil => cases ht
  | cons p ps ih =>
    have hlater : t ∈ (ofPieces (line + lineFeeds p.text) ps).tokens →
        ∃ q ∈ p :: ps, q.kind = .token t.lexeme := fun ht => by
      obtain ⟨q, hq, hkind⟩ := ih ht
      exact ⟨q, List.mem_cons_of_mem _ hq, hkind⟩
    unfold ofPieces cons at ht
    cases hkind : p.kind with
    | token lexeme =>
      rw [hkind] at ht
      rcases List.mem_cons.1 ht with rfl | ht
      · exact ⟨p, List.mem_cons_self, hkind⟩
      · exact hlater ht
    | _ =>
      rw [hkind] at ht
      exact hlater ht

/-- Every token of a text is one that some text begins with. -/
theorem Scan.exists_fits {text : String} {line : Int} {t : Token}
    (ht : t ∈ (Scan.ofText text line).tokens) : ∃ rest, t.lexeme.Fits rest := by
  obtain ⟨p, hp, hkind⟩ := exists_piece ht
  obtain ⟨rest, hfits⟩ := (fitTogether_pieces text.toList).exists_fits hp
  exact ⟨rest, (hfits.token hkind).2⟩

/-- An identifier that some text begins with is a name. -/
theorem Lexeme.Fits.isName {rest : List Char} {word : String} (h : (identifier word).Fits rest) :
    IsName word :=
  isName_iff.2 ⟨h.1.holds, h.2⟩

/-- Every identifier of a text is a name. -/
theorem Scan.isName {text : String} {line : Int} {t : Token} {word : String}
    (ht : t ∈ (Scan.ofText text line).tokens) (hword : t.lexeme = .identifier word) : IsName word := by
  obtain ⟨rest, hfits⟩ := exists_fits ht
  rw [hword] at hfits
  exact hfits.isName

end Treewalk
