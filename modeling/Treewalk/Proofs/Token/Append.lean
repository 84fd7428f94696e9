import Treewalk.Proofs.Token.Fit
import Treewalk.Token.Scan

/-!
# Scanning a text in parts

A text that ends with a line feed can be scanned by itself before what follows it (`ofPieces_append`):
the tokens of both texts together are those of the first and then those of the second, which begins on
the line where the first ends. The line feed keeps apart the last piece of the first text and the first
piece of the second. Two kinds of pieces do not end at it. A comment or a string that is not closed is
a fault; and a string that is closed by a quote with a backslash before it goes on if there is another
quote further on, so there must be none.
-/

namespace Treewalk

/-! ## Texts that end with a line feed -/

/-- A text is empty or ends with a line feed. -/
def EndsLine (text : List Char) : Prop := ∀ c ∈ text.getLast?, c = '\n'

/-- A text whose last character is a line feed ends its line. -/
theorem EndsLine.of_getLast? {text : List Char} (h : text.getLast? = some '\n') : EndsLine text := by
  intro c hc
  rw [h] at hc
  exact (Option.some.inj hc).symm

/-- What ends its line does so from any place in it. -/
theorem EndsLine.suffix {text text' : List Char} (h : EndsLine text) (hs : text' <:+ text) :
    EndsLine text' := by
  obtain ⟨before, rfl⟩ := hs
  intro c hc
  refine h c ?_
  rw [List.getLast?_append, Option.mem_def.1 hc]
  rfl

/-- A text that ends otherwise goes on until there is a line feed. -/
theorem EndsLine.mem_right {text rest : List Char} (h : EndsLine (text ++ rest)) (hne : text ≠ [])
    (htext : ∀ c ∈ text.getLast?, c ≠ '\n') : '\n' ∈ rest := by
  cases hrest : rest.getLast? with
  | none =>
    rw [List.getLast?_eq_none_iff.1 hrest, List.append_nil] at h
    have hlast := List.getLast?_eq_some_getLast hne
    exact absurd (h _ hlast) (htext _ hlast)
  | some c => exact h.suffix (List.suffix_append text rest) c hrest ▸ List.mem_of_getLast? hrest

/-- No token ends with a line feed. -/
theorem Lexeme.Fits.getLast?_ne {lexeme : Lexeme} {rest : List Char} (h : lexeme.Fits rest) :
    ∀ c ∈ lexeme.written.toList.getLast?, c ≠ '\n' := by
  -- A line feed is a blank, and no other token ends with one.
  have hblank : ∀ {text : List Char}, (∀ c ∈ text, isSpacing c = false) →
      ∀ c ∈ text.getLast?, c ≠ '\n' := by
    rintro text htext c hc rfl
    exact absurd (htext '\n' (List.mem_of_getLast? hc)) (by decide)
  cases lexeme with
  | symbol s => exact hblank h.1.holds.not_isSpacing
  | keyword k => exact hblank (Longest.holds h).not_isSpacing
  | identifier name => exact hblank h.1.holds.not_isSpacing
  | number digits value => exact hblank h.1.holds.not_isSpacing
  -- A string ends with its quote.
  | string body =>
    rintro c hc rfl
    rw [Lexeme.written, String.toList_ofList, List.getLast?_concat] at hc
    cases hc

/-- What a text that holds a line feed goes on with up to its first blank is the same, whatever follows
the text. -/
theorem takeWhile_append_of_lineFeed {rest : List Char} (h : '\n' ∈ rest) (more : List Char) :
    (rest ++ more).takeWhile (!isSpacing ·) <+: rest := by
  rw [List.takeWhile_append, if_neg]
  · exact List.takeWhile_prefix _
  · intro hlength
    rw [← (List.takeWhile_prefix _).eq_of_length hlength] at h
    exact absurd ((run_takeWhile _ rest).all '\n' h) (by decide)

/-- A piece fits whatever follows the text, if the text ends with a line feed, and if the piece is no
blank, no fault and no string that a quote with a backslash closes before a text with another quote. -/
theorem Piece.Fits.append {p : Piece} {rest more : List Char} (h : p.Fits rest)
    (hend : EndsLine (p.text ++ rest)) (hblank : p.kind ≠ .blank) (hfault : ∀ f, p.kind ≠ .fault f)
    (hstring : (∀ body, p.kind = .token (.string body) → body.getLast? ≠ some '\\') ∨ '"' ∉ more) :
    p.Fits (rest ++ more) := by
  obtain ⟨kind, text⟩ := p
  cases kind with
  | blank => exact absurd rfl hblank
  | comment =>
    refine h.imp_left ?_
    rintro ⟨body, rfl, hbody, hstop⟩
    -- The comment does not hold the line feed that ends the text, so the feed comes after it.
    have hline : '\n' ∉ '/' :: '/' :: body := by simp [hbody]
    have hmem : '\n' ∈ rest := hend.mem_right (List.cons_ne_nil _ _) fun c hc heq =>
      hline (heq ▸ List.mem_of_getLast? hc)
    obtain ⟨d, rest, rfl⟩ := List.exists_cons_of_ne_nil (List.ne_nil_of_mem hmem)
    exact ⟨body, rfl, hbody, hstop⟩
  | token lexeme =>
    have hne : text ≠ [] := h.ne_nil
    obtain ⟨rfl, h⟩ := h
    -- Nor does a token end with it.
    have hmem : '\n' ∈ rest := hend.mem_right hne h.getLast?_ne
    refine ⟨rfl, h.transfer (takeWhile_append_of_lineFeed hmem more) fun body hbody hlast hno => ?_⟩
    rcases hstring with hplain | hmore
    · exact absurd hlast (hplain body (congrArg PieceKind.token hbody))
    · exact fun hquote => (List.mem_append.1 hquote).elim hno hmore
  | fault f => exact absurd rfl (hfault f)

/-! ## Scans -/

namespace Scan

/-- Line feeds are counted part by part. -/
theorem lineFeeds_append (cs ds : List Char) : lineFeeds (cs ++ ds) = lineFeeds cs + lineFeeds ds := by
  unfold lineFeeds
  rw [List.count_append]
  omega

/-- Blanks at the beginning of a text only count lines. -/
theorem ofPieces_dropWhile (line : Int) (text : List Char) :
    ofPieces line (pieces text) =
      ofPieces (line + lineFeeds (text.takeWhile isSpacing)) (pieces (text.dropWhile isSpacing)) := by
  have hrun := run_takeWhile isSpacing text
  have hsplit := List.takeWhile_append_dropWhile (p := isSpacing) (l := text)
  generalize text.takeWhile isSpacing = blanks, text.dropWhile isSpacing = rest at hrun hsplit ⊢
  subst hsplit
  -- The blanks at the beginning are one piece, if there are any.
  cases blanks with
  | nil => simp [lineFeeds]
  | cons c cs =>
    have hfits : Piece.Fits ⟨.blank, c :: cs⟩ rest := longest_isBlank.2
      ⟨hrun.all c List.mem_cons_self, fun d hd => hrun.all d (List.mem_cons_of_mem c hd), hrun.stop⟩
    have hpieces : pieces (c :: cs ++ rest) = ⟨.blank, c :: cs⟩ :: pieces rest := pieces_of_fits hfits
    rw [hpieces]
    rfl

/-- Blanks before a text only count lines. -/
theorem ofPieces_spacing (line : Int) {blanks : List Char} (h : ∀ c ∈ blanks, isSpacing c = true)
    (text : List Char) :
    ofPieces line (pieces (blanks ++ text)) =
      ofPieces (line + lineFeeds blanks) (pieces text) := by
  rw [ofPieces_dropWhile, List.takeWhile_append_of_pos h, List.dropWhile_append_of_pos h,
    lineFeeds_append, ← Int.add_assoc, ← ofPieces_dropWhile]

/-- One scan after another. -/
def followedBy (a b : Scan) : Scan := ⟨a.tokens ++ b.tokens, a.faults ++ b.faults, b.endLine⟩

/-- A scan ends where it does from its second piece on. -/
theorem endLine_cons (line : Int) (kind : PieceKind) (later : Scan) :
    (cons line kind later).endLine = later.endLine := by
  cases kind <;> rfl

/-- What follows a scan follows what comes after its first piece. -/
theorem cons_followedBy (line : Int) (kind : PieceKind) (a b : Scan) :
    (cons line kind a).followedBy b = cons line kind (a.followedBy b) := by
  cases kind <;> rfl

/-- No string of a scan is closed by a quote with a backslash before it. -/
def PlainStrings (s : Scan) : Prop :=
  ∀ t ∈ s.tokens, ∀ body, t.lexeme = .string body → body.getLast? ≠ some '\\'

/-- The characters between the quotes of a string. -/
def stringBody? : Lexeme → Option (List Char)
  | .string body => some body
  | _ => none

/-- Only strings have a body. -/
theorem stringBody?_eq_some {lexeme : Lexeme} {body : List Char} :
    stringBody? lexeme = some body ↔ lexeme = .string body := by
  cases lexeme <;> simp [stringBody?]

/-- Whether all strings of a scan are plain is found out by looking at them. -/
instance (s : Scan) : Decidable s.PlainStrings :=
  decidable_of_iff (∀ t ∈ s.tokens, ∀ body ∈ stringBody? t.lexeme, body.getLast? ≠ some '\\') <| by
    simp only [PlainStrings, Option.mem_def, stringBody?_eq_some]

/-- Where nothing is reported, neither the first piece nor the others are faults. -/
theorem faults_of_cons {line : Int} {kind : PieceKind} {later : Scan}
    (h : (cons line kind later).faults = []) : (∀ f, kind ≠ .fault f) ∧ later.faults = [] := by
  cases kind with
  | fault f => cases h
  | blank | comment | token => exact ⟨nofun, h⟩

/-- The first piece is a plain string, or none, and so are the others. -/
theorem plainStrings_cons {line : Int} {kind : PieceKind} {later : Scan} :
    (cons line kind later).PlainStrings ↔
      (∀ body, kind = .token (.string body) → body.getLast? ≠ some '\\') ∧ later.PlainStrings := by
  cases kind with
  | token lexeme =>
    constructor
    · intro h
      refine ⟨fun body hbody => ?_, fun t ht => h t (List.mem_cons_of_mem _ ht)⟩
      injection hbody with hbody
      exact h ⟨lexeme, line⟩ List.mem_cons_self body hbody
    · rintro ⟨hlexeme, hlater⟩ t ht body hbody
      rcases List.mem_cons.1 ht with rfl | ht
      · exact hlexeme body (congrArg PieceKind.token hbody)
      · exact hlater t ht body hbody
  -- Pieces of other kinds are no strings.
  | blank | comment | fault => exact ⟨fun h => ⟨nofun, h⟩, fun h => h.2⟩

/-- The first piece of a text that ends with a line feed is scanned before all that follows it. -/
theorem ofPieces_append_of_fits (line : Int) {p : Piece} {rest more : List Char} (hfit : p.Fits rest)
    (hend : EndsLine (p.text ++ rest)) (hfault : ∀ f, p.kind ≠ .fault f)
    (hstring : (∀ body, p.kind = .token (.string body) → body.getLast? ≠ some '\\') ∨ '"' ∉ more) :
    ofPieces line (pieces (p.text ++ (rest ++ more))) =
      cons line p.kind (ofPieces (line + lineFeeds p.text) (pieces (rest ++ more))) := by
  -- Blanks run together with those that follow; every other piece stays as it is.
  by_cases hblank : p.kind = .blank
  · rw [hblank]
    exact ofPieces_spacing line (hfit.blank hblank).holds.spacing _
  · rw [pieces_of_fits (hfit.append hend hblank hfault hstring)]
    rfl

/-- A text that ends with a line feed is scanned before what follows it. -/
theorem ofPieces_append (line : Int) {ps : List Piece} (hfit : FitTogether ps)
    (hend : EndsLine (ps.map Piece.text).flatten) (hfaults : (ofPieces line ps).faults = [])
    {more : List Char} (hstrings : (ofPieces line ps).PlainStrings ∨ '"' ∉ more) :
    ofPieces line (pieces ((ps.map Piece.text).flatten ++ more)) =
      (ofPieces line ps).followedBy (ofPieces (ofPieces line ps).endLine (pieces more)) := by
  induction ps generalizing line with
  | nil => rfl
  | cons p ps ih =>
    rw [List.map_cons, List.flatten_cons] at hend ⊢
    obtain ⟨hfault, hfaults⟩ := faults_of_cons hfaults
    -- The pieces after the first are scanned apart by induction, and the first fits what comes after it.
    have hlater := ih _ hfit.2 (hend.suffix (List.suffix_append _ _)) hfaults
      (hstrings.imp_left fun h => (plainStrings_cons.1 h).2)
    rw [List.append_assoc, ofPieces_append_of_fits line hfit.1 hend hfault
      (hstrings.imp_left fun h => (plainStrings_cons.1 h).1), hlater, ← cons_followedBy, ofPieces,
      endLine_cons]

/-- The scan of a text that is put together from two, of which the first ends with a line feed. -/
theorem ofText_append {text : String} {line : Int} (hend : text.toList.getLast? = some '\n')
    (hfaults : (ofText text line).faults = []) (hstrings : (ofText text line).PlainStrings)
    (more : String) : ofText (text ++ more) line =
      (ofText text line).followedBy (ofText more (ofText text line).endLine) := by
  have hclosed : (ofPieces line (pieces text.toList)).PlainStrings ∨ '"' ∉ more.toList := .inl hstrings
  have happend := ofPieces_append line (fitTogether_pieces text.toList)
    (by rw [pieces_flatten]; exact .of_getLast? hend) hfaults hclosed
  rwa [pieces_flatten, ← String.toList_append] at happend

end Scan

end Treewalk
