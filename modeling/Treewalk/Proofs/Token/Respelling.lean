import Treewalk.Proofs.Token.Append
import Treewalk.Proofs.Token.Word
import Mathlib.Data.List.Forall2
import Mathlib.Data.Option.Basic

/-!
# Other names in a text

A text in which identifiers are respelled, one name for another, falls into the same pieces but for those
identifiers (`FitTogether.respelled`). Where a piece ends depends on what follows it, but only on whether
that begins with a letter or an underscore, and which other character it begins with; an identifier is
replaced by one that begins with a letter or an underscore too. So the tokens of a text can be respelled in
the text itself (`Scan.exists_respelled`).
-/

namespace Treewalk

/-- A token stays as it is, or it is an identifier that is respelled. -/
def Token.Respelled (n m : String) (t t' : Token) : Prop :=
  t' = t ∨ ∃ line, t = ⟨.identifier n, line⟩ ∧ t' = ⟨.identifier m, line⟩

/-- The piece of a text that an identifier is. -/
def Piece.identifier (word : String) : Piece := ⟨.token (.identifier word), word.toList⟩

/-- A piece stays as it is, or it is an identifier that is respelled. -/
def Piece.Respelled (n m : String) (p p' : Piece) : Prop :=
  p' = p ∨ p = .identifier n ∧ p' = .identifier m

/-! ## What follows a piece -/

/-- What follows a piece, and the same with identifiers respelled. -/
def Follows (n m : String) (rest rest' : List Char) : Prop :=
  ∃ ps ps', FitTogether ps ∧ List.Forall₂ (Piece.Respelled n m) ps ps' ∧
    rest = (ps.map Piece.text).flatten ∧ rest' = (ps'.map Piece.text).flatten

/-- A name begins as a name does. -/
theorem IsName.exists_cons {word : String} (h : IsName word) :
    ∃ c cs, word.toList = c :: cs ∧ isNameStart c = true := by
  obtain ⟨⟨c, cs, hword, hc, -⟩, -⟩ := isName_iff.1 h
  exact ⟨c, cs, hword, hc⟩

namespace Follows

variable {n m : String} {rest rest' : List Char}

/-- Both begin with the same character, or with the first characters of names. -/
theorem head (hn : IsName n) (hm : IsName m) (h : Follows n m rest rest') :
    Option.Rel (fun d d' => d = d' ∨ isNameStart d = true ∧ isNameStart d' = true) rest.head?
      rest'.head? := by
  obtain ⟨ps, ps', hfit, hps, rfl, rfl⟩ := h
  cases hps with
  | nil => exact .none
  | @cons p p' ps ps' hp hps =>
    rw [List.map_cons, List.map_cons, List.flatten_cons, List.flatten_cons]
    rcases hp with rfl | ⟨rfl, rfl⟩
    · obtain ⟨c, cs, htext⟩ := List.exists_cons_of_ne_nil hfit.1.ne_nil
      rw [htext]
      exact .some (.inl rfl)
    -- One name comes instead of the other, and both begin with a letter.
    · obtain ⟨c, cs, hword, hc⟩ := hn.exists_cons
      obtain ⟨c', cs', hword', hc'⟩ := hm.exists_cons
      show Option.Rel _ (n.toList ++ _).head? (m.toList ++ _).head?
      rw [hword, hword']
      exact .some (.inr ⟨hc, hc'⟩)

/-- A character that begins no name begins both or neither. -/
theorem head?_iff (hn : IsName n) (hm : IsName m) (h : Follows n m rest rest') {x : Char}
    (hx : isNameStart x = false) : rest.head? = some x ↔ rest'.head? = some x := by
  have hne : ∀ e, isNameStart e = true → some e ≠ some x := by
    rintro e he heq
    rw [Option.some.inj heq, hx] at he
    cases he
  have hhead := h.head hn hm
  generalize rest.head? = d, rest'.head? = d' at hhead
  cases hhead with
  | none => exact Iff.rfl
  | some hhead =>
    rcases hhead with rfl | ⟨hstart, hstart'⟩
    · exact Iff.rfl
    -- A character that begins no name is next in neither.
    · exact iff_of_false (hne _ hstart) (hne _ hstart')

/-- A run of characters that takes all first characters of names or none stops before both. -/
theorem stop {p : Char → Bool} {b : Bool} (hp : ∀ d, isNameStart d = true → p d = b) (hn : IsName n)
    (hm : IsName m) (h : Follows n m rest rest') (hrest : ∀ d ∈ rest.head?, p d = false) :
    ∀ d ∈ rest'.head?, p d = false := by
  have hhead := h.head hn hm
  generalize rest.head? = d, rest'.head? = d' at hhead hrest
  intro e he
  cases hhead with
  | none => cases he
  | some hhead =>
    cases he
    rcases hhead with rfl | ⟨hstart, hstart'⟩
    · exact hrest _ rfl
    -- The test says the same of all letters.
    · rw [hp _ hstart', ← hp _ hstart]
      exact hrest _ rfl

/-- Letters are no digits. -/
theorem isDigit_of_isNameStart (d : Char) (h : isNameStart d = true) : Text.isDigit d = false :=
  (not_other_of_isNameStart h).2.2.2

/-- After a dot comes the same, respelled. -/
theorem of_dot {ds : List Char} (hm : IsName m) (h : Follows n m rest ('.' :: ds)) :
    ∃ cs, rest = '.' :: cs ∧ Follows n m cs ds := by
  obtain ⟨ps, ps', hfit, hps, rfl, hflatten⟩ := h
  cases hps with
  | nil => cases hflatten
  | @cons p p' ps ps' hp hps =>
    rw [List.map_cons, List.flatten_cons] at hflatten ⊢
    rcases hp with rfl | ⟨-, rfl⟩
    · -- A piece that begins with a dot is the dot.
      obtain ⟨c, cs, htext, hcut⟩ := hfit.1.isCut
      rw [htext] at hflatten
      obtain ⟨rfl, rfl⟩ := List.cons.inj hflatten
      have hdot : ∀ more, cut '.' more = (.token (.symbol .dot), 1) := by
        intro more
        rw [cut_of_not (by decide) (by decide) fun heq => absurd heq (by decide)]
        unfold cutSymbol
        simp [Symbol.ofCharEqual?, Symbol.ofChar?, show Text.isDigit '.' = false by decide,
          show isNameStart '.' = false by decide]
      have hlength : 1 = p'.text.length := congrArg Prod.snd ((hdot _).symm.trans hcut)
      rw [htext, List.length_cons] at hlength
      obtain rfl : cs = [] := List.length_eq_zero_iff.1 (by omega)
      exact ⟨_, by rw [htext]; rfl, ps, ps', hfit.2, hps, rfl, rfl⟩
    · obtain ⟨c, cs, hword, hc⟩ := hm.exists_cons
      have hmark : '.' :: ds = m.toList ++ (ps'.map Piece.text).flatten := hflatten
      rw [hword] at hmark
      obtain ⟨rfl, -⟩ := List.cons.inj hmark
      exact absurd hc (by decide)

/-- No name begins with a digit, so the digits of a number end where they did. -/
theorem fractionDigits_eq_nil (hn : IsName n) (hm : IsName m) (h : Follows n m rest rest')
    (hrest : fractionDigits rest = []) : fractionDigits rest' = [] := by
  unfold fractionDigits
  split
  · next ds =>
    obtain ⟨cs, rfl, hfollows⟩ := h.of_dot hm
    have hrun := run_takeWhile Text.isDigit cs
    have hsplit := List.takeWhile_append_dropWhile (p := Text.isDigit) (l := cs)
    rw [show cs.takeWhile Text.isDigit = [] from hrest] at hrun hsplit
    rw [List.nil_append] at hsplit
    rw [hsplit] at hrun
    have hrun' : Run Text.isDigit [] ds :=
      ⟨nofun, hfollows.stop isDigit_of_isNameStart hn hm hrun.stop⟩
    exact hrun'.split.1
  · rfl

/-- No quote comes in. -/
theorem quote (hm : IsName m) (h : Follows n m rest rest') (hrest : '"' ∉ rest) : '"' ∉ rest' := by
  obtain ⟨ps, ps', -, hps, rfl, rfl⟩ := h
  induction hps with
  | nil => exact List.not_mem_nil
  | @cons p p' ps ps' hp _ ih =>
    rw [List.map_cons, List.flatten_cons, List.mem_append, not_or] at hrest ⊢
    refine ⟨?_, ih hrest.2⟩
    rcases hp with rfl | ⟨-, rfl⟩
    · exact hrest.1
    · intro hmem
      exact absurd (List.all_eq_true.1 hm.rest _ hmem) (by decide)

/-- A lexeme fits before the one text if it fits before the other. -/
theorem lexeme (hn : IsName n) (hm : IsName m) (h : Follows n m rest rest') {lexeme : Lexeme}
    (hfits : lexeme.Fits rest) : lexeme.Fits rest' := by
  -- A word ends where it ended: both names begin with a letter, and where one was next the other is.
  have hword : ∀ {text : List Char}, Longest IsWord text rest → Longest IsWord text rest' := by
    intro text hlongest
    obtain ⟨c, cs, rfl, -⟩ := id hlongest.holds
    obtain ⟨hc, hrun⟩ := longest_isWord.1 hlongest
    exact longest_isWord.2
      ⟨hc, hrun.all, h.stop (fun d hd => isNamePart_of_isNameStart hd) hn hm hrun.stop⟩
  cases lexeme with
  | symbol s =>
    obtain ⟨hlongest, hslash⟩ := hfits
    refine ⟨?_, fun hs => ?_⟩
    -- Of symbols only those of one character look at what comes next, for an equals sign or a slash.
    · rcases s.spelling_cases with ⟨c, hc, hchar⟩ | ⟨c, hc, hequal, -⟩
      · rw [hc, longest_isSymbol_singleton hchar] at hlongest ⊢
        rwa [← h.head?_iff hn hm (by decide)]
      · rw [hc]
        exact longest_isSymbol_pair hequal
    · rw [Ne, Ne, ← h.head?_iff hn hm (by decide), ← h.head?_iff hn hm (by decide)]
      exact hslash hs
  | keyword k => exact hword hfits
  | identifier name => exact ⟨hword hfits.1, hfits.2⟩
  | number digits value =>
    obtain ⟨hlongest, whole, fraction, hnumeral, hvalue⟩ := hfits
    obtain ⟨hrest, hfraction⟩ := (longest_isNumeral hnumeral).1 hlongest
    refine ⟨(longest_isNumeral hnumeral).2 ⟨h.stop isDigit_of_isNameStart hn hm hrest, ?_⟩,
      whole, fraction, hnumeral, hvalue⟩
    -- A point makes a fraction only before a digit, which no name begins with.
    exact fun hnil => h.fractionDigits_eq_nil hn hm (hfraction hnil)
  -- Only a quote could make a string longer.
  | string body => exact ⟨hfits.escaped, fun hlast => h.quote hm (hfits.last hlast)⟩

/-- A piece that is no fault fits before the one text if it fits before the other. -/
theorem fits (hn : IsName n) (hm : IsName m) (h : Follows n m rest rest') {p : Piece}
    (hfault : ∀ f, p.kind ≠ .fault f) (hfits : p.Fits rest) : p.Fits rest' := by
  obtain ⟨kind, text⟩ := p
  cases kind with
  | blank =>
    obtain ⟨c, cs, rfl⟩ := List.exists_cons_of_ne_nil (Longest.holds hfits).ne_nil
    obtain ⟨hc, hrun⟩ := longest_isBlank.1 hfits
    exact longest_isBlank.2
      -- A name is no blank, before or after.
      ⟨hc, hrun.all, h.stop (fun d hd => (not_other_of_isNameStart hd).1) hn hm hrun.stop⟩
  | comment =>
    refine Or.imp_left ?_ hfits
    rintro ⟨body, rfl, hbody, hstop⟩
    refine ⟨body, rfl, hbody, fun c hc => ?_⟩
    -- The line feed that ends a comment is in no name.
    have hline := h.stop (p := fun d => decide (d ≠ '\n')) (b := true) (fun d hd => ?_) hn hm
      fun d hd => decide_eq_false (not_not_intro (hstop d hd))
    · exact not_not.1 (of_decide_eq_false (hline c hc))
    · refine decide_eq_true ?_
      rintro rfl
      exact absurd hd (by decide)
  | token lexeme => exact ⟨hfits.1, h.lexeme hn hm hfits.2⟩
  | fault f => exact absurd rfl (hfault f)

end Follows

/-! ## Respelled texts -/

/-- Pieces that fit one before the other do so respelled, if none of them is a fault. -/
theorem FitTogether.respelled {n m : String} (hn : IsName n) (hm : IsName m) {ps ps' : List Piece}
    (h : FitTogether ps) (hfaults : ∀ p ∈ ps, ∀ f, p.kind ≠ .fault f)
    (hps : List.Forall₂ (Piece.Respelled n m) ps ps') : FitTogether ps' := by
  induction hps with
  | nil => trivial
  | @cons p p' ps ps' hp hps ih =>
    have hfollows : Follows n m (ps.map Piece.text).flatten (ps'.map Piece.text).flatten :=
      ⟨ps, ps', h.2, hps, rfl, rfl⟩
    have hfits := hfollows.fits hn hm (hfaults p List.mem_cons_self) h.1
    refine ⟨?_, ih h.2 fun q hq => hfaults q (List.mem_cons_of_mem p hq)⟩
    rcases hp with rfl | ⟨rfl, rfl⟩
    · exact hfits
    · obtain ⟨⟨c', cs', hword', hc', hcs'⟩, hne⟩ := isName_iff.1 hm
      obtain ⟨c, cs, hword, -⟩ := hn.exists_cons
      have hlongest : Longest IsWord n.toList _ := hfits.2.1
      rw [hword] at hlongest
      refine ⟨rfl, ?_, hne⟩
      rw [hword']
      exact longest_isWord.2 ⟨hc', hcs', (longest_isWord.1 hlongest).2.stop⟩

namespace Scan

variable {n m : String}

/-- Names have no line feeds. -/
theorem lineFeeds_identifier {word : String} (h : IsName word) : lineFeeds word.toList = 0 :=
  congrArg Nat.cast (List.count_eq_zero.2 h.not_mem_lineFeed)

/-- Where the tokens of pieces are respelled the pieces are. -/
theorem exists_pieces_respelled (hn : IsName n) (hm : IsName m) {ps : List Piece}
    (hps : FitTogether ps) {line : Int} {ts : List Token}
    (h : List.Forall₂ (Token.Respelled n m) (ofPieces line ps).tokens ts) :
    ∃ ps', List.Forall₂ (Piece.Respelled n m) ps ps' ∧
      ofPieces line ps' = { ofPieces line ps with tokens := ts } := by
  induction ps generalizing line ts with
  | nil =>
    cases h
    exact ⟨[], .nil, rfl⟩
  | cons p ps ih =>
    -- A piece that is kept keeps its lines, so the rest is scanned as before.
    have hsame : ∀ {ts}, List.Forall₂ (Token.Respelled n m)
        (ofPieces (line + lineFeeds p.text) ps).tokens ts → ∃ ps',
        List.Forall₂ (Piece.Respelled n m) (p :: ps) (p :: ps') ∧
          ofPieces (line + lineFeeds p.text) ps' =
            { ofPieces (line + lineFeeds p.text) ps with tokens := ts } := by
      intro ts hts
      obtain ⟨ps', hps', hscan⟩ := ih hps.2 hts
      exact ⟨ps', .cons (.inl rfl) hps', hscan⟩
    have hcons : ∀ q qs, ofPieces line (q :: qs) =
        cons line q.kind (ofPieces (line + lineFeeds q.text) qs) := fun _ _ => rfl
    rw [hcons] at h
    simp only [hcons p ps]
    cases hkind : p.kind with
    | token lexeme =>
      rw [hkind] at h
      cases h with
      | @cons _ t _ ts ht hts =>
        rcases ht with rfl | ⟨line', ht, rfl⟩
        · obtain ⟨ps', hps', hscan⟩ := hsame hts
          refine ⟨p :: ps', hps', ?_⟩
          rw [hcons, hkind, hscan]
          rfl
        · -- The piece is the name, and the other one takes its place.
          injection ht with hlexeme hline
          subst hlexeme hline
          have htext : p.text = n.toList := (hps.1.token hkind).1
          obtain ⟨ps', hps', hscan⟩ := ih hps.2 hts
          refine ⟨.identifier m :: ps', .cons (.inr ⟨?_, rfl⟩) hps', ?_⟩
          · obtain ⟨kind, text⟩ := p
            cases hkind
            cases htext
            rfl
          · -- Names hold no line feeds, so the rest is scanned at the same line.
            have hlines : lineFeeds (Piece.identifier m).text = lineFeeds p.text := by
              rw [htext]
              exact (lineFeeds_identifier hm).trans (lineFeeds_identifier hn).symm
            rw [hcons, hlines, hscan]
            rfl
    | blank | comment | fault f =>
      rw [hkind] at h
      obtain ⟨ps', hps', hscan⟩ := hsame h
      refine ⟨p :: ps', hps', ?_⟩
      rw [hcons, hkind, hscan]
      rfl

/-- Without faults no piece is one. -/
theorem kind_ne_fault {ps : List Piece} {line : Int} (h : (ofPieces line ps).faults = []) :
    ∀ p ∈ ps, ∀ f, p.kind ≠ .fault f := by
  induction ps generalizing line with
  | nil => exact fun p hp => by cases hp
  | cons q ps ih =>
    obtain ⟨hq, hps⟩ := faults_of_cons h
    intro p hp
    rcases List.mem_cons.1 hp with rfl | hp
    · exact hq
    · exact ih hps p hp

/-- The tokens of a text without faults can be respelled in the text. -/
theorem exists_respelled (hn : IsName n) (hm : IsName m) {text : String} {line : Int} {ts : List Token}
    (hfaults : (ofText text line).faults = [])
    (h : List.Forall₂ (Token.Respelled n m) (ofText text line).tokens ts) :
    ∃ text' : String,
      List.Forall₂ (Piece.Respelled n m) (pieces text.toList) (pieces text'.toList) ∧
      ofText text' line = { ofText text line with tokens := ts } := by
  obtain ⟨ps, hps, hscan⟩ := exists_pieces_respelled hn hm (fitTogether_pieces _) h
  have hpieces := pieces_of_fitTogether
    ((fitTogether_pieces _).respelled hn hm (kind_ne_fault hfaults) hps)
  refine ⟨String.ofList (ps.map Piece.text).flatten, ?_, ?_⟩
  · rw [String.toList_ofList, hpieces]
    exact hps
  · unfold ofText
    rw [String.toList_ofList, hpieces]
    exact hscan

/-- Two last characters, if there are any, are both a line feed or both none. -/
def EndsAlike : Option Char → Option Char → Prop := Option.Rel fun c c' => c = '\n' ↔ c' = '\n'

/-- The one text ends with a line feed if and only if the other does. -/
theorem EndsAlike.iff {a a' : Option Char} (h : EndsAlike a a') : a = some '\n' ↔ a' = some '\n' := by
  cases h with
  | none => exact Iff.rfl
  | some hiff => rw [Option.some_inj, Option.some_inj, hiff]

/-- Two texts one after the other end alike. -/
theorem EndsAlike.or {a a' b b' : Option Char} (ha : EndsAlike a a') (hb : EndsAlike b b') :
    EndsAlike (a.or b) (a'.or b') := by
  cases ha with
  | none => exact hb
  | some ha => exact .some ha

/-- A name does not end with a line feed. -/
theorem exists_getLast?_of_isName {word : String} (hword : IsName word) :
    ∃ c, word.toList.getLast? = some c ∧ c ≠ '\n' := by
  cases hlast : word.toList.getLast? with
  | none =>
    have hstart := hword.start
    rw [List.getLast?_eq_none_iff.1 hlast] at hstart
    cases hstart
  | some c =>
    refine ⟨c, rfl, ?_⟩
    rintro rfl
    exact hword.not_mem_lineFeed (List.mem_of_getLast? hlast)

/-- A respelled piece ends as the piece did: names do not end with line feeds. -/
theorem endsAlike_respelled (hn : IsName n) (hm : IsName m) {p p' : Piece} (h : p.Respelled n m p') :
    EndsAlike p.text.getLast? p'.text.getLast? := by
  rcases h with rfl | ⟨rfl, rfl⟩
  · cases p'.text.getLast? with
    | none => exact .none
    | some c => exact .some Iff.rfl
  · obtain ⟨c, hc, hne⟩ := exists_getLast?_of_isName hn
    obtain ⟨c', hc', hne'⟩ := exists_getLast?_of_isName hm
    show EndsAlike n.toList.getLast? m.toList.getLast?
    rw [hc, hc']
    exact .some (iff_of_false hne hne')

/-- A respelled text ends with a line feed if and only if the text does. -/
theorem getLast?_respelled (hn : IsName n) (hm : IsName m) {text text' : List Char}
    (h : List.Forall₂ (Piece.Respelled n m) (pieces text) (pieces text')) :
    text.getLast? = some '\n' ↔ text'.getLast? = some '\n' := by
  refine EndsAlike.iff ?_
  rw [← pieces_flatten text, ← pieces_flatten text']
  generalize pieces text = ps, pieces text' = ps' at h
  induction h with
  | nil => exact .none
  | cons hp _ ih =>
    rw [List.map_cons, List.map_cons, List.flatten_cons, List.flatten_cons, List.getLast?_append,
      List.getLast?_append]
    exact ih.or (endsAlike_respelled hn hm hp)

end Scan

end Treewalk
