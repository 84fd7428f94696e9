import Treewalk.Proofs.Grammar.Halting

/-!
# How far parsers look

A parser decides by the next token, so what it makes of some tokens does not change when more tokens
come after them, as long as it leaves one of them (`PartAt.append`). If it takes them all there are two
kinds of parsers. A `Phrase`, the parser of an expression or a piece of one, may go on in what comes
after; but it never takes a semicolon last (`PhraseAt.taken`). A `Sentence`, the parser of a statement, is
complete, and only an `else` could make it go on (`Sentence.settled`).

Either of them is a `Part`: where it breaks off at the last token it reports the end, or the last token
is no semicolon (`PartAt.breaks`). The one error that is not reported at the next token is that of an
assignment to something else than a target, and it comes after an expression.

Each way to build a parser has a lemma that says how these properties pass on. Recovery from an error is one
of them: a parser that recovers never breaks off, and it is a part if the parser inside it is
(`part_recovered`).
-/

namespace Treewalk

variable {α β : Type}

/-- What a parser makes of tokens, with more tokens behind those that it leaves. -/
def Parsed.before (r : Parsed α) (more : List Token) : Parsed α := { r with rest := r.rest ++ more }

/-- Tokens have no semicolon at their end, or an error at their end is reported. -/
def Unclosed (ts : List Token) (errors : List SyntaxError) : Prop :=
  (∃ e ∈ errors, e.place = none) ∨ ∃ t ∈ ts.getLast?, t.lexeme ≠ .symbol .semicolon

/-- More errors leave tokens as unclosed as they are. -/
theorem Unclosed.mono {ts : List Token} {errors errors' : List SyntaxError} (h : Unclosed ts errors)
    (hsub : errors ⊆ errors') : Unclosed ts errors' :=
  h.imp_left fun ⟨e, he, hplace⟩ => ⟨e, hsub he, hplace⟩

/-- What the last tokens end with the tokens end with. -/
theorem Unclosed.of_suffix {ts us : List Token} {errors : List SyntaxError} (h : Unclosed us errors)
    (hs : us <:+ ts) : Unclosed ts errors := by
  refine h.imp_right fun ⟨t, ht, hne⟩ => ⟨t, ?_, hne⟩
  obtain ⟨before, rfl⟩ := hs
  rw [List.getLast?_append, Option.mem_def.1 ht]
  rfl

namespace Parser

/-- More tokens after some do not change what a parser makes of them. -/
def Ignores (p : Parser α) (ts more : List Token) : Prop := p.run (ts ++ more) = (p.run ts).before more

/-- A parser never succeeds at the end of the tokens. -/
def NeedsToken (p : Parser α) : Prop := ∀ a, (p.run []).outcome ≠ .ok a

/-- How far a parser looks when it reads the given tokens. -/
structure PartAt (p : Parser α) (ts : List Token) : Prop where
  /-- The tokens that are left are the last of the tokens. -/
  suffix : (p.run ts).rest <:+ ts
  append : (p.run ts).rest ≠ [] → ∀ more, p.Ignores ts more
  breaks : (p.run ts).outcome = .error .broken → (p.run ts).rest = [] → Unclosed ts (p.run ts).errors

/-- How far a parser looks that reads a piece of an expression from the given tokens. -/
structure PhraseAt (p : Parser α) (ts : List Token) : Prop extends PartAt p ts where
  taken : ∀ a, (p.run ts).outcome = .ok a → ts ≠ [] → (p.run ts).rest = [] → Unclosed ts (p.run ts).errors

/-- A parser looks no further than to the next token, whatever the tokens are. -/
def Part (p : Parser α) : Prop := ∀ ts, p.PartAt ts

/-- A parser of an expression or of a piece of one. -/
def Phrase (p : Parser α) : Prop := ∀ ts, p.PhraseAt ts

/-- A parser of a statement or of the last piece of one. -/
structure Sentence (p : Parser α) : Prop where
  part : p.Part
  settled : ∀ {ts more a}, (p.run ts).outcome = .ok a → startsWith (.keyword .else_) more = false →
    p.Ignores ts more

/-- What reads a piece of an expression looks no further than to the next token. -/
theorem Phrase.part {p : Parser α} (h : p.Phrase) : p.Part := fun ts => (h ts).toPartAt

/-! ## Parsers that take nothing -/

/-- A parser that leaves all tokens looks only at the next one, if that is what its result depends on. -/
theorem phrase_of_rest {p : Parser α} (hrest : ∀ ts, (p.run ts).rest = ts)
    (happend : ∀ t ts more, p.Ignores (t :: ts) more)
    (hbreaks : (p.run []).outcome = .error .broken → ∃ e ∈ (p.run []).errors, e.place = none) :
    p.Phrase := by
  intro ts
  refine ⟨⟨?_, fun hne more => ?_, fun hbroken hnil => ?_⟩,
    fun a _ hne hnil => absurd ((hrest ts).symm.trans hnil) hne⟩
  -- All three are about what is left, which is everything.
  · simp only [hrest, List.suffix_refl]
  · rw [hrest] at hne
    obtain ⟨t, ts, rfl⟩ := List.exists_cons_of_ne_nil hne
    exact happend t ts more
  · rw [hrest] at hnil
    subst hnil
    exact .inl (hbreaks hbroken)

/-- A parser that takes no token reads a piece of an expression that is empty. -/
theorem phrase_pure (a : α) : (pure a : Parser α).Phrase :=
  phrase_of_rest (fun _ => rfl) (fun _ _ _ => rfl) nofun

/-- A parser that is nested too deeply takes nothing. -/
theorem phrase_tooDeep : (tooDeep : Parser α).Phrase :=
  phrase_of_rest (fun _ => rfl) (fun _ _ _ => rfl) nofun

/-- A parser that breaks off reports the end, if it is there. -/
theorem phrase_fail (fault : SyntaxFault) : (fail fault : Parser α).Phrase :=
  phrase_of_rest (fun _ => rfl) (fun _ _ _ => rfl) fun _ => ⟨_, List.mem_singleton_self _, rfl⟩

/-- A report takes nothing. -/
theorem phrase_noteIf (condition : Prop) [Decidable condition] (fault : SyntaxFault) :
    (noteIf condition fault).Phrase := by
  unfold noteIf
  split
  · exact phrase_of_rest (fun _ => rfl) (fun _ _ _ => rfl) nofun
  · exact phrase_pure ()

/-- The look at the next token, written out. -/
theorem run_nextIs (lexeme : Lexeme) (ts : List Token) :
    (nextIs lexeme).run ts = ⟨.ok (startsWith lexeme ts), ts, []⟩ := by
  cases ts with
  | nil => rfl
  | cons t ts => rfl

/-- The look at the next token takes nothing. -/
theorem phrase_nextIs (lexeme : Lexeme) : (nextIs lexeme).Phrase := by
  refine phrase_of_rest (fun ts => by rw [run_nextIs]) (fun t ts more => ?_) fun h => ?_
  · unfold Ignores
    rw [run_nextIs, run_nextIs]
    rfl
  · rw [run_nextIs] at h
    cases h

/-! ## Sequences -/

/-- More tokens do not change what a sequence makes of some, if they change nothing for its parts. -/
theorem Ignores.bind {p : Parser α} {f : α → Parser β} {ts more : List Token} (hp : p.Ignores ts more)
    (hf : ∀ a, (p.run ts).outcome = .ok a → (f a).Ignores (p.run ts).rest more) :
    (p >>= f).Ignores ts more := by
  unfold Ignores at hp ⊢
  cases h : (p.run ts).outcome with
  | error halt =>
    have h' : (p.run (ts ++ more)).outcome = .error halt := by rw [hp]; exact h
    rw [run_bind_error h', run_bind_error h, hp]
    rfl
  | ok a =>
    have h' : (p.run (ts ++ more)).outcome = .ok a := by rw [hp]; exact h
    -- The second parser goes on from the same tokens, with `more` behind them.
    have hlater : (f a).run ((p.run ts).rest ++ more) = _ := hf a h
    rw [run_bind_ok h', run_bind_ok h, hp]
    simp only [Parsed.before, hlater]

/-- A sequence succeeds if its parts do. -/
theorem ok_of_bind {p : Parser α} {f : α → Parser β} {ts : List Token} {b : β}
    (h : ((p >>= f).run ts).outcome = .ok b) :
    ∃ a, (p.run ts).outcome = .ok a ∧ ((f a).run (p.run ts).rest).outcome = .ok b := by
  cases ha : (p.run ts).outcome with
  | error halt =>
    rw [run_bind_error ha] at h
    cases h
  | ok a =>
    rw [run_bind_ok ha] at h
    exact ⟨a, rfl, h⟩

/-- A parser after another looks no further than to the next token if neither does, on the tokens that it
reads. -/
theorem PartAt.bind {p : Parser α} {f : α → Parser β} {ts : List Token} (hp : p.PartAt ts)
    (hf : ∀ a, (p.run ts).outcome = .ok a → (f a).PartAt (p.run ts).rest) : (p >>= f).PartAt ts := by
  cases h : (p.run ts).outcome with
  | error halt =>
    have hrun := run_bind_error (f := f) h
    refine ⟨?_, fun hne more => ?_, ?_⟩
    · rw [hrun]
      exact hp.suffix
    · rw [hrun] at hne
      refine (hp.append hne more).bind fun a ha => ?_
      rw [h] at ha
      cases ha
    · rw [hrun]
      intro hbroken
      cases hbroken
      exact hp.breaks h
  | ok a =>
    have hrun := run_bind_ok (f := f) h
    have hlater := hf a h
    refine ⟨?_, fun hne more => ?_, ?_⟩
    · rw [hrun]
      exact hlater.suffix.trans hp.suffix
    · rw [hrun] at hne
      -- What the first parser leaves is not empty, as something is left of it.
      have hmid : (p.run ts).rest ≠ [] := by
        intro hnil
        have hsuffix := hlater.suffix
        rw [hnil] at hsuffix hne
        exact hne (List.suffix_nil.1 hsuffix)
      refine (hp.append hmid more).bind fun b hb => ?_
      rw [h] at hb
      cases hb
      exact hlater.append hne more
    · rw [hrun]
      exact fun hbroken hnil =>
        ((hlater.breaks hbroken hnil).of_suffix hp.suffix).mono (List.subset_append_right _ _)

/-- A parser after another looks no further than to the next token if neither does. -/
theorem Part.bind {p : Parser α} {f : α → Parser β} (hp : p.Part) (hf : ∀ a, (f a).Part) :
    (p >>= f).Part :=
  fun ts => (hp ts).bind fun a _ => hf a _

/-- A piece after another is a piece, on the tokens that are read. -/
theorem PhraseAt.bind {p : Parser α} {f : α → Parser β} {ts : List Token} (hp : p.PhraseAt ts)
    (hf : ∀ a, (p.run ts).outcome = .ok a → (f a).PhraseAt (p.run ts).rest) :
    (p >>= f).PhraseAt ts := by
  refine ⟨hp.toPartAt.bind fun a ha => (hf a ha).toPartAt, fun b hb hne hnil => ?_⟩
  obtain ⟨a, ha, hlater⟩ := ok_of_bind hb
  rw [run_bind_ok ha] at hnil ⊢
  -- The last token is taken by the first parser, or it is among those that the second one takes.
  by_cases hmid : (p.run ts).rest = []
  · exact (hp.taken a ha hne hmid).mono (List.subset_append_left _ _)
  · exact (((hf a ha).taken b hlater hmid hnil).of_suffix hp.suffix).mono (List.subset_append_right _ _)

/-- A piece of an expression after another is one. -/
theorem Phrase.bind {p : Parser α} {f : α → Parser β} (hp : p.Phrase) (hf : ∀ a, (f a).Phrase) :
    (p >>= f).Phrase :=
  fun ts => (hp ts).bind fun a _ => hf a _

/-- A piece of an expression may be changed afterwards. -/
theorem Phrase.map {p : Parser α} (hp : p.Phrase) (f : α → β) : (f <$> p).Phrase :=
  hp.bind fun _ => phrase_pure _

/-- What is read may be changed afterwards. -/
theorem Part.map {p : Parser α} (hp : p.Part) (f : α → β) : (f <$> p).Part :=
  hp.bind fun _ => (phrase_pure _).part

/-- What needs a token at first needs one. -/
theorem NeedsToken.bind {p : Parser α} (hp : p.NeedsToken) (f : α → Parser β) :
    (p >>= f).NeedsToken := by
  intro b hb
  obtain ⟨a, ha, -⟩ := ok_of_bind hb
  exact hp a ha

/-- What needs a token in the end needs one, as nothing is left for it where there is none. -/
theorem NeedsToken.of_bind (p : Parser α) {f : α → Parser β} (hf : ∀ a, (f a).NeedsToken) :
    (p >>= f).NeedsToken := by
  intro b hb
  obtain ⟨a, -, hlater⟩ := ok_of_bind hb
  have hrest := List.length_eq_zero_iff.1 (Nat.le_zero.1 (p.shrinks []))
  rw [hrest] at hlater
  exact hf a b hlater

/-- What is read up to a token that must come is a phrase if that is one. -/
theorem Part.phrase_bind {p : Parser α} {f : α → Parser β} (hp : p.Part) (hf : ∀ a, (f a).Phrase)
    (hneeds : ∀ a, (f a).NeedsToken) : (p >>= f).Phrase := by
  intro ts
  refine ⟨(hp ts).bind fun a _ => (hf a _).toPartAt, fun b hb hne hnil => ?_⟩
  obtain ⟨a, ha, hlater⟩ := ok_of_bind hb
  rw [run_bind_ok ha] at hnil ⊢
  -- The token that must come is left, so `taken` is not asked of the first parser.
  have hmid : (p.run ts).rest ≠ [] := by
    intro hmid
    rw [hmid] at hlater
    exact hneeds a b hlater
  exact (((hf a _).taken b hlater hmid hnil).of_suffix (hp ts).suffix).mono
    (List.subset_append_right _ _)

/-- What is complete after something complete is complete. -/
theorem Sentence.bind {p : Parser α} {f : α → Parser β} (hp : p.Sentence) (hf : ∀ a, (f a).Sentence) :
    (p >>= f).Sentence := by
  refine ⟨hp.part.bind fun a => (hf a).part, fun {ts more b} hb helse => ?_⟩
  obtain ⟨a, ha, hlater⟩ := ok_of_bind hb
  refine (hp.settled ha helse).bind fun a' ha' => ?_
  rw [ha] at ha'
  cases ha'
  exact (hf a).settled hlater helse

/-- What takes no token is complete. -/
theorem sentence_pure (a : α) : (pure a : Parser α).Sentence :=
  ⟨(phrase_pure a).part, fun _ _ => rfl⟩

/-- What is complete may be changed afterwards. -/
theorem Sentence.map {p : Parser α} (hp : p.Sentence) (f : α → β) : (f <$> p).Sentence :=
  hp.bind fun _ => sentence_pure _

/-- What is read up to a token that must come is a sentence if that is one. -/
theorem Part.sentence_bind {p : Parser α} {f : α → Parser β} (hp : p.Part) (hf : ∀ a, (f a).Sentence)
    (hneeds : ∀ a, (f a).NeedsToken) : (p >>= f).Sentence := by
  refine ⟨hp.bind fun a => (hf a).part, fun {ts more b} hb helse => ?_⟩
  obtain ⟨a, ha, hlater⟩ := ok_of_bind hb
  have hmid : (p.run ts).rest ≠ [] := by
    intro hmid
    rw [hmid] at hlater
    exact hneeds a b hlater
  refine ((hp ts).append hmid more).bind fun a' ha' => ?_
  rw [ha] at ha'
  cases ha'
  exact (hf a).settled hlater helse

/-! ## Tokens -/

/-- A parser that does the same as another where a certain token is next. -/
theorem PartAt.congr {p q : Parser α} {t : Token} {ts : List Token}
    (hrun : ∀ us, p.run (t :: us) = q.run (t :: us)) (hq : q.PartAt (t :: ts)) : p.PartAt (t :: ts) := by
  refine ⟨?_, fun hne more => ?_, ?_⟩
  · rw [hrun]
    exact hq.suffix
  · rw [hrun] at hne
    unfold Ignores
    rw [List.cons_append, hrun, hrun]
    exact hq.append hne more
  · rw [hrun]
    exact hq.breaks

/-- Parsers that make the same of some tokens look as far as each other. -/
theorem PhraseAt.congr {p q : Parser α} {t : Token} {ts : List Token}
    (hrun : ∀ us, p.run (t :: us) = q.run (t :: us)) (hq : q.PhraseAt (t :: ts)) :
    p.PhraseAt (t :: ts) := by
  refine ⟨hq.toPartAt.congr hrun, ?_⟩
  rw [hrun]
  exact hq.taken

/-- A parser that takes a certain token and goes on like another. -/
theorem PartAt.of_token {p q : Parser α} {t : Token} {ts : List Token}
    (hrun : ∀ us, p.run (t :: us) = q.run us) (hq : q.PartAt ts) : p.PartAt (t :: ts) := by
  refine ⟨?_, fun hne more => ?_, ?_⟩
  · rw [hrun]
    exact hq.suffix.trans (List.suffix_cons t ts)
  · rw [hrun] at hne
    unfold Ignores
    rw [List.cons_append, hrun, hrun]
    exact hq.append hne more
  · rw [hrun]
    exact fun hbroken hnil => (hq.breaks hbroken hnil).of_suffix (List.suffix_cons t ts)

/-- A parser may take one token more before it, if that is no semicolon. -/
theorem PhraseAt.of_token {p q : Parser α} {t : Token} {ts : List Token}
    (hrun : ∀ us, p.run (t :: us) = q.run us) (hq : q.PhraseAt ts)
    (ht : t.lexeme ≠ .symbol .semicolon) : p.PhraseAt (t :: ts) := by
  refine ⟨hq.toPartAt.of_token hrun, ?_⟩
  rw [hrun]
  intro a ha _ hnil
  by_cases hts : ts = []
  · subst hts
    exact .inr ⟨t, rfl, ht⟩
  · exact (hq.taken a ha hts hnil).of_suffix (List.suffix_cons t ts)

/-- Nothing is left at the end of the tokens. -/
theorem phraseAt_nil {p : Parser α}
    (hbreaks : (p.run []).outcome = .error .broken → ∃ e ∈ (p.run []).errors, e.place = none) :
    p.PhraseAt [] := by
  have hrest := List.length_eq_zero_iff.1 (Nat.le_zero.1 (p.shrinks []))
  refine ⟨⟨?_, fun hne => absurd hrest hne, fun hbroken _ => .inl (hbreaks hbroken)⟩,
    fun _ _ hne => absurd rfl hne⟩
  simp only [hrest, List.suffix_refl]

/-- A choice is the chosen parser on the tokens after the one by which it is chosen. -/
theorem run_select_some {choose : Token → Option (Parser α)} {otherwise p : Parser α} {t : Token}
    (h : choose t = some p) (us : List Token) : (select choose otherwise).run (t :: us) = p.run us := by
  simp only [select, h]

/-- A choice is the parser that is taken otherwise if nothing is chosen. -/
theorem run_select_none {choose : Token → Option (Parser α)} {otherwise : Parser α} {t : Token}
    (h : choose t = none) (us : List Token) :
    (select choose otherwise).run (t :: us) = otherwise.run (t :: us) := by
  simp only [select, h]

/-- A choice looks no further than to the next token if none of the chosen parsers does. -/
theorem Part.select {choose : Token → Option (Parser α)} {otherwise : Parser α}
    (hc : ∀ t p, choose t = some p → p.Part) (ho : otherwise.Part) :
    (Parser.select choose otherwise).Part := by
  intro ts
  cases ts with
  | nil => exact ⟨(ho []).suffix, fun hne => absurd (List.suffix_nil.1 (ho []).suffix) hne, (ho []).breaks⟩
  | cons t ts =>
    cases h : choose t with
    | none => exact (ho (t :: ts)).congr (run_select_none h)
    | some p => exact (hc t p h ts).of_token (run_select_some h)

/-- A selection is a phrase if it does not choose by a semicolon. -/
theorem Phrase.select {choose : Token → Option (Parser α)} {otherwise : Parser α}
    (hc : ∀ t p, choose t = some p → p.Phrase ∧ t.lexeme ≠ .symbol .semicolon) (ho : otherwise.Phrase) :
    (Parser.select choose otherwise).Phrase := by
  intro ts
  cases ts with
  | nil => exact ⟨Part.select (fun t p h => (hc t p h).1.part) ho.part [], fun _ _ hne => absurd rfl hne⟩
  | cons t ts =>
    cases h : choose t with
    | none => exact (ho (t :: ts)).congr (run_select_none h)
    | some p => exact ((hc t p h).1 ts).of_token (run_select_some h) (hc t p h).2

/-- A choice is complete if whatever is chosen is, and if what is taken otherwise needs a token. -/
theorem Sentence.select {choose : Token → Option (Parser α)} {otherwise : Parser α}
    (hc : ∀ t p, choose t = some p → p.Sentence) (ho : otherwise.Sentence) (hneeds : otherwise.NeedsToken) :
    (Parser.select choose otherwise).Sentence := by
  refine ⟨Part.select (fun t p h => (hc t p h).part) ho.part, fun {ts more a} ha helse => ?_⟩
  -- Without a token there is no result to speak of.
  cases ts with
  | nil => exact absurd ha (hneeds a)
  | cons t ts =>
    unfold Ignores
    cases h : choose t with
    | none =>
      simp only [List.cons_append, Parser.select, h] at ha ⊢
      exact ho.settled ha helse
    | some p =>
      simp only [List.cons_append, Parser.select, h] at ha ⊢
      exact (hc t p h).settled ha helse

/-- A token that is expected is needed. -/
theorem needsToken_expect (accept : Token → Option α) (fault : SyntaxFault) :
    (expect accept fault).NeedsToken :=
  fun _ h => nomatch h

/-- A token that is expected is complete by itself. -/
theorem sentence_expect (accept : Token → Option α) (fault : SyntaxFault) :
    (expect accept fault).Sentence := by
  refine Sentence.select (fun t p h => ?_) ⟨(phrase_fail fault).part, fun h => nomatch h⟩ nofun
  obtain ⟨a, -, rfl⟩ := Option.map_eq_some_iff.1 h
  exact sentence_pure a

/-- A token that is expected is a piece of an expression unless it is a semicolon. -/
theorem phrase_expect {accept : Token → Option α} (fault : SyntaxFault)
    (h : ∀ t a, accept t = some a → t.lexeme ≠ .symbol .semicolon) : (expect accept fault).Phrase := by
  refine Phrase.select (fun t p hp => ?_) (phrase_fail fault)
  obtain ⟨a, ha, rfl⟩ := Option.map_eq_some_iff.1 hp
  exact ⟨phrase_pure a, h t a ha⟩

/-- An expected symbol is a piece of an expression unless it is a semicolon. -/
theorem phrase_symbol {s : Symbol} (fault : SyntaxFault) (hs : s ≠ .semicolon) :
    (symbol s fault).Phrase := by
  refine phrase_expect fault fun t line h hsemicolon => ?_
  split at h
  · next ht =>
    rw [ht] at hsemicolon
    injection hsemicolon with hsemicolon
    exact hs hsemicolon
  · cases h

/-- An expected name is a piece of an expression. -/
theorem phrase_name (fault : SyntaxFault) : (name fault).Phrase := by
  refine phrase_expect fault fun t n h hsemicolon => ?_
  rw [hsemicolon] at h
  cases h

/-- What may be left out before a token is a piece of an expression if it is one when it is there. -/
theorem Phrase.unlessNext {p : Parser α} (hp : p.Phrase) (lexeme : Lexeme) (nothing : α) :
    (unlessNext lexeme nothing p).Phrase := by
  refine (phrase_nextIs lexeme).bind fun b => ?_
  split
  · exact phrase_pure nothing
  · exact hp

/-! ## Loops -/

/-- Going on by tokens other than semicolons makes a piece of an expression. -/
theorem phrase_extend {next : β → Token → Option (Parser β)}
    (h : ∀ b t p, next b t = some p → p.Phrase ∧ t.lexeme ≠ .symbol .semicolon) (b : β) :
    (extend next b).Phrase := by
  intro ts
  induction hlength : ts.length using Nat.strongRecOn generalizing b ts with
  | _ n ih =>
    cases ts with
    | nil =>
      refine phraseAt_nil fun hbroken => ?_
      rw [run_extend_nil] at hbroken
      cases hbroken
    | cons t ts =>
      cases hnext : next b t with
      | none =>
        exact (phrase_pure b (t :: ts)).congr fun us => run_extend_none hnext us
      | some p =>
        obtain ⟨hp, ht⟩ := h b t p hnext
        -- The round and the rounds after it are one sequence, and these have fewer tokens.
        refine PhraseAt.of_token (run_extend_some hnext) ((hp ts).bind fun b' _ => ih _ ?_ b' _ rfl) ht
        have := p.shrinks ts
        rw [← hlength, List.length_cons]
        omega

/-- What is repeated looks no further than to the next token if one item does not. -/
theorem part_repeatUntil {stop : Token → Bool} {item : Parser α} (progress : item.Progress)
    (h : item.Part) : (repeatUntil stop item progress).Part := by
  intro ts
  induction hlength : ts.length using Nat.strongRecOn generalizing ts with
  | _ n ih =>
    cases ts with
    | nil =>
      refine (phraseAt_nil fun hbroken => ?_).toPartAt
      rw [run_repeatUntil_nil] at hbroken
      cases hbroken
    | cons t ts =>
      cases hstop : stop t with
      | true =>
        exact ((phrase_pure []).part (t :: ts)).congr fun us => run_repeatUntil_of_stop hstop us
      | false =>
        refine PartAt.congr (run_repeatUntil_of_not_stop hstop) ((h (t :: ts)).bind fun a ha => ?_)
        -- An item takes at least one token, so the induction applies to the items after it.
        have hlater := progress (t :: ts) a (List.cons_ne_nil t ts) ha
        exact (ih _ (hlength ▸ hlater) _ rfl).bind fun _ _ => (phrase_pure _).part _

/-- What is repeated never breaks off if its items never do. -/
theorem repeatUntil_ne_broken {stop : Token → Bool} {item : Parser α} (progress : item.Progress)
    (h : ∀ ts, (item.run ts).outcome ≠ .error .broken) (ts : List Token) :
    ((repeatUntil stop item progress).run ts).outcome ≠ .error .broken := by
  show (repeatRun stop item progress ts).outcome ≠ _
  fun_induction repeatRun stop item progress ts with
  | case1 | case2 =>
    intro hbroken
    cases hbroken
  | case3 t ts hstop a mid errors hr later ih => exact fun hbroken => ih (map_eq_error_iff.1 hbroken)
  | case4 t ts hstop halt mid errors hr =>
    intro hbroken
    cases hbroken
    exact h (t :: ts) (by rw [hr])

/-- Operands with operators between them are a piece of an expression. -/
theorem Phrase.chain {operand : Parser α} (h : operand.Phrase) {operator : Token → Option β}
    (join : β → Token → α → α → α)
    (ho : ∀ t op, operator t = some op → t.lexeme ≠ .symbol .semicolon) :
    (chain operator join operand).Phrase := by
  refine h.bind fun first => phrase_extend (fun left t p hp => ?_) first
  obtain ⟨op, hop, rfl⟩ := Option.map_eq_some_iff.1 hp
  exact ⟨h.map _, ho t op hop⟩

/-- Items with commas between them are a piece of an expression. -/
theorem Phrase.commaSeparated {item : Parser α} (h : item.Phrase) (tooMany : SyntaxFault) :
    (commaSeparated item tooMany).Phrase := by
  refine h.bind fun first => (phrase_extend (fun items t p hp => ?_) _).bind fun _ => phrase_pure _
  unfold afterComma at hp
  split at hp
  · next ht =>
    cases hp
    refine ⟨(phrase_noteIf _ _).bind fun _ => h.bind fun _ => phrase_pure _, ?_⟩
    rw [ht]
    nofun
  · cases hp

end Parser

namespace Grammar

open Treewalk.Parser

/-! ## Recovery -/

/-- What is left after skipping are the last of the tokens. -/
theorem skipAfter_suffix (last : Token) (ts : List Token) : skipAfter last ts <:+ ts := by
  fun_induction skipAfter last ts with
  | case1 => exact List.suffix_refl _
  | case2 => exact List.suffix_refl _
  | case3 _ t ts _ ih => exact ih.trans (List.suffix_cons t ts)

/-- What is left to go on with are the last of the tokens. -/
theorem resume_suffix (ts : List Token) : resume ts <:+ ts := by
  cases ts with
  | nil => exact List.suffix_refl _
  | cons t ts => exact (skipAfter_suffix t ts).trans (List.suffix_cons t ts)

/-- Where skipping ends before the end of the tokens it ends there whatever comes after them. -/
theorem skipAfter_append {last : Token} {ts : List Token} (h : skipAfter last ts ≠ [])
    (more : List Token) : skipAfter last (ts ++ more) = skipAfter last ts ++ more := by
  fun_induction skipAfter last ts with
  | case1 => exact absurd rfl h
  | case2 last t ts hstop => rw [List.cons_append, skipAfter, if_pos hstop]
  | case3 last t ts hstop ih => rw [List.cons_append, skipAfter, if_neg hstop, ih h]

/-- If there is something to go on with, more tokens after it do not change what it is. -/
theorem resume_append {ts : List Token} (h : resume ts ≠ []) (more : List Token) :
    resume (ts ++ more) = resume ts ++ more := by
  cases ts with
  | nil => exact absurd rfl h
  | cons t ts => exact skipAfter_append h more

/-- A parser that does not break off is not recovered from. -/
theorem recovered_of_ne_broken {α : Type} {p : Parser α} {ts : List Token}
    (h : (p.run ts).outcome ≠ .error .broken) :
    (recovered p).run ts = ⟨(p.run ts).outcome.map some, (p.run ts).rest, (p.run ts).errors⟩ := by
  rcases hr : p.run ts with ⟨(_ | _) | a, rest, errors⟩
  · rw [hr] at h
    exact absurd rfl h
  · simp only [recovered, hr]
    rfl
  · simp only [recovered, hr]
    rfl

/-- A parser that breaks off is recovered from. -/
theorem recovered_of_broken {α : Type} {p : Parser α} {ts : List Token}
    (h : (p.run ts).outcome = .error .broken) :
    (recovered p).run ts = ⟨.ok none, resume (p.run ts).rest, (p.run ts).errors⟩ := by
  rcases hr : p.run ts with ⟨outcome, rest, errors⟩
  rw [hr] at h
  cases h
  simp only [recovered, hr]

/-- A parser that is recovered from never breaks off. -/
theorem recovered_ne_broken {α : Type} (p : Parser α) (ts : List Token) :
    ((recovered p).run ts).outcome ≠ .error .broken := by
  rcases hr : p.run ts with ⟨(_ | _) | a, rest, errors⟩ <;> simp [recovered, hr]

/-- What a recovered parser makes of tokens is not changed by more tokens if nothing changes for the
parser, and if it stops where there is a token to go on at. -/
theorem ignores_recovered {α : Type} {p : Parser α} {ts more : List Token} (hp : p.Ignores ts more)
    (hresume : (p.run ts).outcome = .error .broken →
      resume ((p.run ts).rest ++ more) = resume (p.run ts).rest ++ more) :
    (recovered p).Ignores ts more := by
  have hmore : p.run (ts ++ more) = (p.run ts).before more := hp
  unfold Ignores
  by_cases h : (p.run ts).outcome = .error .broken
  · have h' : (p.run (ts ++ more)).outcome = .error .broken := by rw [hmore]; exact h
    rw [recovered_of_broken h', recovered_of_broken h, hmore]
    simp only [Parsed.before, hresume h]
  · have h' : (p.run (ts ++ more)).outcome ≠ .error .broken := by rw [hmore]; exact h
    rw [recovered_of_ne_broken h', recovered_of_ne_broken h, hmore]
    rfl

/-- A parser that is recovered from looks no further than to the next token if the parser inside does not.
-/
theorem part_recovered {α : Type} {p : Parser α} (hp : p.Part) : (recovered p).Part := by
  intro ts
  refine ⟨?_, fun hne more => ?_, fun hbroken => absurd hbroken (recovered_ne_broken p ts)⟩
  · by_cases h : (p.run ts).outcome = .error .broken
    · rw [recovered_of_broken h]
      exact (resume_suffix _).trans (hp ts).suffix
    · rw [recovered_of_ne_broken h]
      exact (hp ts).suffix
  · by_cases h : (p.run ts).outcome = .error .broken
    · rw [recovered_of_broken h] at hne
      -- There is no token to go on at where the parser left none.
      have hmid : (p.run ts).rest ≠ [] := by
        intro hnil
        rw [hnil] at hne
        exact hne rfl
      exact ignores_recovered ((hp ts).append hmid more) fun _ => resume_append hne more
    · rw [recovered_of_ne_broken h] at hne
      exact ignores_recovered ((hp ts).append hne more) fun hbroken => absurd hbroken h

end Grammar

end Treewalk
