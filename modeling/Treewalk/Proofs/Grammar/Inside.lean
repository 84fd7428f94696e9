import Treewalk.Proofs.Grammar.Cursor
import Treewalk.Proofs.Grammar.Recovery

/-!
# Reading ends, inside the text

A cursor comes to what the parsers make of the tokens from its place on (`Cursor.Performs`), for each way
of putting parsers together, and so for all of them (`Parser.Plan.performs`). What its log says meanwhile
is a `Span`: no place is before an earlier one or past the end mark, all indices are those of tokens or of
the end mark, and no round of a loop over declarations or methods leaves the cursor where it was, unless
an error was raised in it. An error that was raised is reported just before. The log of a declaration tells
of all its errors that they were caught, if they were raised, so there is none left at the end of a
program (`Cursor.parse_inside`).

A declaration that breaks off at its first token is no exception, as the cursor moves past one token after
every error that is caught, except at the end mark. There the loops are over.
-/

namespace Treewalk

variable {α β : Type} {tokens : List Token}

/-- Up to its end, a list of tokens with a mark behind it has the tokens and then the mark. -/
theorem getElem?_marked {i : Nat} (h : i ≤ tokens.length) : (marked tokens)[i]? = some tokens[i]? := by
  unfold marked
  rcases Nat.lt_or_eq_of_le h with hlt | rfl
  · rw [List.getElem?_append_left (by simpa using hlt), List.getElem?_map,
      List.getElem?_eq_getElem hlt]
    rfl
  · simp

/-- The tokens from a place on begin with the one that stands there. -/
theorem drop_of_next {i : Nat} {t : Token} (h : tokens[i]? = some t) :
    tokens.drop i = t :: tokens.drop (i + 1) := by
  obtain ⟨hi, rfl⟩ := List.getElem?_eq_some_iff.1 h
  exact List.drop_eq_getElem_cons hi

/-- There are no tokens from the end on. -/
theorem drop_of_end {i : Nat} (h : tokens[i]? = none) : tokens.drop i = [] :=
  List.drop_eq_nil_of_le (List.getElem?_eq_none_iff.1 h)

/-- Whether a named function follows can be told from the first two tokens. -/
theorem Grammar.namedFunctionFollows_cons (t : Token) (ts : List Token) :
    namedFunctionFollows (t :: ts) = (decide (t.lexeme = .keyword .fn) && ts.head?.any isIdentifier) := by
  obtain ⟨lexeme, line⟩ := t
  -- Only behind `fn` does a second token count.
  by_cases hfn : lexeme = .keyword .fn
  · subst hfn
    rcases ts with - | ⟨⟨lexeme', line'⟩, ts⟩
    · rfl
    · cases lexeme' <;> rfl
  · rw [decide_eq_false hfn, Bool.false_and]
    unfold namedFunctionFollows
    split
    · next h =>
      cases h
      exact absurd rfl hfn
    · rfl

namespace Cursor

/-! ## Logs -/

/-- Events that tell of an error. -/
def Event.isFault : Event → Bool
  | .reported _ | .raised _ | .caught _ => true
  | .looked _ | .round _ _ => false

/-- What a log tells of errors. -/
def faults (log : List Entry) : List Event := (log.map Entry.event).filter Event.isFault

/-- All that a log tells of an error in the end: it is reported, and if it breaks reading off then it is
raised and caught as well. -/
def told (e : SyntaxError) : List Event :=
  if e.fault.isLimit then [.reported e] else [.reported e, .raised e, .caught e]

/-- An index that was looked at is that of a token or of the end mark, and a round that was not left by an
error moved the cursor. -/
def Entry.Inside (n : Nat) (entry : Entry) : Prop :=
  match entry.event with
  | .looked index => 0 ≤ index ∧ index ≤ n
  | .round start broken => start < entry.place ∨ broken = true
  | .reported _ | .raised _ | .caught _ => True

/-- A log of a way from one place to another in a text of `n` tokens: the cursor never moved back, and
never past the end mark. -/
structure Span (n start stop : Nat) (log : List Entry) : Prop where
  le : start ≤ stop
  le_end : stop ≤ n
  between : ∀ entry ∈ log, start ≤ entry.place ∧ entry.place ≤ stop
  sorted : log.Pairwise fun a b => a.place ≤ b.place
  inside : ∀ entry ∈ log, entry.Inside n

/-- A way and its continuation are one way. -/
theorem Span.append {n a b c : Nat} {log log' : List Entry} (h : Span n a b log)
    (h' : Span n b c log') : Span n a c (log ++ log') where
  le := Nat.le_trans h.le h'.le
  le_end := h'.le_end
  between entry hentry := by
    rcases List.mem_append.1 hentry with hentry | hentry
    · exact ⟨(h.between entry hentry).1, Nat.le_trans (h.between entry hentry).2 h'.le⟩
    · exact ⟨Nat.le_trans h.le (h'.between entry hentry).1, (h'.between entry hentry).2⟩
  sorted := List.pairwise_append.2 ⟨h.sorted, h'.sorted, fun x hx y hy =>
    Nat.le_trans (h.between x hx).2 (h'.between y hy).1⟩
  inside entry hentry := (List.mem_append.1 hentry).elim (h.inside entry) (h'.inside entry)

/-- One cursor comes after another, and what was written down meanwhile tells of errors as given. -/
def Leads (n : Nat) (s s' : Cursor) (events : List Event) : Prop :=
  ∃ log, s'.log = s.log ++ log ∧ Span n s.place s'.place log ∧ faults log = events

section

variable {n : Nat} {s s' s'' : Cursor} {events events' : List Event}

/-- A way never passes the end mark. -/
theorem Leads.le_end (h : Leads n s s' events) : s'.place ≤ n := by
  obtain ⟨log, -, hspan, -⟩ := h
  exact hspan.le_end

/-- A way never goes back. -/
theorem Leads.place_le (h : Leads n s s' events) : s.place ≤ s'.place := by
  obtain ⟨log, -, hspan, -⟩ := h
  exact hspan.le

/-- To stay is a way on which nothing is written down. -/
theorem leads_refl (h : s.place ≤ n) : Leads n s s [] :=
  ⟨[], (List.append_nil _).symm, ⟨Nat.le_refl _, h, List.forall_mem_nil _, .nil,
    List.forall_mem_nil _⟩, rfl⟩

/-- What is written down on two ways tells of the errors of the first and then of those of the second. -/
theorem Leads.trans (h : Leads n s s' events) (h' : Leads n s' s'' events') :
    Leads n s s'' (events ++ events') := by
  obtain ⟨log, hlog, hspan, rfl⟩ := h
  obtain ⟨log', hlog', hspan', rfl⟩ := h'
  refine ⟨log ++ log', ?_, hspan.append hspan', ?_⟩
  · rw [hlog', hlog, List.append_assoc]
  · rw [faults, List.map_append, List.filter_append]
    rfl

/-- To write something down is a way on which the cursor stays. -/
theorem leads_noted (h : s.place ≤ n) (event : Event) (hevent : Entry.Inside n ⟨s.place, event⟩) :
    Leads n s (s.noted event) ([event].filter Event.isFault) := by
  refine ⟨[⟨s.place, event⟩], rfl, ⟨Nat.le_refl _, h, ?_, List.pairwise_singleton _ _, ?_⟩, rfl⟩
  · exact List.forall_mem_singleton.2 ⟨Nat.le_refl _, Nat.le_refl _⟩
  · exact List.forall_mem_singleton.2 hevent

/-- The cursor only looked. -/
structure Looks (n : Nat) (s s' : Cursor) : Prop where
  place : s'.place = s.place
  leads : Leads n s s' []

/-- To move on by one token is a way on which nothing is written down. -/
theorem leads_moved (h : s.place < n) : Leads n s s.moved [] :=
  ⟨[], (List.append_nil _).symm, ⟨Nat.le_succ _, h, List.forall_mem_nil _, .nil,
    List.forall_mem_nil _⟩, rfl⟩

/-- A cursor that does nothing only looked. -/
theorem looks_refl (h : s.place ≤ n) : Looks n s s := ⟨rfl, leads_refl h⟩

/-- To look twice is only to look. -/
theorem Looks.trans (h : Looks n s s') (h' : Looks n s' s'') : Looks n s s'' :=
  ⟨h'.place.trans h.place, h.leads.trans h'.leads⟩

end

/-! ## Steps -/

/-- A step that comes to its end is followed by what comes next. -/
theorem bind_ok {x : Run α} {f : α → Run β} {a : α} {s s' : Cursor} (h : x s = .ok a s') :
    (x >>= f) s = f a s' := by
  show EStateM.bind x f s = _
  rw [EStateM.bind, h]

/-- A step that stops is followed by nothing. -/
theorem bind_error {x : Run α} {f : α → Run β} {stop : Stop} {s s' : Cursor}
    (h : x s = .error stop s') : (x >>= f) s = .error stop s' := by
  show EStateM.bind x f s = _
  rw [EStateM.bind, h]

section

variable {s : Cursor}

/-- What comes next may depend on the cursor. -/
theorem bind_get (f : Cursor → Run β) : (get >>= f) s = f s s := rfl

/-- What comes next begins with the cursor that wrote something down. -/
theorem bind_record (event : Event) (f : Unit → Run β) :
    (record event >>= f) s = f () (s.noted event) := rfl

/-- The look at an index inside gives the token there, or tells that it is the end mark. -/
theorem look_looks (h : s.place ≤ tokens.length) {i : Nat} (hi : i ≤ tokens.length) :
    ∃ s', look (marked tokens) i s = .ok tokens[i]? s' ∧ Looks tokens.length s s' := by
  have hindex : ¬(i : Int) < 0 := by omega
  unfold look
  rw [bind_record, if_neg hindex, Int.toNat_natCast, getElem?_marked hi]
  exact ⟨_, rfl, rfl, leads_noted h (.looked i) ⟨Int.natCast_nonneg i, Int.ofNat_le.2 hi⟩⟩

/-- The look at the next token. -/
theorem peek_looks (h : s.place ≤ tokens.length) :
    ∃ s', peek (marked tokens) s = .ok tokens[s.place]? s' ∧ Looks tokens.length s s' :=
  look_looks h h

/-- The look at the token that was taken last. -/
theorem previous_looks {i : Nat} (hplace : s.place = i + 1) (hi : i < tokens.length) :
    ∃ s', previous (marked tokens) s = .ok tokens[i]? s' ∧ Looks tokens.length s s' := by
  have hindex : (s.place : Int) - 1 = i := by omega
  unfold previous
  rw [bind_get, hindex]
  exact look_looks (by omega) (Nat.le_of_lt hi)

/-- The test for the end of the tokens. -/
theorem isAtEnd_looks (h : s.place ≤ tokens.length) :
    ∃ s', isAtEnd (marked tokens) s = .ok tokens[s.place]?.isNone s' ∧ Looks tokens.length s s' := by
  obtain ⟨s', hpeek, hlooks⟩ := peek_looks h
  exact ⟨s', bind_ok hpeek, hlooks⟩

/-- The look at the next token, unless it is the end mark. -/
theorem next?_looks (h : s.place ≤ tokens.length) :
    ∃ s', next? (marked tokens) s = .ok tokens[s.place]? s' ∧ Looks tokens.length s s' := by
  obtain ⟨s', hend, hlooks⟩ := isAtEnd_looks h
  unfold next?
  rw [bind_ok hend]
  cases hnext : tokens[s.place]? with
  | none => exact ⟨s', rfl, hlooks⟩
  | some t =>
    obtain ⟨s'', hpeek, hlooks'⟩ := peek_looks hlooks.leads.le_end
    rw [hlooks.place, hnext] at hpeek
    exact ⟨s'', hpeek, hlooks.trans hlooks'⟩

/-- The test of the next token. -/
theorem check_looks (h : s.place ≤ tokens.length) (accept : Token → Bool) :
    ∃ s', check (marked tokens) accept s = .ok (tokens[s.place]?.any accept) s' ∧
      Looks tokens.length s s' := by
  obtain ⟨s', hnext, hlooks⟩ := next?_looks h
  exact ⟨s', bind_ok hnext, hlooks⟩

/-- The test of the token after the next. -/
theorem checkNext_looks (h : s.place ≤ tokens.length) (accept : Token → Bool) :
    ∃ s', checkNext (marked tokens) accept s = .ok (tokens[s.place + 1]?.any accept) s' ∧
      Looks tokens.length s s' := by
  have hlength : (marked tokens).length = tokens.length + 1 := by simp [marked]
  unfold checkNext
  rw [bind_get]
  by_cases hlast : s.place + 1 ≤ tokens.length
  · obtain ⟨s', hlook, hlooks⟩ := look_looks h hlast
    rw [if_neg (by omega)]
    exact ⟨s', bind_ok hlook, hlooks⟩
  · rw [if_pos (by omega), List.getElem?_eq_none (by omega)]
    exact ⟨s, rfl, looks_refl h⟩

/-- The test for a named function looks at two tokens at most. -/
theorem functionFollows_looks (h : s.place ≤ tokens.length) :
    ∃ s', functionFollows (marked tokens) s =
        .ok (Grammar.namedFunctionFollows (tokens.drop s.place)) s' ∧ Looks tokens.length s s' := by
  obtain ⟨s₁, hcheck, hlooks₁⟩ := check_looks h fun t => decide (t.lexeme = .keyword .fn)
  unfold functionFollows
  rw [bind_ok hcheck]
  cases hnext : tokens[s.place]? with
  | none =>
    rw [drop_of_end hnext]
    exact ⟨s₁, rfl, hlooks₁⟩
  | some t =>
    rw [drop_of_next hnext, Grammar.namedFunctionFollows_cons, Option.any_some, List.head?_drop]
    -- The second token is looked at only behind `fn`, as on the other side.
    by_cases hfn : t.lexeme = .keyword .fn
    · obtain ⟨s₂, hcheckNext, hlooks₂⟩ := checkNext_looks hlooks₁.leads.le_end Grammar.isIdentifier
      rw [decide_eq_true hfn, if_pos rfl, Bool.true_and, ← hlooks₁.place]
      exact ⟨s₂, hcheckNext, hlooks₁.trans hlooks₂⟩
    · rw [decide_eq_false hfn, if_neg Bool.false_ne_true, Bool.false_and]
      exact ⟨s₁, rfl, hlooks₁⟩

/-- The cursor moves past a token. -/
theorem advance_moves (h : s.place < tokens.length) :
    ∃ t s', advance (marked tokens) s = .ok t s' ∧ s'.place = s.place + 1 ∧
      Leads tokens.length s s' [] := by
  obtain ⟨s', hend, hlooks⟩ := isAtEnd_looks (Nat.le_of_lt h)
  have hmoved : s'.moved.place = s.place + 1 := congrArg (· + 1) hlooks.place
  obtain ⟨s'', hprevious, hlooks'⟩ := previous_looks hmoved h
  unfold advance
  rw [bind_ok hend, List.getElem?_eq_getElem h]
  exact ⟨_, s'', hprevious, hlooks'.place.trans hmoved,
    (hlooks.leads.trans (leads_moved (by rwa [hlooks.place]))).trans hlooks'.leads⟩

/-- The cursor stays at the end. -/
theorem advance_stays (h : s.place = tokens.length) (hne : tokens ≠ []) :
    ∃ t s', advance (marked tokens) s = .ok t s' ∧ Looks tokens.length s s' := by
  obtain ⟨i, hi⟩ := Nat.exists_eq_add_one.2 (List.length_pos_iff.2 hne)
  obtain ⟨s', hend, hlooks⟩ := isAtEnd_looks (Nat.le_of_eq h)
  have hlt : i < tokens.length := by omega
  obtain ⟨s'', hprevious, hlooks'⟩ := previous_looks (hlooks.place.trans (h.trans hi)) hlt
  unfold advance
  rw [bind_ok hend, List.getElem?_eq_none (Nat.le_of_eq h.symm)]
  exact ⟨_, s'', hprevious, hlooks.trans hlooks'⟩

end

/-- At the end the cursor stays. -/
theorem skip_stays {rounds : Nat} {s : Cursor} (h : s.place = tokens.length) (hrounds : 0 < rounds) :
    ∃ s', skip (marked tokens) rounds s = .ok () s' ∧ Looks tokens.length s s' := by
  obtain ⟨rounds, rfl⟩ := Nat.exists_eq_add_one.2 hrounds
  obtain ⟨s', hend, hlooks⟩ := isAtEnd_looks (Nat.le_of_eq h)
  unfold skip
  rw [bind_ok hend, List.getElem?_eq_none (Nat.le_of_eq h.symm)]
  exact ⟨s', rfl, hlooks⟩

/-- From behind a token the cursor moves on to where the next statement is likely to begin. -/
theorem skip_leads {rounds i : Nat} {s : Cursor} {last : Token} (hplace : s.place = i + 1)
    (hlast : tokens[i]? = some last) (hrounds : tokens.length - s.place < rounds) :
    ∃ s', skip (marked tokens) rounds s = .ok () s' ∧ Leads tokens.length s s' [] ∧
      tokens.drop s'.place = Grammar.skipAfter last (tokens.drop s.place) := by
  -- Each round takes one token, which is the last one in the next round.
  induction rounds generalizing s i last with
  | zero => omega
  | succ rounds ih =>
    have hi : i < tokens.length := (List.getElem?_eq_some_iff.1 hlast).1
    have hle : s.place ≤ tokens.length := by omega
    -- The loop makes three tests, and moves on if none of them ends it: the end of the tokens, a
    -- semicolon before, and a keyword after.
    obtain ⟨s₁, hend, hlooks₁⟩ := isAtEnd_looks hle
    unfold skip
    rw [bind_ok hend]
    cases hnext : tokens[s.place]? with
    | none =>
      refine ⟨s₁, rfl, hlooks₁.leads, ?_⟩
      rw [hlooks₁.place, drop_of_end hnext]
      rfl
    | some t =>
      obtain ⟨s₂, hprevious, hlooks₂⟩ := previous_looks (hlooks₁.place.trans hplace) hi
      replace hlooks₂ := hlooks₁.trans hlooks₂
      rw [drop_of_next hnext, Option.isNone_some, if_neg Bool.false_ne_true, bind_ok hprevious, hlast,
        Grammar.skipAfter]
      by_cases hsemicolon : last.lexeme = .symbol .semicolon
      · rw [Option.any_some, if_pos (decide_eq_true hsemicolon), if_pos (.inl hsemicolon)]
        exact ⟨s₂, rfl, hlooks₂.leads, by rw [hlooks₂.place, drop_of_next hnext]⟩
      obtain ⟨s₃, hpeek, hlooks₃⟩ := peek_looks hlooks₂.leads.le_end
      replace hlooks₃ := hlooks₂.trans hlooks₃
      rw [Option.any_some, if_neg (mt of_decide_eq_true hsemicolon), bind_ok hpeek, hlooks₂.place,
        hnext, Option.any_some]
      by_cases hstart : Grammar.startsStatement t = true
      · rw [if_pos hstart, if_pos (.inr hstart)]
        exact ⟨s₃, rfl, hlooks₃.leads, by rw [hlooks₃.place, drop_of_next hnext]⟩
      have hlt := (List.getElem?_eq_some_iff.1 hnext).1
      obtain ⟨u, s₄, hadvance, hplace₄, hmoved⟩ :=
        advance_moves (s := s₃) (by rwa [hlooks₃.place])
      rw [hlooks₃.place] at hplace₄
      obtain ⟨s₅, hskip, hleads, hdrop⟩ := ih hplace₄ hnext (by omega)
      rw [if_neg hstart, if_neg (not_or.2 ⟨hsemicolon, hstart⟩), bind_ok hadvance, ← hplace₄]
      exact ⟨s₅, hskip, hlooks₃.leads.trans (hmoved.trans hleads), hdrop⟩

/-- After an error the cursor moves on to where the model does. -/
theorem synchronize_leads {rounds : Nat} {s : Cursor} (hne : tokens ≠ [])
    (hrounds : tokens.length < rounds) (h : s.place ≤ tokens.length) :
    ∃ s', synchronize (marked tokens) rounds s = .ok () s' ∧ Leads tokens.length s s' [] ∧
      tokens.drop s'.place = Grammar.resume (tokens.drop s.place) := by
  unfold synchronize
  cases hnext : tokens[s.place]? with
  -- The token at which parsing broke is skipped, and then as many as `skipAfter` skips.
  | some t =>
    obtain ⟨u, s₁, hadvance, hplace₁, hmoved⟩ :=
      advance_moves (List.getElem?_eq_some_iff.1 hnext).1
    obtain ⟨s₂, hskip, hleads, hdrop⟩ :=
      skip_leads hplace₁ hnext (Nat.lt_of_le_of_lt (Nat.sub_le _ _) hrounds)
    rw [bind_ok hadvance, drop_of_next hnext, ← hplace₁]
    exact ⟨s₂, hskip, hmoved.trans hleads, hdrop⟩
  -- At the end there is nothing to skip.
  | none =>
    have hend : s.place = tokens.length := Nat.le_antisymm h (List.getElem?_eq_none_iff.1 hnext)
    obtain ⟨u, s₁, hadvance, hlooks₁⟩ := advance_stays hend hne
    obtain ⟨s₂, hskip, hlooks₂⟩ := skip_stays (hlooks₁.place.trans hend) (Nat.zero_lt_of_lt hrounds)
    replace hlooks₂ := hlooks₁.trans hlooks₂
    rw [bind_ok hadvance]
    refine ⟨s₂, hskip, hlooks₂.leads, ?_⟩
    rw [hlooks₂.place, drop_of_end hnext]
    rfl

/-! ## Following a parser -/

/-- A run comes to what a parser makes of the tokens. An error that was raised is the last of those that
the parser reports; of the others the log tells all. -/
inductive Follows (tokens : List Token) (s : Cursor) : EStateM.Result Stop Cursor α → Parsed α → Prop
  | ok {a : α} {s' : Cursor} {errors : List SyntaxError}
    (h : Leads tokens.length s s' (errors.flatMap told)) :
    Follows tokens s (.ok a s') ⟨.ok a, tokens.drop s'.place, errors⟩
  | raised {e : SyntaxError} {s' : Cursor} {errors : List SyntaxError} (he : e.fault.isLimit = false)
    (h : Leads tokens.length s s' (errors.flatMap told ++ [.reported e, .raised e])) :
    Follows tokens s (.error (.raised e) s') ⟨.error .broken, tokens.drop s'.place, errors ++ [e]⟩
  | tooDeep {s' : Cursor} {rest : List Token} {errors : List SyntaxError} :
    Follows tokens s (.error .tooDeep s') ⟨.error .tooDeep, rest, errors⟩

/-- Wherever it begins, a run comes to what a parser makes of the tokens from there on. -/
def Performs (tokens : List Token) (x : Run α) (p : Parser α) : Prop :=
  ∀ s : Cursor, s.place ≤ tokens.length → Follows tokens s (x s) (p.run (tokens.drop s.place))

/-- A run that leads to where another begins follows the same parser, with the errors on the way first. -/
theorem Follows.after {s s' : Cursor} {errors : List SyntaxError} {r : EStateM.Result Stop Cursor α}
    {parsed : Parsed α} (h : Leads tokens.length s s' (errors.flatMap told))
    (hr : Follows tokens s' r parsed) :
    Follows tokens s r ⟨parsed.outcome, parsed.rest, errors ++ parsed.errors⟩ := by
  cases hr with
  | ok h' =>
    refine .ok ?_
    rw [List.flatMap_append]
    exact h.trans h'
  | raised he h' =>
    rw [← List.append_assoc]
    refine .raised he ?_
    rw [List.flatMap_append, List.append_assoc]
    exact h.trans h'
  | tooDeep => exact .tooDeep

/-- Whatever only looks may come before. -/
theorem Follows.after_look {s s' : Cursor} {r : EStateM.Result Stop Cursor α} {parsed : Parsed α}
    (h : Leads tokens.length s s' []) (hr : Follows tokens s' r parsed) :
    Follows tokens s r parsed := by
  show Follows tokens s r ⟨parsed.outcome, parsed.rest, [] ++ parsed.errors⟩
  exact Follows.after h hr

/-- A run after another follows the parser after the other. -/
theorem Follows.bind {s : Cursor} {x : Run α} {f : α → Run β} {p : Parser α} {g : α → Parser β}
    {ts : List Token} (hx : Follows tokens s (x s) (p.run ts))
    (hf : ∀ a s' events, (p.run ts).outcome = .ok a → (p.run ts).rest = tokens.drop s'.place →
      Leads tokens.length s s' events →
      Follows tokens s' (f a s') ((g a).run (tokens.drop s'.place))) :
    Follows tokens s ((x >>= f) s) ((p >>= g).run ts) := by
  -- The two run alike up to the end of the first part, and stop there alike.
  generalize hr : x s = r at hx
  generalize hp : p.run ts = parsed at hx hf
  cases hx with
  | ok h =>
    rw [bind_ok hr, Parser.run_bind_ok (by rw [hp]), hp]
    exact Follows.after h (hf _ _ _ rfl rfl h)
  | raised he h =>
    rw [bind_error hr, Parser.run_bind_error (by rw [hp]), hp]
    exact .raised he h
  | tooDeep =>
    rw [bind_error hr, Parser.run_bind_error (by rw [hp])]
    exact .tooDeep

/-- A run that depends on the next token follows a parser if it does so for every token and at the end. -/
theorem Follows.of_next {s : Cursor} {f : Option Token → Run α} {p : Parser α}
    (h : s.place ≤ tokens.length)
    (hend : ∀ s', s'.place = tokens.length → Follows tokens s' (f none s') (p.run []))
    (htoken : ∀ t s', tokens[s'.place]? = some t → s'.place = s.place →
      Follows tokens s' (f (some t) s') (p.run (t :: tokens.drop (s'.place + 1)))) :
    Follows tokens s ((next? (marked tokens) >>= f) s) (p.run (tokens.drop s.place)) := by
  obtain ⟨s', hnext, hplace, hleads⟩ := next?_looks h
  rw [← hplace] at hnext ⊢
  rw [bind_ok hnext]
  refine .after_look hleads ?_
  -- The cursor is at the end or at a token, and so is the list of what is left.
  cases ht : tokens[s'.place]? with
  | none =>
    have hle := hleads.le_end
    have hge := List.getElem?_eq_none_iff.1 ht
    rw [drop_of_end ht]
    exact hend s' (Nat.le_antisymm hle hge)
  | some t =>
    rw [drop_of_next ht]
    exact htoken t s' ht hplace

/-- A run that takes a token follows what is made of the tokens behind it. -/
theorem Follows.of_advance {s : Cursor} {x : Run α} {parsed : Parsed α} {t : Token}
    (h : tokens[s.place]? = some t)
    (hx : ∀ s', s'.place = s.place + 1 → s'.place ≤ tokens.length → Follows tokens s' (x s') parsed) :
    Follows tokens s ((advance (marked tokens) >>= fun _ => x) s) parsed := by
  obtain ⟨u, s', hadvance, hplace, hleads⟩ := advance_moves (List.getElem?_eq_some_iff.1 h).1
  rw [bind_ok hadvance]
  exact .after_look hleads (hx s' hplace hleads.le_end)

/-- A round that reads an item moves the cursor. -/
theorem Follows.round {s : Cursor} {x : Run α} {parsed : Parsed α} (hx : Follows tokens s (x s) parsed)
    (hmoves : ∀ a, parsed.outcome = .ok a → parsed.rest.length < (tokens.drop s.place).length) :
    Follows tokens s (round x s) parsed := by
  unfold Cursor.round
  generalize x s = r at hx
  cases hx with
  | @ok a s' errors h =>
    -- A round without an error moves the cursor, and one with an error is marked as left by it.
    have hlength := hmoves a rfl
    have hle := h.le_end
    rw [List.length_drop, List.length_drop] at hlength
    refine .ok ?_
    rw [← List.append_nil (errors.flatMap told)]
    exact h.trans (leads_noted hle (.round s.place false) (.inl (by show s.place < s'.place; omega)))
  | @raised e s' errors he h =>
    refine .raised he ?_
    rw [← List.append_nil (_ ++ _)]
    exact h.trans (leads_noted h.le_end (.round s.place true) (.inr rfl))
  | tooDeep => exact .tooDeep

section

variable {x : Run α} {p : Parser α}

/-- A run that does nothing but give a result performs the parser that does the same. -/
theorem performs_pure (a : α) : Performs tokens (pure a) (pure a) :=
  fun _ h => .ok (leads_refl h)

/-- A run that gives up as it is nested too deeply performs the parser that does the same. -/
theorem performs_tooDeep : Performs tokens (throw .tooDeep : Run α) Parser.tooDeep :=
  fun _ _ => .tooDeep

/-- A run that raises an error follows the parser that breaks off with it. -/
theorem follows_error {s : Cursor} (h : s.place ≤ tokens.length) {place : Option Token}
    {fault : SyntaxFault} (hfault : fault.isLimit = false) :
    Follows (α := α) tokens s (error place fault s)
      ⟨.error .broken, tokens.drop s.place, [⟨place, fault⟩]⟩ := by
  have hreported := leads_noted h (.reported ⟨place, fault⟩) trivial
  have hraised := hreported.trans (leads_noted hreported.le_end (.raised ⟨place, fault⟩) trivial)
  have hfollows : Follows (α := α) tokens s _ ⟨.error .broken, _, [] ++ [⟨place, fault⟩]⟩ :=
    .raised hfault hraised
  exact hfollows

/-- To report an error at the next token and raise it performs a parser that breaks off there. -/
theorem performs_fail {fault : SyntaxFault} (hfault : fault.isLimit = false) :
    Performs tokens (do error (← peek (marked tokens)) fault : Run α) (Parser.fail fault) := by
  intro s h
  obtain ⟨s', hpeek, hplace, hleads⟩ := peek_looks h
  show Follows tokens s _ ⟨.error .broken, _, [⟨(tokens.drop s.place).head?, fault⟩]⟩
  rw [bind_ok hpeek, List.head?_drop, ← hplace]
  exact .after_look hleads (follows_error hleads.le_end hfault)

/-- To report an error at the next token and go on performs the note of it. -/
theorem performs_note {fault : SyntaxFault} (hfault : fault.isLimit = true) :
    Performs tokens (do record (.reported ⟨← peek (marked tokens), fault⟩)) (Parser.note fault) := by
  intro s h
  obtain ⟨s', hpeek, hplace, hleads⟩ := peek_looks h
  show Follows tokens s _ ⟨.ok (), _, [⟨(tokens.drop s.place).head?, fault⟩]⟩
  rw [bind_ok hpeek, List.head?_drop, ← hplace]
  have htold : [⟨tokens[s'.place]?, fault⟩].flatMap told = [.reported ⟨tokens[s'.place]?, fault⟩] := by
    simp [told, hfault]
  refine .after_look hleads (.ok ?_)
  rw [htold]
  exact leads_noted hleads.le_end _ trivial

/-- The test of the next token performs the look at it. -/
theorem performs_nextIs (lexeme : Lexeme) :
    Performs tokens (check (marked tokens) fun t => decide (t.lexeme = lexeme))
      (Parser.nextIs lexeme) := by
  intro s h
  have hstarts : Parser.startsWith lexeme (tokens.drop s.place) =
      tokens[s.place]?.any fun t => decide (t.lexeme = lexeme) := by
    rw [← List.head?_drop]
    cases tokens.drop s.place <;> rfl
  obtain ⟨s', hcheck, hplace, hleads⟩ := check_looks h fun t => decide (t.lexeme = lexeme)
  rw [hcheck, Parser.run_nextIs, hstarts, ← hplace]
  exact .ok hleads

/-- What depends on whether a named function follows performs the parser that looks ahead for one. -/
theorem performs_lookForFunction {f : Bool → Run α} {g : Bool → Parser α}
    (hf : ∀ named, Performs tokens (f named) (g named)) :
    Performs tokens (do f (← functionFollows (marked tokens)))
      (Parser.lookahead >>= fun us => g (Grammar.namedFunctionFollows us)) := by
  intro s h
  obtain ⟨s', hfollows, hplace, hleads⟩ := functionFollows_looks h
  rw [bind_ok hfollows, Parser.run_bind_ok rfl]
  show Follows tokens s _ ((g (Grammar.namedFunctionFollows (tokens.drop s.place))).run _)
  rw [← hplace]
  exact .after_look hleads (hf _ s' hleads.le_end)

/-- What is performed step by step is performed as a whole. -/
theorem performs_bind {f : α → Run β} {g : α → Parser β} (hx : Performs tokens x p)
    (hf : ∀ a, Performs tokens (f a) (g a)) : Performs tokens (x >>= f) (p >>= g) :=
  fun s h => (hx s h).bind fun a s' _ _ _ hleads => hf a s' hleads.le_end

/-- Steps are chosen where parsers are, and do what these do. -/
structure Chooses (tokens : List Token) (steps : Token → Option (Run α))
    (choose : Token → Option (Parser α)) : Prop where
  none : ∀ t, choose t = none → steps t = none
  some : ∀ t p, choose t = some p → ∃ x, steps t = some x ∧ Performs tokens x p

/-- Steps that are given for each parser of a choice are chosen where the parsers are. -/
theorem chooses_stepFor {choose : Token → Option (Parser α)} {steps : ∀ t p, choose t = some p → Run α}
    (h : ∀ t p hp, Performs tokens (steps t p hp) p) : Chooses tokens (stepFor choose steps) choose where
  -- A step is there if and only if there is a choice, and it is that of the choice.
  none t ht := by
    unfold stepFor
    split
    · next hp =>
      rw [ht] at hp
      cases hp
    · rfl
  some t p hp := by
    unfold stepFor
    split
    · next q hq =>
      obtain rfl : q = p := Option.some.inj (hq.symm.trans hp)
      exact ⟨_, rfl, h t q hq⟩
    · next hnone =>
      rw [hp] at hnone
      cases hnone

/-- A choice between steps performs the choice between parsers. -/
theorem performs_select {steps : Token → Option (Run α)} {choose : Token → Option (Parser α)}
    (hsteps : Chooses tokens steps choose) (hx : Performs tokens x p) :
    Performs tokens (select (marked tokens) steps x) (Parser.select choose p) := by
  refine fun s h => .of_next h (fun s' hend => ?_) fun t s' ht hplace => ?_
  -- At the end no parser is chosen.
  · have hdrop : tokens.drop s'.place = [] := List.drop_eq_nil_of_le (Nat.le_of_eq hend.symm)
    have hfollows := hx s' (Nat.le_of_eq hend)
    rw [hdrop] at hfollows
    exact hfollows
  -- The next token chooses the same parser on both sides.
  · cases hchoose : choose t with
    | none =>
      have hfollows := hx s' (by rwa [hplace])
      rw [drop_of_next ht] at hfollows
      simp only [hsteps.none t hchoose, Parser.run_select_none hchoose]
      exact hfollows
    | some q =>
      obtain ⟨y, hy, hperforms⟩ := hsteps.some t q hchoose
      simp only [hy, Parser.run_select_some hchoose]
      refine .of_advance ht fun s'' hplace' hle => ?_
      rw [← hplace']
      exact hperforms s'' hle

/-- Steps that go on from a result follow the parser that extends it, given as many rounds as tokens. -/
theorem follows_extend {steps : β → Token → Option (Run β)} {next : β → Token → Option (Parser β)}
    (hsteps : ∀ b, Chooses tokens (steps b) (next b)) {rounds : Nat} {s : Cursor}
    (h : s.place ≤ tokens.length) (hrounds : tokens.length - s.place < rounds) (b : β) :
    Follows tokens s (extend (marked tokens) steps rounds b s)
      ((Parser.extend next b).run (tokens.drop s.place)) := by
  -- Whatever goes on takes the next token, so there is a round for every token that is left.
  induction rounds generalizing s b with
  | zero => omega
  | succ rounds ih =>
    refine .of_next h (fun s' hend => ?_) fun t s' ht hplace => ?_
    · have hrun : (Parser.extend next b).run [] = ⟨.ok b, tokens.drop s'.place, []⟩ := by
        rw [hend, List.drop_length, Parser.run_extend_nil]
      rw [hrun]
      exact .ok (leads_refl (Nat.le_of_eq hend))
    · have hle : s'.place ≤ tokens.length := by rwa [hplace]
      cases hnext : next b t with
      | none =>
        have hrun : (Parser.extend next b).run (t :: tokens.drop (s'.place + 1)) =
            ⟨.ok b, tokens.drop s'.place, []⟩ := by
          rw [drop_of_next ht, Parser.run_extend_none hnext]
        simp only [(hsteps b).none t hnext, hrun]
        exact .ok (leads_refl hle)
      | some q =>
        obtain ⟨y, hy, hperforms⟩ := (hsteps b).some t q hnext
        simp only [hy, Parser.run_extend_some hnext]
        refine .of_advance ht fun s'' hplace' hle' => ?_
        rw [← hplace']
        refine (hperforms s'' hle').bind fun b' s₃ events _ _ hleads => ih hleads.le_end ?_ b'
        have := hleads.place_le
        omega

/-- A loop follows the parser that repeats, given more rounds than tokens: every round takes one. -/
theorem follows_repeatUntil {stop : Token → Bool} {progress : p.Progress}
    (hx : tokens ≠ [] → Performs tokens x p) {rounds : Nat} {s : Cursor}
    (h : s.place ≤ tokens.length) (hrounds : tokens.length - s.place < rounds) :
    Follows tokens s (repeatUntil (marked tokens) stop x rounds s)
      ((Parser.repeatUntil stop p progress).run (tokens.drop s.place)) := by
  induction rounds generalizing s with
  | zero => omega
  | succ rounds ih =>
    refine .of_next h (fun s' hend => ?_) fun t s' ht hplace => ?_
    · have hrun : (Parser.repeatUntil stop p progress).run [] = ⟨.ok [], tokens.drop s'.place, []⟩ := by
        rw [hend, List.drop_length, Parser.run_repeatUntil_nil]
      rw [hrun]
      exact .ok (leads_refl (Nat.le_of_eq hend))
    · -- There is a token, so the program is not empty.
      have hle : s'.place ≤ tokens.length := by rwa [hplace]
      have hne : tokens ≠ [] := by
        rintro rfl
        cases ht
      cases hstop : stop t with
      | true =>
        have hrun : (Parser.repeatUntil stop p progress).run (t :: tokens.drop (s'.place + 1)) =
            ⟨.ok [], tokens.drop s'.place, []⟩ := by
          rw [drop_of_next ht, Parser.run_repeatUntil_of_stop hstop]
        simp only [hstop, if_true, hrun]
        exact .ok (leads_refl hle)
      | false =>
        have hround := hx hne s' hle
        rw [drop_of_next ht] at hround
        simp only [hstop, Bool.false_eq_true, if_false, Parser.run_repeatUntil_of_not_stop hstop]
        have hmoves := fun a => progress (t :: tokens.drop (s'.place + 1)) a (List.cons_ne_nil _ _)
        refine Follows.bind (hround.round (by rwa [drop_of_next ht])) fun a s'' events ha hrest hleads =>
          Follows.bind (ih hleads.le_end ?_) fun as s₃ _ _ _ hleads' =>
            .ok (leads_refl hleads'.le_end)
        -- The item has taken a token, so one round less is enough for the rest.
        have hlength := hmoves a ha
        rw [hrest, ← drop_of_next ht, List.length_drop, List.length_drop] at hlength
        omega

/-- A run that is recovered from performs the parser that is recovered, given more rounds than tokens. -/
theorem performs_recovered (hne : tokens ≠ []) {rounds : Nat} (hrounds : tokens.length < rounds)
    (hx : Performs tokens x p) :
    Performs tokens (recover (marked tokens) rounds x) (Grammar.recovered p) := by
  intro s h
  have hfollows := hx s h
  unfold recover
  generalize x s = r at hfollows
  generalize hp : p.run (tokens.drop s.place) = parsed at hfollows
  cases hfollows with
  | ok hleads =>
    rw [Grammar.recovered_of_ne_broken (by rw [hp]; nofun), hp]
    exact .ok hleads
  | tooDeep =>
    rw [Grammar.recovered_of_ne_broken (by rw [hp]; nofun), hp]
    exact .tooDeep
  -- The error is raised, caught, and the tokens are skipped up to where the next statement may begin.
  | @raised e s' errors he hleads =>
    rw [Grammar.recovered_of_broken (by rw [hp]), hp]
    have htold : (errors ++ [e]).flatMap told =
        errors.flatMap told ++ [.reported e, .raised e] ++ [.caught e] := by
      simp [told, he]
    have hcaught := hleads.trans (leads_noted hleads.le_end (.caught e) trivial)
    obtain ⟨s'', hsynchronize, hleads', hdrop⟩ := synchronize_leads hne hrounds hcaught.le_end
    show Follows tokens s ((synchronize _ _ >>= fun _ => pure none) _) _
    rw [bind_ok hsynchronize, ← noted_place s', ← hdrop]
    refine .ok ?_
    rw [htold, ← List.append_nil (_ ++ _)]
    exact hcaught.trans hleads'

end

end Cursor

/-- A plan is carried out as its parser reads. -/
theorem Parser.Plan.performs {p : Parser α} (plan : Plan p) (hne : tokens ≠ []) {rounds : Nat}
    (hrounds : tokens.length < rounds) :
    Cursor.Performs tokens (plan.exec (marked tokens) rounds) p := by
  -- One case for each step of a plan, each with its own lemma; loops have more rounds than there are
  -- tokens.
  induction plan with
  | pure a => exact Cursor.performs_pure a
  | tooDeep => exact Cursor.performs_tooDeep
  | fail fault hfault => exact Cursor.performs_fail hfault
  | failAt t ht => exact fun s h => Cursor.follows_error h rfl
  | note fault hfault => exact Cursor.performs_note hfault
  | nextIs lexeme => exact Cursor.performs_nextIs lexeme
  | lookForFunction hf ih => exact Cursor.performs_lookForFunction ih
  | bind hp hf ihp ihf => exact Cursor.performs_bind ihp ihf
  | choice c hp hq ihp ihq =>
    unfold exec
    split
    · exact ihp
    · exact ihq
  | select hc ho ihc iho =>
    exact Cursor.performs_select (Cursor.chooses_stepFor ihc) iho
  | extend hn b ih =>
    exact fun s hs =>
      Cursor.follows_extend (fun b => Cursor.chooses_stepFor (ih b)) hs (by omega) b
  | repeatUntil stop progress h ih =>
    exact fun s hs => Cursor.follows_repeatUntil (fun _ => ih) hs (by omega)
  | recovered h ih => exact Cursor.performs_recovered hne hrounds ih

/-- All tokens are read if items are read up to the end of the text. -/
theorem Parser.rest_repeatUntil {stop : Token → Bool} (hstop : ∀ t, stop t = false) {item : Parser α}
    (progress : item.Progress) (ts : List Token) (as : List α) :
    ((repeatUntil stop item progress).run ts).outcome = .ok as →
      ((repeatUntil stop item progress).run ts).rest = [] := by
  show (repeatRun stop item progress ts).outcome = .ok as → (repeatRun stop item progress ts).rest = []
  -- The loop does not stop at a token, so it ends with the text or with an error.
  fun_induction repeatRun stop item progress ts generalizing as with
  | case1 => exact fun _ => rfl
  | case2 t ts ht =>
    rw [hstop t] at ht
    cases ht
  | case3 t ts ht a rest errors hrun later ih =>
    intro h
    obtain ⟨as, hlater, -⟩ := map_eq_ok_iff.1 h
    exact ih as hlater
  | case4 =>
    intro h
    cases h

/-- No token is left of a program. -/
theorem parseProgram_rest {depth : Nat} {program : List (Stmt Unit)}
    (h : (parseProgram depth tokens).outcome = .ok program) : (parseProgram depth tokens).rest = [] := by
  unfold parseProgram Grammar.declarations at h ⊢
  rw [Parser.run_map] at h ⊢
  obtain ⟨os, hos, -⟩ := Parser.map_eq_ok_iff.1 h
  exact Parser.rest_repeatUntil (fun _ => rfl) _ _ os hos

namespace Cursor

/-- The run over a whole program performs its parser. -/
theorem performs_parse (tokens : List Token) (depth : Nat) {rounds : Nat}
    (hrounds : tokens.length < rounds) :
    Performs tokens (parse (marked tokens) depth rounds)
      (Grammar.declarations (Grammar.Level.ofDepth depth) fun _ => false) := by
  intro s h
  have hdeclaration := fun hne : tokens ≠ [] =>
    (Parser.Plan.recovered (Grammar.strictDeclarationPlan (Grammar.Level.planOfDepth depth))).performs
      hne hrounds
  exact Follows.bind (follows_repeatUntil hdeclaration h (by omega)) fun _ s' _ _ _ hleads =>
    .ok (leads_refl hleads.le_end)

/-- A program is read up to the end mark and without an error that is not caught, whatever the tokens.
What is read is what the parser reads. On the way the cursor never moves back or past the end mark, all
indices are in range, and every round of a loop over declarations or methods moves the cursor unless an
error is raised in it. Each error is reported once, and if it is raised then it is caught next. -/
theorem parse_inside (tokens : List Token) {depth rounds : Nat} (hdepth : tokens.length ≤ depth)
    (hrounds : tokens.length < rounds) :
    ∃ program errors s, parse (marked tokens) depth rounds ⟨0, []⟩ = .ok program s ∧
      parseProgram depth tokens = ⟨.ok program, [], errors⟩ ∧
      s.place = tokens.length ∧
      Span tokens.length 0 s.place s.log ∧
      faults s.log = errors.flatMap told := by
  have hfollows := performs_parse tokens depth hrounds ⟨0, []⟩ (Nat.zero_le _)
  generalize hparse : parse (marked tokens) depth rounds ⟨0, []⟩ = r at hfollows
  generalize hparsed : (Grammar.declarations _ _).run (tokens.drop 0) = parsed at hfollows
  have hprogram : parseProgram depth tokens = parsed := hparsed
  -- The whole text was read, or else an error would have been raised: declarations recover from every
  -- error.
  cases hfollows with
  | @ok program s errors h =>
    obtain ⟨log, hlog, hspan, hfaults⟩ := h
    obtain rfl : s.log = log := hlog
    have hrest := parseProgram_rest (by rw [hprogram])
    rw [hprogram] at hrest
    have hend : tokens.length ≤ s.place := List.drop_eq_nil_iff.1 hrest
    refine ⟨program, errors, s, rfl, ?_, Nat.le_antisymm hspan.le_end hend, hspan, hfaults⟩
    rw [hprogram, List.drop_eq_nil_of_le hend]
  | raised he h =>
    exact absurd (congrArg Parsed.outcome hparsed) (Grammar.declarations_ne_broken _ _ _)
  | tooDeep =>
    exact absurd (congrArg Parsed.outcome hprogram) (Grammar.parseProgram_not_tooDeep hdepth)

/-- A statement without its semicolon is read up to a place after the keyword of a function, whose closing
brace is then reported as well. -/
theorem parse_inside_twoReports :
    ∃ program s, parse (marked (Grammar.statementAndFunction.eraseIdx 1)) 9 10 ⟨0, []⟩ = .ok program s ∧
      s.place = 9 ∧
      faults s.log = [⟨some (Grammar.word .fn 1), .expressionEnd⟩,
        ⟨some (Grammar.sym .rightBrace 1), .expression⟩].flatMap fun e =>
          [.reported e, .raised e, .caught e] := by
  -- The second token is the semicolon that is missing.
  have herrors : (parseProgram 9 (Grammar.statementAndFunction.eraseIdx 1)).errors =
      [⟨some (Grammar.word .fn 1), .expressionEnd⟩,
        ⟨some (Grammar.sym .rightBrace 1), .expression⟩] := by decide +kernel
  obtain ⟨program, errors, s, hparse, hprogram, hplace, -, hfaults⟩ :=
    parse_inside (Grammar.statementAndFunction.eraseIdx 1) (Nat.le_refl 9) (Nat.lt_succ_self 9)
  rw [hprogram] at herrors
  subst herrors
  exact ⟨program, s, hparse, hplace, hfaults⟩

end Cursor

end Treewalk
