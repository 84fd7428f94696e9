import Treewalk.Grammar.Statement

/-!
# Reading without a report

`p.Reads ts a rest` says that the parser `p` reads `a` from the tokens `ts` and leaves `rest`, with
nothing to report on the way. Each way to build a parser has a lemma that says what it reads in terms
of its parts, so what a rule of the grammar reads is found by rewriting, and no later proof looks into
a run. The loops are described by relations of their own, `Extends` and `Collects`, with one rule for
a round and one for the end.

A parser `Reports` if it never breaks off without a report. Every parser of the grammar does, so a
declaration that was given up never counts as read.
-/

namespace Treewalk.Parser

variable {α β : Type}

/-- A parser reads a value from tokens without a report, and leaves the rest. -/
def Reads (p : Parser α) (ts : List Token) (a : α) (rest : List Token) : Prop :=
  p.run ts = ⟨.ok a, rest, []⟩

/-- A parser reads at most one value, and leaves one rest. -/
theorem Reads.unique {p : Parser α} {ts rest rest' : List Token} {a a' : α}
    (h : p.Reads ts a rest) (h' : p.Reads ts a' rest') : a' = a ∧ rest' = rest := by
  unfold Reads at h h'
  rw [h] at h'
  injection h' with ha hrest
  injection ha with ha
  exact ⟨ha.symm, hrest.symm⟩

/-! ## Outcomes -/

/-- What is stopped is still stopped when its value is to be changed, and nothing else is. -/
theorem map_eq_error_iff {ε : Type} {o : Except ε α} {f : α → β} {e : ε} :
    o.map f = .error e ↔ o = .error e := by
  cases o <;> simp [Except.map]

/-- A changed value comes from a value. -/
theorem map_eq_ok_iff {ε : Type} {o : Except ε α} {f : α → β} {b : β} :
    o.map f = .ok b ↔ ∃ a, o = .ok a ∧ f a = b := by
  cases o <;> simp [Except.map]

/-! ## Sequences -/

/-- A parser that takes nothing reads what it is made of. -/
theorem reads_pure {ts rest : List Token} {a b : α} :
    (pure a : Parser α).Reads ts b rest ↔ b = a ∧ rest = ts := by
  constructor
  · intro h
    injection h with ha hrest
    injection ha with ha
    exact ⟨ha.symm, hrest.symm⟩
  · rintro ⟨rfl, rfl⟩
    rfl

/-- A sequence reads what its parts read one after the other. -/
theorem reads_bind {p : Parser α} {f : α → Parser β} {ts rest : List Token} {b : β} :
    (p >>= f).Reads ts b rest ↔ ∃ a mid, p.Reads ts a mid ∧ (f a).Reads mid b rest := by
  constructor
  · intro h
    rcases hp : p.run ts with ⟨outcome | a, mid, errors⟩
    · have hrun := run_bind_error (f := f) (show (p.run ts).outcome = .error outcome by rw [hp])
      unfold Reads at h
      rw [hrun] at h
      cases h
    · -- The reports of both parsers are together none.
      have hrun := run_bind_ok (f := f) (show (p.run ts).outcome = .ok a by rw [hp])
      unfold Reads at h
      rw [hrun, hp] at h
      injection h with houtcome hrest herrors
      obtain ⟨he, hf⟩ := List.append_eq_nil_iff.1 herrors
      simp only at he hf
      subst he
      refine ⟨a, mid, hp, ?_⟩
      unfold Reads
      rcases hlater : (f a).run mid with ⟨outcome, rest', errors⟩
      rw [hlater] at houtcome hrest hf
      simp only at houtcome hrest hf
      rw [houtcome, hrest, hf]
  · rintro ⟨a, mid, hp, hf⟩
    unfold Reads at hp hf ⊢
    rw [run_bind_ok (show (p.run ts).outcome = .ok a by rw [hp]), hp]
    simp only
    rw [hf]
    rfl

/-- A sequence depends on what its first parser makes of the tokens only. -/
theorem run_bind_congr {p q : Parser α} {ts us : List Token} (h : p.run ts = q.run us)
    (f : α → Parser β) : (p >>= f).run ts = (q >>= f).run us := by
  cases hq : (q.run us).outcome with
  | error halt =>
    have hp : (p.run ts).outcome = .error halt := by rw [h]; exact hq
    rw [run_bind_error hp, run_bind_error hq, h]
  | ok a =>
    have hp : (p.run ts).outcome = .ok a := by rw [h]; exact hq
    rw [run_bind_ok hp, run_bind_ok hq, h]

/-- After what is read without a report a sequence does what its second parser does. -/
theorem run_bind_reads {p : Parser α} {f : α → Parser β} {ts rest : List Token} {a : α}
    (h : p.Reads ts a rest) : (p >>= f).run ts = (f a).run rest := by
  unfold Reads at h
  rw [run_bind_ok (show (p.run ts).outcome = .ok a by rw [h]), h]
  rfl

/-- What is changed is the result alone. -/
theorem run_map (f : α → β) (p : Parser α) (ts : List Token) :
    (f <$> p).run ts = ⟨(p.run ts).outcome.map f, (p.run ts).rest, (p.run ts).errors⟩ := by
  have hmap : f <$> p = p >>= fun a => pure (f a) := rfl
  rw [hmap]
  cases h : (p.run ts).outcome with
  | error halt => rw [run_bind_error h]; rfl
  | ok a =>
    rw [run_bind_ok h]
    show (⟨.ok (f a), (p.run ts).rest, (p.run ts).errors ++ []⟩ : Parsed β) = _
    rw [List.append_nil]
    rfl

/-- A changed result is read where the result is. -/
theorem reads_map {p : Parser α} {f : α → β} {ts rest : List Token} {b : β} :
    (f <$> p).Reads ts b rest ↔ ∃ a, p.Reads ts a rest ∧ b = f a := by
  have h : f <$> p = p >>= fun a => pure (f a) := rfl
  rw [h, reads_bind]
  constructor
  · rintro ⟨a, mid, hp, hb⟩
    obtain ⟨rfl, rfl⟩ := reads_pure.1 hb
    exact ⟨a, hp, rfl⟩
  · rintro ⟨a, hp, rfl⟩
    exact ⟨a, rest, hp, reads_pure.2 ⟨rfl, rfl⟩⟩

/-! ## Errors -/

/-- A parser that is nested too deeply reads nothing. -/
theorem not_reads_tooDeep {ts rest : List Token} {a : α} : ¬ (tooDeep : Parser α).Reads ts a rest :=
  fun h => nomatch h

/-- A parser that breaks off reads nothing. -/
theorem not_reads_fail {fault : SyntaxFault} {ts rest : List Token} {a : α} :
    ¬ (fail fault : Parser α).Reads ts a rest :=
  fun h => nomatch h

/-- A parser that breaks off at a token reads nothing. -/
theorem not_reads_failAt {t : Token} {fault : SyntaxFault} {ts rest : List Token} {a : α} :
    ¬ (failAt t fault : Parser α).Reads ts a rest :=
  fun h => nomatch h

/-- A parser that reports reads nothing, as what is read is read without a report. -/
theorem not_reads_note {fault : SyntaxFault} {ts rest : List Token} {u : Unit} :
    ¬ (note fault).Reads ts u rest :=
  fun h => nomatch h

/-- A report that depends on a condition leaves all as it is if the condition does not hold. -/
theorem reads_noteIf {condition : Prop} [Decidable condition] {fault : SyntaxFault}
    {ts rest : List Token} {u : Unit} :
    (noteIf condition fault).Reads ts u rest ↔ ¬ condition ∧ rest = ts := by
  unfold noteIf
  split
  · next h => exact ⟨fun hr => absurd hr not_reads_note, fun hn => absurd h hn.1⟩
  · next h => exact ⟨fun hr => ⟨h, (reads_pure.1 hr).2⟩, fun hn => reads_pure.2 ⟨rfl, hn.2⟩⟩

/-! ## Tokens -/

/-- The look ahead reads all tokens and leaves them. -/
theorem reads_lookahead {ts us rest : List Token} :
    lookahead.Reads ts us rest ↔ us = ts ∧ rest = ts := by
  constructor
  · intro h
    injection h with hus hrest
    injection hus with hus
    exact ⟨hus.symm, hrest.symm⟩
  · rintro ⟨rfl, rfl⟩
    rfl

/-- Whether the first of some tokens has a lexeme. -/
def startsWith (lexeme : Lexeme) : List Token → Bool
  | t :: _ => decide (t.lexeme = lexeme)
  | [] => false

/-- The look at the next token reads whether it is the given one, and leaves it. -/
theorem reads_nextIs {lexeme : Lexeme} {ts rest : List Token} {b : Bool} :
    (nextIs lexeme).Reads ts b rest ↔ b = startsWith lexeme ts ∧ rest = ts := by
  unfold nextIs
  rw [reads_bind]
  constructor
  · rintro ⟨us, mid, hus, hb⟩
    obtain ⟨hus, hmid⟩ := reads_lookahead.1 hus
    -- Whether there is a token or none, the answer is given without taking it.
    subst hus hmid
    cases mid with
    | nil => exact reads_pure.1 hb
    | cons t mid => exact reads_pure.1 hb
  · rintro ⟨rfl, rfl⟩
    refine ⟨rest, rest, reads_lookahead.2 ⟨rfl, rfl⟩, ?_⟩
    cases rest with
    | nil => exact reads_pure.2 ⟨rfl, rfl⟩
    | cons t rest => exact reads_pure.2 ⟨rfl, rfl⟩

/-- Nothing is read where the given lexeme follows. -/
theorem reads_unlessNext {lexeme : Lexeme} {nothing a : α} {p : Parser α} {ts rest : List Token} :
    (unlessNext lexeme nothing p).Reads ts a rest ↔
      startsWith lexeme ts = true ∧ a = nothing ∧ rest = ts ∨
        startsWith lexeme ts = false ∧ p.Reads ts a rest := by
  unfold unlessNext
  rw [reads_bind]
  constructor
  -- What comes next decides, on either side of the equivalence.
  · rintro ⟨b, mid, hb, h⟩
    obtain ⟨rfl, rfl⟩ := reads_nextIs.1 hb
    split at h
    · next hs => exact .inl ⟨hs, reads_pure.1 h⟩
    · next hs => exact .inr ⟨by simpa using hs, h⟩
  · rintro (⟨hs, h⟩ | ⟨hs, h⟩)
    · refine ⟨_, ts, reads_nextIs.2 ⟨rfl, rfl⟩, ?_⟩
      rw [if_pos hs]
      exact reads_pure.2 h
    · refine ⟨_, ts, reads_nextIs.2 ⟨rfl, rfl⟩, ?_⟩
      rw [hs, if_neg Bool.false_ne_true]
      exact h

/-- Where the given lexeme does not follow, its absence changes nothing. -/
theorem run_unlessNext {lexeme : Lexeme} {nothing : α} {p : Parser α} {ts : List Token}
    (h : startsWith lexeme ts = false) : (unlessNext lexeme nothing p).run ts = p.run ts := by
  refine (run_bind_reads (reads_nextIs.2 ⟨rfl, rfl⟩)).trans ?_
  rw [h]
  rfl

/-- At the end a choice reads what is taken otherwise. -/
theorem reads_select_nil {choose : Token → Option (Parser α)} {otherwise : Parser α}
    {rest : List Token} {a : α} :
    (select choose otherwise).Reads [] a rest ↔ otherwise.Reads [] a rest :=
  Iff.rfl

/-- A choice reads what the chosen parser does, after the token by which it is chosen. -/
theorem reads_select_some {choose : Token → Option (Parser α)} {otherwise p : Parser α} {t : Token}
    {ts rest : List Token} {a : α} (h : choose t = some p) :
    (select choose otherwise).Reads (t :: ts) a rest ↔ p.Reads ts a rest := by
  unfold Reads select
  simp only [h]

/-- A choice reads what is taken otherwise if nothing is chosen. -/
theorem reads_select_none {choose : Token → Option (Parser α)} {otherwise : Parser α} {t : Token}
    {ts rest : List Token} {a : α} (h : choose t = none) :
    (select choose otherwise).Reads (t :: ts) a rest ↔ otherwise.Reads (t :: ts) a rest := by
  unfold Reads select
  simp only [h]

/-- A selection leaves its token to the second parser if it accepts none of the tokens. -/
theorem reads_select_of_none {choose : Token → Option (Parser α)} {otherwise : Parser α}
    {ts rest : List Token} {a : α} (h : ∀ t ∈ ts.head?, choose t = none) :
    (select choose otherwise).Reads ts a rest ↔ otherwise.Reads ts a rest := by
  cases ts with
  | nil => exact reads_select_nil
  | cons t ts => exact reads_select_none (h t rfl)

/-- A selection either takes the token that it accepts, or it accepts none and takes none. -/
theorem Reads.select_cases {choose : Token → Option (Parser α)} {otherwise : Parser α}
    {ts rest : List Token} {a : α} (h : (select choose otherwise).Reads ts a rest) :
    (∃ t us p, ts = t :: us ∧ choose t = some p ∧ p.Reads us a rest) ∨
      (∀ t ∈ ts.head?, choose t = none) ∧ otherwise.Reads ts a rest := by
  cases ts with
  | nil => exact .inr ⟨fun _ ht => (nomatch ht), h⟩
  | cons t us =>
    cases hc : choose t with
    | some p => exact .inl ⟨t, us, p, rfl, hc, (reads_select_some hc).1 h⟩
    | none =>
      refine .inr ⟨fun u hu => ?_, (reads_select_none hc).1 h⟩
      cases hu
      exact hc

/-- A token that is expected is read if it comes next. -/
theorem reads_expect {accept : Token → Option α} {fault : SyntaxFault} {ts rest : List Token}
    {a : α} :
    (expect accept fault).Reads ts a rest ↔ ∃ t, ts = t :: rest ∧ accept t = some a := by
  unfold expect
  constructor
  · intro h
    rcases h.select_cases with ⟨t, us, p, rfl, hp, hr⟩ | ⟨-, hr⟩
    · obtain ⟨b, hb, rfl⟩ := Option.map_eq_some_iff.1 hp
      obtain ⟨rfl, rfl⟩ := reads_pure.1 hr
      exact ⟨t, rfl, hb⟩
    · exact absurd hr not_reads_fail
  · rintro ⟨t, rfl, ht⟩
    exact (reads_select_some (by rw [ht]; rfl)).2 (reads_pure.2 ⟨rfl, rfl⟩)

/-- A symbol is read if it comes next. -/
theorem reads_symbol {s : Symbol} {fault : SyntaxFault} {ts rest : List Token} {line : Int} :
    (symbol s fault).Reads ts line rest ↔ ts = ⟨.symbol s, line⟩ :: rest := by
  unfold symbol
  rw [reads_expect]
  constructor
  · rintro ⟨⟨lexeme, line'⟩, rfl, h⟩
    simp only at h
    split at h
    · next he => injection h with h; rw [he, h]
    · cases h
  · rintro rfl
    exact ⟨_, rfl, if_pos rfl⟩

/-- A name is read if it comes next. -/
theorem reads_name {fault : SyntaxFault} {ts rest : List Token} {n : Name} :
    (name fault).Reads ts n rest ↔ ts = ⟨.identifier n.text, n.line⟩ :: rest := by
  unfold name
  rw [reads_expect]
  constructor
  · rintro ⟨⟨lexeme, line⟩, rfl, h⟩
    cases lexeme <;> cases h
    rfl
  · rintro rfl
    exact ⟨_, rfl, rfl⟩

/-- After a symbol a sequence reads what its second parser reads. -/
theorem reads_symbol_bind {s : Symbol} {fault : SyntaxFault} {f : Int → Parser β}
    {ts rest : List Token} {b : β} :
    (symbol s fault >>= f).Reads ts b rest ↔
      ∃ line mid, ts = ⟨.symbol s, line⟩ :: mid ∧ (f line).Reads mid b rest := by
  simp only [reads_bind, reads_symbol]

/-- After a name a sequence reads what its second parser reads. -/
theorem reads_name_bind {fault : SyntaxFault} {f : Name → Parser β} {ts rest : List Token} {b : β} :
    (name fault >>= f).Reads ts b rest ↔
      ∃ n mid, ts = ⟨.identifier n.text, n.line⟩ :: mid ∧ (f n).Reads mid b rest := by
  simp only [reads_bind, reads_name]

/-! ## Loops -/

/-- At the end nothing goes on. -/
@[simp] theorem run_extend_nil {next : β → Token → Option (Parser β)} {b : β} :
    (extend next b).run [] = ⟨.ok b, [], []⟩ := by
  show extendRun next b [] = _
  rw [extendRun]

/-- Nothing goes on at a token that does not call for it. -/
theorem run_extend_none {next : β → Token → Option (Parser β)} {b : β} {t : Token}
    (h : next b t = none) (ts : List Token) : (extend next b).run (t :: ts) = ⟨.ok b, t :: ts, []⟩ := by
  show extendRun next b (t :: ts) = _
  rw [extendRun, h]

/-- A round of `extend` takes a token, reads what follows it, and goes on from there. -/
theorem run_extend_some {next : β → Token → Option (Parser β)} {b : β} {t : Token} {p : Parser β}
    (h : next b t = some p) (ts : List Token) :
    (extend next b).run (t :: ts) = (p >>= fun b' => extend next b').run ts := by
  show extendRun next b (t :: ts) = _
  rw [extendRun]
  simp only [h]
  split
  · next b' mid errors hrun =>
    rw [run_bind_ok (show (p.run ts).outcome = .ok b' by rw [hrun]), hrun]
    rfl
  · next halt mid errors hrun =>
    rw [run_bind_error (show (p.run ts).outcome = .error halt by rw [hrun]), hrun]

/-- What `extend` does without a report: a round takes a token that goes on with what was read so far,
and the loop ends before a token that does not. -/
inductive Extends (next : β → Token → Option (Parser β)) : β → List Token → β → List Token → Prop
  | stop {b : β} {ts : List Token} (h : ∀ t ∈ ts.head?, next b t = none) : Extends next b ts b ts
  | round {b b' c : β} {t : Token} {ts mid rest : List Token} {p : Parser β} (h : next b t = some p)
    (hp : p.Reads ts b' mid) (later : Extends next b' mid c rest) : Extends next b (t :: ts) c rest

/-- What goes on from a result reads what it is extended to. -/
theorem reads_extend {next : β → Token → Option (Parser β)} {b c : β} {ts rest : List Token} :
    (extend next b).Reads ts c rest ↔ Extends next b ts c rest := by
  constructor
  · -- The rounds are those of the recursion that defines the loop.
    intro h
    change extendRun next b ts = _ at h
    fun_induction extendRun next b ts with
    | case1 b =>
      cases h
      exact .stop fun t ht => by cases ht
    | case2 b t ts hn =>
      cases h
      refine .stop fun u hu => ?_
      cases hu
      exact hn
    | case3 b t ts p hp b' mid errors hr later ih =>
      injection h with houtcome hrest herrors
      obtain ⟨he, hl⟩ := List.append_eq_nil_iff.1 herrors
      subst he
      refine .round hp hr (ih ?_)
      rw [← houtcome, ← hrest, ← hl]
    | case4 b t ts p hp halt mid errors hr => cases h
  · intro h
    induction h with
    | @stop b ts h =>
      cases ts with
      | nil => exact run_extend_nil
      | cons t ts => exact run_extend_none (h t rfl) ts
    | @round b b' c t ts mid rest p h hp later ih =>
      calc (extend next b).run (t :: ts)
          = (p >>= fun b' => extend next b').run ts := run_extend_some h ts
        _ = (extend next b').run mid := run_bind_reads hp
        _ = ⟨.ok c, rest, []⟩ := ih

/-- At the end nothing is repeated. -/
@[simp] theorem run_repeatUntil_nil {stop : Token → Bool} {item : Parser α} {progress : item.Progress} :
    (repeatUntil stop item progress).run [] = ⟨.ok [], [], []⟩ := by
  show repeatRun stop item progress [] = _
  rw [repeatRun]

/-- Nothing is repeated at a token at which to stop. -/
theorem run_repeatUntil_of_stop {stop : Token → Bool} {item : Parser α} {progress : item.Progress}
    {t : Token} (h : stop t = true) (ts : List Token) :
    (repeatUntil stop item progress).run (t :: ts) = ⟨.ok [], t :: ts, []⟩ := by
  show repeatRun stop item progress (t :: ts) = _
  rw [repeatRun, if_pos h]

/-- A round of `repeatUntil` reads an item and goes on from there. -/
theorem run_repeatUntil_of_not_stop {stop : Token → Bool} {item : Parser α} {progress : item.Progress}
    {t : Token} (h : stop t = false) (ts : List Token) :
    (repeatUntil stop item progress).run (t :: ts) =
      (item >>= fun a => (a :: ·) <$> repeatUntil stop item progress).run (t :: ts) := by
  show repeatRun stop item progress (t :: ts) = _
  rw [repeatRun]
  simp only [h, Bool.false_eq_true, if_false]
  split
  · next a mid errors hrun =>
    rw [run_bind_ok (show (item.run (t :: ts)).outcome = .ok a by rw [hrun]), hrun, run_map]
    rfl
  · next halt mid errors hrun =>
    rw [run_bind_error (show (item.run (t :: ts)).outcome = .error halt by rw [hrun]), hrun]

/-- What `repeatUntil` does without a report: it reads items until one would begin with a token at
which to stop, or until the tokens end. -/
inductive Collects (stop : Token → Bool) (item : Parser α) : List Token → List α → List Token → Prop
  | stop {ts : List Token} (h : ∀ t ∈ ts.head?, stop t = true) : Collects stop item ts [] ts
  | round {t : Token} {ts mid rest : List Token} {a : α} {as : List α} (h : stop t = false)
    (ha : item.Reads (t :: ts) a mid) (later : Collects stop item mid as rest) :
    Collects stop item (t :: ts) (a :: as) rest

/-- Items are collected up to a token at which to stop, or to the end. -/
theorem Collects.stops {stop : Token → Bool} {item : Parser α} {ts rest : List Token} {as : List α}
    (h : Collects stop item ts as rest) : ∀ t ∈ rest.head?, stop t = true := by
  induction h with
  | stop h => exact h
  | round _ _ _ ih => exact ih

/-- What is repeated reads the items that are collected. -/
theorem reads_repeatUntil {stop : Token → Bool} {item : Parser α} {progress : item.Progress}
    {ts rest : List Token} {as : List α} :
    (repeatUntil stop item progress).Reads ts as rest ↔ Collects stop item ts as rest := by
  constructor
  -- The recursion of the loop: it stops, or an item is parsed and it goes on. All without an error.
  · intro h
    change repeatRun stop item progress ts = _ at h
    fun_induction repeatRun stop item progress ts generalizing as with
    | case1 =>
      cases h
      exact .stop fun t ht => by cases ht
    | case2 t ts hstop =>
      cases h
      refine .stop fun u hu => ?_
      cases hu
      exact hstop
    | case3 t ts hstop a mid errors hr later =>
      rename_i ih
      injection h with houtcome hrest herrors
      obtain ⟨he, hl⟩ := List.append_eq_nil_iff.1 herrors
      subst he
      have hstop : stop t = false := by simpa using hstop
      obtain ⟨bs, hlater, rfl⟩ := map_eq_ok_iff.1 houtcome
      refine .round hstop hr (ih ?_)
      rw [← hlater, ← hrest, ← hl]
    | case4 t ts hstop halt mid errors hr => cases h
  -- The rule that collects the items is the equation of the loop.
  · intro h
    induction h with
    | @stop ts h =>
      cases ts with
      | nil => exact run_repeatUntil_nil
      | cons t ts => exact run_repeatUntil_of_stop (h t rfl) ts
    | @round t ts mid rest a as h ha later ih =>
      have hlater : ((a :: ·) <$> repeatUntil stop item progress).Reads mid (a :: as) rest :=
        reads_map.2 ⟨as, ih, rfl⟩
      calc (repeatUntil stop item progress).run (t :: ts)
          = (item >>= fun a => (a :: ·) <$> repeatUntil stop item progress).run (t :: ts) :=
            run_repeatUntil_of_not_stop h ts
        _ = ((a :: ·) <$> repeatUntil stop item progress).run mid := run_bind_reads ha
        _ = ⟨.ok (a :: as), rest, []⟩ := hlater

end Treewalk.Parser
