import Treewalk.Proofs.Grammar.Derivation

/-!
# Depth, and the nearest conditional

Two facts about the grammar that do not depend on how it is read. A phrase is nested at most as deeply
as it has tokens, so the depth in `Derives` is no condition on the phrase (`Derives.of_length_le`). And
whatever can be derived when an `else` may belong to any `if` can be derived with every `else` belonging
to the nearest one (`exists_nearest`): an `else` after a statement that ends with an open `if` is moved
into that statement (`Derives.attach`).
-/

namespace Treewalk.Grammar

/-! ## Depth -/

/-- Where there is a level for every token, there is one for the first token and one for every other. -/
theorem exists_level {t : Token} {ts : List Token} {d : Nat} (h : (t :: ts).length ≤ d) :
    ∃ d', d = d' + 1 ∧ ts.length ≤ d' := by
  cases d with
  | zero => exact absurd h (Nat.not_succ_le_zero _)
  | succ d => exact ⟨d, rfl, Nat.le_of_succ_le_succ h⟩

/-- A phrase can be derived at every depth that is not below the number of its tokens. -/
theorem Derives.of_length_le {nearest : Bool} {d : Nat} {p : Phrase} {ts : List Token} {t : p.Tree}
    (h : Derives nearest d p ts t) :
    ∀ {d' : Nat}, ts.length ≤ d' → Derives nearest d' p ts t := by
  induction h with
  | atom h => exact fun _ => .atom h
  | noClause => exact fun _ => .noClause
  | noMethod => exact fun _ => .noMethod
  | noStart => exact fun _ => .noStart
  | unset => exact fun _ => .unset
  | noDeclaration => exact fun _ => .noDeclaration
  | lambda h ih => exact fun hd => .lambda (ih (by simp at hd; omega))
  | callNothing h ih => exact fun hd => .callNothing (ih (by simp at hd; omega))
  | get h ih => exact fun hd => .get (ih (by simp at hd; omega))
  | join hl hop hr ihl ihr =>
    exact fun hd => .join (ihl (by simp at hd; omega)) hop (ihr (by simp at hd; omega))
  | tighter h ih => exact fun hd => .tighter (ih hd)
  | clause h ih => exact fun hd => .clause (ih hd)
  | lastArgument h ih => exact fun hd => .lastArgument (ih hd)
  | argument h later ih ihl =>
    exact fun hd => .argument (ih (by simp at hd; omega)) (ihl (by simp at hd; omega))
  | method h later ih ihl =>
    exact fun hd => .method (ih (by simp at hd; omega)) (ihl (by simp at hd; omega))
  | expression h ih => exact fun hd => .expression (ih (by simp at hd; omega))
  | print h ih => exact fun hd => .print (ih (by simp at hd; omega))
  | «return» h ih => exact fun hd => .return (ih (by simp at hd; omega))
  | varStart h ih => exact fun hd => .varStart (ih hd)
  | expressionStart h ih => exact fun hd => .expressionStart (ih (by simp at hd; omega))
  | var h ih => exact fun hd => .var (ih (by simp at hd; omega))
  | varDeclaration h ih => exact fun hd => .varDeclaration (ih hd)
  | function h ih => exact fun hd => .function (ih (by simp at hd; omega))
  | «class» h ih => exact fun hd => .class (ih (by simp at hd; omega))
  | statement h ih => exact fun hd => .statement (ih hd)
  | declarations h later ih ihl =>
    exact fun hd => .declarations (ih (by simp at hd; omega)) (ihl (by simp at hd; omega))
  -- These rules take a level. They have a token of their own, in most of them the first, and that token pays
  -- for it.
  | grouping h ih =>
    intro d' hd
    obtain ⟨d', rfl, hts⟩ := exists_level hd
    exact .grouping (ih (by simp at hts; omega))
  | call h ha count ih iha =>
    intro d' hd
    obtain ⟨d', rfl⟩ : ∃ k, d' = k + 1 := ⟨d' - 1, by simp at hd; omega⟩
    exact .call (ih (by simp at hd; omega)) (iha (by simp at hd; omega)) count
  | unary hop h ih =>
    intro d' hd
    obtain ⟨d', rfl, hts⟩ := exists_level hd
    exact .unary hop (ih hts)
  | assign h ih =>
    intro d' hd
    obtain ⟨d', rfl, hts⟩ := exists_level hd
    exact .assign (ih (by simp at hts; omega))
  | set h hv ih ihv =>
    intro d' hd
    obtain ⟨d', rfl⟩ : ∃ k, d' = k + 1 := ⟨d' - 1, by simp at hd; omega⟩
    exact .set (ih (by simp at hd; omega)) (ihv (by simp at hd; omega))
  | routine hp h ih =>
    intro d' hd
    obtain ⟨d', rfl, hts⟩ := exists_level hd
    exact .routine hp (ih (by simp at hts; omega))
  | block h ih =>
    intro d' hd
    obtain ⟨d', rfl, hts⟩ := exists_level hd
    exact .block (ih (by simp at hts; omega))
  | ifThen hc h ihc ih =>
    intro d' hd
    obtain ⟨d', rfl, hts⟩ := exists_level hd
    exact .ifThen (ihc (by simp at hts; omega)) (ih (by simp at hts; omega))
  | ifElse hc h closed h' ihc ih ih' =>
    intro d' hd
    obtain ⟨d', rfl, hts⟩ := exists_level hd
    exact .ifElse (ihc (by simp at hts; omega)) (ih (by simp at hts; omega)) closed
      (ih' (by simp at hts; omega))
  | «while» hc h ihc ih =>
    intro d' hd
    obtain ⟨d', rfl, hts⟩ := exists_level hd
    exact .while (ihc (by simp at hts; omega)) (ih (by simp at hts; omega))
  | «for» hi hc hn h ihi ihc ihn ih =>
    intro d' hd
    obtain ⟨d', rfl, hts⟩ := exists_level hd
    exact .for (ihi (by simp at hts; omega)) (ihc (by simp at hts; omega)) (ihn (by simp at hts; omega))
      (ih (by simp at hts; omega))

/-! ## The nearest conditional -/

/-- The tokens are a phrase if every `else` belongs to the nearest open conditional. -/
def IsNearest (p : Phrase) (ts : List Token) : Prop :=
  ∃ t, Derives true ts.length p ts t

/-- The tokens are a statement if every `else` belongs to the nearest open conditional. -/
def IsStatement (ts : List Token) : Prop :=
  ∃ k, IsNearest (.statement k) ts

/-- A nearest phrase is derived at any sufficient depth. -/
theorem IsNearest.derives {p : Phrase} {ts : List Token} (h : IsNearest p ts) {d : Nat}
    (hd : ts.length ≤ d) : ∃ t, Derives true d p ts t := by
  obtain ⟨t, h⟩ := h
  exact ⟨t, h.of_length_le hd⟩

/-- So is a statement. -/
theorem IsStatement.derives {ts : List Token} (h : IsStatement ts) {d : Nat} (hd : ts.length ≤ d) :
    ∃ k t, Derives true d (.statement k) ts t := by
  obtain ⟨k, h⟩ := h
  exact ⟨k, h.derives hd⟩

/-- A phrase that can be derived at some depth is one. -/
theorem Derives.isNearest {d : Nat} {p : Phrase} {ts : List Token} {t : p.Tree}
    (h : Derives true d p ts t) : IsNearest p ts :=
  ⟨t, h.of_length_le (Nat.le_refl _)⟩

/-- A conditional without `else`, of which the branch must not be short of one. -/
theorem isStatement_ifThen {ts us : List Token} {l₁ l₂ l₃ : Int}
    (hc : IsNearest (.expression .assignment) ts) (h : IsStatement us) :
    IsStatement (word .if_ l₁ :: sym .leftParen l₂ :: ts ++ sym .rightParen l₃ :: us) := by
  obtain ⟨c, hc⟩ := hc.derives (d := ts.length + us.length + 1) (by omega)
  obtain ⟨k, s, h⟩ := h.derives (d := ts.length + us.length) (by omega)
  exact ⟨true, (Derives.ifThen hc h).isNearest⟩

/-- A conditional with `else`. Its first branch is complete, or the `else` would belong to it. -/
theorem isStatement_ifElse {ts us vs : List Token} {l₁ l₂ l₃ l₄ : Int}
    (hc : IsNearest (.expression .assignment) ts) (h : IsNearest (.statement false) us)
    (h' : IsStatement vs) :
    IsStatement (word .if_ l₁ :: sym .leftParen l₂ :: ts ++ sym .rightParen l₃ :: us ++
      word .else_ l₄ :: vs) := by
  obtain ⟨c, hc⟩ := hc.derives (d := ts.length + us.length + vs.length + 1) (by omega)
  obtain ⟨s, h⟩ := h.derives (d := ts.length + us.length + vs.length) (by omega)
  obtain ⟨k, s', h'⟩ := h'.derives (d := ts.length + us.length + vs.length) (by omega)
  exact ⟨k, (Derives.ifElse hc h (fun _ => rfl) h').isNearest⟩

/-- A loop ends as its body does. -/
theorem isStatement_while {ts us : List Token} {l₁ l₂ l₃ : Int}
    (hc : IsNearest (.expression .assignment) ts) (h : IsStatement us) :
    IsStatement (word .while_ l₁ :: sym .leftParen l₂ :: ts ++ sym .rightParen l₃ :: us) := by
  obtain ⟨c, hc⟩ := hc.derives (d := ts.length + us.length + 1) (by omega)
  obtain ⟨k, s, h⟩ := h.derives (d := ts.length + us.length) (by omega)
  exact ⟨k, (Derives.while hc h).isNearest⟩

/-- So does a `for`. -/
theorem isStatement_for {ts us vs ws : List Token} {l₁ l₂ l₃ l₄ : Int} (hi : IsNearest .loopStart ts)
    (hc : IsNearest .clause us) (hn : IsNearest .clause vs) (h : IsStatement ws) :
    IsStatement (word .for_ l₁ :: sym .leftParen l₂ :: ts ++ us ++ sym .semicolon l₃ :: vs ++
      sym .rightParen l₄ :: ws) := by
  let d := ts.length + us.length + vs.length + ws.length
  obtain ⟨i, hi⟩ := hi.derives (d := d + 1) (by omega)
  obtain ⟨c, hc⟩ := hc.derives (d := d + 1) (by omega)
  obtain ⟨n, hn⟩ := hn.derives (d := d + 1) (by omega)
  obtain ⟨k, s, h⟩ := h.derives (d := d) (by omega)
  exact ⟨k, (Derives.for hi hc hn h).isNearest⟩

/-- An `else` can follow a dangling statement. -/
def TakesElse : Phrase → List Token → Prop
  | .statement true, ts => ∀ vs l, IsStatement vs → IsStatement (ts ++ word .else_ l :: vs)
  | _, _ => True

/-- An `else` after a dangling statement goes to the conditional with which the statement ends. -/
theorem Derives.attach {d : Nat} {p : Phrase} {ts : List Token} {t : p.Tree}
    (h : Derives true d p ts t) : TakesElse p ts := by
  induction h with
  | @ifThen d ts us c s k l₁ l₂ l₃ hc h ihc ih =>
    intro vs l hvs
    cases k with
    -- The `else` is the one this conditional lacks.
    | false => exact isStatement_ifElse hc.isNearest h.isNearest hvs
    | true =>
      -- The branch is dangling itself, so the `else` goes to a conditional with which it ends.
      rw [List.append_assoc]
      exact isStatement_ifThen hc.isNearest (ih vs l hvs)
  | @ifElse d ts us ws c s s' k k' l₁ l₂ l₃ l₄ hc h closed h' ihc ih ih' =>
    -- The first branch is not dangling, as the `else` after it would have gone there.
    have hclosed := closed rfl
    subst hclosed
    cases k' with
    | false => trivial
    | true =>
      intro vs l hvs
      rw [List.append_assoc]
      exact isStatement_ifElse hc.isNearest h.isNearest (ih' vs l hvs)
  | @«while» d ts us c s k l₁ l₂ l₃ hc h ihc ih =>
    cases k with
    | false => trivial
    | true =>
      intro vs l hvs
      rw [List.append_assoc]
      exact isStatement_while hc.isNearest (ih vs l hvs)
  | @«for» d ts us vs ws i c n s k l₁ l₂ l₃ l₄ hi hc hn h ihi ihc ihn ih =>
    cases k with
    | false => trivial
    | true =>
      intro vs l hvs
      rw [List.append_assoc]
      exact isStatement_for hi.isNearest hc.isNearest hn.isNearest (ih vs l hvs)
  | _ => trivial

/-- A statement and an `else` after it are the branches of a conditional. -/
theorem IsStatement.ifElse {ts us vs : List Token} {l₁ l₂ l₃ l₄ : Int}
    (hc : IsNearest (.expression .assignment) ts) (h : IsStatement us) (h' : IsStatement vs) :
    IsStatement (word .if_ l₁ :: sym .leftParen l₂ :: ts ++ sym .rightParen l₃ :: us ++
      word .else_ l₄ :: vs) := by
  obtain ⟨k, h⟩ := h
  cases k with
  | false => exact isStatement_ifElse hc h h'
  | true =>
    obtain ⟨s, hs⟩ := h
    rw [List.append_assoc]
    exact isStatement_ifThen hc (hs.attach vs l₄ h')

/-- What is shown of a phrase: the tokens are a phrase of the same kind with every `else` belonging to
the nearest open conditional. Whether it is dangling may change, and the number of arguments does
not. -/
def HasNearest : (p : Phrase) → List Token → p.Tree → Prop
  | .statement _, ts, _ => IsStatement ts
  | .declaration _, ts, _ => ∃ k, IsNearest (.declaration k) ts
  | .arguments, ts, es => ∃ es', es'.length = es.length ∧ Derives true ts.length .arguments ts es'
  | p, ts, _ => IsNearest p ts

/-- Whatever is derived freely has a reading with the nearest `else`, by induction on the derivation. -/
theorem Derives.hasNearest {d : Nat} {p : Phrase} {ts : List Token} {t : p.Tree}
    (h : Derives false d p ts t) : HasNearest p ts t := by
  induction h with
  | atom h => exact ⟨_, .atom h⟩
  -- The parts have derivations of their own, at a depth that is the number of their tokens. Where a rule has
  -- two parts, both are first brought to the same depth.
  | grouping h ih =>
    obtain ⟨e, h⟩ := ih
    exact (Derives.grouping h).isNearest
  | lambda h ih =>
    obtain ⟨r, h⟩ := ih
    exact (Derives.lambda h).isNearest
  | callNothing h ih =>
    obtain ⟨f, h⟩ := ih
    exact (Derives.callNothing h).isNearest
  | @call d ts us f as l line h ha count ih iha =>
    obtain ⟨f, h⟩ := IsNearest.derives ih (d := ts.length + us.length + 1) (by omega)
    obtain ⟨as', hlength, ha⟩ := iha
    have ha : Derives true (ts.length + us.length) .arguments us as' := ha.of_length_le (by omega)
    exact (Derives.call h ha (hlength ▸ count)).isNearest
  | get h ih =>
    obtain ⟨e, h⟩ := ih
    exact (Derives.get h).isNearest
  | unary hop h ih =>
    obtain ⟨e, h⟩ := ih
    exact (Derives.unary hop h).isNearest
  | @join d p ts us t f left right hl hop hr ihl ihr =>
    obtain ⟨left, hl⟩ := IsNearest.derives ihl (d := ts.length + us.length) (by omega)
    obtain ⟨right, hr⟩ := IsNearest.derives ihr (d := ts.length + us.length) (by omega)
    exact (Derives.join hl hop hr).isNearest
  | tighter h ih =>
    obtain ⟨e, h⟩ := ih
    exact (Derives.tighter h).isNearest
  | assign h ih =>
    obtain ⟨v, h⟩ := ih
    exact (Derives.assign h).isNearest
  | @set d ts us o v n l l' h hv ih ihv =>
    obtain ⟨o, h⟩ := IsNearest.derives ih (d := ts.length + us.length + 1) (by omega)
    obtain ⟨v, hv⟩ := IsNearest.derives ihv (d := ts.length + us.length) (by omega)
    exact (Derives.set h hv).isNearest
  | noClause => exact ⟨_, .noClause⟩
  | clause h ih =>
    obtain ⟨e, h⟩ := ih
    exact (Derives.clause h).isNearest
  | lastArgument h ih =>
    obtain ⟨e, h⟩ := ih
    exact ⟨[e], rfl, .lastArgument h⟩
  | @argument d ts us e es l h later ih ihl =>
    obtain ⟨e', h⟩ := ih
    obtain ⟨es', hlength, later⟩ := ihl
    refine ⟨e' :: es', by simp [hlength], .argument (h.of_length_le ?_) (later.of_length_le ?_)⟩
    · simp
    · simp
      omega
  | routine hp h ih =>
    obtain ⟨body, h⟩ := ih
    exact (Derives.routine hp h).isNearest
  | noMethod => exact ⟨_, .noMethod⟩
  | @method d ts us n r ms h later ih ihl =>
    obtain ⟨r, h⟩ := IsNearest.derives ih (d := ts.length + us.length) (by omega)
    obtain ⟨ms, later⟩ := IsNearest.derives ihl (d := ts.length + us.length) (by omega)
    exact (Derives.method h later).isNearest
  | expression h ih =>
    obtain ⟨e, h⟩ := ih
    exact ⟨false, (Derives.expression h).isNearest⟩
  | print h ih =>
    obtain ⟨e, h⟩ := ih
    exact ⟨false, (Derives.print h).isNearest⟩
  | «return» h ih =>
    obtain ⟨v, h⟩ := ih
    exact ⟨false, (Derives.return h).isNearest⟩
  | block h ih =>
    obtain ⟨body, h⟩ := ih
    exact ⟨false, (Derives.block h).isNearest⟩
  | ifThen hc h ihc ih => exact isStatement_ifThen ihc ih
  | ifElse hc h closed h' ihc ih ih' => exact IsStatement.ifElse ihc ih ih'
  | «while» hc h ihc ih => exact isStatement_while ihc ih
  | «for» hi hc hn h ihi ihc ihn ih => exact isStatement_for ihi ihc ihn ih
  | noStart => exact ⟨_, .noStart⟩
  | varStart h ih =>
    obtain ⟨s, h⟩ := ih
    exact (Derives.varStart h).isNearest
  | expressionStart h ih =>
    obtain ⟨e, h⟩ := ih
    exact (Derives.expressionStart h).isNearest
  | unset => exact ⟨_, .unset⟩
  | var h ih =>
    obtain ⟨e, h⟩ := ih
    exact (Derives.var h).isNearest
  | varDeclaration h ih =>
    obtain ⟨s, h⟩ := ih
    exact ⟨false, (Derives.varDeclaration h).isNearest⟩
  | function h ih =>
    obtain ⟨r, h⟩ := ih
    exact ⟨false, (Derives.function h).isNearest⟩
  | «class» h ih =>
    obtain ⟨ms, h⟩ := ih
    exact ⟨false, (Derives.class h).isNearest⟩
  | statement h ih =>
    obtain ⟨k, s, h⟩ := ih
    exact ⟨k, (Derives.statement h).isNearest⟩
  | noDeclaration => exact ⟨_, .noDeclaration⟩
  | @declarations d ts us s ss k h later ih ihl =>
    obtain ⟨k, ih⟩ := ih
    obtain ⟨s, h⟩ := ih.derives (d := ts.length + us.length) (by omega)
    obtain ⟨ss, later⟩ := IsNearest.derives ihl (d := ts.length + us.length) (by omega)
    exact (Derives.declarations h later).isNearest

/-- Every program has a derivation in which each `else` belongs to the nearest open conditional. -/
theorem exists_nearest {tokens : List Token} (h : IsProgram tokens) :
    ∃ program, Derives true tokens.length .declarations tokens program := by
  obtain ⟨depth, program, h⟩ := h
  exact h.hasNearest

/-- What can be derived with each `else` belonging to the nearest open conditional is a phrase. -/
theorem Derives.forget {d : Nat} {p : Phrase} {ts : List Token} {t : p.Tree}
    (h : Derives true d p ts t) : Derives false d p ts t := by
  -- Every rule may be used freely too. The only one that says more is that for `else`, which is forgotten.
  induction h with
  | atom h => exact .atom h
  | grouping _ ih => exact .grouping ih
  | lambda _ ih => exact .lambda ih
  | callNothing _ ih => exact .callNothing ih
  | call _ _ count ih iha => exact .call ih iha count
  | get _ ih => exact .get ih
  | unary hop _ ih => exact .unary hop ih
  | join _ hop _ ihl ihr => exact .join ihl hop ihr
  | tighter _ ih => exact .tighter ih
  | assign _ ih => exact .assign ih
  | set _ _ ih ihv => exact .set ih ihv
  | noClause => exact .noClause
  | clause _ ih => exact .clause ih
  | lastArgument _ ih => exact .lastArgument ih
  | argument _ _ ih ihl => exact .argument ih ihl
  | routine hp _ ih => exact .routine hp ih
  | noMethod => exact .noMethod
  | method _ _ ih ihl => exact .method ih ihl
  | expression _ ih => exact .expression ih
  | print _ ih => exact .print ih
  | «return» _ ih => exact .return ih
  | block _ ih => exact .block ih
  | ifThen _ _ ihc ih => exact .ifThen ihc ih
  | ifElse _ _ _ _ ihc ih ih' => exact .ifElse ihc ih nofun ih'
  | «while» _ _ ihc ih => exact .while ihc ih
  | «for» _ _ _ _ ihi ihc ihn ih => exact .for ihi ihc ihn ih
  | noStart => exact .noStart
  | varStart _ ih => exact .varStart ih
  | expressionStart _ ih => exact .expressionStart ih
  | unset => exact .unset
  | var _ ih => exact .var ih
  | varDeclaration _ ih => exact .varDeclaration ih
  | function _ ih => exact .function ih
  | «class» _ ih => exact .class ih
  | statement _ ih => exact .statement ih
  | noDeclaration => exact .noDeclaration
  | declarations _ _ ih ihl => exact .declarations ih ihl

end Treewalk.Grammar
