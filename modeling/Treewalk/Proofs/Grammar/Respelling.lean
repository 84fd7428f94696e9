import Treewalk.Proofs.Grammar.Derivation
import Treewalk.Proofs.Scope.Alteration
import Treewalk.Proofs.Token.Respelling

/-!
# Other names in the grammar

The grammar does not look into names. Where a phrase is derived from tokens, and its tree is the same as
another but for names that were respelled, the other tree is derived from the same tokens but for the
identifiers that were respelled (`Derives.respelled`).
-/

namespace Treewalk

namespace Grammar

variable {n m : String}

/-- Tokens may be left as they are. -/
theorem respelled_refl (ts : List Token) : List.Forall₂ (Token.Respelled n m) ts ts :=
  List.forall₂_same.2 fun _ _ => .inl rfl

/-- A name is respelled as a token and as a name. -/
theorem respelled_ident (name : Name) (changes : Bool) :
    Token.Respelled n m (ident name) (ident (name.respelled n m changes)) := by
  obtain ⟨text, line⟩ := name
  unfold Name.respelled respelled
  split
  · next h =>
    obtain ⟨-, rfl⟩ := h
    exact .inr ⟨line, rfl, rfl⟩
  · exact .inl rfl

/-- Two trees of a kind of phrase are the same but for names. -/
def AltersTree (n m : String) : (p : Phrase) → p.Tree → p.Tree → Prop
  | .expression _, x, x' => ∃ g, Node.Alters (.anywhere n m) g (.expression x) (.expression x')
  | .clause, x, x' =>
    Option.Rel (fun y y' => ∃ g, Node.Alters (.anywhere n m) g (.expression y) (.expression y')) x x'
  | .arguments, xs, xs' => ∃ g, Node.Alters (.anywhere n m) g (.arguments xs) (.arguments xs')
  | .routine, r, r' => ∃ g kind, Node.Alters (.anywhere n m) g (.routine kind r) (.routine kind r')
  | .methods, ms, ms' => ∃ g, Node.Alters (.anywhere n m) g (.methods ms) (.methods ms')
  | .varDeclaration, s, s' | .statement _, s, s' | .declaration _, s, s' =>
    ∃ g, Node.Alters (.anywhere n m) g (.statement s) (.statement s')
  | .loopStart, s, s' =>
    Option.Rel (fun t t' => ∃ g, Node.Alters (.anywhere n m) g (.statement t) (.statement t')) s s'
  | .declarations, ss, ss' => ∃ g, Node.Alters (.anywhere n m) g (.body ss) (.body ss')

/-- Names with commas between them may be respelled. A name is one identifier, before and after. -/
theorem Separated.respelled {g : Bearing} {ts : List Token} {ns ns' : List Name}
    (h : Separated (fun us n => us = [ident n]) ts ns)
    (hns : List.Forall₂ ((NameRule.anywhere n m).declare g) ns ns') :
    ∃ ts', List.Forall₂ (Token.Respelled n m) ts ts' ∧
      Separated (fun us n => us = [ident n]) ts' ns' := by
  induction h generalizing ns' with
  | @one ts name h =>
    -- Each parameter is respelled as its token is; commas stay.
    obtain - | ⟨⟨changes, rfl⟩, - | -⟩ := hns
    subst h
    exact ⟨_, .cons (respelled_ident name changes) .nil, .one rfl⟩
  | @more ts us name names l h later ih =>
    obtain - | ⟨⟨changes, rfl⟩, hnames⟩ := hns
    subst h
    obtain ⟨us', hus, hseparated⟩ := ih hnames
    refine ⟨[ident (name.respelled n m changes)] ++ sym .comma l :: us',
      .cons (respelled_ident name changes) (.cons (.inl rfl) hus), .more ?_ hseparated⟩
    rfl

/-- Parameters may be respelled. -/
theorem Parameters.respelled {ts : List Token} {ns ns' : List Name} {g : Bearing} (h : Parameters ts ns)
    (hns : List.Forall₂ ((NameRule.anywhere n m).declare g) ns ns') :
    ∃ ts', List.Forall₂ (Token.Respelled n m) ts ts' ∧ Parameters ts' ns' := by
  cases h with
  | none =>
    cases hns
    exact ⟨[], .nil, .none⟩
  | some h count =>
    obtain ⟨ts', hts, hnew⟩ := h.respelled hns
    exact ⟨ts', hts, .some hnew (hns.length_eq ▸ count)⟩

/-- The condition of a loop is respelled. Where there is none, the literal that stands in the tree for it
holds no name. -/
theorem exists_condition {g : Bearing} {c : Option (Expr Unit)} {x : Expr Unit}
    (h : Node.Alters (.anywhere n m) g (.expression (c.getD (.literal (.boolean true)))) (.expression x)) :
    ∃ c', x = c'.getD (.literal (.boolean true)) ∧ AltersTree n m .clause c c' := by
  cases c with
  | none =>
    cases h
    exact ⟨none, rfl, .none⟩
  | some y => exact ⟨some x, rfl, .some ⟨g, h⟩⟩

/-- What is the same as a loop without an initial statement but for names is such a loop. -/
theorem exists_forLoop_none {g : Bearing} {c e : Option (Expr Unit)} {s t : Stmt Unit} {k : Bool}
    (h : Node.Alters (.anywhere n m) g (.statement (Stmt.forLoop none c e s)) (.statement t)) :
    ∃ c' e' s', t = Stmt.forLoop none c' e' s' ∧ AltersTree n m .clause c c' ∧
      AltersTree n m .clause e e' ∧ AltersTree n m (.statement k) s s' := by
  cases e with
  | none =>
    cases h with
    | «while» hx hs =>
      obtain ⟨c', rfl, hc⟩ := exists_condition hx
      exact ⟨c', none, _, rfl, hc, .none, _, hs⟩
  | some e =>
    -- The expression to go on with stands behind the body, in a block of the two.
    cases h with
    | «while» hx hbody =>
      obtain ⟨c', rfl, hc⟩ := exists_condition hx
      cases hbody with
      | block hbody =>
        cases hbody with
        | statements hs hlater =>
          cases hlater with
          | statements he hnone =>
            cases hnone
            cases he with
            | expression he => exact ⟨c', some _, _, rfl, hc, .some ⟨_, he⟩, _, hs⟩

/-- What is the same as a `for` loop but for names is a `for` loop. -/
theorem exists_forLoop {i : Option (Stmt Unit)} {c e : Option (Expr Unit)} {s t : Stmt Unit} {k : Bool}
    (h : AltersTree n m (.statement k) (Stmt.forLoop i c e s) t) :
    ∃ i' c' e' s', t = Stmt.forLoop i' c' e' s' ∧ AltersTree n m .loopStart i i' ∧
      AltersTree n m .clause c c' ∧ AltersTree n m .clause e e' ∧ AltersTree n m (.statement k) s s' := by
  obtain ⟨g, h⟩ := h
  cases i with
  | none =>
    obtain ⟨c', e', s', rfl, hc, he, hs⟩ := exists_forLoop_none h
    exact ⟨none, c', e', s', rfl, .none, hc, he, hs⟩
  | some i =>
    -- The initial statement stands in a block with the loop.
    cases h with
    | block h =>
      cases h with
      | statements hi hlater =>
        cases hlater with
        | statements hw hnone =>
          cases hnone
          obtain ⟨c', e', s', rfl, hc, he, hs⟩ := exists_forLoop_none hw
          exact ⟨some _, c', e', s', rfl, .some ⟨_, hi⟩, hc, he, hs⟩

/-- A tree that is the same but for names is derived from tokens that are the same but for names. -/
theorem Derives.respelled {nearest : Bool} {d : Nat} {p : Phrase} {ts : List Token} {t t' : p.Tree}
    (h : Derives nearest d p ts t) (ht : AltersTree n m p t t') :
    ∃ ts', List.Forall₂ (Token.Respelled n m) ts ts' ∧ Derives nearest d p ts' t' := by
  have hsame : ∀ t : Token, Token.Respelled n m t t := fun t => .inl rfl
  -- The other tree has the same nodes, so the rule that was used last can be used again, on the parts that
  -- are respelled by induction. The tokens of the rule itself stay as they are, but for the identifiers.
  induction h with
  | @atom d t e h =>
    obtain ⟨g, hx⟩ := ht
    cases hx with
    | «variable» hname =>
      obtain ⟨changes, rfl⟩ := hname
      -- Among the tokens that are expressions by themselves only an identifier is a variable.
      have htoken : ∀ {name : Name}, atom? t = some (.variable name ()) → t = ident name := by
        intro name h
        cases isAtom_of_atom? h
        rfl
      rw [htoken h]
      exact ⟨_, .cons (respelled_ident _ changes) .nil, .atom rfl⟩
    | literal | this => exact ⟨[t], .cons (hsame t) .nil, .atom h⟩
    -- No other node comes from a single token.
    | _ => cases isAtom_of_atom? h
  | grouping h ih =>
    obtain ⟨g, hx⟩ := ht
    cases hx with
    | grouping hx =>
      obtain ⟨ts', hts, hnew⟩ := ih ⟨_, hx⟩
      exact ⟨_, .cons (hsame _) (List.rel_append hts (respelled_refl _)), .grouping hnew⟩
  | lambda h ih =>
    obtain ⟨g, hx⟩ := ht
    cases hx with
    | lambda hx =>
      obtain ⟨ts', hts, hnew⟩ := ih ⟨_, _, hx⟩
      exact ⟨_, .cons (hsame _) hts, .lambda hnew⟩
  | callNothing h ih =>
    obtain ⟨g, hx⟩ := ht
    cases hx with
    | call hx hxs =>
      cases hxs
      obtain ⟨ts', hts, hnew⟩ := ih ⟨_, hx⟩
      exact ⟨_, List.rel_append hts (respelled_refl _), .callNothing hnew⟩
  | call h ha count ih iha =>
    obtain ⟨g, hx⟩ := ht
    cases hx with
    | call hx hxs =>
      obtain ⟨ts', hts, hnew⟩ := ih ⟨_, hx⟩
      obtain ⟨us', hus, hnew'⟩ := iha ⟨_, hxs⟩
      exact ⟨_, List.rel_append (List.rel_append hts (.cons (hsame _) hus)) (respelled_refl _),
        .call hnew hnew' (hxs.length_arguments ▸ count)⟩
  | get h ih =>
    obtain ⟨g, hx⟩ := ht
    cases hx with
    | get hx =>
      obtain ⟨ts', hts, hnew⟩ := ih ⟨_, hx⟩
      exact ⟨_, List.rel_append hts (respelled_refl _), .get hnew⟩
  | unary hop h ih =>
    obtain ⟨g, hx⟩ := ht
    cases hx with
    | unary hx =>
      obtain ⟨ts', hts, hnew⟩ := ih ⟨_, hx⟩
      exact ⟨_, .cons (hsame _) hts, .unary hop hnew⟩
  | join hl hop hr ihl ihr =>
    obtain ⟨g, hx⟩ := ht
    obtain ⟨op, rfl⟩ | ⟨op, line, rfl⟩ := join?_tree hop
    · cases hx with
      | logical hx hy =>
        obtain ⟨ts', hts, hleft⟩ := ihl ⟨_, hx⟩
        obtain ⟨us', hus, hright⟩ := ihr ⟨_, hy⟩
        exact ⟨_, List.rel_append hts (.cons (hsame _) hus), .join hleft hop hright⟩
    · cases hx with
      | binary hx hy =>
        obtain ⟨ts', hts, hleft⟩ := ihl ⟨_, hx⟩
        obtain ⟨us', hus, hright⟩ := ihr ⟨_, hy⟩
        exact ⟨_, List.rel_append hts (.cons (hsame _) hus), .join hleft hop hright⟩
  | tighter h ih =>
    obtain ⟨ts', hts, hnew⟩ := ih ht
    exact ⟨ts', hts, .tighter hnew⟩
  | assign h ih =>
    obtain ⟨g, hx⟩ := ht
    cases hx with
    | assign hname hx =>
      obtain ⟨changes, rfl⟩ := hname
      obtain ⟨ts', hts, hnew⟩ := ih ⟨_, hx⟩
      exact ⟨_, .cons (respelled_ident _ changes) (.cons (hsame _) hts), .assign hnew⟩
  | set h hv ih ihv =>
    obtain ⟨g, hx⟩ := ht
    cases hx with
    | set hx hy =>
      obtain ⟨us', hus, hvalue⟩ := ihv ⟨_, hx⟩
      obtain ⟨ts', hts, hobject⟩ := ih ⟨_, hy⟩
      exact ⟨_, List.rel_append hts (.cons (hsame _) (.cons (hsame _) (.cons (hsame _) hus))),
        .set hobject hvalue⟩
  | noClause =>
    cases ht
    exact ⟨[], .nil, .noClause⟩
  | clause h ih =>
    cases ht with
    | some ht =>
      obtain ⟨ts', hts, hnew⟩ := ih ht
      exact ⟨ts', hts, .clause hnew⟩
  | lastArgument h ih =>
    obtain ⟨g, hx⟩ := ht
    cases hx with
    | arguments hx hxs =>
      cases hxs
      obtain ⟨ts', hts, hnew⟩ := ih ⟨_, hx⟩
      exact ⟨ts', hts, .lastArgument hnew⟩
  | argument h later ih ihl =>
    obtain ⟨g, hx⟩ := ht
    cases hx with
    | arguments hx hxs =>
      obtain ⟨ts', hts, hnew⟩ := ih ⟨_, hx⟩
      obtain ⟨us', hus, hlater⟩ := ihl ⟨_, hxs⟩
      exact ⟨_, List.rel_append hts (.cons (hsame _) hus), .argument hnew hlater⟩
  | @routine d ts us ns body l₁ l₂ l₃ l₄ hp h ih =>
    obtain ⟨g, kind, hr⟩ := ht
    cases hr with
    | routine hps hss =>
      obtain ⟨ps', hps', hparameters⟩ := hp.respelled hps
      obtain ⟨us', hus, hnew⟩ := ih ⟨_, hss⟩
      have hbody := List.rel_append hps'
        (.cons (hsame (sym .rightParen l₂)) (.cons (hsame (sym .leftBrace l₃)) hus))
      exact ⟨_, .cons (hsame _) (List.rel_append hbody (respelled_refl _)), .routine hparameters hnew⟩
  | noMethod =>
    obtain ⟨g, hx⟩ := ht
    cases hx
    exact ⟨[], .nil, .noMethod⟩
  | method h later ih ihl =>
    obtain ⟨g, hx⟩ := ht
    cases hx with
    | methods hr hms =>
      obtain ⟨ts', hts, hnew⟩ := ih ⟨_, _, hr⟩
      obtain ⟨us', hus, hlater⟩ := ihl ⟨_, hms⟩
      exact ⟨_, .cons (hsame _) (List.rel_append hts hus), .method hnew hlater⟩
  | expression h ih =>
    obtain ⟨g, hx⟩ := ht
    cases hx with
    | expression hx =>
      obtain ⟨ts', hts, hnew⟩ := ih ⟨_, hx⟩
      exact ⟨_, List.rel_append hts (respelled_refl _), .expression hnew⟩
  | print h ih =>
    obtain ⟨g, hx⟩ := ht
    cases hx with
    | print hx =>
      obtain ⟨ts', hts, hnew⟩ := ih ⟨_, hx⟩
      exact ⟨_, .cons (hsame _) (List.rel_append hts (respelled_refl _)), .print hnew⟩
  | «return» h ih =>
    obtain ⟨g, hx⟩ := ht
    cases hx with
    | returnNothing =>
      obtain ⟨ts', hts, hnew⟩ := ih .none
      exact ⟨_, .cons (hsame _) (List.rel_append hts (respelled_refl _)), .return hnew⟩
    | «return» hx =>
      obtain ⟨ts', hts, hnew⟩ := ih (.some ⟨_, hx⟩)
      exact ⟨_, .cons (hsame _) (List.rel_append hts (respelled_refl _)), .return hnew⟩
  | block h ih =>
    obtain ⟨g, hx⟩ := ht
    cases hx with
    | block hx =>
      obtain ⟨ts', hts, hnew⟩ := ih ⟨_, hx⟩
      exact ⟨_, .cons (hsame _) (List.rel_append hts (respelled_refl _)), .block hnew⟩
  | ifThen hc h ihc ih =>
    obtain ⟨g, hx⟩ := ht
    cases hx with
    | ifThen hx hs =>
      obtain ⟨ts', hts, hcondition⟩ := ihc ⟨_, hx⟩
      obtain ⟨us', hus, hnew⟩ := ih ⟨_, hs⟩
      exact ⟨_, .cons (hsame _) (.cons (hsame _) (List.rel_append hts (.cons (hsame _) hus))),
        .ifThen hcondition hnew⟩
  | @ifElse d ts us vs c s s' k k' l₁ l₂ l₃ l₄ hc h closed h' ihc ih ih' =>
    obtain ⟨g, hx⟩ := ht
    cases hx with
    | ifElse hx hs hs' =>
      obtain ⟨ts', hts, hcondition⟩ := ihc ⟨_, hx⟩
      obtain ⟨us', hus, hnew⟩ := ih ⟨_, hs⟩
      obtain ⟨vs', hvs, hnew'⟩ := ih' ⟨_, hs'⟩
      have hfirst := List.rel_append hts (.cons (hsame (sym .rightParen l₃)) hus)
      exact ⟨_, .cons (hsame _) (.cons (hsame _) (List.rel_append hfirst (.cons (hsame _) hvs))),
        .ifElse hcondition hnew closed hnew'⟩
  | «while» hc h ihc ih =>
    obtain ⟨g, hx⟩ := ht
    cases hx with
    | «while» hx hs =>
      obtain ⟨ts', hts, hcondition⟩ := ihc ⟨_, hx⟩
      obtain ⟨us', hus, hnew⟩ := ih ⟨_, hs⟩
      exact ⟨_, .cons (hsame _) (.cons (hsame _) (List.rel_append hts (.cons (hsame _) hus))),
        .while hcondition hnew⟩
  | @«for» d ts us vs ws i c e s k l₁ l₂ l₃ l₄ hi hc hn h ihi ihc ihn ih =>
    -- A loop has no node of its own, so its parts are found in the nodes that stand for it.
    obtain ⟨i', c', e', s', rfl, hi', hc', he', hs'⟩ := exists_forLoop ht
    obtain ⟨ts', hts, hstart⟩ := ihi hi'
    obtain ⟨us', hus, hcondition⟩ := ihc hc'
    obtain ⟨vs', hvs, hnext⟩ := ihn he'
    obtain ⟨ws', hws, hbody⟩ := ih hs'
    have hclauses := List.rel_append (List.rel_append hts hus) (.cons (hsame (sym .semicolon l₃)) hvs)
    exact ⟨_, .cons (hsame _) (.cons (hsame _) (List.rel_append hclauses (.cons (hsame _) hws))),
      .for hstart hcondition hnext hbody⟩
  | noStart =>
    cases ht
    exact ⟨_, respelled_refl _, .noStart⟩
  | varStart h ih =>
    cases ht with
    | some ht =>
      obtain ⟨ts', hts, hnew⟩ := ih ht
      exact ⟨ts', hts, .varStart hnew⟩
  | expressionStart h ih =>
    cases ht with
    | some ht =>
      obtain ⟨g, hx⟩ := ht
      cases hx with
      | expression hx =>
        obtain ⟨ts', hts, hnew⟩ := ih ⟨_, hx⟩
        exact ⟨_, List.rel_append hts (respelled_refl _), .expressionStart hnew⟩
  | unset =>
    obtain ⟨g, hx⟩ := ht
    cases hx with
    | unset hname =>
      obtain ⟨changes, rfl⟩ := hname
      exact ⟨_, .cons (hsame _) (.cons (respelled_ident _ changes) (respelled_refl _)), .unset⟩
  | @var d ts n e l l' l'' h ih =>
    obtain ⟨g, hx⟩ := ht
    cases hx with
    | var hname hx =>
      obtain ⟨changes, rfl⟩ := hname
      obtain ⟨ts', hts, hnew⟩ := ih ⟨_, hx⟩
      have hvalue := List.rel_append hts (respelled_refl [sym .semicolon l''])
      exact ⟨_, .cons (hsame _) (.cons (respelled_ident _ changes) (.cons (hsame _) hvalue)), .var hnew⟩
  | varDeclaration h ih =>
    obtain ⟨ts', hts, hnew⟩ := ih ht
    exact ⟨ts', hts, .varDeclaration hnew⟩
  | function h ih =>
    obtain ⟨g, hx⟩ := ht
    cases hx with
    | function hname hr =>
      obtain ⟨ts', hts, hnew⟩ := ih ⟨_, _, hr⟩
      exact ⟨_, .cons (hsame _) (.cons (hsame _) hts), .function hnew⟩
  | @«class» d ts name ms l₁ l₂ l₃ h ih =>
    obtain ⟨g, hx⟩ := ht
    cases hx with
    | «class» hname hms =>
      obtain ⟨ts', hts, hnew⟩ := ih ⟨_, hms⟩
      have hmethods := List.rel_append hts (respelled_refl [sym .rightBrace l₃])
      exact ⟨_, .cons (hsame _) (.cons (hsame _) (.cons (hsame _) hmethods)), .class hnew⟩
  | statement h ih =>
    obtain ⟨ts', hts, hnew⟩ := ih ht
    exact ⟨ts', hts, .statement hnew⟩
  | noDeclaration =>
    obtain ⟨g, hx⟩ := ht
    cases hx
    exact ⟨[], .nil, .noDeclaration⟩
  | declarations h later ih ihl =>
    obtain ⟨g, hx⟩ := ht
    cases hx with
    | statements hs hss =>
      obtain ⟨ts', hts, hnew⟩ := ih ⟨_, hs⟩
      obtain ⟨us', hus, hlater⟩ := ihl ⟨_, hss⟩
      exact ⟨_, List.rel_append hts hus, .declarations hnew hlater⟩

end Grammar

end Treewalk
