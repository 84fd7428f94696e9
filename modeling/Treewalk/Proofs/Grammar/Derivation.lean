import Treewalk.Grammar.Statement

/-!
# The grammar

`Derives nearest depth p ts t` says that the tokens `ts` are a phrase of the kind `p` and that `t` is
its tree. The rules are those of the grammar, one for each way to build a phrase:

    program      →  declaration*
    declaration  →  "class" NAME "{" (NAME routine)* "}"  |  "fn" NAME routine  |  variable  |  statement
    routine      →  "(" parameters? ")" "{" declaration* "}"
    variable     →  "var" NAME ("=" expression)? ";"
    statement    →  expression ";"  |  "print" expression ";"  |  "return" expression? ";"
                 |  "{" declaration* "}"  |  "if" "(" expression ")" statement ("else" statement)?
                 |  "while" "(" expression ")" statement
                 |  "for" "(" (";" | variable | expression ";") expression? ";" expression? ")" statement

and, for expressions, the ten levels of `Precedence`. The operators between operands associate to the
left, assignment and the operators before an operand to the right. There are at most `maxArguments`
parameters and arguments.

A statement of the grammar can be read in two ways if it has fewer `else`s than `if`s. With `nearest`
every `else` belongs to the nearest `if` that is still open: what stands between an `if` and its `else`
must not end with an `if` that has none. Without `nearest` it may belong to any. The number counts how
deeply constructs are nested; `Derives.of_length_le` says that it never needs to exceed the number of
tokens.
-/

namespace Treewalk.Grammar

/-! ## Phrases -/

/-- The levels of expressions, from the loosest to the tightest. -/
inductive Precedence where
  | assignment | disjunction | conjunction | equality | comparison | sum | product
  | operand | call | primary
deriving DecidableEq

/-- The next tighter level. Nothing is tighter than what stands alone. -/
def Precedence.tighter : Precedence → Precedence
  | assignment => disjunction
  | disjunction => conjunction
  | conjunction => equality
  | equality => comparison
  | comparison => sum
  | sum => product
  | product => operand
  | operand => call
  | call | primary => primary

/-- The tree that a token makes of the operands around it, if it is an operator of a level. -/
def Precedence.join? (p : Precedence) (t : Token) : Option (Expr Unit → Expr Unit → Expr Unit) :=
  match p, t.lexeme with
  | disjunction, .keyword .or_ => some (.logical .or)
  | conjunction, .keyword .and_ => some (.logical .and)
  | equality, .symbol .bangEqual => some (.binary .notEqual t.line)
  | equality, .symbol .equalEqual => some (.binary .equal t.line)
  | comparison, .symbol .greater => some (.binary .greater t.line)
  | comparison, .symbol .greaterEqual => some (.binary .greaterEqual t.line)
  | comparison, .symbol .less => some (.binary .less t.line)
  | comparison, .symbol .lessEqual => some (.binary .lessEqual t.line)
  | sum, .symbol .minus => some (.binary .subtract t.line)
  | sum, .symbol .plus => some (.binary .add t.line)
  | product, .symbol .slash => some (.binary .divide t.line)
  | product, .symbol .star => some (.binary .multiply t.line)
  | _, _ => none

/-- The operator before an operand that a token is. -/
def prefixOp? (t : Token) : Option UnaryOp :=
  match t.lexeme with
  | .symbol .bang => some .not
  | .symbol .minus => some .negate
  | _ => none

/-- The expression that a token is by itself. -/
def atom? (t : Token) : Option (Expr Unit) :=
  match t.lexeme with
  | .keyword .false_ => some (.literal (.boolean false))
  | .keyword .true_ => some (.literal (.boolean true))
  | .keyword .nil => some (.literal .nil)
  | .number _ value => some (.literal (.number value))
  | .string body => some (.literal (.string (String.ofList (unescaped body))))
  | .keyword .this => some (.this t.line ())
  | .identifier text => some (.variable ⟨text, t.line⟩ ())
  | _ => none

/-- The kinds of phrases. -/
inductive Phrase where
  | expression (p : Precedence)
  /-- An expression or nothing. -/
  | clause
  /-- One or more expressions, with commas between them. -/
  | arguments
  | routine
  | methods
  | varDeclaration
  /-- What stands before the condition of a `for` loop, its semicolon included. -/
  | loopStart
  /-- A statement. It is `dangling` if it ends with an `if` that has no `else`. -/
  | statement (dangling : Bool)
  /-- A declaration or a statement. -/
  | declaration (dangling : Bool)
  | declarations

/-- The trees of a kind of phrase. -/
@[reducible] def Phrase.Tree : Phrase → Type
  | expression _ => Expr Unit
  | clause => Option (Expr Unit)
  | arguments => List (Expr Unit)
  | routine => Routine Unit
  | methods => List (Name × Routine Unit)
  | varDeclaration | statement _ | declaration _ => Stmt Unit
  | loopStart => Option (Stmt Unit)
  | declarations => List (Stmt Unit)

/-- The token of a symbol on a line. -/
abbrev sym (s : Symbol) (line : Int) : Token := ⟨.symbol s, line⟩

/-- The token of a keyword on a line. -/
abbrev word (k : Keyword) (line : Int) : Token := ⟨.keyword k, line⟩

/-- The token of a name. -/
abbrev ident (n : Name) : Token := ⟨.identifier n.text, n.line⟩

/-- The tokens that are expressions by themselves: literals, the receiver and names. -/
inductive IsAtom : Token → Expr Unit → Prop
  | false {line : Int} : IsAtom (word .false_ line) (.literal (.boolean false))
  | true {line : Int} : IsAtom (word .true_ line) (.literal (.boolean true))
  | nil {line : Int} : IsAtom (word .nil line) (.literal .nil)
  | number {digits : String} {value : Float} {line : Int} :
    IsAtom ⟨.number digits value, line⟩ (.literal (.number value))
  | string {body : List Char} {line : Int} :
    IsAtom ⟨.string body, line⟩ (.literal (.string (String.ofList (unescaped body))))
  | this {line : Int} : IsAtom (word .this line) (.this line ())
  | variable {text : String} {line : Int} :
    IsAtom ⟨.identifier text, line⟩ (.variable ⟨text, line⟩ ())

/-- The grammar knows every token that is an expression on its own. -/
theorem isAtom_of_atom? {t : Token} {e : Expr Unit} (h : atom? t = some e) : IsAtom t e := by
  obtain ⟨lexeme, line⟩ := t
  unfold atom? at h
  simp only at h
  split at h <;> cases h
  all_goals constructor

/-- An operator before an operand is an exclamation mark or a minus sign. -/
theorem prefixOp?_cases {t : Token} {op : UnaryOp} (h : prefixOp? t = some op) :
    (∃ line, t = sym .bang line ∧ op = .not) ∨ ∃ line, t = sym .minus line ∧ op = .negate := by
  obtain ⟨lexeme, line⟩ := t
  unfold prefixOp? at h
  simp only at h
  split at h <;> cases h
  · exact .inl ⟨line, rfl, rfl⟩
  · exact .inr ⟨line, rfl, rfl⟩

/-- Items with commas between them, at least one. -/
inductive Separated {α : Type} (Item : List Token → α → Prop) : List Token → List α → Prop
  | one {ts : List Token} {a : α} (h : Item ts a) : Separated Item ts [a]
  | more {ts us : List Token} {a : α} {as : List α} {l : Int} (h : Item ts a)
    (later : Separated Item us as) : Separated Item (ts ++ sym .comma l :: us) (a :: as)

/-- The parameters of a routine, at most `maxArguments`. -/
inductive Parameters : List Token → List Name → Prop
  | none : Parameters [] []
  | some {ts : List Token} {ns : List Name} (h : Separated (fun us n => us = [ident n]) ts ns)
    (count : ns.length ≤ maxArguments) : Parameters ts ns

/-! ## Rules -/

/-- The phrases of the grammar with their trees, nested at most so many levels deep. -/
inductive Derives (nearest : Bool) : Nat → (p : Phrase) → List Token → p.Tree → Prop
  -- Expressions.
  | atom {d : Nat} {t : Token} {e : Expr Unit} (h : atom? t = some e) :
    Derives nearest d (.expression .primary) [t] e
  | grouping {d : Nat} {ts : List Token} {e : Expr Unit} {l l' : Int}
    (h : Derives nearest d (.expression .assignment) ts e) :
    Derives nearest (d + 1) (.expression .primary)
      (sym .leftParen l :: ts ++ [sym .rightParen l']) (.grouping e)
  | lambda {d : Nat} {ts : List Token} {r : Routine Unit} {l : Int}
    (h : Derives nearest d .routine ts r) :
    Derives nearest d (.expression .primary) (word .fn l :: ts) (.lambda r)
  | callNothing {d : Nat} {ts : List Token} {f : Expr Unit} {l line : Int}
    (h : Derives nearest d (.expression .call) ts f) :
    Derives nearest d (.expression .call) (ts ++ [sym .leftParen l, sym .rightParen line])
      (.call f line [])
  | call {d : Nat} {ts us : List Token} {f : Expr Unit} {as : List (Expr Unit)} {l line : Int}
    (h : Derives nearest (d + 1) (.expression .call) ts f) (ha : Derives nearest d .arguments us as)
    (count : as.length ≤ maxArguments) :
    Derives nearest (d + 1) (.expression .call)
      (ts ++ sym .leftParen l :: us ++ [sym .rightParen line]) (.call f line as)
  | get {d : Nat} {ts : List Token} {e : Expr Unit} {n : Name} {l : Int}
    (h : Derives nearest d (.expression .call) ts e) :
    Derives nearest d (.expression .call) (ts ++ [sym .dot l, ident n]) (.get e n)
  | unary {d : Nat} {t : Token} {op : UnaryOp} {ts : List Token} {e : Expr Unit}
    (hop : prefixOp? t = some op) (h : Derives nearest d (.expression .operand) ts e) :
    Derives nearest (d + 1) (.expression .operand) (t :: ts) (.unary op t.line e)
  | join {d : Nat} {p : Precedence} {ts us : List Token} {t : Token}
    {f : Expr Unit → Expr Unit → Expr Unit} {left right : Expr Unit}
    (hl : Derives nearest d (.expression p) ts left) (hop : p.join? t = some f)
    (hr : Derives nearest d (.expression p.tighter) us right) :
    Derives nearest d (.expression p) (ts ++ t :: us) (f left right)
  | tighter {d : Nat} {p : Precedence} {ts : List Token} {e : Expr Unit}
    (h : Derives nearest d (.expression p.tighter) ts e) : Derives nearest d (.expression p) ts e
  | assign {d : Nat} {ts : List Token} {n : Name} {v : Expr Unit} {l : Int}
    (h : Derives nearest d (.expression .assignment) ts v) :
    Derives nearest (d + 1) (.expression .assignment) (ident n :: sym .equal l :: ts) (.assign n () v)
  | set {d : Nat} {ts us : List Token} {o v : Expr Unit} {n : Name} {l l' : Int}
    (h : Derives nearest (d + 1) (.expression .call) ts o)
    (hv : Derives nearest d (.expression .assignment) us v) :
    Derives nearest (d + 1) (.expression .assignment)
      (ts ++ sym .dot l :: ident n :: sym .equal l' :: us) (.set o n v)
  | noClause {d : Nat} : Derives nearest d .clause [] none
  | clause {d : Nat} {ts : List Token} {e : Expr Unit}
    (h : Derives nearest d (.expression .assignment) ts e) : Derives nearest d .clause ts (some e)
  | lastArgument {d : Nat} {ts : List Token} {e : Expr Unit}
    (h : Derives nearest d (.expression .assignment) ts e) : Derives nearest d .arguments ts [e]
  | argument {d : Nat} {ts us : List Token} {e : Expr Unit} {es : List (Expr Unit)} {l : Int}
    (h : Derives nearest d (.expression .assignment) ts e)
    (later : Derives nearest d .arguments us es) :
    Derives nearest d .arguments (ts ++ sym .comma l :: us) (e :: es)
  -- Routines.
  | routine {d : Nat} {ts us : List Token} {ns : List Name} {body : List (Stmt Unit)}
    {l₁ l₂ l₃ l₄ : Int} (hp : Parameters ts ns) (h : Derives nearest d .declarations us body) :
    Derives nearest (d + 1) .routine
      (sym .leftParen l₁ :: ts ++ sym .rightParen l₂ :: sym .leftBrace l₃ :: us ++
        [sym .rightBrace l₄]) (.mk ns body)
  | noMethod {d : Nat} : Derives nearest d .methods [] []
  | method {d : Nat} {ts us : List Token} {n : Name} {r : Routine Unit}
    {ms : List (Name × Routine Unit)} (h : Derives nearest d .routine ts r)
    (later : Derives nearest d .methods us ms) :
    Derives nearest d .methods (ident n :: ts ++ us) ((n, r) :: ms)
  -- Statements.
  | expression {d : Nat} {ts : List Token} {e : Expr Unit} {l : Int}
    (h : Derives nearest d (.expression .assignment) ts e) :
    Derives nearest d (.statement false) (ts ++ [sym .semicolon l]) (.expression e)
  | print {d : Nat} {ts : List Token} {e : Expr Unit} {l l' : Int}
    (h : Derives nearest d (.expression .assignment) ts e) :
    Derives nearest d (.statement false) (word .print l :: ts ++ [sym .semicolon l']) (.print e)
  | return {d : Nat} {ts : List Token} {v : Option (Expr Unit)} {line l : Int}
    (h : Derives nearest d .clause ts v) :
    Derives nearest d (.statement false) (word .return_ line :: ts ++ [sym .semicolon l])
      (.return line v)
  | block {d : Nat} {ts : List Token} {body : List (Stmt Unit)} {l l' : Int}
    (h : Derives nearest d .declarations ts body) :
    Derives nearest (d + 1) (.statement false)
      (sym .leftBrace l :: ts ++ [sym .rightBrace l']) (.block body)
  | ifThen {d : Nat} {ts us : List Token} {c : Expr Unit} {s : Stmt Unit} {k : Bool} {l₁ l₂ l₃ : Int}
    (hc : Derives nearest (d + 1) (.expression .assignment) ts c)
    (h : Derives nearest d (.statement k) us s) :
    Derives nearest (d + 1) (.statement true)
      (word .if_ l₁ :: sym .leftParen l₂ :: ts ++ sym .rightParen l₃ :: us) (.branch c s none)
  | ifElse {d : Nat} {ts us vs : List Token} {c : Expr Unit} {s s' : Stmt Unit} {k k' : Bool}
    {l₁ l₂ l₃ l₄ : Int} (hc : Derives nearest (d + 1) (.expression .assignment) ts c)
    (h : Derives nearest d (.statement k) us s) (closed : nearest = true → k = false)
    (h' : Derives nearest d (.statement k') vs s') :
    Derives nearest (d + 1) (.statement k')
      (word .if_ l₁ :: sym .leftParen l₂ :: ts ++ sym .rightParen l₃ :: us ++ word .else_ l₄ :: vs)
      (.branch c s (some s'))
  | while {d : Nat} {ts us : List Token} {c : Expr Unit} {s : Stmt Unit} {k : Bool} {l₁ l₂ l₃ : Int}
    (hc : Derives nearest (d + 1) (.expression .assignment) ts c)
    (h : Derives nearest d (.statement k) us s) :
    Derives nearest (d + 1) (.statement k)
      (word .while_ l₁ :: sym .leftParen l₂ :: ts ++ sym .rightParen l₃ :: us) (.while c s)
  | for {d : Nat} {ts us vs ws : List Token} {i : Option (Stmt Unit)} {c n : Option (Expr Unit)}
    {s : Stmt Unit} {k : Bool} {l₁ l₂ l₃ l₄ : Int} (hi : Derives nearest (d + 1) .loopStart ts i)
    (hc : Derives nearest (d + 1) .clause us c) (hn : Derives nearest (d + 1) .clause vs n)
    (h : Derives nearest d (.statement k) ws s) :
    Derives nearest (d + 1) (.statement k)
      (word .for_ l₁ :: sym .leftParen l₂ :: ts ++ us ++ sym .semicolon l₃ :: vs ++
        sym .rightParen l₄ :: ws) (.forLoop i c n s)
  | noStart {d : Nat} {l : Int} : Derives nearest d .loopStart [sym .semicolon l] none
  | varStart {d : Nat} {ts : List Token} {s : Stmt Unit} (h : Derives nearest d .varDeclaration ts s) :
    Derives nearest d .loopStart ts (some s)
  | expressionStart {d : Nat} {ts : List Token} {e : Expr Unit} {l : Int}
    (h : Derives nearest d (.expression .assignment) ts e) :
    Derives nearest d .loopStart (ts ++ [sym .semicolon l]) (some (.expression e))
  -- Declarations.
  | unset {d : Nat} {n : Name} {l l' : Int} :
    Derives nearest d .varDeclaration [word .var l, ident n, sym .semicolon l'] (.var n none)
  | var {d : Nat} {ts : List Token} {n : Name} {e : Expr Unit} {l l' l'' : Int}
    (h : Derives nearest d (.expression .assignment) ts e) :
    Derives nearest d .varDeclaration
      (word .var l :: ident n :: sym .equal l' :: ts ++ [sym .semicolon l'']) (.var n (some e))
  | varDeclaration {d : Nat} {ts : List Token} {s : Stmt Unit}
    (h : Derives nearest d .varDeclaration ts s) : Derives nearest d (.declaration false) ts s
  | function {d : Nat} {ts : List Token} {n : Name} {r : Routine Unit} {l : Int}
    (h : Derives nearest d .routine ts r) :
    Derives nearest d (.declaration false) (word .fn l :: ident n :: ts) (.function n r)
  | class {d : Nat} {ts : List Token} {n : Name} {ms : List (Name × Routine Unit)} {l₁ l₂ l₃ : Int}
    (h : Derives nearest d .methods ts ms) :
    Derives nearest d (.declaration false)
      (word .class_ l₁ :: ident n :: sym .leftBrace l₂ :: ts ++ [sym .rightBrace l₃]) (.class n ms)
  | statement {d : Nat} {ts : List Token} {s : Stmt Unit} {k : Bool}
    (h : Derives nearest d (.statement k) ts s) : Derives nearest d (.declaration k) ts s
  | noDeclaration {d : Nat} : Derives nearest d .declarations [] []
  | declarations {d : Nat} {ts us : List Token} {s : Stmt Unit} {ss : List (Stmt Unit)} {k : Bool}
    (h : Derives nearest d (.declaration k) ts s) (later : Derives nearest d .declarations us ss) :
    Derives nearest d .declarations (ts ++ us) (s :: ss)

/-- Declarations after declarations are declarations. -/
theorem Derives.append {nearest : Bool} {d : Nat} {ts us : List Token} {ss ss' : List (Stmt Unit)}
    (h : Derives nearest d .declarations ts ss) (h' : Derives nearest d .declarations us ss') :
    Derives nearest d .declarations (ts ++ us) (ss ++ ss') := by
  match h with
  | .noDeclaration => exact h'
  | .declarations h later =>
    rw [List.append_assoc]
    exact .declarations h (later.append h')

/-- What may be called is an expression. -/
theorem Derives.of_call {nearest : Bool} {d : Nat} {ts : List Token} {e : Expr Unit}
    (h : Derives nearest d (.expression .call) ts e) :
    Derives nearest d (.expression .assignment) ts e :=
  .tighter <| .tighter <| .tighter <| .tighter <| .tighter <| .tighter <| .tighter <| .tighter h

/-- What stands alone is an expression. -/
theorem Derives.of_atom {nearest : Bool} {d : Nat} {t : Token} {e : Expr Unit} (h : atom? t = some e) :
    Derives nearest d (.expression .assignment) [t] e := .of_call (.tighter (.atom h))

/-- A name is an expression. -/
theorem Derives.variable {nearest : Bool} {d : Nat} (n : Name) :
    Derives nearest d (.expression .assignment) [ident n] (.variable n ()) := .of_atom rfl

/-- Without declarations there are no tokens. -/
theorem Derives.eq_nil {nearest : Bool} {d : Nat} {ts : List Token}
    (h : Derives nearest d .declarations ts []) : ts = [] := by
  cases h with
  | noDeclaration => rfl

/-! ## Targets of assignments -/

/-- An operator makes a tree of its own kind. -/
theorem join?_tree {p : Precedence} {t : Token} {f : Expr Unit → Expr Unit → Expr Unit}
    (h : p.join? t = some f) : (∃ op, f = .logical op) ∨ ∃ op line, f = .binary op line := by
  unfold Precedence.join? at h
  split at h <;> cases h
  case h_1 | h_2 => exact .inl ⟨_, rfl⟩
  all_goals exact .inr ⟨_, _, rfl⟩

/-- Where a value can be assigned to an expression, the tokens show it: a name stands alone, and a
property is the last thing of what it stands after. -/
def ShowsTarget (nearest : Bool) (d : Nat) : (p : Phrase) → List Token → p.Tree → Prop
  | .expression _, ts, .variable n _ => ts = [ident n]
  | .expression _, ts, .get e n => ∃ us l, ts = us ++ [sym .dot l, ident n] ∧
      Derives nearest d (.expression .call) us e
  | _, _, _ => True

/-- A derived expression can be assigned to if and only if it shows a target, by induction on the
derivation. -/
theorem Derives.showsTarget {nearest : Bool} {d : Nat} {p : Phrase} {ts : List Token} {t : p.Tree}
    (h : Derives nearest d p ts t) : ShowsTarget nearest d p ts t := by
  induction h with
  -- Only a variable and a property are targets; an operator, a call or a literal is none.
  | atom h =>
    cases isAtom_of_atom? h with
    | «variable» => exact rfl
    | _ => exact trivial
  | get h => exact ⟨_, _, rfl, h⟩
  | join hl hop hr =>
    obtain ⟨op, rfl⟩ | ⟨op, line, rfl⟩ := join?_tree hop
    · exact trivial
    · exact trivial
  -- A tighter expression is the same tree.
  | @tighter d p ts e h ih => cases e <;> exact ih
  | _ => exact trivial

/-! ## Programs -/

/-- The tokens are a program of the grammar, whichever `if` an `else` belongs to. -/
def IsProgram (tokens : List Token) : Prop := ∃ depth program,
  Derives false depth .declarations tokens program

/-- The tokens are a program whose tree is the given one if every `else` belongs to the nearest `if`
that is still open. -/
def IsTreeOf (program : List (Stmt Unit)) (tokens : List Token) : Prop :=
  ∃ depth, Derives true depth .declarations tokens program

end Treewalk.Grammar
