import Treewalk.Proofs.Number.Display
import Treewalk.Proofs.Outline.Tree
import Treewalk.Proofs.Scope.Place
import Treewalk.Proofs.Token.Word

/-!
# Outlines can be read back

What an outline says of a tree is all of it but its lines. `Item.expr?` and `Item.stmt?` read the tree
from the item of its outline: the head of a node and the number of its parts say what kind of node it
is, so a part that is missing is noticed.
-/

namespace Treewalk

variable {ρ : Type}

/-! ## Trees without their lines -/

/-- A name without its line. -/
@[simp] def Name.withoutLine (n : Name) : Name := ⟨n.text, 0⟩

mutual

/-- An expression without the lines in it. -/
@[simp] def Expr.withoutLines : Expr ρ → Expr ρ
  | .literal value => .literal value
  | .grouping inner => .grouping inner.withoutLines
  | .unary op _ operand => .unary op 0 operand.withoutLines
  | .binary op _ left right => .binary op 0 left.withoutLines right.withoutLines
  | .logical op left right => .logical op left.withoutLines right.withoutLines
  | .variable name mark => .variable name.withoutLine mark
  | .assign name mark value => .assign name.withoutLine mark value.withoutLines
  | .call callee _ arguments => .call callee.withoutLines 0 (Expr.allWithoutLines arguments)
  | .get object property => .get object.withoutLines property.withoutLine
  | .set object property value =>
    .set object.withoutLines property.withoutLine value.withoutLines
  | .this _ mark => .this 0 mark
  | .lambda routine => .lambda routine.withoutLines

/-- Expressions without the lines in them. -/
@[simp] def Expr.allWithoutLines : List (Expr ρ) → List (Expr ρ)
  | [] => []
  | e :: es => e.withoutLines :: Expr.allWithoutLines es

/-- An expression that may be missing without the lines in it. -/
@[simp] def Expr.optionWithoutLines : Option (Expr ρ) → Option (Expr ρ)
  | none => none
  | some e => some e.withoutLines

/-- A statement without the lines in it. -/
@[simp] def Stmt.withoutLines : Stmt ρ → Stmt ρ
  | .expression value => .expression value.withoutLines
  | .print value => .print value.withoutLines
  | .var name initializer => .var name.withoutLine (Expr.optionWithoutLines initializer)
  | .block body => .block (Stmt.allWithoutLines body)
  | .branch condition onTrue onFalse =>
    .branch condition.withoutLines onTrue.withoutLines (Stmt.optionWithoutLines onFalse)
  | .while condition body => .while condition.withoutLines body.withoutLines
  | .function name routine => .function name.withoutLine routine.withoutLines
  | .return _ value => .return 0 (Expr.optionWithoutLines value)
  | .class name methods => .class name.withoutLine (Routine.allWithoutLines methods)

/-- Statements without the lines in them. -/
@[simp] def Stmt.allWithoutLines : List (Stmt ρ) → List (Stmt ρ)
  | [] => []
  | s :: ss => s.withoutLines :: Stmt.allWithoutLines ss

/-- A statement that may be missing without the lines in it. -/
@[simp] def Stmt.optionWithoutLines : Option (Stmt ρ) → Option (Stmt ρ)
  | none => none
  | some s => some s.withoutLines

/-- A routine without the lines in it. -/
@[simp] def Routine.withoutLines : Routine ρ → Routine ρ
  | .mk parameters body => .mk (parameters.map Name.withoutLine) (Stmt.allWithoutLines body)

/-- Methods without the lines in them. -/
@[simp] def Routine.allWithoutLines : List (Name × Routine ρ) → List (Name × Routine ρ)
  | [] => []
  | (name, routine) :: methods =>
    (name.withoutLine, routine.withoutLines) :: Routine.allWithoutLines methods

end

/-! ## Reading -/

/-- The operator before an operand that is spelled so. -/
def UnaryOp.ofSpelling? : String → Option UnaryOp
  | "-" => some .negate
  | "!" => some .not
  | _ => none

/-- The tree that the operator between operands that is spelled so makes of them. -/
def joinOfSpelling? : String → Option (Expr Unit → Expr Unit → Expr Unit)
  | "==" => some (.binary .equal 0)
  | "!=" => some (.binary .notEqual 0)
  | ">" => some (.binary .greater 0)
  | ">=" => some (.binary .greaterEqual 0)
  | "<" => some (.binary .less 0)
  | "<=" => some (.binary .lessEqual 0)
  | "+" => some (.binary .add 0)
  | "-" => some (.binary .subtract 0)
  | "*" => some (.binary .multiply 0)
  | "/" => some (.binary .divide 0)
  | "and" => some (.logical .and)
  | "or" => some (.logical .or)
  | _ => none

namespace Item

/-- The name that an item is. -/
def name? : Item → Option Name
  | .word w => some ⟨w, 0⟩
  | _ => none

variable (number : String → Float)

/-- The expression that a word is. Numbers are read by a function that is given. -/
def wordExpr (w : String) : Expr Unit :=
  if w = "nil" then .literal .nil
  else if w = "true" then .literal (.boolean true)
  else if w = "false" then .literal (.boolean false)
  else if w = thisName then .this 0 ()
  else if w.toList.head?.any Char.isDigit then .literal (.number (number w))
  else .variable ⟨w, 0⟩ ()

mutual

/-- The expression that an item is. -/
@[simp] def expr? : Item → Option (Expr Unit)
  | .quoted s => some (.literal (.string s))
  | .word w => some (wordExpr number w)
  | .list [.word "group", inner] => Expr.grouping <$> inner.expr?
  | .list (.word "call" :: callee :: arguments) =>
    return .call (← callee.expr?) 0 (← exprs? arguments)
  | .list [.word "=", .word name, value] => Expr.assign ⟨name, 0⟩ () <$> value.expr?
  | .list [.word ".", object, .word property] => (Expr.get · ⟨property, 0⟩) <$> object.expr?
  | .list [.word ".=", object, .word property, value] =>
    return .set (← object.expr?) ⟨property, 0⟩ (← value.expr?)
  | .list (.word "fn" :: .list parameters :: body) =>
    return .lambda (.mk (← parameters.mapM name?) (← stmts? body))
  | .list [.word op, operand] => return .unary (← UnaryOp.ofSpelling? op) 0 (← operand.expr?)
  | .list [.word op, left, right] => return (← joinOfSpelling? op) (← left.expr?) (← right.expr?)
  | _ => none

/-- The expressions that items are. -/
@[simp] def exprs? : List Item → Option (List (Expr Unit))
  | [] => some []
  | item :: items => return (← item.expr?) :: (← exprs? items)

/-- The statement that an item is. -/
@[simp] def stmt? : Item → Option (Stmt Unit)
  | .list [.word ";", value] => Stmt.expression <$> value.expr?
  | .list [.word "print", value] => Stmt.print <$> value.expr?
  | .list [.word "var", .word name] => some (.var ⟨name, 0⟩ none)
  | .list [.word "var", .word name, value] => (Stmt.var ⟨name, 0⟩ ∘ some) <$> value.expr?
  | .list (.word "block" :: body) => Stmt.block <$> stmts? body
  | .list [.word "if", condition, onTrue] =>
    return .branch (← condition.expr?) (← onTrue.stmt?) none
  | .list [.word "if", condition, onTrue, onFalse] =>
    return .branch (← condition.expr?) (← onTrue.stmt?) (some (← onFalse.stmt?))
  | .list [.word "while", condition, body] => return .while (← condition.expr?) (← body.stmt?)
  | .list (.word "fn" :: .word name :: .list parameters :: body) =>
    return .function ⟨name, 0⟩ (.mk (← parameters.mapM name?) (← stmts? body))
  | .list [.word "return"] => some (.return 0 none)
  | .list [.word "return", value] => (Stmt.return 0 ∘ some) <$> value.expr?
  | .list (.word "class" :: .word name :: methods) => Stmt.class ⟨name, 0⟩ <$> methods? methods
  | _ => none

/-- The statements that items are. -/
@[simp] def stmts? : List Item → Option (List (Stmt Unit))
  | [] => some []
  | item :: items => return (← item.stmt?) :: (← stmts? items)

/-- The methods that items are. -/
@[simp] def methods? : List Item → Option (List (Name × Routine Unit))
  | [] => some []
  | .list (.word "fn" :: .word name :: .list parameters :: body) :: items =>
    return (⟨name, 0⟩, .mk (← parameters.mapM name?) (← stmts? body)) :: (← methods? items)
  | _ => none

end

end Item

/-! ## Legible trees -/

/-- A literal can be written: a number is finite and not negative. -/
def Literal.Legible : Literal → Prop
  | number x => Number.IsMagnitude x
  | _ => True

/-- The names and the literals of a part of a program can be written. -/
inductive Node.Legible : Node ρ → Prop
  -- Expressions.
  | literal {v : Literal} (h : v.Legible) : Legible (.expression (.literal v))
  | grouping {x : Expr ρ} (h : Legible (.expression x)) : Legible (.expression (.grouping x))
  | unary {op : UnaryOp} {line : Int} {x : Expr ρ} (h : Legible (.expression x)) :
    Legible (.expression (.unary op line x))
  | binary {op : BinaryOp} {line : Int} {x y : Expr ρ} (h : Legible (.expression x))
    (hy : Legible (.expression y)) : Legible (.expression (.binary op line x y))
  | logical {op : LogicalOp} {x y : Expr ρ} (h : Legible (.expression x))
    (hy : Legible (.expression y)) : Legible (.expression (.logical op x y))
  | variable {n : Name} {a : ρ} (hn : IsName n.text) : Legible (.expression (.variable n a))
  | assign {n : Name} {a : ρ} {x : Expr ρ} (hn : IsName n.text) (h : Legible (.expression x)) :
    Legible (.expression (.assign n a x))
  | call {x : Expr ρ} {line : Int} {xs : List (Expr ρ)} (h : Legible (.expression x))
    (hxs : Legible (.arguments xs)) : Legible (.expression (.call x line xs))
  | get {x : Expr ρ} {n : Name} (h : Legible (.expression x)) (hn : IsName n.text) :
    Legible (.expression (.get x n))
  | set {x y : Expr ρ} {n : Name} (h : Legible (.expression x)) (hn : IsName n.text)
    (hy : Legible (.expression y)) : Legible (.expression (.set x n y))
  | this {line : Int} {a : ρ} : Legible (.expression (.this line a))
  | lambda {r : Routine ρ} {kind : RoutineKind} (h : Legible (.routine kind r)) :
    Legible (.expression (.lambda r))
  | noArguments : Legible (.arguments [])
  | arguments {x : Expr ρ} {xs : List (Expr ρ)} (h : Legible (.expression x))
    (hxs : Legible (.arguments xs)) : Legible (.arguments (x :: xs))
  -- Statements.
  | expression {x : Expr ρ} (h : Legible (.expression x)) : Legible (.statement (.expression x))
  | print {x : Expr ρ} (h : Legible (.expression x)) : Legible (.statement (.print x))
  | unset {n : Name} (hn : IsName n.text) : Legible (.statement (.var n none))
  | var {n : Name} {x : Expr ρ} (hn : IsName n.text) (h : Legible (.expression x)) :
    Legible (.statement (.var n (some x)))
  | block {ss : List (Stmt ρ)} (h : Legible (.body ss)) : Legible (.statement (.block ss))
  | ifThen {x : Expr ρ} {s : Stmt ρ} (h : Legible (.expression x)) (hs : Legible (.statement s)) :
    Legible (.statement (.branch x s none))
  | ifElse {x : Expr ρ} {s t : Stmt ρ} (h : Legible (.expression x)) (hs : Legible (.statement s))
    (ht : Legible (.statement t)) : Legible (.statement (.branch x s (some t)))
  | while {x : Expr ρ} {s : Stmt ρ} (h : Legible (.expression x)) (hs : Legible (.statement s)) :
    Legible (.statement (.while x s))
  | function {n : Name} {r : Routine ρ} {kind : RoutineKind} (hn : IsName n.text)
    (h : Legible (.routine kind r)) : Legible (.statement (.function n r))
  | returnNothing {line : Int} : Legible (.statement (.return line none))
  | return {line : Int} {x : Expr ρ} (h : Legible (.expression x)) :
    Legible (.statement (.return line (some x)))
  | class {n : Name} {ms : List (Name × Routine ρ)} (hn : IsName n.text) (h : Legible (.methods ms)) :
    Legible (.statement (.class n ms))
  | noStatements : Legible (.body [])
  | statements {s : Stmt ρ} {ss : List (Stmt ρ)} (h : Legible (.statement s))
    (hss : Legible (.body ss)) : Legible (.body (s :: ss))
  -- Routines.
  | routine {kind : RoutineKind} {ps : List Name} {ss : List (Stmt ρ)}
    (hps : ∀ n ∈ ps, IsName n.text) (h : Legible (.body ss)) : Legible (.routine kind (.mk ps ss))
  | noMethods : Legible (.methods [])
  | methods {n : Name} {r : Routine ρ} {kind : RoutineKind} {ms : List (Name × Routine ρ)}
    (hn : IsName n.text) (h : Legible (.routine kind r)) (hms : Legible (.methods ms)) :
    Legible (.methods ((n, r) :: ms))

/-- The items that a part of a program adds to an outline. -/
def Node.items : Node ρ → List Item
  | .expression x => [x.item]
  | .arguments xs => Expr.items xs
  | .statement s => [s.item]
  | .body ss => Stmt.items ss
  | .routine _ r => r.items
  | .methods ms => Routine.allItems ms

/-! ## Words -/

/-- A digit begins no name. -/
theorem isDigit_eq_false {c : Char} (h : isNameStart c = true) : c.isDigit = false := by
  refine Bool.eq_false_iff.2 fun hdigit => ?_
  rw [Char.isDigit_iff_toNat] at hdigit
  unfold isNameStart Char.isAlpha Char.isUpper Char.isLower at h
  simp only [Bool.or_eq_true, Bool.and_eq_true, decide_eq_true_eq, UInt32.le_iff_toNat_le] at h
  have hle : c.toNat ≤ 57 := hdigit.2
  rcases h with (⟨hle', -⟩ | ⟨hle', -⟩) | rfl
  · have : 65 ≤ c.toNat := hle'
    omega
  · have : 97 ≤ c.toNat := hle'
    omega
  · exact absurd hle (by decide)

/-- A word is bare if the tests that its characters pass rule out all that would end it, or make it
begin like a list or a string. -/
theorem isBare_of_tests {w : String} {start rest : Char → Bool}
    (hstart : w.toList.head?.any start = true) (hrest : w.toList.all rest = true)
    (hopening : ['(', '\'', '"'].any start = false) (hending : [' ', ')', '\n'].any rest = false) :
    IsBare w := by
  -- A character that passes a test is none of those that do not.
  have hne : ∀ {test : Char → Bool} {cs : List Char} {c d : Char}, test c = true →
      cs.any test = false → d ∈ cs → c ≠ d := by
    rintro test cs c d hc hcs hd rfl
    exact List.any_eq_false.1 hcs c hd hc
  refine ⟨?_, List.all_eq_true.2 fun c hc => ?_⟩
  · cases hw : w.toList with
    | nil =>
      rw [hw] at hstart
      cases hstart
    | cons c cs =>
      rw [hw] at hstart
      have hc := fun d => @hne _ _ _ d hstart hopening
      simpa [and_assoc] using hc
  · have hc := fun d => @hne _ _ _ d (List.all_eq_true.1 hrest c hc) hending
    simpa [endsItem, and_assoc] using hc

/-- Names are bare words. -/
theorem IsName.isBare {w : String} (h : IsName w) : IsBare w :=
  isBare_of_tests h.start h.rest (by decide) (by decide)

/-- Displayed numbers are bare words. -/
theorem isBare_display {x : Float} (h : Number.IsMagnitude x) : IsBare (Number.display x) :=
  isBare_of_tests (Number.head_display h) (Number.all_display h) (by decide) (by decide)

/-- Prefix operators are bare words. -/
theorem UnaryOp.isBare_spelling (op : UnaryOp) : IsBare op.spelling := by cases op <;> decide

/-- Infix operators are bare words. -/
theorem BinaryOp.isBare_spelling (op : BinaryOp) : IsBare op.spelling := by cases op <;> decide

/-- Logical operators are bare words. -/
theorem LogicalOp.isBare_spelling (op : LogicalOp) : IsBare op.spelling := by cases op <;> decide

/-- The items of a text can be read back. -/
def Item.AllPlain (items : List Item) : Prop := ∀ item ∈ items, item.Plain

section

variable {item : Item} {items : List Item}

/-- No items are plain. -/
theorem allPlain_nil : Item.AllPlain [] := nofun

/-- Items are plain one by one. -/
theorem Item.AllPlain.cons (h : AllPlain [item]) (hs : AllPlain items) : AllPlain (item :: items) :=
  List.forall_mem_cons.2 ⟨h item (List.mem_singleton_self item), hs⟩

/-- A bare word is plain. -/
theorem allPlain_word {w : String} (h : IsBare w) : Item.AllPlain [.word w] :=
  List.forall_mem_singleton.2 (.word h)

/-- A list of plain items is plain. -/
theorem allPlain_list (h : Item.AllPlain items) : Item.AllPlain [.list items] :=
  List.forall_mem_singleton.2 (.list h)

/-- A node of an outline. -/
theorem allPlain_node {head : String} (hhead : IsBare head) (h : Item.AllPlain items) :
    Item.AllPlain [.list (.word head :: items)] :=
  allPlain_list ((allPlain_word hhead).cons h)

end

/-- A legible literal is written as a plain item. -/
theorem Literal.Legible.allPlain {v : Literal} (h : v.Legible) : Item.AllPlain [v.item] := by
  cases v with
  | nil => exact allPlain_word (by decide)
  | boolean b => cases b <;> exact allPlain_word (by decide)
  | number x => exact allPlain_word (isBare_display h)
  | string s => exact List.forall_mem_singleton.2 (.quoted s)

/-- The words of a legible part of a program can be told from what follows them. -/
theorem Node.Legible.allPlain {node : Node ρ} (h : node.Legible) : Item.AllPlain node.items := by
  -- A node is a list of a bare word and the plain items of its parts.
  induction h with
  | literal h => exact h.allPlain
  | «variable» hn => exact allPlain_word hn.isBare
  | this => exact allPlain_word (by decide)
  | @unary op line x h ih => exact allPlain_node op.isBare_spelling ih
  | @binary op line x y h hy ih ihy => exact allPlain_node op.isBare_spelling (ih.cons ihy)
  | @logical op x y h hy ih ihy => exact allPlain_node op.isBare_spelling (ih.cons ihy)
  | grouping h ih | lambda h ih | expression h ih | print h ih | block h ih | «return» h ih =>
    exact allPlain_node (by decide) ih
  | assign hn h ih | var hn h ih | function hn h ih | «class» hn h ih =>
    exact allPlain_node (by decide) ((allPlain_word hn.isBare).cons ih)
  | call h hy ih ihy | ifThen h hy ih ihy | «while» h hy ih ihy =>
    exact allPlain_node (by decide) (ih.cons ihy)
  | get h hn ih => exact allPlain_node (by decide) (ih.cons (allPlain_word hn.isBare))
  | set h hn hy ih ihy =>
    exact allPlain_node (by decide) (ih.cons ((allPlain_word hn.isBare).cons ihy))
  | ifElse h hs ht ih ihs iht => exact allPlain_node (by decide) (ih.cons (ihs.cons iht))
  | unset hn => exact allPlain_node (by decide) (allPlain_word hn.isBare)
  | returnNothing => exact allPlain_node (by decide) allPlain_nil
  | noArguments | noStatements | noMethods => exact allPlain_nil
  | arguments h hs ih ihs | statements h hs ih ihs => exact ih.cons ihs
  -- The parameters are a list of their own.
  | @routine kind ps ss hps h ih =>
    refine (allPlain_list ?_).cons ih
    intro item hitem
    obtain ⟨n, hn, rfl⟩ := List.mem_map.1 hitem
    exact .word (hps n hn).isBare
  | methods hn h hms ih ihms =>
    exact (allPlain_node (by decide) ((allPlain_word hn.isBare).cons ih)).cons ihms

/-! ## Legible trees are read back -/

section

variable {number : String → Float}

/-- A word that is a name is read as one. -/
theorem wordExpr_name {w : String} (h : IsName w) :
    Item.wordExpr number w = .variable ⟨w, 0⟩ () := by
  -- A name is none of the words with a meaning, which are keywords.
  have hkeyword := (isName_iff.1 h).2
  have hnil : w ≠ "nil" := (hkeyword .nil).symm
  have htrue : w ≠ "true" := (hkeyword .true_).symm
  have hfalse : w ≠ "false" := (hkeyword .false_).symm
  have hthis : w ≠ thisName := (hkeyword .this).symm
  -- And it does not begin with a digit.
  have hdigit : w.toList.head?.any Char.isDigit = false := by
    have hstart := h.start
    cases hw : w.toList with
    | nil => rfl
    | cons c cs =>
      rw [hw] at hstart
      exact isDigit_eq_false hstart
  unfold Item.wordExpr
  rw [if_neg hnil, if_neg htrue, if_neg hfalse, if_neg hthis, hdigit]
  rfl

/-- A word that begins with a digit is read as a number. -/
theorem wordExpr_number {w : String} (h : w.toList.head?.any Char.isDigit = true) :
    Item.wordExpr number w = .literal (.number (number w)) := by
  have hne : ∀ word : String, word.toList.head?.any Char.isDigit = false → w ≠ word := by
    rintro word hword rfl
    rw [h] at hword
    cases hword
  unfold Item.wordExpr
  rw [if_neg (hne "nil" rfl), if_neg (hne "true" rfl), if_neg (hne "false" rfl),
    if_neg (hne thisName rfl), if_pos h]

/-- Parameters are read as they were written, without their lines. -/
@[simp] theorem mapM_name? (ps : List Name) :
    ps.mapM (Item.name? ∘ fun n => Item.word n.text) = some (ps.map Name.withoutLine) := by
  induction ps with
  | nil => rfl
  | cons n ns ih => simp [Item.name?, ih]

/-- What is read from the items of a part of a program is the part, without its lines. -/
@[simp] def Node.ReadsBack (number : String → Float) : Node Unit → Prop
  | .expression x => x.item.expr? number = some x.withoutLines
  | .arguments xs => Item.exprs? number (Expr.items xs) = some (Expr.allWithoutLines xs)
  | .statement s => s.item.stmt? number = some s.withoutLines
  | .body ss => Item.stmts? number (Stmt.items ss) = some (Stmt.allWithoutLines ss)
  | .routine _ r => Item.stmts? number (Stmt.items r.body) = some (Stmt.allWithoutLines r.body)
  | .methods ms => Item.methods? number (Routine.allItems ms) = some (Routine.allWithoutLines ms)

/-- Whatever is legible is read back from its items, by induction on it as a node. -/
theorem Node.Legible.readsBack (hnumber : ∀ x, Number.IsMagnitude x → number (Number.display x) = x)
    {node : Node Unit} (h : node.Legible) : node.ReadsBack number := by
  -- The operators are told by their spellings. All other nodes begin with a word of their own.
  induction h with
  | @literal v h =>
    cases v with
    | number x =>
      have hword : Item.wordExpr number (Number.display x) = _ := wordExpr_number (Number.head_display h)
      rw [hnumber x h] at hword
      exact congrArg some hword
    | nil => rfl
    | boolean b => cases b <;> rfl
    | string s => rfl
  | «variable» hn => exact congrArg some (wordExpr_name hn)
  | @unary op line x h ih => cases op <;> simp_all [UnaryOp.spelling, UnaryOp.ofSpelling?]
  | @binary op line x y h hy ih ihy => cases op <;> simp_all [BinaryOp.spelling, joinOfSpelling?]
  | @logical op x y h hy ih ihy => cases op <;> simp_all [LogicalOp.spelling, joinOfSpelling?]
  | grouping h ih | assign hn h ih | get h hn ih | expression h ih | print h ih | var hn h ih
  | block h ih | «return» h ih | «class» hn h ih => simp_all
  | call h hxs ih ihxs | set h hn hy ih ihy | arguments h hxs ih ihxs | statements h hxs ih ihxs
  | ifThen h hs ih ihs | «while» h hs ih ihs => simp_all
  | ifElse h hs ht ih ihs iht => simp_all
  | @lambda r kind h ih | @function n r kind hn h ih =>
    cases r
    simp_all [Routine.body]
  | @methods n r kind ms hn h hms ih ihms =>
    cases r
    simp_all [Routine.body]
  | this | noArguments | noStatements | noMethods | unset hn | returnNothing => rfl
  | routine hps h ih => exact ih

end

end Treewalk
