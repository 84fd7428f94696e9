import Treewalk.Proofs.Outline.Item
import Treewalk.Tree.Outline

/-!
# Outlines as nested lists

The outline of a tree is the text of an item: a node is a list that begins with its head, and names and
literals are words and quoted strings (`Expr.toList_outline`, `Stmt.toList_outline`). A function has a
head of two words, which are two items of its list.
-/

namespace Treewalk

variable {ρ : Type}

/-! ## The items of an outline -/

/-- The item of a literal. -/
@[simp] def Literal.item : Literal → Item
  | string s => .quoted s
  | value => .word value.outline

mutual

/-- The item of an expression. -/
@[simp] def Expr.item : Expr ρ → Item
  | .literal value => value.item
  | .grouping inner => .list [.word "group", inner.item]
  | .unary op _ operand => .list [.word op.spelling, operand.item]
  | .binary op _ left right => .list [.word op.spelling, left.item, right.item]
  | .logical op left right => .list [.word op.spelling, left.item, right.item]
  | .variable name _ => .word name.text
  | .assign name _ value => .list [.word "=", .word name.text, value.item]
  | .call callee _ arguments => .list (.word "call" :: callee.item :: Expr.items arguments)
  | .get object property => .list [.word ".", object.item, .word property.text]
  | .set object property value =>
    .list [.word ".=", object.item, .word property.text, value.item]
  | .this _ _ => .word thisName
  | .lambda routine => .list (.word "fn" :: routine.items)

/-- The items of expressions. -/
@[simp] def Expr.items : List (Expr ρ) → List Item
  | [] => []
  | e :: es => e.item :: Expr.items es

/-- The item of an expression, if it is not missing. -/
@[simp] def Expr.optionItems : Option (Expr ρ) → List Item
  | none => []
  | some e => [e.item]

/-- The item of a statement. -/
@[simp] def Stmt.item : Stmt ρ → Item
  | .expression value => .list [.word ";", value.item]
  | .print value => .list [.word "print", value.item]
  | .var name initializer => .list (.word "var" :: .word name.text :: Expr.optionItems initializer)
  | .block body => .list (.word "block" :: Stmt.items body)
  | .branch condition onTrue onFalse =>
    .list (.word "if" :: condition.item :: onTrue.item :: Stmt.optionItems onFalse)
  | .while condition body => .list [.word "while", condition.item, body.item]
  | .function name routine => .list (.word "fn" :: .word name.text :: routine.items)
  | .return _ value => .list (.word "return" :: Expr.optionItems value)
  | .class name methods => .list (.word "class" :: .word name.text :: Routine.allItems methods)

/-- The items of statements. -/
@[simp] def Stmt.items : List (Stmt ρ) → List Item
  | [] => []
  | s :: ss => s.item :: Stmt.items ss

/-- The item of a statement, if it is not missing. -/
@[simp] def Stmt.optionItems : Option (Stmt ρ) → List Item
  | none => []
  | some s => [s.item]

/-- The items of a routine: its parameters and the statements of its body. -/
@[simp] def Routine.items : Routine ρ → List Item
  | .mk parameters body => .list (parameters.map fun n => .word n.text) :: Stmt.items body

/-- The items of methods. -/
@[simp] def Routine.allItems : List (Name × Routine ρ) → List Item
  | [] => []
  | (name, routine) :: methods =>
    .list (.word "fn" :: .word name.text :: routine.items) :: Routine.allItems methods

end

/-- A node of an outline is a list that begins with a word. -/
theorem toList_parenthesized {head : String} {parts : List String} {items : List Item}
    (h : parts.map String.toList = Item.texts items) :
    (parenthesized head parts).toList = (Item.list (.word head :: items)).text := by
  simp [parenthesized, Item.text, Item.texts, h]

/-- A head of two words is the same as one word and the other after it. -/
theorem parenthesized_append (word name : String) (parts : List String) :
    parenthesized (word ++ " " ++ name) parts = parenthesized word (name :: parts) := by
  simp only [parenthesized, String.intercalate_cons_append, String.intercalate_cons_cons,
    String.append_assoc]

/-- A routine is outlined as its parameters and its statements, behind a head. -/
theorem Routine.outline_eq (head : String) (r : Routine ρ) :
    r.outline head = parenthesized head (parameterOutline r.parameters :: Stmt.outlines r.body) := by
  cases r
  rfl

/-- A routine with a name is the text of a list that begins with that name. -/
theorem Routine.toList_outline_named (name : String) (r : Routine ρ)
    (h : (parameterOutline r.parameters :: Stmt.outlines r.body).map String.toList =
      Item.texts r.items) :
    (r.outline ("fn " ++ name)).toList = (Item.list (.word "fn" :: .word name :: r.items)).text := by
  rw [r.outline_eq, show "fn " = "fn" ++ " " from rfl, parenthesized_append]
  exact toList_parenthesized (by rw [List.map_cons, h]; rfl)

/-- A literal is the text of one item. -/
theorem Literal.toList_outline (value : Literal) : value.outline.toList = value.item.text := by
  cases value <;> simp [Literal.item, Item.text, Literal.outline, Text.quoted]

/-- Parameters are the text of a list of words. -/
theorem toList_parameterOutline (parameters : List Name) :
    (parameterOutline parameters).toList =
      (Item.list (parameters.map fun n => .word n.text)).text := by
  have htexts : Item.texts (parameters.map fun n => .word n.text) =
      (parameters.map Name.text).map String.toList := by
    induction parameters with
    | nil => rfl
    | cons n ns ih => simp [Item.texts, Item.text, ih]
  simp [parameterOutline, Item.text, htexts]

mutual

/-- An expression is the text of its item, part by part. -/
theorem Expr.toList_outline : (e : Expr ρ) → e.outline.toList = e.item.text
  | .literal value => value.toList_outline
  | .grouping inner => toList_parenthesized (by simp [Item.texts, inner.toList_outline])
  | .unary op _ operand => toList_parenthesized (by simp [Item.texts, operand.toList_outline])
  | .binary op _ left right | .logical op left right =>
    toList_parenthesized (by simp [Item.texts, left.toList_outline, right.toList_outline])
  | .variable name _ => rfl
  | .assign name _ value =>
    toList_parenthesized (by simp [Item.texts, Item.text, value.toList_outline])
  | .call callee _ arguments =>
    toList_parenthesized (by
      simp [Item.texts, callee.toList_outline, Expr.toList_outlines arguments])
  | .get object property =>
    toList_parenthesized (by simp [Item.texts, Item.text, object.toList_outline])
  | .set object property value =>
    toList_parenthesized (by
      simp [Item.texts, Item.text, object.toList_outline, value.toList_outline])
  | .this _ _ => rfl
  -- A routine is outlined as its parameters and statements, as is its item.
  | .lambda routine => by
    rw [Expr.outline, routine.outline_eq]
    exact toList_parenthesized routine.toList_parts

/-- Expressions are the texts of their items. -/
theorem Expr.toList_outlines : (es : List (Expr ρ)) →
    (Expr.outlines es).map String.toList = Item.texts (Expr.items es)
  | [] => rfl
  | e :: es => by
    simp [Expr.outlines, Expr.items, Item.texts, e.toList_outline, Expr.toList_outlines es]

/-- So is an expression that may be missing. -/
theorem Expr.toList_optionOutline : (e : Option (Expr ρ)) →
    (Expr.optionOutline e).map String.toList = Item.texts (Expr.optionItems e)
  | none => rfl
  | some e => by simp [Expr.optionOutline, Expr.optionItems, Item.texts, e.toList_outline]

/-- A statement is the text of its item, part by part. -/
theorem Stmt.toList_outline : (s : Stmt ρ) → s.outline.toList = s.item.text
  | .expression value | .print value =>
    toList_parenthesized (by simp [Item.texts, value.toList_outline])
  | .var name initializer =>
    toList_parenthesized (by
      simp [Item.texts, Item.text, Expr.toList_optionOutline initializer])
  | .block body => toList_parenthesized (Stmt.toList_outlines body)
  | .branch condition onTrue onFalse =>
    toList_parenthesized (by
      simp [Item.texts, condition.toList_outline, onTrue.toList_outline,
        Stmt.toList_optionOutline onFalse])
  | .while condition body =>
    toList_parenthesized (by simp [Item.texts, condition.toList_outline, body.toList_outline])
  | .function name routine => routine.toList_outline_named name.text routine.toList_parts
  | .return _ value => toList_parenthesized (Expr.toList_optionOutline value)
  -- The head of the list has two words.
  | .class name methods => by
    refine (congrArg String.toList (parenthesized_append "class" name.text _)).trans
      (toList_parenthesized ?_)
    simp [Item.texts, Item.text, Routine.toList_outlines methods]

/-- Statements are the texts of their items. -/
theorem Stmt.toList_outlines : (ss : List (Stmt ρ)) →
    (Stmt.outlines ss).map String.toList = Item.texts (Stmt.items ss)
  | [] => rfl
  | s :: ss => by
    simp [Stmt.outlines, Stmt.items, Item.texts, s.toList_outline, Stmt.toList_outlines ss]

/-- So is a statement that may be missing. -/
theorem Stmt.toList_optionOutline : (s : Option (Stmt ρ)) →
    (Stmt.optionOutline s).map String.toList = Item.texts (Stmt.optionItems s)
  | none => rfl
  | some s => by simp [Stmt.optionOutline, Stmt.optionItems, Item.texts, s.toList_outline]

/-- So are the parts of a routine. -/
theorem Routine.toList_parts : (r : Routine ρ) →
    (parameterOutline r.parameters :: Stmt.outlines r.body).map String.toList = Item.texts r.items
  | .mk parameters body => by
    simp [Routine.parameters, Routine.body, Routine.items, Item.texts, toList_parameterOutline,
      Stmt.toList_outlines body]

/-- Methods are the texts of their items. -/
theorem Routine.toList_outlines : (ms : List (Name × Routine ρ)) →
    (Routine.outlines ms).map String.toList = Item.texts (Routine.allItems ms)
  | [] => rfl
  | (name, routine) :: ms => by
    simp [Routine.outlines, Routine.allItems, Item.texts, Routine.toList_outlines ms,
      routine.toList_outline_named name.text routine.toList_parts]

end

end Treewalk
