import Treewalk.Value

/-!
# Operations on values

Arithmetic and comparison are those of binary floating-point numbers, division by zero included. Only
equality takes operands of all kinds; a sum takes two numbers or two strings.
-/

namespace Treewalk

/-- What is wrong with the operands of an operator. -/
inductive OperandFault where
  | number
  | numbers
  | numbersOrStrings
deriving DecidableEq, Repr

/-- The message for wrong operands. -/
def OperandFault.message : OperandFault → String
  | number => "operand must be a number"
  | numbers => "operands must be numbers"
  | numbersOrStrings => "operands must be two numbers or two strings"

/-- The fault of operands that are not all numbers, by how many they are. -/
def OperandFault.ofCount (count : Nat) : OperandFault := if count = 1 then number else numbers

/-- Checks that operands are all numbers. -/
def checkNumbers (operands : List Value) : Except OperandFault Unit :=
  if operands.all Value.isNumber then .ok () else .error (.ofCount operands.length)

/-- The value of an operator before its operand. -/
def UnaryOp.apply (op : UnaryOp) (operand : Value) : Except OperandFault Value :=
  match op with
  | not => .ok (.boolean !operand.isTruthy)
  | negate => do
    checkNumbers [operand]
    return .number (-operand.toNumber)

/-- The value of an operator on two numbers. -/
def BinaryOp.ofNumbers (op : BinaryOp) (x y : Float) : Value :=
  match op with
  | equal => .boolean (x == y)
  | notEqual => .boolean (x != y)
  | greater => .boolean (decide (y < x))
  | greaterEqual => .boolean (decide (y ≤ x))
  | less => .boolean (decide (x < y))
  | lessEqual => .boolean (decide (x ≤ y))
  | add => .number (x + y)
  | subtract => .number (x - y)
  | multiply => .number (x * y)
  | divide => .number (x / y)

/-- The value of an operator between two operands. -/
def BinaryOp.apply (op : BinaryOp) (left right : Value) : Except OperandFault Value :=
  match op, left, right with
  | equal, _, _ => .ok (.boolean (left.same right))
  | notEqual, _, _ => .ok (.boolean !(left.same right))
  | add, .string s, .string t => .ok (.string (s ++ t))
  | add, .number x, .number y => .ok (op.ofNumbers x y)
  | add, _, _ => .error .numbersOrStrings
  | _, _, _ => do
    checkNumbers [left, right]
    return op.ofNumbers left.toNumber right.toNumber

/-- Whether the left operand alone decides a logical operator. -/
def LogicalOp.isDecided (op : LogicalOp) (left : Value) : Bool :=
  match op with
  | or => left.isTruthy
  | and => !left.isTruthy

/-! ## What operators make -/

/-- What is made of operands that pass the check is made of them. -/
theorem eq_of_checkNumbers {operands : List Value} {v w : Value}
    (h : (do checkNumbers operands; return v : Except OperandFault Value) = .ok w) : w = v := by
  cases hcheck : checkNumbers operands with
  | ok _ =>
    rw [hcheck] at h
    exact (Except.ok.inj h).symm
  | error f =>
    rw [hcheck] at h
    cases h

/-- An operator makes no functions, classes and instances. -/
theorem UnaryOp.exists_literal {op : UnaryOp} {operand v : Value} (h : op.apply operand = .ok v) :
    ∃ l : Literal, v = l.value := by
  cases op with
  | not =>
    cases h
    exact ⟨.boolean _, rfl⟩
  | negate => exact ⟨.number _, eq_of_checkNumbers h⟩

/-- An operator on numbers makes a boolean or a number. -/
theorem BinaryOp.exists_literal_ofNumbers (op : BinaryOp) (x y : Float) :
    ∃ l : Literal, op.ofNumbers x y = l.value := by
  cases op with
  | add | subtract | multiply | divide => exact ⟨.number _, rfl⟩
  | _ => exact ⟨.boolean _, rfl⟩

/-- An operator makes no functions, classes and instances. -/
theorem BinaryOp.exists_literal {op : BinaryOp} {left right v : Value}
    (h : op.apply left right = .ok v) : ∃ l : Literal, v = l.value := by
  unfold apply at h
  split at h
  case h_1 | h_2 =>
    cases h
    exact ⟨.boolean _, rfl⟩
  case h_3 =>
    cases h
    exact ⟨.string _, rfl⟩
  case h_4 =>
    cases h
    exact BinaryOp.exists_literal_ofNumbers _ _ _
  case h_5 => cases h
  case h_6 =>
    rw [eq_of_checkNumbers h]
    exact BinaryOp.exists_literal_ofNumbers _ _ _

end Treewalk
