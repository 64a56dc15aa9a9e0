import Lox.Jlox.Scanner
import Lox.Lib.Binary64

/-!
# Values and operators of jlox

A value is a Java object: `null`, a `Boolean`, a `Double`, a `String`, or one of the objects of the
interpreter (functions, classes, instances), which are compared by identity and so are numbers here.
-/

namespace Lox.Jlox

open Clox (Double)

/-- What Java does with doubles beyond `Double`: `<=`, and `Double.equals` of boxed numbers. -/
class Boxed (N : Type) extends Double N where
  le : N → N → Bool
  equals : N → N → Bool

/-- The identity of an object. -/
abbrev Ref := ℕ

/-- The values of the interpreter. -/
inductive Value (N : Type) where
  | nil
  | bool (b : Bool)
  | number (n : N)
  | string (s : Name)
  | obj (a : Ref)
  deriving DecidableEq, Repr

/-- `RuntimeError`. -/
structure RuntimeError (N : Type) where
  token : Token N
  message : String
  deriving DecidableEq, Repr

variable {N : Type}

/-- `isTruthy`. -/
def isTruthy : Value N → Bool
  | .nil => false
  | .bool b => b
  | _ => true

/-- `equals` of the objects. -/
def Value.equals [Boxed N] : Value N → Value N → Bool
  | .bool a, .bool b => a = b
  | .number a, .number b => Boxed.equals a b
  | .string a, .string b => a = b
  | .obj a, .obj b => a = b
  | _, _ => false

/-- `isEqual`. -/
def isEqual [Boxed N] (a b : Value N) : Bool :=
  match a, b with
  | .nil, .nil => true
  | .nil, _ => false
  | a, b => a.equals b

/-- `checkNumberOperands`, and what is done with the numbers. -/
def numberOperands (operator : Token N) (left right : Value N) (f : N → N → Value N) :
    Except (RuntimeError N) (Value N) :=
  match left, right with
  | .number a, .number b => .ok (f a b)
  | _, _ => .error ⟨operator, "Operands must be numbers."⟩

/-- `visitBinaryExpr`, once the operands are evaluated. -/
def visitBinary [Boxed N] (operator : Token N) (left right : Value N) :
    Except (RuntimeError N) (Value N) :=
  match operator.type with
  | .greater => numberOperands operator left right fun a b => .bool (Double.lt b a)
  | .greaterEqual => numberOperands operator left right fun a b => .bool (Boxed.le b a)
  | .less => numberOperands operator left right fun a b => .bool (Double.lt a b)
  | .lessEqual => numberOperands operator left right fun a b => .bool (Boxed.le a b)
  | .minus => numberOperands operator left right fun a b => .number (Double.sub a b)
  | .bangEqual => .ok (.bool !isEqual left right)
  | .equalEqual => .ok (.bool (isEqual left right))
  | .plus =>
    match left, right with
    | .number a, .number b => .ok (.number (Double.add a b))
    | .string a, .string b => .ok (.string (a ++ b))
    | _, _ => .error ⟨operator, "Operands must be two numbers or two strings."⟩
  | .slash => numberOperands operator left right fun a b => .number (Double.div a b)
  | .star => numberOperands operator left right fun a b => .number (Double.mul a b)
  | _ => .ok .nil

/-- `visitUnaryExpr`, once the operand is evaluated. -/
def visitUnary [Boxed N] (operator : Token N) (right : Value N) :
    Except (RuntimeError N) (Value N) :=
  match operator.type with
  | .bang => .ok (.bool !isTruthy right)
  | .minus =>
    match right with
    | .number n => .ok (.number (Double.neg n))
    | _ => .error ⟨operator, "Operand must be a number."⟩
  | _ => .ok .nil

/-! ### Classes -/

/-- `LoxClass`; `M` are the functions that are its methods.  Its fields are final, so a class is a
value, with its superclass in it. -/
inductive LoxClass (M : Type) where
  | mk (name : Name) (superclass : Option (LoxClass M)) (methods : Name → Option M)

namespace LoxClass

variable {M : Type}

/-- The field `name`. -/
def name : LoxClass M → Name
  | mk name _ _ => name

/-- The field `superclass`. -/
def superclass : LoxClass M → Option (LoxClass M)
  | mk _ superclass _ => superclass

/-- `findMethod`. -/
def findMethod (name : Name) : LoxClass M → Option M
  | mk _ superclass methods =>
    match methods name with
    | some method => some method
    | none =>
      match superclass with
      | some superclass => superclass.findMethod name
      | none => none

theorem findMethod_mk (name : Name) (className : Name) (superclass : Option (LoxClass M))
    (methods : Name → Option M) :
    (mk className superclass methods).findMethod name =
      (methods name).orElse fun _ => superclass.bind (findMethod name) := by
  rw [findMethod.eq_def]
  simp only
  cases methods name with
  | some method => rfl
  | none => cases superclass <;> rfl

/-- The loop of `visitClassStmt` that fills the map of the methods. -/
def putMethods : List (Name × M) → (Name → Option M) → Name → Option M
  | [], methods => methods
  | (name, method) :: rest, methods => putMethods rest (Function.update methods name (some method))

end LoxClass

/-! ### Doubles -/

/-- Integers in the place of doubles, for examples. -/
instance : Boxed ℤ where
  le a b := a ≤ b
  equals a b := a = b

/-- What doubles compute when they are not compared. -/
class Arithmetic where
  strtod : List Char → Binary64.Bits
  add : Binary64.Bits → Binary64.Bits → Binary64.Bits
  sub : Binary64.Bits → Binary64.Bits → Binary64.Bits
  mul : Binary64.Bits → Binary64.Bits → Binary64.Bits
  div : Binary64.Bits → Binary64.Bits → Binary64.Bits
  neg : Binary64.Bits → Binary64.Bits

/-- The doubles, compared as IEEE 754 and Java say. -/
instance [Arithmetic] : Boxed Binary64.Bits where
  strtod := Arithmetic.strtod
  add := Arithmetic.add
  sub := Arithmetic.sub
  mul := Arithmetic.mul
  div := Arithmetic.div
  neg := Arithmetic.neg
  lt := Binary64.lt
  eq := Binary64.eq
  le := Binary64.le
  equals := Binary64.equals

end Lox.Jlox
