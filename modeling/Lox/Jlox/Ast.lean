import Lox.Jlox.Scanner

/-!
# The syntax trees of jlox

`Expr` and `Stmt` have the node classes of `Expr.java` and `Stmt.java`.  The resolver files a
distance under each expression that refers to a variable; here it is part of the node, and its type
`D` is `Unit` as long as there is none.
-/

namespace Lox.Jlox

/-- `Expr`. -/
inductive Expr (N D : Type) where
  | assign (name : Token N) (value : Expr N D) (distance : D)
  | binary (left : Expr N D) (operator : Token N) (right : Expr N D)
  | call (callee : Expr N D) (paren : Token N) (arguments : List (Expr N D))
  | get (object : Expr N D) (name : Token N)
  | grouping (expression : Expr N D)
  | literal (value : Literal N)
  | logical (left : Expr N D) (operator : Token N) (right : Expr N D)
  | set (object : Expr N D) (name : Token N) (value : Expr N D)
  | super_ (keyword method : Token N) (distance : D)
  | this_ (keyword : Token N) (distance : D)
  | unary (operator : Token N) (right : Expr N D)
  | variable_ (name : Token N) (distance : D)

/-- `Stmt`; `null` stands where a declaration had an error.  The methods of a class are `function`
statements, its superclass is a variable. -/
inductive Stmt (N D : Type) where
  | block (statements : List (Stmt N D))
  | class_ (name : Token N) (superclass : Option (Token N × D)) (methods : List (Stmt N D))
  | expression (expression : Expr N D)
  | function (name : Token N) (params : List (Token N)) (body : List (Stmt N D))
  | if_ (condition : Expr N D) (thenBranch : Stmt N D) (elseBranch : Option (Stmt N D))
  | print (expression : Expr N D)
  | return_ (keyword : Token N) (value : Option (Expr N D))
  | var (name : Token N) (initializer : Option (Expr N D))
  | while_ (condition : Expr N D) (body : Stmt N D)
  | null

end Lox.Jlox
