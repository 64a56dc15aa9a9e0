import Lox.ToClox
import Lox.Jlox.Parser

/-!
# The grammar of statements

`Stmt.Derives` relates three things: the tree of clox, which is the source as it is written, the
tree of jlox, in which every `for` has become a `while`, and the tokens.  It is defined along the
tree of clox.  A keyword `fun` is not part of the function, since methods have none; `Declares` adds
it.
-/

namespace Lox

variable {N : Type}

/-- An expression, the tree clox walks for it, and its tokens. -/
structure DerivesExpr (e' : Clox.Expr N) (e : Jlox.Expr N Unit) (ts : List (Jlox.Token N)) :
    Prop where
  tree : e.toClox = e'
  derives : e.Derives 1 ts
  fits : e.Fits

theorem DerivesExpr.head {e' : Clox.Expr N} {e : Jlox.Expr N Unit} {ts : List (Jlox.Token N)}
    (h : DerivesExpr e' e ts) : ∃ t tail, ts = t :: tail ∧ Jlox.Expr.starts t.type = true := by
  obtain ⟨t, tail, hts, ht, -⟩ := Jlox.Expr.spells_head e h.derives.wf h.derives.spells
  exact ⟨t, tail, hts, ht⟩

/-- An expression that may be missing. -/
def DerivesOption : Option (Clox.Expr N) → Option (Jlox.Expr N Unit) → List (Jlox.Token N) → Prop
  | none, o, ts => o = none ∧ ts = []
  | some e', o, ts => ∃ e, o = some e ∧ DerivesExpr e' e ts

/-- The initializer of a variable, from its `=` on. -/
def DerivesInitializer :
    Option (Clox.Expr N) → Option (Jlox.Expr N Unit) → List (Jlox.Token N) → Prop
  | none, o, ts => o = none ∧ ts = []
  | some e', o, ts => ∃ e equals v, o = some e ∧ ts = equals :: v ∧ equals.type = .equal ∧
      DerivesExpr e' e v

/-- A variable declaration, after its keyword. -/
def DerivesVar (name : Name) (init : Option (Clox.Expr N)) (s : Jlox.Stmt N Unit)
    (ts : List (Jlox.Token N)) : Prop :=
  ∃ t o u semicolon, s = .var t o ∧ ts = t :: (u ++ [semicolon]) ∧ t.type = .identifier ∧
    t.lexeme = name ∧ semicolon.type = .semicolon ∧ DerivesInitializer init o u

/-- The first clause of a `for`. -/
def DerivesForInit : Clox.ForInit N → Option (Jlox.Stmt N Unit) → List (Jlox.Token N) → Prop
  | .empty, o, ts => o = none ∧ ∃ semicolon, ts = [semicolon] ∧ semicolon.type = .semicolon
  | .var name init, o, ts => ∃ s keyword v, o = some s ∧ ts = keyword :: v ∧
      keyword.type = .var_ ∧ DerivesVar name init s v
  | .expression e', o, ts => ∃ e v semicolon, o = some (.expression e) ∧ ts = v ++ [semicolon] ∧
      semicolon.type = .semicolon ∧ DerivesExpr e' e v

/-- Parameters, with commas between them. -/
def SpellsParams : List (Jlox.Token N) → List (Jlox.Token N) → Prop
  | [], ts => ts = []
  | [t], ts => ts = [t] ∧ t.type = .identifier
  | t :: params, ts => ∃ comma v, ts = t :: comma :: v ∧ t.type = .identifier ∧
      comma.type = .comma ∧ SpellsParams params v

/-- The superclass of a class, from its `<` on. -/
def DerivesSuperclass :
    Option Name → Option (Jlox.Token N × Unit) → List (Jlox.Token N) → Prop
  | none, o, ts => o = none ∧ ts = []
  | some name, o, ts => ∃ less t, o = some (t, ()) ∧ ts = [less, t] ∧ less.type = .less ∧
      t.type = .identifier ∧ t.lexeme = name

namespace Clox.Stmt

/-- Not a declaration. -/
def IsStatement : Stmt N → Bool
  | .var _ _ | .function _ _ _ | .class_ _ _ _ => false
  | _ => true

/-- The statement ends in an `if` without `else`. -/
def endsOpen : Stmt N → Bool
  | .if_ _ _ none => true
  | .if_ _ _ (some e) => e.endsOpen
  | .while_ _ body | .for_ _ _ _ body => body.endsOpen
  | _ => false

/-- A declaration: a function comes after its keyword. -/
def Declares (s : Stmt N) (derives : List (Jlox.Token N) → Prop) (ts : List (Jlox.Token N)) :
    Prop :=
  match s with
  | .function _ _ _ => ∃ keyword v, ts = keyword :: v ∧ keyword.type = .fun_ ∧ derives v
  | _ => derives ts

mutual

/-- The tree of clox, the tree of jlox and the tokens of a statement. -/
def Derives : Stmt N → Jlox.Stmt N Unit → List (Jlox.Token N) → Prop
  | .expression e', s, ts => ∃ e v semicolon, s = .expression e ∧ ts = v ++ [semicolon] ∧
      semicolon.type = .semicolon ∧ DerivesExpr e' e v
  | .print e', s, ts => ∃ e keyword v semicolon, s = .print e ∧
      ts = keyword :: (v ++ [semicolon]) ∧ keyword.type = .print_ ∧ semicolon.type = .semicolon ∧
      DerivesExpr e' e v
  | .var name init, s, ts => ∃ keyword v, ts = keyword :: v ∧ keyword.type = .var_ ∧
      DerivesVar name init s v
  | .block body', s, ts => ∃ body opening v closing, s = .block body ∧
      ts = opening :: (v ++ [closing]) ∧ opening.type = .leftBrace ∧ closing.type = .rightBrace ∧
      DerivesList body' body v
  | .if_ condition' thenBranch' none, s, ts => ∃ condition thenBranch keyword opening u closing v,
      s = .if_ condition thenBranch none ∧ ts = keyword :: opening :: (u ++ closing :: v) ∧
      keyword.type = .if_ ∧ opening.type = .leftParen ∧ closing.type = .rightParen ∧
      DerivesExpr condition' condition u ∧ thenBranch'.IsStatement ∧ thenBranch'.Derives thenBranch v
  | .if_ condition' thenBranch' (some elseBranch'), s, ts =>
      ∃ condition thenBranch elseBranch keyword opening u closing v else_ w,
      s = .if_ condition thenBranch (some elseBranch) ∧
      ts = keyword :: opening :: (u ++ closing :: (v ++ else_ :: w)) ∧
      keyword.type = .if_ ∧ opening.type = .leftParen ∧ closing.type = .rightParen ∧
      else_.type = .else_ ∧ DerivesExpr condition' condition u ∧
      (thenBranch'.IsStatement ∧ ¬ thenBranch'.endsOpen ∧ thenBranch'.Derives thenBranch v) ∧
      elseBranch'.IsStatement ∧ elseBranch'.Derives elseBranch w
  | .while_ condition' body', s, ts => ∃ condition body keyword opening u closing v,
      s = .while_ condition body ∧ ts = keyword :: opening :: (u ++ closing :: v) ∧
      keyword.type = .while_ ∧ opening.type = .leftParen ∧ closing.type = .rightParen ∧
      DerivesExpr condition' condition u ∧ body'.IsStatement ∧ body'.Derives body v
  | .for_ init' condition' increment' body', s, ts =>
      ∃ init condition increment body keyword opening a u semicolon v closing w,
      s = Jlox.Parser.desugarFor init condition increment body ∧
      ts = keyword :: opening :: (a ++ (u ++ semicolon :: (v ++ closing :: w))) ∧
      keyword.type = .for_ ∧ opening.type = .leftParen ∧ semicolon.type = .semicolon ∧
      closing.type = .rightParen ∧ DerivesForInit init' init a ∧
      DerivesOption condition' condition u ∧ DerivesOption increment' increment v ∧
      body'.IsStatement ∧ body'.Derives body w
  | .function name params' body', s, ts => ∃ t params body opening u closing left v right,
      s = .function t params body ∧
      ts = t :: opening :: (u ++ closing :: left :: (v ++ [right])) ∧ t.type = .identifier ∧
      t.lexeme = name ∧ opening.type = .leftParen ∧ closing.type = .rightParen ∧
      left.type = .leftBrace ∧ right.type = .rightBrace ∧ params.map (·.lexeme) = params' ∧
      params.length ≤ 255 ∧ SpellsParams params u ∧ DerivesList body' body v
  | .return_ value', s, ts => ∃ value keyword v semicolon, s = .return_ keyword value ∧
      ts = keyword :: (v ++ [semicolon]) ∧ keyword.type = .return_ ∧
      semicolon.type = .semicolon ∧ DerivesOption value' value v
  | .class_ name superclass' methods', s, ts =>
      ∃ keyword t superclass methods u opening v closing,
      s = .class_ t superclass methods ∧ ts = keyword :: t :: (u ++ opening :: (v ++ [closing])) ∧
      keyword.type = .class_ ∧ t.type = .identifier ∧ t.lexeme = name ∧
      opening.type = .leftBrace ∧ closing.type = .rightBrace ∧
      DerivesSuperclass superclass' superclass u ∧ DerivesMethods methods' methods v

/-- Declarations, one after the other. -/
def DerivesList : List (Stmt N) → List (Jlox.Stmt N Unit) → List (Jlox.Token N) → Prop
  | [], ss, ts => ss = [] ∧ ts = []
  | s' :: ss', ss, ts => ∃ s rest u v, ss = s :: rest ∧ ts = u ++ v ∧
      s'.Declares (s'.Derives s) u ∧ DerivesList ss' rest v

/-- Methods, one after the other. -/
def DerivesMethods : List (Stmt N) → List (Jlox.Stmt N Unit) → List (Jlox.Token N) → Prop
  | [], ss, ts => ss = [] ∧ ts = []
  | s' :: ss', ss, ts => (∃ name params body, s' = .function name params body) ∧
      ∃ s rest u v, ss = s :: rest ∧ ts = u ++ v ∧ s'.Derives s u ∧ DerivesMethods ss' rest v

end

end Clox.Stmt

end Lox
