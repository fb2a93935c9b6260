/-!
# MATLAB code

The part of the MATLAB language that generated functions are written in. Code is a list of
statements; blocks hold their bodies, so that an unclosed block cannot be expressed.
-/

namespace GraphCodec

namespace Matlab

/-- An expression. -/
inductive Expr where
  /-- A variable, or a function called without arguments. -/
  | name (s : String)
  | number (v : Int)
  /-- A row of characters between quotes. -/
  | text (s : String)
  /-- A row between brackets. -/
  | row (items : List Expr)
  /-- The cell without contents. -/
  | emptyCell
  | call (function : String) (args : List Expr)
  /-- An element of an array. -/
  | item (array index : Expr)
  /-- The contents of a cell. -/
  | contents (cell index : Expr)
  /-- A field of a struct. -/
  | field (struct : Expr) (name : String)
  | range (first last : Expr)
  | equal (left right : Expr)
  | less (left right : Expr)
  | not (e : Expr)
  /-- A function of no arguments that evaluates an expression. -/
  | thunk (e : Expr)
  deriving Repr

/-- A statement. -/
inductive Stmt where
  /-- The text after the percent sign. -/
  | comment (text : String)
  | blank
  | assign (target value : Expr)
  /-- An expression for its effect. -/
  | run (e : Expr)
  /-- An assignment under a condition, and perhaps another one otherwise, on one line. -/
  | assignIf (condition target value : Expr) (otherwise : Option (Expr × Expr))
  | when (condition : Expr) (body : List Stmt)
  | whenElse (condition : Expr) (body otherwise : List Stmt)
  | loop (counter : String) (range : Expr) (body : List Stmt)
  /-- A function, with the variable that holds its result if it has one. -/
  | function (result : Option String) (name : String) (params : List String) (body : List Stmt)
  deriving Repr

end Matlab

end GraphCodec
