import GraphCodec.Json.Printer
import GraphCodec.Matlab.Syntax

/-!
# MATLAB text

Code is printed line by line. A line knows the number of blocks that are open around it, which is
its level of indentation; the lines that open, divide and close a block stand at the level of the
block itself.
-/

namespace GraphCodec

namespace Matlab

/-! ### Expressions -/

/-- The characters of a text between quotes: a quote inside is written twice. -/
def quoteChars : List Char → List Char
  | [] => []
  | '\'' :: cs => '\'' :: '\'' :: quoteChars cs
  | c :: cs => c :: quoteChars cs

/-- A text between quotes. -/
def quoted (s : String) : String :=
  String.ofList ('\'' :: quoteChars s.toList ++ ['\''])

mutual

/-- The text of an expression. -/
def Expr.print : Expr → String
  | .name s => s
  | .number v => Json.integerText v
  | .text s => quoted s
  | .row items => "[" ++ " ".intercalate (Expr.printAll items) ++ "]"
  | .emptyCell => "\x7b\x7d"
  | .call function args => function ++ "(" ++ ", ".intercalate (Expr.printAll args) ++ ")"
  | .item array index => array.print ++ "(" ++ index.print ++ ")"
  | .contents cell index => cell.print ++ "\x7b" ++ index.print ++ "\x7d"
  | .field struct member => struct.print ++ "." ++ member
  | .range first last => first.print ++ ":" ++ last.print
  | .equal left right => left.print ++ " == " ++ right.print
  | .less left right => left.print ++ " < " ++ right.print
  | .not e => "~" ++ e.print
  | .thunk e => "@() " ++ e.print

/-- The texts of expressions. -/
def Expr.printAll : List Expr → List String
  | [] => []
  | e :: es => e.print :: Expr.printAll es

end

/-! ### Statements -/

/-- A line of code. -/
structure Line where
  /-- The number of blocks around the line. -/
  depth : Nat
  text : String
  deriving DecidableEq, Repr

/-- A line as it is written; an empty one is not indented. -/
def Line.print (l : Line) : String :=
  if l.text = "" then "\n"
  else "".pushn ' ' (4 * l.depth) ++ l.text ++ "\n"

/-- The text of an assignment. -/
def assignment (target value : Expr) : String :=
  target.print ++ " = " ++ value.print ++ ";"

/-- The text of an assignment under a condition. -/
def conditional (condition target value : Expr) (otherwise : Option (Expr × Expr)) : String :=
  let rest :=
    match otherwise with
    | none => ""
    | some (target, value) => " else " ++ assignment target value
  "if " ++ condition.print ++ ", " ++ assignment target value ++ rest ++ " end"

/-- The first line of a function. -/
def signature (result : Option String) (name : String) (params : List String) : String :=
  let target :=
    match result with
    | none => ""
    | some target => target ++ " = "
  "function " ++ target ++ name ++ "(" ++ ", ".intercalate params ++ ")"

mutual

/-- The lines of a statement with `depth` blocks around it. -/
def Stmt.lines (depth : Nat) : Stmt → List Line
  | .comment text => [⟨depth, "%" ++ text⟩]
  | .blank => [⟨depth, ""⟩]
  | .assign target value => [⟨depth, assignment target value⟩]
  | .run e => [⟨depth, e.print ++ ";"⟩]
  | .assignIf condition target value otherwise =>
    [⟨depth, conditional condition target value otherwise⟩]
  | .when condition body =>
    ⟨depth, "if " ++ condition.print⟩ :: Stmt.linesOf (depth + 1) body ++ [⟨depth, "end"⟩]
  | .whenElse condition body otherwise =>
    ⟨depth, "if " ++ condition.print⟩ :: Stmt.linesOf (depth + 1) body ++
      ⟨depth, "else"⟩ :: Stmt.linesOf (depth + 1) otherwise ++ [⟨depth, "end"⟩]
  | .loop counter range body =>
    ⟨depth, "for " ++ counter ++ " = " ++ range.print⟩ :: Stmt.linesOf (depth + 1) body ++
      [⟨depth, "end"⟩]
  | .function result name params body =>
    ⟨depth, signature result name params⟩ :: Stmt.linesOf (depth + 1) body ++ [⟨depth, "end"⟩]

/-- The lines of statements in order. -/
def Stmt.linesOf (depth : Nat) : List Stmt → List Line
  | [] => []
  | s :: ss => s.lines depth ++ Stmt.linesOf depth ss

end

/-- The text of code. -/
def print (code : List Stmt) : String :=
  String.join ((Stmt.linesOf 0 code).map Line.print)

end Matlab

end GraphCodec
