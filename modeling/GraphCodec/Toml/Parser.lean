import GraphCodec.Toml.Scalar
import GraphCodec.Toml.Table

/-!
# TOML text, read

The reader is a machine that takes one token at a time, so reading is a fold. Its state holds the
tables built so far, the header that is in force, and what may come next. Inside brackets line
breaks and comments may stand wherever a blank may, except within a dotted key; elsewhere a line
break ends an expression.
-/

namespace GraphCodec

namespace Toml

/-- The greatest depth of nesting of bracketed values that is read. -/
def maxDepth : Nat := 80

/-- The greatest number of parts of a dotted key. -/
def maxKeyParts : Nat := 80

/-- A bracketed value that is still open. -/
inductive Open where
  /-- An array, its items in reverse. -/
  | array (items : List Toml)
  /-- An inline table; its next value belongs to the dotted key `path`. -/
  | table (entries : Entries) (path : List String)
  deriving Repr

/-- What a dotted key is for. -/
inductive KeyUse where
  /-- A key and a value on a line. -/
  | pair
  /-- The header of a table. -/
  | tableHeader
  /-- The header of a further table of an array. -/
  | arrayHeader
  /-- A key of an inline table with the given entries, within `outer`, in a value of the line's key
  `path`. -/
  | inline (path : List String) (entries : Entries) (outer : List Open)
  deriving Repr

/-- What may come next. `outer` are the open bracketed values, innermost first, and `path` the
key of the line to which a value belongs. -/
inductive Expecting where
  /-- An expression, or nothing. -/
  | line
  /-- What follows the first bracket of a header. -/
  | bracket
  /-- A part of a dotted key, after `parts`, which are in reverse. -/
  | keyPart (use : KeyUse) (parts : List String)
  /-- What follows a part of a dotted key. -/
  | afterKeyPart (use : KeyUse) (parts : List String)
  /-- The equals sign after the key of an inline table, from a line break on. -/
  | equals (path : List String) (outer : List Open)
  /-- The second closing bracket of a header. -/
  | headerEnd (path : List String)
  /-- A value. -/
  | value (path : List String) (outer : List Open)
  /-- An item of an array, or its end. -/
  | item (path : List String) (outer : List Open)
  /-- A key of an inline table, or its end. -/
  | entry (path : List String) (entries : Entries) (outer : List Open)
  /-- More of a bare run. -/
  | scalar (run : List Char) (path : List String) (outer : List Open)
  /-- The time after a date and a blank, or what may follow the date. -/
  | timeAfter (run : List Char) (path : List String) (outer : List Open)
  /-- What follows a value inside brackets. -/
  | more (path : List String) (outer : List Open)
  /-- The end of a line. -/
  | lineEnd
  deriving Repr

/-- A document in the making. -/
structure Building where
  /-- The tables built so far. -/
  root : Entries
  /-- The header in force. -/
  header : List String
  expecting : Expecting
  deriving Repr

namespace Building

/-- Expect something else. -/
def expect (b : Building) (e : Expecting) : Building :=
  { b with expecting := e }

/-- The key that a token is, when it stands where a key is expected. -/
def keyOf? : Token → Option String
  | .text s multiline => if multiline then none else some s
  | .bare cs =>
    if cs.all fun c ↦ c.isAlphanum || c == '-' || c == '_' then some (String.ofList cs) else none
  | _ => none

/-- Put a complete value where it belongs. -/
def place? (b : Building) (v : Toml) (path : List String) : List Open → Option Building
  | [] => do
    let root ← Entries.atTable? (Entries.addValue? v path) b.header b.root
    return { b with root, expecting := .lineEnd }
  | .array items :: outer => some (b.expect (.more path (.array (v :: items) :: outer)))
  | .table entries key :: outer => do
    let entries ← Entries.addValue? v key entries
    return b.expect (.more path (.table entries [] :: outer))

/-- Carry out a header. -/
def header? (b : Building) (use : KeyUse) (path : List String) : Option Building := do
  let key ← path.getLast?
  let change : Entries → Option Entries :=
    match use with
    | .arrayHeader => Entries.appendTable? key
    | _ => Entries.defineTable? key
  let root ← Entries.atTable? change path.dropLast b.root
  return { root, header := path, expecting := .lineEnd }

/-- Begin a value with its first token. -/
def start? (b : Building) (path : List String) (outer : List Open) : Token → Option Building
  | .openBracket =>
    if outer.length < maxDepth then some (b.expect (.item path (.array [] :: outer))) else none
  | .openBrace =>
    if outer.length < maxDepth then some (b.expect (.entry path [] outer)) else none
  | .text s _ => b.place? (.string s) path outer
  | .bare cs => some (b.expect (.scalar cs path outer))
  | _ => none

/-- End an inline table. -/
def closeTable? (b : Building) (path : List String) (entries : Entries) (outer : List Open) :
    Option Building :=
  b.place? entries.toToml path outer

/-- Take a further part of a dotted key. -/
def startKey? (b : Building) (use : KeyUse) (parts : List String) (t : Token) :
    Option Building :=
  if parts.length < maxKeyParts then
    (keyOf? t).map fun key ↦ b.expect (.afterKeyPart use (key :: parts))
  else none

/-- What follows a part of a dotted key: a dot, or what ends the key. -/
def endKey? (b : Building) (use : KeyUse) (parts : List String) : Token → Option Building
  | .space _ => some b
  | .newline =>
    match use with
    | .inline path entries outer =>
      some (b.expect (.equals path (.table entries parts.reverse :: outer)))
    | _ => none
  | .dot => some (b.expect (.keyPart use parts))
  | .equals =>
    match use with
    | .pair => some (b.expect (.value parts.reverse []))
    | .inline path entries outer =>
      some (b.expect (.value path (.table entries parts.reverse :: outer)))
    | _ => none
  | .closeBracket =>
    match use with
    | .tableHeader => b.header? use parts.reverse
    | .arrayHeader => some (b.expect (.headerEnd parts.reverse))
    | _ => none
  | _ => none

/-- What follows a value inside brackets: a comma, or the end of the innermost. -/
def continue? (b : Building) (path : List String) : List Open → Token → Option Building
  | outer, .space _ | outer, .newline => some (b.expect (.more path outer))
  | .array items :: outer, .comma => some (b.expect (.item path (.array items :: outer)))
  | .array items :: outer, .closeBracket => b.place? (.array items.reverse) path outer
  | .table entries _ :: outer, .comma => some (b.expect (.entry path entries outer))
  | .table entries _ :: outer, .closeBrace => b.closeTable? path entries outer
  | _, _ => none

/-- Take one token, except within a bare run. -/
def takeWhole? (b : Building) (t : Token) : Option Building :=
  match b.expecting, t with
  | .line, .space _ | .line, .newline => some b
  | .line, .openBracket => some (b.expect .bracket)
  | .line, t => b.startKey? .pair [] t
  | .bracket, .openBracket => some (b.expect (.keyPart .arrayHeader []))
  | .bracket, .space _ => some (b.expect (.keyPart .tableHeader []))
  | .bracket, t => b.startKey? .tableHeader [] t
  | .keyPart _ _, .space _ => some b
  | .keyPart use parts, t => b.startKey? use parts t
  | .afterKeyPart use parts, t => b.endKey? use parts t
  | .equals _ _, .space _ | .equals _ _, .newline => some b
  | .equals path outer, .equals => some (b.expect (.value path outer))
  | .headerEnd path, .closeBracket => b.header? .arrayHeader path
  | .value _ _, .space _ | .value _ (_ :: _), .newline => some b
  | .value path outer, t => b.start? path outer t
  | .item _ _, .space _ | .item _ _, .newline => some b
  | .item path (.array items :: outer), .closeBracket =>
    b.place? (.array items.reverse) path outer
  | .item path outer, t => b.start? path outer t
  | .entry _ _ _, .space _ | .entry _ _ _, .newline => some b
  | .entry path entries outer, .closeBrace => b.closeTable? path entries outer
  | .entry path entries outer, t => b.startKey? (.inline path entries outer) [] t
  | .more path outer, t => b.continue? path outer t
  | .lineEnd, .space _ => some b
  | .lineEnd, .newline => some (b.expect .line)
  | _, _ => none

/-- End a bare run and take the token after it. -/
def endScalar? (b : Building) (run : List Char) (path : List String) (outer : List Open)
    (t : Token) : Option Building := do
  let v ← Scalar.value? run
  let b ← b.place? v path outer
  b.takeWhole? t

/-- Take one token. -/
def take? (b : Building) (t : Token) : Option Building :=
  match b.expecting, t with
  | .scalar run path outer, .bare cs => some (b.expect (.scalar (run ++ cs) path outer))
  | .scalar run path outer, .dot => some (b.expect (.scalar (run ++ ['.']) path outer))
  | .scalar run path outer, .space isSingleBlank =>
    if isSingleBlank ∧ Scalar.isDate run then some (b.expect (.timeAfter run path outer))
    else b.endScalar? run path outer t
  | .scalar run path outer, t => b.endScalar? run path outer t
  | .timeAfter run path outer, .bare cs =>
    some (b.expect (.scalar (run ++ ' ' :: cs) path outer))
  | .timeAfter run path outer, t => b.endScalar? run path outer t
  | _, t => b.takeWhole? t

end Building

/-- The document with the given tokens, of which the last has to end a line. -/
def ofTokens? (tokens : List Token) : Option Toml :=
  match (tokens ++ [Token.newline]).foldlM Building.take? ⟨[], [], .line⟩ with
  | some ⟨root, _, .line⟩ => some root.toToml
  | _ => none

/-- A text without the mark of byte order that may stand at its beginning. -/
def withoutMark : List Char → List Char
  | '\uFEFF' :: cs => cs
  | cs => cs

/-- The document with the given text. -/
def parse? (text : String) : Option Toml :=
  (Token.scan [] (withoutMark text.toList)).bind ofTokens?

end Toml

end GraphCodec
