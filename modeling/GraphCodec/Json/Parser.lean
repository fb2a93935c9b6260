import GraphCodec.Json.Token

/-!
# JSON text, read

The second half of reading JSON: tokens become a document. The reader is a machine whose state
says what may come next and which arrays and objects are still open; it takes one token at a time,
so reading is a fold. At most `maxDepth` arrays and objects may be open at once.
-/

namespace GraphCodec

namespace Json

/-- The greatest depth of nesting that is read. -/
def maxDepth : Nat := 127

/-- An array or object that is still open, with its contents in reverse. -/
inductive Open where
  | array (items : List Json)
  /-- An object whose next value belongs to `key`. -/
  | object (entries : List (String × Json)) (key : String)
  deriving Repr

/-- What the reader expects next; `outer` are the open arrays and objects, innermost first. -/
inductive Reading where
  /-- A value. -/
  | value (outer : List Open)
  /-- The first item of an array, or its end. -/
  | firstItem (outer : List Open)
  /-- The first key of an object, or its end. -/
  | firstKey (outer : List Open)
  /-- A further key of an object. -/
  | key (entries : List (String × Json)) (outer : List Open)
  /-- The colon after a key. -/
  | colon (entries : List (String × Json)) (key : String) (outer : List Open)
  /-- A comma or the end of the innermost of `outer`, which has just received a value. -/
  | more (outer : List Open)
  /-- Nothing. -/
  | done (document : Json)
  deriving Repr

namespace Reading

/-- Put a complete value where it belongs. -/
def place (v : Json) : List Open → Reading
  | [] => done v
  | .array items :: outer => more (.array (v :: items) :: outer)
  | .object entries name :: outer => more (.object ((name, v) :: entries) name :: outer)

/-- Begin a value with its first token. -/
def start? (outer : List Open) : Token → Option Reading
  | .openArray => if outer.length < maxDepth then some (firstItem outer) else none
  | .openObject => if outer.length < maxDepth then some (firstKey outer) else none
  | .text s => some (place (.string s) outer)
  | .leaf j => some (place j outer)
  | _ => none

/-- Take one token. -/
def step? : Reading → Token → Option Reading
  | value outer, t => start? outer t
  | firstItem outer, .closeArray => some (place (.array []) outer)
  | firstItem outer, t => start? (.array [] :: outer) t
  | firstKey outer, .closeObject => some (place (.object []) outer)
  | firstKey outer, .text s => some (colon [] s outer)
  | key entries outer, .text s => some (colon entries s outer)
  | colon entries name outer, .colon => some (value (.object entries name :: outer))
  | more (.array items :: outer), .comma => some (value (.array items :: outer))
  | more (.array items :: outer), .closeArray => some (place (.array items.reverse) outer)
  | more (.object entries _ :: outer), .comma => some (key entries outer)
  | more (.object entries _ :: outer), .closeObject =>
    some (place (ofEntries entries.reverse) outer)
  | _, _ => none

end Reading

/-- The document with the given tokens. -/
def ofTokens? (tokens : List Token) : Option Json :=
  match tokens.foldlM Reading.step? (.value []) with
  | some (.done v) => some v
  | _ => none

/-- The document with the given text. -/
def parse? (text : String) : Option Json :=
  (Token.scan [] text.toList).bind ofTokens?

end Json

end GraphCodec
