import GraphCodec.Number.Binary

/-!
# JSON documents

A document is a tree whose objects keep their entries in the order in which the keys first
appeared. An integer that fits in a 64-bit word, signed or unsigned, is kept as an integer; every
other number is the bits of a `double`.
-/

namespace GraphCodec

/-- A JSON document. -/
inductive Json where
  | null
  | bool (b : Bool)
  /-- An integer from `-2 ^ 63` to `2 ^ 64 - 1`. -/
  | integer (v : Int)
  /-- The bits of a finite `double`. -/
  | double (bits : UInt64)
  | string (s : String)
  | array (items : List Json)
  | object (entries : List (String × Json))
  deriving Repr

namespace Json

/-- The name of the sort of a document. -/
def sort : Json → String
  | null => "null"
  | bool _ => "boolean"
  | integer _ | double _ => "number"
  | string _ => "string"
  | array _ => "array"
  | object _ => "object"

/-- Put an entry in the place of the one with its key, or at the end. -/
def insertEntry (entries : List (String × Json)) (key : String) (v : Json) :
    List (String × Json) :=
  if entries.any fun e ↦ e.1 == key then
    entries.map fun e ↦ if e.1 == key then (key, v) else e
  else entries ++ [(key, v)]

/-- The object with the given entries; a repeated key keeps its first place and its last value. -/
def ofEntries (entries : List (String × Json)) : Json :=
  object (entries.foldl (fun done e ↦ insertEntry done e.1 e.2) [])

/-- The value of the first entry with a given key. -/
def entry? (entries : List (String × Json)) (key : String) : Option Json :=
  (entries.find? fun e ↦ e.1 == key).map Prod.snd

/-- The value under a key of an object. -/
def get? (key : String) : Json → Option Json
  | object entries => entry? entries key
  | _ => none

/-- The text of a string document. -/
def asString? : Json → Option String
  | string s => some s
  | _ => none

/-- The number of a document that is an integer in the range of a signed 64-bit word. -/
def asInt? : Json → Option Int
  | integer v => if -2 ^ 63 ≤ v ∧ v < 2 ^ 63 then some v else none
  | _ => none

/-- The `double` nearest to the number of a document. -/
def asDouble? : Json → Option UInt64
  | integer v => some (Binary.ofInt v)
  | double bits => some bits
  | _ => none

/-- The document of a `double`; what is not finite has none but `null`. -/
def ofDouble (bits : UInt64) : Json :=
  if Binary.isFinite64 bits then double bits else null

theorem sizeOf_lt_of_entry?_eq_some {entries : List (String × Json)} {key : String} {v : Json}
    (h : entry? entries key = some v) : sizeOf v < sizeOf entries := by
  obtain ⟨e, he, rfl⟩ := Option.map_eq_some_iff.1 h
  have hmem := List.sizeOf_lt_of_mem (List.mem_of_find?_eq_some he)
  have : sizeOf e = 1 + sizeOf e.1 + sizeOf e.2 := by cases e; rfl
  omega

end Json

end GraphCodec
