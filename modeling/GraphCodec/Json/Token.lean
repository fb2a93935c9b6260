import GraphCodec.Json.Basic
import GraphCodec.Number.Digits
import GraphCodec.Number.Scaled

/-!
# JSON text as tokens

The first half of reading JSON: characters become punctuation, literals, numbers and strings, and
blanks disappear. The rules are those of RFC 8259 without extensions. A string keeps the
characters that it denotes; a pair of surrogate escapes denotes one character and a surrogate on
its own denotes none, so it is refused.
-/

namespace GraphCodec

namespace Json

/-- A token of JSON text. -/
inductive Token where
  | openArray
  | closeArray
  | openObject
  | closeObject
  | comma
  | colon
  /-- A string, which may be a key. -/
  | text (s : String)
  /-- A literal or a number. -/
  | leaf (j : Json)
  deriving Repr

namespace Token

/-! ### Numbers -/

/-- The digits at the front of a text, which must not be none, and the rest. -/
def digits? (cs : List Char) : Option (List Char × List Char) :=
  match cs.takeWhile Char.isDigit with
  | [] => none
  | ds => some (ds, cs.dropWhile Char.isDigit)

/-- The optional digits after a point. -/
def fraction? : List Char → Option (List Char × List Char)
  | '.' :: cs => digits? cs
  | cs => some ([], cs)

/-- The number that a run of digits denotes. -/
def natOf (ds : List Char) : Nat :=
  (Digits.value? ds).getD 0

/-- The optional exponent. It has to end the number. -/
def exponent? : List Char → Option (Option Int)
  | [] => some none
  | e :: cs =>
    if e = 'e' ∨ e = 'E' then
      let (negative, ds) : Bool × List Char :=
        match cs with
        | '-' :: ds => (true, ds)
        | '+' :: ds => (false, ds)
        | ds => (false, ds)
      match digits? ds with
      | some (ds, []) => some (some (if negative then -(natOf ds : Int) else natOf ds))
      | _ => none
    else none

/-- The document of a number with the given parts. Without fraction and exponent it is an integer
if a 64-bit word holds it, except that `-0` is the negative zero. -/
def number? (negative : Bool) (whole fraction : List Char) (exponent : Option Int) :
    Option Json :=
  let v : Int := if negative then -(natOf whole : Int) else natOf whole
  let isInteger := fraction.isEmpty && exponent.isNone
  if isInteger && !(negative && v == 0) && (-2 ^ 63 ≤ v && v < 2 ^ 64) then
    some (.integer v)
  else
    (Binary.ofDigits? negative whole fraction (exponent.getD 0)).map .double

/-- The document of a literal or number. -/
def leaf? (cs : List Char) : Option Json :=
  if cs = ['n', 'u', 'l', 'l'] then some .null
  else if cs = ['t', 'r', 'u', 'e'] then some (.bool true)
  else if cs = ['f', 'a', 'l', 's', 'e'] then some (.bool false)
  else
    let (negative, cs) : Bool × List Char :=
      match cs with
      | '-' :: cs => (true, cs)
      | cs => (false, cs)
    match digits? cs with
    | none => none
    | some (whole, cs) =>
      if 1 < whole.length ∧ whole.head? = some '0' then none
      else
        match fraction? cs with
        | none => none
        | some (fraction, cs) =>
          (exponent? cs).bind fun exponent ↦ number? negative whole fraction exponent

/-! ### Strings -/

/-- The value of a hexadecimal digit. -/
def hexDigit? (c : Char) : Option Nat :=
  if '0' ≤ c ∧ c ≤ '9' then some (c.toNat - 48)
  else if 'a' ≤ c ∧ c ≤ 'f' then some (c.toNat - 87)
  else if 'A' ≤ c ∧ c ≤ 'F' then some (c.toNat - 55)
  else none

/-- The number with four hexadecimal digits. -/
def hex4? (a b c d : Char) : Option Nat := do
  return (((← hexDigit? a) * 16 + (← hexDigit? b)) * 16 + (← hexDigit? c)) * 16 + (← hexDigit? d)

/-- The character of a one-letter escape. -/
def shortEscape? : Char → Option Char
  | '"' => some '"'
  | '\\' => some '\\'
  | '/' => some '/'
  | 'b' => some '\x08'
  | 'f' => some '\x0c'
  | 'n' => some '\n'
  | 'r' => some '\r'
  | 't' => some '\t'
  | _ => none

/-- The characters of a string after its opening quotation mark, put before `done` in reverse,
and what follows the closing one. -/
def string? (done : List Char) : List Char → Option (List Char × List Char)
  | '"' :: cs => some (done.reverse, cs)
  | '\\' :: 'u' :: a :: b :: c :: d :: cs =>
    match hex4? a b c d with
    | none => none
    | some n =>
      if n < 0xD800 ∨ 0xE000 ≤ n then string? (Char.ofNat n :: done) cs
      else if 0xDC00 ≤ n then none
      else
        match cs with
        | '\\' :: 'u' :: a :: b :: c :: d :: cs =>
          match hex4? a b c d with
          | none => none
          | some low =>
            if 0xDC00 ≤ low ∧ low < 0xE000 then
              string? (Char.ofNat (0x10000 + (n - 0xD800) * 0x400 + (low - 0xDC00)) :: done) cs
            else none
        | _ => none
  | '\\' :: c :: cs =>
    match shortEscape? c with
    | some e => string? (e :: done) cs
    | none => none
  | c :: cs => if c.toNat < 32 ∨ c = '\\' then none else string? (c :: done) cs
  | [] => none

theorem length_lt_of_string?_eq_some {done cs s rest : List Char}
    (h : string? done cs = some (s, rest)) : rest.length < cs.length := by
  fun_induction string? done cs <;> simp_all <;> omega

/-! ### The text as a whole -/

/-- The token of a punctuation character. -/
def punctuation? : Char → Option Token
  | '[' => some openArray
  | ']' => some closeArray
  | '{' => some openObject
  | '}' => some closeObject
  | ',' => some comma
  | ':' => some colon
  | _ => none

/-- Whether a character may stand between tokens. -/
def isSpace (c : Char) : Bool :=
  c == ' ' || c == '\n' || c == '\t' || c == '\r'

/-- Whether a character may stand in a literal or number. -/
def isLeafChar (c : Char) : Bool :=
  c.isAlphanum || c == '-' || c == '+' || c == '.'

/-- The tokens of a text, after those in `done`, which are in reverse. -/
def scan (done : List Token) : List Char → Option (List Token)
  | [] => some done.reverse
  | c :: cs =>
    if isSpace c then scan done cs
    else
      match punctuation? c with
      | some t => scan (t :: done) cs
      | none =>
        if c = '"' then
          match _h : string? [] cs with
          | some (s, rest) => scan (text (String.ofList s) :: done) rest
          | none => none
        else
          match leaf? (c :: cs.takeWhile isLeafChar) with
          | some j => scan (leaf j :: done) (cs.dropWhile isLeafChar)
          | none => none
  termination_by cs => cs.length
  decreasing_by
    · simp
    · simp
    · have := length_lt_of_string?_eq_some _h
      simp
      omega
    · exact Nat.lt_succ_of_le ((List.dropWhile_sublist _).length_le)

end Token

end Json

end GraphCodec
