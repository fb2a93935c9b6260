import GraphCodec.Proofs.Tokens

/-!
# Reading expressions

The tokens of an expression are read from left to right, with a stack of all that has been opened
and is not complete (`Reading`). An operator that binds its right side takes all up to the end of
the part that it stands in, so it is completed when the part is (`close`).

MATLAB writes an element of an array like the call of a function. In generated code the two are told
apart by their names: those of variables for values begin with one letter, with which no function
begins that is called. With this, an expression is read back from its tokens, and its tokens from
its text, if the names in it are names (`Expr.Readable`).
-/

namespace GraphCodec

namespace Matlab

/-! ### Readable expressions -/

/-- The words that begin and end lines of blocks. -/
def keywords : List String :=
  ["if", "else", "end", "for", "function"]

/-- Whether a text is the name of a variable or of a function. -/
structure IsName (s : String) : Prop where
  isWord : IsWord s
  head_ne : ∀ c ∈ s.toList.head?, c.isDigit = false
  notMem : s ∉ keywords

/-- Whether a name is that of a variable for values. -/
def holdsValue (s : String) : Bool :=
  s.toList.head? == some 'v'

/-- Whether an expression is an item that needs no separator in a row. -/
inductive Expr.IsItem : Expr → Prop
  | name {s : String} (isName : IsName s) : IsItem (.name s)
  | number (v : Int) : IsItem (.number v)

/-- Whether an expression is read back from its text, and if it is `closed`, in front of an operator
as well. -/
inductive Expr.Readable : (closed : Bool) → Expr → Prop
  | name {closed : Bool} {s : String} (isName : IsName s) : Readable closed (.name s)
  | number {closed : Bool} (v : Int) : Readable closed (.number v)
  | text {closed : Bool} {s : String} (unbroken : Unbroken s) : Readable closed (.text s)
  | row {closed : Bool} {es : List Expr} (isItem : ∀ e ∈ es, e.IsItem) : Readable closed (.row es)
  | emptyCell {closed : Bool} : Readable closed .emptyCell
  | call {closed : Bool} {f : String} {args : List Expr} (isName : IsName f)
      (isFunction : holdsValue f = false) (readable : ∀ e ∈ args, Readable false e) :
      Readable closed (.call f args)
  | item {closed : Bool} {a : String} {i : Expr} (isName : IsName a)
      (isVariable : holdsValue a = true) (index : Readable false i) :
      Readable closed (.item (.name a) i)
  | contents {closed : Bool} {c i : Expr} (cell : Readable true c) (index : Readable false i) :
      Readable closed (.contents c i)
  | field {closed : Bool} {e : Expr} {m : String} (struct : Readable true e) (isWord : IsWord m) :
      Readable closed (.field e m)
  | range {a b : Expr} (first : Readable true a) (last : Readable false b) :
      Readable false (.range a b)
  | equal {a b : Expr} (left : Readable true a) (right : Readable false b) :
      Readable false (.equal a b)
  | less {a b : Expr} (left : Readable true a) (right : Readable false b) :
      Readable false (.less a b)
  | not {e : Expr} (operand : Readable false e) : Readable false (.not e)
  | thunk {e : Expr} (body : Readable false e) : Readable false (.thunk e)

/-! ### Tokens of expressions -/

/-- The digits of a number as a word. -/
def digits (n : Nat) : String :=
  .ofList (Nat.toDigits 10 n)

/-- The tokens of a number. -/
def numberTokens (v : Int) : List Token :=
  if v < 0 then [.sign '-', .word (digits v.natAbs)] else [.word (digits v.natAbs)]

mutual

/-- The tokens of an expression. -/
def Expr.tokens : Expr → List Token
  | .name s => [.word s]
  | .number v => numberTokens v
  | .text s => [.text s]
  | .row items => [.sign '['] ++ ((Expr.tokensAll items).flatten ++ [.sign ']'])
  | .emptyCell => [.sign '\x7b', .sign '\x7d']
  | .call function args =>
    [.word function] ++ [.sign '('] ++
      ([.sign ','].intercalate (Expr.tokensAll args) ++ [.sign ')'])
  | .item array index => array.tokens ++ [.sign '('] ++ (index.tokens ++ [.sign ')'])
  | .contents cell index => cell.tokens ++ [.sign '\x7b'] ++ (index.tokens ++ [.sign '\x7d'])
  | .field struct member => struct.tokens ++ [.sign '.'] ++ [.word member]
  | .range first last => first.tokens ++ [.sign ':'] ++ last.tokens
  | .equal left right => left.tokens ++ [.same] ++ right.tokens
  | .less left right => left.tokens ++ [.sign '<'] ++ right.tokens
  | .not e => [.sign '~'] ++ e.tokens
  | .thunk e => [.sign '@', .sign '(', .sign ')'] ++ e.tokens

/-- The tokens of expressions, each by itself. -/
def Expr.tokensAll : List Expr → List (List Token)
  | [] => []
  | e :: es => e.tokens :: Expr.tokensAll es

end

/-! ### The reader -/

/-- What has been opened of an expression. -/
inductive Opened where
  | call (function : String) (args : List Expr)
  | item (array : Expr)
  | contents (cell : Expr)
  | emptyCell
  | row (items : List Expr)
  | field (struct : Expr)
  | minus
  | range (first : Expr)
  | equal (left : Expr)
  | less (left : Expr)
  | not
  /-- The sign of a function without a name, and then the sign that opens its parameters. -/
  | sign
  | params
  | thunk

/-- Complete the operators that have been opened last. -/
def close : Expr → List Opened → Expr × List Opened
  | e, .range first :: os => close (.range first e) os
  | e, .equal left :: os => close (.equal left e) os
  | e, .less left :: os => close (.less left e) os
  | e, .not :: os => close (.not e) os
  | e, .thunk :: os => close (.thunk e) os
  | e, os => (e, os)

/-- What has been read of an expression. -/
structure Reading where
  /-- The part that has been completed last. -/
  last : Option Expr
  /-- What is not complete, innermost first. -/
  opened : List Opened

/-- What a word is by itself. -/
def operand (w : String) : Expr :=
  match natural? w.toList with
  | some n => .number n
  | none => .name w

namespace Reading

/-- Before an expression. -/
def start : Reading :=
  ⟨none, []⟩

/-- The expression, if nothing but operators is open. -/
def result? (r : Reading) : Option Expr := do
  match close (← r.last) r.opened with
  | (e, []) => some e
  | _ => none

/-- Read a word: a part by itself, a name after a dot, digits after a sign, or the next item of a
row. -/
def takeWord (w : String) (r : Reading) : Option Reading :=
  match r.last, r.opened with
  | none, .field e :: os => some ⟨some (.field e w), os⟩
  | none, .minus :: os => (natural? w.toList).map fun n : Nat ↦ ⟨some (.number (-n)), os⟩
  | none, os => some ⟨some (operand w), os⟩
  | some e, .row es :: os => some ⟨some (operand w), .row (es ++ [e]) :: os⟩
  | some _, _ => none

/-- Read a text. -/
def takeText (s : String) (r : Reading) : Option Reading :=
  match r.last with
  | none => some ⟨some (.text s), r.opened⟩
  | some _ => none

/-- Open something where there is nothing yet. -/
def before (o : Opened) (r : Reading) : Option Reading :=
  match r.last with
  | none => some ⟨none, o :: r.opened⟩
  | some _ => none

/-- Open something with the last part to the left of it. -/
def after (o : Expr → Opened) (r : Reading) : Option Reading :=
  match r.last with
  | none => none
  | some e => some ⟨none, o e :: r.opened⟩

def openParenthesis (r : Reading) : Option Reading :=
  match r.last, r.opened with
  | some (.name f), os =>
    some ⟨none, (if holdsValue f then .item (.name f) else .call f []) :: os⟩
  | none, .sign :: os => some ⟨none, .params :: os⟩
  | _, _ => none

def comma (r : Reading) : Option Reading := do
  match close (← r.last) r.opened with
  | (e, .call f args :: os) => some ⟨none, .call f (args ++ [e]) :: os⟩
  | _ => none

def closeParenthesis (r : Reading) : Option Reading :=
  match r.last with
  | none =>
    match r.opened with
    | .call f [] :: os => some ⟨some (.call f []), os⟩
    | .params :: os => some ⟨none, .thunk :: os⟩
    | _ => none
  | some e =>
    match close e r.opened with
    | (e, .call f args :: os) => some ⟨some (.call f (args ++ [e])), os⟩
    | (e, .item a :: os) => some ⟨some (.item a e), os⟩
    | _ => none

def closeBracket (r : Reading) : Option Reading :=
  match r.last, r.opened with
  | none, .row es :: os => some ⟨some (.row es), os⟩
  | some e, .row es :: os => some ⟨some (.row (es ++ [e])), os⟩
  | _, _ => none

def openBrace (r : Reading) : Option Reading :=
  match r.last with
  | none => r.before .emptyCell
  | some _ => r.after .contents

def closeBrace (r : Reading) : Option Reading :=
  match r.last with
  | none =>
    match r.opened with
    | .emptyCell :: os => some ⟨some .emptyCell, os⟩
    | _ => none
  | some e =>
    match close e r.opened with
    | (e, .contents c :: os) => some ⟨some (.contents c e), os⟩
    | _ => none

/-- Read a minus sign, which stands in front of a number, perhaps of the next one in a row. -/
def minus (r : Reading) : Option Reading :=
  match r.last, r.opened with
  | none, os => some ⟨none, .minus :: os⟩
  | some e, .row es :: os => some ⟨none, .minus :: .row (es ++ [e]) :: os⟩
  | _, _ => none

/-- Read a sign. -/
def takeSign (c : Char) (r : Reading) : Option Reading :=
  match c with
  | '(' => r.openParenthesis
  | ')' => r.closeParenthesis
  | ',' => r.comma
  | '[' => r.before (.row [])
  | ']' => r.closeBracket
  | '\x7b' => r.openBrace
  | '\x7d' => r.closeBrace
  | '.' => r.after .field
  | ':' => r.after .range
  | '<' => r.after .less
  | '-' => r.minus
  | '~' => r.before .not
  | '@' => r.before .sign
  | _ => none

/-- Read a token, if it can go on with the expression. -/
def take? (r : Reading) : Token → Option Reading
  | .word w => r.takeWord w
  | .text s => r.takeText s
  | .sign c => r.takeSign c
  | .same => r.after .equal

/-- Read tokens that all go on with the expression. -/
def takeAll? (r : Reading) (ts : List Token) : Option Reading :=
  ts.foldlM take? r

/-- The expression of as many tokens as go on with it, and the tokens after it. -/
def expr? (r : Reading) : List Token → Option (Expr × List Token)
  | [] => r.result?.map fun e ↦ (e, [])
  | t :: ts =>
    match r.take? t with
    | some r' => r'.expr? ts
    | none => r.result?.map fun e ↦ (e, t :: ts)

end Reading

/-- The expression at the front of some tokens, and the tokens after it. -/
def expr? (ts : List Token) : Option (Expr × List Token) :=
  Reading.start.expr? ts

/-! ### Expressions are read back from their tokens -/

/-- Whether a word that comes next is a part by itself. -/
def Awaits : List Opened → Prop
  | .field _ :: _ | .minus :: _ => False
  | _ => True

namespace Reading

theorem takeAll?_cons (r : Reading) (t : Token) (ts : List Token) :
    r.takeAll? (t :: ts) = (r.take? t).bind fun r' ↦ r'.takeAll? ts :=
  List.foldlM_cons

theorem takeAll?_singleton (r : Reading) (t : Token) : r.takeAll? [t] = r.take? t := by
  rw [takeAll?_cons]
  show (r.take? t).bind some = _
  exact Option.bind_fun_some _

theorem takeAll?_append (r : Reading) (ts us : List Token) :
    r.takeAll? (ts ++ us) = (r.takeAll? ts).bind fun r' ↦ r'.takeAll? us :=
  List.foldlM_append

/-- Tokens that have been read one part after the other. -/
theorem takeAll?_append_of_eq {r r' : Reading} {ts : List Token} (h : r.takeAll? ts = some r')
    (us : List Token) : r.takeAll? (ts ++ us) = r'.takeAll? us := by
  rw [takeAll?_append, h, Option.bind_some]

/-- Where an operand is awaited, a word is one. -/
theorem takeWord_of_awaits {os : List Opened} (hos : Awaits os) (w : String) :
    takeWord w ⟨none, os⟩ = some ⟨some (operand w), os⟩ := by
  cases os with
  | nil => rfl
  | cons o os =>
    cases o with
    | field | minus => exact hos.elim
    | _ => rfl

/-- What goes on with an expression is part of it. -/
theorem expr?_append {r r' : Reading} {ts : List Token} (h : r.takeAll? ts = some r')
    (us : List Token) : r.expr? (ts ++ us) = r'.expr? us := by
  induction ts generalizing r with
  | nil =>
    obtain rfl : r = r' := Option.some.inj h
    rfl
  | cons t ts ih =>
    rw [takeAll?_cons, Option.bind_eq_some_iff] at h
    obtain ⟨r'', htake, hrest⟩ := h
    rw [List.cons_append, expr?, htake]
    exact ih hrest

section

variable {e e' : Expr} {os os' : List Opened}

/-- An expression is complete if nothing is open when it closes. -/
theorem result?_of_close (h : close e' os' = (e, [])) : result? ⟨some e', os'⟩ = some e := by
  simp [result?, h]

/-- A bracket behind a function begins its arguments. -/
theorem openParenthesis_function {f : String} (h : holdsValue f = false) :
    openParenthesis ⟨some (.name f), os⟩ = some ⟨none, .call f [] :: os⟩ := by
  simp [openParenthesis, h]

/-- A bracket behind a variable begins an index. -/
theorem openParenthesis_variable {a : String} (h : holdsValue a = true) :
    openParenthesis ⟨some (.name a), os⟩ = some ⟨none, .item (.name a) :: os⟩ := by
  simp [openParenthesis, h]

/-- A bracket that closes a call ends its last argument. -/
theorem closeParenthesis_of_close_call {f : String} {args : List Expr}
    (h : close e' os' = (e, .call f args :: os)) :
    closeParenthesis ⟨some e', os'⟩ = some ⟨some (.call f (args ++ [e])), os⟩ := by
  simp [closeParenthesis, h]

/-- A bracket that closes an index ends the index. -/
theorem closeParenthesis_of_close_item {a : Expr} (h : close e' os' = (e, .item a :: os)) :
    closeParenthesis ⟨some e', os'⟩ = some ⟨some (.item a e), os⟩ := by
  simp [closeParenthesis, h]

theorem closeBrace_of_close {c : Expr} (h : close e' os' = (e, .contents c :: os)) :
    closeBrace ⟨some e', os'⟩ = some ⟨some (.contents c e), os⟩ := by
  simp [closeBrace, h]

/-- A comma ends one argument and awaits the next. -/
theorem comma_of_close {f : String} {args : List Expr}
    (h : close e' os' = (e, .call f args :: os)) :
    comma ⟨some e', os'⟩ = some ⟨none, .call f (args ++ [e]) :: os⟩ := by
  simp [comma, h]

/-- Where no call is open there is nothing to separate. -/
theorem comma_of_close_nil (h : close e' os' = (e, [])) : comma ⟨some e', os'⟩ = none := by
  simp [comma, h]

end

end Reading

/-- A name is no number, by its first character. -/
theorem natural?_of_isName {s : String} (h : IsName s) : natural? s.toList = none := by
  obtain ⟨⟨hne, -⟩, hhead, -⟩ := h
  refine if_neg fun ⟨_, hdigits⟩ ↦ ?_
  cases hs : s.toList with
  | nil => exact hne hs
  | cons c cs =>
    rw [hs, List.all_cons, Bool.and_eq_true] at hdigits
    rw [hhead c (by rw [hs]; rfl)] at hdigits
    exact Bool.noConfusion hdigits.1

/-- So the operand is the name. -/
theorem operand_of_isName {s : String} (h : IsName s) : operand s = .name s := by
  rw [operand, natural?_of_isName h]

theorem natural?_digits (n : Nat) : natural? (digits n).toList = some n := by
  rw [digits, String.toList_ofList, natural?_toDigits]

theorem operand_digits (n : Nat) : operand (digits n) = .number n := by
  rw [operand, natural?_digits]

/-- A number by its sign and its digits. -/
theorem number_neg_natAbs {v : Int} (h : v < 0) : Expr.number (-v.natAbs) = .number v :=
  congrArg Expr.number (by omega)

theorem number_natAbs {v : Int} (h : ¬v < 0) : Expr.number v.natAbs = .number v :=
  congrArg Expr.number (by omega)

open Reading

/-- A name is read in one step. -/
theorem takeAll?_name {s : String} (h : IsName s) {os : List Opened} (hos : Awaits os) :
    takeAll? ⟨none, os⟩ [.word s] = some ⟨some (.name s), os⟩ := by
  rw [takeAll?_singleton]
  show takeWord s _ = _
  rw [takeWord_of_awaits hos, operand_of_isName h]

/-- Whether the tokens of an expression are read as this expression, whatever has been opened before
it. Its last operators may still be open then, unless it is `closed`. -/
def Reads (closed : Bool) (e : Expr) : Prop :=
  ∀ os, Awaits os → ∃ e' os', takeAll? ⟨none, os⟩ e.tokens = some ⟨some e', os'⟩ ∧
    close e' os' = close e os ∧ (closed = true → e' = e ∧ os' = os)

section

variable {e : Expr} {os : List Opened}

/-- An expression that is closed is read to itself, wherever an operand is awaited. -/
theorem Reads.takeAll?_eq (h : Reads true e) (hos : Awaits os) :
    takeAll? ⟨none, os⟩ e.tokens = some ⟨some e, os⟩ := by
  obtain ⟨e', os', htake, -, hclosed⟩ := h os hos
  obtain ⟨rfl, rfl⟩ := hclosed rfl
  exact htake

/-- And this is all that is asked of it. -/
theorem reads_of_takeAll? {closed : Bool}
    (h : ∀ os, Awaits os → takeAll? ⟨none, os⟩ e.tokens = some ⟨some e, os⟩) : Reads closed e :=
  fun os hos ↦ ⟨e, os, h os hos, rfl, fun _ ↦ ⟨rfl, rfl⟩⟩

/-- An operator with its right side, which takes all that comes after it. -/
theorem Reads.operator {right : Expr} {front : List Token} {o : Opened}
    (htokens : e.tokens = front ++ right.tokens) (hright : Reads false right)
    (hfront : ∀ os, Awaits os → takeAll? ⟨none, os⟩ front = some ⟨none, o :: os⟩)
    (hawaits : ∀ os, Awaits (o :: os)) (hclose : ∀ os, close right (o :: os) = close e os) :
    Reads false e := by
  intro os hos
  obtain ⟨e', os', htake, heq, -⟩ := hright (o :: os) (hawaits os)
  refine ⟨e', os', ?_, heq.trans (hclose os), nofun⟩
  rw [htokens, takeAll?_append_of_eq (hfront os hos), htake]

/-- **Arguments** are read one after the other, each to its end. -/
theorem takeAll?_args {args : List Expr} (hargs : ∀ e ∈ args, Reads false e) (f : String)
    (done : List Expr) (hne : args ≠ []) : takeAll? ⟨none, .call f done :: os⟩
      ([.sign ','].intercalate (Expr.tokensAll args) ++ [.sign ')']) =
        some ⟨some (.call f (done ++ args)), os⟩ := by
  induction args generalizing done with
  | nil => exact absurd rfl hne
  | cons e es ih =>
    obtain ⟨hread, hes⟩ := List.forall_mem_cons.1 hargs
    obtain ⟨e', os', htake, hclose, -⟩ := hread (.call f done :: os) trivial
    cases es with
    | nil =>
      rw [Expr.tokensAll, Expr.tokensAll, List.intercalate_singleton, takeAll?_append_of_eq htake,
        takeAll?_singleton]
      exact closeParenthesis_of_close_call hclose
    | cons e₂ es =>
      have hrest := ih hes (done ++ [e]) (List.cons_ne_nil _ _)
      rw [Expr.tokensAll] at hrest
      rw [Expr.tokensAll, Expr.tokensAll, List.intercalate_cons_cons, List.append_assoc,
        List.append_assoc, takeAll?_append_of_eq htake, List.singleton_append, takeAll?_cons]
      show (comma ⟨some e', os'⟩).bind _ = _
      rw [comma_of_close hclose, Option.bind_some, hrest, List.append_assoc]
      rfl

/-- Digits after a sign. -/
theorem takeAll?_minus {v : Int} (h : v < 0) :
    takeAll? ⟨none, .minus :: os⟩ [.word (digits v.natAbs)] = some ⟨some (.number v), os⟩ := by
  rw [takeAll?_singleton]
  show (natural? (digits v.natAbs).toList).map _ = _
  rw [natural?_digits, Option.map_some, number_neg_natAbs h]

/-- A number is read back with its sign. -/
theorem reads_number {closed : Bool} (v : Int) : Reads closed (.number v) := by
  refine reads_of_takeAll? fun os hos ↦ ?_
  rw [Expr.tokens, numberTokens]
  split
  · rename_i hv
    exact takeAll?_minus hv
  · rename_i hv
    rw [takeAll?_singleton]
    show takeWord _ _ = _
    rw [takeWord_of_awaits hos, operand_digits, number_natAbs hv]

/-- An item of a row, which comes after another one. -/
theorem takeAll?_item {e : Expr} (h : e.IsItem) (done : List Expr) (last : Expr) :
    takeAll? ⟨some last, .row done :: os⟩ e.tokens =
      some ⟨some e, .row (done ++ [last]) :: os⟩ := by
  cases h with
  | @name s isName =>
    rw [Expr.tokens, takeAll?_singleton]
    show some (⟨some (operand s), _⟩ : Reading) = _
    rw [operand_of_isName isName]
  | number v =>
    rw [Expr.tokens, numberTokens]
    split
    · rename_i hv
      exact takeAll?_minus hv
    · rename_i hv
      rw [takeAll?_singleton]
      show some (⟨some (operand _), _⟩ : Reading) = _
      rw [operand_digits, number_natAbs hv]

/-- **The items of a row** after the first one. -/
theorem takeAll?_items {items : List Expr} (hitems : ∀ e ∈ items, e.IsItem) (done : List Expr)
    (last : Expr) : takeAll? ⟨some last, .row done :: os⟩
      ((Expr.tokensAll items).flatten ++ [.sign ']']) =
        some ⟨some (.row (done ++ last :: items)), os⟩ := by
  induction items generalizing done last with
  | nil => rfl
  | cons e es ih =>
    obtain ⟨he, hes⟩ := List.forall_mem_cons.1 hitems
    rw [Expr.tokensAll, List.flatten_cons, List.append_assoc,
      takeAll?_append_of_eq (takeAll?_item he done last), ih hes, List.append_assoc]
    rfl

end

/-! ### All readable expressions -/

/-- Items of literal rows are names and numbers, so they are closed. -/
theorem Expr.IsItem.reads {e : Expr} (h : e.IsItem) : Reads true e := by
  cases h with
  | name isName => exact reads_of_takeAll? fun _ hos ↦ takeAll?_name isName hos
  | number v => exact reads_number v

/-- **An expression is read back** from its tokens. -/
theorem Expr.Readable.reads {closed : Bool} {e : Expr} (h : e.Readable closed) :
    Reads closed e := by
  induction h with
  | name isName => exact reads_of_takeAll? fun os hos ↦ takeAll?_name isName hos
  | number v => exact reads_number v
  | text => exact reads_of_takeAll? fun os _ ↦ rfl
  | @row _ es isItem =>
    refine reads_of_takeAll? fun os _ ↦ ?_
    rw [Expr.tokens, List.singleton_append, takeAll?_cons]
    show (some _).bind _ = _
    rw [Option.bind_some]
    -- only a row with items awaits an operand before it is closed
    cases es with
    | nil => rfl
    | cons e es =>
      obtain ⟨he, hes⟩ := List.forall_mem_cons.1 isItem
      rw [Expr.tokensAll, List.flatten_cons, List.append_assoc,
        takeAll?_append_of_eq (he.reads.takeAll?_eq (show Awaits (.row [] :: os) from trivial)),
        takeAll?_items hes]
      rfl
  | emptyCell => exact reads_of_takeAll? fun os _ ↦ rfl
  | @call _ f args isName isFunction _ ih =>
    refine reads_of_takeAll? fun os hos ↦ ?_
    have hopen : takeAll? ⟨none, os⟩ ([.word f] ++ [.sign '(']) =
        some ⟨none, .call f [] :: os⟩ := by
      rw [takeAll?_append_of_eq (takeAll?_name isName hos), takeAll?_singleton]
      exact openParenthesis_function isFunction
    rw [Expr.tokens, takeAll?_append_of_eq hopen]
    by_cases hargs : args = []
    · subst hargs
      rfl
    · exact takeAll?_args ih f [] hargs
  | @item _ a i isName isVariable _ ih =>
    refine reads_of_takeAll? fun os hos ↦ ?_
    obtain ⟨e', os', htake, hclose, -⟩ := ih (.item (.name a) :: os) trivial
    have hopen : takeAll? ⟨none, os⟩ ((Expr.name a).tokens ++ [.sign '(']) =
        some ⟨none, .item (.name a) :: os⟩ := by
      rw [Expr.tokens, takeAll?_append_of_eq (takeAll?_name isName hos), takeAll?_singleton]
      exact openParenthesis_variable isVariable
    rw [Expr.tokens, takeAll?_append_of_eq hopen, takeAll?_append_of_eq htake, takeAll?_singleton]
    exact closeParenthesis_of_close_item hclose
  | @contents _ c i _ _ ihcell ihindex =>
    refine reads_of_takeAll? fun os hos ↦ ?_
    obtain ⟨e', os', htake, hclose, -⟩ := ihindex (.contents c :: os) trivial
    rw [Expr.tokens, List.append_assoc, takeAll?_append_of_eq (ihcell.takeAll?_eq hos),
      List.singleton_append, takeAll?_cons]
    show (some _).bind _ = _
    rw [Option.bind_some, takeAll?_append_of_eq htake, takeAll?_singleton]
    exact closeBrace_of_close hclose
  | @field _ e m _ _ ih =>
    refine reads_of_takeAll? fun os hos ↦ ?_
    rw [Expr.tokens, List.append_assoc, takeAll?_append_of_eq (ih.takeAll?_eq hos)]
    rfl
  | @range a b _ _ ihfirst ihlast =>
    -- an operator stays open until what is behind it is closed
    refine ihlast.operator (o := .range a) rfl (fun os hos ↦ ?_) (fun _ ↦ trivial) fun _ ↦ rfl
    rw [takeAll?_append_of_eq (ihfirst.takeAll?_eq hos)]
    rfl
  | @equal a b _ _ ihleft ihright =>
    refine ihright.operator (o := .equal a) rfl (fun os hos ↦ ?_) (fun _ ↦ trivial) fun _ ↦ rfl
    rw [takeAll?_append_of_eq (ihleft.takeAll?_eq hos)]
    rfl
  | @less a b _ _ ihleft ihright =>
    refine ihright.operator (o := .less a) rfl (fun os hos ↦ ?_) (fun _ ↦ trivial) fun _ ↦ rfl
    rw [takeAll?_append_of_eq (ihleft.takeAll?_eq hos)]
    rfl
  | not _ ih => exact ih.operator (o := .not) rfl (fun _ _ ↦ rfl) (fun _ ↦ trivial) fun _ ↦ rfl
  | thunk _ ih => exact ih.operator (o := .thunk) rfl (fun _ _ ↦ rfl) (fun _ ↦ trivial) fun _ ↦ rfl

/-! ### Expressions at the front of a line -/

/-- Whether a token stands after a whole expression. -/
def Follows (t : Token) : Prop :=
  t ∈ [Token.sign '=', .sign ';', .sign ',']

instance : DecidablePred Follows := fun t ↦
  inferInstanceAs (Decidable (t ∈ [Token.sign '=', .sign ';', .sign ',']))

section

variable {closed : Bool} {e : Expr}

/-- Where an expression has ended it is not gone on with. -/
theorem take?_eq_none {e' : Expr} {os : List Opened} (h : close e' os = (e, [])) {t : Token}
    (ht : Follows t) : take? ⟨some e', os⟩ t = none := by
  rw [Follows, List.mem_cons, List.mem_cons, List.mem_singleton] at ht
  rcases ht with rfl | rfl | rfl
  · rfl
  · rfl
  · exact comma_of_close_nil h

/-- **An expression at the front** of tokens is read back with what comes after it. -/
theorem expr?_tokens_append (h : e.Readable closed) {us : List Token}
    (hus : ∀ t ∈ us.head?, Follows t) : expr? (e.tokens ++ us) = some (e, us) := by
  obtain ⟨e', os, htake, hclose, -⟩ := h.reads [] trivial
  have hresult : result? ⟨some e', os⟩ = some e := result?_of_close hclose
  show Reading.expr? ⟨none, []⟩ _ = _
  rw [expr?_append htake]
  cases us with
  | nil => rw [Reading.expr?, hresult, Option.map_some]
  | cons t us => rw [Reading.expr?, take?_eq_none hclose (hus t rfl), hresult, Option.map_some]

/-- The case of tokens with nothing after them. -/
theorem expr?_tokens (h : e.Readable closed) : expr? e.tokens = some (e, []) := by
  have hread : expr? (e.tokens ++ []) = some (e, []) :=
    expr?_tokens_append h fun _ ht ↦ absurd ht (Option.not_mem_none _)
  rwa [List.append_nil] at hread

/-- The case of a token that no expression goes on with. -/
theorem expr?_tokens_cons (h : e.Readable closed) {t : Token} (ht : Follows t) (us : List Token) :
    expr? (e.tokens ++ t :: us) = some (e, t :: us) :=
  expr?_tokens_append h fun _ heq ↦ Option.some.inj heq ▸ ht

end

/-- Whether a token begins an expression. -/
structure Begins (t : Token) : Prop where
  ne_percent : t ≠ .sign '%'
  ne_keyword : ∀ k ∈ keywords, t ≠ .word k

theorem begins_word {s : String} (h : s ∉ keywords) : Begins (.word s) :=
  ⟨nofun, fun _ hk heq ↦ h (Token.word.inj heq ▸ hk)⟩

/-- Digits are no word of the language. -/
theorem digits_notMem_keywords (n : Nat) : digits n ∉ keywords := by
  intro h
  have hletter : ∀ k ∈ keywords, natural? k.toList = none := by decide
  exact absurd (natural?_digits n) (by rw [hletter _ h]; exact nofun)

/-- A readable expression has a first token, which no other line begins with. -/
theorem Expr.Readable.exists_begins {closed : Bool} {e : Expr} (h : e.Readable closed) :
    ∃ t ts, e.tokens = t :: ts ∧ Begins t := by
  -- an expression that begins with another one
  have hleft {e : Expr} {ts us : List Token} (h : ∃ t ts, e.tokens = t :: ts ∧ Begins t) :
      ∃ t vs, e.tokens ++ ts ++ us = t :: vs ∧ Begins t := by
    obtain ⟨t, vs, htokens, hbegins⟩ := h
    exact ⟨t, vs ++ ts ++ us, by rw [htokens]; rfl, hbegins⟩
  have hsign {c : Char} (hc : c ≠ '%') : Begins (.sign c) :=
    ⟨fun heq ↦ hc (Token.sign.inj heq), fun _ _ ↦ nofun⟩
  induction h with
  | name isName => exact ⟨_, _, rfl, begins_word isName.notMem⟩
  | number v =>
    rw [Expr.tokens, numberTokens]
    split
    · exact ⟨_, _, rfl, hsign (by decide)⟩
    · exact ⟨_, _, rfl, begins_word (digits_notMem_keywords _)⟩
  | text => exact ⟨_, _, rfl, nofun, fun _ _ ↦ nofun⟩
  | row | emptyCell | not | thunk => exact ⟨_, _, rfl, hsign (by decide)⟩
  | call isName => exact ⟨_, _, rfl, begins_word isName.notMem⟩
  | item isName => exact ⟨_, _, rfl, begins_word isName.notMem⟩
  | contents _ _ ih | field _ _ ih | range _ _ ih | equal _ _ ih | less _ _ ih => exact hleft ih

/-! ### Texts of expressions -/

/-- Tokens without anything between them. -/
theorem intercalate_nil_tokens (tss : List (List Token)) :
    ([] : List Token).intercalate tss = tss.flatten := by
  induction tss with
  | nil => rfl
  | cons ts tss ih =>
    cases tss with
    | nil => rw [List.intercalate_singleton, List.flatten_singleton]
    | cons us tss =>
      rw [List.intercalate_cons_cons, List.append_nil, ih, List.flatten_cons (l := ts)]

/-- Texts of tokens, with a separator between them. -/
theorem lexes_intercalate (sep : String) {seps : List Token} (hsep : LexesAlways sep seps)
    (hne : sep.toList ≠ []) (hstops : Stops sep.toList) {es : List Expr}
    (h : ∀ e ∈ es, Lexes e.print e.tokens) :
    Lexes (sep.intercalate (Expr.printAll es)) (seps.intercalate (Expr.tokensAll es)) := by
  induction es with
  | nil => exact fun rest _ ↦ Option.map_id_apply.symm
  | cons e es ih =>
    obtain ⟨he, hes⟩ := List.forall_mem_cons.1 h
    cases es with
    | nil =>
      rw [Expr.printAll, Expr.printAll, String.intercalate_singleton, Expr.tokensAll,
        Expr.tokensAll, List.intercalate_singleton]
      exact he
    | cons e' es =>
      have hrest := ih hes
      rw [Expr.printAll, Expr.tokensAll] at hrest
      rw [Expr.printAll, Expr.printAll, String.intercalate_cons_cons, Expr.tokensAll,
        Expr.tokensAll, List.intercalate_cons_cons]
      exact (he.append_always hsep hne hstops).append hrest

/-- The text of a number is its sign and its digits. -/
theorem lexes_integerText (v : Int) : Lexes (Json.integerText v) (numberTokens v) := by
  rw [Json.integerText, numberTokens, String.ofList_append]
  split
  · exact (lexesAlways_of_run rfl : LexesAlways "-" [.sign '-']).append
      (lexes_word (isWord_digits _))
  · rw [show String.ofList [] = "" from rfl, String.empty_append]
    exact lexes_word (isWord_digits _)

/-- A text that goes on with signs, and then with another text. -/
theorem Lexes.signs {s t u : String} {ts us vs : List Token} (hs : Lexes s ts)
    (ht : LexesAlways t us) (hu : Lexes u vs) (hne : t.toList ≠ []) (hstops : Stops t.toList) :
    Lexes (s ++ t ++ u) (ts ++ us ++ vs) :=
  (hs.append_always ht hne hstops).append hu

/-- **The text of an expression** is made of its tokens. -/
theorem Expr.Readable.lexes {closed : Bool} {e : Expr} (h : e.Readable closed) :
    Lexes e.print e.tokens := by
  -- items of rows are words and numbers, so they need no induction
  have hitem {e : Expr} (h : e.IsItem) : Lexes e.print e.tokens := by
    cases h with
    | name isName => exact lexes_word isName.isWord
    | number v => exact lexes_integerText v
  induction h with
  | name isName => exact lexes_word isName.isWord
  | number v => exact lexes_integerText v
  | text => exact lexes_quoted _
  | row isItem =>
    rw [Expr.print, Expr.tokens, ← List.append_assoc, ← intercalate_nil_tokens]
    have hitems := lexes_intercalate " " (lexesAlways_of_run rfl) (by decide) rfl
      fun e he ↦ hitem (isItem e he)
    exact ((lexesAlways_of_run (s := "[") rfl).append hitems).append (lexesAlways_of_run rfl).lexes
      rfl
  | emptyCell => exact (lexesAlways_of_run rfl).lexes
  | call isName _ _ ih =>
    rw [Expr.print, Expr.tokens, ← List.append_assoc]
    have hargs := lexes_intercalate ", " (lexesAlways_of_run rfl) (by decide) rfl ih
    exact ((lexes_word isName.isWord).signs (t := "(") (lexesAlways_of_run rfl) hargs (by decide)
      rfl).append (lexesAlways_of_run rfl).lexes rfl
  | item isName _ _ ih =>
    rw [Expr.print, Expr.tokens, ← List.append_assoc]
    exact ((lexes_word isName.isWord).signs (t := "(") (lexesAlways_of_run rfl) ih (by decide)
      rfl).append (lexesAlways_of_run rfl).lexes rfl
  | contents _ _ ihcell ihindex =>
    rw [Expr.print, Expr.tokens, ← List.append_assoc]
    exact (ihcell.signs (t := "\x7b") (lexesAlways_of_run rfl) ihindex (by decide) rfl).append
      (lexesAlways_of_run rfl).lexes rfl
  | field _ isWord ih =>
    rw [Expr.print, Expr.tokens]
    exact ih.signs (lexesAlways_of_run rfl) (lexes_word isWord) (by decide) rfl
  | range _ _ ihleft ihright | equal _ _ ihleft ihright | less _ _ ihleft ihright =>
    rw [Expr.print, Expr.tokens]
    exact ihleft.signs (lexesAlways_of_run rfl) ihright (by decide) rfl
  | not _ ih | thunk _ ih =>
    rw [Expr.print, Expr.tokens]
    exact (lexesAlways_of_run rfl).append ih

theorem IsWord.unbroken {s : String} (h : IsWord s) : Unbroken s :=
  h.2.unbroken

/-- Texts with a separator between them are on one line if all are. -/
theorem unbroken_intercalate_printAll (sep : String) (hsep : Unbroken sep) {es : List Expr}
    (h : ∀ e ∈ es, Unbroken e.print) : Unbroken (sep.intercalate (Expr.printAll es)) := by
  refine unbroken_iff.2 (forall_mem_intercalate (unbroken_iff.1 hsep) fun t ht ↦ ?_)
  have hprint : Expr.printAll es = es.map Expr.print := by
    rw [← List.map_id es, printAll_map, List.map_id]
    rfl
  rw [hprint] at ht
  obtain ⟨e, he, rfl⟩ := List.mem_map.1 ht
  exact unbroken_iff.1 (h e he)

/-- The text of an expression is on one line. -/
theorem Expr.Readable.unbroken {closed : Bool} {e : Expr} (h : e.Readable closed) :
    Unbroken e.print := by
  have hitem {e : Expr} (h : e.IsItem) : Unbroken e.print := by
    cases h with
    | name isName => exact isName.isWord.unbroken
    | number v => exact unbroken_integerText v
  induction h with
  | name isName => exact isName.isWord.unbroken
  | number v => exact unbroken_integerText v
  | text unbroken => exact unbroken_quoted unbroken
  | row isItem =>
    rw [Expr.print]
    exact (Unbroken.append (s := "[") rfl (unbroken_intercalate_printAll " " rfl
      fun e he ↦ hitem (isItem e he))).append (t := "]") rfl
  | emptyCell => rfl
  | call isName _ _ ih =>
    rw [Expr.print]
    exact ((isName.isWord.unbroken.append (t := "(") rfl).append
      (unbroken_intercalate_printAll ", " rfl ih)).append (t := ")") rfl
  | item isName _ _ ih =>
    rw [Expr.print]
    exact ((isName.isWord.unbroken.append (t := "(") rfl).append ih).append (t := ")") rfl
  | contents _ _ ihcell ihindex =>
    rw [Expr.print]
    exact ((ihcell.append (t := "\x7b") rfl).append ihindex).append (t := "\x7d") rfl
  | field _ isWord ih => exact (ih.append (t := ".") rfl).append isWord.unbroken
  | range _ _ ihleft ihright => exact (ihleft.append (t := ":") rfl).append ihright
  | equal _ _ ihleft ihright => exact (ihleft.append (t := " == ") rfl).append ihright
  | less _ _ ihleft ihright => exact (ihleft.append (t := " < ") rfl).append ihright
  | not _ ih => exact .append (s := "~") rfl ih
  | thunk _ ih => exact .append (s := "@() ") rfl ih

end Matlab

end GraphCodec
