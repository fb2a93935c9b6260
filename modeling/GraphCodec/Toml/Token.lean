import GraphCodec.Json.Token
import GraphCodec.Toml.Basic

/-!
# TOML text as tokens

Characters become punctuation, strings, blanks, line ends and bare runs of everything else;
comments disappear. Whether a bare run is a key or part of a number depends on where it stands, so
this is left to the reader of the tokens.

Strings have four forms. The basic forms have escapes, the literal ones do not; the forms with
three quotation marks may run over several lines, whose breaks are kept as they are written, and a
line break right after the opening marks does not count. Control characters other than the tab stand nowhere, and a carriage return only
before a line feed.
-/

namespace GraphCodec

namespace Toml

/-- A token of TOML text. -/
inductive Token where
  | dot
  | equals
  | comma
  | openBracket
  | closeBracket
  | openBrace
  | closeBrace
  | newline
  /-- Blanks and tabs; a date and a time may be joined by a single blank. -/
  | space (isSingleBlank : Bool)
  /-- A string; one over several lines cannot be a key. -/
  | text (s : String) (multiline : Bool)
  /-- A run of other characters. -/
  | bare (cs : List Char)
  deriving DecidableEq, Repr

namespace Token

/-! ### Strings -/

/-- Whether a character may stand for itself in strings and comments. -/
def isPlain (c : Char) : Bool :=
  c == '\t' || (32 ≤ c.toNat && c.toNat != 127)

/-- Whether a character is a blank within a line. -/
def isSpace (c : Char) : Bool :=
  c == ' ' || c == '\t'

/-- The number with the given hexadecimal digits. -/
def hexValue? (cs : List Char) : Option Nat :=
  cs.foldlM (fun n c ↦ (Json.Token.hexDigit? c).map (16 * n + ·)) 0

/-- The scalar value with the given hexadecimal digits. -/
def scalar? (cs : List Char) : Option Char :=
  (hexValue? cs).bind fun n ↦
    if n < 0xD800 ∨ (0xE000 ≤ n ∧ n < 0x110000) then some (Char.ofNat n) else none

/-- The character of the escape after a backslash, and what follows it. -/
def escape? : List Char → Option (Char × List Char)
  | 'b' :: cs => some ('\x08', cs)
  | 't' :: cs => some ('\t', cs)
  | 'n' :: cs => some ('\n', cs)
  | 'f' :: cs => some ('\x0c', cs)
  | 'r' :: cs => some ('\r', cs)
  | 'e' :: cs => some ('\x1b', cs)
  | '"' :: cs => some ('"', cs)
  | '\\' :: cs => some ('\\', cs)
  | 'x' :: a :: b :: cs => (scalar? [a, b]).map (·, cs)
  | 'u' :: a :: b :: c :: d :: cs => (scalar? [a, b, c, d]).map (·, cs)
  | 'U' :: a :: b :: c :: d :: e :: f :: g :: h :: cs =>
    (scalar? [a, b, c, d, e, f, g, h]).map (·, cs)
  | _ => none

theorem length_lt_of_escape?_eq_some {cs rest : List Char} {c : Char}
    (h : escape? cs = some (c, rest)) : rest.length < cs.length := by
  unfold escape? at h
  split at h
  all_goals
    simp only [Option.map_eq_some_iff, Option.some.injEq, Prod.mk.injEq, reduceCtorEq] at h
  all_goals
    obtain ⟨_, _, _, rfl⟩ := h
    simp only [List.length_cons]
    omega

/-- The characters of a basic string after its opening mark, put before `done` in reverse, and
what follows the closing one. -/
def basic? (done : List Char) : List Char → Option (List Char × List Char)
  | [] => none
  | c :: cs =>
    if c = '"' then some (done.reverse, cs)
    else if c = '\\' then
      match _h : escape? cs with
      | some (e, rest) => basic? (e :: done) rest
      | none => none
    else if isPlain c then basic? (c :: done) cs
    else none
  termination_by cs => cs.length
  decreasing_by
    · have := length_lt_of_escape?_eq_some _h
      simp
      omega
    · simp

/-- The characters of a literal string after its opening mark. -/
def literal? (done : List Char) : List Char → Option (List Char × List Char)
  | [] => none
  | c :: cs =>
    if c = '\'' then some (done.reverse, cs)
    else if isPlain c then literal? (c :: done) cs
    else none

/-- A run of at least three closing marks: the last three close, up to two before them count. -/
def closing? (mark : Char) : List Char → Option (List Char × List Char)
  | a :: b :: c :: cs =>
    if a = mark ∧ b = mark ∧ c = mark then
      match cs with
      | d :: e :: cs' =>
        if d = mark ∧ e = mark then some ([mark, mark], cs')
        else if d = mark then some ([mark], e :: cs')
        else some ([], cs)
      | [d] => if d = mark then some ([mark], []) else some ([], [d])
      | [] => some ([], [])
    else none
  | _ => none

/-- The characters of a literal string over several lines. -/
def literalLines? (done : List Char) (cs : List Char) : Option (List Char × List Char) :=
  match closing? '\'' cs with
  | some (marks, rest) => some (done.reverse ++ marks, rest)
  | none =>
    match cs with
    | '\r' :: '\n' :: cs => literalLines? ('\n' :: '\r' :: done) cs
    | c :: cs => if c = '\n' ∨ isPlain c then literalLines? (c :: done) cs else none
    | [] => none

/-- How the characters of a basic string over several lines are read. -/
inductive LineMode where
  /-- They count. -/
  | counting
  /-- After a backslash at the end of a line, blanks before the line break do not count. -/
  | toLineEnd
  /-- Nor do blanks and line breaks after it. -/
  | skipping
  deriving DecidableEq, Repr

/-- The characters of a basic string over several lines. -/
def basicLines? (mode : LineMode) (done : List Char) (cs : List Char) :
    Option (List Char × List Char) :=
  match mode with
  | .toLineEnd =>
    match cs with
    | '\r' :: '\n' :: cs => basicLines? .skipping done cs
    | '\n' :: cs => basicLines? .skipping done cs
    | c :: cs => if isSpace c then basicLines? .toLineEnd done cs else none
    | [] => none
  | .skipping =>
    match cs with
    | '\r' :: '\n' :: cs => basicLines? .skipping done cs
    | '\n' :: cs => basicLines? .skipping done cs
    | c :: cs' =>
      if isSpace c then basicLines? .skipping done cs' else basicLines? .counting done (c :: cs')
    | [] => none
  | .counting =>
    match closing? '"' cs with
    | some (marks, rest) => some (done.reverse ++ marks, rest)
    | none =>
      match cs with
      | '\r' :: '\n' :: cs => basicLines? .counting ('\n' :: '\r' :: done) cs
      | '\\' :: cs =>
        match _h : escape? cs with
        | some (e, rest) => basicLines? .counting (e :: done) rest
        | none => basicLines? .toLineEnd done cs
      | c :: cs =>
        if c = '\n' ∨ isPlain c then basicLines? .counting (c :: done) cs else none
      | [] => none
  termination_by 2 * cs.length + (if mode = .skipping then 1 else 0)
  decreasing_by
    all_goals
      try have := length_lt_of_escape?_eq_some _h
      simp
      try omega

theorem length_lt_of_basic?_eq_some {done cs s rest : List Char}
    (h : basic? done cs = some (s, rest)) : rest.length < cs.length := by
  fun_induction basic? done cs with
  | case1 => cases h
  | case2 => simp_all
  | case3 _ _ _ _ he _ ih =>
    have := length_lt_of_escape?_eq_some he
    have := ih h
    simp only [List.length_cons]
    omega
  | case4 => cases h
  | case5 _ _ _ _ _ _ ih => exact Nat.lt_succ_of_lt (ih h)
  | case6 => cases h

theorem length_lt_of_literal?_eq_some {done cs s rest : List Char}
    (h : literal? done cs = some (s, rest)) : rest.length < cs.length := by
  fun_induction literal? done cs with
  | case1 => cases h
  | case2 => simp_all
  | case3 _ _ _ _ _ ih => exact Nat.lt_succ_of_lt (ih h)
  | case4 => cases h

theorem length_lt_of_closing?_eq_some {mark : Char} {cs marks rest : List Char}
    (h : closing? mark cs = some (marks, rest)) : rest.length < cs.length := by
  unfold closing? at h
  repeat' split at h
  all_goals
    simp only [Option.some.injEq, Prod.mk.injEq, reduceCtorEq] at h
  all_goals
    obtain ⟨_, rfl⟩ := h
    simp only [List.length_cons, List.length_nil]
    omega

theorem length_lt_of_literalLines?_eq_some {done cs s rest : List Char}
    (h : literalLines? done cs = some (s, rest)) : rest.length < cs.length := by
  fun_induction literalLines? done cs with
  | case1 _ _ _ _ hc =>
    simp only [Option.some.injEq, Prod.mk.injEq] at h
    exact h.2 ▸ length_lt_of_closing?_eq_some hc
  | case2 _ _ _ ih =>
    have := ih h
    simp only [List.length_cons]
    omega
  | case3 _ _ _ _ _ _ ih => exact Nat.lt_succ_of_lt (ih h)
  | case4 => cases h
  | case5 => cases h

theorem length_lt_of_basicLines?_eq_some {mode : LineMode} {done cs s rest : List Char}
    (h : basicLines? mode done cs = some (s, rest)) : rest.length < cs.length := by
  fun_induction basicLines? mode done cs <;>
    grind [→ length_lt_of_closing?_eq_some, → length_lt_of_escape?_eq_some]

/-- What follows a line break, if there is one at the front. -/
def afterNewline : List Char → List Char
  | '\r' :: '\n' :: cs => cs
  | '\n' :: cs => cs
  | cs => cs

/-- A string token from its opening mark on, and what follows it. -/
def string? : List Char → Option (Token × List Char)
  | '"' :: '"' :: '"' :: cs =>
    (basicLines? .counting [] (afterNewline cs)).map fun r ↦ (text (String.ofList r.1) true, r.2)
  | '\'' :: '\'' :: '\'' :: cs =>
    (literalLines? [] (afterNewline cs)).map fun r ↦ (text (String.ofList r.1) true, r.2)
  | '"' :: cs => (basic? [] cs).map fun r ↦ (text (String.ofList r.1) false, r.2)
  | '\'' :: cs => (literal? [] cs).map fun r ↦ (text (String.ofList r.1) false, r.2)
  | _ => none

theorem length_afterNewline_le (cs : List Char) : (afterNewline cs).length ≤ cs.length := by
  unfold afterNewline
  split
  · exact Nat.le_succ_of_le (Nat.le_succ _)
  · exact Nat.le_succ _
  · exact Nat.le_refl _

theorem length_lt_of_string?_eq_some {cs rest : List Char} {t : Token}
    (h : string? cs = some (t, rest)) : rest.length < cs.length := by
  unfold string? at h
  split at h
  · obtain ⟨r, hr, hrest⟩ := Option.map_eq_some_iff.1 h
    have := length_lt_of_basicLines?_eq_some hr
    have := length_afterNewline_le ‹List Char›
    simp only [Prod.mk.injEq] at hrest
    rw [← hrest.2]
    simp only [List.length_cons]
    omega
  · obtain ⟨r, hr, hrest⟩ := Option.map_eq_some_iff.1 h
    have := length_lt_of_literalLines?_eq_some hr
    have := length_afterNewline_le ‹List Char›
    simp only [Prod.mk.injEq] at hrest
    rw [← hrest.2]
    simp only [List.length_cons]
    omega
  · obtain ⟨r, hr, hrest⟩ := Option.map_eq_some_iff.1 h
    have := length_lt_of_basic?_eq_some hr
    simp only [Prod.mk.injEq] at hrest
    rw [← hrest.2]
    exact Nat.lt_succ_of_lt this
  · obtain ⟨r, hr, hrest⟩ := Option.map_eq_some_iff.1 h
    have := length_lt_of_literal?_eq_some hr
    simp only [Prod.mk.injEq] at hrest
    rw [← hrest.2]
    exact Nat.lt_succ_of_lt this
  · cases h

/-! ### The text as a whole -/

/-- The token of a punctuation character. -/
def punctuation? : Char → Option Token
  | '.' => some dot
  | '=' => some equals
  | ',' => some comma
  | '[' => some openBracket
  | ']' => some closeBracket
  | '{' => some openBrace
  | '}' => some closeBrace
  | _ => none

/-- Whether a character may stand in a bare run. -/
def isBare (c : Char) : Bool :=
  (punctuation? c).isNone && !isSpace c && c != '\n' && c != '\r' && c != '#' && c != '"' &&
    c != '\''

/-- One token from the front of a text, if it is not a comment, and what follows. -/
def next? : List Char → Option (Option Token × List Char)
  | [] => none
  | '\r' :: '\n' :: cs => some (some newline, cs)
  | '\n' :: cs => some (some newline, cs)
  | '#' :: cs =>
    let body := cs.takeWhile fun c ↦ c != '\n' && c != '\r'
    if body.all isPlain then some (none, cs.dropWhile fun c ↦ c != '\n' && c != '\r') else none
  | c :: cs =>
    match punctuation? c with
    | some t => some (some t, cs)
    | none =>
      if isSpace c then
        some (some (space (c == ' ' && (cs.takeWhile isSpace).isEmpty)), cs.dropWhile isSpace)
      else if c = '"' ∨ c = '\'' then (string? (c :: cs)).map fun r ↦ (some r.1, r.2)
      else if isBare c then
        some (some (bare (c :: cs.takeWhile isBare)), cs.dropWhile isBare)
      else none

theorem length_dropWhile_le (p : Char → Bool) (cs : List Char) :
    (cs.dropWhile p).length ≤ cs.length :=
  (List.dropWhile_sublist p).length_le

/-- Every token takes at least one character. -/
theorem length_lt_of_next?_eq_some {cs rest : List Char} {t : Option Token}
    (h : next? cs = some (t, rest)) : rest.length < cs.length := by
  unfold next? at h
  split at h
  · cases h
  · simp only [Option.some.injEq, Prod.mk.injEq] at h
    rw [← h.2]
    exact Nat.lt_succ_of_lt (Nat.lt_succ_self _)
  · simp only [Option.some.injEq, Prod.mk.injEq] at h
    exact h.2 ▸ Nat.lt_succ_self _
  · dsimp only at h
    split at h
    · simp only [Option.some.injEq, Prod.mk.injEq] at h
      rw [← h.2]
      exact Nat.lt_succ_of_le (length_dropWhile_le _ _)
    · cases h
  · split at h
    · simp only [Option.some.injEq, Prod.mk.injEq] at h
      exact h.2 ▸ Nat.lt_succ_self _
    · split at h
      · simp only [Option.some.injEq, Prod.mk.injEq] at h
        rw [← h.2]
        exact Nat.lt_succ_of_le (length_dropWhile_le _ _)
      · split at h
        · obtain ⟨r, hr, hrest⟩ := Option.map_eq_some_iff.1 h
          simp only [Prod.mk.injEq] at hrest
          rw [← hrest.2]
          exact length_lt_of_string?_eq_some hr
        · split at h
          · simp only [Option.some.injEq, Prod.mk.injEq] at h
            rw [← h.2]
            exact Nat.lt_succ_of_le (length_dropWhile_le _ _)
          · cases h

/-- The tokens of a text, after those in `done`, which are in reverse. -/
def scan (done : List Token) (cs : List Char) : Option (List Token) :=
  match cs with
  | [] => some done.reverse
  | c :: cs =>
    match _h : next? (c :: cs) with
    | none => none
    | some (t, rest) => scan (match t with | some t => t :: done | none => done) rest
  termination_by cs.length
  decreasing_by exact length_lt_of_next?_eq_some _h

end Token

end Toml

end GraphCodec
