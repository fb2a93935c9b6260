import GraphCodec.Matlab.Wrapper
import GraphCodec.Proofs.Decoding

/-!
# Replaying code that writes literals

Code that saves a file image begins with statements which write literals. `replay` executes these in
a text, line by line: a statement of `fwrite` stands for the bytes of its literal, and all other
lines, comments too, write nothing. A literal is an integer or a row of integers, each stored in a
word or in a byte, or a text between quotes, in which a quote is written twice.

Whatever the literals are that stand for integers and for the bytes of names, replaying gives these
integers and bytes back (`word?_integerText`, `bytes?_byteLiteral`).
-/

namespace GraphCodec

namespace Matlab

/-! ### Reading literals -/

/-- What stands between a front and a back. -/
def between? (front back l : List Char) : Option (List Char) :=
  (l.dropPrefix? front).bind fun rest ↦ rest.dropSuffix? back

/-- The number that digits mean. -/
def natural? (digits : List Char) : Option Nat :=
  if digits ≠ [] ∧ digits.all Char.isDigit then some (Nat.ofDigitChars 10 digits 0) else none

/-- The integer that a literal means. -/
def integer? : List Char → Option Int
  | '-' :: digits => (natural? digits).map Int.negOfNat
  | digits => (natural? digits).map Int.ofNat

/-- The stored form of an integer as a word, if it is one. -/
def word? (literal : List Char) : Option (List UInt8) := do
  let v ← integer? literal
  if -2 ^ 31 ≤ v ∧ v < 2 ^ 31 then some (Word.ofInt32 (.ofInt v)) else none

/-- The stored form of an integer as a byte, if it is one. -/
def byte? (literal : List Char) : Option (List UInt8) := do
  let n ← natural? literal
  if n < 2 ^ 8 then some [.ofNat n] else none

/-- The literals in a row between brackets; without brackets there is only one. -/
def rowItems (literal : List Char) : List (List Char) :=
  match between? ['['] [']'] literal with
  | some items => items.splitOn ' '
  | none => [literal]

/-- The characters of a text in which quotes are written twice. -/
def unquote? : List Char → Option (List Char)
  | [] => some []
  | '\'' :: '\'' :: cs => (unquote? cs).map ('\'' :: ·)
  | '\'' :: _ => none
  | c :: cs => (unquote? cs).map (c :: ·)

/-- The words that a literal stands for. -/
def words? (literal : List Char) : Option (List UInt8) :=
  ((rowItems literal).mapM word?).map List.flatten

/-- The bytes that a literal stands for: those of a text, or those of a row of numbers. -/
def bytes? (literal : List Char) : Option (List UInt8) :=
  match between? "uint8(".toList [')'] literal with
  | some row => ((rowItems row).mapM byte?).map List.flatten
  | none => do
    let cs ← unquote? (← between? ['\''] ['\''] literal)
    return Utf8.bytes (String.ofList cs)

/-! ### Executing lines -/

/-- What a line writes. -/
def written? (line : List Char) : Option (List UInt8) :=
  if !"fwrite(".toList.isPrefixOf line then some []
  else
    match between? "fwrite(fid, ".toList ", 'int32');".toList line with
    | some literal => words? literal
    | none => (between? "fwrite(fid, ".toList ", 'uint8');".toList line).bind bytes?

/-- Whether a character ends a line. -/
def endsLine (c : Char) : Bool :=
  c == '\n' || c == '\r'

/-- What the lines before the line `call` write, one after the other. -/
def replayLines (call : List Char) : List (List Char) → Option (List UInt8)
  | [] => none
  | line :: lines =>
    let statement := line.dropWhile (· == ' ')
    if statement = call then some []
    else do
      let bs ← written? statement
      let rest ← replayLines call lines
      return bs ++ rest

/-- What the code that saves a file image writes before it calls the function that writes records of
the type of an identifier. -/
def replay (ident text : String) : Option (List UInt8) :=
  replayLines ("write_" ++ ident ++ "(fid, s);").toList (text.toList.splitOnP endsLine)

/-! ### Literals are read back -/

/-- What is between two known parts is found. -/
theorem between?_append (front mid back : List Char) :
    between? front back (front ++ (mid ++ back)) = some mid := by
  unfold between?
  rw [List.dropPrefix?_append_of_beq _ (beq_self_eq_true front)]
  exact List.dropSuffix?_eq_some_iff.2 ⟨back, rfl, beq_self_eq_true back⟩

/-- Nothing is found behind a front that begins with another character. -/
theorem between?_eq_none {c : Char} {front back l : List Char} (hl : l.head? ≠ some c) :
    between? (c :: front) back l = none := by
  unfold between?
  rw [Option.bind_eq_none_iff]
  intro rest hrest
  obtain ⟨front', rfl, hfront⟩ := List.dropPrefix?_eq_some_iff.1 hrest
  obtain rfl := eq_of_beq hfront
  exact absurd rfl hl

/-- Digits are read back. -/
theorem natural?_toDigits (n : Nat) : natural? (Nat.toDigits 10 n) = some n := by
  have hdigits : (Nat.toDigits 10 n).all Char.isDigit = true :=
    List.all_eq_true.2 fun c hc ↦ Nat.isDigit_of_mem_toDigits (by decide) (by decide) hc
  unfold natural?
  rw [if_pos ⟨Nat.toDigits_ne_nil, hdigits⟩, Nat.ofDigitChars_ten_toDigits]

/-- The text of an integer is a literal for it. -/
theorem integer?_integerText (v : Int) : integer? (Json.integerText v).toList = some v := by
  unfold Json.integerText
  rw [String.toList_ofList]
  by_cases hv : v < 0
  · rw [if_pos hv]
    rw [List.singleton_append, integer?, natural?_toDigits, Option.map_some, Int.negOfNat_eq,
      Int.ofNat_eq_natCast]
    exact congrArg some (by omega)
  · rw [if_neg hv, List.nil_append]
    have hhead : ∀ digits, Nat.toDigits 10 v.natAbs ≠ '-' :: digits := by
      intro digits h
      have hmem : '-' ∈ Nat.toDigits 10 v.natAbs := h ▸ List.mem_cons_self
      exact absurd (Nat.isDigit_of_mem_toDigits (by decide) (by decide) hmem) (by decide)
    rw [integer?.eq_2 _ hhead, natural?_toDigits, Option.map_some]
    exact congrArg some (Int.natAbs_of_nonneg (by omega))

/-- A word with a sign is read back from its number. -/
theorem word?_integerText (v : Int32) :
    word? (Json.integerText v.toInt).toList = some (Word.ofInt32 v) := by
  have hrange : -2 ^ 31 ≤ v.toInt ∧ v.toInt < 2 ^ 31 := ⟨v.le_toInt, v.toInt_lt⟩
  unfold word?
  rw [integer?_integerText]
  show (if _ then _ else _) = _
  rw [if_pos hrange, Int32.ofInt_toInt]

theorem toList_integerText_natCast (n : Nat) :
    (Json.integerText n).toList = Nat.toDigits 10 n := by
  unfold Json.integerText
  rw [String.toList_ofList, if_neg (by omega)]
  rfl

theorem byte?_integerText (b : UInt8) :
    byte? (Json.integerText b.toNat).toList = some [b] := by
  unfold byte?
  rw [toList_integerText_natCast, natural?_toDigits]
  show (if _ then _ else _) = _
  rw [if_pos b.toNat_lt, UInt8.ofNat_toNat]

/-- The characters of the text of an integer: a sign or digits. -/
theorem mem_toList_integerText {v : Int} {c : Char} (h : c ∈ (Json.integerText v).toList) :
    c = '-' ∨ c.isDigit = true := by
  unfold Json.integerText at h
  rw [String.toList_ofList, List.mem_append] at h
  rcases h with h | h
  · split_ifs at h
    · exact .inl (List.mem_singleton.1 h)
    · cases h
  · exact .inr (Nat.isDigit_of_mem_toDigits (by decide) (by decide) h)

/-- Numbers have no other characters than digits and the sign. -/
theorem not_mem_toList_integerText {v : Int} {c : Char} (hsign : c ≠ '-')
    (hdigit : c.isDigit = false) : c ∉ (Json.integerText v).toList := by
  intro h
  rcases mem_toList_integerText h with rfl | hdigit'
  · exact hsign rfl
  · exact absurd hdigit' (by rw [hdigit]; decide)

/-- A literal without brackets is the only one. -/
theorem rowItems_integerText (v : Int) :
    rowItems (Json.integerText v).toList = [(Json.integerText v).toList] := by
  have hhead : (Json.integerText v).toList.head? ≠ some '[' := fun h ↦
    not_mem_toList_integerText (by decide) (by decide) (List.mem_of_head? h)
  unfold rowItems
  rw [between?_eq_none hhead]

/-- Arguments are printed one by one. -/
theorem printAll_map {α : Type} (f : α → Expr) (as : List α) :
    Expr.printAll (as.map f) = as.map fun a ↦ (f a).print := by
  induction as with
  | nil => rfl
  | cons a as ih => exact congrArg _ ih

/-- The literals in a row of integers. -/
theorem rowItems_row {vs : List Int} (hvs : vs ≠ []) :
    rowItems (Expr.row (vs.map .number)).print.toList =
      vs.map fun v ↦ (Json.integerText v).toList := by
  have hprint : (Expr.row (vs.map .number)).print.toList =
      ['['] ++ ([' '].intercalate (vs.map fun v ↦ (Json.integerText v).toList) ++ [']']) := by
    rw [Expr.print, printAll_map, String.toList_append, String.toList_append,
      String.toList_intercalate, List.map_map]
    rfl
  unfold rowItems
  rw [hprint, between?_append]
  refine List.splitOn_intercalate ' ' (fun l hl ↦ ?_) (by simpa using hvs)
  obtain ⟨v, -, rfl⟩ := List.mem_map.1 hl
  exact not_mem_toList_integerText (by decide) (by decide)

/-- Doubled quotes are undone. -/
theorem unquote?_quoteChars (cs : List Char) : unquote? (quoteChars cs) = some cs := by
  induction cs using quoteChars.induct with
  | case1 => rfl
  | case2 cs ih => rw [quoteChars, unquote?, ih]; rfl
  | case3 c cs hc ih =>
    rw [quoteChars.eq_3 _ _ hc, unquote?.eq_4 _ _ (fun _ h _ ↦ hc h) hc, ih]
    rfl

theorem toList_quoted (s : String) :
    (quoted s).toList = ['\''] ++ (quoteChars s.toList ++ ['\'']) := by
  rw [quoted, String.toList_ofList]
  rfl

/-- A text between quotes stands for its bytes. -/
theorem bytes?_quoted (s : String) : bytes? (quoted s).toList = some (Utf8.bytes s) := by
  have hhead : (quoted s).toList.head? ≠ some 'u' := by
    rw [toList_quoted]
    exact (by decide : some '\'' ≠ some 'u')
  unfold bytes?
  rw [show "uint8(".toList = ['u', 'i', 'n', 't', '8', '('] from rfl, between?_eq_none hhead,
    toList_quoted, between?_append]
  show (unquote? (quoteChars s.toList) >>= _) = _
  rw [unquote?_quoteChars]
  exact congrArg (fun s ↦ some (Utf8.bytes s)) String.ofList_toList

/-- A list is read if each of its elements is. -/
theorem mapM_eq_some_map {α β : Type} {f : α → Option β} {g : α → β} {as : List α}
    (h : ∀ a ∈ as, f a = some (g a)) : as.mapM f = some (as.map g) := by
  induction as with
  | nil => rfl
  | cons a as ih =>
    rw [List.mapM_cons, h a List.mem_cons_self, ih fun b hb ↦ h b (List.mem_cons_of_mem a hb)]
    rfl

theorem toList_print_call_uint8 (row : Expr) : (Expr.call "uint8" [row]).print.toList =
    "uint8(".toList ++ (row.print.toList ++ [')']) := by
  simp [Expr.print, Expr.printAll]

/-- Bytes as numbers of code are integers. -/
theorem map_number_eq (bs : List UInt8) :
    bs.map (fun b ↦ Expr.number b.toNat) = (bs.map fun b ↦ (b.toNat : Int)).map .number := by
  rw [List.map_map]
  rfl

/-- **The literal for the stored bytes of a text** stands for them. -/
theorem bytes?_byteLiteral (s : String) :
    bytes? (byteLiteral s).print.toList = some (Utf8.bytes s) := by
  unfold byteLiteral
  split
  · exact bytes?_quoted s
  · rename_i hplain
    have hvs : (Utf8.bytes s).map (fun b ↦ (b.toNat : Int)) ≠ [] := by
      refine fun h ↦ hplain ?_
      rw [List.map_eq_nil_iff.1 h]
      rfl
    unfold bytes?
    rw [toList_print_call_uint8, between?_append, map_number_eq]
    show ((rowItems _).mapM byte?).map _ = _
    rw [rowItems_row hvs, List.map_map, List.mapM_map]
    show ((Utf8.bytes s).mapM fun b ↦ byte? (Json.integerText b.toNat).toList).map _ = _
    rw [mapM_eq_some_map fun b _ ↦ byte?_integerText b, Option.map_some, ← List.flatMap_def,
      List.flatMap_singleton']

/-! ### Printed lines -/

/-- A line as it is written, without its end. -/
def Line.indented (l : Line) : List Char :=
  if l.text = "" then [] else List.replicate (4 * l.depth) ' ' ++ l.text.toList

theorem toList_pushn (n : Nat) : ("".pushn ' ' n).toList = List.replicate n ' ' := by
  induction n with
  | zero => rfl
  | succ n ih =>
    show (("".pushn ' ' n).push ' ').toList = _
    rw [String.toList_push, ih, List.replicate_succ']

/-- A printed line is the line and its end. -/
theorem toList_print (l : Line) : l.print.toList = l.indented ++ ['\n'] := by
  unfold Line.print Line.indented
  split
  · rfl
  · rw [String.toList_append, String.toList_append, toList_pushn]
    rfl

/-- The characters of lines as they are written. -/
def printed (ls : List Line) : List Char :=
  ls.flatMap fun l ↦ l.print.toList

theorem printed_cons (l : Line) (ls : List Line) :
    printed (l :: ls) = l.print.toList ++ printed ls :=
  List.flatMap_cons

theorem printed_append (as bs : List Line) : printed (as ++ bs) = printed as ++ printed bs :=
  List.flatMap_append

/-- The text of code, line by line. -/
theorem toList_print_eq_printed (code : List Stmt) :
    (print code).toList = printed (Stmt.linesOf 0 code) := by
  rw [print, String.toList_join, List.flatMap_map]
  rfl

/-- Whether a text is on one line. -/
def Unbroken (s : String) : Prop :=
  (s.toList.all fun c ↦ !endsLine c) = true

theorem unbroken_iff {s : String} : Unbroken s ↔ ∀ c ∈ s.toList, endsLine c = false := by
  simp [Unbroken]

/-- Texts on one line are on one line together. -/
theorem Unbroken.append {s t : String} (hs : Unbroken s) (ht : Unbroken t) : Unbroken (s ++ t) := by
  unfold Unbroken
  rw [String.toList_append, List.all_append, hs, ht]
  rfl

/-- Whether a text is that of a line of code which writes some bytes. It is on one line, and it
begins neither with a blank nor like the call of a function that writes records. -/
structure LineWrites (text : String) (bs : List UInt8) : Prop where
  unbroken : Unbroken text
  head : text.toList.head? ≠ some ' ' ∧ text.toList.head? ≠ some 'w'
  written : written? text.toList = some bs

/-- Whether a line writes some bytes, wherever it stands. -/
def Line.Writes (l : Line) (bs : List UInt8) : Prop :=
  LineWrites l.text bs

/-- Without its indentation a line is its text. -/
theorem dropWhile_indented {l : Line} (h : l.text.toList.head? ≠ some ' ') :
    l.indented.dropWhile (· == ' ') = l.text.toList := by
  unfold Line.indented
  split
  · rename_i htext
    rw [htext]
    rfl
  · rw [List.dropWhile_append_of_pos fun c hc ↦ beq_iff_eq.2 (List.eq_of_mem_replicate hc)]
    cases hchars : l.text.toList with
    | nil => rfl
    | cons c cs =>
      rw [hchars] at h
      exact List.dropWhile_cons_of_neg (by simpa using h)

/-- A line that is not broken is split off as it is. -/
theorem splitOnP_print {l : Line} (h : Unbroken l.text) (rest : List Char) :
    (l.print.toList ++ rest).splitOnP endsLine = l.indented :: rest.splitOnP endsLine := by
  have hindented : ∀ c ∈ l.indented, endsLine c = false := by
    unfold Line.indented
    split
    · exact fun c hc ↦ absurd hc List.not_mem_nil
    · intro c hc
      rcases List.mem_append.1 hc with hc | hc
      · rw [List.eq_of_mem_replicate hc]
        rfl
      · exact unbroken_iff.1 h c hc
  rw [toList_print, List.append_assoc]
  exact List.splitOnP_append_cons_of_forall_mem hindented '\n' rfl rest

/-- **Replaying lines** goes through what each of them writes. -/
theorem replayLines_print {call : List Char} (hcall : call.head? = some 'w') {ls : List Line}
    {parts : List (List UInt8)} (h : List.Forall₂ Line.Writes ls parts) (rest : List Char) :
    replayLines call ((printed ls ++ rest).splitOnP endsLine) =
      (replayLines call (rest.splitOnP endsLine)).map (parts.flatten ++ ·) := by
  induction h with
  | nil => simp [printed]
  | @cons l bs ls parts hl _ ih =>
    have hne : l.text.toList ≠ call := fun heq ↦ hl.head.2 (heq ▸ hcall)
    rw [printed_cons, List.append_assoc, splitOnP_print hl.unbroken,
      replayLines, dropWhile_indented hl.head.1, if_neg hne, hl.written, ih]
    cases replayLines call (rest.splitOnP endsLine) <;> simp

end Matlab

end GraphCodec
