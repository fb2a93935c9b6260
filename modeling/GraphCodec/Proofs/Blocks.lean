import GraphCodec.Proofs.CodeBuffer
import GraphCodec.Proofs.FileSet

/-!
# Blocks by their words

Whether a line opens, divides or closes a block is known from its first word alone, and from its end
where an `if` is closed on its own line (`Edit.ofText`). Read in this way, the lines of generated
code are what has been done to the buffer, so all that is known of a buffer holds of the text.

A line that is no line of a block must not begin with one of the words of blocks. The lines of
generated code begin with one of a few other words, or with a letter or word for a role and an
underscore, which is in none of the words of blocks; so it does not matter what the names of fields
and types are (`Stmt.Tidy`). The generator keeps its code tidy from event to event.
-/

namespace GraphCodec

namespace Matlab

/-! ### Reading lines -/

instance (c : Char) : Decidable (IsWordPart c) :=
  inferInstanceAs (Decidable (_ ∨ _))

/-- The word at the beginning of a text. -/
def firstWord (text : String) : List Char :=
  text.toList.takeWhile fun c ↦ IsWordPart c

/-- The words that open a block. -/
def openingWords : List (List Char) :=
  ["function", "if", "for", "parfor", "while", "switch", "try"].map String.toList

/-- The words that divide a block. -/
def dividingWords : List (List Char) :=
  ["else", "elseif", "case", "otherwise", "catch"].map String.toList

/-- The word that closes a block. -/
def closingWord : List Char :=
  "end".toList

/-- Whether the block that an `if` opens is closed on the same line. -/
def OneLine (text : String) : Prop :=
  firstWord text = "if".toList ∧ " end".toList <:+ text.toList

instance (text : String) : Decidable (OneLine text) :=
  inferInstanceAs (Decidable (_ ∧ _))

/-- What a line does to the blocks around it. -/
def Edit.ofText (text : String) : Edit :=
  if firstWord text ∈ openingWords then if OneLine text then .line text else .opening text
  else if firstWord text ∈ dividingWords then .dividing text
  else if firstWord text = closingWord then .closing text
  else .line text

/-- What lines do to the blocks around them. -/
def editsOfLines (ls : List Line) : List Edit :=
  ls.map fun l ↦ .ofText l.text

/-- Whether a line has nothing to do with the blocks around it. -/
def Plain (text : String) : Prop :=
  Edit.ofText text = .line text

instance (text : String) : Decidable (Plain text) :=
  inferInstanceAs (Decidable (_ = _))

/-- The words of blocks. -/
def blockWords : List (List Char) :=
  closingWord :: (openingWords ++ dividingWords)

/-- A text is plain unless its first word is one of the words of blocks. -/
theorem plain_of_notMem {text : String} (h : firstWord text ∉ blockWords) : Plain text := by
  simp only [blockWords, List.mem_cons, List.mem_append, not_or] at h
  obtain ⟨hclosing, hopening, hdividing⟩ := h
  rw [Plain, Edit.ofText, if_neg hopening, if_neg hdividing, if_neg hclosing]

/-- A front of letters, digits and underscores is at the beginning of the first word. -/
theorem firstWord_append {text : String} {front rest : List Char}
    (htext : text.toList = front ++ rest) (hfront : (front.all fun c ↦ IsWordPart c) = true) :
    firstWord text = front ++ rest.takeWhile fun c ↦ IsWordPart c := by
  rw [firstWord, htext, List.takeWhile_append_of_pos (List.all_eq_true.1 hfront)]

/-- A text that begins with a word and then another character. -/
theorem firstWord_eq {text : String} {word rest : List Char} {c : Char}
    (htext : text.toList = word ++ c :: rest) (hword : (word.all fun c ↦ IsWordPart c) = true)
    (hc : ¬IsWordPart c) : firstWord text = word := by
  rw [firstWord_append htext hword, List.takeWhile_cons_of_neg (by simp [hc]), List.append_nil]

/-- **A text with an underscore in its first word** is plain. -/
theorem plain_of_underscore {text : String} {front rest : List Char}
    (htext : text.toList = front ++ rest) (hfront : (front.all fun c ↦ IsWordPart c) = true)
    (hmem : '_' ∈ front) : Plain text := by
  have hwords : ∀ word ∈ blockWords, '_' ∉ word := by decide
  refine plain_of_notMem fun h ↦ hwords _ h ?_
  rw [firstWord_append htext hfront]
  exact List.mem_append_left _ hmem

/-- **A text with another first word** is plain. -/
theorem plain_of_word {text : String} {word rest : List Char} {c : Char}
    (htext : text.toList = word ++ c :: rest) (hword : (word.all fun c ↦ IsWordPart c) = true)
    (hc : ¬IsWordPart c) (hother : word ∉ blockWords) : Plain text :=
  plain_of_notMem (firstWord_eq htext hword hc ▸ hother)

theorem plain_empty : Plain "" := by decide

/-- A comment is plain, whatever stands in it: its first word is empty. -/
theorem plain_comment (text : String) : Plain ("%" ++ text) := by
  have htext : ("%" ++ text).toList = [] ++ '%' :: text.toList := String.toList_append
  exact plain_of_word htext (by decide) (by decide) (by decide)

/-- An `if` on one line is plain. -/
theorem plain_conditional (condition target value : Expr) (otherwise : Option (Expr × Expr)) :
    Plain (conditional condition target value otherwise) := by
  obtain ⟨rest, hrest⟩ : ∃ rest, conditional condition target value otherwise =
      "if " ++ condition.print ++ ", " ++ assignment target value ++ rest ++ " end" :=
    ⟨_, rfl⟩
  have htext : (conditional condition target value otherwise).toList = "if".toList ++ ' ' ::
      ((condition.print ++ ", " ++ assignment target value ++ rest).toList ++ " end".toList) := by
    rw [hrest]
    simp
  have hword := firstWord_eq htext (by decide) (by decide)
  have hone : OneLine (conditional condition target value otherwise) :=
    ⟨hword, htext ▸ (List.suffix_append _ _).trans ((List.suffix_cons _ _).trans
      (List.suffix_append _ _))⟩
  rw [Plain, Edit.ofText, hword, if_pos (by decide), if_pos hone]

/-- An opening word opens a block unless the block ends with the line. -/
theorem ofText_of_openingWord {text : String} (hword : firstWord text ∈ openingWords)
    (hlines : ¬OneLine text) : Edit.ofText text = .opening text := by
  rw [Edit.ofText, if_pos hword, if_neg hlines]

/-- The first line of a loop opens a block. -/
theorem ofText_loop (counter : String) (range : Expr) :
    Edit.ofText ("for " ++ counter ++ " = " ++ range.print) =
      .opening ("for " ++ counter ++ " = " ++ range.print) := by
  have htext : ("for " ++ counter ++ " = " ++ range.print).toList =
      "for".toList ++ ' ' :: (counter ++ " = " ++ range.print).toList := by
    simp
  have hword := firstWord_eq htext (by decide) (by decide)
  refine ofText_of_openingWord (hword ▸ by decide) fun h ↦ ?_
  exact absurd (hword.symm.trans h.1) (by decide)

/-- The first line of a function opens a block. -/
theorem ofText_signature (result : Option String) (name : String) (params : List String) :
    Edit.ofText (signature result name params) = .opening (signature result name params) := by
  obtain ⟨rest, htext⟩ : ∃ rest, (signature result name params).toList =
      "function".toList ++ ' ' :: rest := by
    unfold signature
    exact ⟨_, by simp only [String.toList_append, List.append_assoc]; rfl⟩
  have hword := firstWord_eq htext (by decide) (by decide)
  refine ofText_of_openingWord (hword ▸ by decide) fun h ↦ ?_
  exact absurd (hword.symm.trans h.1) (by decide)

/-- The first line of an `if` opens a block if it is not closed on the same line. -/
theorem ofText_if {condition : String} (h : ¬OneLine ("if " ++ condition)) :
    Edit.ofText ("if " ++ condition) = .opening ("if " ++ condition) := by
  have htext : ("if " ++ condition).toList = "if".toList ++ ' ' :: condition.toList := by
    simp
  exact ofText_of_openingWord (firstWord_eq htext (by decide) (by decide) ▸ by decide) h

example : Edit.ofText "if isempty(v)" = .opening "if isempty(v)" ∧
    Plain "if isempty(v), v = []; end" := by
  decide

/-! ### Tidy code -/

mutual

/-- Whether the lines of a statement are known by their words. Those for which this depends on the
expressions in them are assignments, expressions on their own, and conditions. -/
def Stmt.Tidy : Stmt → Prop
  | .comment _ | .blank | .assignIf .. => True
  | .assign target value => Plain (assignment target value)
  | .run e => Plain (e.print ++ ";")
  | .when condition body => ¬OneLine ("if " ++ condition.print) ∧ AllTidy body
  | .whenElse condition body otherwise =>
    ¬OneLine ("if " ++ condition.print) ∧ AllTidy body ∧ AllTidy otherwise
  | .loop _ _ body | .function _ _ _ body => AllTidy body

/-- Whether all statements are tidy. -/
def AllTidy : List Stmt → Prop
  | [] => True
  | s :: ss => s.Tidy ∧ AllTidy ss

end

@[simp] theorem allTidy_nil : AllTidy [] := trivial

@[simp] theorem allTidy_cons {s : Stmt} {ss : List Stmt} :
    AllTidy (s :: ss) ↔ s.Tidy ∧ AllTidy ss := Iff.rfl

@[simp] theorem allTidy_append {as bs : List Stmt} :
    AllTidy (as ++ bs) ↔ AllTidy as ∧ AllTidy bs := by
  induction as with
  | nil => simp
  | cons s as ih => simp [ih, and_assoc]

/-- Code that is made piece by piece is tidy if the pieces are. -/
theorem AllTidy.flatMap {α : Type} {code : α → List Stmt} {as : List α}
    (h : ∀ a ∈ as, AllTidy (code a)) : AllTidy (as.flatMap code) := by
  induction as with
  | nil => trivial
  | cons a as ih =>
    rw [List.flatMap_cons, allTidy_append]
    exact ⟨h a List.mem_cons_self, ih fun b hb ↦ h b (List.mem_cons_of_mem a hb)⟩

theorem editsOfLines_append (as bs : List Line) :
    editsOfLines (as ++ bs) = editsOfLines as ++ editsOfLines bs :=
  List.map_append

theorem ofText_else : Edit.ofText "else" = .dividing "else" := by decide

theorem ofText_end : Edit.ofText "end" = .closing "end" := by decide

mutual

/-- One statement of tidy code says itself what has been done to the buffer, whatever its depth:
depth is indentation, and indentation is no word. -/
theorem Stmt.editsOfLines_lines {s : Stmt} (h : s.Tidy) (depth : Nat) :
    editsOfLines (s.lines depth) = s.edits := by
  -- the first and last lines are edits by their words, the lines between by induction
  cases s with
  | comment text => exact congrArg (fun e ↦ [e]) (plain_comment text)
  | blank => exact congrArg (fun e ↦ [e]) plain_empty
  | assign | run => exact congrArg (fun e ↦ [e]) h
  | assignIf condition target value otherwise =>
    exact congrArg (fun e ↦ [e]) (plain_conditional condition target value otherwise)
  | when condition body =>
    obtain ⟨hfirst, hbody⟩ := h
    rw [Stmt.lines, Stmt.edits, ← editsOfLines_linesOf hbody (depth + 1), ← ofText_if hfirst,
      ← ofText_end]
    simp [editsOfLines]
  | whenElse condition body otherwise =>
    obtain ⟨hfirst, hbody, hotherwise⟩ := h
    rw [Stmt.lines, Stmt.edits, ← editsOfLines_linesOf hbody (depth + 1),
      ← editsOfLines_linesOf hotherwise (depth + 1), ← ofText_if hfirst, ← ofText_end,
      ← ofText_else]
    simp [editsOfLines]
  | loop counter range body =>
    have hbody : AllTidy body := h
    rw [Stmt.lines, Stmt.edits, ← editsOfLines_linesOf hbody (depth + 1), ← ofText_loop,
      ← ofText_end]
    simp [editsOfLines]
  | function result name params body =>
    have hbody : AllTidy body := h
    rw [Stmt.lines, Stmt.edits, ← editsOfLines_linesOf hbody (depth + 1), ← ofText_signature,
      ← ofText_end]
    simp [editsOfLines]

/-- **Tidy code says itself** what has been done to the buffer. -/
theorem editsOfLines_linesOf {ss : List Stmt} (h : AllTidy ss) (depth : Nat) :
    editsOfLines (Stmt.linesOf depth ss) = Stmt.editsOf ss := by
  match ss, h with
  | [], _ => rfl
  | s :: ss, h =>
    rw [Stmt.linesOf, editsOfLines_append, Stmt.editsOfLines_lines h.1, editsOfLines_linesOf h.2]
    rfl

end

/-! ### Lines that are plain -/

/-- Whether the text of an expression begins with a word that has an underscore in it. -/
def Expr.Marked (e : Expr) : Prop :=
  ∃ front rest, e.print.toList = front ++ rest ∧ (front.all fun c ↦ IsWordPart c) = true ∧
    '_' ∈ front

namespace Expr.Marked

variable {e : Expr}

/-- What follows makes no difference. -/
theorem of_append {e' : Expr} (h : e.Marked) (rest : String) (hprint : e'.print = e.print ++ rest) :
    e'.Marked := by
  obtain ⟨front, rest', htext, hfront, hmem⟩ := h
  refine ⟨front, rest' ++ rest.toList, ?_, hfront, hmem⟩
  rw [hprint, String.toList_append, htext, List.append_assoc]

/-- A text that begins with a marked expression is plain. -/
theorem plain_append (h : e.Marked) (rest : String) : Plain (e.print ++ rest) := by
  obtain ⟨front, rest', htext, hfront, hmem⟩ := h
  have htext' : (e.print ++ rest).toList = front ++ (rest' ++ rest.toList) := by
    rw [String.toList_append, htext, List.append_assoc]
  exact plain_of_underscore htext' hfront hmem

theorem item (h : e.Marked) (i : Expr) : (Expr.item e i).Marked :=
  h.of_append ("(" ++ i.print ++ ")") (by simp [Expr.print, ← String.toList_inj])

theorem contents (h : e.Marked) (i : Expr) : (Expr.contents e i).Marked :=
  h.of_append ("\x7b" ++ i.print ++ "\x7d") (by simp [Expr.print, ← String.toList_inj])

theorem field (h : e.Marked) (name : String) : (Expr.field e name).Marked :=
  h.of_append ("." ++ name) (by simp [Expr.print, ← String.toList_inj])

end Expr.Marked

/-- A name is marked by its front, before the name of a field or type begins. -/
theorem marked_name {front : String} (hfront : (front.toList.all fun c ↦ IsWordPart c) = true)
    (hmem : '_' ∈ front.toList) (rest : String) : (Expr.name (front ++ rest)).Marked :=
  ⟨front.toList, rest.toList, by rw [Expr.print, String.toList_append], hfront, hmem⟩

/-- A call is marked as its function is. -/
theorem marked_call {front : String} (hfront : (front.toList.all fun c ↦ IsWordPart c) = true)
    (hmem : '_' ∈ front.toList) (rest : String) (args : List Expr) :
    (Expr.call (front ++ rest) args).Marked :=
  (marked_name hfront hmem rest).of_append
    ("(" ++ ", ".intercalate (Expr.printAll args) ++ ")")
    (by simp [Expr.print, ← String.toList_inj])

/-- A variable of a level has the number of the level and an underscore behind its role. -/
theorem marked_levelName {role : String} (hrole : (role.toList.all fun c ↦ IsWordPart c) = true)
    (level : Nat) (field : String) : (Expr.name (levelName role level field)).Marked := by
  have hlevel : ((toString level).toList.all fun c ↦ IsWordPart c) = true := by
    rw [toString_nat, toList_integerText_natCast, List.all_eq_true]
    intro c hc
    have hdigit : c.isDigit = true := Nat.isDigit_of_mem_toDigits (by decide) (by decide) hc
    exact decide_eq_true (.inl (Bool.or_eq_true_iff.2 (.inr hdigit)))
  have hfront : ((role ++ toString level ++ "_").toList.all fun c ↦ IsWordPart c) = true := by
    rw [String.toList_append, String.toList_append, List.all_append, List.all_append, hrole, hlevel]
    rfl
  exact marked_name hfront (by simp) field

/-- Whether an assignment to an expression is plain, whatever is assigned. -/
def Expr.PlainTarget (target : Expr) : Prop :=
  ∀ value, Plain (assignment target value)

/-- Assignments to marked expressions are plain. -/
theorem Expr.Marked.plainTarget {target : Expr} (h : target.Marked) : target.PlainTarget := by
  intro value
  rw [assignment, String.append_assoc, String.append_assoc]
  exact h.plain_append _

theorem Expr.Marked.tidy_run {e : Expr} (h : e.Marked) : (Stmt.run e).Tidy :=
  h.plain_append ";"

/-- Assignments to a name that is no word of blocks are plain. -/
theorem plainTarget_name {word : String} (hword : (word.toList.all fun c ↦ IsWordPart c) = true)
    (hother : word.toList ∉ blockWords) : (Expr.name word).PlainTarget := by
  intro value
  have htext : (assignment (.name word) value).toList =
      word.toList ++ ' ' :: ("= " ++ value.print ++ ";").toList := by
    simp [assignment, Expr.print]
  exact plain_of_word htext hword (by decide) hother

/-- Assignments to a slot of the record are plain, whatever the field is called: their first word is
the name of the record. -/
theorem plainTarget_slot (field : String) : (slot field).PlainTarget := by
  intro value
  have htext : (assignment (slot field) value).toList =
      "s".toList ++ '.' :: (field ++ " = " ++ value.print ++ ";").toList := by
    simp [assignment, slot, Expr.print]
  exact plain_of_word htext (by decide) (by decide) (by decide)

/-- A call on its own is tidy if its function is no word of blocks. -/
theorem tidy_call {word : String} (hword : (word.toList.all fun c ↦ IsWordPart c) = true)
    (hother : word.toList ∉ blockWords) (args : List Expr) : (Stmt.run (.call word args)).Tidy := by
  have htext : ((Expr.call word args).print ++ ";").toList =
      word.toList ++ '(' :: (", ".intercalate (Expr.printAll args) ++ ");").toList := by
    simp [Expr.print]
  exact plain_of_word htext hword (by decide) hother

theorem tidy_fwrite (v : Expr) (precision : String) : (fwrite v precision).Tidy :=
  tidy_call (by decide) (by decide) _

theorem tidy_error (args : List Expr) : (Stmt.run (.call "error" args)).Tidy :=
  tidy_call (by decide) (by decide) args

/-- A call of a function for records is tidy, whatever the type is called. -/
theorem tidy_writeRecord (ident : String) (v : Expr) : (writeRecord ident v).Tidy :=
  (marked_call (by decide) (by decide) ident [file, v]).tidy_run

/-- An `if` is not closed on the same line if its condition does not end like that. -/
theorem not_oneLine {condition : Expr} (front : List Char) (c : Char)
    (hprint : condition.print.toList = front ++ [c]) (hc : c ≠ 'd') :
    ¬OneLine ("if " ++ condition.print) := by
  rintro ⟨-, rest, hrest⟩
  -- the line would end with the last letter of `end`
  have hlast := congrArg List.getLast? hrest
  rw [String.toList_append, hprint, ← List.append_assoc, List.getLast?_append,
    List.getLast?_append] at hlast
  exact hc (Option.some.inj hlast).symm

/-- A comparison with zero or one does not end like a block. -/
theorem not_oneLine_equal (e : Expr) {v : Int} (hv : v = 0 ∨ v = 1) :
    ¬OneLine ("if " ++ (Expr.equal e (.number v)).print) := by
  rcases hv with rfl | rfl
  · exact not_oneLine (e.print ++ " == ").toList '0'
      (by rw [Expr.print, String.toList_append]; rfl) (by decide)
  · exact not_oneLine (e.print ++ " == ").toList '1'
      (by rw [Expr.print, String.toList_append]; rfl) (by decide)

/-- A call ends with a bracket, and so not like a block. -/
theorem not_oneLine_call (function : String) (args : List Expr) :
    ¬OneLine ("if " ++ (Expr.call function args).print) :=
  not_oneLine (function ++ "(" ++ ", ".intercalate (Expr.printAll args)).toList ')'
    (by rw [Expr.print, String.toList_append]; rfl) (by decide)

theorem not_oneLine_not_call (function : String) (args : List Expr) :
    ¬OneLine ("if " ++ (Expr.not (.call function args)).print) :=
  not_oneLine ("~" ++ (function ++ "(" ++ ", ".intercalate (Expr.printAll args))).toList ')'
    (by simp [Expr.print]) (by decide)

/-! ### Generated code is tidy -/

/-- The text goes into a variable of its own role first. -/
theorem tidy_readText {target : Expr} (h : target.PlainTarget) (field : String) :
    AllTidy (readText target field) :=
  ⟨(marked_name (by decide) (by decide) field).plainTarget _, h _, trivial⟩

theorem tidy_writeText (source : Expr) (field : String) : AllTidy (writeText source field) :=
  ⟨(marked_name (by decide) (by decide) field).plainTarget _, tidy_fwrite _ _, tidy_fwrite _ _,
    trivial⟩

theorem tidy_emptySentinel (v : Expr) (k : Kind) (preserve : Bool) :
    (emptySentinel v k preserve).Tidy := by
  cases k <;> exact trivial

/-- The slot of a scalar is tidy in all kinds, with and without a value for the empty slot. -/
theorem tidy_readScalar (field : String) (k : Kind) (preserve : Bool) :
    AllTidy (readScalar field k preserve) := by
  unfold readScalar
  split
  · exact tidy_readText (plainTarget_slot field) field
  · exact ⟨(marked_name (by decide) (by decide) field).plainTarget _,
      tidy_emptySentinel _ _ _, plainTarget_slot field _, trivial⟩

theorem tidy_writeScalar (field : String) (k : Kind) : AllTidy (writeScalar field k) := by
  unfold writeScalar
  split
  · exact tidy_writeText _ field
  · exact ⟨(marked_name (by decide) (by decide) field).plainTarget _, trivial, tidy_fwrite _ _,
      trivial⟩

theorem tidy_readComposite (field ident : String) : AllTidy (readComposite field ident) :=
  ⟨plainTarget_slot field _, trivial⟩

theorem tidy_writeComposite (owner field ident : String) :
    AllTidy (writeComposite owner field ident) :=
  ⟨⟨not_oneLine_call _ _, tidy_error _, trivial⟩, tidy_writeRecord _ _, trivial⟩

/-- The variables that hold the arrays of a level are marked. -/
theorem marked_levelValue (level : Nat) (field : String) : (levelValue level field).Marked :=
  marked_levelName (by decide) level field

/-- So are the slots of inner arrays, which begin with them. -/
theorem marked_innerSlot (element : Element) {v : Expr} (h : v.Marked) (i : Expr) :
    (innerSlot element v i).Marked := by
  cases element with
  | text => exact h.contents i
  | numeric | composite => exact (h.item i).field "array"

/-- In each sort of items it is a variable with a mark that is assigned to. -/
theorem tidy_readItems (field : String) (element : Element) (level : Nat) :
    AllTidy (readItems field element level) := by
  have hv := marked_levelValue level field
  unfold readItems
  split
  · exact ⟨hv.plainTarget _, trivial⟩
  · exact ⟨hv.plainTarget _, trivial⟩
  · exact ⟨hv.plainTarget _, tidy_readText (hv.contents _).plainTarget field, trivial⟩
  · exact ⟨⟨(marked_name (by decide) (by decide) field).plainTarget _,
      ⟨not_oneLine_equal _ (.inr rfl), ⟨hv.plainTarget _, trivial⟩,
        ⟨(hv.item _).plainTarget _, trivial⟩⟩, trivial⟩, trivial⟩

/-- By induction on the levels that are left: a level is tidy around a tidy inner one. -/
theorem tidy_readLevel (field : String) (element : Element) (inner level : Nat) :
    AllTidy (readLevel field element inner level) := by
  have hn (level : Nat) : (levelCount level field).Marked :=
    marked_levelName (by decide) level field
  have hv (level : Nat) := marked_levelValue level field
  induction inner generalizing level with
  | zero =>
    rw [readLevel]
    exact ⟨(hn level).plainTarget _, ⟨not_oneLine_equal _ (.inl rfl),
      ⟨(hv level).plainTarget _, trivial⟩, tidy_readItems field element level⟩, trivial⟩
  | succ inner ih =>
    have hinner : AllTidy (readLevel field element inner (level + 1) ++
        [.assign (innerSlot element (levelValue level field) (levelIndex level field))
          (levelValue (level + 1) field)]) :=
      allTidy_append.2 ⟨ih (level + 1),
        ⟨(marked_innerSlot element (hv level) _).plainTarget _, trivial⟩⟩
    rw [readLevel]
    exact ⟨(hn level).plainTarget _, ⟨not_oneLine_equal _ (.inl rfl),
      ⟨(hv level).plainTarget _, trivial⟩, (hv level).plainTarget _, hinner, trivial⟩, trivial⟩

/-- An array is assigned to its slot after all of its levels. -/
theorem tidy_readArray (field : String) (dims : Nat) (element : Element) :
    AllTidy (readArray field dims element) :=
  allTidy_append.2 ⟨tidy_readLevel field element _ _, plainTarget_slot field _, trivial⟩

theorem tidy_writeItems (field : String) (element : Element) (level : Nat) :
    AllTidy (writeItems field element level) := by
  cases element with
  | numeric k preserve =>
    exact ⟨⟨not_oneLine_not_call _ _, tidy_fwrite _ _, trivial⟩, trivial⟩
  | text => exact ⟨tidy_writeText _ field, trivial⟩
  | composite ident => exact ⟨⟨tidy_writeRecord _ _, trivial⟩, trivial⟩

/-- By induction on the levels that are left, as in reading. -/
theorem tidy_writeLevel (field : String) (element : Element) (inner level : Nat) :
    AllTidy (writeLevel field element inner level) := by
  induction inner generalizing level with
  | zero =>
    rw [writeLevel]
    exact ⟨tidy_fwrite _ _, tidy_writeItems field element level⟩
  | succ inner ih =>
    rw [writeLevel]
    exact ⟨tidy_fwrite _ _, ⟨(marked_levelValue (level + 1) field).plainTarget _, ih (level + 1)⟩,
      trivial⟩

theorem tidy_writeArray (field : String) (dims : Nat) (element : Element) :
    AllTidy (writeArray field dims element) :=
  ⟨(marked_levelValue 1 field).plainTarget _, tidy_writeLevel field element _ _⟩

/-! ### Files -/

/-- The first lines of loading and saving are tidy; the name of a file is only an argument. -/
theorem tidy_openFile (mode : String) : AllTidy (openFile mode) := by
  have hlast : ¬OneLine ("if " ++ (Expr.less file (.number 0)).print) :=
    not_oneLine "fid < ".toList '0' rfl (by decide)
  exact ⟨plainTarget_name (by decide) (by decide) _,
    ⟨hlast, tidy_error _, trivial⟩, plainTarget_name (by decide) (by decide) _, trivial⟩

theorem tidy_skipText : skipText.Tidy :=
  tidy_call (by decide) (by decide) _

theorem tidy_skipWords (count : Int) : (skipWords count).Tidy :=
  tidy_call (by decide) (by decide) _

/-- The loops that skip the dictionary section are tidy. -/
theorem tidy_skipDictionary : AllTidy skipDictionary :=
  ⟨plainTarget_name (by decide) (by decide) _,
    ⟨tidy_skipWords 1, tidy_skipText, plainTarget_name (by decide) (by decide) _,
      ⟨tidy_skipText, tidy_skipWords 2, trivial⟩, trivial⟩, trivial⟩

theorem tidy_expectNumber (name : String) (v : Int) (identifier : String) (args : List Expr) :
    (expectNumber name v (complain identifier args)).Tidy :=
  ⟨not_oneLine_not_call _ _, tidy_error _, trivial⟩

/-- The function that loads is tidy. -/
theorem tidy_loadSource (ident : String) (rootTag : Tag) :
    AllTidy (loadSource ident rootTag).code := by
  have hmagic : (Stmt.assign (.name "magic") freadCount).Tidy :=
    plainTarget_name (by decide) (by decide) _
  have htag : (Stmt.assign (.name "tag") freadCount).Tidy :=
    plainTarget_name (by decide) (by decide) _
  have hresult : (Stmt.assign (.name "s") (readRecord ident)).Tidy :=
    plainTarget_name (by decide) (by decide) _
  simp only [loadSource, allTidy_cons, allTidy_nil, Stmt.Tidy, allTidy_append, true_and, and_true]
  exact ⟨⟨⟨tidy_openFile "r", hmagic, tidy_expectNumber "magic" _ _ _⟩, tidy_skipDictionary⟩, htag,
    tidy_expectNumber "tag" _ _ _, hresult⟩

theorem tidy_writeWord (v : Int) : (writeWord v).Tidy :=
  tidy_fwrite _ _

/-- The name of a type stands between quotes or as its bytes, behind the first word of the line. -/
theorem tidy_writeName (s : String) : AllTidy (writeName s) := by
  unfold writeName
  split
  · exact ⟨tidy_writeWord _, trivial⟩
  · exact ⟨tidy_writeWord _, tidy_fwrite _ _, trivial⟩

/-- Each type of the dictionary is written by tidy code, with its name in a comment. -/
theorem tidy_writeTypeEntry (t : TypeEntry) : AllTidy (writeTypeEntry t) := by
  have hfields : AllTidy (t.fields.flatMap writeFieldEntry) := .flatMap fun f _ ↦
    allTidy_append.2 ⟨tidy_writeName f.name, tidy_fwrite _ _, trivial⟩
  exact allTidy_append.2 ⟨allTidy_append.2 ⟨⟨trivial, trivial, tidy_writeWord _, trivial⟩,
    tidy_writeName t.name⟩, tidy_writeWord _, hfields⟩

/-- The function that saves is tidy, piece by piece. -/
theorem tidy_saveSource (ident : String) (rootTag : Tag) (d : Dictionary) :
    AllTidy (saveSource ident rootTag d).code := by
  have hpreamble : AllTidy (writePreamble d rootTag) :=
    allTidy_append.2 ⟨allTidy_append.2 ⟨⟨tidy_writeWord _, trivial, trivial, tidy_writeWord _,
      trivial⟩, .flatMap fun t _ ↦ tidy_writeTypeEntry t⟩, trivial, tidy_writeWord _, trivial⟩
  have hfront : AllTidy (saveFront ident rootTag d) :=
    allTidy_append.2 ⟨⟨trivial, trivial, tidy_openFile "w"⟩, trivial, hpreamble⟩
  rw [saveSource_eq]
  exact ⟨allTidy_append.2 ⟨hfront, tidy_writeRecord _ _, trivial⟩, trivial⟩

namespace Generator

/-- Whether all the code of a generator is tidy, finished or not. -/
structure Tidy (g : Generator) : Prop where
  reads : ∀ c ∈ g.pending, AllTidy c.reads
  writes : ∀ c ∈ g.pending, AllTidy c.writes
  files : ∀ f ∈ g.files, AllTidy f.code

theorem tidy_start : start.Tidy :=
  ⟨fun _ h ↦ absurd h List.not_mem_nil, fun _ h ↦ absurd h List.not_mem_nil,
    fun _ h ↦ absurd h List.not_mem_nil⟩

/-- Naming a type changes no code. -/
theorem carries_identFor_tidy (t : TypeDef) : Carries Tidy (fun _ ↦ True) Tidy (identFor t) := by
  constructor
  intro g hg
  cases h : identFor t g with
  | error e g' => trivial
  | ok ident g' =>
    obtain ⟨-, hnamed⟩ := named_of_identFor h
    exact ⟨hnamed.pending ▸ hg.reads, hnamed.pending ▸ hg.writes, hnamed.files ▸ hg.files⟩

/-- **A field** keeps the code tidy if its own statements are. -/
theorem carries_addField_tidy (name : String) {heading : String} {reads : List Stmt}
    {writes : TypeCode → List Stmt} (hreads : AllTidy reads)
    (hwrites : ∀ c, AllTidy (writes c)) : Carries Tidy (fun _ ↦ True) Tidy
      (onCurrent name fun c ↦ c.addField heading reads (writes c)) := by
  constructor
  intro g hg
  unfold onCurrent
  split
  · trivial
  · split
    · trivial
    · rename_i c cs hpending
      obtain ⟨hpendingReads, hpendingWrites, hfiles⟩ := hg
      rw [hpending, List.forall_mem_cons] at hpendingReads hpendingWrites
      refine ⟨List.forall_mem_cons.2 ⟨?_, hpendingReads.2⟩,
        List.forall_mem_cons.2 ⟨?_, hpendingWrites.2⟩, hfiles⟩
      · exact allTidy_append.2 ⟨allTidy_append.2 ⟨hpendingReads.1, trivial, trivial, trivial⟩,
          hreads⟩
      · exact allTidy_append.2 ⟨allTidy_append.2 ⟨hpendingWrites.1, trivial, trivial, trivial⟩,
          hwrites c⟩

/-- Code that is finished moves to the files as it is. -/
theorem carries_finishType_tidy : Carries Tidy (fun _ ↦ True) Tidy finishType := by
  constructor
  intro g hg
  unfold finishType
  split
  · trivial
  · rename_i c cs hpending
    obtain ⟨hreads, hwrites, hfiles⟩ := hg
    rw [hpending, List.forall_mem_cons] at hreads hwrites
    refine ⟨hreads.2, hwrites.2, List.forall_mem_append.2 ⟨hfiles, ?_⟩⟩
    intro f hf
    rcases List.mem_pair.1 hf with rfl | rfl
    · exact ⟨hreads.1, trivial⟩
    · exact ⟨hwrites.1, trivial⟩

/-- **Each event** keeps the code tidy, so a whole walk does. -/
theorem carries_listener_tidy (event : SchemaEvent) :
    Carries Tidy (fun _ ↦ True) Tidy (listener event) := by
  match event with
  | .beginType _ t =>
    refine (carries_identFor_tidy t).bind fun ident ↦ ⟨fun g hg ↦ ?_⟩
    have hstart : (Stmt.assign (.name "s") (.call "struct" [])).Tidy :=
      plainTarget_name (by decide) (by decide) _
    exact ⟨List.forall_mem_cons.2 ⟨⟨trivial, trivial, trivial, hstart, trivial⟩, hg.reads⟩,
      List.forall_mem_cons.2 ⟨⟨trivial, trivial, trivial⟩, hg.writes⟩, hg.files⟩
  | .endType _ => exact carries_finishType_tidy
  | .primitive name k preserve =>
    exact carries_addField_tidy name (tidy_readScalar name k preserve)
      fun _ ↦ tidy_writeScalar name k
  | .primitiveArray name k dims preserve =>
    unfold listener
    dsimp only
    split
    · exact ⟨fun _ _ ↦ trivial⟩
    · exact carries_addField_tidy name (tidy_readArray name dims _)
        fun _ ↦ tidy_writeArray name dims _
  | .composite name t =>
    exact (carries_identFor_tidy t).bind fun ident ↦
      carries_addField_tidy name (tidy_readComposite name ident)
        fun c ↦ tidy_writeComposite c.ident name ident
  | .compositeArray name t dims =>
    exact (carries_identFor_tidy t).bind fun ident ↦
      carries_addField_tidy name (tidy_readArray name dims _)
        fun _ ↦ tidy_writeArray name dims _
  | .unknown owner f => exact ⟨fun _ _ ↦ trivial⟩

end Generator

/-- **All generated code is tidy.** -/
theorem tidy_of_generate {s : Schema} {root : TypeDef} {sources : List Source}
    (h : generate s root = .ok sources) : ∀ f ∈ sources, AllTidy f.code := by
  obtain ⟨g, d, rootTag, ident, g', hrun, -, -, -, hident, rfl⟩ := generate_eq_ok_iff.1 h
  obtain ⟨-, hnamed⟩ := Generator.named_of_identFor hident
  -- the invariant holds at the end of the walk, and the walk was not refused
  have hg := Listener.endsIn_run Generator.carries_listener_tidy (s.walk root) Generator.tidy_start
  rw [hrun] at hg
  intro f hf
  rcases List.mem_append.1 hf with hf | hf
  · exact hg.files f (hnamed.files ▸ hf)
  · rcases List.mem_pair.1 hf with rfl | rfl
    · exact tidy_loadSource ident rootTag
    · exact tidy_saveSource ident rootTag d

/-! ### Blocks of generated code -/

/-- What holds of statements that are put into a buffer, as far as the words of their lines say. -/
structure NestsIn (b : Buffer) (ss : List Stmt) : Prop where
  /-- The lines open and close blocks in order. -/
  nests : b.Nests (editsOfLines (Stmt.linesOf b.depth ss))
  /-- The lines, each indented as the words before it demand, are those of the statements. -/
  run_eq : b.run (editsOfLines (Stmt.linesOf b.depth ss)) = b.extend (Stmt.linesOf b.depth ss)

/-- Tidy code nests in any buffer: its words are the edits of its statements, and these are
balanced. -/
theorem AllTidy.nestsIn {ss : List Stmt} (h : AllTidy ss) (b : Buffer) : NestsIn b ss := by
  have hedits := editsOfLines_linesOf h b.depth
  exact ⟨hedits ▸ (balanced_editsOf ss).nests b, hedits ▸ run_editsOf ss b⟩

/-- **Generated blocks are balanced.** The statements that read and write an array, of any number of
dimensions and any sort of items, leave a buffer of any depth as deep as it was, never go below that
depth, and indent every line by the blocks around it; the lines are put in one after the other as
each dimension opens, divides and closes its own blocks. The same holds of every file that is
generated, whose text is what an empty buffer takes in, with no block open in the end. -/
theorem blocks_nest :
    (∀ (field : String) (dims : Nat) (element : Element) (b : Buffer),
      (NestsIn b (readArray field dims element) ∧
        editsOfLines (Stmt.linesOf b.depth (readArray field dims element)) =
          readArrayEdits field dims element) ∧
      NestsIn b (writeArray field dims element) ∧
        editsOfLines (Stmt.linesOf b.depth (writeArray field dims element)) =
          writeArrayEdits field dims element) ∧
    ∀ (s : Schema) (root : TypeDef) (sources : List Source), generate s root = .ok sources →
      ∀ f ∈ sources, NestsIn Buffer.empty f.code ∧
        Buffer.empty.run (editsOfLines (Stmt.linesOf 0 f.code)) = ⟨f.text, 0⟩ := by
  refine ⟨fun field dims element b ↦ ?_, fun s root sources h f hf ↦ ?_⟩
  · have hread := tidy_readArray field dims element
    have hwrite := tidy_writeArray field dims element
    refine ⟨⟨hread.nestsIn b, ?_⟩, hwrite.nestsIn b, ?_⟩
    · rw [editsOfLines_linesOf hread, editsOf_readArray]
    · rw [editsOfLines_linesOf hwrite, editsOf_writeArray]
  · have hnests := (tidy_of_generate h f hf).nestsIn Buffer.empty
    refine ⟨hnests, hnests.run_eq.trans ?_⟩
    simp [Buffer.extend, Buffer.empty, Source.text, print, linesText]

open Dictionary (drawingType drawingSchema)

theorem blocks_nest_drawing : ∃ sources, generate drawingSchema drawingType = .ok sources ∧
    sources ≠ [] ∧ (∀ f ∈ sources, (Buffer.empty.run (editsOfLines (Stmt.linesOf 0 f.code))).depth =
      0) ∧ Buffer.Nests ⟨"", 1⟩ (readArrayEdits "points" 2 (.composite "Point")) := by
  obtain ⟨sources, h⟩ := exists_generate_drawing
  have hne : sources ≠ [] := by
    obtain ⟨g, d, rootTag, ident, g', -, -, -, -, -, rfl⟩ := generate_eq_ok_iff.1 h
    exact List.append_ne_nil_of_right_ne_nil _ (List.cons_ne_nil _ _)
  refine ⟨sources, h, hne, fun f hf ↦ ?_, ?_⟩
  · rw [(blocks_nest.2 _ _ sources h f hf).2]
  · obtain ⟨⟨hnests, hedits⟩, -⟩ := blocks_nest.1 "points" 2 (.composite "Point") ⟨"", 1⟩
    exact hedits ▸ hnests.nests

end Matlab

end GraphCodec
