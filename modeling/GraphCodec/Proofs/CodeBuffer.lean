import GraphCodec.Proofs.SavedFront

/-!
# Code buffers

Code is also what a buffer holds that takes in one line after the other and keeps the number of open
blocks, by which it indents. A line may open a block, divide it in two or close it; the last two
lower the number first, and a buffer with no open block cannot lower it any further, so a block too
many that is closed would go unnoticed.

Lines whose blocks are balanced (`Balanced`) never meet that limit, and leave the buffer with as
many open blocks as it had (`Balanced.nests`). The induction is on the blocks: what is carried
through is that no step goes below a given number of open blocks (`Stays`). The lines of statements
are balanced, and what a buffer holds of them is their text (`balanced_editsOf`, `run_editsOf`).

For arrays the lines are also given one by one, as they come when each dimension is put into the one
around it (`readArrayEdits`, `writeArrayEdits`).
-/

namespace GraphCodec

namespace Matlab

/-! ### Buffers -/

/-- What is done to a buffer: a line is put in, and it may open, divide or close a block. -/
inductive Edit where
  | line (text : String)
  | opening (text : String)
  | dividing (text : String)
  | closing (text : String)
  deriving DecidableEq, Repr

namespace Edit

/-- The line that is put in. -/
def text : Edit → String
  | line text | opening text | dividing text | closing text => text

/-- Whether the line stands outside of the block that was open before it. -/
def lowers : Edit → Bool
  | line _ | opening _ => false
  | dividing _ | closing _ => true

/-- How many more blocks are open afterwards. -/
def change : Edit → Int
  | line _ | dividing _ => 0
  | opening _ => 1
  | closing _ => -1

end Edit

/-- Code in the making. -/
structure Buffer where
  text : String
  /-- The number of open blocks. -/
  depth : Nat

namespace Buffer

/-- The buffer without lines. -/
def empty : Buffer :=
  ⟨"", 0⟩

/-- Put in a line. -/
def put (b : Buffer) (text : String) : Buffer :=
  { b with text := b.text ++ Line.print ⟨b.depth, text⟩ }

/-- Count one open block more. -/
def raise (b : Buffer) : Buffer :=
  { b with depth := b.depth + 1 }

/-- Count one open block less, if there is one. -/
def lower (b : Buffer) : Buffer :=
  { b with depth := b.depth - 1 }

/-- Make an edit. -/
def edit (b : Buffer) : Edit → Buffer
  | .line text => b.put text
  | .opening text => (b.put text).raise
  | .dividing text => (b.lower.put text).raise
  | .closing text => b.lower.put text

/-- Make edits in order. -/
def run (b : Buffer) (es : List Edit) : Buffer :=
  es.foldl edit b

@[simp] theorem run_nil (b : Buffer) : b.run [] = b := rfl

@[simp] theorem run_cons (b : Buffer) (e : Edit) (es : List Edit) :
    b.run (e :: es) = (b.edit e).run es := rfl

@[simp] theorem run_append (b : Buffer) (as bs : List Edit) :
    b.run (as ++ bs) = (b.run as).run bs :=
  List.foldl_append

end Buffer

/-! ### Balanced blocks -/

/-- Edits whose blocks are balanced: every opening line has its own end, and perhaps an `else` of
its own before it. -/
inductive Balanced : List Edit → Prop
  | nil : Balanced []
  | line (text : String) {rest : List Edit} (hrest : Balanced rest) : Balanced (.line text :: rest)
  | block (first : String) {body rest : List Edit} (hbody : Balanced body)
      (hrest : Balanced rest) : Balanced (.opening first :: (body ++ .closing "end" :: rest))
  | branched (first : String) {body otherwise rest : List Edit} (hbody : Balanced body)
      (hotherwise : Balanced otherwise) (hrest : Balanced rest) :
      Balanced (.opening first ::
        (body ++ .dividing "else" :: (otherwise ++ .closing "end" :: rest)))

/-- Balanced edits after balanced edits are balanced. -/
theorem Balanced.append {as bs : List Edit} (ha : Balanced as) (hb : Balanced bs) :
    Balanced (as ++ bs) := by
  induction ha with
  | nil => exact hb
  | line text _ ih => exact .line text ih
  | block first hbody _ _ ih =>
    rw [List.cons_append, List.append_assoc, List.cons_append]
    exact .block first hbody ih
  | branched first hbody hotherwise _ _ _ ih =>
    rw [List.cons_append, List.append_assoc, List.cons_append, List.append_assoc, List.cons_append]
    exact .branched first hbody hotherwise ih

/-- Whether edits lead from `depth` open blocks to `depth'` without ever closing the blocks that
were among the first `base`. -/
inductive Stays (base : Nat) : Nat → List Edit → Nat → Prop
  | nil {depth : Nat} (hdepth : base ≤ depth) : Stays base depth [] depth
  | line {depth depth' : Nat} (text : String) {es : List Edit} (hdepth : base ≤ depth)
      (hrest : Stays base depth es depth') : Stays base depth (.line text :: es) depth'
  | opening {depth depth' : Nat} (text : String) {es : List Edit} (hdepth : base ≤ depth)
      (hrest : Stays base (depth + 1) es depth') : Stays base depth (.opening text :: es) depth'
  | dividing {depth depth' : Nat} (text : String) {es : List Edit} (hdepth : base ≤ depth)
      (hrest : Stays base (depth + 1) es depth') :
      Stays base (depth + 1) (.dividing text :: es) depth'
  | closing {depth depth' : Nat} (text : String) {es : List Edit} (hdepth : base ≤ depth)
      (hrest : Stays base depth es depth') : Stays base (depth + 1) (.closing text :: es) depth'

namespace Stays

variable {base depth depth' depth'' : Nat} {as bs es : List Edit}

/-- A run that stays above a depth goes on as one. -/
theorem append (ha : Stays base depth as depth') (hb : Stays base depth' bs depth'') :
    Stays base depth (as ++ bs) depth'' := by
  induction ha with
  | nil => exact hb
  | line text hdepth _ ih => exact .line text hdepth (ih hb)
  | opening text hdepth _ ih => exact .opening text hdepth (ih hb)
  | dividing text hdepth _ ih => exact .dividing text hdepth (ih hb)
  | closing text hdepth _ ih => exact .closing text hdepth (ih hb)

/-- The depth that it begins at is not below either. -/
theorem base_le (h : Stays base depth es depth') : base ≤ depth := by
  cases h <;> omega

/-- The number of open blocks is the one that is counted. -/
theorem depth_run (h : Stays base depth es depth') {b : Buffer} (hb : b.depth = depth) :
    (b.run es).depth = depth' := by
  induction h generalizing b with
  | nil => exact hb
  | line text _ _ ih => exact ih hb
  | opening text _ _ ih => exact ih (congrArg (· + 1) hb)
  | dividing text _ _ ih => exact ih (congrArg (· - 1 + 1) hb)
  | closing text _ _ ih => exact ih (congrArg (· - 1) hb)

/-- **Every step of the way** is counted too, without going below the base. -/
theorem split (h : Stays base depth (as ++ bs) depth') :
    ∃ mid, Stays base depth as mid ∧ Stays base mid bs depth' ∧
      (mid : Int) = depth + (as.map Edit.change).sum := by
  induction as generalizing depth with
  | nil => exact ⟨depth, .nil h.base_le, h, by simp⟩
  | cons e as ih =>
    cases h with
    | line text hdepth hrest =>
      obtain ⟨mid, hfirst, hsecond, hmid⟩ := ih hrest
      exact ⟨mid, .line text hdepth hfirst, hsecond, by simpa [Edit.change] using hmid⟩
    | opening text hdepth hrest =>
      obtain ⟨mid, hfirst, hsecond, hmid⟩ := ih hrest
      refine ⟨mid, .opening text hdepth hfirst, hsecond, ?_⟩
      simp only [hmid, List.map_cons, List.sum_cons, Edit.change]
      omega
    | dividing text hdepth hrest =>
      obtain ⟨mid, hfirst, hsecond, hmid⟩ := ih hrest
      exact ⟨mid, .dividing text hdepth hfirst, hsecond, by simpa [Edit.change] using hmid⟩
    | closing text hdepth hrest =>
      obtain ⟨mid, hfirst, hsecond, hmid⟩ := ih hrest
      refine ⟨mid, .closing text hdepth hfirst, hsecond, ?_⟩
      simp only [hmid, List.map_cons, List.sum_cons, Edit.change]
      omega

end Stays

/-- Balanced blocks are opened and closed above all that is open before them. -/
theorem Balanced.stays {es : List Edit} (h : Balanced es) {base depth : Nat}
    (hdepth : base ≤ depth) : Stays base depth es depth := by
  induction h generalizing depth with
  | nil => exact .nil hdepth
  | line text _ ih => exact .line text hdepth (ih hdepth)
  | block first _ _ hbody hrest =>
    exact .opening first hdepth ((hbody (Nat.le_succ_of_le hdepth)).append
      (.closing "end" hdepth (hrest hdepth)))
  | branched first _ _ _ hbody hotherwise hrest =>
    exact .opening first hdepth ((hbody (Nat.le_succ_of_le hdepth)).append
      (.dividing "else" hdepth ((hotherwise (Nat.le_succ_of_le hdepth)).append
        (.closing "end" hdepth (hrest hdepth)))))

/-- What holds of a buffer into which lines go that open and close blocks in order. -/
structure Buffer.Nests (b : Buffer) (es : List Edit) : Prop where
  /-- Every block that is opened is closed by its own end. -/
  balanced : Balanced es
  /-- In the end as many blocks are open as before. -/
  depth_eq : (b.run es).depth = b.depth
  /-- On the way there are never fewer. -/
  depth_le : ∀ done rest, es = done ++ rest → b.depth ≤ (b.run done).depth
  /-- Where the number is lowered there are more. -/
  depth_lt : ∀ done e rest, es = done ++ e :: rest → e.lowers = true →
    b.depth < (b.run done).depth
  /-- A line is indented by the number of blocks that are open around it; one that divides or closes
  a block is not inside of it. -/
  indented : ∀ done e rest, es = done ++ e :: rest → ∃ level : Nat,
    (b.run (done ++ [e])).text = (b.run done).text ++ Line.print ⟨level, e.text⟩ ∧
      (level : Int) = b.depth + (done.map Edit.change).sum - if e.lowers then 1 else 0

/-- **Balanced blocks** leave a buffer as deep as it was, and never lower it beyond. -/
theorem Balanced.nests {es : List Edit} (h : Balanced es) (b : Buffer) : b.Nests es := by
  have hstays : Stays b.depth b.depth es b.depth := h.stays (Nat.le_refl _)
  refine ⟨h, hstays.depth_run rfl, fun done rest hes ↦ ?_, fun done e rest hes hlowers ↦ ?_,
    fun done e rest hes ↦ ?_⟩
  · subst hes
    -- at any point the buffer is no lower than at the beginning
    obtain ⟨mid, hdone, hrest, -⟩ := hstays.split
    rw [hdone.depth_run rfl]
    exact hrest.base_le
  · subst hes
    obtain ⟨mid, hdone, hrest, -⟩ := hstays.split
    rw [hdone.depth_run rfl]
    cases hrest with
    | line | opening => cases hlowers
    | dividing _ hdepth _ => exact Nat.lt_succ_of_le hdepth
    | closing _ hdepth _ => exact Nat.lt_succ_of_le hdepth
  · subst hes
    obtain ⟨mid, hdone, hrest, hmid⟩ := hstays.split
    have hdepth : (b.run done).depth = mid := hdone.depth_run rfl
    rw [Buffer.run_append]
    cases hrest with
    | line | opening =>
      refine ⟨mid, ?_, by simp [Edit.lowers, hmid]⟩
      rw [← hdepth]
      rfl
    | @dividing mid _ _ _ _ | @closing mid _ _ _ _ =>
      refine ⟨mid, ?_, ?_⟩
      · rw [show mid = (b.run done).depth - 1 by omega]
        rfl
      · simp only [Edit.lowers, if_true]
        omega

/-! ### The edits of statements -/

mutual

/-- What is done to a buffer for a statement. -/
def Stmt.edits : Stmt → List Edit
  | .comment text => [.line ("%" ++ text)]
  | .blank => [.line ""]
  | .assign target value => [.line (assignment target value)]
  | .run e => [.line (e.print ++ ";")]
  | .assignIf condition target value otherwise =>
    [.line (conditional condition target value otherwise)]
  | .when condition body =>
    .opening ("if " ++ condition.print) :: (Stmt.editsOf body ++ [.closing "end"])
  | .whenElse condition body otherwise =>
    .opening ("if " ++ condition.print) ::
      (Stmt.editsOf body ++ .dividing "else" :: (Stmt.editsOf otherwise ++ [.closing "end"]))
  | .loop counter range body =>
    .opening ("for " ++ counter ++ " = " ++ range.print) ::
      (Stmt.editsOf body ++ [.closing "end"])
  | .function result name params body =>
    .opening (signature result name params) :: (Stmt.editsOf body ++ [.closing "end"])

/-- What is done to a buffer for statements in order. -/
def Stmt.editsOf : List Stmt → List Edit
  | [] => []
  | s :: ss => s.edits ++ Stmt.editsOf ss

end

/-- Edits of code that is joined. -/
theorem editsOf_append (as bs : List Stmt) :
    Stmt.editsOf (as ++ bs) = Stmt.editsOf as ++ Stmt.editsOf bs := by
  induction as with
  | nil => rfl
  | cons a as ih => rw [List.cons_append, Stmt.editsOf, Stmt.editsOf, ih, List.append_assoc]

mutual

/-- **Every statement is balanced**: it closes what it opens, by induction on the code in it. -/
theorem Stmt.balanced_edits (s : Stmt) : Balanced s.edits := by
  cases s with
  | comment | blank | assign | run | assignIf => exact .line _ .nil
  | when _ body => exact .block _ (balanced_editsOf body) .nil
  | whenElse _ body otherwise =>
    exact .branched _ (balanced_editsOf body) (balanced_editsOf otherwise) .nil
  | loop _ _ body => exact .block _ (balanced_editsOf body) .nil
  | function _ _ _ body => exact .block _ (balanced_editsOf body) .nil

/-- **Statements are balanced**, whatever they are. -/
theorem balanced_editsOf (ss : List Stmt) : Balanced (Stmt.editsOf ss) := by
  match ss with
  | [] => exact .nil
  | s :: ss => exact s.balanced_edits.append (balanced_editsOf ss)

end

/-- The text of lines. -/
def linesText (ls : List Line) : String :=
  String.join (ls.map Line.print)

/-- Texts of lines that are joined. -/
theorem linesText_append (as bs : List Line) :
    linesText (as ++ bs) = linesText as ++ linesText bs := by
  rw [linesText, List.map_append, String.join_append]
  rfl

namespace Buffer

/-- The buffer that has some more lines. -/
def extend (b : Buffer) (ls : List Line) : Buffer :=
  { b with text := b.text ++ linesText ls }

@[simp] theorem extend_extend (b : Buffer) (as bs : List Line) :
    (b.extend as).extend bs = b.extend (as ++ bs) := by
  simp [extend, linesText_append, String.append_assoc]

@[simp] theorem extend_nil (b : Buffer) : b.extend [] = b := by
  simp [extend, linesText]

@[simp] theorem depth_extend (b : Buffer) (ls : List Line) : (b.extend ls).depth = b.depth := rfl

@[simp] theorem depth_raise (b : Buffer) : b.raise.depth = b.depth + 1 := rfl

@[simp] theorem raise_extend (b : Buffer) (ls : List Line) :
    (b.extend ls).raise = b.raise.extend ls := rfl

@[simp] theorem lower_extend (b : Buffer) (ls : List Line) :
    (b.extend ls).lower = b.lower.extend ls := rfl

@[simp] theorem lower_raise (b : Buffer) : b.raise.lower = b := rfl

/-- A line is put in at the depth of the buffer. -/
theorem put_eq_extend (b : Buffer) (text : String) :
    b.put text = b.extend [⟨b.depth, text⟩] := by
  simp [put, extend, linesText]

end Buffer

mutual

/-- The edits of a statement put in its lines, indented by the blocks around them. -/
theorem Stmt.run_edits (s : Stmt) (b : Buffer) : b.run s.edits = b.extend (s.lines b.depth) := by
  -- blocks are run by induction, one level deeper than the lines around them
  cases s with
  | comment | blank | assign | run | assignIf =>
    simp [Stmt.edits, Stmt.lines, Buffer.edit, Buffer.put_eq_extend]
  | when _ body =>
    simp [Stmt.edits, Stmt.lines, Buffer.edit, Buffer.put_eq_extend, run_editsOf body]
  | whenElse _ body otherwise =>
    simp [Stmt.edits, Stmt.lines, Buffer.edit, Buffer.put_eq_extend, run_editsOf body,
      run_editsOf otherwise]
  | loop _ _ body =>
    simp [Stmt.edits, Stmt.lines, Buffer.edit, Buffer.put_eq_extend, run_editsOf body]
  | function _ _ _ body =>
    simp [Stmt.edits, Stmt.lines, Buffer.edit, Buffer.put_eq_extend, run_editsOf body]

/-- **What a buffer takes in of statements** is their lines, at the depth that the buffer has. -/
theorem run_editsOf (ss : List Stmt) (b : Buffer) :
    b.run (Stmt.editsOf ss) = b.extend (Stmt.linesOf b.depth ss) := by
  match ss with
  | [] => simp [Stmt.editsOf, Stmt.linesOf]
  | s :: ss => simp [Stmt.editsOf, Stmt.linesOf, s.run_edits, run_editsOf ss]

end

/-! ### Arrays, edit by edit -/

/-- Read a text. -/
def readTextEdits (target suffix : String) : List Edit :=
  [.line s!"len_{suffix} = fread(fid, 1, 'int32=>double');",
    .line s!"{target} = native2unicode(fread(fid, [1 len_{suffix}], 'uint8=>uint8'), 'UTF-8');"]

/-- Write a text. -/
def writeTextEdits (source suffix : String) : List Edit :=
  [.line s!"b_{suffix} = unicode2native(char({source}), 'UTF-8');",
    .line s!"fwrite(fid, numel(b_{suffix}), 'int32');",
    .line s!"fwrite(fid, b_{suffix}, 'uint8');"]

/-- Read the items of the innermost dimension, which is at `level`. -/
def readItemsEdits (field : String) (element : Element) (level : Nat) : List Edit :=
  let v := levelName "v" level field
  let n := levelName "n" level field
  let i := levelName "i" level field
  match element with
  | .numeric .char _ => [.line s!"{v} = fread(fid, [1 {n}], 'uint8=>char');"]
  | .numeric k preserve =>
    let token := arrayPrecision k preserve
    [.line s!"{v} = fread(fid, {n}, '{token}');"]
  | .text =>
    .line s!"{v} = cell(1, {n});" :: .opening s!"for {i} = 1:{n}" ::
      (readTextEdits (v ++ "\x7b" ++ i ++ "\x7d") field ++ [.closing "end"])
  | .composite ident =>
    [.opening s!"for {i} = 1:{n}", .line s!"e_{field} = read_{ident}(fid);",
      .opening s!"if {i} == 1", .line s!"{v} = repmat(e_{field}, 1, {n});",
      .dividing "else", .line s!"{v}({i}) = e_{field};", .closing "end", .closing "end"]

/-- An item of an outer dimension. -/
def innerText (element : Element) (v i : String) : String :=
  match element with
  | .text => v ++ "\x7b" ++ i ++ "\x7d"
  | _ => s!"{v}({i}).array"

/-- Room for the items of an outer dimension. -/
def roomText (element : Element) (n : String) : String :=
  match element with
  | .text => s!"cell(1, {n})"
  | _ => s!"repmat(struct('array', []), 1, {n})"

/-- Read a dimension at `level` with `inner` dimensions inside it. -/
def readLevelEdits (field : String) (element : Element) : (inner level : Nat) → List Edit
  | inner, level =>
    let v := levelName "v" level field
    let n := levelName "n" level field
    let i := levelName "i" level field
    let items :=
      match inner with
      | 0 => readItemsEdits field element level
      | inner + 1 =>
        let room := roomText element n
        let item := innerText element v i
        let next := levelName "v" (level + 1) field
        .line s!"{v} = {room};" :: .opening s!"for {i} = 1:{n}" ::
          (readLevelEdits field element inner (level + 1) ++
            [.line s!"{item} = {next};", .closing "end"])
    let none := (emptyArray element).print
    .line s!"{n} = fread(fid, 1, 'int32=>double');" :: .opening s!"if {n} == 0" ::
      .line s!"{v} = {none};" :: .dividing "else" :: (items ++ [.closing "end"])

/-- Read an array of `dims` dimensions. -/
def readArrayEdits (field : String) (dims : Nat) (element : Element) : List Edit :=
  readLevelEdits field element (dims - 1) 1 ++ [.line s!"s.{field} = v1_{field};"]

/-- Write the items of the innermost dimension, which is at `level`. -/
def writeItemsEdits (field : String) (element : Element) (level : Nat) : List Edit :=
  let v := levelName "v" level field
  let i := levelName "i" level field
  match element with
  | .numeric k _ =>
    let token := precision k
    [.opening s!"if ~isempty({v})", .line s!"fwrite(fid, {v}, '{token}');", .closing "end"]
  | .text =>
    .opening s!"for {i} = 1:numel({v})" ::
      (writeTextEdits (v ++ "\x7b" ++ i ++ "\x7d") field ++ [.closing "end"])
  | .composite ident =>
    [.opening s!"for {i} = 1:numel({v})", .line s!"write_{ident}(fid, {v}({i}));",
      .closing "end"]

/-- Write a dimension at `level` with `inner` dimensions inside it. -/
def writeLevelEdits (field : String) (element : Element) : (inner level : Nat) → List Edit
  | inner, level =>
    let v := levelName "v" level field
    let i := levelName "i" level field
    let items :=
      match inner with
      | 0 => writeItemsEdits field element level
      | inner + 1 =>
        let item := innerText element v i
        let next := levelName "v" (level + 1) field
        .opening s!"for {i} = 1:numel({v})" :: .line s!"{next} = {item};" ::
          (writeLevelEdits field element inner (level + 1) ++ [.closing "end"])
    .line s!"fwrite(fid, numel({v}), 'int32');" :: items

/-- Write an array of `dims` dimensions. -/
def writeArrayEdits (field : String) (dims : Nat) (element : Element) : List Edit :=
  .line s!"v1_{field} = s.{field};" :: writeLevelEdits field element (dims - 1) 1

/-! The texts of the expressions in these lines. -/

theorem integerText_zero : Json.integerText 0 = "0" := rfl

theorem integerText_one : Json.integerText 1 = "1" := rfl

theorem print_freadCount : freadCount.print = "fread(fid, 1, 'int32=>double')" := rfl

theorem print_fread (count : Expr) (precision : String) : (fread count precision).print =
    "fread(fid, " ++ count.print ++ ", " ++ quoted precision ++ ")" := by
  simp [fread, file, Expr.print, Expr.printAll, ← String.toList_inj]

theorem print_numel (v : Expr) : (numel v).print = "numel(" ++ v.print ++ ")" := by
  simp [numel, Expr.print, Expr.printAll, String.append_assoc]

theorem print_isEmpty (v : Expr) : (isEmpty v).print = "isempty(" ++ v.print ++ ")" := by
  simp [isEmpty, Expr.print, Expr.printAll]

theorem print_levelValue (level : Nat) (field : String) :
    (levelValue level field).print = levelName "v" level field := rfl

theorem print_levelCount (level : Nat) (field : String) :
    (levelCount level field).print = levelName "n" level field := rfl

theorem print_levelIndex (level : Nat) (field : String) :
    (levelIndex level field).print = levelName "i" level field := rfl

/-- The call that writes words is one line. -/
theorem edits_fwrite (v : Expr) (precision : String) : (fwrite v precision).edits =
    [.line ("fwrite(fid, " ++ (v.print ++ (", " ++ (quoted precision ++ ");"))))] := by
  rw [fwrite, Stmt.edits, print_fwrite]

/-- No name of a format has a quote in it. -/
theorem quoted_precision (k : Kind) : quoted (precision k) = "'" ++ precision k ++ "'" := by
  cases k <;> rfl

theorem quoted_arrayPrecision (k : Kind) (preserve : Bool) :
    quoted (arrayPrecision k preserve) = "'" ++ arrayPrecision k preserve ++ "'" := by
  cases k <;> cases preserve <;> rfl

/-! The edits of the statements are these. -/

/-- Edits by which a text is read. -/
theorem editsOf_readText (target : Expr) (field : String) :
    Stmt.editsOf (readText target field) = readTextEdits target.print field := by
  simp [readText, readTextEdits, Stmt.editsOf, Stmt.edits, assignment, print_freadCount,
    print_fread, conversion, Expr.print, Expr.printAll, integerText_one, quoted, quoteChars,
    ← String.toList_inj, toString]

theorem editsOf_writeText (source : Expr) (field : String) :
    Stmt.editsOf (writeText source field) = writeTextEdits source.print field := by
  simp [writeText, writeTextEdits, Stmt.editsOf, Stmt.edits, assignment, edits_fwrite,
    print_numel, Expr.print, Expr.printAll, quoted, quoteChars, ← String.toList_inj, toString]

/-- A loop over the items of a level opens a block around its body. -/
theorem edits_levelLoop (level : Nat) (field : String) (count : Expr) (body : List Stmt) :
    (levelLoop level field count body).edits =
      .opening ("for " ++ levelName "i" level field ++ " = 1:" ++ count.print) ::
        (Stmt.editsOf body ++ [.closing "end"]) := by
  simp [levelLoop, Stmt.edits, Expr.print, integerText_one, ← String.toList_inj]

/-- Edits by which the items of the innermost level are read, for each sort of items. -/
theorem editsOf_readItems (field : String) (element : Element) (level : Nat) :
    Stmt.editsOf (readItems field element level) = readItemsEdits field element level := by
  match element with
  | .numeric k preserve =>
    by_cases hk : k = .char
    · subst hk
      simp [readItems, readItemsEdits, Stmt.editsOf, Stmt.edits, assignment, print_levelValue,
        print_levelCount, print_fread, conversion, Expr.print, Expr.printAll, integerText_one,
        quoted, quoteChars, ← String.toList_inj, toString]
    · rw [readItems.eq_2 _ _ _ _ hk, readItemsEdits.eq_2 _ _ _ _ hk]
      simp [Stmt.editsOf, Stmt.edits, assignment, print_levelValue, print_levelCount, print_fread,
        quoted_arrayPrecision, ← String.toList_inj, toString]
  | .text =>
    simp [readItems, readItemsEdits, Stmt.editsOf, Stmt.edits, edits_levelLoop, editsOf_readText,
      assignment, print_levelValue, print_levelCount, print_levelIndex, Expr.print, Expr.printAll,
      integerText_one, ← String.toList_inj, toString]
  | .composite ident =>
    simp [readItems, readItemsEdits, Stmt.editsOf, Stmt.edits, edits_levelLoop, readRecord, file,
      assignment, print_levelValue, print_levelCount, print_levelIndex, Expr.print, Expr.printAll,
      integerText_one, ← String.toList_inj, toString]

theorem print_innerSlot (element : Element) (v i : Expr) :
    (innerSlot element v i).print = innerText element v.print i.print := by
  cases element <;> simp [innerSlot, innerText, Expr.print, ← String.toList_inj, toString]

/-- The room for inner arrays, as it is printed for each sort of items. -/
theorem print_outerArray (element : Element) (n : Expr) :
    (outerArray element n).print = roomText element n.print := by
  cases element <;>
    simp [outerArray, roomText, Expr.print, Expr.printAll, integerText_one, quoted, quoteChars,
      ← String.toList_inj, toString]

/-- Variables of the first level have its number in their names, as those of all levels. -/
theorem levelName_one (role field : String) : levelName role 1 field = role ++ "1_" ++ field := by
  have hlevel : role ++ toString 1 ++ "_" = role ++ "1_" := String.append_assoc
  rw [levelName, hlevel]

/-- **The edits of reading a dimension**, whatever the dimensions inside it are. -/
theorem editsOf_readLevel (field : String) (element : Element) (inner level : Nat) :
    Stmt.editsOf (readLevel field element inner level) =
      readLevelEdits field element inner level := by
  induction inner generalizing level with
  | zero =>
    simp [readLevel, readLevelEdits, Stmt.editsOf, Stmt.edits, editsOf_readItems, assignment,
      print_levelValue, print_levelCount, print_freadCount, Expr.print, integerText_zero,
      ← String.toList_inj, toString]
  | succ inner ih =>
    simp [readLevel, readLevelEdits, Stmt.editsOf, Stmt.edits, edits_levelLoop, editsOf_append, ih,
      print_innerSlot, print_outerArray, assignment, print_levelValue, print_levelCount,
      print_levelIndex, print_freadCount, Expr.print, integerText_zero, ← String.toList_inj,
      toString]

/-- **Reading an array** opens, divides and closes blocks as its levels do. -/
theorem editsOf_readArray (field : String) (dims : Nat) (element : Element) :
    Stmt.editsOf (readArray field dims element) = readArrayEdits field dims element := by
  simp [readArray, readArrayEdits, editsOf_append, editsOf_readLevel, Stmt.editsOf, Stmt.edits,
    assignment, slot, print_levelValue, levelName_one, Expr.print, ← String.toList_inj, toString]

/-- Edits by which the items of the innermost level are written. -/
theorem editsOf_writeItems (field : String) (element : Element) (level : Nat) :
    Stmt.editsOf (writeItems field element level) = writeItemsEdits field element level := by
  match element with
  | .numeric k preserve =>
    simp [writeItems, writeItemsEdits, Stmt.editsOf, Stmt.edits, edits_fwrite, quoted_precision,
      print_levelValue, print_isEmpty, Expr.print, ← String.toList_inj, toString]
  | .text =>
    simp [writeItems, writeItemsEdits, Stmt.editsOf, edits_levelLoop, editsOf_writeText,
      print_levelValue, print_levelIndex, print_numel, Expr.print, ← String.toList_inj, toString]
  | .composite ident =>
    simp [writeItems, writeItemsEdits, Stmt.editsOf, Stmt.edits, edits_levelLoop, writeRecord,
      file, print_levelValue, print_levelIndex, print_numel, Expr.print, Expr.printAll,
      ← String.toList_inj, toString]

/-- **The edits of writing a dimension**, whatever the dimensions inside it are. -/
theorem editsOf_writeLevel (field : String) (element : Element) (inner level : Nat) :
    Stmt.editsOf (writeLevel field element inner level) =
      writeLevelEdits field element inner level := by
  induction inner generalizing level with
  | zero =>
    simp [writeLevel, writeLevelEdits, Stmt.editsOf, editsOf_writeItems, edits_fwrite,
      print_levelValue, print_numel, quoted, quoteChars, ← String.toList_inj, toString]
  | succ inner ih =>
    simp [writeLevel, writeLevelEdits, Stmt.editsOf, Stmt.edits, edits_levelLoop, edits_fwrite, ih,
      print_innerSlot, assignment, print_levelValue, print_levelIndex, print_numel, quoted,
      quoteChars, ← String.toList_inj, toString]

/-- **Writing an array** opens and closes blocks as its levels do. -/
theorem editsOf_writeArray (field : String) (dims : Nat) (element : Element) :
    Stmt.editsOf (writeArray field dims element) = writeArrayEdits field dims element := by
  simp [writeArray, writeArrayEdits, editsOf_writeLevel, Stmt.editsOf, Stmt.edits, assignment,
    slot, print_levelValue, levelName_one, Expr.print, ← String.toList_inj, toString]

end Matlab

end GraphCodec
