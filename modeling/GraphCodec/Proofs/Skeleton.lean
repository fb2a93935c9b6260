import GraphCodec.Matlab.Generator

/-!
# What generated code does with the file

The *skeleton* of some statements is what they do with the open file: the items that are read or
written by one call, and the records for which another function is called, in order and with the
loops around them. Variables and conversions do not matter to it, with one exception. The file says
of every text and of every dimension of an array how many items follow, so the skeleton keeps apart
a call for one item and a call, or a loop, for as many as were announced last. Code that reads holds
that number in a variable, and code that writes takes it from the size of one.

What has no place in a layout, such as a call for the file in a condition or a loop that repeats
something else, is `Io.irregular`, which is in no layout.

The statements that read a field and those that write it have one skeleton (`outlines_readArray`,
`outlines_writeArray` and their likes for scalars and records). For an array this is an induction on
the dimensions, which are levels of variables in the code.
-/

namespace GraphCodec

namespace Matlab

/-- What code does with the file. -/
inductive Io where
  /-- One item of a stored form. -/
  | one (form : String)
  /-- As many items as were announced last. -/
  | many (form : String)
  /-- A record, by the function for an identifier. -/
  | record (ident : String)
  /-- A loop over as many items as were announced last. -/
  | loop (body : List Io)
  | irregular

/-- Whether code reads or writes. -/
inductive Side where
  | reading
  | writing
  deriving DecidableEq

namespace Side

/-- The verb in the names of the functions that read or write records. -/
def verb : Side → String
  | reading => "read"
  | writing => "write"

def other : Side → Side
  | reading => writing
  | writing => reading

end Side

/-! ### Skeletons -/

/-- The stored form in a reading precision, which stands before the arrow. -/
def storedForm (precision : String) : String :=
  String.ofList (precision.toList.takeWhile (· ≠ '='))

/-- The identifier in the name of a function for records. -/
def identOf? (verb function : String) : Option String :=
  let front := (verb ++ "_").toList
  if front <+: function.toList then some (String.ofList (function.toList.drop front.length))
  else none

section

variable (side : Side)

/-- Whether an expression is the number of items that was announced last, given the variable that
holds it, or whose size it is. -/
def announces (known : Option String) : Expr → Bool
  | .name x => side = .reading && known = some x
  | .call function [.name x] => side = .writing && function = "numel" && known = some x
  | _ => false

/-- Whether an expression tests that this number is zero. -/
def testsZero (known : Option String) : Expr → Bool
  | .equal e (.number 0) => side = .reading && announces side known e
  | .call function [.name x] => side = .writing && function = "isempty" && known = some x
  | _ => false

/-- What the call that reads so many items of a stored form does. -/
def itemsSkeleton (known : Option String) (form : String) : (count : Expr) → Io
  | .number 1 => .one form
  | .row [.number 1, n] => if announces side known n then .many form else .irregular
  | n => if announces side known n then .many form else .irregular

/-- What a call that reads items does with the file. -/
def freadSkeleton (known : Option String) : (args : List Expr) → Io
  | [_, count, .text precision] => itemsSkeleton side known (storedForm precision) count
  | _ => .irregular

/-- What a call that writes items does with the file. A number of items is one item, and so is
what is in a variable, unless its size is the number that was announced. -/
def fwriteSkeleton (known : Option String) : (args : List Expr) → Io
  | [_, .name x, .text form] => if known = some x then .many form else .one form
  | [_, .call function _, .text form] => if function = "numel" then .one form else .irregular
  | _ => .irregular

/-- What the call of another function does with the file. -/
def recordSkeleton (function : String) : List Io :=
  match identOf? side.verb function, identOf? side.other.verb function with
  | some ident, _ => [.record ident]
  | none, some _ => [.irregular]
  | none, none => []

/-- What a call does with the file. -/
def callSkeleton (known : Option String) (function : String) (args : List Expr) : List Io :=
  if function = "fread" then
    [if side = .reading then freadSkeleton side known args else .irregular]
  else if function = "fwrite" then
    [if side = .writing then fwriteSkeleton known args else .irregular]
  else recordSkeleton side function

mutual

/-- What the evaluation of an expression does with the file. -/
def Expr.skeleton (known : Option String) : Expr → List Io
  | .name _ | .number _ | .text _ | .emptyCell => []
  | .row items => skeletons known items
  | .call function args => skeletons known args ++ callSkeleton side known function args
  | .item e e' | .contents e e' | .range e e' | .equal e e' | .less e e' =>
    e.skeleton known ++ e'.skeleton known
  | .field e _ | .not e | .thunk e => e.skeleton known

def skeletons (known : Option String) : List Expr → List Io
  | [] => []
  | e :: es => e.skeleton known ++ skeletons known es

end

/-- The variable in a target. -/
def Expr.base? : Expr → Option String
  | .name x => some x
  | .item e _ | .contents e _ | .field e _ => e.base?
  | _ => none

/-- The variable that tells, after a statement that has to do with the file, how many items were
announced: the one into which a single item has been read, or the one whose size has been
written. -/
def announced? : Stmt → Option String
  | .assign (.name x) (.call function [_, .number 1, _]) =>
    if side = .reading ∧ function = "fread" then some x else none
  | .run (.call function [_, .call function' [.name x], _]) =>
    if side = .writing ∧ function = "fwrite" ∧ function' = "numel" then some x else none
  | _ => none

/-- What is done with the file under a condition that does nothing with it itself. It may be
something that is repeated as often as was announced, if the condition is that this is not zero. -/
def guarded (zero : Bool) : (condition whenZero otherwise : List Io) → List Io
  | [], [], [] => []
  | [], [], [.many form] => if zero then [.many form] else [.irregular]
  | [], [], [.loop body] => if zero then [.loop body] else [.irregular]
  | _, _, _ => [.irregular]

/-- What a loop does with the file. -/
def loopSkeleton (known : Option String) (range : Expr) : (body : List Io) → List Io
  | [] => range.skeleton side known
  | body =>
    match range with
    | .range (.number 1) last => [if announces side known last then .loop body else .irregular]
    | _ => [.irregular]

mutual

/-- What a statement does with the file, and the variable that is known afterwards to tell how
many items were announced last. -/
def Stmt.skeleton (known : Option String) : Stmt → List Io × Option String
  | .comment _ | .blank => ([], known)
  | .assign target value =>
    match value.skeleton side known ++ target.skeleton side known with
    | [] => ([], if target.base? = known then none else known)
    | io => (io, announced? side (.assign target value))
  | .run e =>
    match e.skeleton side known with
    | [] => ([], known)
    | io => (io, announced? side (.run e))
  | .assignIf condition target value none =>
    (guarded false (skeletons side known [condition, target, value]) [] [], none)
  | .assignIf condition target value (some (target', value')) =>
    (guarded false (skeletons side known [condition, target, value, target', value']) [] [], none)
  | .when (.not condition) body =>
    (guarded (testsZero side known condition) (condition.skeleton side known) []
      (skeleton known body).1, none)
  | .when condition body =>
    (guarded false (condition.skeleton side known) (skeleton known body).1 [], none)
  | .whenElse condition body otherwise =>
    (guarded (testsZero side known condition) (condition.skeleton side known)
      (skeleton known body).1 (skeleton known otherwise).1, none)
  | .loop _ range body => (loopSkeleton side known range (skeleton none body).1, none)
  | .function _ _ _ body => ((skeleton none body).1, none)

/-- What statements do with the file one after the other. -/
def skeleton (known : Option String) : List Stmt → List Io × Option String
  | [] => ([], known)
  | t :: ts =>
    ((t.skeleton known).1 ++ (skeleton (t.skeleton known).2 ts).1,
      (skeleton (t.skeleton known).2 ts).2)

end

end

/-! ### Outlines of fields -/

/-- A text: its length and its bytes. -/
def textOutline : List Io :=
  [.one "int32", .many "uint8"]

/-- Something as often as was announced. Many single items are read or written by one call. -/
def Io.repeated : (item : List Io) → Io
  | [.one form] => .many form
  | item => .loop item

/-- A number of items, and the items. -/
def counted (item : List Io) : List Io :=
  [.one "int32", .repeated item]

/-- An array of some dimensions. -/
def arrayOutline (item : List Io) : (dims : Nat) → List Io
  | 0 => item
  | dims + 1 => counted (arrayOutline item dims)

/-- An innermost item of an array. -/
def Element.outline : Element → List Io
  | .numeric k _ => [.one (precision k)]
  | .text => textOutline
  | .composite ident => [.record ident]

/-! ### Calls -/

/-- The functions in generated code that have nothing to do with the file. -/
def plainFunctions : List String :=
  ["cell", "char", "double", "error", "intmax", "isempty", "isequal", "logical", "native2unicode",
    "numel", "realmax", "repmat", "struct", "unicode2native"]

mutual

/-- Whether an expression calls none but plain functions. -/
def Expr.isPlain : Expr → Bool
  | .name _ | .number _ | .text _ | .emptyCell => true
  | .row items => arePlain items
  | .call function args => plainFunctions.contains function && arePlain args
  | .item e e' | .contents e e' | .range e e' | .equal e e' | .less e e' => e.isPlain && e'.isPlain
  | .field e _ | .not e | .thunk e => e.isPlain

def arePlain : List Expr → Bool
  | [] => true
  | e :: es => e.isPlain && arePlain es

end

section

variable {side : Side} {known : Option String}

/-- Calls of the listed functions do nothing with the file. -/
theorem callSkeleton_plain {function : String} (h : function ∈ plainFunctions)
    (args : List Expr) : callSkeleton side known function args = [] := by
  have hnames : ∀ f ∈ plainFunctions, f ≠ "fread" ∧ f ≠ "fwrite" ∧ identOf? "read" f = none ∧
      identOf? "write" f = none := by
    decide
  obtain ⟨hfread, hfwrite, hread, hwrite⟩ := hnames function h
  rw [callSkeleton, if_neg hfread, if_neg hfwrite, recordSkeleton]
  cases side with
  | reading => rw [Side.verb, Side.other, Side.verb, hread, hwrite]
  | writing => rw [Side.verb, Side.other, Side.verb, hread, hwrite]

mutual

/-- **A plain expression** does nothing with the file. -/
theorem Expr.skeleton_plain {e : Expr} (h : e.isPlain = true) : e.skeleton side known = [] := by
  match e with
  | .name _ | .number _ | .text _ | .emptyCell => rfl
  | .row items => exact skeletons_plain h
  | .call function args =>
    obtain ⟨hfunction, hargs⟩ := Bool.and_eq_true_iff.1 h
    rw [Expr.skeleton, skeletons_plain hargs,
      callSkeleton_plain (List.contains_iff_mem.1 hfunction)]
    rfl
  | .item e e' | .contents e e' | .range e e' | .equal e e' | .less e e' =>
    obtain ⟨he, he'⟩ := Bool.and_eq_true_iff.1 h
    rw [Expr.skeleton, Expr.skeleton_plain he, Expr.skeleton_plain he']
    rfl
  | .field e _ | .not e | .thunk e =>
    exact Expr.skeleton_plain (e := e) h

/-- Plain expressions do nothing with the file, whatever was announced. -/
theorem skeletons_plain {es : List Expr} (h : arePlain es = true) :
    skeletons side known es = [] := by
  match es with
  | [] => rfl
  | e :: es =>
    obtain ⟨he, hes⟩ := Bool.and_eq_true_iff.1 h
    rw [skeletons, Expr.skeleton_plain he, skeletons_plain hes]
    rfl

end

/-- The identifier is found again in the name of its function. -/
theorem identOf?_append (verb ident : String) :
    identOf? verb (verb ++ "_" ++ ident) = some ident := by
  simp [identOf?, String.toList_append]

/-- The name of a function for records is not that of a function for items. -/
theorem callSkeleton_record (ident : String) (args : List Expr) :
    callSkeleton side known (side.verb ++ "_" ++ ident) args = [.record ident] := by
  have hother : ∀ f : String, f = "fread" ∨ f = "fwrite" → side.verb ++ "_" ++ ident ≠ f := by
    intro f hf heq
    have hhead := congrArg (List.head? ∘ String.toList) heq
    rcases hf with rfl | rfl <;> cases side <;> simp [Side.verb, String.toList_append] at hhead
  rw [callSkeleton, if_neg (hother _ (.inl rfl)), if_neg (hother _ (.inr rfl)), recordSkeleton,
    identOf?_append]

/-- A reading precision says in its front what is stored, which is what the writing one says. -/
theorem storedForm_arrayPrecision (k : Kind) (preserve : Bool) :
    storedForm (arrayPrecision k preserve) = precision k := by
  cases k <;> cases preserve <;> rfl

theorem storedForm_scalarPrecision (k : Kind) (preserve : Bool) :
    storedForm (scalarPrecision k preserve) = precision k := by
  cases k <;> cases preserve <;> rfl

/-- A call that reads is one item of the file, as its count says. -/
theorem skeleton_fread {count : Expr} (hcount : count.isPlain = true) (precision : String) :
    (fread count precision).skeleton .reading known =
      [itemsSkeleton .reading known (storedForm precision) count] := by
  simp [fread, file, Expr.skeleton, skeletons, Expr.skeleton_plain hcount, callSkeleton,
    freadSkeleton]

theorem skeleton_freadCount : freadCount.skeleton .reading known = [.one "int32"] :=
  skeleton_fread rfl _

theorem skeleton_fwrite {v : Expr} (hv : v.isPlain = true) (form : String) :
    (Expr.call "fwrite" [file, v, .text form]).skeleton .writing known =
      [fwriteSkeleton known [file, v, .text form]] := by
  simp [file, Expr.skeleton, skeletons, Expr.skeleton_plain hv, callSkeleton]

/-- A call of a function for records is a record. -/
theorem skeleton_record {ident : String} {args : List Expr} (hargs : arePlain args = true) :
    (Expr.call (side.verb ++ "_" ++ ident) args).skeleton side known = [.record ident] := by
  rw [Expr.skeleton, skeletons_plain hargs, callSkeleton_record]
  rfl

theorem skeleton_readRecord (ident : String) :
    (readRecord ident).skeleton .reading known = [.record ident] :=
  skeleton_record rfl

/-! ### Statements -/

/-- The second part is read with what the first has announced last. -/
theorem skeleton_append (as bs : List Stmt) : skeleton side known (as ++ bs) =
    ((skeleton side known as).1 ++ (skeleton side (skeleton side known as).2 bs).1,
      (skeleton side (skeleton side known as).2 bs).2) := by
  induction as generalizing known with
  | nil => rfl
  | cons a as ih => simp only [List.cons_append, skeleton, ih, List.append_assoc]

/-- An assignment to the announced variable makes it useless; others leave it as it is. -/
theorem skeleton_assign_plain {target value : Expr} (hvalue : value.isPlain = true)
    (htarget : target.isPlain = true) :
    (Stmt.assign target value).skeleton side known =
      ([], if target.base? = known then none else known) := by
  rw [Stmt.skeleton, Expr.skeleton_plain hvalue, Expr.skeleton_plain htarget]
  rfl

/-- An assignment of what was read announces its variable. -/
theorem skeleton_assign {target value : Expr} {io : Io} {ios : List Io}
    (hvalue : value.skeleton side known = io :: ios) (htarget : target.isPlain = true) :
    (Stmt.assign target value).skeleton side known =
      (io :: ios, announced? side (.assign target value)) := by
  rw [Stmt.skeleton, hvalue, Expr.skeleton_plain htarget, List.append_nil]

/-- A choice between plain values leaves nothing announced. -/
theorem skeleton_assignIf_plain {condition target value : Expr} {otherwise : Option (Expr × Expr)}
    (h : arePlain [condition, target, value] = true)
    (hotherwise : ∀ e ∈ otherwise, e.1.isPlain = true ∧ e.2.isPlain = true) :
    (Stmt.assignIf condition target value otherwise).skeleton side known = ([], none) := by
  cases otherwise with
  | none =>
    rw [Stmt.skeleton, skeletons_plain h]
    rfl
  | some e =>
    obtain ⟨htarget, hvalue⟩ := hotherwise e rfl
    have hall : arePlain [condition, target, value, e.1, e.2] = true := by
      simp_all [arePlain]
    rw [Stmt.skeleton, skeletons_plain hall]
    rfl

/-- Branches that do nothing with the file do nothing together. -/
theorem skeleton_whenElse_plain {condition : Expr} {body otherwise : List Stmt}
    (hcondition : condition.isPlain = true) (hbody : (skeleton side known body).1 = [])
    (hotherwise : (skeleton side known otherwise).1 = []) :
    (Stmt.whenElse condition body otherwise).skeleton side known = ([], none) := by
  rw [Stmt.skeleton, Expr.skeleton_plain hcondition, hbody, hotherwise]
  rfl

theorem skeleton_run {e : Expr} {io : Io} {ios : List Io}
    (he : e.skeleton side known = io :: ios) :
    (Stmt.run e).skeleton side known = (io :: ios, announced? side (.run e)) := by
  rw [Stmt.skeleton, he]

/-- A variable into which a number of items is read tells it from then on. -/
theorem skeleton_assign_freadCount (x : String) :
    (Stmt.assign (.name x) freadCount).skeleton .reading known = ([.one "int32"], some x) :=
  skeleton_assign skeleton_freadCount rfl

/-- A variable whose size is written tells the number of items from then on. -/
theorem skeleton_fwrite_numel (x : String) :
    (fwrite (numel (.name x)) "int32").skeleton .writing known = ([.one "int32"], some x) :=
  skeleton_run (skeleton_fwrite rfl _)

/-- A variable is written as many items if it is the one that was announced. -/
theorem skeleton_fwrite_name (x form : String) :
    (fwrite (.name x) form).skeleton .writing known =
      ([if known = some x then .many form else .one form], none) :=
  skeleton_run (skeleton_fwrite rfl form)

theorem skeleton_writeRecord (ident : String) {v : Expr} (hv : v.isPlain = true) :
    ((writeRecord ident v).skeleton .writing known).1 = [.record ident] := by
  have hcall : (Expr.call ("write_" ++ ident) [file, v]).skeleton .writing known =
      [.record ident] := skeleton_record (by simp [arePlain, hv, file, Expr.isPlain])
  exact congrArg Prod.fst (skeleton_run hcall)

/-- What is done under the condition that the number announced is not zero. -/
theorem guarded_repeated (item : List Io) :
    guarded true [] [] [Io.repeated item] = [Io.repeated item] := by
  unfold Io.repeated
  split <;> rfl

/-- A branch for no items before a loop over them is that loop. -/
theorem skeleton_whenElse_repeated {condition : Expr} {body otherwise : List Stmt} {item : List Io}
    (htest : testsZero side known condition = true) (hcondition : condition.isPlain = true)
    (hbody : (skeleton side known body).1 = [])
    (hotherwise : (skeleton side known otherwise).1 = [.repeated item]) :
    (Stmt.whenElse condition body otherwise).skeleton side known = ([.repeated item], none) := by
  rw [Stmt.skeleton, Expr.skeleton_plain hcondition, hbody, hotherwise, htest, guarded_repeated]

/-- So is a loop that is run unless there are no items. -/
theorem skeleton_when_repeated {condition : Expr} {body : List Stmt} {item : List Io}
    (htest : testsZero side known condition = true) (hcondition : condition.isPlain = true)
    (hbody : (skeleton side known body).1 = [.repeated item]) :
    (Stmt.when (.not condition) body).skeleton side known = ([.repeated item], none) := by
  rw [Stmt.skeleton, Expr.skeleton_plain hcondition, hbody, htest, guarded_repeated]

/-- A loop that repeats something as often as was announced. -/
theorem skeleton_levelLoop (level : Nat) (field : String) {count : Expr} {body : List Stmt}
    {io : Io} {ios : List Io} (hcount : announces side known count = true)
    (hbody : (skeleton side none body).1 = io :: ios) :
    (levelLoop level field count body).skeleton side known = ([.loop (io :: ios)], none) := by
  rw [levelLoop, Stmt.skeleton, hbody]
  show ([if announces side known count then Io.loop (io :: ios) else .irregular], none) = _
  rw [if_pos hcount]

/-! ### Outlines -/

/-- Whether statements do this with the file, whatever was announced before them. -/
def Outlines (side : Side) (stmts : List Stmt) (io : List Io) : Prop :=
  ∀ known, (skeleton side known stmts).1 = io

theorem outlines_nil : Outlines side [] [] := fun _ ↦ rfl

/-- Code that is joined has the outlines of both. -/
theorem Outlines.append {as bs : List Stmt} {io io' : List Io} (has : Outlines side as io)
    (hbs : Outlines side bs io') : Outlines side (as ++ bs) (io ++ io') := by
  intro known
  rw [skeleton_append, has known, hbs]

/-! #### Text -/

/-- A text is read as its length and then its bytes. -/
theorem outlines_readText {target : Expr} (htarget : target.isPlain = true) (field : String) :
    Outlines .reading (readText target field) textOutline := by
  intro known
  have hbytes : (Expr.call "native2unicode" [fread (.row [.number 1, .name ("len_" ++ field)])
      (conversion "uint8" "uint8"), .text "UTF-8"]).skeleton .reading (some ("len_" ++ field)) =
        [.many "uint8"] := by
    rw [Expr.skeleton, skeletons, skeleton_fread rfl, callSkeleton_plain (by decide)]
    simp only [itemsSkeleton, announces]
    rfl
  rw [readText, skeleton, skeleton_assign_freadCount, skeleton, skeleton_assign hbytes htarget]
  rfl

/-- A text is written as its length and then its bytes. -/
theorem outlines_writeText {source : Expr} (hsource : source.isPlain = true) (field : String) :
    Outlines .writing (writeText source field) textOutline := by
  intro known
  have hbytes : (Expr.call "unicode2native" [.call "char" [source], .text "UTF-8"]).isPlain =
      true := by
    simp [Expr.isPlain, arePlain, hsource, plainFunctions]
  rw [writeText, skeleton, skeleton_assign_plain hbytes rfl, skeleton, skeleton_fwrite_numel,
    skeleton, skeleton_fwrite_name, if_pos rfl]
  rfl

/-! #### Scalars and records -/

/-- **A scalar is read** as its element says. -/
theorem outlines_readScalar (field : String) (k : Kind) (preserve : Bool) :
    Outlines .reading (readScalar field k preserve)
      (Generator.elementOf k preserve).outline := by
  unfold readScalar Generator.elementOf
  split
  · exact outlines_readText rfl field
  · intro known
    have hitem : (fread (.number 1) (scalarPrecision k preserve)).skeleton .reading known =
        [.one (precision k)] := by
      rw [skeleton_fread rfl, storedForm_scalarPrecision]
      rfl
    have hsentinel : ∀ known, (emptySentinel (.name ("v_" ++ field)) k preserve).skeleton
        .reading known = ([], none) := by
      intro known
      cases k <;> cases preserve <;>
        exact skeleton_assignIf_plain rfl (by simp [Expr.isPlain, arePlain, plainFunctions])
    rw [skeleton, skeleton_assign hitem rfl, skeleton, hsentinel, skeleton,
      skeleton_assign_plain rfl rfl]
    rfl

/-- **A scalar is written** as its element says. -/
theorem outlines_writeScalar (field : String) (k : Kind) (preserve : Bool) :
    Outlines .writing (writeScalar field k) (Generator.elementOf k preserve).outline := by
  unfold writeScalar Generator.elementOf
  split
  · exact outlines_writeText rfl field
  · intro known
    have hsentinel : ∀ known, (Stmt.assignIf (isEmpty (.name ("v_" ++ field)))
        (.name ("v_" ++ field)) (writeSentinel k) none).skeleton .writing known = ([], none) := by
      intro known
      cases k <;> exact skeleton_assignIf_plain rfl (by simp)
    rw [skeleton, skeleton_assign_plain rfl rfl, skeleton, hsentinel, skeleton,
      skeleton_fwrite_name]
    rfl

theorem outlines_readComposite (field ident : String) :
    Outlines .reading (readComposite field ident) [.record ident] := by
  intro known
  rw [readComposite, skeleton, skeleton_assign (skeleton_readRecord ident) rfl]
  rfl

/-- The check that the record is there does nothing with the file. -/
theorem outlines_writeComposite (owner field ident : String) :
    Outlines .writing (writeComposite owner field ident) [.record ident] := by
  intro known
  rw [writeComposite, skeleton, skeleton, skeleton_writeRecord ident rfl]
  rfl

/-! #### Arrays -/

/-- The names of the values of a level are not those of the numbers of items. -/
theorem levelName_ne (level : Nat) (field : String) :
    levelName "v" level field ≠ levelName "n" level field := by
  intro h
  have hhead := congrArg (List.head? ∘ String.toList) h
  simp [levelName, String.toList_append] at hhead

/-- Reading, the number of items is in the variable of its level. -/
theorem announces_levelCount (level : Nat) (field : String) :
    announces .reading (some (levelName "n" level field)) (levelCount level field) = true := by
  simp [announces, levelCount]

/-- Writing, the number of items is the size of the variable of its level. -/
theorem announces_numel (level : Nat) (field : String) :
    announces .writing (some (levelName "v" level field)) (numel (levelValue level field)) =
      true := by
  simp [announces, numel, levelValue]

/-- The items of the innermost dimension, the number of which has just been read. -/
theorem skeleton_readItems (field : String) (element : Element) (level : Nat) :
    (skeleton .reading (some (levelName "n" level field)) (readItems field element level)).1 =
      [.repeated element.outline] := by
  have hnumeric (count : Expr) (precision form : String) (hcount : count.isPlain = true)
      (hitems : itemsSkeleton .reading (some (levelName "n" level field)) form count = .many form)
      (hform : storedForm precision = form) :
      (skeleton .reading (some (levelName "n" level field))
        [.assign (levelValue level field) (fread count precision)]).1 = [.many form] := by
    have hread : (fread count precision).skeleton .reading (some (levelName "n" level field)) =
        [.many form] := by
      rw [skeleton_fread hcount, hform, hitems]
    rw [skeleton, skeleton_assign hread rfl]
    rfl
  have hcount := announces_levelCount level field
  match element with
  | .numeric k preserve =>
    have hn : itemsSkeleton .reading (some (levelName "n" level field)) (precision k)
        (levelCount level field) = .many (precision k) := by
      simp [itemsSkeleton, announces, levelCount]
    have hrow : itemsSkeleton .reading (some (levelName "n" level field)) "uint8"
        (.row [.number 1, levelCount level field]) = .many "uint8" := by
      simp [itemsSkeleton, announces, levelCount]
    -- characters are read as a row, all others as a column
    cases k with
    | char => exact hnumeric _ _ _ rfl hrow rfl
    | _ => exact hnumeric _ _ _ rfl hn (storedForm_arrayPrecision _ preserve)
  | .text =>
    -- making room for the cells must not touch the count
    have hkept : (levelValue level field).base? ≠ some (levelName "n" level field) :=
      fun h ↦ levelName_ne level field (Option.some.inj h)
    rw [readItems, skeleton, skeleton_assign_plain rfl rfl, if_neg hkept, skeleton,
      skeleton_levelLoop level field hcount (outlines_readText rfl field none)]
    rfl
  | .composite ident =>
    have hbody : (skeleton .reading none
        [.assign (.name ("e_" ++ field)) (readRecord ident),
          .whenElse (.equal (levelIndex level field) (.number 1))
            [.assign (levelValue level field) (.call "repmat"
              [.name ("e_" ++ field), .number 1, levelCount level field])]
            [.assign (.item (levelValue level field) (levelIndex level field))
              (.name ("e_" ++ field))]]).1 = [.record ident] := by
      rw [skeleton, skeleton_assign (skeleton_readRecord ident) rfl, skeleton,
        skeleton_whenElse_plain rfl rfl rfl]
      rfl
    rw [readItems, skeleton, skeleton_levelLoop level field hcount hbody]
    rfl

/-- The items of a dimension, the number of which is read before them. -/
theorem outlines_readCounted {field : String} {element : Element} {level : Nat} {items : List Stmt}
    {item : List Io} (hitems : (skeleton .reading (some (levelName "n" level field)) items).1 =
      [.repeated item]) :
    Outlines .reading
      [.assign (levelCount level field) freadCount,
        .whenElse (.equal (levelCount level field) (.number 0))
          [.assign (levelValue level field) (emptyArray element)] items] (counted item) := by
  intro known
  have hempty : (emptyArray element).isPlain = true := by cases element <;> rfl
  have htest : testsZero .reading (some (levelName "n" level field))
      (.equal (levelCount level field) (.number 0)) = true := by
    simp [testsZero, announces, levelCount]
  have hnone : (skeleton .reading (some (levelName "n" level field))
      [.assign (levelValue level field) (emptyArray element)]).1 = [] := by
    rw [skeleton, skeleton_assign_plain hempty rfl]
    rfl
  have hwhen := skeleton_whenElse_repeated htest rfl hnone hitems
  rw [levelCount] at hwhen ⊢
  rw [skeleton, skeleton_assign_freadCount, skeleton, hwhen]
  rfl

/-- **Reading a dimension** and those inside it, by induction on their number. -/
theorem outlines_readLevel (field : String) (element : Element) (inner level : Nat) :
    Outlines .reading (readLevel field element inner level)
      (arrayOutline element.outline (inner + 1)) := by
  induction inner generalizing level with
  | zero => exact outlines_readCounted (skeleton_readItems field element level)
  | succ inner ih =>
    refine outlines_readCounted ?_
    have hcount := announces_levelCount level field
    have hkept : (levelValue level field).base? ≠ some (levelName "n" level field) :=
      fun h ↦ levelName_ne level field (Option.some.inj h)
    have houter : (outerArray element (levelCount level field)).isPlain = true := by
      cases element <;> rfl
    have hinner : (innerSlot element (levelValue level field) (levelIndex level field)).isPlain =
        true := by
      cases element <;> rfl
    have hstore : Outlines .reading [.assign (innerSlot element (levelValue level field)
        (levelIndex level field)) (levelValue (level + 1) field)] [] := by
      intro known
      rw [skeleton, skeleton_assign_plain rfl hinner]
      rfl
    have hbody := (ih (level + 1)).append hstore
    rw [List.append_nil] at hbody
    rw [skeleton, skeleton_assign_plain houter rfl, if_neg hkept, skeleton,
      skeleton_levelLoop level field hcount (hbody none)]
    rfl

/-- **An array is read** as the outline of its dimensions says. -/
theorem outlines_readArray (field : String) {dims : Nat} (hdims : 0 < dims) (element : Element) :
    Outlines .reading (readArray field dims element) (arrayOutline element.outline dims) := by
  have hstore : Outlines .reading [.assign (slot field) (levelValue 1 field)] [] := by
    intro known
    rw [skeleton, skeleton_assign_plain rfl rfl]
    rfl
  have harray := (outlines_readLevel field element (dims - 1) 1).append hstore
  rwa [List.append_nil, Nat.sub_add_cancel hdims] at harray

example : (skeleton .reading none (readArray "x" 3 .text)).1 =
    [.one "int32", .loop [.one "int32", .loop [.one "int32", .loop textOutline]]] := by
  rfl

/-- The items of the innermost dimension, the number of which has just been written. -/
theorem skeleton_writeItems (field : String) (element : Element) (level : Nat) :
    (skeleton .writing (some (levelName "v" level field)) (writeItems field element level)).1 =
      [.repeated element.outline] := by
  have hcount := announces_numel level field
  match element with
  | .numeric k preserve =>
    have htest : testsZero .writing (some (levelName "v" level field))
        (isEmpty (levelValue level field)) = true := by
      simp [testsZero, isEmpty, levelValue]
    have hbody : (skeleton .writing (some (levelName "v" level field))
        [fwrite (levelValue level field) (precision k)]).1 = [.repeated [.one (precision k)]] := by
      rw [levelValue, skeleton, skeleton_fwrite_name, if_pos rfl]
      rfl
    rw [writeItems, skeleton, skeleton_when_repeated htest rfl hbody]
    rfl
  | .text =>
    rw [writeItems, skeleton,
      skeleton_levelLoop level field hcount (outlines_writeText rfl field none)]
    rfl
  | .composite ident =>
    have hbody : (skeleton .writing none
        [writeRecord ident (.item (levelValue level field) (levelIndex level field))]).1 =
          [.record ident] := by
      rw [skeleton, skeleton_writeRecord ident rfl]
      rfl
    rw [writeItems, skeleton, skeleton_levelLoop level field hcount hbody]
    rfl

/-- **Writing a dimension** and those inside it, by induction on their number. -/
theorem outlines_writeLevel (field : String) (element : Element) (inner level : Nat) :
    Outlines .writing (writeLevel field element inner level)
      (arrayOutline element.outline (inner + 1)) := by
  induction inner generalizing level with
  | zero =>
    intro known
    rw [writeLevel, levelValue, skeleton, skeleton_fwrite_numel, skeleton_writeItems]
    rfl
  | succ inner ih =>
    intro known
    have hinner : (innerSlot element (levelValue level field) (levelIndex level field)).isPlain =
        true := by
      cases element <;> rfl
    have hbody : (skeleton .writing none
        (.assign (levelValue (level + 1) field)
          (innerSlot element (levelValue level field) (levelIndex level field)) ::
            writeLevel field element inner (level + 1))).1 =
        arrayOutline element.outline (inner + 1) := by
      rw [skeleton, skeleton_assign_plain hinner rfl, ih]
      rfl
    have hloop := skeleton_levelLoop level field (announces_numel level field) hbody
    rw [levelValue] at hloop
    rw [writeLevel, levelValue, skeleton, skeleton_fwrite_numel, skeleton, hloop]
    rfl

/-- **An array is written** as the outline of its dimensions says, so it has the skeleton by which
it is read. -/
theorem outlines_writeArray (field : String) {dims : Nat} (hdims : 0 < dims) (element : Element) :
    Outlines .writing (writeArray field dims element) (arrayOutline element.outline dims) := by
  intro known
  rw [writeArray, skeleton, skeleton_assign_plain rfl rfl, outlines_writeLevel,
    Nat.sub_add_cancel hdims]
  rfl

end

end Matlab

end GraphCodec
