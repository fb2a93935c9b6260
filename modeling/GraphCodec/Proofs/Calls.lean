import GraphCodec.Proofs.TypeFunctions

/-!
# The calls in generated code

Generated functions call MATLAB's own and each other, and the calls of each other are those with
`read_` or `write_` in front. The function that reads or writes records of a type calls, in the
order of the fields, the functions of the same side for the composite types of its fields
(`recordCalls_typeFile`), once each whatever the dimensions are; the two functions for files call
those of the root (`recordCalls_loadSource`, `recordCalls_saveSource`).
-/

namespace GraphCodec

/-- The types of fields are those of their elements. -/
theorem Schema.map_fieldTypes {α : Type} (g : TypeDef → α) (s : Schema) (fields : List FieldDef) :
    (s.fieldTypes fields).map g =
      fields.flatMap fun f ↦ (s.element? f).elim [] fun element ↦ element.types.map g := by
  have hfield (f : FieldDef) : (s.resolve f).composite?.toList.map g =
      (s.element? f).elim [] fun element ↦ element.types.map g := by
    rw [element?]
    cases s.resolve f <;> rfl
  rw [fieldTypes, List.filterMap_eq_flatMap_toList, List.map_flatMap]
  simp only [hfield]

namespace Matlab

/-! ### Calls -/

mutual

/-- The functions that an expression calls, in order. -/
def Expr.calls : Expr → List String
  | .name _ | .number _ | .text _ | .emptyCell => []
  | .row items => argumentCalls items
  | .call function args => argumentCalls args ++ [function]
  | .item e e' | .contents e e' | .range e e' | .equal e e' | .less e e' => e.calls ++ e'.calls
  | .field e _ | .not e | .thunk e => e.calls

def argumentCalls : List Expr → List String
  | [] => []
  | e :: es => e.calls ++ argumentCalls es

end

mutual

/-- The functions that a statement calls, in the order of the text. -/
def Stmt.calls : Stmt → List String
  | .comment _ | .blank => []
  | .assign target value => target.calls ++ value.calls
  | .run e => e.calls
  | .assignIf condition target value none => condition.calls ++ target.calls ++ value.calls
  | .assignIf condition target value (some (target', value')) =>
    condition.calls ++ target.calls ++ value.calls ++ target'.calls ++ value'.calls
  | .when condition body => condition.calls ++ calls body
  | .whenElse condition body otherwise => condition.calls ++ calls body ++ calls otherwise
  | .loop _ range body => range.calls ++ calls body
  | .function _ _ _ body => calls body

/-- The functions that code calls, in the order of the text. -/
def calls : List Stmt → List String
  | [] => []
  | t :: ts => t.calls ++ calls ts

end

attribute [simp] Expr.calls argumentCalls Stmt.calls calls

/-- Whether a function reads or writes records of a type. -/
def isRecordFunction (function : String) : Bool :=
  (identOf? "read" function).isSome || (identOf? "write" function).isSome

/-- The functions for records that code calls. -/
def recordCalls (code : List Stmt) : List String :=
  (calls code).filter isRecordFunction

/-- The function for the records of a type. -/
def Side.function (side : Side) (t : TypeDef) : String :=
  side.verb ++ "_" ++ t.simpleName

/-- The functions that code holds. -/
def functionNames (code : List Stmt) : List String :=
  code.filterMap fun
    | .function _ name _ _ => some name
    | _ => none

/-- The functions that a file holds. -/
def Source.functions (file : Source) : List String :=
  functionNames file.code

/-- The verbs make functions for records. -/
theorem isRecordFunction_append (side : Side) (ident : String) :
    isRecordFunction (side.verb ++ "_" ++ ident) = true := by
  cases side with
  | reading =>
    rw [isRecordFunction, Bool.or_eq_true]
    exact .inl (by rw [Side.verb, identOf?_append]; rfl)
  | writing =>
    rw [isRecordFunction, Bool.or_eq_true]
    exact .inr (by rw [Side.verb, identOf?_append]; rfl)

theorem calls_append (as bs : List Stmt) : calls (as ++ bs) = calls as ++ calls bs := by
  induction as with
  | nil => rfl
  | cons a as ih => rw [List.cons_append, calls, calls, ih, List.append_assoc]

theorem recordCalls_append (as bs : List Stmt) :
    recordCalls (as ++ bs) = recordCalls as ++ recordCalls bs := by
  rw [recordCalls, calls_append, List.filter_append]
  rfl

theorem recordCalls_cons (t : Stmt) (ts : List Stmt) :
    recordCalls (t :: ts) = t.calls.filter isRecordFunction ++ recordCalls ts := by
  rw [recordCalls, calls, List.filter_append]
  rfl

@[simp] theorem recordCalls_comment_cons (text : String) (code : List Stmt) :
    recordCalls (.comment text :: code) = recordCalls code := rfl

@[simp] theorem recordCalls_blank_cons (code : List Stmt) :
    recordCalls (.blank :: code) = recordCalls code := rfl

/-- The calls of a function are those of its body. -/
theorem recordCalls_function (result : Option String) (name : String) (params : List String)
    (body : List Stmt) : recordCalls [.function result name params body] = recordCalls body := by
  simp [recordCalls]

/-! ### Calls in the code of fields -/

/-- The record functions of the items of an array. -/
def Element.callsOf (side : Side) : Element → List String
  | .numeric .. | .text => []
  | .composite ident => [side.verb ++ "_" ++ ident]

@[simp] theorem isRecordFunction_read (ident : String) :
    isRecordFunction ("read_" ++ ident) = true :=
  isRecordFunction_append .reading ident

@[simp] theorem isRecordFunction_write (ident : String) :
    isRecordFunction ("write_" ++ ident) = true :=
  isRecordFunction_append .writing ident

/-- Among the items of arrays only records are read by a function of their own. -/
theorem recordCalls_readItems (field : String) (element : Element) (level : Nat) :
    recordCalls (readItems field element level) = element.callsOf .reading := by
  match element with
  | .numeric k preserve =>
    cases k <;> simp +decide [recordCalls, readItems, fread, levelValue, levelCount,
      Element.callsOf, file]
  | .text =>
    simp +decide [recordCalls, readItems, fread, levelValue, levelCount, levelLoop, levelIndex,
      readText, freadCount, Element.callsOf, file]
  | .composite ident =>
    simp +decide [recordCalls, readItems, levelValue, levelCount, levelIndex, levelLoop, readRecord,
      Element.callsOf, file, Side.verb]

/-- So it is in writing. -/
theorem recordCalls_writeItems (field : String) (element : Element) (level : Nat) :
    recordCalls (writeItems field element level) = element.callsOf .writing := by
  match element with
  | .numeric k preserve =>
    simp +decide [recordCalls, writeItems, fwrite, levelValue, Element.callsOf, file, isEmpty]
  | .text =>
    simp +decide [recordCalls, writeItems, fwrite, levelValue, levelLoop, levelIndex, writeText,
      numel, Element.callsOf, file]
  | .composite ident =>
    simp +decide [recordCalls, writeItems, levelValue, levelIndex, levelLoop, writeRecord, numel,
      Element.callsOf, file, Side.verb]

/-- Levels are loops around the items, so they call what these call, and call it once in the text.
-/
theorem recordCalls_readLevel (field : String) (element : Element) (inner level : Nat) :
    recordCalls (readLevel field element inner level) = element.callsOf .reading := by
  -- reading the count and testing it call no function for records
  have hcount (level : Nat) (items : List Stmt) : recordCalls
      [.assign (levelCount level field) freadCount,
        .whenElse (.equal (levelCount level field) (.number 0))
          [.assign (levelValue level field) (emptyArray element)] items] = recordCalls items := by
    cases element <;>
      simp +decide [recordCalls, fread, levelValue, levelCount, freadCount, file, emptyArray]
  -- nor does a loop over the items of an outer dimension around what it repeats
  have hloop (level : Nat) (items : List Stmt) : recordCalls
      [.assign (levelValue level field) (outerArray element (levelCount level field)),
        levelLoop level field (levelCount level field) (items ++
          [.assign (innerSlot element (levelValue level field) (levelIndex level field))
            (levelValue (level + 1) field)])] = recordCalls items := by
    cases element <;>
      simp +decide [recordCalls, calls_append, levelValue, levelCount, levelIndex, levelLoop,
        outerArray, innerSlot]
  induction inner generalizing level with
  | zero =>
    rw [readLevel]
    exact (hcount level _).trans (recordCalls_readItems field element level)
  | succ inner ih =>
    rw [readLevel]
    exact (hcount level _).trans ((hloop level _).trans (ih (level + 1)))

/-- So do levels in writing, by the same induction. -/
theorem recordCalls_writeLevel (field : String) (element : Element) (inner level : Nat) :
    recordCalls (writeLevel field element inner level) = element.callsOf .writing := by
  have hcount (level : Nat) (items : List Stmt) : recordCalls
      (fwrite (numel (levelValue level field)) "int32" :: items) = recordCalls items := by
    simp +decide [recordCalls, fwrite, levelValue, numel, file]
  have hloop (level : Nat) (items : List Stmt) : recordCalls
      [levelLoop level field (numel (levelValue level field))
        (.assign (levelValue (level + 1) field)
          (innerSlot element (levelValue level field) (levelIndex level field)) :: items)] =
        recordCalls items := by
    cases element <;>
      simp +decide [recordCalls, levelValue, levelIndex, levelLoop, numel, innerSlot]
  induction inner generalizing level with
  | zero =>
    rw [writeLevel]
    exact (hcount level _).trans (recordCalls_writeItems field element level)
  | succ inner ih =>
    rw [writeLevel]
    exact (hcount level _).trans ((hloop level _).trans (ih (level + 1)))

/-- The items of a field are of its declared type. -/
theorem callsOf_fieldItems (side : Side) (f : FieldDef) (element : ElementType) :
    (fieldItems f element).callsOf side = element.types.map side.function := by
  cases element with
  | primitive k => cases k <;> rfl
  | composite t => rfl

/-- **The calls of a field.** It calls the function for its type, if that is composite, once. -/
theorem recordCalls_fieldReads (f : FieldDef) (element : ElementType) :
    recordCalls (fieldReads f element) = element.types.map Side.reading.function := by
  have hlast : recordCalls [.assign (slot f.name) (levelValue 1 f.name)] = [] := rfl
  unfold fieldReads
  split
  · rw [readArray, recordCalls_append, recordCalls_readLevel, callsOf_fieldItems, hlast,
      List.append_nil]
  · cases element with
    | primitive k =>
      cases k <;> cases f.preserve <;>
        simp +decide [recordCalls, readScalar, readText, slot, fread, freadCount, file,
          emptySentinel, readSentinel, ofClass, ElementType.types]
    | composite t =>
      simp +decide [recordCalls, readComposite, slot, readRecord, file, ElementType.types,
        Side.function, Side.verb]

/-- Writing a field calls the function of its type if it holds records. -/
theorem recordCalls_fieldWrites (owner : String) (f : FieldDef) (element : ElementType) :
    recordCalls (fieldWrites owner f element) = element.types.map Side.writing.function := by
  unfold fieldWrites
  split
  · rw [writeArray, recordCalls_cons, recordCalls_writeLevel, callsOf_fieldItems]
    rfl
  · cases element with
    | primitive k =>
      cases k <;>
        simp +decide [recordCalls, writeScalar, writeText, slot, fwrite, file, numel, isEmpty,
          writeSentinel, ofClass, ElementType.types]
    | composite t =>
      simp +decide [recordCalls, writeComposite, slot, isEmpty, writeRecord, file,
        ElementType.types, Side.function, Side.verb]

/-- **A field** calls the function of its declared type, reading or writing. -/
theorem recordCalls_fieldCode (side : Side) (owner : String) (f : FieldDef)
    (element : ElementType) :
    recordCalls (fieldCode side owner f element) = element.types.map side.function := by
  cases side with
  | reading => exact recordCalls_fieldReads f element
  | writing => exact recordCalls_fieldWrites owner f element

/-! ### Calls in the files of a type -/

namespace TypeCode

/-- What is gathered from code part by part is nothing for no code. -/
theorem gather_nil {α : Type} {gather : List Stmt → List α}
    (happend : ∀ as bs, gather (as ++ bs) = gather as ++ gather bs) : gather [] = [] := by
  have hnil := happend [] []
  rwa [List.append_nil, List.self_eq_append_right] at hnil

/-- **What is gathered from code** part by part, and not from headings, comes from the fields of a
type in order. -/
theorem gather_body_withFields {α : Type} {gather : List Stmt → List α}
    (happend : ∀ as bs, gather (as ++ bs) = gather as ++ gather bs)
    (hheading : ∀ heading, gather [.blank, .comment heading] = []) (s : Schema) (c : TypeCode)
    (side : Side) (fields : List FieldDef) :
    gather ((c.withFields s fields).body side) = gather (c.body side) ++ fields.flatMap fun f ↦
      (s.element? f).elim [] fun element ↦ gather (fieldCode side c.ident f element) := by
  have hfield (f : FieldDef) : gather (fieldStatements s side c.ident f) =
      (s.element? f).elim [] fun element ↦ gather (fieldCode side c.ident f element) := by
    rw [fieldStatements]
    cases s.element? f with
    | none => exact gather_nil happend
    | some element =>
      show gather ([.blank, .comment _] ++ fieldCode side c.ident f element) = _
      rw [happend, hheading]
      rfl
  have hall : gather (fields.flatMap (fieldStatements s side c.ident)) =
      fields.flatMap fun f ↦ gather (fieldStatements s side c.ident f) := by
    induction fields with
    | nil => exact gather_nil happend
    | cons f fs ih => rw [List.flatMap_cons, List.flatMap_cons, happend, ih]
  rw [body_withFields, happend, hall]
  simp only [hfield]

end TypeCode

/-- The file of the function that reads or writes records of a type. -/
def typeFile (s : Schema) (side : Side) (t : TypeDef) : Source :=
  match side with
  | .reading => ⟨fileName "read" t.simpleName,
      [.function (some "s") ("read_" ++ t.simpleName) ["fid"] (TypeCode.ofType s t).reads]⟩
  | .writing => ⟨fileName "write" t.simpleName,
      [.function none ("write_" ++ t.simpleName) ["fid", "s"] (TypeCode.ofType s t).writes]⟩

/-- Each type has two files, one for each side. -/
theorem sources_ofType (s : Schema) (t : TypeDef) :
    (TypeCode.ofType s t).sources = [typeFile s .reading t, typeFile s .writing t] := by
  rw [TypeCode.sources, TypeCode.ident_ofType]
  rfl

/-- And each holds one function. -/
theorem functions_typeFile (s : Schema) (side : Side) (t : TypeDef) :
    (typeFile s side t).functions = [side.function t] := by
  cases side <;> rfl

/-- **The calls of a type.** Its functions call those of the composite types of its fields, in the
order of the fields. -/
theorem recordCalls_typeFile (s : Schema) (side : Side) (t : TypeDef) :
    recordCalls (typeFile s side t).code = (s.fieldTypes t.fields).map side.function := by
  have hbody : recordCalls (typeFile s side t).code =
      recordCalls ((TypeCode.ofType s t).body side) := by
    cases side <;> exact recordCalls_function ..
  have hstart : recordCalls ((TypeCode.start t t.simpleName).body side) = [] := by
    cases side <;>
      simp +decide [TypeCode.body, TypeCode.start, recordCalls]
  rw [hbody, TypeCode.ofType,
    TypeCode.gather_body_withFields recordCalls_append fun _ ↦ rfl, hstart, List.nil_append]
  simp only [recordCalls_fieldCode, Schema.map_fieldTypes]

/-! ### Calls in the files of the root -/

theorem recordCalls_openFile (mode : String) : recordCalls (openFile mode) = [] := by
  simp +decide [recordCalls, openFile, complain, file]

theorem recordCalls_skipDictionary : recordCalls skipDictionary = [] := by
  decide

/-- **Loading** calls the function that reads the root. -/
theorem recordCalls_loadSource (ident : String) (rootTag : Tag) :
    recordCalls (loadSource ident rootTag).code = ["read_" ++ ident] := by
  simp only [loadSource, recordCalls_function, List.cons_append, recordCalls_comment_cons,
    recordCalls_blank_cons, recordCalls_append, recordCalls_openFile, recordCalls_skipDictionary]
  simp +decide [recordCalls, complain, expectNumber, freadCount, fread, readRecord, file]

/-- Pieces of code that call nothing call nothing together. -/
theorem recordCalls_flatMap_eq_nil {α : Type} {code : α → List Stmt} (as : List α)
    (h : ∀ a, recordCalls (code a) = []) : recordCalls (as.flatMap code) = [] := by
  induction as with
  | nil => rfl
  | cons a as ih => rw [List.flatMap_cons, recordCalls_append, h, ih, List.append_nil]

theorem argumentCalls_numbers (bs : List UInt8) :
    argumentCalls (bs.map fun b ↦ .number b.toNat) = [] := by
  induction bs with
  | nil => rfl
  | cons b bs ih => rw [List.map_cons, argumentCalls, ih, Expr.calls, List.append_nil]

theorem recordCalls_writeWord_cons (v : Int) (code : List Stmt) :
    recordCalls (writeWord v :: code) = recordCalls code := by
  simp +decide [recordCalls, writeWord, fwrite, file]

/-- The name of a type is an argument, whatever is in it, and never a call. -/
theorem recordCalls_writeName (name : String) : recordCalls (writeName name) = [] := by
  rw [writeName, recordCalls_writeWord_cons]
  split
  · rfl
  · unfold byteLiteral
    split <;>
      simp +decide [recordCalls, fwrite, file, argumentCalls_numbers]

/-- **The literals** of a dictionary are written without calls of functions for records. -/
theorem recordCalls_writePreamble (d : Dictionary) (rootTag : Tag) :
    recordCalls (writePreamble d rootTag) = [] := by
  have hfield (f : FieldEntry) : recordCalls (writeFieldEntry f) = [] := by
    rw [writeFieldEntry, recordCalls_append, recordCalls_writeName]
    simp +decide [recordCalls, fwrite, file]
  have htype (t : TypeEntry) : recordCalls (writeTypeEntry t) = [] := by
    simp only [writeTypeEntry, List.cons_append, List.nil_append, recordCalls_comment_cons,
      recordCalls_blank_cons, recordCalls_writeWord_cons, recordCalls_append,
      recordCalls_writeName, recordCalls_flatMap_eq_nil t.fields hfield]
  simp only [writePreamble, List.cons_append, List.nil_append, recordCalls_comment_cons,
    recordCalls_blank_cons, recordCalls_writeWord_cons, recordCalls_append,
    recordCalls_flatMap_eq_nil _ htype]
  rfl

/-- **Saving** calls the function that writes the root, and the preamble calls none. -/
theorem recordCalls_saveSource (ident : String) (rootTag : Tag) (d : Dictionary) :
    recordCalls (saveSource ident rootTag d).code = ["write_" ++ ident] := by
  simp only [saveSource, recordCalls_function, List.cons_append, recordCalls_comment_cons,
    recordCalls_blank_cons, recordCalls_append, recordCalls_openFile, recordCalls_writePreamble]
  simp +decide [recordCalls, writeRecord, file]

end Matlab

end GraphCodec
