import GraphCodec.Proofs.Calls
import GraphCodec.Proofs.ReadableCode

/-!
# Generated files are read back

The text of a generated file is read as the code of the file (`code?_text_typeFile`,
`code?_text_loadSource`, `code?_text_saveSource`), so what holds of the code holds of the text.

The generator does not check the full name of a type. It stands in comments, as it is, in the files
of the type and in that of the function that saves; there it has to be on one line.
-/

namespace GraphCodec

namespace Matlab

variable {closed : Bool}

/-! ### Files of types -/

theorem unbroken_brackets (dims : Nat) : Unbroken (Generator.brackets dims) := by
  rw [Unbroken, Generator.brackets, String.toList_join, List.all_flatMap, List.all_eq_true]
  intro t ht
  rw [List.eq_of_mem_replicate ht]
  rfl

section

variable {f : FieldDef} {element : ElementType}

/-- Whether the names in the code of a field are words: its own, and those of functions for its
type. -/
structure Worded (f : FieldDef) (element : ElementType) : Prop where
  field : IsWord f.name
  types : ∀ t ∈ element.types, WordChars t.simpleName

/-- The names in the code of the fields of a type, if they are identifiers and those of the types
that it refers to are. -/
theorem worded_of_names {s : Schema} {t : TypeDef}
    (hfields : ∀ f ∈ t.fields, isIdentifier f.name = true)
    (htypes : ∀ u, s.Refers t u → isIdentifier ("write_" ++ u.simpleName) = true)
    (hf : f ∈ t.fields) (helement : s.element? f = some element) : Worded f element := by
  refine ⟨isWord_of_isIdentifier (hfields f hf), fun u hu ↦ ?_⟩
  cases element with
  | primitive k => exact absurd hu List.not_mem_nil
  | composite v =>
    obtain rfl := List.mem_singleton.1 hu
    have hident := htypes u (Schema.refers_iff.2 ⟨f, hf, helement⟩)
    exact (identifierChars_of_isIdentifier hident).wordChars

/-- The items of a field with names of its own are named. -/
theorem Worded.items (h : Worded f element) : (fieldItems f element).Named := by
  cases element with
  | primitive k =>
    rw [fieldItems, Generator.elementOf]
    split <;> trivial
  | composite t => exact h.types t (List.mem_singleton_self t)

/-- The heading of a field is on one line, whatever its type. -/
theorem Worded.unbroken_heading (h : Worded f element) :
    Unbroken (TypeCode.heading f element) := by
  have hitem : Unbroken (itemName element) := by
    cases element with
    | primitive k => cases k <;> rfl
    | composite t => exact (h.types t (List.mem_singleton_self t)).unbroken
  rw [TypeCode.heading]
  split
  · exact ((hitem.append (unbroken_brackets f.dims)).append (t := " ") rfl).append h.field.unbroken
  · exact (hitem.append (t := " ") rfl).append h.field.unbroken

/-- **The code of a field is read back**; what is written may name the type `owner`. -/
theorem readableCode_fieldReads (h : Worded f element) :
    ReadableCode (fieldReads f element) := by
  unfold fieldReads
  split
  · exact readableCode_readArray h.field h.items f.dims
  · cases element with
    | primitive k => exact readableCode_readScalar h.field k f.preserve
    | composite t =>
      exact readableCode_readComposite h.field (h.types t (List.mem_singleton_self t))

/-- Writing a field is readable if the name of the owner is on one line. -/
theorem readableCode_fieldWrites (h : Worded f element) {owner : String}
    (howner : Unbroken owner) : ReadableCode (fieldWrites owner f element) := by
  unfold fieldWrites
  split
  · exact readableCode_writeArray h.field h.items f.dims
  · cases element with
    | primitive k => exact readableCode_writeScalar h.field k
    | composite t =>
      exact readableCode_writeComposite h.field howner (h.types t (List.mem_singleton_self t))

/-- **The code of a field** is readable, reading or writing. -/
theorem readableCode_fieldCode (h : Worded f element) (side : Side) {owner : String}
    (howner : side = .writing → Unbroken owner) :
    ReadableCode (fieldCode side owner f element) := by
  cases side with
  | reading => exact readableCode_fieldReads h
  | writing => exact readableCode_fieldWrites h (howner rfl)

end

namespace TypeCode

/-- The code of a type without fields. -/
theorem readableCode_start {t : TypeDef} (hname : Unbroken t.name)
    (hident : IdentifierChars t.simpleName) (side : Side) :
    ReadableCode ((start t t.simpleName).body side) := by
  have horigin : Unbroken (toString "   Generated from type " ++ toString t.name ++
      toString "; do not edit.") :=
    (Unbroken.append (s := "   Generated from type ") rfl hname).append (t := "; do not edit.") rfl
  cases side with
  | reading =>
    have htitle := hident.unbroken_title (a := "READ_") (b := " Read one ")
      (c := " from an open persistable file.") rfl rfl rfl
    have hstruct : (Expr.call "struct" []).Readable false := readable_call rfl trivial
    exact readableCode_cons (.comment htitle) (readableCode_cons (.comment horigin)
      (readableCode_cons .blank (Stmt.Readable.assign (readable_name rfl) hstruct).alone))
  | writing =>
    have htitle := hident.unbroken_title (a := "WRITE_") (b := " Write one ")
      (c := " to an open persistable file.") rfl rfl rfl
    exact readableCode_cons (.comment htitle) (Stmt.Readable.comment horigin).alone

/-- The statements for a field under its heading. -/
theorem readableCode_fieldStatements {s : Schema} {f : FieldDef}
    (hf : ∀ element, s.element? f = some element → Worded f element) (side : Side)
    {owner : String} (howner : side = .writing → Unbroken owner) :
    ReadableCode (fieldStatements s side owner f) := by
  rw [fieldStatements]
  cases helement : s.element? f with
  | none => exact readableCode_nil
  | some element =>
    have hworded := hf element helement
    have hheading : Unbroken (" " ++ heading f element) :=
      .append (s := " ") rfl hworded.unbroken_heading
    exact (readableCode_cons .blank (Stmt.Readable.comment hheading).alone).append
      (readableCode_fieldCode hworded side howner)

end TypeCode

/-- A function with plain names for its result and its parameters is read as its body is. -/
theorem readsAs_function {result : Option String} {front ident : String} {ps : List String}
    {body body' : List Stmt} (hresult : result.all isPlainName = true)
    (hfront : (isFront front && !holdsValue front) = true) (hident : WordChars ident)
    (hps : ps.all isPlainName = true) (hbody : ReadsAs body body') :
    ReadsAs [.function result (front ++ ident) ps body]
      [.function result (front ++ ident) ps body'] := by
  rw [Bool.and_eq_true, Bool.not_eq_true'] at hfront
  have hheader : Means (signature result (front ++ ident) ps)
      (.opens (.function result (front ++ ident) ps)) := by
    refine means_signature (fun r hr ↦ ?_) (isName_append hfront.1 hident) ?_ (fun p hp ↦ ?_)
    · rw [Option.mem_def.1 hr] at hresult
      exact (isName_of_isPlainName hresult).isWord
    · rw [holdsValue_append (List.ne_nil_of_mem (isFront_iff.1 hfront.1).2)]
      exact hfront.2
    · exact isName_of_isPlainName (List.all_eq_true.1 hps p hp)
  exact readsAs_block (fun _ ↦ by rw [Stmt.lines]) rfl hheader hbody

/-- **The file of a type is read back**: the text of it is read as its code. -/
theorem code?_text_typeFile {s : Schema} {t : TypeDef}
    (hfields : ∀ f ∈ t.fields, ∀ element, s.element? f = some element → Worded f element)
    (hident : IdentifierChars t.simpleName) (hname : Unbroken t.name) (side : Side) :
    code? (typeFile s side t).text = some (typeFile s side t).code := by
  have hbody : ReadableCode ((TypeCode.ofType s t).body side) := by
    rw [TypeCode.ofType, TypeCode.body_withFields]
    exact (TypeCode.readableCode_start hname hident side).append (readableCode_flatMap fun f hf ↦
      TypeCode.readableCode_fieldStatements (hfields f hf) side fun _ ↦ hident.unbroken)
  cases side with
  | reading => exact (readsAs_function rfl rfl hident.wordChars rfl hbody.readsAs).code?_print
  | writing => exact (readsAs_function rfl rfl hident.wordChars rfl hbody.readsAs).code?_print

/-! ### Files of the root -/

/-- A complaint is a call with a text in front. -/
theorem readable_complain {i : String} (hi : Unbroken i) {args : List Expr}
    (hargs : ∀ e ∈ args, e.Readable false) : (complain i args).Readable :=
  .run (.call (isName_of_isPlainName rfl) rfl (List.forall_mem_cons.2 ⟨.text hi, hargs⟩))

/-- Opening the file is readable, with its complaint. -/
theorem readableCode_openFile {mode : String} (hmode : Unbroken mode) :
    ReadableCode (openFile mode) := by
  have hfilename : (Expr.name "filename").Readable false := readable_name rfl
  have hopen : (Expr.call "fopen" [.name "filename", .text mode, .text "n"]).Readable false :=
    readable_call rfl ⟨hfilename, .text hmode, .text rfl⟩
  have hcomplain : (complain "persistable:open"
      [.text "Cannot open %s", .name "filename"]).Readable :=
    readable_complain (i := "persistable:open") rfl
      (List.forall_iff_forall_mem.1 ⟨.text rfl, hfilename⟩)
  have hclose : (Expr.call "onCleanup" [.thunk (.call "fclose" [file])]).Readable false :=
    readable_call rfl (.thunk (readable_call rfl readable_file))
  exact readableCode_cons (.assign readable_file hopen)
    (readableCode_cons (.when (.less readable_file (.number 0)) hcomplain.alone)
      (Stmt.Readable.assign (readable_name rfl) hclose).alone)

/-- A check of a number is readable with its complaint. -/
theorem readable_expectNumber {name : String} (hname : isPlainName name = true) (v : Int)
    {complaint : Stmt} (hcomplaint : complaint.Readable) :
    (expectNumber name v complaint).Readable := by
  have hequal : (Expr.call "isequal" [.name name, .number v]).Readable false :=
    readable_call rfl ⟨readable_name hname, .number v⟩
  exact .when (.not hequal) hcomplaint.alone

theorem readable_skipText : skipText.Readable :=
  .run (readable_call rfl ⟨readable_file, readable_freadCount, .text rfl⟩)

theorem readable_skipWords (count : Int) : (skipWords count).Readable :=
  .run (readable_fread (.number count) rfl)

/-- A loop that counts to a variable is readable around a readable body. -/
theorem readable_countLoop {counter limit : String} (hcounter : isPlainName counter = true)
    (hlimit : isPlainName limit = true) {body : List Stmt} (hbody : ReadableCode body) :
    (Stmt.loop counter (.range (.number 1) (.name limit)) body).Readable :=
  .loop (isName_of_isPlainName hcounter).isWord (.range (.number 1) (readable_name hlimit)) hbody

/-- Skipping the dictionary section is readable, with a loop in a loop. -/
theorem readableCode_skipDictionary : ReadableCode skipDictionary := by
  have hfield : ReadableCode [skipText, skipWords 2] :=
    readableCode_cons readable_skipText (readable_skipWords 2).alone
  have htype : ReadableCode [skipWords 1, skipText, .assign (.name "nFields") freadCount,
      .loop "f" (.range (.number 1) (.name "nFields")) [skipText, skipWords 2]] :=
    readableCode_cons (readable_skipWords 1) (readableCode_cons readable_skipText
      (readableCode_cons (.assign (readable_name rfl) readable_freadCount)
        (readable_countLoop rfl rfl hfield).alone))
  exact readableCode_cons (.assign (readable_name rfl) readable_freadCount)
    (readable_countLoop rfl rfl htype).alone

/-- **The file of the function that loads is read back.** -/
theorem code?_text_loadSource {ident : String} (hident : IdentifierChars ident) (rootTag : Tag) :
    code? (loadSource ident rootTag).text = some (loadSource ident rootTag).code := by
  have hfilename : (Expr.name "filename").Readable false := readable_name rfl
  have htag : (Expr.name "tag").Readable false := readable_name rfl
  have hmagicName : (Expr.name "magic").Readable false := readable_name rfl
  have hresult : (Expr.name "s").Readable false := readable_name rfl
  have htitle := hident.unbroken_title (a := "LOAD_") (b := " Load a ")
    (c := " from a persistable binary file.") rfl rfl rfl
  have hbadTag : Unbroken (toString "Top-level type tag %d is not a " ++ toString ident) :=
    .append (s := "Top-level type tag %d is not a ") rfl hident.unbroken
  have hcomplainMagic : (complain "persistable:magic"
      [.text "Not a persistable file: %s", .name "filename"]).Readable :=
    readable_complain (i := "persistable:magic") rfl
      (List.forall_iff_forall_mem.1 ⟨.text rfl, hfilename⟩)
  have hcomplainTag : (complain "persistable:type"
      [.text s!"Top-level type tag %d is not a {ident}", .name "tag"]).Readable :=
    readable_complain (i := "persistable:type") rfl
      (List.forall_iff_forall_mem.1 ⟨.text hbadTag, htag⟩)
  have hnote : Unbroken " dictionary (not needed: the layout is compiled in)" := rfl
  have hopen : ReadableCode (openFile "r") := readableCode_openFile rfl
  have hmagic : ReadableCode [.blank, .assign (.name "magic") freadCount,
      expectNumber "magic" magic.toInt (complain "persistable:magic"
        [.text "Not a persistable file: %s", .name "filename"]), .blank,
      .comment " dictionary (not needed: the layout is compiled in)"] :=
    readableCode_cons .blank (readableCode_cons (.assign hmagicName readable_freadCount)
      (readableCode_cons (readable_expectNumber rfl _ hcomplainMagic)
        (readableCode_cons .blank (Stmt.Readable.comment hnote).alone)))
  have hroot : ReadableCode [.blank, .assign (.name "tag") freadCount,
      expectNumber "tag" rootTag.toInt (complain "persistable:type"
        [.text s!"Top-level type tag %d is not a {ident}", .name "tag"]),
      .assign (.name "s") (readRecord ident)] :=
    readableCode_cons .blank (readableCode_cons (.assign htag readable_freadCount)
      (readableCode_cons (readable_expectNumber rfl _ hcomplainTag)
        (Stmt.Readable.assign hresult (readable_readRecord hident.wordChars)).alone))
  have hbody := readableCode_cons (.comment htitle) (readableCode_cons .blank
    (((hopen.append hmagic).append readableCode_skipDictionary).append hroot))
  exact (readsAs_function rfl rfl hident.wordChars rfl hbody.readsAs).code?_print

/-! What the function that saves writes before the record. -/

theorem readable_writeWord (v : Int) : (writeWord v).Readable :=
  readable_fwrite (.number v) rfl

/-- A row of numbers is readable. -/
theorem readable_row (vs : List Int) : (Expr.row (vs.map .number)).Readable closed := by
  refine .row fun e he ↦ ?_
  obtain ⟨v, -, rfl⟩ := List.mem_map.1 he
  exact .number v

/-- **The literal of a name** is readable, whatever the name is: between quotes it is of one line,
and otherwise it is numbers. -/
theorem readable_byteLiteral (s : String) : (byteLiteral s).Readable false := by
  rw [byteLiteral]
  split
  · rename_i hplain
    exact .text (unbroken_of_all_isPlainByte hplain)
  · rw [map_number_eq]
    exact readable_call rfl (readable_row _)

theorem readableCode_writeName (s : String) : ReadableCode (writeName s) := by
  rw [writeName]
  split
  · exact (readable_writeWord _).alone
  · exact readableCode_cons (readable_writeWord _)
      (readable_fwrite (p := "uint8") (readable_byteLiteral s) rfl).alone

theorem readableCode_writeFieldEntry (f : FieldEntry) : ReadableCode (writeFieldEntry f) :=
  (readableCode_writeName f.name).append
    (readable_fwrite (p := "int32") (readable_row [f.tag.toInt, f.dims.toInt]) rfl).alone

/-- **Writing a type of the dictionary** is readable if its name is on one line, for the comment in
front. -/
theorem readableCode_writeTypeEntry {t : TypeEntry} (hname : Unbroken t.name) :
    ReadableCode (writeTypeEntry t) := by
  have hcomment := unbroken_typeComment hname
  exact (ReadableCode.append (readableCode_cons .blank (readableCode_cons (.comment hcomment)
    (readable_writeWord _).alone)) (readableCode_writeName t.name)).append
      (readableCode_cons (readable_writeWord _)
        (readableCode_flatMap fun f _ ↦ readableCode_writeFieldEntry f))

/-- So is the preamble, if all names are on one line. -/
theorem readableCode_writePreamble {d : Dictionary}
    (hnames : ∀ t ∈ d.types.toList, Unbroken t.name) (rootTag : Tag) :
    ReadableCode (writePreamble d rootTag) := by
  have hcount := unbroken_countComment d.types.size
  have hfront : ReadableCode [writeWord magic.toInt, .blank,
      .comment s!" dictionary: {d.types.size} types", writeWord d.types.size] :=
    readableCode_cons (readable_writeWord _) (readableCode_cons .blank
      (readableCode_cons (.comment hcount) (readable_writeWord _).alone))
  have htypes : ReadableCode (d.types.toList.flatMap writeTypeEntry) :=
    readableCode_flatMap fun t ht ↦ readableCode_writeTypeEntry (hnames t ht)
  exact (hfront.append htypes).append
    (readableCode_cons .blank (readable_writeWord rootTag.toInt).alone)

/-- **The file of the function that saves is read back**, if every name of a type is on one line. -/
theorem code?_text_saveSource {ident : String} (hident : IdentifierChars ident) (rootTag : Tag)
    {d : Dictionary} (hnames : ∀ t ∈ d.types.toList, Unbroken t.name) :
    code? (saveSource ident rootTag d).text = some (saveSource ident rootTag d).code := by
  have htitle := hident.unbroken_title (a := "SAVE_") (b := " Save a ")
    (c := " to a persistable binary file.") rfl rfl rfl
  have hopen : ReadableCode (openFile "w") := readableCode_openFile rfl
  have hfront := readableCode_cons (.comment htitle) (readableCode_cons .blank
    (hopen.append (readableCode_cons .blank (readableCode_writePreamble hnames rootTag))))
  have hbody : ReadableCode (saveFront ident rootTag d ++ [writeRecord ident (.name "s")]) :=
    ReadableCode.append hfront (readable_writeRecord hident.wordChars (readable_name rfl)).alone
  rw [saveSource_eq]
  exact (readsAs_function rfl rfl hident.wordChars rfl hbody.readsAs).code?_print

end Matlab

end GraphCodec
