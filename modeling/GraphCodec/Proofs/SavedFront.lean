import GraphCodec.Proofs.Encoding
import GraphCodec.Proofs.Naming
import GraphCodec.Proofs.Nesting
import GraphCodec.Proofs.Replay

/-!
# What generated code saves first

The generated function that saves a file image writes, before the root, the same bytes with which
the encoder begins every image of a record of this type (`source?_save`): the magic number, the
dictionary section and the tag of the root type. Statement by statement the literals stand for the
stored forms of what they spell out.

Names of types also stand in comments, as they are. A name that ends a line there ends the comment
too, and what follows it is code (`replay_split`); hence no name of a type may do so.
-/

namespace GraphCodec

namespace Matlab

/-! ### Texts on one line -/

/-- None of the characters that identifiers and numbers have ends a line. -/
theorem endsLine_eq_false {c : Char} (h : c.isAlphanum = true ∨ c = '_' ∨ c = '-' ∨ c = ' ') :
    endsLine c = false := by
  unfold endsLine
  rw [Bool.or_eq_false_iff, beq_eq_false_iff_ne, beq_eq_false_iff_ne]
  constructor <;> rintro rfl <;> simp at h

/-- Capital letters are letters. -/
theorem isAlphanum_toUpper {c : Char} (h : c.isAlphanum = true) : c.toUpper.isAlphanum = true := by
  simp only [Char.isAlphanum, Char.isAlpha, Char.isUpper, Char.isLower, Char.isDigit,
    Char.toUpper] at *
  grind

/-- Whether the characters of a text are those of identifiers. -/
def IdentifierChars (s : String) : Prop :=
  ∀ c ∈ s.toList, c.isAlphanum = true ∨ c = '_'

/-- What makes an identifier behind a verb has the characters of identifiers, if not the first of
them. -/
theorem identifierChars_of_isIdentifier {verb ident : String}
    (h : isIdentifier (verb ++ ident) = true) : IdentifierChars ident := by
  have hchars : ∀ c ∈ (verb ++ ident).toList, c.isAlphanum = true ∨ c = '_' := by
    unfold isIdentifier at h
    cases htext : (verb ++ ident).toList with
    | nil => exact fun c hc ↦ absurd hc List.not_mem_nil
    | cons first rest =>
      rw [htext] at h
      simp only [Bool.and_eq_true, List.all_eq_true, Bool.or_eq_true, beq_iff_eq] at h
      exact List.forall_mem_cons.2 ⟨.inl (Bool.or_eq_true_iff.2 (.inl h.1.1)), h.1.2⟩
  exact fun c hc ↦ hchars c (by
    rw [String.toList_append]
    exact List.mem_append_right _ hc)

/-- Such a text is on one line. -/
theorem IdentifierChars.unbroken {s : String} (h : IdentifierChars s) : Unbroken s :=
  unbroken_iff.2 fun c hc ↦ endsLine_eq_false ((h c hc).imp id .inl)

theorem IdentifierChars.map_toUpper {s : String} (h : IdentifierChars s) :
    IdentifierChars (s.map Char.toUpper) := by
  intro c hc
  rw [String.toList_map] at hc
  obtain ⟨c', hc', rfl⟩ := List.mem_map.1 hc
  rcases h c' hc' with halphanum | rfl
  · exact .inl (isAlphanum_toUpper halphanum)
  · exact .inr rfl

/-- So is a number. -/
theorem unbroken_integerText (v : Int) : Unbroken (Json.integerText v) := by
  refine unbroken_iff.2 fun c hc ↦ endsLine_eq_false ?_
  rcases mem_toList_integerText hc with rfl | hdigit
  · exact .inr (.inr (.inl rfl))
  · exact .inl (Bool.or_eq_true_iff.2 (.inr hdigit))

/-- Numbers are put into texts as they are printed elsewhere. -/
theorem toString_int (v : Int) : toString v = Json.integerText v := by
  rw [Int.toString_eq_repr]
  cases v with
  | ofNat n => rfl
  | negSucc n =>
    show "-" ++ String.ofList (Nat.toDigits 10 (n + 1)) = _
    rw [Json.integerText, if_pos (Int.negSucc_lt_zero n), String.ofList_append]
    rfl

theorem toString_nat (n : Nat) : toString n = Json.integerText n :=
  toString_int n

/-- What holds of the characters of a separator and of texts holds of the texts in a row. -/
theorem forall_mem_intercalate {P : Char → Prop} {sep : String} (hsep : ∀ c ∈ sep.toList, P c)
    {ts : List String} (h : ∀ t ∈ ts, ∀ c ∈ t.toList, P c) :
    ∀ c ∈ (sep.intercalate ts).toList, P c := by
  induction ts with
  | nil => exact fun c hc ↦ absurd hc List.not_mem_nil
  | cons t ts ih =>
    have hrest := ih fun u hu ↦ h u (List.mem_cons_of_mem t hu)
    have hfirst := h t List.mem_cons_self
    cases ts with
    | nil =>
      rw [String.intercalate_singleton]
      exact hfirst
    | cons u us =>
      rw [String.intercalate_cons_cons, String.toList_append, String.toList_append]
      exact List.forall_mem_append.2 ⟨List.forall_mem_append.2 ⟨hfirst, hsep⟩, hrest⟩

theorem unbroken_intercalate {ts : List String} (h : ∀ t ∈ ts, Unbroken t) :
    Unbroken (" ".intercalate ts) := by
  have hsep : Unbroken " " := rfl
  exact unbroken_iff.2 (forall_mem_intercalate (unbroken_iff.1 hsep) fun t ht ↦
    unbroken_iff.1 (h t ht))

/-- The text of a row of integers is on one line. -/
theorem unbroken_row (vs : List Int) : Unbroken (Expr.row (vs.map .number)).print := by
  rw [Expr.print, printAll_map]
  refine (Unbroken.append (s := "[") rfl (unbroken_intercalate fun t ht ↦ ?_)).append rfl
  obtain ⟨v, -, rfl⟩ := List.mem_map.1 ht
  exact unbroken_integerText v

/-- Quoting adds nothing but quotes. -/
theorem mem_of_mem_quoteChars {c : Char} {cs : List Char} (h : c ∈ quoteChars cs) : c ∈ cs := by
  induction cs using quoteChars.induct with
  | case1 => exact h
  | case2 cs ih =>
    rw [quoteChars] at h
    grind
  | case3 d cs hd ih =>
    rw [quoteChars.eq_3 _ _ hd] at h
    grind

/-- What holds of the quote and of the characters of a text holds of the text between quotes. -/
theorem forall_mem_quoted {P : Char → Prop} (hquote : P '\'') {s : String}
    (h : ∀ c ∈ s.toList, P c) : ∀ c ∈ (quoted s).toList, P c := by
  intro c hc
  rw [toList_quoted, List.mem_append, List.mem_append] at hc
  rcases hc with hc | hc | hc
  · rwa [List.mem_singleton.1 hc]
  · exact h c (mem_of_mem_quoteChars hc)
  · rwa [List.mem_singleton.1 hc]

/-- A text between quotes is on one line if it was. -/
theorem unbroken_quoted {s : String} (h : Unbroken s) : Unbroken (quoted s) :=
  unbroken_iff.2 (forall_mem_quoted (P := fun c ↦ endsLine c = false) rfl (unbroken_iff.1 h))

/-- A text of plain bytes is on one line. -/
theorem unbroken_of_all_isPlainByte {s : String} (h : (Utf8.bytes s).all isPlainByte = true) :
    Unbroken s := by
  refine unbroken_iff.2 fun c hc ↦ ?_
  rw [Utf8.bytes_eq_flatMap, List.all_eq_true] at h
  have hplain (b : UInt8) (hb : b ∈ String.utf8EncodeChar c) : isPlainByte b = true :=
    h b (List.mem_flatMap.2 ⟨c, hc, hb⟩)
  unfold endsLine
  rw [Bool.or_eq_false_iff, beq_eq_false_iff_ne, beq_eq_false_iff_ne]
  constructor
  · rintro rfl
    exact absurd (hplain 0x0A (by decide)) (by decide)
  · rintro rfl
    exact absurd (hplain 0x0D (by decide)) (by decide)

/-- The literal for the stored bytes of a text is on one line. -/
theorem unbroken_byteLiteral (s : String) : Unbroken (byteLiteral s).print := by
  unfold byteLiteral
  split
  · rename_i hplain
    exact unbroken_quoted (unbroken_of_all_isPlainByte hplain)
  · rw [map_number_eq, Expr.print, Expr.printAll, Expr.printAll, String.intercalate_singleton]
    exact (Unbroken.append (s := "uint8" ++ "(") rfl (unbroken_row _)).append rfl

/-! ### Statements that write -/

/-- Code that is joined is printed one part after the other. -/
theorem linesOf_append (depth : Nat) (as bs : List Stmt) :
    Stmt.linesOf depth (as ++ bs) = Stmt.linesOf depth as ++ Stmt.linesOf depth bs := by
  induction as with
  | nil => rfl
  | cons s as ih => rw [List.cons_append, Stmt.linesOf, Stmt.linesOf, ih, List.append_assoc]

/-- Whether statements write some bytes, wherever they stand. -/
def Writes (ss : List Stmt) (bs : List UInt8) : Prop :=
  ∀ depth, ∃ parts, List.Forall₂ Line.Writes (Stmt.linesOf depth ss) parts ∧ parts.flatten = bs

/-- Code that is joined writes what both parts write. -/
theorem Writes.append {as bs : List Stmt} {xs ys : List UInt8} (ha : Writes as xs)
    (hb : Writes bs ys) : Writes (as ++ bs) (xs ++ ys) := by
  intro depth
  obtain ⟨parts, hparts, rfl⟩ := ha depth
  obtain ⟨parts', hparts', rfl⟩ := hb depth
  refine ⟨parts ++ parts', ?_, List.flatten_append⟩
  rw [linesOf_append]
  exact List.rel_append hparts hparts'

/-- Code that is made piece by piece writes piece by piece. -/
theorem Writes.flatMap {α : Type} {code : α → List Stmt} {form : α → List UInt8} {as : List α}
    (h : ∀ a ∈ as, Writes (code a) (form a)) : Writes (as.flatMap code) (as.flatMap form) := by
  induction as with
  | nil => exact fun _ ↦ ⟨[], .nil, rfl⟩
  | cons a as ih =>
    exact (h a List.mem_cons_self).append (ih fun b hb ↦ h b (List.mem_cons_of_mem a hb))

/-- A statement of one line. -/
theorem writes_of_lines {s : Stmt} (text : String) {bs : List UInt8}
    (hlines : ∀ depth, s.lines depth = [⟨depth, text⟩]) (h : LineWrites text bs) :
    Writes [s] bs := by
  intro depth
  refine ⟨[bs], ?_, List.append_nil bs⟩
  rw [Stmt.linesOf, Stmt.linesOf, List.append_nil, hlines]
  exact .cons h .nil

/-- A line that is not a statement of `fwrite` writes nothing. -/
theorem lineWrites_nil {text : String} (hunbroken : Unbroken text)
    (hhead : text.toList.head? ≠ some ' ' ∧ text.toList.head? ≠ some 'w')
    (hsilent : "fwrite(".toList.isPrefixOf text.toList = false) : LineWrites text [] := by
  refine ⟨hunbroken, hhead, ?_⟩
  unfold written?
  rw [hsilent]
  rfl

theorem writes_blank : Writes [.blank] [] :=
  writes_of_lines "" (fun _ ↦ rfl) (lineWrites_nil rfl (by decide) rfl)

/-- A comment on one line writes nothing, whatever it says. -/
theorem writes_comment {text : String} (h : Unbroken text) : Writes [.comment text] [] := by
  have hchars : ("%" ++ text).toList = '%' :: text.toList := String.toList_append
  refine writes_of_lines ("%" ++ text) (fun _ ↦ by rw [Stmt.lines])
    (lineWrites_nil (.append (s := "%") rfl h) ?_ ?_)
  · rw [hchars]
    exact ⟨(by decide : some '%' ≠ some ' '), (by decide : some '%' ≠ some 'w')⟩
  · rw [hchars]
    rfl

/-- Opening the file writes nothing. -/
theorem writes_openFile : Writes (openFile "w") [] := by
  intro depth
  refine ⟨[[], [], [], [], []], ?_, rfl⟩
  show List.Forall₂ _ [_, _, _, _, _] _
  refine .cons ?_ <| .cons ?_ <| .cons ?_ <| .cons ?_ <| .cons ?_ .nil
  · show LineWrites "fid = fopen(filename, 'w', 'n');" []
    exact lineWrites_nil rfl (by simp) rfl
  · show LineWrites "if fid < 0" []
    exact lineWrites_nil rfl (by simp) rfl
  · show LineWrites "error('persistable:open', 'Cannot open %s', filename);" []
    exact lineWrites_nil rfl (by simp) rfl
  · show LineWrites "end" []
    exact lineWrites_nil rfl (by simp) rfl
  · show LineWrites "cleanup = onCleanup(@() fclose(fid));" []
    exact lineWrites_nil rfl (by simp) rfl

/-- The text of a statement that writes a value. -/
theorem print_fwrite (v : Expr) (precision : String) :
    (Expr.call "fwrite" [file, v, .text precision]).print ++ ";" =
      "fwrite(fid, " ++ (v.print ++ (", " ++ (quoted precision ++ ");"))) := by
  rw [← String.toList_inj]
  simp [Expr.print, Expr.printAll, file]

/-- A statement that writes a value in some form is one line. -/
theorem writes_fwrite {v : Expr} {form : String} {bs : List UInt8} (hv : Unbroken v.print)
    (hform : Unbroken (", " ++ (quoted form ++ ");")))
    (hwritten : written? ("fwrite(fid, ".toList ++
      (v.print.toList ++ (", " ++ (quoted form ++ ");")).toList)) = some bs) :
    Writes [fwrite v form] bs := by
  have hchars : ("fwrite(fid, " ++ (v.print ++ (", " ++ (quoted form ++ ");")))).toList =
      "fwrite(fid, ".toList ++ (v.print.toList ++ (", " ++ (quoted form ++ ");")).toList) := by
    rw [String.toList_append, String.toList_append]
  refine writes_of_lines ("fwrite(fid, " ++ (v.print ++ (", " ++ (quoted form ++ ");"))))
    (fun depth ↦ ?_) ⟨.append rfl (hv.append hform), ?_, hchars ▸ hwritten⟩
  · rw [fwrite, Stmt.lines, print_fwrite]
  · rw [hchars]
    exact ⟨(by decide : some 'f' ≠ some ' '), (by decide : some 'f' ≠ some 'w')⟩

/-- A line that writes words is known by its arguments, of which the value is on one line. -/
theorem writes_words {v : Expr} {bs : List UInt8} (hv : Unbroken v.print)
    (hbs : words? v.print.toList = some bs) : Writes [fwrite v "int32"] bs := by
  refine writes_fwrite hv rfl ?_
  show written? ("fwrite(fid, ".toList ++ (v.print.toList ++ ", 'int32');".toList)) = _
  unfold written?
  rw [between?_append]
  exact hbs

/-- A value that is written in bytes is not written in words. -/
theorem between?_other (v : List Char) :
    between? "fwrite(fid, ".toList ", 'int32');".toList
      ("fwrite(fid, ".toList ++ (v ++ ", 'uint8');".toList)) = none := by
  unfold between?
  rw [List.dropPrefix?_append_of_beq _ (beq_self_eq_true _)]
  show List.dropSuffix? _ _ = none
  rw [Option.eq_none_iff_forall_ne_some]
  intro rest h
  obtain ⟨back, heq, hback⟩ := List.dropSuffix?_eq_some_iff.1 h
  obtain rfl := eq_of_beq hback
  have hlength : ", 'uint8');".toList.length = ", 'int32');".toList.length := by simp
  exact absurd (List.append_inj' heq hlength).2 (by simp)

/-- So is one that writes bytes. -/
theorem writes_bytes {v : Expr} {bs : List UInt8} (hv : Unbroken v.print)
    (hbs : bytes? v.print.toList = some bs) : Writes [fwrite v "uint8"] bs := by
  refine writes_fwrite hv rfl ?_
  show written? ("fwrite(fid, ".toList ++ (v.print.toList ++ ", 'uint8');".toList)) = _
  unfold written?
  rw [between?_other, between?_append]
  exact hbs

/-! ### The front of an image -/

/-- A word is written as it is stored. -/
theorem writes_writeWord (v : Int32) : Writes [writeWord v.toInt] (Word.ofInt32 v) := by
  refine writes_words (unbroken_integerText v.toInt) ?_
  show words? (Json.integerText v.toInt).toList = _
  unfold words?
  rw [rowItems_integerText, List.mapM_cons, List.mapM_nil, word?_integerText]
  simp

theorem writes_writeLength {n : Nat} (h : n ≤ maxLength) : Writes [writeWord n] (lengthWord n) := by
  have hlt : n < 2 ^ 31 := Nat.lt_succ_of_le h
  rw [← Int32.toInt_ofNat_of_lt hlt]
  exact writes_writeWord (Int32.ofNat n)

/-- **A name** is written as its length and its bytes, quoted or byte by byte. -/
theorem writes_writeName {s : String} (h : Utf8.size s ≤ maxLength) :
    Writes (writeName s) (textForm s) := by
  have hlength := writes_writeLength h
  unfold writeName textForm
  split
  · rename_i hs
    subst hs
    exact hlength
  · exact hlength.append (writes_bytes (unbroken_byteLiteral s) (bytes?_byteLiteral s))

/-- A field of the dictionary is written as it is stored. -/
theorem writes_writeFieldEntry {f : FieldEntry} (h : Utf8.size f.name ≤ maxLength) :
    Writes (writeFieldEntry f) (fieldForm f) := by
  have hrow : (Expr.row [.number f.tag.toInt, .number f.dims.toInt]) =
      .row ([f.tag.toInt, f.dims.toInt].map .number) := rfl
  refine (writes_writeName h).append (writes_words (unbroken_row [f.tag.toInt, f.dims.toInt]) ?_)
  unfold words?
  rw [hrow, rowItems_row (List.cons_ne_nil _ _)]
  show (List.mapM word? [_, _]).map _ = _
  rw [List.mapM_cons, List.mapM_cons, List.mapM_nil, word?_integerText, word?_integerText]
  simp

/-- The comment with the name of a type is on one line if the name is. -/
theorem unbroken_typeComment {t : TypeEntry} (hname : Unbroken t.name) :
    Unbroken s!" {t.name} ({t.tag.toInt})" := by
  show Unbroken (" " ++ t.name ++ " (" ++ toString t.tag.toInt ++ ")")
  rw [toString_int]
  exact (((Unbroken.append (s := " ") rfl hname).append (t := " (") rfl).append
    (unbroken_integerText _)).append (t := ")") rfl

theorem unbroken_countComment (n : Nat) : Unbroken s!" dictionary: {n} types" := by
  show Unbroken (" dictionary: " ++ toString n ++ " types")
  rw [toString_nat]
  exact (Unbroken.append (s := " dictionary: ") rfl (unbroken_integerText _)).append
    (t := " types") rfl

/-- **A type of the dictionary** is written as it is stored. Its name is in a comment too, where it
has to be on one line. -/
theorem writes_writeTypeEntry {t : TypeEntry} (h : t.Storable) (hname : Unbroken t.name) :
    Writes (writeTypeEntry t) (typeForm t) := by
  have hcomment := writes_comment (unbroken_typeComment hname)
  exact (writes_blank.append (hcomment.append ((writes_writeWord t.tag).append
    (writes_writeName h.name)))).append ((writes_writeLength h.count).append
      (.flatMap fun f hf ↦ writes_writeFieldEntry (h.fields f hf)))

/-- **The statements that write the front of an image** write it. -/
theorem writes_writePreamble {d : Dictionary} (hsize : d.types.size ≤ maxLength)
    (hstorable : d.Storable) (hnames : ∀ t ∈ d.types.toList, Unbroken t.name) (rootTag : Tag) :
    Writes (writePreamble d rootTag) (Image.frontForm d rootTag) := by
  have hcomment := unbroken_countComment d.types.size
  have htypes : Writes (d.types.toList.flatMap writeTypeEntry)
      (d.types.toList.flatMap typeForm) :=
    .flatMap fun t ht ↦ writes_writeTypeEntry (hstorable t ht) (hnames t ht)
  have hall := (((writes_writeWord magic).append (writes_blank.append
    ((writes_comment hcomment).append (writes_writeLength hsize)))).append htypes).append
    (writes_blank.append (writes_writeWord rootTag))
  have hform : Image.frontForm d rootTag = Word.ofInt32 magic ++ ([] ++ ([] ++
      lengthWord d.types.size)) ++ d.types.toList.flatMap typeForm ++
        ([] ++ Word.ofInt32 rootTag) := by
    simp only [Image.frontForm, Dictionary.headerForm, List.nil_append, List.append_assoc]
  rw [hform]
  exact hall

/-! ### The function that saves -/

/-- What the function that saves does before it calls the one that writes records. -/
def saveFront (ident : String) (rootTag : Tag) (d : Dictionary) : List Stmt :=
  .comment s!"SAVE_{ident.map Char.toUpper} Save a {ident} to a persistable binary file." ::
    .blank :: openFile "w" ++ .blank :: writePreamble d rootTag

/-- The function that saves is its front and the call that writes the record. -/
theorem saveSource_eq (ident : String) (rootTag : Tag) (d : Dictionary) :
    saveSource ident rootTag d = ⟨fileName "save" ident,
      [.function none ("save_" ++ ident) ["filename", "s"]
        (saveFront ident rootTag d ++ [writeRecord ident (.name "s")])]⟩ := by
  rw [saveSource, saveFront, List.append_assoc]

/-- The title of a function, which names it in capitals. -/
theorem IdentifierChars.unbroken_title {ident : String} (h : IdentifierChars ident)
    {a b c : String} (ha : Unbroken a) (hb : Unbroken b) (hc : Unbroken c) :
    Unbroken (toString a ++ toString (ident.map Char.toUpper) ++ toString b ++ toString ident ++
      toString c) :=
  (((ha.append h.map_toUpper.unbroken).append hb).append h.unbroken).append hc

/-- In front of the call only the preamble is written. -/
theorem writes_saveFront {ident : String} (hident : IdentifierChars ident) {d : Dictionary}
    {rootTag : Tag} {bs : List UInt8} (h : Writes (writePreamble d rootTag) bs) :
    Writes (saveFront ident rootTag d) bs := by
  have htitle := hident.unbroken_title (a := "SAVE_") (b := " Save a ")
    (c := " to a persistable binary file.") rfl rfl rfl
  exact ((writes_comment htitle).append (writes_blank.append writes_openFile)).append
    (writes_blank.append h)

/-- The first line of the function writes nothing. -/
theorem lineWrites_signature {ident : String} (hident : IdentifierChars ident) :
    LineWrites (signature none ("save_" ++ ident) ["filename", "s"]) [] := by
  have htext : signature none ("save_" ++ ident) ["filename", "s"] =
      "function save_" ++ (ident ++ "(filename, s)") := by
    rw [← String.toList_inj]
    simp [signature]
  have hchars : ("function save_" ++ (ident ++ "(filename, s)")).toList =
      'f' :: 'u' :: ("nction save_".toList ++ (ident ++ "(filename, s)").toList) := by
    rw [String.toList_append]
    rfl
  rw [htext]
  refine lineWrites_nil (.append rfl (hident.unbroken.append rfl)) ?_ ?_
  · rw [hchars]
    exact ⟨(by decide : some 'f' ≠ some ' '), (by decide : some 'f' ≠ some 'w')⟩
  · rw [hchars]
    rfl

/-- The text of the call of the function that writes records. -/
theorem print_writeRecord (ident : String) :
    (Expr.call ("write_" ++ ident) [file, .name "s"]).print ++ ";" =
      "write_" ++ ident ++ "(fid, s);" := by
  rw [← String.toList_inj]
  simp [Expr.print, Expr.printAll, file]

/-- The characters of the function that saves: the lines before the call, and the call. -/
theorem toList_text_saveSource (ident : String) (rootTag : Tag) (d : Dictionary) :
    (saveSource ident rootTag d).text.toList =
      printed (⟨0, signature none ("save_" ++ ident) ["filename", "s"]⟩ ::
        Stmt.linesOf 1 (saveFront ident rootTag d)) ++
          ((Line.print ⟨1, "write_" ++ ident ++ "(fid, s);"⟩).toList ++
            (Line.print ⟨0, "end"⟩).toList) := by
  rw [saveSource_eq, Source.text, toList_print_eq_printed, Stmt.linesOf, Stmt.linesOf, Stmt.lines,
    linesOf_append, writeRecord, Stmt.linesOf, Stmt.linesOf, Stmt.lines, print_writeRecord]
  simp [printed]

/-- **Replaying lines before the call** gives what they write, whatever comes after it. -/
theorem replay_of_lines {ident text : String} (hident : IdentifierChars ident) {ls : List Line}
    {parts : List (List UInt8)} (hlines : List.Forall₂ Line.Writes ls parts)
    {after : List Char} (htext : text.toList = printed ls ++
      ((Line.print ⟨1, "write_" ++ ident ++ "(fid, s);"⟩).toList ++ after)) :
    replay ident text = some parts.flatten := by
  have hcall : Unbroken (Line.text ⟨1, "write_" ++ ident ++ "(fid, s);"⟩) :=
    (Unbroken.append (s := "write_") rfl hident.unbroken).append (t := "(fid, s);") rfl
  have hhead : ("write_" ++ ident ++ "(fid, s);").toList.head? = some 'w' := by
    rw [String.toList_append, String.toList_append]
    rfl
  unfold replay
  rw [htext, replayLines_print hhead hlines, splitOnP_print hcall, replayLines,
    dropWhile_indented, if_pos rfl]
  · simp
  · rw [hhead]
    decide

/-- **Replaying the function that saves** gives what its first statements write. -/
theorem replay_saveSource {ident : String} (hident : IdentifierChars ident) {rootTag : Tag}
    {d : Dictionary} {bs : List UInt8} (h : Writes (writePreamble d rootTag) bs) :
    replay ident (saveSource ident rootTag d).text = some bs := by
  obtain ⟨parts, hparts, rfl⟩ := writes_saveFront hident h 1
  have hsignature : Line.Writes ⟨0, signature none ("save_" ++ ident) ["filename", "s"]⟩ [] :=
    lineWrites_signature hident
  have hreplay := replay_of_lines hident (.cons hsignature hparts)
    (toList_text_saveSource ident rootTag d)
  exact hreplay

/-! ### All files -/

namespace Generator

/-- Whether no finished file has the name of a function that saves. -/
def Filed (g : Generator) : Prop :=
  ∀ f ∈ g.files, f.name.toList.head? ≠ some 's'

variable {g : Generator}

/-- Naming a type files nothing. -/
theorem carries_identFor_filed (t : TypeDef) : Carries Filed (fun _ ↦ True) Filed (identFor t) := by
  constructor
  intro g hg
  cases h : identFor t g with
  | error e g' => trivial
  | ok ident g' =>
    obtain ⟨-, hnamed⟩ := named_of_identFor h
    exact fun f hf ↦ hg f (hnamed.files ▸ hf)

theorem carries_onCurrent_filed (name : String) (f : TypeCode → TypeCode) :
    Carries Filed (fun _ ↦ True) Filed (onCurrent name f) := by
  constructor
  intro g hg
  unfold onCurrent
  split
  · trivial
  · split
    · trivial
    · exact hg

/-- The two files of a type are filed under its names. -/
theorem carries_finishType_filed : Carries Filed (fun _ ↦ True) Filed finishType := by
  constructor
  intro g hg
  unfold finishType
  split
  · trivial
  · intro f hf
    rcases List.mem_append.1 hf with hf | hf
    · exact hg f hf
    · have hname : f.name = fileName "read" _ ∨ f.name = fileName "write" _ :=
        (List.mem_pair.1 hf).imp (congrArg Source.name) (congrArg Source.name)
      rcases hname with hname | hname
      · rw [hname, toList_fileName]
        exact (by decide : some 'r' ≠ some 's')
      · rw [hname, toList_fileName]
        exact (by decide : some 'w' ≠ some 's')

/-- So at any time all files are those of types. -/
theorem carries_listener_filed (event : SchemaEvent) :
    Carries Filed (fun _ ↦ True) Filed (listener event) := by
  match event with
  | .beginType _ t => exact (carries_identFor_filed t).bind fun _ ↦ ⟨fun _ hg ↦ hg⟩
  | .endType _ => exact carries_finishType_filed
  | .primitive name k preserve => exact carries_onCurrent_filed name _
  | .primitiveArray name k dims preserve =>
    unfold listener
    dsimp only
    split
    · exact ⟨fun _ _ ↦ trivial⟩
    · exact carries_onCurrent_filed name _
  | .composite name t =>
    exact (carries_identFor_filed t).bind fun _ ↦ carries_onCurrent_filed name _
  | .compositeArray name t dims =>
    exact (carries_identFor_filed t).bind fun _ ↦ carries_onCurrent_filed name _
  | .unknown owner f => exact ⟨fun _ _ ↦ trivial⟩

/-- **Whatever is walked**, the files that are finished are not those of functions that save. -/
theorem filed_of_run {t : Trace SchemaEvent Unit} {g' : Generator}
    (h : Trace.run listener t g = .ok () g') (hg : g.Filed) : g'.Filed := by
  have hrun := Listener.endsIn_run carries_listener_filed t hg
  rw [h] at hrun
  exact hrun

end Generator

variable {s : Schema} {root : TypeDef}

/-- The file for the function that saves is found by its name. -/
theorem exists_saveSource {sources : List Source} (h : generate s root = .ok sources) :
    ∃ d rootTag, Dictionary.ofSchema s root = .ok d ∧ d.tagFor? root.name = some rootTag ∧
      IdentifierChars root.simpleName ∧ source? sources (fileName "save" root.simpleName) =
        some (saveSource root.simpleName rootTag d) := by
  obtain ⟨g, d, rootTag, ident, g', hrun, -, hd, htag, hident, rfl⟩ := generate_eq_ok_iff.1 h
  obtain ⟨rfl, hnamed⟩ := Generator.named_of_identFor hident
  have hg : g'.Filed := fun f hf ↦ Generator.filed_of_run hrun
    (fun f hf ↦ absurd hf List.not_mem_nil) f (hnamed.files ▸ hf)
  have hothers : (g'.files ++ [loadSource root.simpleName rootTag]).find?
      (fun f ↦ f.name == fileName "save" root.simpleName) = none := by
    rw [List.find?_eq_none]
    intro f hf hname
    have hhead : f.name.toList.head? = some 's' := by
      rw [eq_of_beq hname, toList_fileName]
      rfl
    rcases List.mem_append.1 hf with hf | hf
    · exact hg f hf hhead
    · rw [List.mem_singleton.1 hf] at hhead
      rw [loadSource, toList_fileName] at hhead
      exact absurd hhead (by decide : some 'l' ≠ some 's')
  refine ⟨d, rootTag, hd, htag, identifierChars_of_isIdentifier hnamed.identifier, ?_⟩
  unfold source?
  rw [List.append_cons, List.find?_append, hothers, Option.none_or, List.find?_cons_of_pos]
  exact beq_self_eq_true (fileName "save" root.simpleName)

/-- **The function that saves begins as the encoder does.** In the file that is generated for it,
the statements before the call of the function that writes records write the front of an image: the
magic number, the dictionary section and the tag of the root type. Every image of a record of the
root type begins with it. No name of a type may end a line. -/
theorem source?_save {sources : List Source} (h : generate s root = .ok sources) :
    ∃ d rootTag save, Dictionary.ofSchema s root = .ok d ∧ d.tagFor? root.name = some rootTag ∧
      source? sources (fileName "save" root.simpleName) = some save ∧
      ((∀ t ∈ d.types.toList, Unbroken t.name) → ∀ front, Image.preamble d rootTag = .ok front →
        replay root.simpleName save.text = some front ∧
        ∀ r b, s.get? r.typeName = some root → Image.encode s r = .ok b → front <+: b) := by
  obtain ⟨d, rootTag, hd, htag, hident, hsave⟩ := exists_saveSource h
  refine ⟨d, rootTag, _, hd, htag, hsave, fun hnames front hfront ↦ ?_⟩
  obtain ⟨⟨hsize, hstorable⟩, rfl⟩ := Image.preamble_eq_ok_iff.1 hfront
  refine ⟨replay_saveSource hident (writes_writePreamble hsize hstorable hnames rootTag),
    fun r b ht hb ↦ ?_⟩
  obtain ⟨-, rootTag', body, htag', rfl⟩ := Image.exists_imageForm_of_encode hb ht hd
  obtain rfl : rootTag' = rootTag := Option.some.inj (htag'.symm.trans htag)
  exact List.prefix_append _ _

/-- A type without fields has code if its name gives identifiers. -/
theorem exists_generate {d : Dictionary} {rootTag : Tag}
    (hwalk : s.walk root = ⟨[.beginType none root, .endType none], .ok ()⟩)
    (hname : isIdentifier ("write_" ++ root.simpleName) = true)
    (hd : Dictionary.ofSchema s root = .ok d) (htag : d.tagFor? root.name = some rootTag) :
    ∃ sources, generate s root = .ok sources :=
  ⟨_, generate_of_walk hwalk hname hd htag⟩

/-- A type with a quote in its name. -/
def clockType : TypeDef :=
  ⟨"o'clock.Time", []⟩

def clockSchema : Schema :=
  ⟨none, [clockType], by decide⟩

def clockDictionary : Dictionary :=
  ⟨#[⟨12, "o'clock.Time", []⟩], 12⟩

theorem source?_save_clock : ∃ sources, generate clockSchema clockType = .ok sources ∧
    ∃ save, source? sources (fileName "save" clockType.simpleName) = some save ∧
      replay clockType.simpleName save.text = some (Image.frontForm clockDictionary 12) ∧
      Image.frontForm clockDictionary 12 <+: Image.imageForm clockDictionary 12 [] := by
  have hd : Dictionary.ofSchema clockSchema clockType = .ok clockDictionary := by cbv
  have htag : clockDictionary.tagFor? clockType.name = some 12 := by cbv
  obtain ⟨sources, hsources⟩ := exists_generate (by cbv) (by cbv) hd htag
  obtain ⟨d, rootTag, save, hd', htag', hsave, hreplay⟩ := source?_save hsources
  obtain rfl : clockDictionary = d := Except.ok.inj (hd.symm.trans hd')
  obtain rfl : 12 = rootTag := Option.some.inj (htag.symm.trans htag')
  have hnames : ∀ t ∈ clockDictionary.types.toList, Unbroken t.name := by
    intro t ht
    rw [List.mem_singleton.1 ht]
    rfl
  obtain ⟨hfront, hprefix⟩ := hreplay hnames (Image.frontForm clockDictionary 12) (by cbv)
  exact ⟨sources, hsources, save, hsave, hfront,
    hprefix ⟨clockType.name, []⟩ _ (by cbv) (by cbv)⟩

/-! ### Names in comments -/

/-- A type with a statement in its name, on a line of its own. -/
def splitType : TypeDef :=
  ⟨"a\nfwrite(fid, 7, 'int32');\n%.P", []⟩

def splitSchema : Schema :=
  ⟨none, [splitType], by decide⟩

def splitDictionary : Dictionary :=
  ⟨#[⟨12, "a\nfwrite(fid, 7, 'int32');\n%.P", []⟩], 12⟩

/-- The comment with the name, and its lines. -/
def splitComment : String :=
  s!" {splitType.name} ({(12 : Int32).toInt})"

def splitLines : List Line :=
  [⟨1, "% a"⟩, ⟨0, "fwrite(fid, 7, 'int32');"⟩, ⟨0, "%.P (12)"⟩]

theorem printed_splitComment : printed [⟨1, "%" ++ splitComment⟩] = printed splitLines := by
  cbv

/-- The second of the three lines writes a word. -/
theorem writes_splitLines : List.Forall₂ Line.Writes splitLines [[], [7, 0, 0, 0], []] := by
  have hword : written? "fwrite(fid, 7, 'int32');".toList = some [7, 0, 0, 0] := by
    have hchars : "fwrite(fid, 7, 'int32');".toList =
        "fwrite(fid, ".toList ++ (['7'] ++ ", 'int32');".toList) := rfl
    unfold written?
    rw [hchars, between?_append]
    decide
  refine .cons ?_ (.cons ?_ (.cons ?_ .nil))
  · exact lineWrites_nil rfl (by simp) rfl
  · exact ⟨rfl, by simp, hword⟩
  · exact lineWrites_nil rfl (by simp) rfl

/-- The statements before and after the comment. -/
def splitBefore : List Stmt :=
  let ident := "P"
  let capitals := ident.map Char.toUpper
  .comment s!"SAVE_{capitals} Save a {ident} to a persistable binary file." :: .blank ::
    openFile "w" ++ .blank :: [writeWord magic.toInt, .blank,
      .comment s!" dictionary: {splitDictionary.types.size} types",
      writeWord splitDictionary.types.size, .blank]

def splitAfter : List Stmt :=
  writeWord (12 : Int32).toInt :: writeName splitType.name ++
    [writeWord (0 : Nat), .blank, writeWord (12 : Int32).toInt]

theorem saveFront_split : saveFront "P" 12 splitDictionary =
    splitBefore ++ .comment splitComment :: splitAfter := by
  rfl

theorem writes_splitBefore : Writes splitBefore (Word.ofInt32 magic ++ lengthWord 1) :=
  ((writes_comment (by cbv)).append (writes_blank.append writes_openFile)).append
    (writes_blank.append ((writes_writeWord magic).append (writes_blank.append
      ((writes_comment (by cbv)).append ((writes_writeLength (by decide)).append writes_blank)))))

theorem writes_splitAfter : Writes splitAfter
    (Word.ofInt32 12 ++ textForm splitType.name ++ (lengthWord 0 ++ Word.ofInt32 12)) :=
  ((writes_writeWord 12).append (writes_writeName (by decide))).append
    ((writes_writeLength (by decide)).append (writes_blank.append (writes_writeWord 12)))

/-- The statement in the name writes a word as well. -/
theorem replay_saveSource_split : replay "P" (saveSource "P" 12 splitDictionary).text =
    some (Word.ofInt32 magic ++ lengthWord 1 ++ ([7, 0, 0, 0] ++
      (Word.ofInt32 12 ++ textForm splitType.name ++ (lengthWord 0 ++ Word.ofInt32 12)))) := by
  have hident : IdentifierChars "P" := by simp [IdentifierChars]
  obtain ⟨parts, hparts, hbefore⟩ := writes_splitBefore 1
  obtain ⟨parts', hparts', hafter⟩ := writes_splitAfter 1
  have hsignature : Line.Writes ⟨0, signature none ("save_" ++ "P") ["filename", "s"]⟩ [] :=
    lineWrites_signature hident
  have hlines := List.Forall₂.cons hsignature
    (List.rel_append hparts (List.rel_append writes_splitLines hparts'))
  have htext := toList_text_saveSource "P" 12 splitDictionary
  rw [saveFront_split, linesOf_append, Stmt.linesOf, Stmt.lines, ← List.cons_append,
    printed_append, printed_append, printed_splitComment, ← printed_append,
    ← printed_append] at htext
  rw [replay_of_lines hident hlines htext, ← hbefore, ← hafter]
  simp

/-- **A name that ends a line** adds a statement to the function that saves. -/
theorem replay_split : ∃ sources save front, generate splitSchema splitType = .ok sources ∧
    source? sources (fileName "save" splitType.simpleName) = some save ∧
    Dictionary.ofSchema splitSchema splitType = .ok splitDictionary ∧
    Image.preamble splitDictionary 12 = .ok front ∧
    replay splitType.simpleName save.text ≠ some front := by
  have hd : Dictionary.ofSchema splitSchema splitType = .ok splitDictionary := by cbv
  have htag : splitDictionary.tagFor? splitType.name = some 12 := by cbv
  have hname : splitType.simpleName = "P" := by cbv
  obtain ⟨sources, hsources⟩ := exists_generate (by cbv) (by cbv) hd htag
  obtain ⟨d, rootTag, hd', htag', -, hsave⟩ := exists_saveSource hsources
  obtain rfl : splitDictionary = d := Except.ok.inj (hd.symm.trans hd')
  obtain rfl : 12 = rootTag := Option.some.inj (htag.symm.trans htag')
  refine ⟨sources, _, Image.frontForm splitDictionary 12, hsources, hsave, hd, by cbv, ?_⟩
  rw [hname, replay_saveSource_split]
  intro h
  have hlength := congrArg List.length (Option.some.inj h)
  simp [Image.frontForm, Dictionary.headerForm, splitDictionary, typeForm, splitType] at hlength
  omega

end Matlab

end GraphCodec
