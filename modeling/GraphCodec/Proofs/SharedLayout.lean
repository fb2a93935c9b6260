import GraphCodec.Proofs.FileSet
import GraphCodec.Proofs.Layout

/-!
# Generated code and images share one layout

What the statements for a field do with an open file is the layout of the field in an image, on both
sides and whatever the dimensions are (`outlines_fieldCode`). So the code of a type has the layout
of its fields, one after the other (`layout_typeFile`), and the texts of its files are read as this
code. Everything that a root reaches has its files in the end (`source?_typeFile`).

That this layout is the one of images is known of the writer and of the reader. Both sides are put
together in `fields_share_layout`.
-/

namespace GraphCodec

namespace Matlab

/-! ### Fields -/

/-- The layout of a slot of primitives is the outline of its element, dimension by dimension. -/
theorem layout_primitive (k : Kind) (preserve : Bool) (dims : Nat) (inRecord : Bool) :
    (Slot.ofElement (.primitive k) dims inRecord).layout =
      arrayOutline (Generator.elementOf k preserve).outline dims := by
  induction dims generalizing inRecord with
  | zero => cases k <;> rfl
  | succ dims ih => exact congrArg counted (ih false)

/-- So is that of a slot of records. -/
theorem layout_composite (t : TypeDef) (dims : Nat) (inRecord : Bool) :
    (Slot.ofElement (.composite t) dims inRecord).layout =
      arrayOutline (Element.composite t.simpleName).outline dims := by
  induction dims generalizing inRecord with
  | zero => rfl
  | succ dims ih => exact congrArg counted (ih false)

section

variable (f : FieldDef) (element : ElementType)

/-- What the code of a field does with the file is the layout of the field. -/
theorem outlines_fieldReads :
    Outlines .reading (fieldReads f element) (Slot.ofElement element f.dims true).layout := by
  unfold fieldReads
  cases harray : f.isArray with
  | true =>
    have hdims : 0 < f.dims := by simpa [FieldDef.isArray] using harray
    cases element with
    | primitive k =>
      rw [layout_primitive k f.preserve]
      exact outlines_readArray f.name hdims _
    | composite t =>
      rw [layout_composite]
      exact outlines_readArray f.name hdims _
  | false =>
    have hdims : f.dims = 0 := by simpa [FieldDef.isArray] using harray
    rw [hdims]
    cases element with
    | primitive k =>
      rw [layout_primitive k f.preserve]
      exact outlines_readScalar f.name k f.preserve
    | composite t => exact outlines_readComposite f.name t.simpleName

/-- **A field is written** as the layout of its slot says. -/
theorem outlines_fieldWrites (owner : String) :
    Outlines .writing (fieldWrites owner f element)
      (Slot.ofElement element f.dims true).layout := by
  unfold fieldWrites
  cases harray : f.isArray with
  | true =>
    have hdims : 0 < f.dims := by simpa [FieldDef.isArray] using harray
    cases element with
    | primitive k =>
      rw [layout_primitive k f.preserve]
      exact outlines_writeArray f.name hdims _
    | composite t =>
      rw [layout_composite]
      exact outlines_writeArray f.name hdims _
  | false =>
    have hdims : f.dims = 0 := by simpa [FieldDef.isArray] using harray
    rw [hdims]
    cases element with
    | primitive k =>
      rw [layout_primitive k f.preserve]
      exact outlines_writeScalar f.name k f.preserve
    | composite t => exact outlines_writeComposite owner f.name t.simpleName

/-- **A field is read and written** as the layout of its slot says, whatever its type and
dimensions. -/
theorem outlines_fieldCode (side : Side) (owner : String) :
    Outlines side (fieldCode side owner f element)
      (Slot.ofElement element f.dims true).layout := by
  cases side with
  | reading => exact outlines_fieldReads f element
  | writing => exact outlines_fieldWrites f element owner

end

variable {s : Schema} {t root : TypeDef} {fields : List FieldDef}

/-- **The statements for fields** do with the file what is the layout of the fields, one after the
other. -/
theorem outlines_fieldStatements (hknown : ∀ f ∈ fields, ∃ element, s.element? f = some element)
    (side : Side) (owner : String) :
    Outlines side (fields.flatMap (TypeCode.fieldStatements s side owner))
      (fields.flatMap s.fieldLayout) := by
  induction fields with
  | nil => exact outlines_nil
  | cons f fs ih =>
    obtain ⟨⟨element, helement⟩, hfs⟩ := List.forall_mem_cons.1 hknown
    have hheading : Outlines side [.blank, .comment (" " ++ TypeCode.heading f element)] [] :=
      fun _ ↦ rfl
    have hfield : TypeCode.fieldStatements s side owner f =
        [.blank, .comment (" " ++ TypeCode.heading f element)] ++
          fieldCode side owner f element := by
      rw [TypeCode.fieldStatements, helement]
      rfl
    rw [List.flatMap_cons, List.flatMap_cons, hfield,
      Schema.fieldLayout_of_slot?_eq_some (Schema.slot?_eq_some helement)]
    exact (hheading.append (outlines_fieldCode f element side owner)).append (ih hfs)

/-! ### Files -/

/-- The code of a type without fields does nothing with the file. -/
theorem outlines_start (t : TypeDef) (ident : String) (side : Side) :
    Outlines side ((TypeCode.start t ident).body side) [] := by
  cases side with
  | reading =>
    intro known
    rw [TypeCode.body, TypeCode.start, skeleton, skeleton, skeleton, skeleton,
      skeleton_assign_plain rfl rfl]
    rfl
  | writing => exact fun _ ↦ rfl

/-- **The file of a type** does with an open file what is the layout of the type. -/
theorem layout_typeFile (hknown : ∀ f ∈ t.fields, ∃ element, s.element? f = some element)
    (side : Side) : (skeleton side none (typeFile s side t).code).1 = s.recordLayout t := by
  have hbody : Outlines side ((TypeCode.ofType s t).body side) (s.recordLayout t) := by
    rw [TypeCode.ofType, TypeCode.body_withFields]
    exact (outlines_start t t.simpleName side).append
      (outlines_fieldStatements hknown side t.simpleName)
  have hcode : (skeleton side none (typeFile s side t).code).1 =
      (skeleton side none ((TypeCode.ofType s t).body side)).1 ++ [] := by
    cases side <;> rfl
  rw [hcode, hbody none, List.append_nil]

/-- **Everything that the root reaches** has its files among the generated ones. -/
theorem source?_typeFile (hroot : root ∈ s.types) {sources : List Source}
    (h : generate s root = .ok sources) (hreaches : s.Reaches root t) (side : Side) :
    source? sources (fileName side.verb t.simpleName) = some (typeFile s side t) := by
  obtain ⟨d, order, rootTag, -, hvisits, horder, -, -, hcodable, hsources⟩ :=
    (generate_eq_ok_iff_codable hroot).1 h
  have hmem {t : TypeDef} := hvisits.mem_iff_reaches (t := t)
  replace hsources : sources = fileList s root order d rootTag := hsources
  subst hsources
  exact source?_typeFile_fileList (nodup_map_name_fileList horder fun t ht u hu ↦
    hcodable.distinct t u (hmem.1 ht) (hmem.1 hu)) (hmem.2 hreaches) side

/-- The text of a file that is generated for a type is read as its code, if the name of the type
does not end a line. -/
theorem code?_text_of_reaches (hroot : root ∈ s.types) {sources : List Source}
    (h : generate s root = .ok sources) (hreaches : s.Reaches root t) (side : Side)
    (hname : Unbroken t.name) :
    code? (typeFile s side t).text = some (typeFile s side t).code := by
  obtain ⟨d, order, rootTag, -, -, -, -, -, hcodable, -⟩ :=
    (generate_eq_ok_iff_codable hroot).1 h
  exact code?_text_typeFile (fun _ hf _ ↦ worded_of_codable hcodable hreaches hf)
    (identifierChars_of_isIdentifier (hcodable.identifier t hreaches)) hname side

/-- **A generator that is told of fields** adds their statements, and their types had names. -/
theorem Generator.withFields_of_deliver {g g' : Generator} {c : TypeCode} {cs : List TypeCode}
    (hknown : ∀ f ∈ fields, ∃ element, s.element? f = some element) (hpending : g.pending = c :: cs)
    (h : Trace.deliver Generator.listener (s.fieldEvents fields) g = .ok () g') :
    g'.pending = c.withFields s fields :: cs ∧ g.HasNames (s.fieldTypes fields) := by
  induction fields generalizing g c with
  | nil =>
    cases h
    exact ⟨hpending, hasNames_nil _⟩
  | cons f fs ih =>
    obtain ⟨⟨element, helement⟩, hfs⟩ := List.forall_mem_cons.1 hknown
    rw [Schema.fieldEvents_cons helement] at h
    obtain ⟨g₁, hfield, hothers⟩ := Trace.deliver_cons_eq_ok_iff.1 h
    obtain ⟨-, -, hpending₁, -, hiff⟩ := of_listener_field hpending hfield
    obtain ⟨hpending', hnames⟩ := ih hfs hpending₁ hothers
    rw [TypeCode.withFields_cons helement, Schema.fieldTypes_cons_of_element? helement]
    exact ⟨hpending', (hiff _).2 hnames⟩

/-- **Fields are taken in** if there can be code for them and their types can be named. -/
theorem Generator.exists_deliver {g : Generator} {c : TypeCode} {cs : List TypeCode}
    (hfields : ∀ f ∈ fields, s.HasCode f) (hnames : g.HasNames (s.fieldTypes fields))
    (hpending : g.pending = c :: cs) :
    ∃ g', Trace.deliver Generator.listener (s.fieldEvents fields) g = .ok () g' := by
  induction fields generalizing g c with
  | nil => exact ⟨g, rfl⟩
  | cons f fs ih =>
    obtain ⟨hf, hfs⟩ := List.forall_mem_cons.1 hfields
    obtain ⟨element, helement⟩ := hf.known
    rw [Schema.fieldTypes_cons_of_element? helement] at hnames
    obtain ⟨g₁, hfield⟩ := exists_listener_field hf helement hnames hpending
    obtain ⟨-, -, hpending₁, -, hiff⟩ := of_listener_field hpending hfield
    obtain ⟨g', hothers⟩ := ih hfs ((hiff _).1 hnames) hpending₁
    rw [Schema.fieldEvents_cons helement]
    exact ⟨g', Trace.deliver_cons_eq_ok_iff.2 ⟨g₁, hfield, hothers⟩⟩

variable {g : Generator} {c : TypeCode} {cs : List TypeCode}

/-- **Code and images share one layout.** Told of the fields of a type, a generator takes them in
exactly if there are names for the functions of their types. It adds statements to the functions
that read and write records of the type, and what these do with the file is for both the layout of
the fields in order. It is so in the files that are generated for any root that reaches the type.
The statements are also what their text is read as, unless a name of a type in it ends a line. The
body of every image that is encoded from a record of the type fills this layout, and so does
whatever can be decoded as one; there an item takes as many bytes as its kind does. -/
theorem fields_share_layout (ht : s.get? t.name = some t) (hfields : ∀ f ∈ t.fields, s.HasCode f)
    (hpending : g.pending = c :: cs) :
    ((∃ g', Trace.deliver Generator.listener (s.fieldEvents t.fields) g = .ok () g') ↔
      g.HasNames (s.fieldTypes t.fields)) ∧
    (∀ g', Trace.deliver Generator.listener (s.fieldEvents t.fields) g = .ok () g' →
      ∃ reads writes,
        g'.pending = { c with reads := c.reads ++ reads, writes := c.writes ++ writes } :: cs ∧
          (skeleton .reading none reads).1 = s.recordLayout t ∧
          (skeleton .writing none writes).1 = s.recordLayout t ∧
          code? (print reads) = some reads ∧
          (Unbroken c.ident → code? (print writes) = some writes)) ∧
    (∀ root ∈ s.types, ∀ sources, generate s root = .ok sources → s.Reaches root t →
      ∀ side : Side, ∃ file, source? sources (fileName side.verb t.simpleName) = some file ∧
        (skeleton side none file.code).1 = s.recordLayout t ∧
        (Unbroken t.name → code? file.text = some file.code)) ∧
    (∀ k : Kind, k.isTextual = false → formWidth? (precision k) = k.width?) ∧
    ∀ d rootTag front, Dictionary.ofSchema s t = .ok d → d.tagFor? t.name = some rootTag →
      Image.preamble d rootTag = .ok front →
        (∀ r b, r.typeName = t.name → Image.encode s r = .ok b →
          ∃ body, b = front ++ body ∧ Image.Fills s (s.recordLayout t) body) ∧
        ∀ body content, Image.decode (front ++ body) = .ok content →
          Image.Fills s (s.recordLayout t) body := by
  have hknown : ∀ f ∈ t.fields, ∃ element, s.element? f = some element :=
    fun f hf ↦ (hfields f hf).known
  refine ⟨⟨?_, fun hnames ↦ Generator.exists_deliver hfields hnames hpending⟩, fun g' hg' ↦ ?_,
    fun root hroot sources hsources hreaches side ↦
      ⟨_, source?_typeFile hroot hsources hreaches side, layout_typeFile hknown side,
        code?_text_of_reaches hroot hsources hreaches side⟩, fun k hk ↦ formWidth?_precision hk,
    fun d rootTag front hd htag hfront ↦ ⟨fun r b hr hb ↦ ?_, fun body content hcontent ↦ ?_⟩⟩
  · rintro ⟨g', hg'⟩
    exact (Generator.withFields_of_deliver hknown hpending hg').2
  · obtain ⟨hpending', hnames⟩ := Generator.withFields_of_deliver hknown hpending hg'
    -- what is read back is the code of the fields alone, without the first lines of its function
    have hread {side : Side} (howner : side = .writing → Unbroken c.ident) :
        ReadableCode (t.fields.flatMap (TypeCode.fieldStatements s side c.ident)) :=
      readableCode_flatMap fun f hf ↦ TypeCode.readableCode_fieldStatements
        (fun _ ↦ worded_of_names (fun f hf ↦ (hfields f hf).name) hnames.identifier hf) side howner
    rw [TypeCode.withFields_eq] at hpending'
    have hreads : Side.reading = .writing → Unbroken c.ident := by
      intro h
      cases h
    exact ⟨_, _, hpending', outlines_fieldStatements hknown .reading c.ident none,
      outlines_fieldStatements hknown .writing c.ident none, (hread hreads).readsAs.code?_print,
      fun howner ↦ (hread fun _ ↦ howner).readsAs.code?_print⟩
  · exact Image.exists_body_of_encode (hr ▸ ht) hd htag hfront hb
  · exact Image.fills_of_decode (Schema.mem_of_get?_eq_some ht) hd htag hfront hcontent

/-- A type with fields of several sorts, and the type of one of them. -/
def markType : TypeDef :=
  ⟨"Mark", [⟨"x", "short", 0, false⟩]⟩

def surveyType : TypeDef :=
  ⟨"Survey", [⟨"grid", "int", 2, true⟩, ⟨"tags", "string", 1, false⟩, ⟨"at", "Mark", 0, false⟩,
    ⟨"letters", "char", 1, false⟩]⟩

def surveySchema : Schema :=
  ⟨none, [markType, surveyType], by decide⟩

def surveyDictionary : Dictionary :=
  ⟨#[⟨12, "Mark", [⟨"x", 3, 0⟩]⟩,
    ⟨13, "Survey", [⟨"grid", 4, 2⟩, ⟨"tags", 8, 1⟩, ⟨"at", 12, 0⟩, ⟨"letters", 9, 1⟩]⟩], 13⟩

/-- A survey with a grid of two rows, one of them empty. -/
def survey : Record :=
  ⟨"Survey", [("grid", .array [.array [.int 1, .int 2], .array []]),
    ("tags", .array [.string "a"]), ("at", .record "Mark" [("x", .short 3)]),
    ("letters", .array [.char 65])]⟩

/-- Its body. -/
def surveyBody : List UInt8 :=
  [2, 0, 0, 0, 2, 0, 0, 0, 1, 0, 0, 0, 2, 0, 0, 0, 0, 0, 0, 0, 1, 0, 0, 0, 1, 0, 0, 0, 97, 3, 0,
    1, 0, 0, 0, 65]

/-- Its layout. -/
def surveyLayout : List Io :=
  [.one "int32", .loop [.one "int32", .many "int32"], .one "int32",
    .loop [.one "int32", .many "uint8"], .record "Mark", .one "int32", .many "uint8"]

theorem hasCode_survey : ∀ f ∈ surveyType.fields, surveySchema.HasCode f := by
  have hfield {f : FieldDef} {element : ElementType} (hname : isIdentifier f.name = true)
      (h : surveySchema.element? f = some element)
      (hchars : element = .primitive .char → f.dims ≤ 1) : surveySchema.HasCode f :=
    ⟨hname, ⟨element, h⟩, fun h' ↦ hchars (Option.some.inj (h.symm.trans h'))⟩
  have hgrid : surveySchema.element? ⟨"grid", "int", 2, true⟩ = some (.primitive .int) := by cbv
  have htags : surveySchema.element? ⟨"tags", "string", 1, false⟩ = some (.primitive .string) := by
    cbv
  have hat : surveySchema.element? ⟨"at", "Mark", 0, false⟩ = some (.composite markType) := by cbv
  have hletters : surveySchema.element? ⟨"letters", "char", 1, false⟩ =
      some (.primitive .char) := by
    cbv
  simp only [surveyType, List.forall_mem_cons]
  exact ⟨hfield (by cbv) hgrid (by decide), hfield (by cbv) htags (by decide),
    hfield (by cbv) hat (by decide), hfield (by cbv) hletters (by decide),
    fun _ h ↦ absurd h List.not_mem_nil⟩

/-- The generator that has begun with the type. -/
def surveyGenerator : Generator :=
  ⟨[TypeCode.start surveyType "Survey"], [], [("Survey", "Survey"), ("Mark", "Mark")]⟩

theorem hasNames_survey :
    surveyGenerator.HasNames (surveySchema.fieldTypes surveyType.fields) := by
  have htypes : surveySchema.fieldTypes surveyType.fields = [markType] := by cbv
  have hlookup : surveyGenerator.idents.lookup markType.simpleName = some markType.name := by cbv
  rw [htypes]
  refine ⟨fun t ht ↦ ?_, fun t ht owner howner ↦ ?_, fun t ht u hu _ ↦ ?_⟩
  · rw [List.mem_singleton.1 ht]
    cbv
  · rw [List.mem_singleton.1 ht] at howner ⊢
    exact (Option.some.inj (hlookup.symm.trans howner)).symm
  · rw [List.mem_singleton.1 ht, List.mem_singleton.1 hu]

theorem get?_survey : surveySchema.get? surveyType.name = some surveyType := by
  cbv

theorem ofSchema_survey : Dictionary.ofSchema surveySchema surveyType = .ok surveyDictionary := by
  cbv

theorem preamble_survey : Image.preamble surveyDictionary 13 =
    .ok (Image.frontForm surveyDictionary 13) := by
  cbv

theorem decode_survey : Image.decode (Image.frontForm surveyDictionary 13 ++ surveyBody) =
    .ok ⟨surveyDictionary, survey⟩ := by
  cbv

/-- The walk interrupts the fields of a survey for those of a mark. -/
theorem walk_survey : surveySchema.walk surveyType =
    ⟨[.beginType none surveyType, .primitiveArray "grid" .int 2 true,
      .primitiveArray "tags" .string 1 false, .beginType (some "at") markType,
      .primitive "x" .short false, .endType (some "at"), .composite "at" markType,
      .primitiveArray "letters" .char 1 false, .endType none], .ok ()⟩ := by
  cbv

theorem exists_generate_survey : ∃ sources, generate surveySchema surveyType = .ok sources := by
  have htag : surveyDictionary.tagFor? surveyType.name = some 13 := by cbv
  obtain ⟨g, g', hrun, hpending, hident⟩ : ∃ g g',
      Trace.run Generator.listener (surveySchema.walk surveyType) Generator.start = .ok () g ∧
        g.pending = [] ∧ Generator.identFor surveyType g = .ok "Survey" g' := by
    rw [walk_survey]
    exact ⟨_, _, rfl, rfl, rfl⟩
  exact ⟨_, generate_eq_ok_iff.2 ⟨g, _, _, _, g', hrun, hpending, ofSchema_survey, htag, hident,
    rfl⟩⟩

theorem fields_share_layout_survey :
    (∃ g' reads writes,
      Trace.deliver Generator.listener (surveySchema.fieldEvents surveyType.fields)
        surveyGenerator = .ok () g' ∧
        g'.pending = [{ TypeCode.start surveyType "Survey" with
          reads := (TypeCode.start surveyType "Survey").reads ++ reads
          writes := (TypeCode.start surveyType "Survey").writes ++ writes }] ∧
        (skeleton .reading none reads).1 = surveyLayout ∧
        (skeleton .writing none writes).1 = surveyLayout ∧
        code? (print reads) = some reads ∧ code? (print writes) = some writes) ∧
    (∃ sources, generate surveySchema surveyType = .ok sources ∧
      ∀ side : Side, ∃ file, source? sources (fileName side.verb "Survey") = some file ∧
        (skeleton side none file.code).1 = surveyLayout ∧ code? file.text = some file.code) ∧
    Image.Fills surveySchema surveyLayout surveyBody := by
  have hlayout : surveySchema.recordLayout surveyType = surveyLayout := by rfl
  have hident : surveyType.simpleName = "Survey" := by cbv
  have htag : surveyDictionary.tagFor? surveyType.name = some 13 := by cbv
  have hpending : surveyGenerator.pending = [TypeCode.start surveyType "Survey"] := rfl
  obtain ⟨htaken, hcode, hfiles, -, himages⟩ :=
    fields_share_layout get?_survey hasCode_survey hpending
  rw [hlayout] at hcode hfiles himages
  rw [hident] at hfiles
  refine ⟨?_, ?_, ?_⟩
  · obtain ⟨g', hg'⟩ := htaken.2 hasNames_survey
    obtain ⟨reads, writes, hpending', hreads, hwrites, hread, hread'⟩ := hcode g' hg'
    exact ⟨g', reads, writes, hg', hpending', hreads, hwrites, hread, hread' rfl⟩
  · obtain ⟨sources, hsources⟩ := exists_generate_survey
    refine ⟨sources, hsources, fun side ↦ ?_⟩
    obtain ⟨file, hfile, hskeleton, hread⟩ :=
      hfiles surveyType (by decide) sources hsources .refl side
    exact ⟨file, hfile, hskeleton, hread rfl⟩
  · obtain ⟨-, hdecoded⟩ := himages surveyDictionary 13 _ ofSchema_survey htag preamble_survey
    exact hdecoded surveyBody _ decode_survey

end Matlab

end GraphCodec
