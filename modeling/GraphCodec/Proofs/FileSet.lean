import GraphCodec.Proofs.ReadableFiles

/-!
# The generated files

The files for a root are two for each type that it reaches and two for the root itself, with names
that do not collide and that are safe to write (`FileSet`). All of them together are closed: every
call of a function for records has exactly one target, the function of the declared type (`Linked`).

This is said of files as they are read. Of the statements that the generator puts into them it holds
without any condition. Of their texts it holds if the name of every type is on one line: a name with
the end of a line in it ends the comment that it stands in, and what follows is code, which may call
what no file holds (`exists_stray_call`).
-/

namespace GraphCodec

namespace Matlab

/-! ### Names of files -/

/-- The verbs in the names of generated functions. -/
def verbs : List String :=
  ["read", "write", "load", "save"]

/-- Names of files say what they are for. -/
theorem fileName_inj {verb verb' ident ident' : String} (hverb : verb ∈ verbs)
    (hverb' : verb' ∈ verbs) (h : fileName verb ident = fileName verb' ident') :
    verb = verb' ∧ ident = ident' := by
  have hlist := congrArg String.toList h
  rw [toList_fileName, toList_fileName] at hlist
  -- the verbs begin differently
  obtain rfl : verb = verb' := by
    have hhead := congrArg List.head? hlist
    simp only [verbs, List.mem_cons, List.not_mem_nil, or_false] at hverb hverb'
    rcases hverb with rfl | rfl | rfl | rfl <;> rcases hverb' with rfl | rfl | rfl | rfl <;>
      first | rfl | simp at hhead
  have hrest := List.append_cancel_left hlist
  exact ⟨rfl, String.toList_inj.1 (by simpa [String.toList_append] using hrest)⟩

/-- A name that no two files share finds its file. -/
theorem source?_name {sources : List Source} (h : (sources.map Source.name).Nodup)
    {file : Source} (hfile : file ∈ sources) : source? sources file.name = some file :=
  Dictionary.find?_key h hfile

/-- Whether there is code, and a function in it. -/
def HoldsFunction (code : Option (List Stmt)) (function : String) : Prop :=
  ∃ functions, code.map functionNames = some functions ∧ function ∈ functions

/-- What holds of the files that are generated for a root with a dictionary. -/
structure FileSet (root : TypeDef) (d : Dictionary) (sources : List Source) : Prop where
  /-- Two files for each type of the dictionary, in its order, and then those of the root. -/
  names : sources.map Source.name =
    (d.types.toList.flatMap fun e ↦ [fileName "read" (TypeDef.unqualified e.name),
      fileName "write" (TypeDef.unqualified e.name)]) ++
      [fileName "load" root.simpleName, fileName "save" root.simpleName]
  nodup : (sources.map Source.name).Nodup
  /-- No name leads out of a directory. -/
  safe : ∀ file ∈ sources, ∃ base : String, file.name = base ++ ".m" ∧
    ∀ c ∈ base.toList, IsWordPart c

/-- Whether files call none but each other, by what is read of each. -/
structure Linked (read : Source → Option (List Stmt)) (s : Schema) (root : TypeDef)
    (sources : List Source) : Prop where
  /-- A file is the function with its name. -/
  functions : ∀ file ∈ sources, ∃ function, (read file).map functionNames = some [function] ∧
    file.name = function ++ ".m"
  /-- A type calls the functions of the declared types of its fields. -/
  typeCalls : ∀ t, s.Reaches root t → ∀ side : Side, ∃ file ∈ sources,
    file.name = fileName side.verb t.simpleName ∧
      (read file).map recordCalls = some ((s.fieldTypes t.fields).map side.function)
  rootCalls : ∃ load ∈ sources, ∃ save ∈ sources,
    load.name = fileName "load" root.simpleName ∧
      (read load).map recordCalls = some [Side.reading.function root] ∧
    save.name = fileName "save" root.simpleName ∧
      (read save).map recordCalls = some [Side.writing.function root]
  /-- The function of a type is in the file of that type only. -/
  targets : ∀ t, s.Reaches root t → ∀ side : Side, ∀ file ∈ sources,
    HoldsFunction (read file) (side.function t) ↔ file.name = fileName side.verb t.simpleName
  closed : ∀ file ∈ sources, ∃ calls, (read file).map recordCalls = some calls ∧
    ∀ f ∈ calls, ∃! callee, callee ∈ sources ∧ HoldsFunction (read callee) f

section

variable {s : Schema} {root : TypeDef} {order : List TypeDef}

/-- The verbs and identifiers in the names of all files. -/
def fileKeys (order : List TypeDef) (root : TypeDef) : List (String × String) :=
  (order.flatMap fun t ↦ [("read", t.simpleName), ("write", t.simpleName)]) ++
    [("load", root.simpleName), ("save", root.simpleName)]

/-- No two files are for the same, as identifiers are not shared. -/
theorem nodup_fileKeys (horder : order.Nodup)
    (hdistinct : ∀ t ∈ order, ∀ u ∈ order, t.simpleName = u.simpleName → t = u)
    (root : TypeDef) : (fileKeys order root).Nodup := by
  have htypes : (order.flatMap fun t ↦
      [("read", t.simpleName), ("write", t.simpleName)]).Nodup := by
    rw [List.nodup_flatMap]
    refine ⟨fun t _ ↦ by simp, ?_⟩
    refine horder.imp_of_mem fun {t u} ht hu hne ↦ ?_
    have hident : t.simpleName ≠ u.simpleName := fun h ↦ hne (hdistinct t ht u hu h)
    simp [Function.onFun, List.Disjoint, hident]
  rw [fileKeys, List.nodup_append]
  refine ⟨htypes, by simp, fun key hkey key' hkey' heq ↦ ?_⟩
  subst heq
  simp only [List.mem_flatMap, List.mem_cons, List.not_mem_nil, or_false] at hkey hkey'
  obtain ⟨t, -, rfl | rfl⟩ := hkey <;> simp at hkey'

/-- The files for types in order and for a root. -/
def fileList (s : Schema) (root : TypeDef) (order : List TypeDef) (d : Dictionary)
    (rootTag : Tag) : List Source :=
  (order.flatMap fun t ↦ (TypeCode.ofType s t).sources) ++
    [loadSource root.simpleName rootTag, saveSource root.simpleName rootTag d]

variable {d : Dictionary} {rootTag : Tag}

theorem map_name_fileList : (fileList s root order d rootTag).map Source.name =
    (fileKeys order root).map fun key ↦ fileName key.1 key.2 := by
  rw [fileList, fileKeys, List.map_append, List.map_append, List.map_flatMap, List.map_flatMap]
  simp only [sources_ofType]
  rfl

/-- A file is that of a type, or one of the two for the root. -/
theorem mem_fileList {file : Source} : file ∈ fileList s root order d rootTag ↔
    (∃ t ∈ order, ∃ side, file = typeFile s side t) ∨ file = loadSource root.simpleName rootTag ∨
      file = saveSource root.simpleName rootTag d := by
  have hsides (t : TypeDef) : (∃ side, file = typeFile s side t) ↔
      file = typeFile s .reading t ∨ file = typeFile s .writing t := by
    constructor
    · rintro ⟨_ | _, h⟩
      · exact .inl h
      · exact .inr h
    · rintro (h | h)
      · exact ⟨_, h⟩
      · exact ⟨_, h⟩
  simp [fileList, sources_ofType, hsides]

/-- So no two files have one name. -/
theorem nodup_map_name_fileList (horder : order.Nodup)
    (hdistinct : ∀ t ∈ order, ∀ u ∈ order, t.simpleName = u.simpleName → t = u) :
    ((fileList s root order d rootTag).map Source.name).Nodup := by
  rw [map_name_fileList]
  refine (nodup_fileKeys horder hdistinct root).map_on fun key hkey key' hkey' heq ↦ ?_
  have hverb : ∀ key ∈ fileKeys order root, key.1 ∈ verbs := by
    intro key hkey
    simp only [fileKeys, List.mem_append, List.mem_flatMap, List.mem_cons, List.not_mem_nil,
      or_false] at hkey
    rcases hkey with ⟨t, -, rfl | rfl⟩ | rfl | rfl <;> simp [verbs]
  obtain ⟨hfst, hsnd⟩ := fileName_inj (hverb key hkey) (hverb key' hkey') heq
  exact Prod.ext hfst hsnd

/-- Each file holds a function with its name. -/
theorem exists_functions_of_mem_fileList (hroot : root ∈ order) {file : Source}
    (h : file ∈ fileList s root order d rootTag) : ∃ verb ∈ verbs, ∃ t ∈ order,
      file.functions = [verb ++ "_" ++ t.simpleName] ∧ file.name = fileName verb t.simpleName := by
  rcases mem_fileList.1 h with ⟨t, ht, side, rfl⟩ | rfl | rfl
  · cases side with
    | reading => exact ⟨"read", by decide, t, ht, rfl, rfl⟩
    | writing => exact ⟨"write", by decide, t, ht, rfl, rfl⟩
  · exact ⟨"load", by decide, root, hroot, rfl, rfl⟩
  · exact ⟨"save", by decide, root, hroot, rfl, rfl⟩

/-- Names of files are made of letters, digits and underscores, which the check of one verb shows
for all. -/
theorem isWordPart_of_isIdentifier {verb ident : String} (hverb : verb ∈ verbs)
    (h : isIdentifier ("write_" ++ ident) = true) :
    ∀ c ∈ (verb ++ "_" ++ ident).toList, IsWordPart c := by
  obtain ⟨-, hparts, -⟩ := isIdentifier_iff.1 h
  have hverbs : ∀ verb ∈ verbs, verb.toList.all Char.isAlphanum = true := by decide
  simp only [String.toList_append, List.forall_mem_append] at hparts ⊢
  exact ⟨⟨fun c hc ↦ .inl (List.all_eq_true.1 (hverbs verb hverb) c hc),
    fun c hc ↦ .inr (List.mem_singleton.1 hc)⟩, hparts.2⟩

/-- The names of the files, by the dictionary. -/
theorem map_name_fileList_of_names
    (hnames : d.types.toList.map TypeEntry.name = order.map TypeDef.name) :
    (fileList s root order d rootTag).map Source.name =
      (d.types.toList.flatMap fun e ↦ [fileName "read" (TypeDef.unqualified e.name),
        fileName "write" (TypeDef.unqualified e.name)]) ++
        [fileName "load" root.simpleName, fileName "save" root.simpleName] := by
  have hentries (files : String → List String) :
      (d.types.toList.flatMap fun e ↦ files e.name) = order.flatMap fun t ↦ files t.name := by
    rw [← List.flatMap_map, hnames, List.flatMap_map]
  rw [map_name_fileList, fileKeys, List.map_append, List.map_flatMap,
    hentries fun name ↦ [fileName "read" (TypeDef.unqualified name),
      fileName "write" (TypeDef.unqualified name)]]
  rfl

/-- The function of a type is in the file of that type and in no other. -/
theorem function_mem_functions_iff (hroot : root ∈ order)
    (hnodup : ((fileList s root order d rootTag).map Source.name).Nodup) {t : TypeDef}
    (ht : t ∈ order) (side : Side) {file : Source}
    (hfile : file ∈ fileList s root order d rootTag) :
    side.function t ∈ file.functions ↔ file = typeFile s side t := by
  constructor
  · intro hholds
    obtain ⟨verb, -, u, -, hfunctions, hname⟩ := exists_functions_of_mem_fileList hroot hfile
    rw [hfunctions, List.mem_singleton] at hholds
    refine List.inj_on_of_nodup_map hnodup hfile (mem_fileList.2 (.inl ⟨t, ht, side, rfl⟩)) ?_
    rw [hname, fileName, ← hholds]
    cases side <;> rfl
  · rintro rfl
    rw [functions_typeFile]
    exact List.mem_singleton_self _

/-- The files call the functions of listed types if the fields of these have listed types. -/
theorem exists_function_of_mem_recordCalls (hroot : root ∈ order)
    (hclosed : ∀ t ∈ order, ∀ u ∈ s.fieldTypes t.fields, u ∈ order) {file : Source}
    (hfile : file ∈ fileList s root order d rootTag) {f : String}
    (hf : f ∈ recordCalls file.code) : ∃ t ∈ order, ∃ side, f = Side.function side t := by
  rcases mem_fileList.1 hfile with ⟨t, ht, side, rfl⟩ | rfl | rfl
  · rw [recordCalls_typeFile] at hf
    obtain ⟨u, hu, rfl⟩ := List.mem_map.1 hf
    exact ⟨u, hclosed t ht u hu, side, rfl⟩
  · rw [recordCalls_loadSource, List.mem_singleton] at hf
    exact ⟨root, hroot, .reading, hf⟩
  · rw [recordCalls_saveSource, List.mem_singleton] at hf
    exact ⟨root, hroot, .writing, hf⟩

/-- The names in the code of a field that is reached are words. -/
theorem worded_of_codable (h : s.Codable root) {t : TypeDef} (ht : s.Reaches root t)
    {f : FieldDef} (hf : f ∈ t.fields) {element : ElementType}
    (helement : s.element? f = some element) : Worded f element :=
  worded_of_names (fun f hf ↦ h.fieldName t ht f hf)
    (fun u hu ↦ h.identifier u (ht.tail hu)) hf helement

/-- The texts of all files are read as their code if no name of a type ends a line. -/
theorem code?_text_of_mem_fileList (hcodable : s.Codable root)
    (horder : ∀ t ∈ order, s.Reaches root t ∧ Unbroken t.name)
    (hnames : ∀ e ∈ d.types.toList, Unbroken e.name) {file : Source}
    (hfile : file ∈ fileList s root order d rootTag) : code? file.text = some file.code := by
  have hident (t : TypeDef) (ht : s.Reaches root t) : IdentifierChars t.simpleName :=
    identifierChars_of_isIdentifier (hcodable.identifier t ht)
  rcases mem_fileList.1 hfile with ⟨t, ht, side, rfl⟩ | rfl | rfl
  · obtain ⟨hreaches, hname⟩ := horder t ht
    exact code?_text_typeFile (fun _ hf _ ↦ worded_of_codable hcodable hreaches hf)
      (hident t hreaches) hname side
  · exact code?_text_loadSource (hident root .refl) rootTag
  · exact code?_text_saveSource (hident root .refl) rootTag hnames

theorem holdsFunction_iff {file : Source} {function : String} :
    HoldsFunction (some file.code) function ↔ function ∈ file.functions := by
  simp [HoldsFunction, Source.functions]

/-- The file of a type is found by its name. -/
theorem source?_typeFile_fileList
    (hnodup : ((fileList s root order d rootTag).map Source.name).Nodup) {t : TypeDef} (ht : t ∈ order) (side : Side) :
    source? (fileList s root order d rootTag) (fileName side.verb t.simpleName) =
      some (typeFile s side t) := by
  have hname : (typeFile s side t).name = fileName side.verb t.simpleName := by
    cases side <;> rfl
  rw [← hname]
  exact source?_name hnodup (mem_fileList.2 (.inl ⟨t, ht, side, rfl⟩))

/-- Files that are read as their code are linked. -/
theorem linked_fileList (hroot : root ∈ order) (horder : ∀ t, t ∈ order ↔ s.Reaches root t)
    (hnodup : ((fileList s root order d rootTag).map Source.name).Nodup)
    {read : Source → Option (List Stmt)}
    (hread : ∀ file ∈ fileList s root order d rootTag, read file = some file.code) :
    Linked read s root (fileList s root order d rootTag) := by
  have hfile (t : TypeDef) (ht : t ∈ order) (side : Side) :
      typeFile s side t ∈ fileList s root order d rootTag :=
    mem_fileList.2 (.inl ⟨t, ht, side, rfl⟩)
  have hcalls {file : Source} (hmem : file ∈ fileList s root order d rootTag) :
      (read file).map recordCalls = some (recordCalls file.code) := by
    rw [hread file hmem, Option.map_some]
  have htargets (t : TypeDef) (ht : t ∈ order) (side : Side) {file : Source}
      (hmem : file ∈ fileList s root order d rootTag) :
      HoldsFunction (read file) (side.function t) ↔ file = typeFile s side t := by
    rw [hread file hmem, holdsFunction_iff]
    exact function_mem_functions_iff hroot hnodup ht side hmem
  have hload : loadSource root.simpleName rootTag ∈ fileList s root order d rootTag :=
    mem_fileList.2 (.inr (.inl rfl))
  have hsave : saveSource root.simpleName rootTag d ∈ fileList s root order d rootTag :=
    mem_fileList.2 (.inr (.inr rfl))
  refine ⟨fun file hmem ↦ ?functions, fun t ht side ↦ ?typeCalls,
    ⟨_, hload, _, hsave, rfl, ?load, rfl, ?save⟩, fun t ht side file hmem ↦ ?targets,
    fun file hmem ↦ ⟨_, hcalls hmem, fun f hf ↦ ?closed⟩⟩
  case functions =>
    obtain ⟨verb, -, t, -, hfunctions, hname⟩ := exists_functions_of_mem_fileList hroot hmem
    refine ⟨_, ?_, hname⟩
    rw [hread file hmem, Option.map_some]
    exact congrArg some hfunctions
  case typeCalls =>
    have hmem := hfile t ((horder t).2 ht) side
    refine ⟨typeFile s side t, hmem, by cases side <;> rfl, ?_⟩
    rw [hcalls hmem, recordCalls_typeFile]
  case load =>
    rw [hcalls hload, recordCalls_loadSource]
    rfl
  case save =>
    rw [hcalls hsave, recordCalls_saveSource]
    rfl
  case targets =>
    have hname : (typeFile s side t).name = fileName side.verb t.simpleName := by
      cases side <;> rfl
    rw [htargets t ((horder t).2 ht) side hmem]
    refine ⟨fun heq ↦ heq ▸ hname, fun heq ↦ ?_⟩
    exact List.inj_on_of_nodup_map hnodup hmem (hfile t ((horder t).2 ht) side)
      (heq.trans hname.symm)
  case closed =>
    have hclosed (t : TypeDef) (ht : t ∈ order) (u : TypeDef) (hu : u ∈ s.fieldTypes t.fields) :
        u ∈ order :=
      (horder u).2 (((horder t).1 ht).tail hu)
    obtain ⟨t, ht, side, rfl⟩ := exists_function_of_mem_recordCalls hroot hclosed hmem hf
    exact ⟨typeFile s side t, ⟨hfile t ht side, (htargets t ht side (hfile t ht side)).2 rfl⟩,
      fun callee hcallee ↦ (htargets t ht side hcallee.1).1 hcallee.2⟩

/-- **The generated files** are complete and do not collide. Their statements call none but each
other: every call has one target, the function of the declared type. If no name of a type ends a
line, then so do their texts. -/
theorem fileSet_of_generate (hroot : root ∈ s.types) {sources : List Source}
    (h : generate s root = .ok sources) :
    ∃ d, Dictionary.ofSchema s root = .ok d ∧ FileSet root d sources ∧
      Linked (fun file ↦ some file.code) s root sources ∧
      ((∀ e ∈ d.types.toList, Unbroken e.name) →
        Linked (fun file ↦ code? file.text) s root sources) := by
  obtain ⟨d, order, rootTag, hd, hvisits, horder, hnames, -, hcodable, hsources⟩ :=
    (generate_eq_ok_iff_codable hroot).1 h
  have hmem {t : TypeDef} := hvisits.mem_iff_reaches (t := t)
  have hlisted : root ∈ order := hmem.2 .refl
  replace hsources : sources = fileList s root order d rootTag := hsources
  subst hsources
  have hnodup : ((fileList s root order d rootTag).map Source.name).Nodup :=
    nodup_map_name_fileList horder fun t ht u hu ↦
      hcodable.distinct t u (hmem.1 ht) (hmem.1 hu)
  refine ⟨d, hd, ⟨map_name_fileList_of_names hnames, hnodup, fun file hfile ↦ ?_⟩,
    linked_fileList hlisted (fun t ↦ hmem) hnodup fun _ _ ↦ rfl,
    fun hunbroken ↦ linked_fileList hlisted (fun t ↦ hmem) hnodup fun file hfile ↦ ?_⟩
  · obtain ⟨verb, hverb, t, ht, -, hname⟩ := exists_functions_of_mem_fileList hlisted hfile
    exact ⟨verb ++ "_" ++ t.simpleName, hname,
      isWordPart_of_isIdentifier hverb (hcodable.identifier t (hmem.1 ht))⟩
  · refine code?_text_of_mem_fileList hcodable (fun t ht ↦ ⟨hmem.1 ht, ?_⟩) hunbroken hfile
    -- the dictionary has the names of the types
    have hname : t.name ∈ d.types.toList.map TypeEntry.name :=
      hnames ▸ List.mem_map_of_mem ht
    obtain ⟨e, he, heq⟩ := List.mem_map.1 hname
    exact heq ▸ hunbroken e he

end

open Dictionary (drawingType drawingSchema drawingDictionary lineType pointType)

theorem exists_generate_drawing : ∃ sources, generate drawingSchema drawingType = .ok sources := by
  have hvisits : drawingSchema.Visits [drawingType] [] [pointType, lineType, drawingType] :=
    .first (by decide) (.first (by decide) (.first (by decide) .nil (.again (by decide) .nil))
      (.again (by decide) .nil)) .nil
  have htag : drawingDictionary.tagFor? drawingType.name = some 14 := by cbv
  exact ⟨_, (generate_eq_ok_iff_codable (by decide)).2 ⟨drawingDictionary, _, 14,
    ofSchema_drawing, hvisits, by decide, by decide, htag, codable_drawing, rfl⟩⟩

theorem fileSet_of_generate_drawing : ∃ sources, drawingType ∈ drawingSchema.types ∧
    generate drawingSchema drawingType = .ok sources ∧
    sources.map Source.name = ["read_Point.m", "write_Point.m", "read_Line.m", "write_Line.m",
      "read_Drawing.m", "write_Drawing.m", "load_Drawing.m", "save_Drawing.m"] ∧
    (∃ file ∈ sources, file.name = "read_Line.m" ∧
      (code? file.text).map recordCalls = some ["read_Point", "read_Point"]) ∧
    ∃! file, file ∈ sources ∧ HoldsFunction (code? file.text) "read_Point" := by
  have hroot : drawingType ∈ drawingSchema.types := by decide
  obtain ⟨sources, h⟩ := exists_generate_drawing
  obtain ⟨d, hd, hfiles, -, hlinked⟩ := fileSet_of_generate hroot h
  obtain rfl := Except.ok.inj (hd.symm.trans ofSchema_drawing)
  have hunbroken : ∀ e ∈ drawingDictionary.types.toList, Unbroken e.name := by
    have hall : drawingDictionary.types.toList.all
        (fun e ↦ e.name.toList.all fun c ↦ !endsLine c) = true := by decide
    exact List.all_eq_true.1 hall
  have hline : lineType ∈ drawingSchema.fieldTypes drawingType.fields := by decide
  obtain ⟨file, hmem, hname, hcalls⟩ :=
    (hlinked hunbroken).typeCalls lineType (.single hline) .reading
  have hpoint : (drawingSchema.fieldTypes lineType.fields).map Side.reading.function =
      ["read_Point", "read_Point"] := by decide
  rw [hpoint] at hcalls
  refine ⟨sources, hroot, h, hfiles.names.trans (by decide), ⟨file, hmem, hname, hcalls⟩, ?_⟩
  obtain ⟨calls, hcalls', htargets⟩ := (hlinked hunbroken).closed file hmem
  obtain rfl := Option.some.inj (hcalls'.symm.trans hcalls)
  exact htargets "read_Point" List.mem_cons_self

/-! ### Names that end lines -/

/-- A type with a call in its name, on a line of its own. -/
def strayType : TypeDef :=
  ⟨"a\nwrite_Q(fid, s);\n%.P", []⟩

def straySchema : Schema :=
  ⟨none, [strayType], by decide⟩

def strayDictionary : Dictionary :=
  ⟨#[⟨12, "a\nwrite_Q(fid, s);\n%.P", []⟩], 12⟩

/-- The call in the name. -/
def strayCall : Expr :=
  .call "write_Q" [file, .name "s"]

/-- A comment with the name is read as the call between two comments. -/
theorem readsAs_strayComment {front back : String} (hfront : Unbroken front)
    (hback : Unbroken back) : ReadsAs [.comment (front ++ strayType.name ++ back)]
      [.comment (front ++ "a"), .run strayCall, .comment (".P" ++ back)] := by
  have hcall : strayCall.Readable false :=
    .call (isName_of_isPlainName rfl) rfl
      (List.forall_iff_forall_mem.1 ⟨readable_file, readable_name rfl⟩)
  have hname : front ++ strayType.name ++ back =
      front ++ "a" ++ "\n" ++ (strayCall.print ++ ";") ++ "\n%" ++ (".P" ++ back) := by
    rw [← String.toList_inj]
    simp [strayType, strayCall, Expr.print, Expr.printAll, file]
  rw [hname]
  exact readsAs_comment (hfront.append rfl) hcall (.append (s := ".P") rfl hback)

/-- The end of the comment with the name in the function that saves. -/
def strayTag : String :=
  " (" ++ toString (12 : Int32).toInt ++ ")"

/-- What follows the name in the comment is on one line. -/
theorem unbroken_strayTag : Unbroken strayTag := by
  rw [strayTag, toString_int]
  exact (Unbroken.append (s := " (") rfl (unbroken_integerText _)).append (t := ")") rfl

/-- The statements of the function that saves after this comment. -/
def strayAfter : List Stmt :=
  writeWord (12 : Int32).toInt :: writeName strayType.name ++
    [writeWord (0 : Nat), .blank, writeWord (12 : Int32).toInt]

theorem saveFront_stray : saveFront "P" 12 strayDictionary =
    splitBefore ++ ([.comment (" " ++ strayType.name ++ strayTag)] ++ strayAfter) := by
  have hcomment : s!" {strayType.name} ({(12 : Int32).toInt})" =
      " " ++ strayType.name ++ strayTag := by
    rw [strayTag, ← String.append_assoc, ← String.append_assoc]
    rfl
  rw [← hcomment]
  rfl

/-- The statements before the comment are readable. -/
theorem readableCode_splitBefore : ReadableCode splitBefore := by
  have hident : IdentifierChars "P" := by simp [IdentifierChars]
  have htitle := hident.unbroken_title (a := "SAVE_") (b := " Save a ")
    (c := " to a persistable binary file.") rfl rfl rfl
  have hopen : ReadableCode (openFile "w") := readableCode_openFile rfl
  exact readableCode_cons (.comment htitle) (readableCode_cons .blank (hopen.append
    (readableCode_cons .blank (readableCode_cons (readable_writeWord _) (readableCode_cons .blank
      (readableCode_cons (.comment (unbroken_countComment _))
        (readableCode_cons (readable_writeWord _) Stmt.Readable.blank.alone)))))))

theorem readableCode_strayAfter : ReadableCode strayAfter :=
  readableCode_cons (readable_writeWord _) ((readableCode_writeName _).append
    (readableCode_cons (readable_writeWord _) (readableCode_cons .blank
      (readable_writeWord _).alone)))

/-- What the function that saves is read as. -/
def straySave : List Stmt :=
  [.function none ("save_" ++ "P") ["filename", "s"]
    (splitBefore ++ ([.comment (" " ++ "a"), .run strayCall, .comment (".P" ++ strayTag)] ++
      strayAfter) ++ [writeRecord "P" (.name "s")])]

theorem wordChars_stray : WordChars "P" :=
  (isName_of_isPlainName rfl).isWord.2

/-- The text is read as code with one statement more. -/
theorem code?_text_saveSource_stray :
    code? (saveSource "P" 12 strayDictionary).text = some straySave := by
  have hcall : ReadableCode [writeRecord "P" (.name "s")] :=
    (readable_writeRecord wordChars_stray (readable_name rfl)).alone
  have hbody := ((readableCode_splitBefore.readsAs).append
    ((readsAs_strayComment (show Unbroken " " from rfl) unbroken_strayTag).append
      readableCode_strayAfter.readsAs)).append hcall.readsAs
  rw [← saveFront_stray] at hbody
  rw [saveSource_eq]
  exact (readsAs_function rfl rfl wordChars_stray rfl hbody).code?_print

/-- And this statement is a call. -/
theorem recordCalls_straySave : recordCalls straySave = ["write_Q", "write_P"] := by
  have hbefore : recordCalls splitBefore = [] := by
    simp only [splitBefore, List.cons_append, recordCalls_comment_cons, recordCalls_blank_cons,
      recordCalls_append, recordCalls_openFile, recordCalls_writeWord_cons]
    rfl
  have hafter : recordCalls strayAfter = [] := by
    simp only [strayAfter, List.cons_append, recordCalls_writeWord_cons, recordCalls_append,
      recordCalls_writeName, recordCalls_blank_cons]
    rfl
  rw [straySave, recordCalls_function, recordCalls_append, recordCalls_append, recordCalls_append,
    hbefore, hafter]
  decide

theorem simpleName_stray : strayType.simpleName = "P" := by
  cbv

/-- The text of a function for the type holds no other function. -/
theorem functionNames_code?_typeFile_stray (side : Side) :
    (code? (typeFile straySchema side strayType).text).map functionNames =
      some [side.verb ++ "_" ++ "P"] := by
  have hident : IdentifierChars strayType.simpleName := by
    rw [simpleName_stray]
    simp [IdentifierChars]
  have horigin : ReadsAs [.comment ("   Generated from type " ++ strayType.name ++
      "; do not edit.")] _ :=
    readsAs_strayComment rfl rfl
  have hfile {result : Option String} {front : String} {ps : List String} {body : List Stmt}
      (hcode : code? (typeFile straySchema side strayType).text =
        some [.function result (front ++ strayType.simpleName) ps body])
      (hfront : front = side.verb ++ "_") :
      (code? (typeFile straySchema side strayType).text).map functionNames =
        some [side.verb ++ "_" ++ "P"] := by
    rw [hcode, simpleName_stray, hfront]
    rfl
  cases side with
  | reading =>
    have htitle := hident.unbroken_title (a := "READ_") (b := " Read one ")
      (c := " from an open persistable file.") rfl rfl rfl
    have hstruct : (Expr.call "struct" []).Readable false := readable_call rfl trivial
    have hrest : ReadableCode [.blank, .assign (.name "s") (.call "struct" [])] :=
      readableCode_cons .blank (Stmt.Readable.assign (readable_name rfl) hstruct).alone
    have hbody := (Stmt.Readable.comment htitle).alone.readsAs.append
      (horigin.append hrest.readsAs)
    exact hfile (readsAs_function rfl rfl hident.wordChars rfl hbody).code?_print rfl
  | writing =>
    have htitle := hident.unbroken_title (a := "WRITE_") (b := " Write one ")
      (c := " to an open persistable file.") rfl rfl rfl
    have hbody := (Stmt.Readable.comment htitle).alone.readsAs.append horigin
    exact hfile (readsAs_function rfl rfl hident.wordChars rfl hbody).code?_print rfl

/-- **A name that ends a line** adds a call to the function that saves. No file holds what it
calls. -/
theorem exists_stray_call : ∃ sources save, generate straySchema strayType = .ok sources ∧
    source? sources (fileName "save" strayType.simpleName) = some save ∧
    (code? save.text).map recordCalls = some ["write_Q", "write_P"] ∧
    ∀ file ∈ sources, ∃ functions, (code? file.text).map functionNames = some functions ∧
      "write_Q" ∉ functions := by
  have hd : Dictionary.ofSchema straySchema strayType = .ok strayDictionary := by cbv
  have htag : strayDictionary.tagFor? strayType.name = some 12 := by cbv
  have hsources := generate_of_walk (by cbv) (by cbv) hd htag
  obtain ⟨d, rootTag, hd', htag', -, hsave⟩ := exists_saveSource hsources
  obtain rfl : strayDictionary = d := Except.ok.inj (hd.symm.trans hd')
  obtain rfl : 12 = rootTag := Option.some.inj (htag.symm.trans htag')
  have htypes : (TypeCode.start strayType strayType.simpleName).sources =
      [typeFile straySchema .reading strayType, typeFile straySchema .writing strayType] :=
    sources_ofType straySchema strayType
  refine ⟨_, _, hsources, hsave, ?_, fun file hfile ↦ ?_⟩
  · rw [simpleName_stray, code?_text_saveSource_stray, Option.map_some,
      recordCalls_straySave]
  · rw [htypes, simpleName_stray] at hfile
    simp only [List.cons_append, List.nil_append, List.mem_cons, List.not_mem_nil, or_false]
      at hfile
    rcases hfile with rfl | rfl | rfl | rfl
    · exact ⟨_, functionNames_code?_typeFile_stray .reading, by decide⟩
    · exact ⟨_, functionNames_code?_typeFile_stray .writing, by decide⟩
    · refine ⟨["load_P"], ?_, by decide⟩
      rw [code?_text_loadSource (by simp [IdentifierChars])]
      rfl
    · refine ⟨["save_P"], ?_, by decide⟩
      rw [code?_text_saveSource_stray]
      rfl

end Matlab

end GraphCodec
