import GraphCodec.Proofs.Encoding
import GraphCodec.Proofs.Execution
import GraphCodec.Proofs.FileSet

/-!
# The code that loads

Before it reads the record, the generated code that loads a file image checks the magic number,
skips the dictionary, and checks the tag of the root. It goes by the lengths and numbers in the
file, so it is a second reader of the dictionary section; but each of its statements passes the part
of the section that it stands for (`passes_skipText`, `passes_skipDictionary`), whatever the types,
fields and names are. In front of every image of a record of the root it therefore raises no error
and calls the function that reads records where the body begins (`source?_load`).
-/

namespace GraphCodec

namespace Matlab

/-! ### The dictionary -/

/-- **Skipping a text** passes it: as many bytes as its length tells. -/
theorem passes_skipText {s : String} (hs : Utf8.size s ≤ maxLength) :
    Passes skipText.exec (textForm s) () := by
  have hargs : Passes (evalArgs [file, freadCount, .text "cof"]) (lengthWord (Utf8.size s))
      [.numbers [fileId], .numbers [Utf8.size s], .text "cof"] := by
    have h := passes_evalArgs_cons passes_file (passes_evalArgs_cons (passes_length hs)
      (passes_evalArgs_cons (passes_text "cof") passes_evalArgs_nil))
    rwa [List.nil_append, List.append_nil] at h
  have hcall : Passes (callFunction "fseek"
      [.numbers [fileId], .numbers [Utf8.size s], .text "cof"]) (Utf8.bytes s) (.numbers [0]) := by
    rw [callFunction_fseek, callFseek]
    refine (passes_pure _).bind_nil ((passes_pure _).bind_nil ((passes_pure _).bind_nil ?_))
    rw [if_pos ⟨rfl, rfl⟩, ← Utf8.length_bytes]
    exact passes_moveBy _
  exact passes_run (passes_call hargs hcall)

/-- **Skipping words** passes as many. -/
theorem passes_skipWords (vs : List Int32) :
    Passes (skipWords vs.length).exec (vs.flatMap Word.ofInt32) () :=
  passes_run (passes_fread rfl vs)

/-- A field of the section is skipped by its length and two words. -/
theorem passes_skipField {f : FieldEntry} (hname : Utf8.size f.name ≤ maxLength) :
    Passes (exec [skipText, skipWords 2]) (fieldForm f) () := by
  have hwords := passes_exec_cons (passes_skipWords [f.tag, f.dims]) passes_exec_nil
  have h := passes_exec_cons (passes_skipText hname) hwords
  simpa [fieldForm] using h

/-- A type is skipped with all its fields, however many there are. -/
theorem passes_skipType {t : TypeEntry} (h : t.Storable) :
    Passes (exec [skipWords 1, skipText, .assign (.name "nFields") freadCount,
      .loop "f" (.range (.number 1) (.name "nFields")) [skipText, skipWords 2]])
      (typeForm t) () := by
  have hfields := passes_counted (show "nFields" ≠ "fid" by decide) (show "f" ≠ "fid" by decide)
    (fun f hf ↦ passes_skipField (h.fields f hf)) h.count
  have h := passes_exec_cons (passes_skipWords [t.tag])
    (passes_exec_cons (passes_skipText h.name) hfields)
  simpa [typeForm] using h

/-- **Skipping the dictionary** passes its section. -/
theorem passes_skipDictionary {d : Dictionary} (hsize : d.types.size ≤ maxLength)
    (hstorable : d.Storable) : Passes (exec skipDictionary) d.headerForm () := by
  have h := passes_counted (show "nTypes" ≠ "fid" by decide) (show "t" ≠ "fid" by decide)
    (fun t ht ↦ passes_skipType (hstorable t ht)) (Array.length_toList.trans_le hsize)
  rwa [Array.length_toList] at h

/-! ### The whole function -/

/-- The statements between those that open the file and the one that reads the record. -/
def loadChecks (ident : String) (rootTag : Tag) : List Stmt :=
  let badMagic := complain "persistable:magic"
    [.text "Not a persistable file: %s", .name "filename"]
  let badTag := complain "persistable:type"
    [.text s!"Top-level type tag %d is not a {ident}", .name "tag"]
  [.blank, .assign (.name "magic") freadCount, expectNumber "magic" magic.toInt badMagic,
    .blank, .comment " dictionary (not needed: the layout is compiled in)"] ++ skipDictionary ++
    [.blank, .assign (.name "tag") freadCount, expectNumber "tag" rootTag.toInt badTag]

/-- The statements that open the file, below the comment of the function. -/
def loadOpening (ident : String) : List Stmt :=
  let capitals := ident.map Char.toUpper
  .comment s!"LOAD_{capitals} Load a {ident} from a persistable binary file." :: .blank ::
    openFile "r"

theorem code_loadSource (ident : String) (rootTag : Tag) : (loadSource ident rootTag).code =
    [.function (some "s") ("load_" ++ ident) ["filename"]
      (loadOpening ident ++ (loadChecks ident rootTag ++
        [.assign (.name "s") (readRecord ident)]))] :=
  rfl

/-- **The checks** pass the front of an image. -/
theorem passes_loadChecks {d : Dictionary} (hsize : d.types.size ≤ maxLength)
    (hstorable : d.Storable) (ident : String) (rootTag : Tag) :
    Passes (exec (loadChecks ident rootTag)) (Image.frontForm d rootTag) () := by
  have hmagic := passes_expected (show "magic" ≠ "fid" by decide) magic
    (complain "persistable:magic" [.text "Not a persistable file: %s", .name "filename"])
  have htag := passes_expected (show "tag" ≠ "fid" by decide) rootTag
    (complain "persistable:type"
      [.text s!"Top-level type tag %d is not a {ident}", .name "tag"])
  have hbefore := passes_exec_cons passes_blank (passes_exec_append hmagic
    (passes_exec_cons passes_blank (passes_exec_cons
      (passes_comment " dictionary (not needed: the layout is compiled in)") passes_exec_nil)))
  have h := passes_exec_append (passes_exec_append hbefore (passes_skipDictionary hsize hstorable))
    (passes_exec_cons passes_blank htag)
  simp only [List.nil_append, List.append_nil, List.append_assoc] at h
  exact h

/-- **Opening the file** sets its number. -/
theorem exec_fopen (path : String) (b : List UInt8) :
    (Stmt.assign file (.call "fopen" [.name "filename", .text "r", .text "n"])).exec
        (.start "filename" path b) =
      .ok () ((Workspace.start "filename" path b).set "fid" (.numbers [fileId])) := by
  have hname : (Workspace.start "filename" path b).vars "filename" = some (.text path) := rfl
  have hargs : evalArgs [.name "filename", .text "r", .text "n"] (.start "filename" path b) =
      .ok [.text path, .text "r", .text "n"] (.start "filename" path b) := by
    refine evalArgs_cons (eval_name hname) ?_
    rw [evalArgs, evalArgs, evalArgs, Expr.eval, Expr.eval]
    rfl
  refine exec_assign ?_ "fid"
  rw [eval_call hargs, callFunction_fopen]
  exact if_pos ⟨rfl, rfl, rfl⟩

/-- The check that the file is open passes no bytes. -/
theorem passes_checkOpen (complaint : List Stmt) :
    Passes (Stmt.when (.less file (.number 0)) complaint).exec [] () := by
  have hless : Passes (Expr.less file (.number 0)).eval [] (.numbers [0]) := by
    rw [Expr.eval]
    exact passes_file.bind_nil ((passes_pure _).bind_nil
      ((passes_number 0).bind_nil ((passes_pure _).bind_nil (passes_pure _))))
  rw [Stmt.exec]
  exact hless.bind_nil ((passes_pure _).bind_nil (passes_pure ()))

/-- Neither does the arrangement to close it. -/
theorem passes_cleanup : Passes (Stmt.assign (.name "cleanup")
    (.call "onCleanup" [.thunk (.call "fclose" [file])])).exec [] () := by
  have hthunk : Passes (Expr.thunk (.call "fclose" [file])).eval [] .object := by
    rw [Expr.eval]
    exact passes_pure _
  have hcall : Passes (callFunction "onCleanup" [.object]) [] .object := by
    rw [callFunction_onCleanup]
    exact passes_pure _
  exact passes_assign (by decide)
    (passes_call (passes_evalArgs_cons hthunk passes_evalArgs_nil) hcall)

/-- The statements that open the file lead to its first byte. -/
theorem exists_exec_loadOpening (ident path : String) (b : List UInt8) :
    ∃ w, exec (loadOpening ident) (.start "filename" path b) = .ok () w ∧ w.At [] b := by
  have hopen : ((Workspace.start "filename" path b).set "fid" (.numbers [fileId])).At [] b :=
    ⟨rfl, rfl, rfl⟩
  obtain ⟨w, hw, hat⟩ := passes_exec_cons (passes_checkOpen [complain "persistable:open"
    [.text "Cannot open %s", .name "filename"]])
    (passes_exec_cons passes_cleanup passes_exec_nil) _ _ b hopen
  exact ⟨w, (exec_cons (exec_comment _ _) _).trans ((exec_cons (exec_blank _) _).trans
    ((exec_cons (exec_fopen path b) _).trans hw)), hat⟩

/-- Code that loads a file image calls the function that reads the record behind its front. -/
theorem exists_run_loadSource {d : Dictionary} (hsize : d.types.size ≤ maxLength)
    (hstorable : d.Storable) (ident : String) (rootTag : Tag) (path : String)
    (body : List UInt8) :
    ∃ w, (loadSource ident rootTag).run path (Image.imageForm d rootTag body) =
      .error (.calls ("read_" ++ ident)) w ∧ w.At (Image.frontForm d rootTag) body := by
  rw [Image.imageForm]
  obtain ⟨w₁, hopening, h₁⟩ :=
    exists_exec_loadOpening ident path (Image.frontForm d rootTag ++ body)
  obtain ⟨w₂, hchecks, h₂⟩ := passes_loadChecks hsize hstorable ident rootTag w₁ [] body h₁
  rw [List.nil_append] at h₂
  refine ⟨w₂, ?_, h₂⟩
  rw [Source.run, code_loadSource]
  simp only
  rw [exec_append_of_ok hopening, exec_append_of_ok hchecks]
  exact exec_assign_readRecord h₂.file _ ident []

variable {s : Schema} {root : TypeDef} {r : Record} {b : List UInt8}

/-- **The generated code that loads finds the body.** On every image of a record of the root type,
it raises no error before it calls the function that reads the record, and there it stands behind
the magic number, the dictionary section and the tag of the root. The code is what its text is read
as. -/
theorem source?_load (ht : s.get? r.typeName = some root) {sources : List Source}
    (h : generate s root = .ok sources) (hb : Image.encode s r = .ok b) :
    ∃ d header rootTag front body load, Dictionary.ofSchema s root = .ok d ∧
      d.headerBytes = .ok header ∧ d.tagFor? root.name = some rootTag ∧
      Image.preamble d rootTag = .ok front ∧ b = front ++ body ∧
      source? sources (fileName "load" root.simpleName) = some load ∧
      code? load.text = some load.code ∧
      ∀ path, ∃ w, load.run path b = .error (.calls (Side.reading.function root)) w ∧
        w.At front body ∧ w.position = 4 + header.length + 4 := by
  have hroot := (s.get?_eq_some_iff.1 ht).1
  obtain ⟨d, order, rootTag, hd, hvisits, horder, -, htag, hcodable, hsources⟩ :=
    (generate_eq_ok_iff_codable hroot).1 h
  have hmem {t : TypeDef} := hvisits.mem_iff_reaches (t := t)
  replace hsources : sources = fileList s root order d rootTag := hsources
  subst hsources
  obtain ⟨⟨hsize, hstorable⟩, rootTag', body, htag', rfl⟩ :=
    Image.exists_imageForm_of_encode hb ht hd
  obtain rfl : rootTag' = rootTag := Option.some.inj (htag'.symm.trans htag)
  -- the file is found by its name since no other has this name
  have hnodup : ((fileList s root order d rootTag').map Source.name).Nodup :=
    nodup_map_name_fileList horder fun t ht u hu ↦
      hcodable.distinct t u (hmem.1 ht) (hmem.1 hu)
  have hload : loadSource root.simpleName rootTag' ∈ fileList s root order d rootTag' :=
    mem_fileList.2 (.inr (.inl rfl))
  refine ⟨d, _, rootTag', _, body, _, hd,
    Dictionary.headerBytes_eq_ok_iff.2 ⟨hsize, hstorable, rfl⟩, htag,
    Image.preamble_eq_ok_iff.2 ⟨⟨hsize, hstorable⟩, rfl⟩, rfl, source?_name hnodup hload,
    code?_text_loadSource (identifierChars_of_isIdentifier (hcodable.identifier root .refl))
      rootTag', fun path ↦ ?_⟩
  obtain ⟨w, hrun, hat⟩ := exists_run_loadSource hsize hstorable root.simpleName rootTag' path body
  refine ⟨w, hrun, hat, ?_⟩
  rw [hat.position, Image.frontForm, List.length_append, List.length_append, Word.length_ofInt32,
    Word.length_ofInt32, Nat.add_assoc]

open Image (eventType eventSchema eventDictionary event)

theorem exists_generate_event : ∃ sources, generate eventSchema eventType = .ok sources := by
  have hvisits : eventSchema.Visits [eventType] [] [eventType] :=
    .first (by decide) .nil .nil
  have hcodable : eventSchema.Codable eventType :=
    codable_of_closed (List.mem_singleton_self eventType) (by decide) (by decide) (by decide)
      (by decide)
  have htag : eventDictionary.tagFor? eventType.name = some 12 := by cbv
  exact ⟨_, (generate_eq_ok_iff_codable (by decide)).2 ⟨eventDictionary, _, 12,
    Image.ofSchema_event, hvisits, by decide, by decide, htag, hcodable, rfl⟩⟩

theorem source?_load_event : ∃ sources, generate eventSchema eventType = .ok sources ∧
    ∃ b, Image.encode eventSchema event = .ok b ∧
      ∃ load, source? sources "load_Event.m" = some load ∧ code? load.text = some load.code ∧
        ∀ path, ∃ w, load.run path b = .error (.calls "read_Event") w ∧
          w.rest = [7, 0, 0, 0, 0, 0, 0, 0] := by
  obtain ⟨sources, hsources⟩ := exists_generate_event
  obtain ⟨d, header, rootTag, front, body, load, hd, -, htag, hfront, hb, hload, hread, hrun⟩ :=
    source?_load Image.get?_event hsources Image.encode_event
  obtain rfl := Except.ok.inj (hd.symm.trans Image.ofSchema_event)
  have htag' : eventDictionary.tagFor? eventType.name = some 12 := by cbv
  obtain rfl := Option.some.inj (htag.symm.trans htag')
  obtain ⟨-, rfl⟩ := Image.preamble_eq_ok_iff.1 hfront
  rw [Image.imageForm] at hb
  obtain rfl := List.append_cancel_left hb
  refine ⟨sources, hsources, _, Image.encode_event, load, hload, hread, fun path ↦ ?_⟩
  obtain ⟨w, hw, hat, -⟩ := hrun path
  exact ⟨w, hw, hat.rest_eq⟩

end Matlab

end GraphCodec
