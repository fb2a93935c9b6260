import GraphCodec.Command.Run
import GraphCodec.Proofs.Naming
import GraphCodec.Proofs.Places

/-!
# What a failed command leaves behind

A command reads its input and computes the whole of its result before it writes anything, and a
single file is written whole or not at all. So a command that writes one file has changed nothing
when it fails (`Command.Atomic`).

Generated functions are several files in a directory that may have to be created, and what has been
done is not undone when a later step is refused. What is left then is told step by step
(`Command.StoredInPart`): directories that were missing, and some of the files, in order and each of
them whole.
-/

namespace GraphCodec

open Command

/-- Carry out an action in a world. -/
def World.perform {α : Type} (w : World) (a : Action (StateM World) α) : Except Fault α × World :=
  a w

namespace Command

variable {α β : Type} {a : Action (StateM World) α} {f : α → Action (StateM World) β}
  {w w' : World} {e : Fault}

/-! ### Actions in order -/

/-- After a first part that succeeds, the second begins in the world that it left. -/
theorem perform_bind_of_ok {x : α} (h : w.perform a = (.ok x, w')) :
    w.perform (a >>= f) = w'.perform (f x) := by
  show ExceptT.bind a f w = _
  simp only [ExceptT.bind, ExceptT.mk, bind, StateT.bind]
  rw [show a w = (.ok x, w') from h]
  rfl

/-- After a first part that fails, nothing else is done. -/
theorem perform_bind_of_error (h : w.perform a = (.error e, w')) :
    w.perform (a >>= f) = (.error e, w') := by
  show ExceptT.bind a f w = _
  simp only [ExceptT.bind, ExceptT.mk, bind, StateT.bind]
  rw [show a w = (.error e, w') from h]
  rfl

/-- One action after another ends with the fault of the first, or as the second does. -/
theorem perform_bind_cases {r : Except Fault β} (h : w.perform (a >>= f) = (r, w')) :
    (∃ e, w.perform a = (.error e, w') ∧ r = .error e) ∨
      ∃ x w₁, w.perform a = (.ok x, w₁) ∧ w₁.perform (f x) = (r, w') := by
  rcases ha : w.perform a with ⟨e | x, w₁⟩
  · cases (perform_bind_of_error ha).symm.trans h
    exact .inl ⟨e, rfl, rfl⟩
  · exact .inr ⟨x, w₁, rfl, (perform_bind_of_ok ha).symm.trans h⟩

/-- Whether an action changes nothing. -/
def Still (a : Action (StateM World) α) : Prop :=
  ∀ w : World, (w.perform a).2 = w

/-- Whether an action never fails. -/
def Total (a : Action (StateM World) α) : Prop :=
  ∀ w : World, ∃ x w', w.perform a = (.ok x, w')

/-- Whether an action changes no file and no directory when it fails. -/
def Atomic (a : Action (StateM World) α) : Prop :=
  ∀ (w : World) e w', w.perform a = (.error e, w') → w'.files = w.files

theorem still_pure (x : α) : Still (pure x : Action (StateM World) α) :=
  fun _ ↦ rfl

theorem still_throw (e : Fault) : Still (throw e : Action (StateM World) α) :=
  fun _ ↦ rfl

/-- A result that is known already leaves the world as it is, whether it is an error or not. -/
theorem still_result (x : Except Fault α) : Still (result x : Action (StateM World) α) := by
  rcases x with e | x
  · exact still_throw e
  · exact still_pure x

theorem Still.eq (h : Still a) {r : Except Fault α} (ha : w.perform a = (r, w')) : w' = w := by
  rw [← h w, ha]

/-- What is made of parts that change nothing changes nothing. -/
theorem Still.bind (ha : Still a) (hf : ∀ x, Still (f x)) : Still (a >>= f) := by
  intro w
  rcases hr : w.perform a with ⟨r, w₁⟩
  obtain rfl := ha.eq hr
  rcases r with e | x
  · rw [perform_bind_of_error hr]
  · rw [perform_bind_of_ok hr]
    exact hf x w₁

/-- What changes nothing changes nothing when it fails. -/
theorem Still.atomic (h : Still a) : Atomic a := by
  rintro w e w' ha
  rw [h.eq ha]

/-- Whatever may fail after a change has to fail before it: a part that changes nothing may come
first. -/
theorem Atomic.bind_of_still (ha : Still a) (hf : ∀ x, Atomic (f x)) : Atomic (a >>= f) := by
  intro w e w' h
  rcases perform_bind_cases h with ⟨_, h, -⟩ | ⟨x, w₁, h, hrest⟩
  · exact ha.atomic w _ w' h
  · obtain rfl := ha.eq h
    exact hf x w₁ e w' hrest

/-- What cannot fail may come after a change. -/
theorem Atomic.bind_of_total (ha : Atomic a) (hf : ∀ x, Total (f x)) : Atomic (a >>= f) := by
  intro w e w' h
  -- the change has been made only if nothing can fail any more
  rcases perform_bind_cases h with ⟨_, h, -⟩ | ⟨x, w₁, -, hrest⟩
  · exact ha w _ w' h
  · obtain ⟨y, w₂, htotal⟩ := hf x w₁
    rw [htotal] at hrest
    cases hrest

theorem total_pure (x : α) : Total (pure x : Action (StateM World) α) :=
  fun w ↦ ⟨x, w, rfl⟩

/-- What is made of parts that cannot fail cannot fail. -/
theorem Total.bind (ha : Total a) (hf : ∀ x, Total (f x)) : Total (a >>= f) := by
  intro w
  obtain ⟨x, w₁, h⟩ := ha w
  rw [perform_bind_of_ok h]
  exact hf x w₁

theorem Total.ne_error (h : Total a) : w.perform a ≠ (.error e, w') := by
  obtain ⟨x, w₁, hx⟩ := h w
  rw [hx]
  rintro ⟨⟩

/-- A check before the rest of an action. -/
theorem Still.guard {c : Prop} [Decidable c] {rest : Unit → Action (StateM World) α}
    (h : Still (rest ())) : Still (if c then throw e >>= rest else rest ()) := by
  split_ifs
  · exact fun _ ↦ rfl
  · exact h

/-- A check in front changes nothing when it fails. -/
theorem Atomic.guard {c : Prop} [Decidable c] {rest : Unit → Action (StateM World) α}
    (h : Atomic (rest ())) : Atomic (if c then throw e >>= rest else rest ()) := by
  split_ifs
  · rintro w _ _ ⟨⟩
    rfl
  · exact h

/-! ### Operations on files -/

/-- An operation that only looks. -/
theorem still_lift {operation : StateM World α} (h : ∀ w, (operation w).2 = w) :
    Still (ExceptT.lift operation) :=
  fun w ↦ h w

/-- Asking the file system for something is no change, even if it refuses. -/
theorem still_attempt {blame : FileError → FileFault}
    {operation : StateM World (Except FileError α)} (h : ∀ w, (operation w).2 = w) :
    Still (attempt blame operation) := by
  refine Still.bind (still_lift h) fun r ↦ ?_
  rcases r with e | x
  · exact still_throw _
  · exact still_pure x

/-- A change of the files is refused without effect. -/
theorem perform_lift_change (change : FileSystem → Except FileError FileSystem) (w : World) :
    (∃ files, change w.files = .ok files ∧
      w.perform (ExceptT.lift (World.change change)) = (.ok (.ok ()), { w with files })) ∨
    ∃ err, change w.files = .error err ∧
      w.perform (ExceptT.lift (World.change change)) = (.ok (.error err), w) := by
  have hlift : w.perform (ExceptT.lift (World.change change)) =
      (.ok (World.change change w).1, (World.change change w).2) := rfl
  rw [hlift]
  unfold World.change
  rcases change w.files with err | files
  · exact .inr ⟨err, rfl, rfl⟩
  · exact .inl ⟨files, rfl, rfl⟩

/-- A change of the file system is made as a whole or refused as a whole; it is blamed on the file
that it is about. -/
theorem perform_attempt_change (blame : FileError → FileFault)
    (change : FileSystem → Except FileError FileSystem) (w : World) :
    (∃ files, change w.files = .ok files ∧
      w.perform (attempt blame (World.change change)) = (.ok (), { w with files })) ∨
    ∃ err, change w.files = .error err ∧
      w.perform (attempt blame (World.change change)) = (.error (.file (blame err)), w) := by
  refine (perform_lift_change change w).imp ?_ ?_
  · rintro ⟨files, hchange, h⟩
    refine ⟨files, hchange, ?_⟩
    unfold attempt
    rw [perform_bind_of_ok (show w.perform (liftM (World.change change)) = _ from h)]
    rfl
  · rintro ⟨err, hchange, h⟩
    refine ⟨err, hchange, ?_⟩
    unfold attempt
    rw [perform_bind_of_ok (show w.perform (liftM (World.change change)) = _ from h)]
    rfl

/-- So a single change is atomic. -/
theorem atomic_attempt_change (blame : FileError → FileFault)
    (change : FileSystem → Except FileError FileSystem) :
    Atomic (attempt blame (World.change change)) := by
  intro w e w' h
  rcases perform_attempt_change blame change w with ⟨files, -, hdone⟩ | ⟨err, -, hdone⟩
  · cases hdone.symm.trans h
  · cases hdone.symm.trans h
    rfl

theorem Total.atomic (h : Total a) : Atomic a :=
  fun _ _ _ herror ↦ absurd herror h.ne_error

theorem total_printLine (text : String) : Total (printLine text : Action (StateM World) Unit) :=
  fun _ ↦ ⟨(), _, rfl⟩

/-! ### Input and output -/

/-- The limit is checked before the file is read. Neither check nor reading changes it. -/
theorem still_readInput (path : String) (limit : Nat) :
    Still (readInput path limit : Action (StateM World) (List UInt8)) := by
  unfold readInput
  refine (still_attempt fun _ ↦ rfl).bind fun place ↦ (still_lift fun _ ↦ rfl).bind fun isFile ↦ ?_
  refine Still.guard <| (still_attempt fun _ ↦ rfl).bind fun size ↦ Still.guard ?_
  exact still_attempt fun _ ↦ rfl

/-- A schema is read and checked. -/
theorem still_readSchema (path : String) :
    Still (readSchema path : Action (StateM World) Schema) := by
  refine (still_readInput path maxSchemaSize).bind fun bs ↦ ?_
  rcases Utf8.decode bs with e | text
  · exact still_throw _
  · exact still_result _

theorem still_readRecord (s : Schema) (t : TypeDef) (path : String) :
    Still (readRecord s t path : Action (StateM World) Record) :=
  (still_readInput path maxDocumentSize).bind fun _ ↦ (still_result _).bind fun _ ↦ still_result _

/-- Where the output goes is looked up and not made. -/
theorem still_outputPlace (path : String) :
    Still (outputPlace path : Action (StateM World) String) := by
  unfold outputPlace
  refine (still_attempt fun _ ↦ rfl).bind fun directory ↦
    (still_lift fun _ ↦ rfl).bind fun isDirectory ↦ Still.guard ?_
  rcases (Path.ofText path).fileName? with - | name
  · exact still_throw _
  · exact still_pure _

/-- Writing is a single change, after the look-up of the place. -/
theorem atomic_writeOutput (path : String) (bs : List UInt8) :
    Atomic (writeOutput path bs : Action (StateM World) String) :=
  Atomic.bind_of_still (still_outputPlace path) fun _ ↦
    (atomic_attempt_change _ _).bind_of_total fun _ ↦ total_pure _

/-- Everything that can go wrong with the image goes wrong before it is written. -/
theorem atomic_storeImage (schema input output : String) (root : Option String) :
    Atomic (storeImage schema input output root : Action (StateM World) Unit) :=
  Atomic.bind_of_still (still_readSchema schema) fun s ↦
    Atomic.bind_of_still (still_result _) fun t ↦
      Atomic.bind_of_still (still_readRecord s t input) fun _ ↦
        Atomic.bind_of_still (still_result _) fun bs ↦
          (atomic_writeOutput output bs).bind_of_total fun _ ↦ total_printLine _

/-- So it is with the other format, in which names and sizes are refused too. -/
theorem atomic_storeMatFile (schema input output : String) (root : Option String)
    (variableName : String) : Atomic (storeMatFile schema input output root variableName :
      Action (StateM World) Unit) :=
  Atomic.bind_of_still (still_readSchema schema) fun s ↦
    Atomic.bind_of_still (still_result _) fun t ↦
      Atomic.bind_of_still (still_readRecord s t input) fun _ ↦
        Atomic.bind_of_still (still_result _) fun _ ↦
          Atomic.bind_of_still (still_lift fun _ ↦ rfl) fun _ ↦
            Atomic.bind_of_still (still_result _) fun bs ↦
              (atomic_writeOutput output bs).bind_of_total fun _ ↦ total_printLine _

/-- Commands that only print change nothing that they could leave behind. -/
theorem atomic_showDictionary (schema : String) (root : Option String) (jsonMode : Bool) :
    Atomic (showDictionary schema root jsonMode : Action (StateM World) Unit) := by
  refine Atomic.bind_of_still (still_readSchema schema) fun s ↦
    Atomic.bind_of_still (still_result _) fun t ↦ Atomic.bind_of_still (still_result _) fun d ↦ ?_
  cases jsonMode with
  | true => exact Atomic.bind_of_still (still_result _) fun _ ↦ (total_printLine _).atomic
  | false => exact Total.atomic fun _ ↦ ⟨(), _, rfl⟩

theorem atomic_showImage (input : String) :
    Atomic (showImage input : Action (StateM World) Unit) :=
  Atomic.bind_of_still (still_readInput input maxInputSize) fun _ ↦
    Atomic.bind_of_still (still_result _) fun _ ↦ (total_printLine _).atomic

/-- A digest that is not the expected one is an error, and nothing has been printed then. -/
theorem atomic_showDigest (input : String) (expected : Option String) (jsonMode : Bool) :
    Atomic (showDigest input expected jsonMode : Action (StateM World) Unit) := by
  refine Atomic.bind_of_still (still_readInput input maxInputSize) fun bs ↦ ?_
  have hreport : ∀ jsonMode : Bool, Atomic (if jsonMode = true then
      (printLine (Json.pretty (.object [("file", .string input), ("bytes", .integer bs.length),
        ("blake3", .string (Digest.ofBytes bs))])) : Action (StateM World) Unit)
      else printLine s!"{Digest.ofBytes bs}  {input}") := by
    rintro (_ | _) <;> exact (total_printLine _).atomic
  rcases expected with - | expected
  · exact hreport jsonMode
  · exact Atomic.guard (hreport jsonMode)

/-- **A command that does not store generated functions** changes nothing when it fails. -/
theorem atomic_run (i : Invocation)
    (h : ∀ schema output root, i.command ≠ .generate schema output root) :
    Atomic (i.run : Action (StateM World) Unit) := by
  unfold Invocation.run
  match hcommand : i.command with
  | .dictionary schema root => exact atomic_showDictionary schema root i.jsonMode
  | .encode schema input output root => exact atomic_storeImage schema input output root
  | .decode input => exact atomic_showImage input
  | .exportMat schema input output root variableName =>
    exact atomic_storeMatFile schema input output root variableName
  | .generate schema output root => exact absurd hcommand (h schema output root)
  | .digest input expected => exact atomic_showDigest input expected i.jsonMode

/-! ### Several files -/

/-- Whether creating directories at some paths, in order, leads from one file system to another. -/
def Creates (fs : FileSystem) (paths : List String) (fs' : FileSystem) : Prop :=
  paths.foldlM FileSystem.createDirectory fs = .ok fs'

/-- Whether writing generated files into a directory, in order and each as a whole, leads from one
file system to another. -/
def Stores (directory : String) (fs : FileSystem) (sources : List Matlab.Source)
    (fs' : FileSystem) : Prop :=
  sources.foldlM (fun fs s ↦ fs.write (Path.join directory s.name) (Utf8.bytes s.text)) fs =
    .ok fs'

theorem creates_nil (fs : FileSystem) : Creates fs [] fs :=
  rfl

/-- One more directory after the others. -/
theorem Creates.snoc {fs between fs' : FileSystem} {paths : List String} {path : String}
    (h : Creates fs paths between) (hpath : between.createDirectory path = .ok fs') :
    Creates fs (paths ++ [path]) fs' := by
  show List.foldlM _ _ _ = _
  rw [List.foldlM_append, bind_eq_ok_iff]
  refine ⟨between, h, ?_⟩
  rw [List.foldlM_cons, bind_eq_ok_iff]
  exact ⟨fs', hpath, rfl⟩

theorem stores_nil (directory : String) (fs : FileSystem) : Stores directory fs [] fs :=
  rfl

/-- One more file before the others. -/
theorem Stores.cons {directory : String} {fs between fs' : FileSystem} {s : Matlab.Source}
    {sources : List Matlab.Source} (h : Stores directory between sources fs')
    (hs : fs.write (Path.join directory s.name) (Utf8.bytes s.text) = .ok between) :
    Stores directory fs (s :: sources) fs' := by
  show List.foldlM _ _ _ = _
  rw [List.foldlM_cons, bind_eq_ok_iff]
  exact ⟨between, hs, h⟩

/-- Whether one file system becomes another when generated files are stored up to a step that is
refused: of the directories on the path some are created, from the outermost in, and then some of
the files are written, but not all. -/
inductive StoredInPart (output : String) (sources : List Matlab.Source) (fs fs' : FileSystem) : Prop
  | intro {created : List String} {between : FileSystem} {written rest : List Matlab.Source}
      (paths : created.Sublist ((Path.ofText output :: (Path.ofText output).ancestors).map
        Path.text).reverse)
      (directories : Creates fs created between) (order : sources = written ++ rest)
      (unfinished : rest ≠ []) (files : Stores output between written fs')

/-- A place that is in use by a file is the only error, and looking it up changes nothing. -/
theorem of_acceptDirectory {path : String} {err : FileError} {r : Except Fault Unit}
    (h : w.perform (acceptDirectory path err) = (r, w')) :
    w' = w ∧ ∀ e, r = .error e → e = .file (.access err) := by
  unfold acceptDirectory at h
  rcases perform_bind_cases h with ⟨e, hlook, -⟩ | ⟨isDirectory, w₁, hlook, hrest⟩
  · cases hlook
  · obtain rfl : w₁ = w := still_lift (fun _ ↦ rfl) |>.eq hlook
    cases isDirectory with
    | true =>
      cases hrest
      exact ⟨rfl, fun e he ↦ by cases he⟩
    | false =>
      cases hrest
      exact ⟨rfl, fun e he ↦ (Except.error.inj he).symm⟩

/-- A directory is created or refused; here the refusal is a result, as the caller looks at it. -/
theorem perform_createDirectory (path : String) (w : World) :
    (∃ files, w.files.createDirectory path = .ok files ∧
      w.perform (ExceptT.lift (Host.createDirectory path)) = (.ok (.ok ()), { w with files })) ∨
    ∃ err, w.files.createDirectory path = .error err ∧
      w.perform (ExceptT.lift (Host.createDirectory path)) = (.ok (.error err), w) :=
  perform_lift_change (fun fs ↦ fs.createDirectory path) w

/-- A file is written as a whole or not at all. -/
theorem perform_write (path : String) (bs : List UInt8) (w : World) :
    (∃ files, w.files.write path bs = .ok files ∧
      w.perform (attempt .access (Host.write path bs)) = (.ok (), { w with files })) ∨
    ∃ err, w.files.write path bs = .error err ∧
      w.perform (attempt .access (Host.write path bs)) = (.error (.file (.access err)), w) :=
  perform_attempt_change .access (fun fs ↦ fs.write path bs) w

theorem perform_write_of_ok {path : String} {bs : List UInt8} {files : FileSystem}
    (h : w.files.write path bs = .ok files) :
    w.perform (attempt .access (Host.write path bs)) = (.ok (), { w with files }) := by
  rcases perform_write path bs w with ⟨files', hwrite, hdone⟩ | ⟨err, hwrite, -⟩
  · cases hwrite.symm.trans h
    exact hdone
  · cases hwrite.symm.trans h

theorem perform_write_of_error {path : String} {bs : List UInt8} {err : FileError}
    (h : w.files.write path bs = .error err) :
    w.perform (attempt .access (Host.write path bs)) = (.error (.file (.access err)), w) := by
  rcases perform_write path bs w with ⟨files', hwrite, -⟩ | ⟨err', hwrite, hdone⟩
  · cases hwrite.symm.trans h
  · cases hwrite.symm.trans h
    exact hdone

/-- **Creating a directory with its parents** creates some of them, from the outermost in, also
when it is refused. -/
theorem creates_of_ensureDirectories {ps : List Path} {r : Except Fault Unit}
    (h : w.perform (ensureDirectories ps) = (r, w')) :
    ∃ created, created.Sublist (ps.map Path.text).reverse ∧ Creates w.files created w'.files ∧
      ∀ e, r = .error e → ∃ err, e = .file (.access err) := by
  induction ps generalizing w w' r with
  | nil =>
    cases h
    exact ⟨[], List.nil_sublist _, creates_nil _, fun e he ↦ by cases he⟩
  | cons p ps ih =>
    have hreverse : ((p :: ps).map Path.text).reverse = (ps.map Path.text).reverse ++ [p.text] := by
      rw [List.map_cons, List.reverse_cons]
    rw [hreverse]
    rw [ensureDirectories] at h
    split at h
    · cases h
      exact ⟨[], List.nil_sublist _, creates_nil _, fun e he ↦ by cases he⟩
    rcases perform_createDirectory p.text w with ⟨files, hcreate, hdone⟩ | ⟨err, hcreate, hdone⟩
    · have h := (perform_bind_of_ok hdone).symm.trans h
      cases h
      exact ⟨[p.text], List.sublist_append_right _ _, (creates_nil _).snoc hcreate, fun e he ↦
        by cases he⟩
    · have h := (perform_bind_of_ok hdone).symm.trans h
      by_cases herr : err = .notFound
      · subst herr
        -- the parents first, and then once more
        rcases perform_bind_cases h with ⟨e, hparents, rfl⟩ | ⟨u, w₁, hparents, hlast⟩
        · obtain ⟨created, hsub, hcreates, herror⟩ := ih hparents
          exact ⟨created, hsub.trans (List.sublist_append_left _ _), hcreates, fun e' he ↦
            herror e' (by cases he; rfl)⟩
        · obtain ⟨created, hsub, hcreates, -⟩ := ih hparents
          rcases perform_createDirectory p.text w₁ with
            ⟨files, hcreate, hdone⟩ | ⟨err, hcreate, hdone⟩
          · have hlast := (perform_bind_of_ok hdone).symm.trans hlast
            cases hlast
            exact ⟨created ++ [p.text], hsub.append (List.Sublist.refl _),
              hcreates.snoc hcreate, fun e he ↦ by cases he⟩
          · have hlast := (perform_bind_of_ok hdone).symm.trans hlast
            obtain ⟨rfl, herror⟩ := of_acceptDirectory hlast
            exact ⟨created, hsub.trans (List.sublist_append_left _ _), hcreates, fun e he ↦
              ⟨err, herror e he⟩⟩
      · have haccept : w.perform (acceptDirectory p.text err) = (r, w') := by
          cases err <;> first | exact absurd rfl herr | exact h
        obtain ⟨rfl, herror⟩ := of_acceptDirectory haccept
        exact ⟨[], List.nil_sublist _, creates_nil _, fun e he ↦ ⟨err, herror e he⟩⟩

/-- **Writing generated files** writes those before the first that is refused. -/
theorem stores_of_writeSources {directory : String} {sources : List Matlab.Source}
    {r : Except Fault (List String)}
    (h : w.perform (writeSources directory sources) = (r, w')) :
    ∃ written rest, sources = written ++ rest ∧ Stores directory w.files written w'.files ∧
      ∀ e, r = .error e → rest ≠ [] ∧ ∃ err, e = .file (.access err) := by
  induction sources generalizing w w' r with
  | nil =>
    cases h
    exact ⟨[], [], rfl, stores_nil _ _, fun e he ↦ by cases he⟩
  | cons s sources ih =>
    rw [writeSources] at h
    rcases hwrite : w.files.write (Path.join directory s.name) (Utf8.bytes s.text) with err | files
    · cases (perform_bind_of_error (perform_write_of_error hwrite)).symm.trans h
      refine ⟨[], s :: sources, rfl, stores_nil _ _, fun e he ↦ ?_⟩
      cases he
      exact ⟨List.cons_ne_nil _ _, err, rfl⟩
    · rw [perform_bind_of_ok (perform_write_of_ok hwrite)] at h
      rcases perform_bind_cases h with ⟨e, hrest, rfl⟩ | ⟨paths, w₁, hrest, hlast⟩
      · obtain ⟨written, rest, hsources, hstores, herror⟩ := ih hrest
        exact ⟨s :: written, rest, congrArg (s :: ·) hsources, hstores.cons hwrite, fun e' he ↦
          herror e' (by cases he; rfl)⟩
      · obtain ⟨written, rest, hsources, hstores, -⟩ := ih hrest
        cases hlast
        exact ⟨s :: written, rest, congrArg (s :: ·) hsources, hstores.cons hwrite, fun e he ↦
          by cases he⟩
/-- Files are written up to the first that is refused. -/
theorem perform_writeSources_of_error {directory : String} {written rest : List Matlab.Source}
    {s : Matlab.Source} {fs : FileSystem} {err : FileError}
    (hstores : Stores directory w.files written fs)
    (hs : fs.write (Path.join directory s.name) (Utf8.bytes s.text) = .error err) :
    w.perform (writeSources directory (written ++ s :: rest)) =
      (.error (.file (.access err)), { w with files := fs }) := by
  induction written generalizing w with
  | nil =>
    cases hstores
    exact perform_bind_of_error (perform_write_of_error hs)
  | cons t written ih =>
    unfold Stores at hstores
    rw [List.foldlM_cons, bind_eq_ok_iff] at hstores
    obtain ⟨between, ht, hstores⟩ := hstores
    refine (perform_bind_of_ok (perform_write_of_ok ht)).trans (perform_bind_of_error ?_)
    exact ih (w := { w with files := between }) hstores

/-! ### What is spared -/

/-- Whether a place shows what it did, or a directory where there was nothing. -/
theorem Creates.shown {fs fs' : FileSystem} {paths : List String} (h : Creates fs paths fs')
    (place : Place) : fs'.shown? place = fs.shown? place ∨
      fs.shown? place = none ∧ fs'.shown? place = some .directory := by
  induction paths generalizing fs with
  | nil =>
    cases h
    exact .inl rfl
  | cons path paths ih =>
    unfold Creates at h
    rw [List.foldlM_cons, bind_eq_ok_iff] at h
    obtain ⟨between, hpath, hpaths⟩ := h
    obtain ⟨changed, hnone, hchange⟩ := FileSystem.of_createDirectory hpath
    by_cases hplace : place = changed
    · subst hplace
      rcases ih hpaths with hsame | ⟨hnone', -⟩
      · exact .inr ⟨hnone, hsame.trans hchange.here⟩
      · cases hnone'.symm.trans hchange.here
    · rw [← hchange.elsewhere place hplace]
      exact ih hpaths

/-- Whether a place shows what it did, or one of some files where there was a file or nothing. -/
theorem Stores.shown {directory : String} {fs fs' : FileSystem} {sources : List Matlab.Source}
    (h : Stores directory fs sources fs') (place : Place) : fs'.shown? place = fs.shown? place ∨
      (fs.shown? place = none ∨ ∃ c, fs.shown? place = some (.file c)) ∧
        ∃ s ∈ sources, fs'.shown? place = some (.file (.ofBytes (Utf8.bytes s.text))) := by
  induction sources generalizing fs with
  | nil =>
    cases h
    exact .inl rfl
  | cons s sources ih =>
    unfold Stores at h
    rw [List.foldlM_cons, bind_eq_ok_iff] at h
    obtain ⟨between, hs, hsources⟩ := h
    have hlater : ∀ {shown : Option Shown}, (∃ s ∈ sources, shown =
        some (.file (.ofBytes (Utf8.bytes s.text)))) → ∃ t ∈ s :: sources, shown =
          some (.file (.ofBytes (Utf8.bytes t.text))) := by
      rintro _ ⟨t, ht, hshown⟩
      exact ⟨t, List.mem_cons_of_mem s ht, hshown⟩
    -- a device swallows the file; otherwise one place has changed
    rcases FileSystem.of_write hs with rfl | ⟨changed, hroom, hchange⟩
    · exact (ih hsources).imp_right fun ⟨hroom, hfile⟩ ↦ ⟨hroom, hlater hfile⟩
    · by_cases hplace : place = changed
      · subst hplace
        refine .inr ⟨hroom, ?_⟩
        -- a later file of the same name replaces this one
        rcases ih hsources with hsame | ⟨-, hfile⟩
        · exact ⟨s, List.mem_cons_self, hsame.trans hchange.here⟩
        · exact hlater hfile
      · rw [← hchange.elsewhere place hplace]
        exact (ih hsources).imp_right fun ⟨hroom, hfile⟩ ↦ ⟨hroom, hlater hfile⟩

/-- Whether nothing is lost from one file system to another: every place shows what it did, or a
directory where there was nothing, or one of some generated files, as a whole, where there was a
file or nothing. -/
def Spares (sources : List Matlab.Source) (fs fs' : FileSystem) : Prop :=
  ∀ place, fs'.shown? place = fs.shown? place ∨
    fs.shown? place = none ∧ fs'.shown? place = some .directory ∨
    (fs.shown? place = none ∨ ∃ c, fs.shown? place = some (.file c)) ∧
      ∃ s ∈ sources, fs'.shown? place = some (.file (.ofBytes (Utf8.bytes s.text)))

/-- Files that were stored in part are at their places, and nothing else has changed. -/
theorem StoredInPart.spares {output : String} {fs fs' : FileSystem}
    {sources : List Matlab.Source} (h : StoredInPart output sources fs fs') :
    Spares sources fs fs' := by
  obtain ⟨-, hcreates, rfl, -, hstores⟩ := h
  intro place
  rcases hstores.shown place with hsame | ⟨hroom, s, hs, hshown⟩
  · rw [hsame]
    exact (hcreates.shown place).imp_right .inl
  · rcases hcreates.shown place with hsame | ⟨hnone, -⟩
    · rw [← hsame]
      exact .inr (.inr ⟨hroom, s, List.mem_append_left _ hs, hshown⟩)
    · exact .inr (.inr ⟨.inl hnone, s, List.mem_append_left _ hs, hshown⟩)

/-! ### Commands that fail -/

/-- Printing line after line cannot fail. -/
theorem total_forM (texts : List String) (line : String → String) :
    Total (texts.forM fun text ↦ (printLine (line text) : Action (StateM World) Unit)) := by
  induction texts with
  | nil => exact total_pure ()
  | cons text texts ih => exact (total_printLine _).bind fun _ ↦ ih

theorem of_result {α : Type} {x : Except Fault α} {r : Except Fault α}
    (h : w.perform (result x) = (r, w')) : w' = w ∧ x = r := by
  refine ⟨(still_result x).eq h, ?_⟩
  rcases x with e | a <;> cases h <;> rfl

/-- Files that have been generated are stored in part when storing them fails. -/
theorem storedInPart_of_error {output : String} {sources : List Matlab.Source}
    (hne : sources ≠ []) {report : List String → Action (StateM World) Unit}
    (hreport : ∀ paths, Total (report paths))
    (h : w.perform (do
      ensureDirectories (Path.ofText output :: (Path.ofText output).ancestors)
      let paths ← writeSources output sources
      report paths) = (.error e, w')) :
    ∃ err, e = .file (.access err) ∧ StoredInPart output sources w.files w'.files := by
  rcases perform_bind_cases h with ⟨_, hcreate, he⟩ | ⟨_, w₁, hcreate, hrest⟩
  · obtain ⟨created, hpaths, hcreates, herror⟩ := creates_of_ensureDirectories hcreate
    obtain ⟨err, rfl⟩ := herror _ rfl
    exact ⟨err, Except.error.inj he,
      .intro hpaths hcreates (List.nil_append sources).symm hne (stores_nil _ _)⟩
  · obtain ⟨created, hpaths, hcreates, -⟩ := creates_of_ensureDirectories hcreate
    rcases perform_bind_cases hrest with ⟨_, hwrite, he⟩ | ⟨paths, w₂, -, hlast⟩
    · obtain ⟨written, rest, horder, hstores, herror⟩ := stores_of_writeSources hwrite
      obtain ⟨hunfinished, err, rfl⟩ := herror _ rfl
      exact ⟨err, Except.error.inj he, .intro hpaths hcreates horder hunfinished hstores⟩
    · exact absurd hlast (hreport paths).ne_error

/-- **Storing generated functions** fails without a change before there are any, and then in
part. -/
theorem storedInPart_of_storeSources {schema output : String} {root : Option String}
    {jsonMode : Bool} (h : w.perform (storeSources schema output root jsonMode) = (.error e, w')) :
    w'.files = w.files ∨ ∃ s t sources err, w.perform (readSchema schema) = (.ok s, w) ∧
      s.selectRoot root = .ok t ∧ Matlab.generate s t = .ok sources ∧
      e = .file (.access err) ∧ StoredInPart output sources w.files w'.files := by
  unfold storeSources at h
  -- three checks that change nothing come first
  rcases perform_bind_cases h with ⟨_, hread, -⟩ | ⟨s, w₁, hread, hrest₁⟩
  · exact .inl (congrArg World.files ((still_readSchema schema).eq hread))
  have hw₁ : w₁ = w := (still_readSchema schema).eq hread
  rw [hw₁] at hread hrest₁
  rcases perform_bind_cases hrest₁ with ⟨_, hroot, -⟩ | ⟨t, w₂, hroot, hrest₂⟩
  · exact .inl (congrArg World.files (of_result hroot).1)
  obtain ⟨hw₂, hroot⟩ := of_result hroot
  rw [hw₂] at hrest₂
  rcases perform_bind_cases hrest₂ with ⟨_, hgenerate, -⟩ | ⟨sources, w₃, hgenerate, hrest₃⟩
  · exact .inl (congrArg World.files (of_result hgenerate).1)
  obtain ⟨hw₃, hgenerate⟩ := of_result hgenerate
  rw [hw₃] at hrest₃
  have hne : sources ≠ [] := by
    obtain ⟨g, d, rootTag, ident, g', -, -, -, -, -, rfl⟩ := Matlab.generate_eq_ok_iff.1 hgenerate
    exact List.append_ne_nil_of_right_ne_nil _ (List.cons_ne_nil _ _)
  have hreport : ∀ paths : List String, Total (if jsonMode = true then
      (printLine (Json.pretty (.object [("root", .string t.name),
        ("files", .array (paths.map .string))])) : Action (StateM World) Unit)
      else do
        printLine s!"Generated {paths.length} files for {t.name}:"
        paths.forM fun path ↦ printLine s!"  {path}") := by
    intro paths
    split_ifs
    · exact total_printLine _
    · exact (total_printLine _).bind fun _ ↦ total_forM paths _
  obtain ⟨err, he, hstored⟩ := storedInPart_of_error hne hreport hrest₃
  exact .inr ⟨s, t, sources, err, hread, hroot, hgenerate, he, hstored⟩

/-- **What a failed command leaves behind.** A command that stores one file, or none, has changed no
file and no directory when it fails. One that stores generated functions has changed nothing either
unless the functions were generated and the file system refused to store them. Then they are stored
in part, and whatever was there before is still there, except for files that were replaced by
generated ones of the same name. -/
theorem files_of_failed (i : Invocation) (w w' : World) (e : Fault)
    (h : w.perform i.run = (.error e, w')) :
    ((∀ schema output root, i.command ≠ .generate schema output root) → w'.files = w.files) ∧
    ∀ schema output root, i.command = .generate schema output root → w'.files = w.files ∨
      ∃ s t sources err, w.perform (readSchema schema) = (.ok s, w) ∧
        s.selectRoot root = .ok t ∧ Matlab.generate s t = .ok sources ∧
        e = .file (.access err) ∧ StoredInPart output sources w.files w'.files ∧
        Spares sources w.files w'.files := by
  refine ⟨fun hother ↦ atomic_run i hother w e w' h, fun schema output root hcommand ↦ ?_⟩
  have hstore : w.perform (storeSources schema output root i.jsonMode) = (.error e, w') := by
    unfold Invocation.run at h
    rwa [hcommand] at h
  refine (storedInPart_of_storeSources hstore).imp_right ?_
  rintro ⟨s, t, sources, err, hread, hroot, hgenerate, he, hstored⟩
  exact ⟨s, t, sources, err, hread, hroot, hgenerate, he, hstored, hstored.spares⟩

end Command

/-! ### A blocked file

A type without fields is to be stored in a directory in which another directory stands in the place
of the second file. -/

namespace Toml.Token

/-- Scanning with a bound on the number of tokens, which can be computed. -/
def scanWithin : Nat → List Token → List Char → Option (List Token)
  | _, done, [] => some done.reverse
  | 0, _, _ :: _ => none
  | n + 1, done, c :: cs =>
    match next? (c :: cs) with
    | some (some t, rest) => scanWithin n (t :: done) rest
    | some (none, rest) => scanWithin n done rest
    | none => none

/-- As many steps as there are characters are enough for the scanner. The counted form is the one
that evaluates. -/
theorem scan_eq_scanWithin {n : Nat} {done : List Token} {cs : List Char} (h : cs.length ≤ n) :
    scan done cs = scanWithin n done cs := by
  induction n generalizing done cs with
  | zero =>
    obtain rfl : cs = [] := List.length_eq_zero_iff.1 (Nat.le_zero.1 h)
    rw [scan, scanWithin]
  | succ n ih =>
    cases cs with
    | nil => rw [scan, scanWithin]
    | cons c cs =>
      rw [scan, scanWithin]
      split
      · rename_i hnext
        rw [hnext]
      · rename_i t rest hnext
        have hlt := length_lt_of_next?_eq_some hnext
        rcases t with - | t
        · simp only [hnext]
          exact ih (by omega)
        · simp only [hnext]
          exact ih (by omega)

end Toml.Token

namespace Command

def planText : String :=
  "types=[\x7bname=\"P\"\x7d]"

def planType : TypeDef :=
  ⟨"P", []⟩

def planSchema : Schema :=
  ⟨none, [planType], by decide⟩

/-- The schema of the example, read from its text. -/
theorem ofText_plan : Schema.ofText planText = .ok planSchema := by
  have hscan : Toml.Token.scan [] (Toml.withoutMark planText.toList) =
      Toml.Token.scanWithin 20 [] (Toml.withoutMark planText.toList) :=
    Toml.Token.scan_eq_scanWithin (by decide)
  unfold Schema.ofText Toml.parse?
  rw [hscan]
  cbv

def planDictionary : Dictionary :=
  ⟨#[⟨12, "P", []⟩], 12⟩

/-- The first of the files. -/
def planRead : Matlab.Source :=
  ⟨"read_P.m", [.function (some "s") "read_P" ["fid"] (Matlab.TypeCode.start planType "P").reads]⟩

/-- What is generated for it, as far as the first two files. -/
theorem exists_generate_plan : ∃ code rest, Matlab.generate planSchema planType =
    .ok ([planRead] ++ ⟨"write_P.m", code⟩ :: rest) := by
  have hname : planType.simpleName = "P" := by cbv
  have hwalk : planSchema.walk planType = ⟨[.beginType none planType, .endType none], .ok ()⟩ := by
    cbv
  have hgenerate := Matlab.generate_of_walk (d := planDictionary) hwalk (by cbv) (by cbv) (by cbv)
  rw [hname] at hgenerate
  exact ⟨_, _, hgenerate⟩

def blockedFiles (stored : List (String × FileNode)) : FileSystem :=
  ⟨[("s.toml", .file (.ofBytes (Utf8.bytes planText))),
    ("out", .directory (("write_P.m", .directory []) :: stored))], []⟩

def blockedWorld (stored : List (String × FileNode)) : World :=
  ⟨blockedFiles stored, .ofLocal 0 0 0 0 0 0, ""⟩

/-- What stands in the directory after the first file. -/
def planStored : List (String × FileNode) :=
  [("read_P.m", .file (.ofBytes (Utf8.bytes planRead.text)))]

/-- The schema is read in the world of the example. -/
theorem readSchema_blocked :
    (blockedWorld []).perform (readSchema "s.toml") = (.ok planSchema, blockedWorld []) := by
  have hinput : (blockedWorld []).perform (readInput "s.toml" maxSchemaSize) =
      (.ok (Utf8.bytes planText), blockedWorld []) := by cbv
  unfold readSchema
  rw [perform_bind_of_ok hinput, Utf8.decode_bytes]
  show (blockedWorld []).perform (result (Schema.ofText planText)) = _
  rw [ofText_plan]
  rfl

theorem selectRoot_plan : planSchema.selectRoot (some "P") = .ok planType := by
  cbv

theorem selectRoot_blocked : (blockedWorld []).perform
    (result (planSchema.selectRoot (some "P"))) = (.ok planType, blockedWorld []) := by
  rw [selectRoot_plan]
  rfl

/-- The first file is stored and stays there; the second cannot be. -/
theorem perform_generate_blocked :
    (blockedWorld []).perform (Invocation.run ⟨.generate "s.toml" "out" (some "P"), false, false⟩) =
      (.error (.file (.access .isDirectory)), blockedWorld planStored) := by
  obtain ⟨code, rest, hsources⟩ := exists_generate_plan
  have hgenerate : (blockedWorld []).perform (result (Matlab.generate planSchema planType)) =
      (.ok ([planRead] ++ ⟨"write_P.m", code⟩ :: rest), blockedWorld []) := by
    rw [hsources]
    rfl
  have hdirectory : (blockedWorld []).perform (ensureDirectories
      (Path.ofText "out" :: (Path.ofText "out").ancestors)) = (.ok (), blockedWorld []) := by cbv
  have hread : ∀ bs, (blockedFiles []).write "out/read_P.m" bs =
      .ok (blockedFiles [("read_P.m", .file (.ofBytes bs))]) := by
    intro bs
    cbv
  have hwrite : ∀ n bs, (blockedFiles [("read_P.m", n)]).write "out/write_P.m" bs =
      .error .isDirectory := by
    intro n bs
    cbv
  show (blockedWorld []).perform (storeSources "s.toml" "out" (some "P") false) = _
  unfold storeSources
  rw [perform_bind_of_ok readSchema_blocked, perform_bind_of_ok selectRoot_blocked,
    perform_bind_of_ok hgenerate]
  refine (perform_bind_of_ok hdirectory).trans (perform_bind_of_error ?_)
  exact perform_writeSources_of_error ((stores_nil _ _).cons (hread _)) (hwrite _ _)

/-- An input that there is not is refused before anything is written. -/
theorem perform_encode_blocked : (blockedWorld []).perform
    (Invocation.run ⟨.encode "s.toml" "v.json" "v.bin" (some "P"), false, false⟩) =
      (.error (.file (.inputPath "v.json" .notFound)), blockedWorld []) := by
  have hrecord : (blockedWorld []).perform (readRecord planSchema planType "v.json") =
      (.error (.file (.inputPath "v.json" .notFound)), blockedWorld []) :=
    perform_bind_of_error (by cbv)
  show (blockedWorld []).perform (storeImage "s.toml" "v.json" "v.bin" (some "P")) = _
  unfold storeImage
  rw [perform_bind_of_ok readSchema_blocked, perform_bind_of_ok selectRoot_blocked]
  exact perform_bind_of_error hrecord

theorem files_of_failed_blocked :
    (∃ e w', (blockedWorld []).perform (Invocation.run
      ⟨.encode "s.toml" "v.json" "v.bin" (some "P"), false, false⟩) = (.error e, w') ∧
        w'.files = blockedFiles []) ∧
    ∃ e w' sources, (blockedWorld []).perform (Invocation.run
      ⟨.generate "s.toml" "out" (some "P"), false, false⟩) = (.error e, w') ∧
        Matlab.generate planSchema planType = .ok sources ∧
        StoredInPart "out" sources (blockedFiles []) w'.files ∧
        Spares sources (blockedFiles []) w'.files := by
  obtain ⟨hkept, -⟩ := files_of_failed _ _ _ _ perform_encode_blocked
  obtain ⟨-, hpart⟩ := files_of_failed _ _ _ _ perform_generate_blocked
  refine ⟨⟨_, _, perform_encode_blocked, hkept (by rintro _ _ _ ⟨⟩)⟩, ?_⟩
  rcases hpart _ _ _ rfl with hsame | ⟨s, t, sources, err, hread, hroot, hgenerate, -, hstored⟩
  · cases hsame
  · obtain rfl : planSchema = s :=
      Except.ok.inj (congrArg Prod.fst (readSchema_blocked.symm.trans hread))
    obtain rfl : planType = t := Except.ok.inj (selectRoot_plan.symm.trans hroot)
    exact ⟨_, _, sources, perform_generate_blocked, hgenerate, hstored⟩

/-- Whether a command stores anything. -/
def stores : Command → Bool
  | .encode .. | .exportMat .. | .generate .. => true
  | .dictionary .. | .decode .. | .digest .. => false

/-- A command that fails may have stored something: what has been stored is not removed. -/
theorem not_forall_failed_shown : ¬∀ (i : Invocation) (w w' : World) (e : Fault),
    i.command.stores = true → w.perform i.run = (.error e, w') →
      ∀ place, w'.files.shown? place = w.files.shown? place := by
  intro h
  have hsame := h _ _ _ _ rfl perform_generate_blocked ["out", "read_P.m"]
  cases hsame

end Command

end GraphCodec
