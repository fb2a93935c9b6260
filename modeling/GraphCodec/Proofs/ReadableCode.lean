import GraphCodec.Proofs.CodeReader
import GraphCodec.Proofs.TypeFunctions

/-!
# Code of fields is readable

The statements that read and write a field are readable, one by one, so their text is read as these
statements. The same is then shown for whole files in `GraphCodec.Proofs.ReadableFiles`.

Names of fields and the identifiers of types are parts of names. Every name that is put together in
this way has an underscore, so it is no word of the language, and its first letters say whether it
is a variable for values. Nothing else has to be known of fields and types here.
-/

namespace GraphCodec

namespace Matlab

/-! ### Names -/

/-- The characters of identifiers are those of words. -/
theorem IdentifierChars.wordChars {s : String} (h : IdentifierChars s) : WordChars s := by
  intro c hc
  rw [isWordChar, Bool.or_eq_true, beq_iff_eq]
  exact h c hc

/-- So are the digits of a number. -/
theorem wordChars_toString (n : Nat) : WordChars (toString n) := by
  rw [toString_nat, WordChars, toList_integerText_natCast]
  have hdigits := (isWord_digits n).2
  rwa [WordChars, String.toList_ofList] at hdigits

/-- An identifier is a word. -/
theorem isWord_of_isIdentifier {s : String} (h : isIdentifier s = true) : IsWord s := by
  obtain ⟨⟨c, hc, -⟩, hparts, -⟩ := isIdentifier_iff.1 h
  exact ⟨List.ne_nil_of_mem (List.mem_of_mem_head? hc), IdentifierChars.wordChars hparts⟩

/-- A text with an underscore is no word of the language. -/
theorem isName_of_underscore {front back : String} (hfront : WordChars front)
    (hback : WordChars back) (hhead : ∀ c ∈ front.toList.head?, c.isDigit = false)
    (hmem : '_' ∈ front.toList) : IsName (front ++ back) := by
  have hmem' : '_' ∈ (front ++ back).toList := by
    rw [String.toList_append]
    exact List.mem_append_left _ hmem
  refine ⟨⟨List.ne_nil_of_mem hmem', hfront.append hback⟩, fun c hc ↦ hhead c ?_, fun h ↦ ?_⟩
  · rwa [String.toList_append, List.head?_append_of_ne_nil _ (List.ne_nil_of_mem hmem)] at hc
  · have hkeywords : ∀ k ∈ keywords, '_' ∉ k.toList := by decide
    exact hkeywords _ h hmem'

/-- What a name begins with decides whether it is a variable for values. -/
theorem holdsValue_append {front : String} (h : front.toList ≠ []) (back : String) :
    holdsValue (front ++ back) = holdsValue front := by
  rw [holdsValue, holdsValue, String.toList_append, List.head?_append_of_ne_nil _ h]

/-- Whether a text is a name by itself. -/
def isPlainName (s : String) : Bool :=
  s.toList.all isWordChar && s.toList.head?.any (!·.isDigit) && !keywords.contains s

/-- The names in the generator's own code can be checked one by one. -/
theorem isName_of_isPlainName {s : String} (h : isPlainName s = true) : IsName s := by
  rw [isPlainName, Bool.and_eq_true, Bool.and_eq_true, List.all_eq_true, Bool.not_eq_true',
    List.contains_eq_mem, decide_eq_false_iff_not] at h
  obtain ⟨⟨hword, hhead⟩, hkeyword⟩ := h
  cases hs : s.toList with
  | nil =>
    rw [hs] at hhead
    cases hhead
  | cons c cs =>
    rw [hs] at hhead
    have hc : (!c.isDigit) = true := hhead
    refine ⟨⟨hs ▸ List.cons_ne_nil c cs, hword⟩, fun d hd ↦ ?_, hkeyword⟩
    rw [hs] at hd
    rw [← Option.some.inj hd]
    simpa using hc

/-- Whether a text is the front of names that are put together. -/
def isFront (s : String) : Bool :=
  s.toList.all isWordChar && s.toList.head?.all (!·.isDigit) && s.toList.contains '_'

/-- What is checked of the front of a composed name: its characters, the first of them, and its
underscore. -/
theorem isFront_iff {s : String} : isFront s = true ↔
    (WordChars s ∧ ∀ c ∈ s.toList.head?, c.isDigit = false) ∧ '_' ∈ s.toList := by
  rw [isFront, Bool.and_eq_true, Bool.and_eq_true, List.all_eq_true, List.contains_eq_mem,
    decide_eq_true_eq, Option.all_eq_true]
  simp only [Bool.not_eq_true']
  rfl

/-- A front with an underscore makes a name of whatever follows; no word of blocks has one. -/
theorem isName_append {front back : String} (hfront : isFront front = true)
    (hback : WordChars back) : IsName (front ++ back) := by
  obtain ⟨⟨hword, hhead⟩, hmem⟩ := isFront_iff.1 hfront
  exact isName_of_underscore hword hback hhead hmem

/-! ### Parts of code -/

theorem readableCode_nil : ReadableCode [] :=
  fun _ h ↦ absurd h List.not_mem_nil

theorem readableCode_cons {s : Stmt} {code : List Stmt} (hs : s.Readable)
    (hcode : ReadableCode code) : ReadableCode (s :: code) :=
  List.forall_mem_cons.2 ⟨hs, hcode⟩

theorem ReadableCode.append {as bs : List Stmt} (ha : ReadableCode as) (hb : ReadableCode bs) :
    ReadableCode (as ++ bs) :=
  List.forall_mem_append.2 ⟨ha, hb⟩

/-- Code that is made piece by piece is readable if the pieces are. -/
theorem readableCode_flatMap {α : Type} {code : α → List Stmt} {as : List α}
    (h : ∀ a ∈ as, ReadableCode (code a)) : ReadableCode (as.flatMap code) := by
  intro s hs
  obtain ⟨a, ha, hsa⟩ := List.mem_flatMap.1 hs
  exact h a ha s hsa

/-- Code of one statement. -/
theorem Stmt.Readable.alone {s : Stmt} (h : s.Readable) : ReadableCode [s] :=
  readableCode_cons h readableCode_nil

variable {closed : Bool}

/-- A call of a function with a plain name. -/
theorem readable_call {f : String} {args : List Expr}
    (hf : (isPlainName f && !holdsValue f) = true) (hargs : args.Forall (Expr.Readable false)) :
    (Expr.call f args).Readable closed := by
  rw [Bool.and_eq_true, Bool.not_eq_true'] at hf
  exact .call (isName_of_isPlainName hf.1) hf.2 (List.forall_iff_forall_mem.1 hargs)

theorem readable_name {s : String} (h : isPlainName s = true) : (Expr.name s).Readable closed :=
  .name (isName_of_isPlainName h)

theorem readable_file : file.Readable closed :=
  readable_name rfl

theorem readable_fread {n : Expr} {p : String} (hn : n.Readable false) (hp : Unbroken p) :
    (fread n p).Readable closed :=
  readable_call rfl ⟨readable_file, hn, .text hp⟩

theorem readable_freadCount : freadCount.Readable closed :=
  readable_fread (.number 1) rfl

theorem readable_fwrite {v : Expr} {p : String} (hv : v.Readable false) (hp : Unbroken p) :
    (fwrite v p).Readable :=
  .run (readable_call rfl ⟨readable_file, hv, .text hp⟩)

theorem readable_numel {v : Expr} (hv : v.Readable false) : (numel v).Readable closed :=
  readable_call rfl hv

theorem readable_isEmpty {v : Expr} (hv : v.Readable false) : (isEmpty v).Readable closed :=
  readable_call rfl hv

/-- A field of the struct that is read or written. -/
theorem readable_slot {field : String} (hfield : IsWord field) : (slot field).Readable closed :=
  .field (readable_name rfl) hfield

section

variable {ident : String} (hident : WordChars ident)

include hident

/-- A call of a function for records is readable, whatever the type is called. -/
theorem readable_readRecord : (readRecord ident).Readable closed :=
  .call (isName_append rfl hident) (holdsValue_append (by decide) ident)
    (List.forall_iff_forall_mem.1 readable_file)

theorem readable_writeRecord {v : Expr} (hv : v.Readable false) :
    (writeRecord ident v).Readable :=
  .run (.call (isName_append rfl hident) (holdsValue_append (by decide) ident)
    (List.forall_iff_forall_mem.1 ⟨readable_file, hv⟩))

end

/-! ### Kinds -/

/-- Names of formats are on one line. -/
theorem unbroken_precision (k : Kind) : Unbroken (precision k) := by
  cases k <;> rfl

theorem unbroken_arrayPrecision (k : Kind) (preserve : Bool) :
    Unbroken (arrayPrecision k preserve) := by
  cases k <;> cases preserve <;> rfl

theorem unbroken_scalarPrecision (k : Kind) (preserve : Bool) :
    Unbroken (scalarPrecision k preserve) := by
  cases k <;> cases preserve <;> rfl

/-- The value for an empty slot is readable in all kinds. -/
theorem readable_readSentinel (k : Kind) (preserve : Bool) :
    (readSentinel k preserve).Readable false := by
  have hclass {e : Expr} (he : e.Readable false) :
      (if preserve then e else .call "double" [e]).Readable false := by
    split
    · exact he
    · exact readable_call rfl he
  match k with
  | .boolean => exact .number 2
  | .byte | .short => exact .number (-1)
  | .char => exact .number 255
  | .int | .long | .float => exact hclass (readable_call rfl (.text rfl))
  | .double => exact readable_name rfl
  | .string | .date | .enum => exact .text rfl

theorem readable_writeSentinel (k : Kind) : (writeSentinel k).Readable false := by
  match k with
  | .boolean => exact .number 2
  | .byte | .short => exact .number (-1)
  | .char => exact readable_call rfl (.number 255)
  | .int | .long | .float => exact readable_call rfl (.text rfl)
  | .double => exact readable_name rfl
  | .string | .date | .enum => exact .text rfl

/-- The row without items. -/
theorem readable_emptyRow : (Expr.row []).Readable closed :=
  .row fun _ h ↦ absurd h List.not_mem_nil

/-- Kinds without such a value have a comment in its place. -/
theorem readable_emptySentinel {v : Expr} (hv : v.Readable false) (k : Kind) (preserve : Bool) :
    (emptySentinel v k preserve).Readable := by
  have hsame {e : Expr} (he : e.Readable false) :
      (Expr.call "isequal" [e, readSentinel k preserve]).Readable false :=
    readable_call rfl ⟨he, readable_readSentinel k preserve⟩
  match k with
  | .char => exact .assignIf (hsame (readable_call rfl hv)) hv readable_emptyRow
  | .boolean =>
    cases preserve with
    | true => exact .assignEither (hsame hv) hv readable_emptyRow hv (readable_call rfl hv)
    | false => exact .assignIf (hsame hv) hv readable_emptyRow
  | .byte | .short | .int | .long | .float | .double | .string | .date | .enum =>
    exact .assignIf (hsame hv) hv readable_emptyRow

/-! ### Fields -/

section

variable {field : String} (hfield : IsWord field)

include hfield

/-- A variable whose name has that of the field behind a front. -/
theorem readable_variable {front : String} (hfront : isFront front = true) :
    (Expr.name (front ++ field)).Readable closed :=
  .name (isName_append hfront hfield.2)

/-- Reading a text is readable, wherever it goes. -/
theorem readableCode_readText {target : Expr} (htarget : target.Readable false) :
    ReadableCode (readText target field) := by
  have hlength : IsName ("len_" ++ field) := isName_append rfl hfield.2
  have hitems : ∀ e ∈ [Expr.number 1, .name ("len_" ++ field)], e.IsItem :=
    List.forall_iff_forall_mem.1 ⟨.number 1, .name hlength⟩
  have hbytes : (Expr.call "native2unicode" [fread (.row [.number 1, .name ("len_" ++ field)])
      (conversion "uint8" "uint8"), .text "UTF-8"]).Readable false :=
    readable_call rfl ⟨readable_fread (.row hitems) rfl, .text rfl⟩
  exact readableCode_cons (.assign (.name hlength) readable_freadCount)
    (Stmt.Readable.assign htarget hbytes).alone

theorem readableCode_writeText {source : Expr} (hsource : source.Readable false) :
    ReadableCode (writeText source field) := by
  have hbytes : (Expr.name ("b_" ++ field)).Readable false := readable_variable hfield rfl
  have htext : (Expr.call "unicode2native" [.call "char" [source], .text "UTF-8"]).Readable false :=
    readable_call rfl ⟨readable_call rfl hsource, .text rfl⟩
  exact readableCode_cons (.assign hbytes htext)
    (readableCode_cons (readable_fwrite (p := "int32") (readable_numel hbytes) rfl)
      (readable_fwrite (p := "uint8") hbytes rfl).alone)

/-- Reading a scalar is readable in all kinds, with and without a value for the empty slot. -/
theorem readableCode_readScalar (k : Kind) (preserve : Bool) :
    ReadableCode (readScalar field k preserve) := by
  have hv : (Expr.name ("v_" ++ field)).Readable false := readable_variable hfield rfl
  rw [readScalar]
  split
  · exact readableCode_readText hfield (readable_slot hfield)
  · exact readableCode_cons
      (.assign hv (readable_fread (.number 1) (unbroken_scalarPrecision k preserve)))
      (readableCode_cons (readable_emptySentinel hv k preserve)
        (Stmt.Readable.assign (readable_slot hfield) hv).alone)

theorem readableCode_writeScalar (k : Kind) : ReadableCode (writeScalar field k) := by
  have hv : (Expr.name ("v_" ++ field)).Readable false := readable_variable hfield rfl
  rw [writeScalar]
  split
  · exact readableCode_writeText hfield (readable_slot hfield)
  · exact readableCode_cons (.assign hv (readable_slot hfield))
      (readableCode_cons (.assignIf (readable_isEmpty hv) hv (readable_writeSentinel k))
        (readable_fwrite hv (unbroken_precision k)).alone)

theorem readableCode_readComposite {ident : String} (hident : WordChars ident) :
    ReadableCode (readComposite field ident) :=
  (Stmt.Readable.assign (readable_slot hfield) (readable_readRecord hident)).alone

/-- The complaint about a missing record names the owner, so the name of the owner has to be on one
line. -/
theorem readableCode_writeComposite {owner ident : String} (howner : Unbroken owner)
    (hident : WordChars ident) : ReadableCode (writeComposite owner field ident) := by
  have hcomplaint : Unbroken (owner ++ "." ++ field ++ " must not be empty") :=
    ((howner.append (t := ".") rfl).append hfield.unbroken).append (t := " must not be empty") rfl
  have herror : (Expr.call "error" [.text "persistable:emptyComposite",
      .text (owner ++ "." ++ field ++ " must not be empty")]).Readable false :=
    readable_call rfl ⟨.text rfl, .text hcomplaint⟩
  exact readableCode_cons
    (.when (readable_isEmpty (readable_slot hfield)) (Stmt.Readable.run herror).alone)
    (readable_writeRecord hident (readable_slot hfield)).alone

/-! ### Arrays -/

/-- Variables of a level are names, because their role is one. -/
theorem isName_levelName {role : String} (hrole : IsName role) (level : Nat) :
    IsName (levelName role level field) := by
  have hunderscore : WordChars "_" := by
    intro c hc
    rw [List.mem_singleton.1 hc]
    rfl
  have hword : WordChars (role ++ toString level) :=
    .append (s := role) hrole.isWord.2 (wordChars_toString level)
  have hhead : (role ++ toString level ++ "_").toList.head? = role.toList.head? := by
    rw [String.append_assoc, String.toList_append, List.head?_append_of_ne_nil _ hrole.isWord.1]
  refine isName_of_underscore (hword.append hunderscore) hfield.2
    (fun c hc ↦ hrole.head_ne c (hhead ▸ hc)) ?_
  rw [String.toList_append]
  exact List.mem_append_right _ (List.mem_singleton_self '_')

/-- The variable that holds the array of a level holds a value, and items may be picked from it. -/
theorem isName_value (level : Nat) : IsName (levelName "v" level field) ∧
    holdsValue (levelName "v" level field) = true := by
  refine ⟨isName_levelName hfield (isName_of_isPlainName rfl) level, ?_⟩
  rw [levelName, String.append_assoc, String.append_assoc, holdsValue_append (by decide)]
  rfl

theorem readable_levelValue (level : Nat) : (levelValue level field).Readable closed :=
  .name (isName_value hfield level).1

theorem readable_levelCount (level : Nat) : (levelCount level field).Readable closed :=
  .name (isName_levelName hfield (isName_of_isPlainName rfl) level)

theorem readable_levelIndex (level : Nat) : (levelIndex level field).Readable closed :=
  .name (isName_levelName hfield (isName_of_isPlainName rfl) level)

/-- An element of a dimension. -/
theorem readable_levelItem (level : Nat) :
    (Expr.item (levelValue level field) (levelIndex level field)).Readable closed :=
  .item (isName_value hfield level).1 (isName_value hfield level).2
    (readable_levelIndex hfield level)

/-- The contents of a dimension that is a cell. -/
theorem readable_levelContents (level : Nat) :
    (Expr.contents (levelValue level field) (levelIndex level field)).Readable closed :=
  .contents (readable_levelValue hfield level) (readable_levelIndex hfield level)

/-- The loop over the items of a level is readable around a readable body. -/
theorem readable_levelLoop (level : Nat) {count : Expr} {body : List Stmt}
    (hcount : count.Readable false) (hbody : ReadableCode body) :
    (levelLoop level field count body).Readable :=
  .loop (isName_levelName hfield (isName_of_isPlainName rfl) level).isWord
    (.range (.number 1) hcount) hbody

end

/-- Whether the function for the records of an array has a name. -/
def Element.Named : Element → Prop
  | .numeric .. | .text => True
  | .composite ident => WordChars ident

theorem readable_emptyArray (element : Element) : (emptyArray element).Readable closed := by
  cases element with
  | text => exact .emptyCell
  | numeric | composite => exact readable_emptyRow

/-- The room for inner arrays is readable for each sort of items. -/
theorem readable_outerArray (element : Element) {n : Expr} (hn : n.Readable false) :
    (outerArray element n).Readable closed := by
  cases element with
  | text => exact readable_call rfl ⟨.number 1, hn⟩
  | numeric | composite =>
    have hstruct : (Expr.call "struct" [.text "array", .row []]).Readable false :=
      readable_call rfl ⟨.text rfl, readable_emptyRow⟩
    exact readable_call rfl ⟨hstruct, .number 1, hn⟩

section

variable {field : String} (hfield : IsWord field) {element : Element}

include hfield

/-- The slot of an inner array is one of a variable that holds a value. -/
theorem readable_innerSlot (element : Element) (level : Nat) :
    (innerSlot element (levelValue level field) (levelIndex level field)).Readable closed := by
  have harray : IsWord "array" := (isName_of_isPlainName rfl).isWord
  cases element with
  | text => exact readable_levelContents hfield level
  | numeric | composite => exact .field (readable_levelItem hfield level) harray

/-- Reading the items of the innermost level is readable, for each sort of items. -/
theorem readableCode_readItems (helement : element.Named) (level : Nat) :
    ReadableCode (readItems field element level) := by
  have hv : (levelValue level field).Readable false := readable_levelValue hfield level
  have hn : (levelCount level field).Readable false := readable_levelCount hfield level
  match element with
  | .numeric k preserve =>
    have hitems : ∀ e ∈ [Expr.number 1, levelCount level field], e.IsItem :=
      List.forall_iff_forall_mem.1
        ⟨.number 1, .name (isName_levelName hfield (isName_of_isPlainName rfl) level)⟩
    rw [readItems.eq_def]
    split
    · exact (Stmt.Readable.assign hv (readable_fread (.row hitems) (unbroken_arrayPrecision .char false))).alone
    · exact (Stmt.Readable.assign hv
        (readable_fread hn (unbroken_arrayPrecision _ _))).alone
    all_goals contradiction
  | .text =>
    exact readableCode_cons (.assign hv (readable_call rfl ⟨.number 1, hn⟩))
      (readable_levelLoop hfield level hn
        (readableCode_readText hfield (readable_levelContents hfield level))).alone
  | .composite ident =>
    have he : (Expr.name ("e_" ++ field)).Readable false := readable_variable hfield rfl
    have hrepeat : (Expr.call "repmat" [.name ("e_" ++ field), .number 1,
        levelCount level field]).Readable false :=
      readable_call rfl ⟨he, .number 1, hn⟩
    exact (readable_levelLoop hfield level hn (readableCode_cons
      (.assign he (readable_readRecord helement))
      (Stmt.Readable.whenElse (.equal (readable_levelIndex hfield level) (.number 1))
        (Stmt.Readable.assign hv hrepeat).alone
        (Stmt.Readable.assign (readable_levelItem hfield level) he).alone).alone)).alone

/-- Writing them is readable as well. -/
theorem readableCode_writeItems (helement : element.Named) (level : Nat) :
    ReadableCode (writeItems field element level) := by
  have hv : (levelValue level field).Readable false := readable_levelValue hfield level
  match element with
  | .numeric k preserve =>
    exact (Stmt.Readable.when (.not (readable_isEmpty hv))
      (readable_fwrite hv (unbroken_precision k)).alone).alone
  | .text =>
    exact (readable_levelLoop hfield level (readable_numel hv)
      (readableCode_writeText hfield (readable_levelContents hfield level))).alone
  | .composite ident =>
    exact (readable_levelLoop hfield level (readable_numel hv)
      (readable_writeRecord helement (readable_levelItem hfield level)).alone).alone

/-- **A dimension is read back**, with those inside it. -/
theorem readableCode_readLevel (helement : element.Named) (inner level : Nat) :
    ReadableCode (readLevel field element inner level) := by
  have hcount (level : Nat) {items : List Stmt} (hitems : ReadableCode items) :
      ReadableCode [.assign (levelCount level field) freadCount,
        .whenElse (.equal (levelCount level field) (.number 0))
          [.assign (levelValue level field) (emptyArray element)] items] :=
    readableCode_cons (.assign (readable_levelCount hfield level) readable_freadCount)
      (Stmt.Readable.whenElse (.equal (readable_levelCount hfield level) (.number 0))
        (Stmt.Readable.assign (readable_levelValue hfield level)
          (readable_emptyArray element)).alone hitems).alone
  induction inner generalizing level with
  | zero =>
    rw [readLevel]
    exact hcount level (readableCode_readItems hfield helement level)
  | succ inner ih =>
    rw [readLevel]
    exact hcount level (readableCode_cons
      (.assign (readable_levelValue hfield level)
        (readable_outerArray element (readable_levelCount hfield level)))
      (readable_levelLoop hfield level (readable_levelCount hfield level)
        ((ih (level + 1)).append (Stmt.Readable.assign (readable_innerSlot hfield element level)
          (readable_levelValue hfield (level + 1))).alone)).alone)

/-- By induction on the levels that are left. -/
theorem readableCode_writeLevel (helement : element.Named) (inner level : Nat) :
    ReadableCode (writeLevel field element inner level) := by
  have hnumel (level : Nat) : (numel (levelValue level field)).Readable false :=
    readable_numel (readable_levelValue hfield level)
  induction inner generalizing level with
  | zero =>
    rw [writeLevel]
    exact readableCode_cons (readable_fwrite (hnumel level) rfl)
      (readableCode_writeItems hfield helement level)
  | succ inner ih =>
    rw [writeLevel]
    exact readableCode_cons (readable_fwrite (hnumel level) rfl)
      (readable_levelLoop hfield level (hnumel level) (readableCode_cons
        (.assign (readable_levelValue hfield (level + 1)) (readable_innerSlot hfield element level))
        (ih (level + 1)))).alone

/-- **Reading an array** is readable, of any number of dimensions and any sort of items. -/
theorem readableCode_readArray (helement : element.Named) (dims : Nat) :
    ReadableCode (readArray field dims element) :=
  (readableCode_readLevel hfield helement (dims - 1) 1).append
    (Stmt.Readable.assign (readable_slot hfield) (readable_levelValue hfield 1)).alone

/-- **Writing an array** is readable. -/
theorem readableCode_writeArray (helement : element.Named) (dims : Nat) :
    ReadableCode (writeArray field dims element) :=
  readableCode_cons (.assign (readable_levelValue hfield 1) (readable_slot hfield))
    (readableCode_writeLevel hfield helement (dims - 1) 1)

end

end Matlab

end GraphCodec
