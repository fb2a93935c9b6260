import GraphCodec.Matlab.Wrapper
import GraphCodec.Proofs.Skeleton
import GraphCodec.Proofs.Decoding

/-!
# Executing code that reads a file

What the statements of generated code do in a workspace with one open file, as far as they read
words, move in the file, compare numbers and repeat. Reading words takes four bytes for each, fewer
words if the file ends before, and moving beyond an end of the file leaves the position where it is.
A call of any other function stops the execution, and so does whatever has no meaning here.

Code *passes* some bytes if, started in front of them, it ends without an error behind them
(`Passes`). Passing composes like reading does (`Passes.bind`), also over the rounds of a loop
(`passes_forEach`).
-/

namespace GraphCodec

namespace Matlab

/-- A value. -/
inductive Val where
  | numbers (vs : List Int)
  | text (s : String)
  /-- A function or an object, which nothing is done with. -/
  | object
  deriving DecidableEq

/-- Why execution stops before the end of the code. -/
inductive Halt where
  /-- An error with an identifier. -/
  | raised (identifier : String)
  /-- The call of a function that is not part of the language. -/
  | calls (function : String)
  /-- Something without a meaning here. -/
  | stuck
  deriving DecidableEq

/-- The state of execution. -/
structure Workspace where
  /-- The name of the file. -/
  path : String
  /-- The contents of the file. -/
  bytes : List UInt8
  position : Nat
  vars : String → Option Val

namespace Workspace

/-- The bytes from the position on. -/
def rest (w : Workspace) : List UInt8 :=
  w.bytes.drop w.position

/-- Move on in the file. -/
def advance (w : Workspace) (n : Nat) : Workspace :=
  { w with position := w.position + n }

/-- The start of a function with one parameter, which is the name of a file with some contents. -/
def start (param path : String) (bytes : List UInt8) : Workspace :=
  ⟨path, bytes, 0, fun x ↦ if x = param then some (.text path) else none⟩

/-- Set a variable. -/
def set (w : Workspace) (x : String) (v : Val) : Workspace :=
  { w with vars := fun y ↦ if y = x then some v else w.vars y }

end Workspace

/-- The number of the open file. -/
def fileId : Int := 3

/-- The words that stand in bytes. -/
def wordsIn : List UInt8 → List Int
  | a :: b :: c :: d :: bs => (Word.toInt32 [a, b, c, d]).toInt :: wordsIn bs
  | _ => []

/-! ### Functions of the language -/

/-- A single number. -/
def number : Val → EStateM Halt Workspace Int
  | .numbers [v] => pure v
  | _ => throw .stuck

/-- A text. -/
def textOf : Val → EStateM Halt Workspace String
  | .text s => pure s
  | _ => throw .stuck

/-- Read words. -/
def readWords (count : Nat) : EStateM Halt Workspace Val := fun w ↦
  let bs := w.rest.take (4 * count)
  .ok (.numbers (wordsIn bs)) (w.advance bs.length)

/-- Move from where the file stands. The result tells whether this was possible. -/
def moveBy (offset : Int) : EStateM Halt Workspace Val := fun w ↦
  let target := w.position + offset
  if 0 ≤ target ∧ target ≤ w.bytes.length then
    .ok (.numbers [0]) { w with position := target.toNat }
  else .ok (.numbers [-1]) w

/-- Open the file for reading. -/
def callFopen : (args : List Val) → EStateM Halt Workspace Val
  | [.text path, .text mode, .text format] => fun w ↦
    if path = w.path ∧ mode = "r" ∧ format = "n" then
      .ok (.numbers [fileId]) { w with position := 0 }
    else .error .stuck w
  | _ => throw .stuck

/-- Read from the file, as far as words are read. -/
def callFread : (args : List Val) → EStateM Halt Workspace Val
  | [id, count, precision] => do
    let id ← number id
    let count ← number count
    let precision ← textOf precision
    if id = fileId ∧ storedForm precision = "int32" then readWords count.toNat
    else throw .stuck
  | _ => throw .stuck

/-- Move in the file, as far as this begins at the position. -/
def callFseek : (args : List Val) → EStateM Halt Workspace Val
  | [id, offset, origin] => do
    let id ← number id
    let offset ← number offset
    let origin ← textOf origin
    if id = fileId ∧ origin = "cof" then moveBy offset else throw .stuck
  | _ => throw .stuck

/-- Whether two values are the same. -/
def callIsequal : (args : List Val) → EStateM Halt Workspace Val
  | [v, v'] => pure (.numbers [if v = v' then 1 else 0])
  | _ => throw .stuck

/-- Stop with an error. -/
def callError : (args : List Val) → EStateM Halt Workspace Val
  | identifier :: _ => do
    let identifier ← textOf identifier
    throw (.raised identifier)
  | [] => throw .stuck

/-- Call a function. -/
def callFunction (function : String) (args : List Val) : EStateM Halt Workspace Val :=
  if function = "fopen" then callFopen args
  else if function = "fread" then callFread args
  else if function = "fseek" then callFseek args
  else if function = "isequal" then callIsequal args
  else if function = "error" then callError args
  else if function = "onCleanup" then pure .object
  else throw (.calls function)

section

variable (args : List Val)

theorem callFunction_fopen : callFunction "fopen" args = callFopen args := by
  simp [callFunction]

theorem callFunction_fread : callFunction "fread" args = callFread args := by
  simp [callFunction]

theorem callFunction_fseek : callFunction "fseek" args = callFseek args := by
  simp [callFunction]

theorem callFunction_isequal : callFunction "isequal" args = callIsequal args := by
  simp [callFunction]

theorem callFunction_onCleanup : callFunction "onCleanup" args = pure .object := by
  simp [callFunction]

/-- Functions for records are not run: a run that comes to one ends there and says which one it is.
-/
theorem callFunction_read (ident : String) :
    callFunction ("read_" ++ ident) args = throw (.calls ("read_" ++ ident)) := by
  have hne {name : String} (hname : name.toList.head? ≠ some 'r') : "read_" ++ ident ≠ name := by
    rintro rfl
    rw [String.toList_append] at hname
    exact hname rfl
  unfold callFunction
  rw [if_neg (hne (by decide)), if_neg (hne (by decide)), if_neg (hne (by decide)),
    if_neg (hne (by decide)), if_neg (hne (by decide)), if_neg (hne (by decide))]

end

/-! ### Expressions -/

mutual

/-- The value of an expression. -/
def Expr.eval : Expr → EStateM Halt Workspace Val
  | .name x => fun w ↦
    match w.vars x with
    | some v => .ok v w
    | none => .error .stuck w
  | .number v => pure (.numbers [v])
  | .text s => pure (.text s)
  | .call function args => do
    let vs ← evalArgs args
    callFunction function vs
  | .range first last => do
    let first ← number (← first.eval)
    let last ← number (← last.eval)
    return .numbers ((List.range (last + 1 - first).toNat).map fun i ↦ first + i)
  | .less left right => do
    let left ← number (← left.eval)
    let right ← number (← right.eval)
    return .numbers [if left < right then 1 else 0]
  | .not e => do
    let v ← number (← e.eval)
    return .numbers [if v = 0 then 1 else 0]
  | .thunk _ => pure .object
  | .row _ | .emptyCell | .item .. | .contents .. | .field .. | .equal .. => throw .stuck

def evalArgs : List Expr → EStateM Halt Workspace (List Val)
  | [] => pure []
  | e :: es => do
    let v ← e.eval
    let vs ← evalArgs es
    return v :: vs

end

/-! ### Statements -/

/-- Give a value to a variable. -/
def assignTo (target : Expr) (v : Val) : EStateM Halt Workspace Unit :=
  match target with
  | .name x => fun w ↦ .ok () (w.set x v)
  | _ => throw .stuck

/-- Repeat something for each number. -/
def forEach (counter : String) (body : EStateM Halt Workspace Unit) :
    List Int → EStateM Halt Workspace Unit
  | [] => pure ()
  | v :: vs => do
    assignTo (.name counter) (.numbers [v])
    body
    forEach counter body vs

mutual

/-- Execute a statement. -/
def Stmt.exec : Stmt → EStateM Halt Workspace Unit
  | .comment _ | .blank => pure ()
  | .assign target value => do
    let v ← value.eval
    assignTo target v
  | .run e => do
    let _ ← e.eval
  | .when condition body => do
    let v ← number (← condition.eval)
    if v ≠ 0 then exec body
  | .whenElse condition body otherwise => do
    let v ← number (← condition.eval)
    if v ≠ 0 then exec body else exec otherwise
  | .loop counter range body => do
    match ← range.eval with
    | .numbers vs => forEach counter (exec body) vs
    | _ => throw .stuck
  | .assignIf .. | .function .. => throw .stuck

/-- Execute statements in order. -/
def exec : List Stmt → EStateM Halt Workspace Unit
  | [] => pure ()
  | t :: ts => do
    t.exec
    exec ts

end

/-- Call the function of a file, which has one parameter, with the name of a file that has some
contents. -/
def Source.run (source : Source) (path : String) (bytes : List UInt8) :
    EStateM.Result Halt Workspace Unit :=
  match source.code with
  | [.function _ _ [param] body] => exec body (.start param path bytes)
  | _ => .error .stuck (.start "" path bytes)

/-! ### Running step by step -/

section

variable {w w' w'' : Workspace} {x : String} {v : Val}

/-- After a statement that succeeds, the next begins in the workspace that it left. -/
theorem bind_of_ok {α β : Type} {m : EStateM Halt Workspace α} {f : α → EStateM Halt Workspace β}
    {a : α} (h : m w = .ok a w') : (m >>= f) w = f a w' := by
  show EStateM.bind m f w = _
  unfold EStateM.bind
  rw [h]

/-- After an error, nothing else is done. -/
theorem bind_of_error {α β : Type} {m : EStateM Halt Workspace α}
    {f : α → EStateM Halt Workspace β} {e : Halt} (h : m w = .error e w') :
    (m >>= f) w = .error e w' := by
  show EStateM.bind m f w = _
  unfold EStateM.bind
  rw [h]

/-- A name stands for what was assigned to it. -/
theorem eval_name (h : w.vars x = some v) : (Expr.name x).eval w = .ok v w := by
  rw [Expr.eval]
  simp only [h]

/-- Arguments are evaluated from the left, each in the workspace that the one before left. -/
theorem evalArgs_cons {e : Expr} {es : List Expr} {vs : List Val} (he : e.eval w = .ok v w')
    (hes : evalArgs es w' = .ok vs w'') : evalArgs (e :: es) w = .ok (v :: vs) w'' := by
  rw [evalArgs]
  exact (bind_of_ok he).trans (bind_of_ok hes)

/-- A call evaluates its arguments and then its function. -/
theorem eval_call {args : List Expr} {vs : List Val} (h : evalArgs args w = .ok vs w')
    (function : String) : (Expr.call function args).eval w = callFunction function vs w' := by
  rw [Expr.eval]
  exact bind_of_ok h

theorem exec_comment (text : String) (w : Workspace) : (Stmt.comment text).exec w = .ok () w := by
  rw [Stmt.exec]
  rfl

theorem exec_blank (w : Workspace) : Stmt.blank.exec w = .ok () w := by
  rw [Stmt.exec]
  rfl

/-- An assignment evaluates its right-hand side and then sets the variable. -/
theorem exec_assign {e : Expr} (h : e.eval w = .ok v w') (x : String) :
    (Stmt.assign (.name x) e).exec w = .ok () (w'.set x v) := by
  rw [Stmt.exec]
  exact bind_of_ok h

theorem exec_cons {t : Stmt} (h : t.exec w = .ok () w') (ts : List Stmt) :
    exec (t :: ts) w = exec ts w' := by
  rw [exec]
  exact bind_of_ok h

/-- Code that is joined is run one part after the other. -/
theorem exec_append (ts us : List Stmt) : exec (ts ++ us) = (do exec ts; exec us) := by
  induction ts with
  | nil => rw [List.nil_append, exec, pure_bind]
  | cons t ts ih => rw [List.cons_append, exec, exec, ih, bind_assoc]

/-- The part that succeeds may be left out with its workspace in place. -/
theorem exec_append_of_ok {ts : List Stmt} (h : exec ts w = .ok () w') (us : List Stmt) :
    exec (ts ++ us) w = exec us w' := by
  rw [exec_append]
  exact bind_of_ok h

/-- **A call of a generated function** that reads records stops the execution. -/
theorem exec_assign_readRecord (h : w.vars "fid" = some v) (target : Expr) (ident : String)
    (ts : List Stmt) : exec (.assign target (readRecord ident) :: ts) w =
      .error (.calls ("read_" ++ ident)) w := by
  have hargs : evalArgs [file] w = .ok [v] w := by
    refine evalArgs_cons (eval_name h) ?_
    rw [evalArgs]
    rfl
  have hcall : (readRecord ident).eval w = .error (.calls ("read_" ++ ident)) w := by
    rw [readRecord, eval_call hargs, callFunction_read]
    rfl
  rw [exec, Stmt.exec]
  exact bind_of_error (bind_of_error hcall)

end

/-! ### Passing bytes -/

/-- Whether the file of a workspace is open and stands between some bytes. -/
structure Workspace.At (w : Workspace) (before rest : List UInt8) : Prop where
  bytes : w.bytes = before ++ rest
  position : w.position = before.length
  file : w.vars "fid" = some (.numbers [fileId])

/-- In front of `bs`, whatever follows, `x` goes on to the end of `bs` and returns `a`. -/
def Passes {α : Type} (x : EStateM Halt Workspace α) (bs : List UInt8) (a : α) : Prop :=
  ∀ w before rest, w.At before (bs ++ rest) → ∃ w', x w = .ok a w' ∧ w'.At (before ++ bs) rest

section

variable {α β : Type} {x : EStateM Halt Workspace α} {f : α → EStateM Halt Workspace β}
  {as bs : List UInt8} {a : α} {b : β} {w w' : Workspace} {before rest : List UInt8}

/-- What is to be read is what the place says. -/
theorem Workspace.At.rest_eq (h : w.At before rest) : w.rest = rest := by
  rw [Workspace.rest, h.bytes, h.position, List.drop_left]

/-- Variables other than that of the file do not move the place. -/
theorem Workspace.At.set (h : w.At before rest) {x : String} (hx : x ≠ "fid") (v : Val) :
    (w.set x v).At before rest :=
  ⟨h.bytes, h.position, (if_neg hx.symm).trans h.file⟩

/-- Reading on moves the place. -/
theorem Workspace.At.advance (h : w.At before (bs ++ rest)) :
    (w.advance bs.length).At (before ++ bs) rest := by
  refine ⟨?_, ?_, h.file⟩
  · rw [List.append_assoc]
    exact h.bytes
  · rw [List.length_append, ← h.position]
    rfl

theorem passes_pure (a : α) : Passes (pure a) [] a := by
  intro w before rest h
  rw [List.append_nil]
  exact ⟨w, rfl, h⟩

/-- **One after the other**: what both pass is passed. -/
theorem Passes.bind (hx : Passes x as a) (hf : Passes (f a) bs b) :
    Passes (x >>= f) (as ++ bs) b := by
  intro w before rest h
  rw [List.append_assoc] at h
  obtain ⟨w₁, hw₁, h₁⟩ := hx w before (bs ++ rest) h
  obtain ⟨w₂, hw₂, h₂⟩ := hf w₁ (before ++ as) rest h₁
  refine ⟨w₂, (bind_of_ok hw₁).trans hw₂, ?_⟩
  rwa [← List.append_assoc]

/-- The first part passes nothing. -/
theorem Passes.bind_nil (hx : Passes x [] a) (hf : Passes (f a) bs b) : Passes (x >>= f) bs b :=
  hx.bind hf

/-- The second part passes nothing. -/
theorem Passes.then_nil (hx : Passes x bs a) (hf : Passes (f a) [] b) : Passes (x >>= f) bs b := by
  have h := hx.bind hf
  rwa [List.append_nil] at h

end

/-! ### Passing words -/

/-- Bytes that begin with a word are read as words from there on. -/
theorem wordsIn_append (v : Int32) (bs : List UInt8) :
    wordsIn (Word.ofInt32 v ++ bs) = v.toInt :: wordsIn bs := by
  have hword : (Word.toInt32 (Word.ofInt32 v)).toInt = v.toInt := by
    rw [Word.toInt32_ofInt32]
  generalize hbs : Word.ofInt32 v = word at hword
  have hlength : word.length = 4 := hbs ▸ Word.length_ofInt32 v
  obtain ⟨a, b, c, d, rfl⟩ : ∃ a b c d, word = [a, b, c, d] := by
    match word, hlength with
    | [a, b, c, d], _ => exact ⟨a, b, c, d, rfl⟩
  rw [List.cons_append, List.cons_append, List.cons_append, List.cons_append, List.nil_append,
    wordsIn, hword]

/-- Words that were stored one after the other are read back. -/
theorem wordsIn_flatMap (vs : List Int32) :
    wordsIn (vs.flatMap Word.ofInt32) = vs.map Int32.toInt := by
  induction vs with
  | nil => rfl
  | cons v vs ih => rw [List.flatMap_cons, wordsIn_append, ih, List.map_cons]

/-- Every word takes four bytes. -/
theorem length_flatMap_ofInt32 (vs : List Int32) :
    (vs.flatMap Word.ofInt32).length = 4 * vs.length := by
  induction vs with
  | nil => rfl
  | cons v vs ih =>
    rw [List.flatMap_cons, List.length_append, Word.length_ofInt32, ih, List.length_cons]
    omega

/-! ### Passing by expressions -/

/-- The variable of the file is set wherever a place is known. -/
theorem passes_file : Passes file.eval [] (.numbers [fileId]) := by
  intro w before rest h
  rw [List.append_nil]
  exact ⟨w, eval_name h.file, h⟩

theorem passes_number (v : Int) : Passes (Expr.number v).eval [] (.numbers [v]) := by
  rw [Expr.eval]
  exact passes_pure _

theorem passes_text (s : String) : Passes (Expr.text s).eval [] (.text s) := by
  rw [Expr.eval]
  exact passes_pure _

theorem passes_evalArgs_nil : Passes (evalArgs []) [] [] := by
  rw [evalArgs]
  exact passes_pure _

/-- The arguments of a call pass what each of them passes. -/
theorem passes_evalArgs_cons {e : Expr} {es : List Expr} {as bs : List UInt8} {v : Val}
    {vs : List Val} (he : Passes e.eval as v) (hes : Passes (evalArgs es) bs vs) :
    Passes (evalArgs (e :: es)) (as ++ bs) (v :: vs) := by
  rw [evalArgs]
  exact he.bind (hes.then_nil (passes_pure _))

/-- A call passes what its arguments and its function pass. -/
theorem passes_call {function : String} {args : List Expr} {as bs : List UInt8} {vs : List Val}
    {v : Val} (hargs : Passes (evalArgs args) as vs)
    (hfunction : Passes (callFunction function vs) bs v) :
    Passes (Expr.call function args).eval (as ++ bs) v := by
  rw [Expr.eval]
  exact hargs.bind hfunction

/-- Reading as many words as there are passes them and returns their values. -/
theorem passes_readWords (vs : List Int32) :
    Passes (readWords (vs.length : Int).toNat) (vs.flatMap Word.ofInt32)
      (.numbers (vs.map Int32.toInt)) := by
  intro w before rest h
  have htake : w.rest.take (4 * vs.length) = vs.flatMap Word.ofInt32 := by
    rw [h.rest_eq, ← length_flatMap_ofInt32, List.take_left]
  refine ⟨_, ?_, h.advance⟩
  rw [Int.toNat_natCast, readWords, htake, wordsIn_flatMap]

/-- **Reading words** passes them. -/
theorem passes_fread {precision : String} (hprecision : storedForm precision = "int32")
    (vs : List Int32) : Passes (fread (.number vs.length) precision).eval
      (vs.flatMap Word.ofInt32) (.numbers (vs.map Int32.toInt)) := by
  have hargs : Passes (evalArgs [file, .number vs.length, .text precision]) []
      [.numbers [fileId], .numbers [vs.length], .text precision] :=
    passes_evalArgs_cons passes_file (passes_evalArgs_cons (passes_number _)
      (passes_evalArgs_cons (passes_text _) passes_evalArgs_nil))
  have hcall : Passes (callFunction "fread"
      [.numbers [fileId], .numbers [vs.length], .text precision]) (vs.flatMap Word.ofInt32)
      (.numbers (vs.map Int32.toInt)) := by
    rw [callFunction_fread, callFread]
    refine (passes_pure _).bind_nil ((passes_pure _).bind_nil ((passes_pure _).bind_nil ?_))
    rw [if_pos ⟨rfl, hprecision⟩]
    exact passes_readWords vs
  exact passes_call hargs hcall

/-- A count is one word. -/
theorem passes_freadCount (v : Int32) :
    Passes freadCount.eval (Word.ofInt32 v) (.numbers [v.toInt]) := by
  have h := passes_fread (by rfl : storedForm (conversion "int32" "double") = "int32") [v]
  rwa [List.flatMap_singleton] at h

/-- **Reading a length** passes it. -/
theorem passes_length {n : Nat} (hn : n ≤ maxLength) :
    Passes freadCount.eval (lengthWord n) (.numbers [n]) := by
  have h := passes_freadCount (Int32.ofNat n)
  rwa [Int32.toInt_ofNat_of_lt (by unfold maxLength at hn; omega)] at h

/-- **Moving on** passes as many bytes. -/
theorem passes_moveBy (bs : List UInt8) : Passes (moveBy bs.length) bs (.numbers [0]) := by
  intro w before rest h
  have hle : w.position + bs.length ≤ w.bytes.length := by
    rw [h.bytes, h.position, List.length_append, List.length_append]
    omega
  refine ⟨_, ?_, h.advance⟩
  rw [moveBy, if_pos (by omega)]
  rfl

/-! ### Passing by statements -/

section

variable {t : Stmt} {ts us : List Stmt} {as bs : List UInt8}

theorem passes_exec_nil : Passes (exec []) [] () := by
  rw [exec]
  exact passes_pure _

/-- Code passes what its statements pass, one after the other. -/
theorem passes_exec_cons (ht : Passes t.exec as ()) (hts : Passes (exec ts) bs ()) :
    Passes (exec (t :: ts)) (as ++ bs) () := by
  rw [exec]
  exact ht.bind hts

theorem passes_exec_append (hts : Passes (exec ts) as ()) (hus : Passes (exec us) bs ()) :
    Passes (exec (ts ++ us)) (as ++ bs) () := by
  rw [exec_append]
  exact hts.bind hus

theorem passes_blank : Passes Stmt.blank.exec [] () := by
  rw [Stmt.exec]
  exact passes_pure ()

theorem passes_comment (text : String) : Passes (Stmt.comment text).exec [] () := by
  rw [Stmt.exec]
  exact passes_pure ()

/-- The value of an expression on its own is dropped. -/
theorem passes_run {e : Expr} {v : Val} (he : Passes e.eval bs v) :
    Passes (Stmt.run e).exec bs () := by
  rw [Stmt.exec]
  exact he.then_nil (passes_pure ())

/-- An assignment moves nothing. The variable of the file is not assigned to in between. -/
theorem passes_assignTo {x : String} (hx : x ≠ "fid") (v : Val) :
    Passes (assignTo (.name x) v) [] () := by
  intro w before rest h
  rw [List.append_nil]
  exact ⟨_, rfl, h.set hx v⟩

/-- An assignment passes what its right-hand side passes. -/
theorem passes_assign {x : String} (hx : x ≠ "fid") {e : Expr} {v : Val} (he : Passes e.eval bs v) :
    Passes (Stmt.assign (.name x) e).exec bs () := by
  rw [Stmt.exec]
  exact he.then_nil (passes_assignTo hx v)

/-- **The rounds of a loop** pass what each of them passes. -/
theorem passes_forEach {counter : String} (hcounter : counter ≠ "fid")
    {body : EStateM Halt Workspace Unit} {α : Type} {form : α → List UInt8} {items : List α}
    (hbody : ∀ a ∈ items, Passes body (form a) ()) {vs : List Int}
    (hvs : vs.length = items.length) :
    Passes (forEach counter body vs) (items.flatMap form) () := by
  induction items generalizing vs with
  | nil =>
    rw [List.length_eq_zero_iff.1 hvs]
    exact passes_pure ()
  | cons a items ih =>
    obtain ⟨v, vs, rfl⟩ := List.exists_cons_of_length_eq_add_one hvs
    obtain ⟨ha, hitems⟩ := List.forall_mem_cons.1 hbody
    exact (passes_assignTo hcounter _).bind_nil (ha.bind (ih hitems (by simpa using hvs)))

/-- Code that uses a variable may follow the assignment of a value to it. -/
theorem passes_assign_cons {x : String} (hx : x ≠ "fid") {e : Expr} {v : Val}
    (he : Passes e.eval as v)
    (hts : ∀ w before rest, w.At before (bs ++ rest) → w.vars x = some v →
      ∃ w', exec ts w = .ok () w' ∧ w'.At (before ++ bs) rest) :
    Passes (exec (.assign (.name x) e :: ts)) (as ++ bs) () := by
  intro w before rest h
  rw [List.append_assoc] at h
  obtain ⟨w₁, hw₁, h₁⟩ := he w before (bs ++ rest) h
  obtain ⟨w₂, hw₂, h₂⟩ := hts (w₁.set x v) (before ++ as) rest (h₁.set hx v) (if_pos rfl)
  refine ⟨w₂, (exec_cons (exec_assign hw₁ x) ts).trans hw₂, ?_⟩
  rwa [← List.append_assoc]

/-- **A loop over as many items as the file announces** passes the number and the items. -/
theorem passes_counted {x counter : String} (hx : x ≠ "fid") (hcounter : counter ≠ "fid")
    {body : List Stmt} {α : Type} {form : α → List UInt8} {items : List α}
    (hbody : ∀ a ∈ items, Passes (exec body) (form a) ()) (hitems : items.length ≤ maxLength) :
    Passes (exec [.assign (.name x) freadCount, .loop counter (.range (.number 1) (.name x)) body])
      (lengthWord items.length ++ items.flatMap form) () := by
  refine passes_assign_cons hx (passes_length hitems) fun w before rest h hvar ↦ ?_
  obtain ⟨vs, hvs, hrange⟩ : ∃ vs : List Int, vs.length = items.length ∧
      (Expr.range (.number 1) (.name x)).eval w = .ok (.numbers vs) w := by
    refine ⟨(List.range ((items.length : Int) + 1 - 1).toNat).map fun i ↦ (1 : Int) + i,
      by simp, ?_⟩
    rw [Expr.eval, Expr.eval]
    exact bind_of_ok (eval_name hvar)
  obtain ⟨w', hw', h'⟩ := passes_forEach hcounter hbody hvs w before rest h
  refine ⟨w', ?_, h'⟩
  rw [exec, exec, Stmt.exec, bind_pure_unit]
  exact (bind_of_ok hrange).trans hw'

/-- **The check of a number** that is the expected one passes it. -/
theorem passes_expected {x : String} (hx : x ≠ "fid") (v : Int32) (complaint : Stmt) :
    Passes (exec [.assign (.name x) freadCount, expectNumber x v.toInt complaint])
      (Word.ofInt32 v) () := by
  rw [← List.append_nil (Word.ofInt32 v)]
  refine passes_assign_cons hx (passes_freadCount v) fun w before rest h hvar ↦ ⟨w, ?_, ?_⟩
  · have hnumber : evalArgs [.number v.toInt] w = .ok [.numbers [v.toInt]] w := by
      rw [evalArgs, evalArgs, Expr.eval]
      rfl
    have hsame : (Expr.call "isequal" [.name x, .number v.toInt]).eval w =
        .ok (.numbers [1]) w := by
      rw [eval_call (evalArgs_cons (eval_name hvar) hnumber), callFunction_isequal, callIsequal,
        if_pos rfl]
      rfl
    rw [expectNumber, exec, exec, Stmt.exec, Expr.eval, bind_pure_unit]
    simp only [bind_assoc]
    exact bind_of_ok hsame
  · rwa [List.append_nil]

end

end Matlab

end GraphCodec
