import GraphCodec.Proofs.Expressions

/-!
# Reading code

`code?` reads a text of generated code back. A line by itself is a statement, or opens, divides or
closes a block (`Phrase`), and the blocks are put together from the lines in order, with a stack of
those that are open (`Assembly`).

What is printed for code is read as this code, provided that the names in it are names and that no
text or comment ends a line (`ReadableCode.readsAs`). The proviso is needed: a comment that ends a
line is read as a shorter one with code after it (`readsAs_comment`). Reading goes part by part
(`ReadsAs.append`), so the rest of the code is read as it is even then.
-/

namespace GraphCodec

namespace Matlab

/-! ### Lines -/

/-- What opens a block. -/
inductive Header where
  | when (condition : Expr)
  | loop (counter : String) (range : Expr)
  | function (result : Option String) (name : String) (params : List String)

/-- What a line of code means. -/
inductive Phrase where
  /-- A statement that is not a block. -/
  | whole (s : Stmt)
  | opens (h : Header)
  /-- The line between the two branches of a block. -/
  | otherwise
  | ends

/-- The assignment at the front of some tokens, and the tokens after it. -/
def assignment? (ts : List Token) : Option ((Expr × Expr) × List Token) :=
  match expr? ts with
  | some (target, .sign '=' :: ts) =>
    match expr? ts with
    | some (value, .sign ';' :: ts) => some ((target, value), ts)
    | _ => none
  | _ => none

/-- A line that no word of the language begins. -/
def statement? (ts : List Token) : Option Phrase :=
  match expr? ts with
  | some (e, [.sign ';']) => some (.whole (.run e))
  | _ =>
    match assignment? ts with
    | some (p, []) => some (.whole (.assign p.1 p.2))
    | _ => none

/-- A line with a condition: it opens a block, unless assignments follow on the same line. -/
def condition? (ts : List Token) : Option Phrase :=
  match expr? ts with
  | some (condition, []) => some (.opens (.when condition))
  | some (condition, .sign ',' :: ts) =>
    match assignment? ts with
    | some (p, [.word "end"]) => some (.whole (.assignIf condition p.1 p.2 none))
    | some (p, .word "else" :: ts) =>
      match assignment? ts with
      | some (q, [.word "end"]) => some (.whole (.assignIf condition p.1 p.2 (some q)))
      | _ => none
    | _ => none
  | _ => none

/-- The first line of a loop. -/
def loop? : List Token → Option Phrase
  | .word counter :: .sign '=' :: ts =>
    match expr? ts with
    | some (range, []) => some (.opens (.loop counter range))
    | _ => none
  | _ => none

/-- The name that an expression is. -/
def name? : Expr → Option String
  | .name s => some s
  | _ => none

/-- The first line of a function, after its result. It looks like a call with names. -/
def signature? (result : Option String) (ts : List Token) : Option Phrase :=
  match expr? ts with
  | some (.call name params, []) =>
    (params.mapM name?).map fun params ↦ .opens (.function result name params)
  | _ => none

/-- The first line of a function. -/
def function? : List Token → Option Phrase
  | .word result :: .sign '=' :: ts => signature? (some result) ts
  | ts => signature? none ts

/-- What the tokens of a line mean. -/
def phrase? : List Token → Option Phrase
  | [.word "end"] => some .ends
  | [.word "else"] => some .otherwise
  | .word "if" :: ts => condition? ts
  | .word "for" :: ts => loop? ts
  | .word "function" :: ts => function? ts
  | ts => statement? ts

/-- What a line means, however it is indented. -/
def linePhrase? (line : List Char) : Option Phrase :=
  match line.dropWhile (· == ' ') with
  | [] => some (.whole .blank)
  | '%' :: cs => some (.whole (.comment (.ofList cs)))
  | cs => (tokens? cs).bind phrase?

/-! ### Blocks -/

/-- A block that is open. -/
inductive Block where
  | of (h : Header)
  /-- The second branch of a block, after the first one. -/
  | otherwise (condition : Expr) (first : List Stmt)

/-- The statement that a block is with its body. -/
def Block.close (body : List Stmt) : Block → Stmt
  | .of (.when condition) => .when condition body
  | .of (.loop counter range) => .loop counter range body
  | .of (.function result name params) => .function result name params body
  | .otherwise condition first => .whenElse condition first body

/-- Code that has been read up to some line. -/
structure Assembly where
  /-- The statements of the innermost open block. -/
  code : List Stmt
  /-- The open blocks, innermost first, each with the statements in front of it. -/
  outer : List (Block × List Stmt)

namespace Assembly

/-- Before all code. -/
def start : Assembly :=
  ⟨[], []⟩

/-- Go on with a line. -/
def add? (a : Assembly) : Phrase → Option Assembly
  | .whole s => some ⟨a.code ++ [s], a.outer⟩
  | .opens h => some ⟨[], (.of h, a.code) :: a.outer⟩
  | .otherwise =>
    match a.outer with
    | (.of (.when condition), before) :: outer =>
      some ⟨[], (.otherwise condition a.code, before) :: outer⟩
    | _ => none
  | .ends =>
    match a.outer with
    | (b, before) :: outer => some ⟨before ++ [b.close a.code], outer⟩
    | [] => none

/-- The code, if no block is open. -/
def result? (a : Assembly) : Option (List Stmt) :=
  if a.outer.isEmpty then some a.code else none

end Assembly

/-- The lines of a text, each of which has an end. -/
def linesOfText (text : String) : List (List Char) :=
  (text.toList.splitOnP endsLine).dropLast

/-- **The code that a text is.** -/
def code? (text : String) : Option (List Stmt) := do
  let phrases ← (linesOfText text).mapM linePhrase?
  let a ← phrases.foldlM Assembly.add? .start
  a.result?

/-! ### Readable code -/

/-- Whether a statement is read back from its lines. -/
inductive Stmt.Readable : Stmt → Prop
  | comment {text : String} (unbroken : Unbroken text) : Readable (.comment text)
  | blank : Readable .blank
  | assign {t v : Expr} (target : t.Readable false) (value : v.Readable false) :
      Readable (.assign t v)
  | run {e : Expr} (readable : e.Readable false) : Readable (.run e)
  | assignIf {c t v : Expr} (condition : c.Readable false) (target : t.Readable false)
      (value : v.Readable false) : Readable (.assignIf c t v none)
  | assignEither {c t v t' v' : Expr} (condition : c.Readable false) (target : t.Readable false)
      (value : v.Readable false) (target' : t'.Readable false) (value' : v'.Readable false) :
      Readable (.assignIf c t v (some (t', v')))
  | when {c : Expr} {body : List Stmt} (condition : c.Readable false)
      (readable : ∀ s ∈ body, Readable s) : Readable (.when c body)
  | whenElse {c : Expr} {body body' : List Stmt} (condition : c.Readable false)
      (readable : ∀ s ∈ body, Readable s) (readable' : ∀ s ∈ body', Readable s) :
      Readable (.whenElse c body body')
  | loop {i : String} {r : Expr} {body : List Stmt} (counter : IsWord i) (range : r.Readable false)
      (readable : ∀ s ∈ body, Readable s) : Readable (.loop i r body)
  | function {result : Option String} {f : String} {ps : List String} {body : List Stmt}
      (isWord : ∀ r ∈ result, IsWord r) (isName : IsName f) (isFunction : holdsValue f = false)
      (params : ∀ p ∈ ps, IsName p) (readable : ∀ s ∈ body, Readable s) :
      Readable (.function result f ps body)

/-- Whether all statements of some code are readable. -/
def ReadableCode (code : List Stmt) : Prop :=
  ∀ s ∈ code, s.Readable

/-! ### Lines are read back -/

/-- Blanks in front of a line are no tokens. -/
theorem tokens?_dropWhile (cs : List Char) : tokens? (cs.dropWhile (· == ' ')) = tokens? cs := by
  induction cs with
  | nil => rfl
  | cons c cs ih =>
    by_cases hc : c = ' '
    · subst hc
      rw [List.dropWhile_cons_of_pos rfl, ih]
      exact Option.map_id_apply.symm
    · rw [List.dropWhile_cons_of_neg (by simpa using hc)]

/-- A line of tokens is no comment if it does not begin with the sign of one. -/
theorem linePhrase?_of_tokens {cs : List Char} {t : Token} {ts : List Token}
    (h : tokens? cs = some (t :: ts)) (ht : t ≠ .sign '%') :
    linePhrase? cs = phrase? (t :: ts) := by
  rw [← tokens?_dropWhile] at h
  rw [linePhrase?]
  split
  · rename_i hline
    rw [hline] at h
    cases h
  · rename_i cs' hline
    rw [hline] at h
    obtain ⟨us, -, heq⟩ := Option.map_eq_some_iff.1 h
    exact absurd (List.cons.inj heq).1.symm ht
  · rw [h, Option.bind_some]

/-- Whether a text is on one line and has a meaning there. -/
structure Means (text : String) (p : Phrase) : Prop where
  unbroken : Unbroken text
  phrase : linePhrase? text.toList = some p

/-- The meaning of a text that is made of tokens. -/
theorem means_of_lexes {text : String} {t : Token} {ts : List Token} {p : Phrase}
    (hlexes : Lexes text (t :: ts)) (ht : t ≠ .sign '%') (hunbroken : Unbroken text)
    (hp : phrase? (t :: ts) = some p) : Means text p :=
  ⟨hunbroken, (linePhrase?_of_tokens hlexes.tokens?_eq ht).trans hp⟩

theorem means_blank : Means "" (.whole .blank) :=
  ⟨rfl, rfl⟩

/-- A comment on one line is read as the comment, whatever is in it. -/
theorem means_comment {text : String} (h : Unbroken text) :
    Means ("%" ++ text) (.whole (.comment text)) := by
  refine ⟨.append (s := "%") rfl h, ?_⟩
  rw [show ("%" ++ text).toList = '%' :: text.toList from String.toList_append]
  show some (Phrase.whole (.comment (.ofList text.toList))) = _
  rw [String.ofList_toList]

theorem isWord_keyword {k : String} (h : k ∈ keywords) : IsWord k := by
  have hall : ∀ k ∈ keywords, k.toList ≠ [] ∧ (k.toList.all isWordChar) = true := by decide
  exact ⟨(hall k h).1, List.all_eq_true.1 (hall k h).2⟩

theorem means_end : Means "end" .ends :=
  means_of_lexes (lexes_word (isWord_keyword (by decide))) nofun rfl rfl

theorem means_else : Means "else" .otherwise :=
  means_of_lexes (lexes_word (isWord_keyword (by decide))) nofun rfl rfl

/-- A line that begins like an expression is a statement. -/
theorem phrase?_of_begins {t : Token} (h : Begins t) (ts : List Token) :
    phrase? (t :: ts) = statement? (t :: ts) := by
  have hne (k : String) (hk : k ∈ keywords) : t ≠ .word k := h.ne_keyword k hk
  rw [phrase?.eq_6]
  · exact fun heq ↦ hne "end" (by decide) (List.cons.inj heq).1
  · exact fun heq ↦ hne "else" (by decide) (List.cons.inj heq).1
  · exact fun _ heq ↦ hne "if" (by decide) (List.cons.inj heq).1
  · exact fun _ heq ↦ hne "for" (by decide) (List.cons.inj heq).1
  · exact fun _ heq ↦ hne "function" (by decide) (List.cons.inj heq).1

section

variable {c e t v t' v' : Expr} {us : List Token}

/-- The tokens of an assignment. -/
def assignmentTokens (target value : Expr) : List Token :=
  target.tokens ++ [.sign '='] ++ value.tokens ++ [.sign ';']

/-- The tokens of an assignment, in front of others. -/
theorem assignmentTokens_append (t v : Expr) (us : List Token) :
    assignmentTokens t v ++ us = t.tokens ++ .sign '=' :: (v.tokens ++ .sign ';' :: us) := by
  simp [assignmentTokens]

/-- **An assignment at the front** of tokens is read back with what comes after it. -/
theorem assignment?_tokens (ht : t.Readable false) (hv : v.Readable false) (us : List Token) :
    assignment? (assignmentTokens t v ++ us) = some ((t, v), us) := by
  rw [assignmentTokens_append, assignment?, expr?_tokens_cons ht (by decide)]
  show (match expr? (v.tokens ++ _) with | some (value, .sign ';' :: ts) => _ | _ => _) = _
  rw [expr?_tokens_cons hv (by decide)]
  rfl

/-- The text of an assignment is made of its tokens. -/
theorem lexes_assignment (ht : t.Readable false) (hv : v.Readable false) :
    LexesAlways (assignment t v) (assignmentTokens t v) :=
  (ht.lexes.signs (t := " = ") (lexesAlways_of_run rfl) hv.lexes (by decide) rfl).append_always
    (lexesAlways_of_run rfl) (by decide) rfl

theorem unbroken_assignment (ht : t.Readable false) (hv : v.Readable false) :
    Unbroken (assignment t v) :=
  ((ht.unbroken.append (t := " = ") rfl).append hv.unbroken).append (t := ";") rfl

/-- The meaning of a line that begins like an expression. -/
theorem means_of_statement {text : String} {p : Phrase} {us : List Token} (he : e.Readable false)
    (hlexes : Lexes text (e.tokens ++ us)) (hunbroken : Unbroken text)
    (hp : statement? (e.tokens ++ us) = some p) : Means text p := by
  obtain ⟨first, ts, htokens, hbegins⟩ := he.exists_begins
  rw [htokens, List.cons_append] at hlexes hp
  exact means_of_lexes hlexes hbegins.ne_percent hunbroken ((phrase?_of_begins hbegins _).trans hp)

/-- An expression on its own is read as this. -/
theorem means_run (he : e.Readable false) : Means (e.print ++ ";") (.whole (.run e)) := by
  have hsign : LexesAlways ";" [.sign ';'] := lexesAlways_of_run rfl
  refine means_of_statement he (he.lexes.append hsign.lexes rfl)
    (he.unbroken.append (t := ";") rfl) ?_
  rw [statement?, expr?_tokens_cons he (by decide)]
  rfl

/-- An assignment is read as this; what is in front of the sign is its target. -/
theorem means_assignment (ht : t.Readable false) (hv : v.Readable false) :
    Means (assignment t v) (.whole (.assign t v)) := by
  have htokens := assignmentTokens_append t v []
  have hread := assignment?_tokens ht hv []
  have hlexes := (lexes_assignment ht hv).lexes
  rw [List.append_nil] at htokens hread
  rw [htokens] at hread hlexes
  refine means_of_statement ht hlexes (unbroken_assignment ht hv) ?_
  rw [statement?, expr?_tokens_cons ht (by decide), hread]
  rfl

/-- The first line of a block with a condition. -/
theorem means_when (hc : c.Readable false) : Means ("if " ++ c.print) (.opens (.when c)) := by
  have hlexes : Lexes ("if " ++ c.print) ([.word "if"] ++ c.tokens) :=
    (lexesAlways_of_run rfl).append hc.lexes
  refine means_of_lexes hlexes nofun (.append (s := "if ") rfl hc.unbroken) ?_
  show condition? c.tokens = _
  rw [condition?, expr?_tokens hc]

/-! An assignment under a condition, with what comes between it and the end of the line. -/

section

variable {rest : String}

/-- The text of a choice on one line is made of its tokens, and of those of its last part. -/
theorem lexes_conditional (hc : c.Readable false) (ht : t.Readable false) (hv : v.Readable false)
    (hrest : Lexes rest us) (hstops : Stops rest.toList) :
    Lexes ("if " ++ c.print ++ ", " ++ assignment t v ++ rest ++ " end")
      (.word "if" :: (c.tokens ++ .sign ',' :: (assignmentTokens t v ++
        (us ++ [.word "end"])))) := by
  have hif : Lexes ("if " ++ c.print) ([.word "if"] ++ c.tokens) :=
    (lexesAlways_of_run rfl).append hc.lexes
  have hend : Lexes (" " ++ "end") ([] ++ [.word "end"]) :=
    (lexesAlways_of_run rfl).append (lexes_word (isWord_keyword (by decide)))
  have hcomma : LexesAlways ", " [.sign ','] := lexesAlways_of_run rfl
  have hall := ((hif.signs hcomma (lexes_assignment ht hv).lexes (by decide) rfl).append hrest
    hstops).append hend rfl
  simpa [List.append_assoc] using hall

theorem unbroken_conditional (hc : c.Readable false) (ht : t.Readable false)
    (hv : v.Readable false) (hrest : Unbroken rest) :
    Unbroken ("if " ++ c.print ++ ", " ++ assignment t v ++ rest ++ " end") :=
  ((((Unbroken.append (s := "if ") rfl hc.unbroken).append (t := ", ") rfl).append
    (unbroken_assignment ht hv)).append hrest).append (t := " end") rfl

end

/-- A choice without another branch is read as this. -/
theorem means_assignIf (hc : c.Readable false) (ht : t.Readable false) (hv : v.Readable false) :
    Means (conditional c t v none) (.whole (.assignIf c t v none)) := by
  have hcomma : Follows (.sign ',') := by decide
  have hlexes := lexes_conditional hc ht hv (lexesAlways_of_run (s := "") rfl).lexes rfl
  refine means_of_lexes hlexes nofun (unbroken_conditional hc ht hv rfl) ?_
  show condition? (c.tokens ++ .sign ',' :: (assignmentTokens t v ++ [.word "end"])) = _
  simp [condition?, expr?_tokens_cons hc hcomma, assignment?_tokens ht hv]

/-- A choice with another branch is read as this. -/
theorem means_assignEither (hc : c.Readable false) (ht : t.Readable false) (hv : v.Readable false)
    (ht' : t'.Readable false) (hv' : v'.Readable false) :
    Means (conditional c t v (some (t', v'))) (.whole (.assignIf c t v (some (t', v')))) := by
  have hcomma : Follows (.sign ',') := by decide
  have helse : Lexes (" else " ++ assignment t' v') ([.word "else"] ++ assignmentTokens t' v') :=
    (lexesAlways_of_run rfl).append (lexes_assignment ht' hv').lexes
  have hstops : Stops (" else " ++ assignment t' v').toList := by
    rw [String.toList_append]
    rfl
  have hlexes := lexes_conditional hc ht hv helse hstops
  refine means_of_lexes hlexes nofun (unbroken_conditional hc ht hv
    (.append (s := " else ") rfl (unbroken_assignment ht' hv'))) ?_
  show condition? (c.tokens ++ .sign ',' :: (assignmentTokens t v ++
    ([.word "else"] ++ assignmentTokens t' v' ++ [.word "end"]))) = _
  simp [condition?, expr?_tokens_cons hc hcomma, assignment?_tokens ht hv,
    assignment?_tokens ht' hv']

/-- The first line of a loop. -/
theorem means_loop {counter : String} (hcounter : IsWord counter) (hc : c.Readable false) :
    Means ("for " ++ counter ++ " = " ++ c.print) (.opens (.loop counter c)) := by
  have hfor : Lexes ("for " ++ counter) ([.word "for"] ++ [.word counter]) :=
    (lexesAlways_of_run rfl).append (lexes_word hcounter)
  have hlexes := hfor.signs (t := " = ") (lexesAlways_of_run rfl) hc.lexes (by decide) rfl
  refine means_of_lexes hlexes nofun (((Unbroken.append (s := "for ") rfl hcounter.unbroken).append
    (t := " = ") rfl).append hc.unbroken) ?_
  show loop? (.word counter :: .sign '=' :: c.tokens) = _
  rw [loop?, expr?_tokens hc]

end

/-! The first line of a function. -/

section

variable {f : String} {ps : List String}

/-- The name and the parameters of a function are printed like a call. -/
theorem signature_eq (result : Option String) (f : String) (ps : List String) :
    signature result f ps =
      "function " ++ (result.elim "" (· ++ " = ") ++ (Expr.call f (ps.map .name)).print) := by
  rw [← String.toList_inj, Expr.print, printAll_map]
  cases result <;> simp [signature, Expr.print]

/-- The name and the parameters of a function are written as a call would be. -/
theorem readable_signature (isName : IsName f) (isFunction : holdsValue f = false)
    (hparams : ∀ p ∈ ps, IsName p) : (Expr.call f (ps.map .name)).Readable false := by
  refine .call isName isFunction fun e he ↦ ?_
  obtain ⟨p, hp, rfl⟩ := List.mem_map.1 he
  exact .name (hparams p hp)

/-- And are read as this. -/
theorem signature?_tokens (isName : IsName f) (isFunction : holdsValue f = false)
    (hparams : ∀ p ∈ ps, IsName p) (result : Option String) :
    signature? result (Expr.call f (ps.map .name)).tokens =
      some (.opens (.function result f ps)) := by
  rw [signature?, expr?_tokens (readable_signature isName isFunction hparams)]
  show ((ps.map Expr.name).mapM name?).map _ = _
  have hnames : (ps.map Expr.name).mapM name? = some ps := by
    rw [List.mapM_map]
    exact (mapM_eq_some_map fun p _ ↦ rfl).trans (congrArg some (List.map_id ps))
  rw [hnames]
  rfl

/-- **The first line of a function** is read as this, with and without a result. -/
theorem means_signature {result : Option String} (hresult : ∀ r ∈ result, IsWord r)
    (isName : IsName f) (isFunction : holdsValue f = false) (hparams : ∀ p ∈ ps, IsName p) :
    Means (signature result f ps) (.opens (.function result f ps)) := by
  have hcall := readable_signature isName isFunction hparams
  rw [signature_eq]
  cases result with
  | none =>
    have hlexes : Lexes ("function " ++ ("" ++ (Expr.call f (ps.map .name)).print))
        ([.word "function"] ++ ([] ++ (Expr.call f (ps.map .name)).tokens)) :=
      (lexesAlways_of_run rfl).append ((lexesAlways_of_run rfl).append hcall.lexes)
    refine means_of_lexes hlexes nofun
      (.append (s := "function ") rfl (.append (s := "") rfl hcall.unbroken)) ?_
    show signature? none (Expr.call f (ps.map .name)).tokens = _
    exact signature?_tokens isName isFunction hparams none
  | some r =>
    have hr : IsWord r := hresult r rfl
    have hlexes : Lexes ("function " ++ (r ++ " = " ++ (Expr.call f (ps.map .name)).print))
        ([.word "function"] ++ ([.word r] ++ [.sign '='] ++
          (Expr.call f (ps.map .name)).tokens)) :=
      (lexesAlways_of_run rfl).append
        ((lexes_word hr).signs (lexesAlways_of_run rfl) hcall.lexes (by decide) rfl)
    refine means_of_lexes hlexes nofun (.append (s := "function ") rfl
      ((hr.unbroken.append (t := " = ") rfl).append hcall.unbroken)) ?_
    show signature? (some r) (Expr.call f (ps.map .name)).tokens = _
    exact signature?_tokens isName isFunction hparams (some r)

end

/-! ### Code is read back -/

namespace Line

/-- Whether a line means something, wherever it stands. -/
def Means (l : Line) (p : Phrase) : Prop :=
  Matlab.Means l.text p

/-- The meaning of a line does not depend on its indentation. -/
theorem linePhrase?_indented (l : Line) : linePhrase? l.indented = linePhrase? l.text.toList := by
  have hblanks : l.indented.dropWhile (· == ' ') = l.text.toList.dropWhile (· == ' ') := by
    rw [Line.indented]
    split
    · rename_i htext
      rw [htext]
      rfl
    · exact List.dropWhile_append_of_pos fun c hc ↦ beq_iff_eq.2 (List.eq_of_mem_replicate hc)
  rw [linePhrase?, hblanks, linePhrase?]

end Line

/-- The meanings of lines as they are written. -/
theorem mapM_linePhrase?_printed {ls : List Line} {ps : List Phrase}
    (h : List.Forall₂ Line.Means ls ps) :
    ((printed ls).splitOnP endsLine).dropLast.mapM linePhrase? = some ps := by
  induction h with
  | nil => rfl
  | @cons l p ls ps hl _ ih =>
    rw [printed_cons, splitOnP_print hl.unbroken,
      List.dropLast_cons_of_ne_nil (List.splitOnP_ne_nil _ _), List.mapM_cons, ih,
      l.linePhrase?_indented, hl.phrase]
    rfl

/-- Whether the text of `code`, wherever it stands, is read as `code'`. -/
def ReadsAs (code code' : List Stmt) : Prop :=
  ∀ depth, ∃ ls ps, printed (Stmt.linesOf depth code) = printed ls ∧
    List.Forall₂ Line.Means ls ps ∧
      ∀ a : Assembly, ps.foldlM Assembly.add? a = some { a with code := a.code ++ code' }

theorem readsAs_nil : ReadsAs [] [] :=
  fun _ ↦ ⟨[], [], rfl, .nil, fun a ↦ by rw [List.append_nil]; rfl⟩

/-- **Code is read part by part.** -/
theorem ReadsAs.append {as as' bs bs' : List Stmt} (ha : ReadsAs as as') (hb : ReadsAs bs bs') :
    ReadsAs (as ++ bs) (as' ++ bs') := by
  intro depth
  obtain ⟨ls, ps, hprinted, hlines, hread⟩ := ha depth
  obtain ⟨ls', ps', hprinted', hlines', hread'⟩ := hb depth
  refine ⟨ls ++ ls', ps ++ ps', ?_, List.rel_append hlines hlines', fun a ↦ ?_⟩
  · rw [linesOf_append, printed_append, printed_append, hprinted, hprinted']
  · rw [List.foldlM_append, hread]
    show ps'.foldlM Assembly.add? _ = _
    rw [hread', List.append_assoc]

/-- Code is read as it is if each of its statements is. -/
theorem readsAs_of_forall {code : List Stmt} (h : ∀ s ∈ code, ReadsAs [s] [s]) :
    ReadsAs code code := by
  induction code with
  | nil => exact readsAs_nil
  | cons s ss ih =>
    obtain ⟨hs, hss⟩ := List.forall_mem_cons.1 h
    exact hs.append (ih hss)

/-- A statement on one line. -/
theorem readsAs_line {s : Stmt} {text : String}
    (hlines : ∀ depth, s.lines depth = [⟨depth, text⟩]) (h : Means text (.whole s)) :
    ReadsAs [s] [s] := by
  intro depth
  have hline : Line.Means ⟨depth, text⟩ (.whole s) := h
  refine ⟨[⟨depth, text⟩], [.whole s], ?_, .cons hline .nil, fun a ↦ rfl⟩
  rw [Stmt.linesOf, Stmt.linesOf, List.append_nil, hlines]

/-- A block with one body, whatever this is read as. -/
theorem readsAs_block {block : List Stmt → Stmt} {text : String} {header : Header}
    {body body' : List Stmt}
    (hlines : ∀ depth, (block body).lines depth =
      ⟨depth, text⟩ :: Stmt.linesOf (depth + 1) body ++ [⟨depth, "end"⟩])
    (hclose : Block.close body' (.of header) = block body') (htext : Means text (.opens header))
    (hbody : ReadsAs body body') : ReadsAs [block body] [block body'] := by
  intro depth
  obtain ⟨ls, ps, hprinted, hls, hread⟩ := hbody (depth + 1)
  have hheader : Line.Means ⟨depth, text⟩ (.opens header) := htext
  have hend : Line.Means ⟨depth, "end"⟩ .ends := means_end
  refine ⟨⟨depth, text⟩ :: ls ++ [⟨depth, "end"⟩], .opens header :: ps ++ [.ends], ?_,
    List.rel_append (.cons hheader hls) (.cons hend .nil), fun a ↦ ?_⟩
  · rw [Stmt.linesOf, Stmt.linesOf, List.append_nil, hlines]
    simp only [printed_append, printed_cons, hprinted]
  · rw [List.foldlM_append, List.foldlM_cons]
    show (ps.foldlM Assembly.add? ⟨[], (.of header, a.code) :: a.outer⟩ >>= _) = _
    rw [hread, ← hclose]
    rfl

/-- A block with two branches. -/
theorem readsAs_whenElse {c : Expr} {first second : List Stmt} (hc : c.Readable false)
    (hfirst : ReadsAs first first) (hsecond : ReadsAs second second) :
    ReadsAs [.whenElse c first second] [.whenElse c first second] := by
  intro depth
  obtain ⟨ls, ps, hprinted, hls, hread⟩ := hfirst (depth + 1)
  obtain ⟨ls', ps', hprinted', hls', hread'⟩ := hsecond (depth + 1)
  have hheader : Line.Means ⟨depth, "if " ++ c.print⟩ (.opens (.when c)) := means_when hc
  have helse : Line.Means ⟨depth, "else"⟩ .otherwise := means_else
  have hend : Line.Means ⟨depth, "end"⟩ .ends := means_end
  refine ⟨⟨depth, "if " ++ c.print⟩ :: ls ++ ⟨depth, "else"⟩ :: ls' ++ [⟨depth, "end"⟩],
    .opens (.when c) :: ps ++ .otherwise :: ps' ++ [.ends], ?_,
    List.rel_append (List.rel_append (.cons hheader hls) (.cons helse hls')) (.cons hend .nil),
    fun a ↦ ?_⟩
  · rw [Stmt.linesOf, Stmt.linesOf, List.append_nil, Stmt.lines]
    simp only [printed_append, printed_cons, hprinted, hprinted']
  · rw [List.foldlM_append, List.foldlM_append, List.foldlM_cons]
    show ((ps.foldlM Assembly.add? ⟨[], (.of (.when c), a.code) :: a.outer⟩ >>= _) >>= _) = _
    rw [hread]
    show (ps'.foldlM Assembly.add? ⟨[], (.otherwise c ([] ++ first), a.code) :: a.outer⟩ >>= _) =
      _
    rw [hread']
    rfl

/-- A readable statement is read as it is. -/
theorem Stmt.Readable.readsAs {s : Stmt} (h : s.Readable) : ReadsAs [s] [s] := by
  induction h with
  | comment unbroken => exact readsAs_line (fun _ ↦ by rw [Stmt.lines]) (means_comment unbroken)
  | blank => exact readsAs_line (fun _ ↦ by rw [Stmt.lines]) means_blank
  | assign target value =>
    exact readsAs_line (fun _ ↦ by rw [Stmt.lines]) (means_assignment target value)
  | run readable => exact readsAs_line (fun _ ↦ by rw [Stmt.lines]) (means_run readable)
  | assignIf condition target value =>
    exact readsAs_line (fun _ ↦ by rw [Stmt.lines]) (means_assignIf condition target value)
  | assignEither condition target value target' value' =>
    exact readsAs_line (fun _ ↦ by rw [Stmt.lines])
      (means_assignEither condition target value target' value')
  | when condition _ ih =>
    exact readsAs_block (fun _ ↦ by rw [Stmt.lines]) rfl (means_when condition)
      (readsAs_of_forall ih)
  | whenElse condition _ _ ih ih' =>
    exact readsAs_whenElse condition (readsAs_of_forall ih) (readsAs_of_forall ih')
  | loop counter range _ ih =>
    exact readsAs_block (fun _ ↦ by rw [Stmt.lines]) rfl (means_loop counter range)
      (readsAs_of_forall ih)
  | function isWord isName isFunction params _ ih =>
    exact readsAs_block (fun _ ↦ by rw [Stmt.lines]) rfl
      (means_signature isWord isName isFunction params) (readsAs_of_forall ih)

/-- **Readable code** is read as it is. -/
theorem ReadableCode.readsAs {code : List Stmt} (h : ReadableCode code) : ReadsAs code code :=
  readsAs_of_forall fun s hs ↦ (h s hs).readsAs

/-- A line that has a character. -/
theorem toList_print_of_mem {depth : Nat} {text : String} {c : Char} (h : c ∈ text.toList) :
    (Line.print ⟨depth, text⟩).toList =
      List.replicate (4 * depth) ' ' ++ (text.toList ++ ['\n']) := by
  have hne : text ≠ "" := by
    rintro rfl
    exact absurd h List.not_mem_nil
  rw [toList_print, Line.indented, if_neg hne, List.append_assoc]

/-- **A comment with ends of lines** in it goes no further than the first one. The line after it is
code. -/
theorem readsAs_comment {a c : String} {e : Expr} (ha : Unbroken a) (he : e.Readable false)
    (hc : Unbroken c) : ReadsAs [.comment (a ++ "\n" ++ (e.print ++ ";") ++ "\n%" ++ c)]
      [.comment a, .run e, .comment c] := by
  intro depth
  have hpercent (text : String) : '%' ∈ ("%" ++ text : String).toList := by
    rw [String.toList_append]
    exact List.mem_append_left _ (List.mem_singleton_self '%')
  have hsemicolon : ';' ∈ (e.print ++ ";" : String).toList := by
    rw [String.toList_append]
    exact List.mem_append_right _ (List.mem_singleton_self ';')
  have hfirst : Line.Means ⟨depth, "%" ++ a⟩ (.whole (.comment a)) := means_comment ha
  have hsecond : Line.Means ⟨0, e.print ++ ";"⟩ (.whole (.run e)) := means_run he
  have hthird : Line.Means ⟨0, "%" ++ c⟩ (.whole (.comment c)) := means_comment hc
  refine ⟨[⟨depth, "%" ++ a⟩, ⟨0, e.print ++ ";"⟩, ⟨0, "%" ++ c⟩], _, ?_,
    .cons hfirst (.cons hsecond (.cons hthird .nil)), fun b ↦ ?_⟩
  · rw [Stmt.linesOf, Stmt.linesOf, List.append_nil, Stmt.lines]
    rw [printed_cons, printed_cons, printed_cons, printed_cons, toList_print_of_mem (hpercent _),
      toList_print_of_mem (hpercent a), toList_print_of_mem hsemicolon,
      toList_print_of_mem (hpercent c)]
    simp only [String.toList_append, List.append_assoc]
    rfl
  · show some (Assembly.mk (b.code ++ [_] ++ [_] ++ [_]) b.outer) = _
    rw [List.append_assoc, List.append_assoc]
    rfl

/-- **The text of code** is read as what the code reads as. -/
theorem ReadsAs.code?_print {code code' : List Stmt} (h : ReadsAs code code') :
    code? (print code) = some code' := by
  obtain ⟨ls, ps, hprinted, hlines, hread⟩ := h 0
  rw [code?, linesOfText, toList_print_eq_printed, hprinted, mapM_linePhrase?_printed hlines]
  show (ps.foldlM Assembly.add? .start >>= _) = _
  rw [hread]
  rfl

end Matlab

end GraphCodec
