import GraphCodec.Proofs.SavedFront

/-!
# Tokens of generated code

A line of code is a row of tokens: words, texts between quotes, and signs. `tokens?` takes it apart
from left to right and knows no more at any point than which token has been begun (`Begun`).

What a token is does not depend on what stands after it, provided that this goes on with none of
the characters of a longer token (`Stops`). So the tokens of a text that is put together of parts
are the tokens of the parts (`Lexes.append`).
-/

namespace GraphCodec

namespace Matlab

/-- Whether a character is one of a word. -/
def isWordChar (c : Char) : Bool :=
  c.isAlphanum || c == '_'

/-- A token of a line of code. -/
inductive Token where
  /-- A name, a number or a word of the language. -/
  | word (s : String)
  /-- A text between quotes, as it is without them. -/
  | text (s : String)
  | sign (c : Char)
  /-- The comparison, of two signs. -/
  | same
  deriving DecidableEq, Repr

/-- The token that has been begun at some point of a line. -/
inductive Begun where
  | nothing
  | word (cs : List Char)
  | text (cs : List Char)
  /-- A text after a quote: it has ended, unless another quote follows. -/
  | quote (cs : List Char)
  /-- A sign of equality, unless another one follows. -/
  | equals

namespace Begun

/-- What a character begins, and the token that it is by itself. -/
def start (c : Char) : List Token × Begun :=
  if c = ' ' then ([], nothing)
  else if c = '\'' then ([], text [])
  else if c = '=' then ([], equals)
  else if isWordChar c then ([], word [c])
  else ([.sign c], nothing)

/-- The tokens that a character completes, and what has been begun after it. -/
def step : Begun → Char → List Token × Begun
  | nothing, c => start c
  | word cs, c =>
    if isWordChar c then ([], word (cs ++ [c]))
    else (.word (.ofList cs) :: (start c).1, (start c).2)
  | text cs, c => if c = '\'' then ([], quote cs) else ([], text (cs ++ [c]))
  | quote cs, c =>
    if c = '\'' then ([], text (cs ++ [c])) else (.text (.ofList cs) :: (start c).1, (start c).2)
  | equals, c => if c = '=' then ([.same], nothing) else (.sign '=' :: (start c).1, (start c).2)

/-- The tokens that characters complete, and what has been begun after them. -/
def run (b : Begun) : List Char → List Token × Begun
  | [] => ([], b)
  | c :: cs => ((b.step c).1 ++ ((b.step c).2.run cs).1, ((b.step c).2.run cs).2)

/-- The tokens that the end of a line completes; within a text there is no end. -/
def finish? : Begun → Option (List Token)
  | nothing => some []
  | word cs => some [.word (.ofList cs)]
  | text _ => none
  | quote cs => some [.text (.ofList cs)]
  | equals => some [.sign '=']

/-- The tokens of the rest of a line, with what has been begun before. -/
def scan? (b : Begun) : List Char → Option (List Token)
  | [] => b.finish?
  | c :: cs => ((b.step c).2.scan? cs).map ((b.step c).1 ++ ·)

end Begun

/-- The tokens of a line. -/
def tokens? (line : List Char) : Option (List Token) :=
  Begun.nothing.scan? line

/-- Whether a line goes on with none of the characters of a longer token. -/
def Stops (rest : List Char) : Prop :=
  (rest.head?.all fun c ↦ !isWordChar c && c != '\'' && c != '=') = true

/-- Whether a text is made of some tokens wherever none of them goes on after it. -/
def Lexes (s : String) (ts : List Token) : Prop :=
  ∀ rest, Stops rest → tokens? (s.toList ++ rest) = (tokens? rest).map (ts ++ ·)

/-- Whether a text is made of some tokens, whatever comes after it. -/
def LexesAlways (s : String) (ts : List Token) : Prop :=
  ∀ rest, tokens? (s.toList ++ rest) = (tokens? rest).map (ts ++ ·)

/-! ### Texts of tokens -/

/-- The tokens of a line in two parts. -/
theorem Begun.scan?_append (b : Begun) (cs rest : List Char) :
    b.scan? (cs ++ rest) = ((b.run cs).2.scan? rest).map ((b.run cs).1 ++ ·) := by
  induction cs generalizing b with
  | nil => exact Option.map_id_apply.symm
  | cons c cs ih =>
    rw [List.cons_append, Begun.scan?, ih, Option.map_map]
    exact congrArg (Option.map · _) (funext fun ts ↦ (List.append_assoc _ _ ts).symm)

/-- A text that completes all its tokens. -/
theorem lexesAlways_of_run {s : String} {ts : List Token}
    (h : Begun.nothing.run s.toList = (ts, .nothing)) : LexesAlways s ts := by
  intro rest
  rw [tokens?, Begun.scan?_append, h]
  rfl

theorem stops_cons_iff {c : Char} {rest : List Char} :
    Stops (c :: rest) ↔ isWordChar c = false ∧ c ≠ '\'' ∧ c ≠ '=' := by
  simp [Stops, and_assoc]

/-- At its end a line has stopped. -/
theorem stops_nil : Stops [] := rfl

theorem LexesAlways.lexes {s : String} {ts : List Token} (h : LexesAlways s ts) : Lexes s ts :=
  fun rest _ ↦ h rest

/-- The tokens of a whole line. -/
theorem Lexes.tokens?_eq {s : String} {ts : List Token} (h : Lexes s ts) :
    tokens? s.toList = some ts := by
  have hline := h [] stops_nil
  rwa [List.append_nil, show tokens? [] = some [] from rfl, Option.map_some, List.append_nil]
    at hline

/-- What comes after a text decides whether the text goes on. -/
theorem stops_append {s rest : List Char} (hs : Stops s) (hrest : Stops rest) :
    Stops (s ++ rest) := by
  cases s with
  | nil => exact hrest
  | cons c cs => exact hs

section

variable {s t : String} {ts us : List Token}

/-- **Tokens in order**, where the first text does not go on in the second. -/
theorem Lexes.append (hs : Lexes s ts) (ht : Lexes t us) (hstops : Stops t.toList) :
    Lexes (s ++ t) (ts ++ us) := by
  intro rest hrest
  rw [String.toList_append, List.append_assoc, hs _ (stops_append hstops hrest), ht rest hrest,
    Option.map_map]
  exact congrArg (Option.map · _) (funext fun vs ↦ (List.append_assoc ts us vs).symm)

theorem LexesAlways.append (hs : LexesAlways s ts) (ht : Lexes t us) :
    Lexes (s ++ t) (ts ++ us) := by
  intro rest hrest
  rw [String.toList_append, List.append_assoc, hs, ht rest hrest, Option.map_map]
  exact congrArg (Option.map · _) (funext fun vs ↦ (List.append_assoc ts us vs).symm)

/-- After its last sign, which does not go on, a text is done. -/
theorem Lexes.append_always (hs : Lexes s ts) (ht : LexesAlways t us) (hne : t.toList ≠ [])
    (hstops : Stops t.toList) : LexesAlways (s ++ t) (ts ++ us) := by
  intro rest
  have hrest : Stops (t.toList ++ rest) := by
    rwa [Stops, List.head?_append_of_ne_nil _ hne]
  rw [String.toList_append, List.append_assoc, hs _ hrest, ht rest, Option.map_map]
  exact congrArg (Option.map · _) (funext fun vs ↦ (List.append_assoc ts us vs).symm)

end

/-! ### Single tokens -/

/-- Whether the characters of a text are those of words. -/
def WordChars (s : String) : Prop :=
  ∀ c ∈ s.toList, isWordChar c = true

/-- Whether a text is a word. -/
def IsWord (s : String) : Prop :=
  s.toList ≠ [] ∧ WordChars s

theorem WordChars.append {s t : String} (hs : WordChars s) (ht : WordChars t) :
    WordChars (s ++ t) := by
  rw [WordChars, String.toList_append]
  exact List.forall_mem_append.2 ⟨hs, ht⟩

/-- Words are on one line. -/
theorem WordChars.unbroken {s : String} (h : WordChars s) : Unbroken s := by
  refine unbroken_iff.2 fun c hc ↦ endsLine_eq_false ?_
  have hchar := h c hc
  rw [isWordChar, Bool.or_eq_true, beq_iff_eq] at hchar
  exact hchar.imp id .inl

theorem not_isWordChar_of_mem {c : Char} (h : c = ' ' ∨ c = '\'' ∨ c = '=') :
    isWordChar c = false := by
  rcases h with rfl | rfl | rfl <;> rfl

/-- A character of a word begins one. -/
theorem start_of_isWordChar {c : Char} (h : isWordChar c = true) :
    Begun.start c = ([], .word [c]) := by
  have hother (d : Char) (hd : d = ' ' ∨ d = '\'' ∨ d = '=') : c ≠ d := by
    rintro rfl
    rw [not_isWordChar_of_mem hd] at h
    cases h
  rw [Begun.start, if_neg (hother _ (.inl rfl)), if_neg (hother _ (.inr (.inl rfl))),
    if_neg (hother _ (.inr (.inr rfl))), if_pos h]

/-- **A word that has been begun** goes on to its end. -/
theorem scan?_word (done cs : List Char) (hcs : ∀ c ∈ cs, isWordChar c = true) {rest : List Char}
    (hrest : Stops rest) : (Begun.word done).scan? (cs ++ rest) =
      (tokens? rest).map (.word (.ofList (done ++ cs)) :: ·) := by
  induction cs generalizing done with
  | nil =>
    rw [List.nil_append, List.append_nil]
    cases rest with
    | nil => rfl
    | cons c rest =>
      have hstep : (Begun.word done).step c =
          (.word (.ofList done) :: (Begun.start c).1, (Begun.start c).2) :=
        if_neg (Bool.eq_false_iff.1 (stops_cons_iff.1 hrest).1)
      rw [tokens?, Begun.scan?, Begun.scan?, hstep, Option.map_map]
      rfl
  | cons c cs ih =>
    obtain ⟨hc, hcs⟩ := List.forall_mem_cons.1 hcs
    have hstep : (Begun.word done).step c = ([], .word (done ++ [c])) := by
      rw [Begun.step, if_pos hc]
    rw [List.cons_append, Begun.scan?, hstep, ih (done ++ [c]) hcs, Option.map_map,
      List.append_assoc]
    rfl

theorem lexes_word {s : String} (h : IsWord s) : Lexes s [.word s] := by
  intro rest hrest
  obtain ⟨hne, hchars⟩ := h
  cases hs : s.toList with
  | nil => exact absurd hs hne
  | cons c cs =>
    rw [WordChars, hs] at hchars
    obtain ⟨hc, hcs⟩ := List.forall_mem_cons.1 hchars
    have hstep : Begun.nothing.step c = ([], .word [c]) := start_of_isWordChar hc
    have hword : String.ofList ([c] ++ cs) = s := by
      rw [List.singleton_append, ← hs, String.ofList_toList]
    rw [List.cons_append, tokens?, Begun.scan?, hstep, scan?_word [c] cs hcs hrest, hword,
      Option.map_map]
    rfl

/-- **A text that has been begun** goes on to its last quote. -/
theorem scan?_text (done cs : List Char) {rest : List Char} (hrest : Stops rest) :
    (Begun.text done).scan? (quoteChars cs ++ '\'' :: rest) =
      (tokens? rest).map (.text (.ofList (done ++ cs)) :: ·) := by
  induction cs using quoteChars.induct generalizing done with
  | case1 =>
    rw [quoteChars, List.nil_append, List.append_nil, Begun.scan?]
    show ((Begun.quote done).scan? rest).map _ = _
    -- what follows is no quote, so this one ends the text
    cases rest with
    | nil => rfl
    | cons c rest =>
      have hstep : (Begun.quote done).step c =
          (.text (.ofList done) :: (Begun.start c).1, (Begun.start c).2) :=
        if_neg (stops_cons_iff.1 hrest).2.1
      rw [tokens?, Begun.scan?, Begun.scan?, hstep, Option.map_map, Option.map_map]
      rfl
  | case2 cs ih =>
    rw [quoteChars, List.cons_append, List.cons_append, Begun.scan?, Begun.scan?]
    -- two quotes are one character of the text
    show (((Begun.text (done ++ ['\''])).scan? _).map _).map _ = _
    rw [ih, Option.map_map, Option.map_map, List.append_assoc]
    rfl
  | case3 c cs hc ih =>
    have hstep : (Begun.text done).step c = ([], .text (done ++ [c])) := by
      rw [Begun.step, if_neg hc]
    rw [quoteChars.eq_3 _ _ hc, List.cons_append, Begun.scan?, hstep, ih, Option.map_map,
      List.append_assoc]
    rfl

theorem lexes_quoted (s : String) : Lexes (quoted s) [.text s] := by
  intro rest hrest
  have hline : (quoted s).toList ++ rest = '\'' :: (quoteChars s.toList ++ '\'' :: rest) := by
    rw [toList_quoted, List.append_assoc, List.append_assoc]
    rfl
  rw [hline, tokens?, Begun.scan?]
  show ((Begun.text []).scan? _).map _ = _
  rw [scan?_text [] s.toList hrest, List.nil_append, String.ofList_toList, Option.map_map]
  rfl

/-- Digits are a word. -/
theorem isWord_digits (n : Nat) : IsWord (.ofList (Nat.toDigits 10 n)) := by
  rw [IsWord, WordChars, String.toList_ofList]
  refine ⟨Nat.toDigits_ne_nil, fun c hc ↦ ?_⟩
  have hdigit : c.isDigit = true := Nat.isDigit_of_mem_toDigits (by decide) (by decide) hc
  rw [isWordChar, Char.isAlphanum, hdigit, Bool.or_true, Bool.true_or]

end Matlab

end GraphCodec
