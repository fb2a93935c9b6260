import GraphCodec.Proofs.SavedFront

/-!
# What literals for bytes denote

The literal for the stored bytes of a text is read here with no knowledge of where it comes from
(`denoted?`): between quotes every character is the byte of its code, and a quote is written twice;
otherwise it is a row of numbers. Read that way, a character beyond ASCII between quotes would not
be its stored bytes, so the choice between the two forms matters. It is right for every text
(`denoted?_byteLiteral`), and since the bytes of a text determine it, different texts have different
literals. The statements that write a name are read in the same way and write the stored form of
the name, or nothing where it has none (`denotedLines?_writeName`).
-/

namespace GraphCodec

namespace Matlab

/-! ### Plain characters -/

/-- Whether a character is visible in ASCII, or a blank. -/
def PlainChar (c : Char) : Prop :=
  ' ' ≤ c ∧ c ≤ '~'

instance (c : Char) : Decidable (PlainChar c) :=
  inferInstanceAs (Decidable (_ ∧ _))

/-- Plain characters by their codes. -/
theorem plainChar_iff {c : Char} : PlainChar c ↔ 32 ≤ c.toNat ∧ c.toNat ≤ 126 := by
  rw [PlainChar, Char.le_def, Char.le_def, UInt32.le_iff_toNat_le, UInt32.le_iff_toNat_le]
  rfl

theorem plainChar_of_isDigit {c : Char} (h : c.isDigit = true) : PlainChar c := by
  rw [plainChar_iff]
  simp only [Char.isDigit, Bool.and_eq_true, decide_eq_true_eq, UInt32.le_iff_toNat_le] at h
  obtain ⟨hlow, hhigh⟩ := h
  exact ⟨Nat.le_trans (by decide) hlow, Nat.le_trans hhigh (by decide)⟩

/-- A character with plain bytes is plain: beyond ASCII the first byte is not. -/
theorem plainChar_of_isPlainByte {c : Char}
    (h : ∀ b ∈ String.utf8EncodeChar c, isPlainByte b = true) : PlainChar c := by
  have hplain {n : Nat} (hn : n < 256) (hmem : UInt8.ofNat n ∈ String.utf8EncodeChar c) :
      32 ≤ n ∧ n < 127 := by
    have hb := h _ hmem
    simp only [isPlainByte, Bool.and_eq_true, decide_eq_true_eq, UInt8.le_iff_toNat_le,
      UInt8.lt_iff_toNat_lt, UInt8.toNat_ofNat_of_lt' hn] at hb
    exact hb
  rw [plainChar_iff]
  have hval : c.val.toNat = c.toNat := rfl
  unfold String.utf8EncodeChar at hplain
  dsimp only at hplain
  split_ifs at hplain with hone htwo hthree
  · have := hplain (n := c.val.toNat) (by omega) List.mem_cons_self
    omega
  · have := hplain (by omega) List.mem_cons_self
    omega
  · have := hplain (by omega) List.mem_cons_self
    omega
  · have := hplain (by omega) List.mem_cons_self
    omega

/-- **Literals for bytes are plain**, whatever the text is; so they are on one line. -/
theorem plainChar_byteLiteral (s : String) : ∀ c ∈ (byteLiteral s).print.toList, PlainChar c := by
  have hinteger (v : Int) : ∀ c ∈ (Json.integerText v).toList, PlainChar c := by
    intro c hc
    rcases mem_toList_integerText hc with rfl | hdigit
    · decide
    · exact plainChar_of_isDigit hdigit
  unfold byteLiteral
  split
  · rename_i hplain
    refine forall_mem_quoted (by decide) fun c hc ↦ plainChar_of_isPlainByte fun b hb ↦ ?_
    rw [List.all_eq_true, Utf8.bytes_eq_flatMap] at hplain
    exact hplain b (List.mem_flatMap.2 ⟨c, hc, hb⟩)
  · have hitems : ∀ t ∈ Expr.printAll ((Utf8.bytes s).map fun b ↦ .number b.toNat),
        ∀ c ∈ t.toList, PlainChar c := by
      rw [printAll_map]
      intro t ht
      obtain ⟨b, -, rfl⟩ := List.mem_map.1 ht
      exact hinteger b.toNat
    have hblank : ∀ c ∈ " ".toList, PlainChar c := by simp; decide
    have hrow := forall_mem_intercalate hblank hitems
    rw [toList_print_call_uint8, Expr.print, String.toList_append, String.toList_append]
    simp only [List.forall_mem_append]
    exact ⟨by simp; decide, ⟨⟨by simp; decide, hrow⟩, by simp; decide⟩, by simp; decide⟩

/-! ### Reading literals by codes -/

/-- The byte that a character between quotes stands for. -/
def charByte? (c : Char) : Option UInt8 :=
  if c.toNat < 256 then some (.ofNat c.toNat) else none

/-- The bytes that a literal denotes: the codes of characters, or numbers in a row. -/
def denoted? (literal : List Char) : Option (List UInt8) :=
  match between? "uint8(".toList [')'] literal with
  | some row => ((rowItems row).mapM byte?).map List.flatten
  | none => do (← unquote? (← between? ['\''] ['\''] literal)).mapM charByte?

/-- Undoing quotes adds no characters. -/
theorem mem_of_unquote? {l cs : List Char} (h : unquote? l = some cs) {c : Char} (hc : c ∈ cs) :
    c ∈ l := by
  induction l using unquote?.induct generalizing cs with
  | case1 =>
    cases h
    exact hc
  | case2 l ih =>
    rw [unquote?, Option.map_eq_some_iff] at h
    obtain ⟨cs', hcs', rfl⟩ := h
    rcases List.mem_cons.1 hc with rfl | hc
    · exact List.mem_cons_self
    · exact List.mem_cons_of_mem _ (List.mem_cons_of_mem _ (ih hcs' hc))
  | case3 l hl =>
    rw [unquote?.eq_3 _ hl] at h
    cases h
  | case4 d l hd hquote ih =>
    rw [unquote?.eq_4 _ _ hd hquote, Option.map_eq_some_iff] at h
    obtain ⟨cs', hcs', rfl⟩ := h
    rcases List.mem_cons.1 hc with rfl | hc
    · exact List.mem_cons_self
    · exact List.mem_cons_of_mem _ (ih hcs' hc)

/-- What is between is part of the whole. -/
theorem subset_of_between? {front back l mid : List Char} (h : between? front back l = some mid) :
    mid ⊆ l := by
  obtain ⟨rest, hrest, hmid⟩ := Option.bind_eq_some_iff.1 h
  obtain ⟨front', rfl, -⟩ := List.dropPrefix?_eq_some_iff.1 hrest
  obtain ⟨back', rfl, -⟩ := List.dropSuffix?_eq_some_iff.1 hmid
  exact fun c hc ↦ List.mem_append_right _ (List.mem_append_left _ hc)

/-- The stored bytes of plain characters are their codes. -/
theorem mapM_charByte? {cs : List Char} (h : ∀ c ∈ cs, PlainChar c) :
    cs.mapM charByte? = some (Utf8.bytes (String.ofList cs)) := by
  rw [Utf8.bytes_eq_flatMap, String.toList_ofList]
  induction cs with
  | nil => rfl
  | cons c cs ih =>
    obtain ⟨-, hle⟩ := plainChar_iff.1 (h c List.mem_cons_self)
    have hsize : c.utf8Size = 1 := by
      rw [Char.utf8Size_eq_one_iff, UInt32.le_iff_toNat_le]
      exact Nat.le_trans hle (by decide)
    have hbyte : charByte? c = some c.val.toUInt8 := if_pos (by omega)
    rw [List.mapM_cons, hbyte, ih fun d hd ↦ h d (List.mem_cons_of_mem c hd), List.flatMap_cons,
      String.utf8EncodeChar_eq_singleton hsize]
    rfl

/-- For plain literals it makes no difference whether characters stand for their codes or for their
stored bytes. -/
theorem denoted?_eq_bytes? {literal : List Char} (h : ∀ c ∈ literal, PlainChar c) :
    denoted? literal = bytes? literal := by
  unfold denoted? bytes?
  cases between? "uint8(".toList [')'] literal with
  | some row => rfl
  | none =>
    cases hmid : between? ['\''] ['\''] literal with
    | none => rfl
    | some mid =>
      cases hcs : unquote? mid with
      | none => simp [hcs]
      | some cs =>
        have hplain : ∀ c ∈ cs, PlainChar c := fun c hc ↦
          h c (subset_of_between? hmid (mem_of_unquote? hcs hc))
        simp [hcs, mapM_charByte? hplain]

/-- **The literal for the stored bytes of a text** denotes them. -/
theorem denoted?_byteLiteral (s : String) :
    denoted? (byteLiteral s).print.toList = some (Utf8.bytes s) := by
  rw [denoted?_eq_bytes? (plainChar_byteLiteral s), bytes?_byteLiteral]

/-- Different texts have different literals. -/
theorem print_byteLiteral_injective :
    Function.Injective fun s ↦ (byteLiteral s).print := by
  intro s t h
  have hbytes : Utf8.bytes s = Utf8.bytes t := by
    have hread := congrArg (fun l ↦ denoted? l.toList) h
    simpa only [denoted?_byteLiteral, Option.some.injEq] using hread
  have hdecode := Utf8.decode_bytes s
  rw [hbytes, Utf8.decode_bytes] at hdecode
  exact (Except.ok.inj hdecode).symm

/-! ### Statements -/

/-- What a statement that writes a value writes; other lines are not read. -/
def denotedLine? (line : List Char) : Option (List UInt8) :=
  match between? "fwrite(fid, ".toList ", 'int32');".toList line with
  | some literal => words? literal
  | none => (between? "fwrite(fid, ".toList ", 'uint8');".toList line).bind denoted?

/-- What lines write, one after the other. -/
def denotedLines? (ls : List Line) : Option (List UInt8) :=
  (ls.mapM fun l ↦ denotedLine? l.text.toList).map List.flatten

/-- Lines denote their bytes one after the other. -/
theorem denotedLines?_cons (l : Line) (ls : List Line) :
    denotedLines? (l :: ls) =
      (denotedLine? l.text.toList).bind fun bs ↦ (denotedLines? ls).map (bs ++ ·) := by
  unfold denotedLines?
  rw [List.mapM_cons]
  cases denotedLine? l.text.toList with
  | none => rfl
  | some bs => cases ls.mapM fun l ↦ denotedLine? l.text.toList <;> rfl

theorem lines_fwrite (v : Expr) (form : String) (depth : Nat) : (fwrite v form).lines depth =
    [⟨depth, "fwrite(fid, " ++ (v.print ++ (", " ++ (quoted form ++ ");")))⟩] := by
  rw [fwrite, Stmt.lines, print_fwrite]

/-- A statement that writes words denotes them. -/
theorem denotedLines?_fwrite_int32 (depth : Nat) (v : Expr) (ss : List Stmt) :
    denotedLines? (Stmt.linesOf depth (fwrite v "int32" :: ss)) =
      (words? v.print.toList).bind fun bs ↦
        (denotedLines? (Stmt.linesOf depth ss)).map (bs ++ ·) := by
  have hline : denotedLine? ("fwrite(fid, ".toList ++ (v.print.toList ++ ", 'int32');".toList)) =
      words? v.print.toList := by
    unfold denotedLine?
    rw [between?_append]
  rw [Stmt.linesOf, lines_fwrite, List.singleton_append, denotedLines?_cons, String.toList_append,
    String.toList_append]
  exact congrArg (Option.bind · _) hline

/-- A statement that writes bytes denotes them. -/
theorem denotedLines?_fwrite_uint8 (depth : Nat) (v : Expr) (ss : List Stmt) :
    denotedLines? (Stmt.linesOf depth (fwrite v "uint8" :: ss)) =
      (denoted? v.print.toList).bind fun bs ↦
        (denotedLines? (Stmt.linesOf depth ss)).map (bs ++ ·) := by
  have hline : denotedLine? ("fwrite(fid, ".toList ++ (v.print.toList ++ ", 'uint8');".toList)) =
      denoted? v.print.toList := by
    unfold denotedLine?
    rw [between?_other, between?_append]
    rfl
  rw [Stmt.linesOf, lines_fwrite, List.singleton_append, denotedLines?_cons, String.toList_append,
    String.toList_append]
  exact congrArg (Option.bind · _) hline

/-- A number is written as a word exactly if it can be stored as a length. -/
theorem words?_integerText (n : Nat) :
    words? (Json.integerText n).toList = (lengthBytes n).toOption := by
  have hword : word? (Json.integerText n).toList = (lengthBytes n).toOption := by
    unfold word?
    rw [integer?_integerText, Option.bind_eq_bind, Option.bind_some]
    unfold lengthBytes
    by_cases h : n ≤ maxLength
    · have hrange : -2 ^ 31 ≤ (n : Int) ∧ (n : Int) < 2 ^ 31 := by
        have hlt : n < 2 ^ 31 := Nat.lt_succ_of_le h
        omega
      rw [if_pos h, if_pos hrange]
      rfl
    · have hrange : ¬(-2 ^ 31 ≤ (n : Int) ∧ (n : Int) < 2 ^ 31) := by
        have hle : 2 ^ 31 ≤ n := Nat.lt_of_not_le h
        omega
      rw [if_neg h, if_neg hrange]
      rfl
  unfold words?
  rw [rowItems_integerText, List.mapM_cons, List.mapM_nil, hword]
  cases (lengthBytes n).toOption with
  | none => rfl
  | some bs => exact congrArg some (List.append_nil bs)

/-- **The statements that write a name** write its stored form, and are refused if it has none. -/
theorem denotedLines?_writeName (depth : Nat) (s : String) :
    denotedLines? (Stmt.linesOf depth (writeName s)) = (textBytes s).toOption := by
  have hbytes : denotedLines? (Stmt.linesOf depth
      (if s = "" then [] else [fwrite (byteLiteral s) "uint8"])) = some (Utf8.bytes s) := by
    split
    · rename_i hs
      subst hs
      rfl
    · rw [denotedLines?_fwrite_uint8, denoted?_byteLiteral]
      exact congrArg some (List.append_nil _)
  unfold writeName writeWord
  rw [denotedLines?_fwrite_int32, hbytes, textBytes]
  show ((words? (Json.integerText (Utf8.size s)).toList).bind _) = _
  rw [words?_integerText]
  cases lengthBytes (Utf8.size s) <;> rfl

/-- **Literals for bytes are exact.** The literal for a text consists of visible ASCII characters
and blanks, so it is on one line. It denotes exactly the stored bytes of the text, and no other text
has the same literal. Hence the statements that write a name write what the encoder writes of it,
wherever they stand. -/
theorem byteLiteral_exact (s : String) :
    (∀ c ∈ (byteLiteral s).print.toList, ' ' ≤ c ∧ c ≤ '~') ∧
      denoted? (byteLiteral s).print.toList = some (Utf8.bytes s) ∧
      (∀ t, (byteLiteral t).print = (byteLiteral s).print → t = s) ∧
      ∀ depth, denotedLines? (Stmt.linesOf depth (writeName s)) = (textBytes s).toOption :=
  ⟨plainChar_byteLiteral s, denoted?_byteLiteral s, fun _ h ↦ print_byteLiteral_injective h,
    fun depth ↦ denotedLines?_writeName depth s⟩

/-- Quotes are written twice, and a character beyond ASCII makes a row of numbers. -/
example : (byteLiteral "it's").print = "'it''s'" ∧
    (byteLiteral "é").print = "uint8([195 169])" := by
  decide

end Matlab

end GraphCodec
