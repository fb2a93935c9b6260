import GraphCodec.Proofs.Encoding

/-!
# Images in front of more bytes

A decoder *persists* if bytes behind its input change nothing of what it does: where it succeeds, it
succeeds in front of more bytes too, with the same result, and leaves them to be read
(`Decoder.Persists`). The only step that looks at the end of its input is a count, which compares
what it announces with the bytes that are left, and more bytes cannot make it refuse. So every
decoder here persists.

An image has to end where its content does. Since the content of an image is read in the same way
when something is appended to it, what is appended is trailing bytes (`decode_append`), and of two
images neither can begin with the other.
-/

namespace GraphCodec

/-- A place with more bytes at the end of the run. -/
def Cursor.extend (c : Cursor) (more : List UInt8) : Cursor :=
  ⟨c.rest ++ more, c.position, c.remaining + more.length, by simp [c.remaining_eq]⟩

/-- Advancing within the bytes that are there leaves what is behind them. -/
theorem Cursor.extend_advance {c : Cursor} {n : Nat} (h : n ≤ c.remaining) (more : List UInt8) :
    (c.extend more).advance n = (c.advance n).extend more := by
  have hlen : n ≤ c.rest.length := c.remaining_eq ▸ h
  unfold extend advance
  congr 1
  · exact List.drop_append_of_le_length hlen
  · exact Nat.sub_add_comm h

theorem Cursor.ofBytes_append (bs more : List UInt8) :
    ofBytes (bs ++ more) = (ofBytes bs).extend more := by
  unfold ofBytes extend
  congr 1
  exact List.length_append

namespace Decoder

variable {α β γ : Type}

/-- Where the decoder succeeds, it does the same in front of more bytes. -/
def Persists (p : Decoder α) : Prop :=
  ∀ ⦃c a c'⦄, p c = .ok (a, c') → ∀ more, p (c.extend more) = .ok (a, c'.extend more)

/-! ### Sequences -/

theorem persists_pure (a : α) : Persists (pure a) := by
  intro c b c' h more
  cases h
  rfl

theorem persists_fail (e : DataFault) : Persists (fail e : Decoder α) := by
  intro c a c' h
  cases h

/-- One after the other, what persists persists. -/
theorem Persists.bind {p : Decoder α} {f : α → Decoder β} (hp : Persists p)
    (hf : ∀ a, Persists (f a)) : Persists (p >>= f) := by
  intro c b c' h more
  obtain ⟨a, d, ha, hb⟩ := bind_apply_eq_ok_iff.1 h
  exact bind_apply_eq_ok_iff.2 ⟨a, d.extend more, hp ha more, hf a hb more⟩

theorem Persists.map {p : Decoder α} (hp : Persists p) (f : α → β) :
    Persists (p >>= fun a ↦ pure (f a)) :=
  hp.bind fun a ↦ persists_pure (f a)

/-- Lists persist if their elements do. -/
theorem persists_each {read : γ → Decoder α} (h : ∀ x, Persists (read x)) (xs : List γ) :
    Persists (each xs read) := by
  induction xs with
  | nil => exact persists_pure []
  | cons x xs ih =>
    rw [each_cons]
    exact (h x).bind fun a ↦ ih.map (a :: ·)

theorem persists_times {read : Decoder α} (h : Persists read) (n : Nat) :
    Persists (times n read) := by
  rw [times_eq_each]
  exact persists_each (fun _ ↦ h) _

/-! ### Words, counts and texts -/

/-- Bytes that are there are still there with more behind them. -/
theorem persists_take (what : String) (n : Nat) : Persists (take what n) := by
  intro c bs c' h more
  unfold take at h ⊢
  by_cases hle : n ≤ c.remaining
  · have hle' : n ≤ (c.extend more).remaining := Nat.le_add_right_of_le hle
    rw [if_pos hle] at h
    cases h
    rw [if_pos hle', Cursor.extend_advance hle]
    have hlen : n ≤ c.rest.length := c.remaining_eq ▸ hle
    exact congrArg (fun bs ↦ Except.ok (bs, _)) (List.take_append_of_le_length hlen)
  · rw [if_neg hle] at h
    cases h

theorem persists_word (what : String) (n : Nat) (of : List UInt8 → α) :
    Persists (take what n >>= fun bs ↦ pure (of bs)) :=
  (persists_take what n).map of

theorem persists_int32 : Persists int32 :=
  persists_word _ _ _

/-- **A count in front of more bytes** is compared with more than before, and not refused. -/
theorem persists_length (width : Nat) : Persists (length width) := by
  refine persists_int32.bind fun n ↦ ?_
  split
  · exact persists_fail _
  · intro c m c' h more
    obtain ⟨left, d, hleft, h⟩ := bind_apply_eq_ok_iff.1 h
    cases hleft
    by_cases hlong : c.remaining < n.toNatClampNeg * width
    · rw [if_pos hlong] at h
      cases h
    · rw [if_neg hlong] at h
      cases h
      have hfits : ¬(c.extend more).remaining < n.toNatClampNeg * width := by
        show ¬c.remaining + more.length < n.toNatClampNeg * width
        omega
      refine bind_apply_eq_ok_iff.2 ⟨_, _, rfl, ?_⟩
      rw [if_neg hfits]
      rfl

/-- A text persists, although its count looks ahead. -/
theorem persists_text : Persists text := by
  refine (persists_length 1).bind fun n ↦ (persists_take _ n).bind fun bs ↦ ?_
  cases Utf8.decode bs with
  | ok s => exact persists_pure s
  | error e => exact persists_fail _

/-! ### Primitives -/

theorem persists_boolean (inRecord : Bool) : Persists (boolean inRecord) := by
  refine (persists_word _ _ _).bind fun b ↦ ?_
  split_ifs
  · exact persists_pure _
  · exact persists_pure _
  · exact persists_pure _
  · exact persists_fail _

/-- A date is a text that is read further. -/
theorem persists_date : Persists date := by
  refine persists_text.bind fun s ↦ ?_
  split
  · exact persists_pure _
  · cases Rfc3339.parse s with
    | ok d => exact persists_pure _
    | error e => exact persists_fail _

/-- Every kind persists. -/
theorem persists_primitive (k : Kind) (inRecord : Bool) : Persists (primitive k inRecord) := by
  cases k with
  | boolean => exact persists_boolean inRecord
  | date => exact persists_date
  | string => exact persists_text.map _
  | enum => exact persists_text.map _
  | _ => exact (persists_word _ _ _).map _

/-! ### The dictionary -/

/-- Fields are checked against the types that are known, and not against what follows. -/
theorem persists_readField (known : Dictionary) (owner : String) :
    Persists (Dictionary.readField known owner) := by
  refine persists_text.bind fun name ↦ persists_int32.bind fun tag ↦ persists_int32.bind
    fun dims ↦ ?_
  split_ifs
  · exact persists_fail _
  · exact persists_fail _
  · exact persists_pure _

/-- Types are checked against those before them only. -/
theorem persists_readType (known : Dictionary) : Persists (Dictionary.readType known) := by
  refine persists_int32.bind fun tag ↦ ?_
  split
  · exact persists_fail _
  · refine persists_text.bind fun name ↦ (persists_length _).bind fun n ↦ ?_
    split
    · exact persists_fail _
    · refine (persists_times (persists_readField known name) n).bind fun fields ↦ ?_
      split
      · exact persists_fail _
      · exact persists_pure _

theorem persists_readTypes (n : Nat) (known : Dictionary) :
    Persists (Dictionary.readTypes n known) := by
  induction n generalizing known with
  | zero => exact persists_pure known
  | succ n ih =>
    rw [readTypes_succ]
    exact (persists_readType known).bind ih

/-- So the whole section persists. -/
theorem persists_readHeader : Persists Dictionary.readHeader := by
  refine (persists_length _).bind fun n ↦ ?_
  split
  · exact persists_fail _
  · exact persists_readTypes n _

/-! ### The body -/

theorem persists_readEntry (d : Dictionary) (tag : Tag) : Persists (Image.readType d tag) := by
  unfold Image.readType
  cases d.descriptor? tag with
  | some t => exact persists_pure t
  | none => exact persists_fail _

/-- A count may look ahead to more bytes than there were. -/
theorem persists_readCount (tag : Tag) (width : Nat) : Persists (Image.readCount tag width) := by
  refine (persists_length width).bind fun n ↦ ?_
  split
  · exact persists_fail _
  · exact persists_pure n

/-- **The reader of slots**, by the levels that it may still enter. -/
theorem persists_readSlot (d : Dictionary) (widths : List (Tag × Nat)) (levels : Nat) (tag : Tag)
    (dims : Nat) (inRecord : Bool) :
    Persists (Image.readSlot d widths levels tag dims inRecord) := by
  induction levels generalizing tag dims inRecord with
  | zero =>
    cases dims with
    | zero =>
      rw [Image.readSlot]
      cases Kind.ofTag? tag with
      | some k => exact persists_primitive k inRecord
      | none => exact (persists_readEntry d tag).bind fun t ↦ persists_fail _
    | succ dims =>
      rw [Image.readSlot]
      exact persists_fail _
  | succ levels ih =>
    cases dims with
    | zero =>
      rw [Image.readSlot]
      cases Kind.ofTag? tag with
      | some k => exact persists_primitive k inRecord
      | none =>
        refine (persists_readEntry d tag).bind fun t ↦ Persists.map ?_ _
        exact persists_each (fun f ↦ (ih f.tag _ true).map fun v ↦ (f.name, v)) t.fields
    | succ dims =>
      rw [Image.readSlot]
      refine (persists_readCount tag _).bind fun n ↦ Persists.map ?_ _
      exact persists_times (ih tag dims false) n

/-- **The content of an image** persists. -/
theorem persists_readContent : Persists Image.readContent := by
  refine persists_int32.bind fun found ↦ ?_
  split
  · exact persists_fail _
  · refine persists_readHeader.bind fun d ↦ persists_int32.bind fun rootTag ↦
      (persists_readEntry d rootTag).bind fun t ↦ Persists.map (Persists.map ?_ _) _
    exact persists_each (fun f ↦ (persists_readSlot d _ _ f.tag _ true).map fun v ↦ (f.name, v))
      t.fields

end Decoder

namespace Image

/-! ### Complete images -/

variable {bs : List UInt8} {c : Content}

/-- **What is appended to an image** is left over, and refused for this. -/
theorem decode_append (h : decode bs = .ok c) {more : List UInt8} (hmore : more ≠ []) :
    decode (bs ++ more) = .error (.data (.trailingBytes more.length)) := by
  obtain ⟨rest, hread, hend⟩ := decode_eq_ok_iff.1 h
  have hlen : (rest.extend more).remaining = more.length := by
    show rest.remaining + more.length = more.length
    rw [hend, Nat.zero_add]
  have hne : ¬(rest.extend more).remaining = 0 := by
    rw [hlen]
    exact fun h ↦ hmore (List.length_eq_zero_iff.1 h)
  unfold decode
  rw [Cursor.ofBytes_append, Decoder.persists_readContent hread more]
  show (if (rest.extend more).remaining = 0 then _ else _ : Except Fault Content) = _
  rw [if_neg hne, hlen]
  rfl

/-- **No image begins with another**: what can be decoded cannot be decoded any more when bytes are
taken from its end or appended to it. -/
theorem not_decode_of_decode_prefix {more : List UInt8} (hmore : more ≠ []) :
    ¬((∃ c, decode bs = .ok c) ∧ ∃ c, decode (bs ++ more) = .ok c) := by
  rintro ⟨⟨c, hc⟩, c', hc'⟩
  rw [decode_append hc hmore] at hc'
  cases hc'

/-- An image is none with one more byte. -/
theorem not_decode_append_event :
    (∃ c, decode (imageForm eventDictionary 12 [7, 0, 0, 0, 0, 0, 0, 0]) = .ok c) ∧
      [0] ≠ ([] : List UInt8) ∧
      ¬∃ c, decode (imageForm eventDictionary 12 [7, 0, 0, 0, 0, 0, 0, 0] ++ [0]) = .ok c := by
  have hevent : ∃ c, decode (imageForm eventDictionary 12 [7, 0, 0, 0, 0, 0, 0, 0]) = .ok c :=
    ⟨⟨eventDictionary, "Event", [("id", .int 7), ("at", .null)]⟩, by cbv⟩
  exact ⟨hevent, by decide, fun h ↦ not_decode_of_decode_prefix (by decide) ⟨hevent, h⟩⟩

end Image

end GraphCodec
