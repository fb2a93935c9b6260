import GraphCodec.Image.Reader
import Mathlib

/-!
# Laws of decoders

Two relations say what a decoder does, and both compose along `>>=`:

* `Reads p bs a` — in front of `bs`, whatever follows, `p` takes exactly `bs` and returns `a`;
* `Yields p R` — whenever `p` returns some `a`, the bytes that it took are in relation `R` with
  `a`.

The first is about bytes that a writer made, the second about bytes from anywhere. A decoder with a
limit reads what respects the limit and refuses everything else that a writer makes, which is
`ReadsWhen p P bs a`.

Counts look ahead: they compare the number of elements with the bytes that are left. So a count
alone satisfies `Reads` for no fixed bytes, and the law `ReadsWhen.count` covers it together with
the elements that it announces.
-/

namespace GraphCodec

namespace Word

/-! ### Words and their bytes -/

theorem ofNat_value_ofUInt32 (v : UInt32) : UInt32.ofNat (value (ofUInt32 v)) = v := by
  have h : v.toNat < 256 ^ 4 := v.toNat_lt
  rw [ofUInt32, value_bytes, Nat.mod_eq_of_lt h, UInt32.ofNat_toNat]

theorem ofNat_value_ofUInt64 (v : UInt64) : UInt64.ofNat (value (ofUInt64 v)) = v := by
  have h : v.toNat < 256 ^ 8 := v.toNat_lt
  rw [ofUInt64, value_bytes, Nat.mod_eq_of_lt h, UInt64.ofNat_toNat]

/-- As many bytes hold no greater value. -/
theorem value_lt_of_length_eq {bs : List UInt8} {n : Nat} (h : bs.length = n) :
    value bs < 256 ^ n :=
  h ▸ value_lt bs

/-- The bytes of a word are what it was made of, so nothing is lost in reading it. -/
theorem ofUInt32_ofNat_value {bs : List UInt8} (h : bs.length = 4) :
    ofUInt32 (.ofNat (value bs)) = bs := by
  have hlt : value bs < 2 ^ 32 := value_lt_of_length_eq h
  rw [ofUInt32, UInt32.toNat_ofNat_of_lt' hlt, ← h, bytes_value]

theorem ofUInt64_ofNat_value {bs : List UInt8} (h : bs.length = 8) :
    ofUInt64 (.ofNat (value bs)) = bs := by
  have hlt : value bs < 2 ^ 64 := value_lt_of_length_eq h
  rw [ofUInt64, UInt64.toNat_ofNat_of_lt' hlt, ← h, bytes_value]

/-- The same for words with a sign. Their bytes are those of the word without one. -/
theorem ofInt16_toInt16 {bs : List UInt8} (h : bs.length = 2) : ofInt16 (toInt16 bs) = bs := by
  have hlt : value bs < 2 ^ 16 := value_lt_of_length_eq h
  show bytes 2 (UInt16.ofNat (value bs)).toNat = bs
  rw [UInt16.toNat_ofNat_of_lt' hlt, ← h, bytes_value]

theorem ofInt32_toInt32 {bs : List UInt8} (h : bs.length = 4) : ofInt32 (toInt32 bs) = bs :=
  ofUInt32_ofNat_value h

theorem ofInt64_toInt64 {bs : List UInt8} (h : bs.length = 8) : ofInt64 (toInt64 bs) = bs :=
  ofUInt64_ofNat_value h

end Word

/-- The bytes of a text, character by character. -/
theorem Utf8.bytes_eq_flatMap (s : String) :
    bytes s = s.toList.flatMap String.utf8EncodeChar := by
  rw [bytes, ← String.utf8Encode_toList, List.utf8Encode]
  simp

/-- The stored form of a length. -/
def lengthWord (n : Nat) : List UInt8 :=
  Word.ofInt32 (Int32.ofNat n)

@[simp] theorem length_lengthWord (n : Nat) : (lengthWord n).length = 4 :=
  Word.length_ofInt32 _

/-- A length is stored exactly if it is within the limit of words with a sign. -/
theorem lengthBytes_eq_ok_iff {n : Nat} {bs : List UInt8} :
    lengthBytes n = .ok bs ↔ n ≤ maxLength ∧ bs = lengthWord n := by
  unfold lengthBytes lengthWord
  by_cases h : n ≤ maxLength
  · simp [h, eq_comm]
  · simp [h]

/-- One computation after the other succeeds exactly if both do, the second on what the first
returned. -/
theorem bind_eq_ok_iff {ε α β : Type} {x : Except ε α} {f : α → Except ε β} {b : β} :
    (x >>= f) = .ok b ↔ ∃ a, x = .ok a ∧ f a = .ok b := by
  cases x with
  | error e => exact ⟨fun h ↦ (by cases h), fun ⟨_, h, _⟩ ↦ (by cases h)⟩
  | ok a => exact ⟨fun h ↦ ⟨a, rfl, h⟩, fun ⟨_, h, hf⟩ ↦ (by cases h; exact hf)⟩

/-- A result that is converted is a conversion of a result. -/
theorem map_eq_ok_iff {ε α β : Type} {x : Except ε α} {g : α → β} {b : β} :
    x.map g = .ok b ↔ ∃ a, x = .ok a ∧ g a = b := by
  cases x <;> simp [Except.map]

/-- Lists whose elements have the same images have the same image. -/
theorem map_eq_map_of_forall₂ {α β γ : Type} {f : α → γ} {g : β → γ} {as : List α} {bs : List β}
    (h : List.Forall₂ (fun a b ↦ f a = g b) as bs) : as.map f = bs.map g := by
  have heq : List.Forall₂ (· = ·) (as.map f) (bs.map g) := by
    rwa [List.forall₂_map_left_iff, List.forall₂_map_right_iff]
  rwa [List.forall₂_eq_eq_eq] at heq

/-- **A run of computations** succeeds with one result for each of them. -/
theorem mapM_eq_ok_iff_forall₂ {ε α β : Type} {f : α → Except ε β} {as : List α} {bs : List β} :
    as.mapM f = .ok bs ↔ List.Forall₂ (fun a b ↦ f a = .ok b) as bs := by
  induction as generalizing bs with
  | nil =>
    rw [List.mapM_nil, List.forall₂_nil_left_iff]
    exact ⟨fun h ↦ (Except.ok.inj h).symm, fun h ↦ h ▸ rfl⟩
  | cons a as ih =>
    rw [List.mapM_cons, List.forall₂_cons_left_iff]
    simp only [bind_eq_ok_iff, ih]
    -- the run stops at the first error, so it went on exactly if there was none
    constructor
    · rintro ⟨b, hb, bs', hbs, h⟩
      exact ⟨b, bs', hb, hbs, (Except.ok.inj h).symm⟩
    · rintro ⟨b, bs', hb, hbs, rfl⟩
      exact ⟨b, hb, bs', hbs, rfl⟩

/-- Elementwise images, as the image of the list. -/
theorem forall₂_eq_map_iff {α β : Type} {g : α → β} {as : List α} {bs : List β} :
    List.Forall₂ (fun a b ↦ b = g a) as bs ↔ bs = as.map g := by
  rw [← List.forall₂_eq_eq_eq, List.forall₂_map_right_iff]
  exact ⟨List.Forall₂.flip, List.Forall₂.flip⟩

/-- A run of computations with known conditions and results succeeds exactly if it meets all of the
conditions. -/
theorem mapM_eq_ok_iff {ε α β : Type} {f : α → Except ε β} {P : α → Prop} {g : α → β}
    (h : ∀ a b, f a = .ok b ↔ P a ∧ b = g a) {as : List α} {bs : List β} :
    as.mapM f = .ok bs ↔ (∀ a ∈ as, P a) ∧ bs = as.map g := by
  simp only [mapM_eq_ok_iff_forall₂, h, List.forall₂_and_left, forall₂_eq_map_iff]

/-- The direction without conditions, for computations that are known to succeed. -/
theorem mapM_eq_ok_map {α β ε : Type} {f : α → Except ε β} {g : α → β} {as : List α}
    (h : ∀ a ∈ as, f a = .ok (g a)) : as.mapM f = .ok (as.map g) :=
  mapM_eq_ok_iff_forall₂.2 (List.forall₂_map_right_iff.2 (List.forall₂_same.2 h))

/-- The stored form of a text. -/
def textForm (s : String) : List UInt8 :=
  lengthWord (Utf8.size s) ++ Utf8.bytes s

/-- A text is stored exactly if its length is, as the length and then the bytes. -/
theorem textBytes_eq_ok_iff {s : String} {bs : List UInt8} :
    textBytes s = .ok bs ↔ Utf8.size s ≤ maxLength ∧ bs = textForm s := by
  unfold textBytes
  rw [bind_eq_ok_iff]
  constructor
  · rintro ⟨ls, hls, h⟩
    obtain ⟨hle, rfl⟩ := lengthBytes_eq_ok_iff.1 hls
    cases h
    exact ⟨hle, rfl⟩
  · rintro ⟨hle, rfl⟩
    exact ⟨_, lengthBytes_eq_ok_iff.2 ⟨hle, rfl⟩, rfl⟩

namespace Cursor

/-- The cursor in front of `rest` after `position` bytes. -/
def before (rest : List UInt8) (position : Nat) : Cursor :=
  { ofBytes rest with position := position }

@[simp] theorem rest_before (rest : List UInt8) (position : Nat) :
    (before rest position).rest = rest := rfl

@[simp] theorem position_before (rest : List UInt8) (position : Nat) :
    (before rest position).position = position := rfl

@[simp] theorem remaining_before (rest : List UInt8) (position : Nat) :
    (before rest position).remaining = rest.length := rfl

theorem ofBytes_eq_before (bs : List UInt8) : ofBytes bs = before bs 0 := rfl

/-- Advancing over what is in front leaves what is behind it. -/
theorem advance_before_append (bs rest : List UInt8) (position : Nat) :
    (before (bs ++ rest) position).advance bs.length = before rest (position + bs.length) := by
  unfold before advance ofBytes
  congr 1
  · simp
  · simp

end Cursor

namespace Decoder

variable {α β γ : Type}

theorem pure_apply (a : α) (c : Cursor) : (pure a : Decoder α) c = .ok (a, c) := rfl

/-- Decoders are composed on their cursors: the second goes on where the first has stopped. -/
theorem bind_apply (p : Decoder α) (f : α → Decoder β) (c : Cursor) :
    (p >>= f) c = match p c with
      | .ok (a, c) => f a c
      | .error e => .error e := by
  show Except.bind (p c) (fun r ↦ f r.1 r.2) = _
  cases p c <;> rfl

/-- Composition inverted, with the cursor between the two named. -/
theorem bind_apply_eq_ok_iff {p : Decoder α} {f : α → Decoder β} {c c' : Cursor} {b : β} :
    (p >>= f) c = .ok (b, c') ↔ ∃ a d, p c = .ok (a, d) ∧ f a d = .ok (b, c') := by
  rw [bind_apply]
  cases h : p c with
  | error e => simp
  | ok r =>
    constructor
    · intro hf
      exact ⟨r.1, r.2, rfl, hf⟩
    · rintro ⟨a, d, hr, hf⟩
      cases hr
      exact hf

/-! ### Reading what was written -/

/-- In front of `bs`, whatever follows, the decoder takes exactly `bs` and returns `a`. -/
def Reads (p : Decoder α) (bs : List UInt8) (a : α) : Prop :=
  ∀ rest position,
    p (.before (bs ++ rest) position) = .ok (a, .before rest (position + bs.length))

/-- In front of `bs`, whatever follows, the decoder fails. -/
def Refuses (p : Decoder α) (bs : List UInt8) : Prop :=
  ∀ rest position, ∃ e, p (.before (bs ++ rest) position) = .error e

/-- In front of `bs`, the decoder takes exactly `bs` and returns `a` if `P` holds, and fails
otherwise. -/
structure ReadsWhen (p : Decoder α) (P : Prop) (bs : List UInt8) (a : α) : Prop where
  reads : P → Reads p bs a
  refuses : ¬P → Refuses p bs

/-- What is always read is read under the condition that always holds. -/
theorem Reads.readsWhen {p : Decoder α} {bs : List UInt8} {a : α} (h : Reads p bs a) :
    ReadsWhen p True bs a :=
  ⟨fun _ ↦ h, fun hf ↦ absurd trivial hf⟩

/-- Only what a condition says is of interest, and not how it says it. -/
theorem ReadsWhen.congr {p : Decoder α} {P Q : Prop} {bs : List UInt8} {a : α}
    (h : ReadsWhen p P bs a) (hiff : P ↔ Q) : ReadsWhen p Q bs a :=
  ⟨fun hq ↦ h.reads (hiff.2 hq), fun hq ↦ h.refuses fun hp ↦ hq (hiff.1 hp)⟩

theorem reads_pure (a : α) : Reads (pure a) [] a := fun _ _ ↦ rfl

theorem readsWhen_pure (a : α) : ReadsWhen (pure a) True [] a :=
  (reads_pure a).readsWhen

theorem refuses_fail (e : DataFault) (bs : List UInt8) : Refuses (fail e : Decoder α) bs :=
  fun _ _ ↦ ⟨_, rfl⟩

/-- **One after the other**: what both take is taken, and the second returns the result. -/
theorem Reads.bind {p : Decoder α} {f : α → Decoder β} {bs cs : List UInt8} {a : α} {b : β}
    (hp : Reads p bs a) (hf : Reads (f a) cs b) : Reads (p >>= f) (bs ++ cs) b := by
  intro rest position
  rw [bind_apply, List.append_assoc, hp]
  show f a _ = _
  rw [hf, List.length_append, Nat.add_assoc]

/-- What is refused at first is refused, whatever would follow. -/
theorem Refuses.bind_left {p : Decoder α} {f : α → Decoder β} {bs : List UInt8}
    (hp : Refuses p bs) (cs : List UInt8) : Refuses (p >>= f) (bs ++ cs) := by
  intro rest position
  obtain ⟨e, he⟩ := hp (cs ++ rest) position
  exact ⟨e, by rw [bind_apply, List.append_assoc, he]⟩

/-- What is refused in the second place is refused, although the first part has been read. -/
theorem Reads.bind_refuses {p : Decoder α} {f : α → Decoder β} {bs cs : List UInt8} {a : α}
    (hp : Reads p bs a) (hf : Refuses (f a) cs) : Refuses (p >>= f) (bs ++ cs) := by
  intro rest position
  obtain ⟨e, he⟩ := hf rest (position + bs.length)
  exact ⟨e, by rw [bind_apply, List.append_assoc, hp]; exact he⟩

/-- **One after the other**: both limits have to be respected. -/
theorem ReadsWhen.bind {p : Decoder α} {f : α → Decoder β} {P Q : Prop} {bs cs : List UInt8}
    {a : α} {b : β} (hp : ReadsWhen p P bs a) (hf : ReadsWhen (f a) Q cs b) :
    ReadsWhen (p >>= f) (P ∧ Q) (bs ++ cs) b := by
  refine ⟨fun h ↦ (hp.reads h.1).bind (hf.reads h.2), fun h ↦ ?_⟩
  by_cases hP : P
  · exact (hp.reads hP).bind_refuses (hf.refuses fun hQ ↦ h ⟨hP, hQ⟩)
  · exact (hp.refuses hP).bind_left cs

/-- Reading first what has no limit of its own. -/
theorem Reads.bindWhen {p : Decoder α} {f : α → Decoder β} {Q : Prop} {bs cs : List UInt8}
    {a : α} {b : β} (hp : Reads p bs a) (hf : ReadsWhen (f a) Q cs b) :
    ReadsWhen (p >>= f) Q (bs ++ cs) b :=
  (hp.readsWhen.bind hf).congr (by rw [true_and])

/-- What follows takes no bytes. -/
theorem Reads.bind_nil {p : Decoder α} {f : α → Decoder β} {bs : List UInt8} {a : α} {b : β}
    (hp : Reads p bs a) (hf : Reads (f a) [] b) : Reads (p >>= f) bs b := by
  have h := hp.bind hf
  rwa [List.append_nil] at h

/-- What follows checks a limit and takes no bytes. -/
theorem Reads.bindWhen_nil {p : Decoder α} {f : α → Decoder β} {Q : Prop} {bs : List UInt8}
    {a : α} {b : β} (hp : Reads p bs a) (hf : ReadsWhen (f a) Q [] b) :
    ReadsWhen (p >>= f) Q bs b := by
  have h := hp.bindWhen hf
  rwa [List.append_nil] at h

/-- A conversion at the end takes no bytes. -/
theorem Reads.map {p : Decoder α} {bs : List UInt8} {a : α} (hp : Reads p bs a) (f : α → β) :
    Reads (p >>= fun x ↦ pure (f x)) bs (f a) :=
  hp.bind_nil (reads_pure (f a))

theorem ReadsWhen.map {p : Decoder α} {P : Prop} {bs : List UInt8} {a : α}
    (hp : ReadsWhen p P bs a) (f : α → β) : ReadsWhen (p >>= fun x ↦ pure (f x)) P bs (f a) := by
  have h := hp.bind (f := fun x ↦ pure (f x)) (readsWhen_pure (f a))
  rw [List.append_nil] at h
  exact h.congr (by rw [and_true])

/-! ### Bytes from anywhere -/

/-- Whenever the decoder returns some `a`, the bytes that it took are in relation `R` with `a`. -/
def Yields (p : Decoder α) (R : α → List UInt8 → Prop) : Prop :=
  ∀ ⦃c a c'⦄, p c = .ok (a, c') →
    ∃ bs, R a bs ∧ c.rest = bs ++ c'.rest ∧ c'.position = c.position + bs.length

theorem yields_pure (a : α) : Yields (pure a) fun b bs ↦ b = a ∧ bs = [] := by
  intro c b c' h
  cases h
  exact ⟨[], ⟨rfl, rfl⟩, rfl, rfl⟩

/-- A failure returns nothing, so everything holds of what it returns. -/
theorem yields_fail (e : DataFault) (R : α → List UInt8 → Prop) : Yields (fail e) R := by
  intro c a c' h
  cases h

/-- What is known of the bytes may be forgotten. -/
theorem Yields.mono {p : Decoder α} {R S : α → List UInt8 → Prop} (h : Yields p R)
    (hRS : ∀ a bs, R a bs → S a bs) : Yields p S := by
  intro c a c' hp
  obtain ⟨bs, hR, hrest⟩ := h hp
  exact ⟨bs, hRS a bs hR, hrest⟩

/-- **One after the other**: the bytes taken are those of the first and then those of the second,
which may depend on what the first returned. -/
theorem Yields.bind {p : Decoder α} {f : α → Decoder β} {R : α → List UInt8 → Prop}
    {S : α → β → List UInt8 → Prop} (hp : Yields p R)
    (hf : ∀ a as, R a as → Yields (f a) (S a)) :
    Yields (p >>= f) fun b bs ↦ ∃ a as cs, R a as ∧ S a b cs ∧ bs = as ++ cs := by
  intro c b c' h
  obtain ⟨a, d, hpa, hfa⟩ := bind_apply_eq_ok_iff.1 h
  obtain ⟨as, hR, hrest, hpos⟩ := hp hpa
  obtain ⟨cs, hS, hrest', hpos'⟩ := hf a as hR hfa
  refine ⟨as ++ cs, ⟨a, as, cs, hR, hS, rfl⟩, ?_, ?_⟩
  · rw [hrest, hrest', List.append_assoc]
  · rw [hpos', hpos, List.length_append, Nat.add_assoc]

/-- A conversion changes the result and not the bytes. -/
theorem Yields.map {p : Decoder α} {R : α → List UInt8 → Prop} (hp : Yields p R) (f : α → β) :
    Yields (p >>= fun x ↦ pure (f x)) fun b bs ↦ ∃ a, R a bs ∧ b = f a := by
  refine (hp.bind fun a _ _ ↦ yields_pure (f a)).mono ?_
  rintro b bs ⟨a, as, cs, hR, ⟨rfl, rfl⟩, rfl⟩
  exact ⟨a, by rwa [List.append_nil], rfl⟩

/-! ### Words -/

/-- Taking bytes returns them. The name is for error messages only. -/
theorem reads_take (what : String) (bs : List UInt8) : Reads (take what bs.length) bs bs := by
  intro rest position
  have hle : bs.length ≤ (bs ++ rest).length := by simp
  unfold take
  rw [if_pos (show bs.length ≤ (Cursor.before (bs ++ rest) position).remaining from hle),
    Cursor.advance_before_append]
  simp

/-- Bytes that were taken are as many as were asked for. -/
theorem yields_take (what : String) (n : Nat) :
    Yields (take what n) fun a bs ↦ a = bs ∧ bs.length = n := by
  intro c a c' h
  unfold take at h
  -- there are enough bytes, or nothing is returned
  by_cases hle : n ≤ c.remaining
  · rw [if_pos hle] at h
    cases h
    have hlen : (c.rest.take n).length = n := by
      rw [List.length_take, ← c.remaining_eq]
      omega
    refine ⟨c.rest.take n, ⟨rfl, hlen⟩, (List.take_append_drop n c.rest).symm, ?_⟩
    rw [hlen]
    rfl
  · rw [if_neg hle] at h
    cases h

/-- A decoder that takes the bytes of a word and converts them reads every word whose bytes it
converts back. -/
theorem reads_word {what : String} {n : Nat} {of : List UInt8 → α} {bs : List UInt8} {a : α}
    (hlen : bs.length = n) (hof : of bs = a) :
    Reads (take what n >>= fun bs ↦ pure (of bs)) bs a := by
  subst hlen hof
  exact (reads_take what bs).map of

/-- A word that was read from anywhere stands there in its stored form. -/
theorem yields_word {what : String} {n : Nat} {of : List UInt8 → α} {form : α → List UInt8}
    (hform : ∀ bs, bs.length = n → form (of bs) = bs) :
    Yields (take what n >>= fun bs ↦ pure (of bs)) fun a bs ↦ bs = form a := by
  refine ((yields_take what n).map of).mono ?_
  rintro a bs ⟨as, ⟨rfl, hlen⟩, rfl⟩
  exact (hform as hlen).symm

theorem reads_uint8 (b : UInt8) : Reads uint8 [b] b :=
  reads_word rfl (by simp [Word.value])

theorem reads_int8 (v : Int8) : Reads int8 [v.toUInt8] v :=
  reads_word rfl (by simp [Word.value])

theorem reads_int16 (v : Int16) : Reads int16 (Word.ofInt16 v) v :=
  reads_word (Word.length_ofInt16 v) (Word.toInt16_ofInt16 v)

theorem reads_int32 (v : Int32) : Reads int32 (Word.ofInt32 v) v :=
  reads_word (Word.length_ofInt32 v) (Word.toInt32_ofInt32 v)

theorem reads_int64 (v : Int64) : Reads int64 (Word.ofInt64 v) v :=
  reads_word (Word.length_ofInt64 v) (Word.toInt64_ofInt64 v)

theorem reads_float (bits : UInt32) : Reads float (Word.ofUInt32 bits) bits :=
  reads_word (Word.length_ofUInt32 bits) (Word.ofNat_value_ofUInt32 bits)

theorem reads_double (bits : UInt64) : Reads double (Word.ofUInt64 bits) bits :=
  reads_word (Word.length_ofUInt64 bits) (Word.ofNat_value_ofUInt64 bits)

theorem yields_uint8 : Yields uint8 fun b bs ↦ bs = [b] :=
  yields_word fun bs hlen ↦ by
    obtain ⟨b, rfl⟩ := List.length_eq_one_iff.1 hlen
    simp [Word.value]

theorem yields_int8 : Yields int8 fun v bs ↦ bs = [v.toUInt8] :=
  yields_word fun bs hlen ↦ by
    obtain ⟨b, rfl⟩ := List.length_eq_one_iff.1 hlen
    simp [Word.value]

theorem yields_int16 : Yields int16 fun v bs ↦ bs = Word.ofInt16 v :=
  yields_word fun _ ↦ Word.ofInt16_toInt16

theorem yields_int32 : Yields int32 fun v bs ↦ bs = Word.ofInt32 v :=
  yields_word fun _ ↦ Word.ofInt32_toInt32

theorem yields_int64 : Yields int64 fun v bs ↦ bs = Word.ofInt64 v :=
  yields_word fun _ ↦ Word.ofInt64_toInt64

theorem yields_float : Yields float fun bits bs ↦ bs = Word.ofUInt32 bits :=
  yields_word fun _ ↦ Word.ofUInt32_ofNat_value

theorem yields_double : Yields double fun bits bs ↦ bs = Word.ofUInt64 bits :=
  yields_word fun _ ↦ Word.ofUInt64_ofNat_value

/-! ### Counts and texts -/

/-- A count is read back in front of enough bytes for what it announces. -/
theorem length_before_lengthWord {width n : Nat} (hn : n ≤ maxLength) {rest : List UInt8}
    (hrest : n * width ≤ rest.length) (position : Nat) :
    length width (.before (lengthWord n ++ rest) position) =
      .ok (n, .before rest (position + 4)) := by
  have hlt : n < 2 ^ 31 := Nat.lt_of_le_of_lt hn (by decide)
  have hclamp : (Int32.ofNat n).toNatClampNeg = n := Int32.toNatClampNeg_ofNat_of_lt hlt
  have hsign : ¬Int32.ofNat n < 0 := by
    rw [Int32.lt_iff_toInt_lt, Int32.toInt_ofNat_of_lt hlt]
    exact Int.not_lt.2 (Int.natCast_nonneg n)
  have hread : int32 (.before (lengthWord n ++ rest) position) =
      .ok (Int32.ofNat n, .before rest (position + 4)) := by
    rw [lengthWord, reads_int32 (Int32.ofNat n) rest position, Word.length_ofInt32]
  rw [length, bind_apply, hread]
  simp only [if_neg hsign, hclamp]
  show (if rest.length < n * width then _ else _ : Decoder Nat) _ = _
  rw [if_neg (Nat.not_lt.2 hrest)]
  rfl

/-- **A count and what it announces**: the look ahead of the count never refuses elements that
are long enough. -/
theorem ReadsWhen.count {f : Nat → Decoder β} {P : Prop} {width n : Nat} {bs : List UInt8} {b : β}
    (hn : n ≤ maxLength) (hwidth : n * width ≤ bs.length) (hf : ReadsWhen (f n) P bs b) :
    ReadsWhen (length width >>= f) P (lengthWord n ++ bs) b := by
  -- what follows only adds to the bytes that are left
  have happly : ∀ rest position, (length width >>= f)
      (.before (lengthWord n ++ bs ++ rest) position) =
        f n (.before (bs ++ rest) (position + 4)) := by
    intro rest position
    have hrest : n * width ≤ (bs ++ rest).length := by
      rw [List.length_append]
      omega
    rw [bind_apply, List.append_assoc, length_before_lengthWord hn hrest]
  refine ⟨fun hP rest position ↦ ?_, fun hP rest position ↦ ?_⟩
  · rw [happly, hf.reads hP, List.length_append, length_lengthWord, Nat.add_assoc]
  · rw [happly]
    exact hf.refuses hP rest (position + 4)

/-- A count that is within its limit, before as many elements as it says; these are what it looks
ahead to. -/
theorem Reads.count {f : Nat → Decoder β} {width n : Nat} {bs : List UInt8} {b : β}
    (hn : n ≤ maxLength) (hwidth : n * width ≤ bs.length) (hf : Reads (f n) bs b) :
    Reads (length width >>= f) (lengthWord n ++ bs) b :=
  (ReadsWhen.count hn hwidth hf.readsWhen).reads trivial

/-- A length that was read is within the limit and stands there as a word. -/
theorem yields_length (width : Nat) :
    Yields (length width) fun n bs ↦ n ≤ maxLength ∧ bs = lengthWord n := by
  have hclamp : ∀ v : Int32, ¬v < 0 →
      v.toNatClampNeg ≤ maxLength ∧ Word.ofInt32 v = lengthWord v.toNatClampNeg := by
    intro v hv
    have hlt := v.toNatClampNeg_lt
    refine ⟨Nat.le_of_lt_succ hlt, ?_⟩
    rw [lengthWord, Int32.ofNat_toNatClampNeg v (Int32.not_lt.1 hv)]
  intro c n c' h
  obtain ⟨v, d, hv, h⟩ := bind_apply_eq_ok_iff.1 h
  obtain ⟨bs, rfl, hrest, hpos⟩ := yields_int32 hv
  split at h
  · cases h
  · rename_i hsign
    obtain ⟨left, d', hleft, h⟩ := bind_apply_eq_ok_iff.1 h
    cases hleft
    split at h
    · cases h
    · cases h
      exact ⟨_, ⟨(hclamp v hsign).1, (hclamp v hsign).2⟩, hrest, hpos⟩

/-- A text is read back from its stored form. -/
theorem reads_text {s : String} (hs : Utf8.size s ≤ maxLength) : Reads text (textForm s) s := by
  have hlen : (Utf8.bytes s).length = Utf8.size s := Utf8.length_bytes s
  refine Reads.count hs (by omega) ?_
  have htake := reads_take "string" (Utf8.bytes s)
  rw [hlen] at htake
  refine htake.bind_nil ?_
  rw [Utf8.decode_bytes]
  exact reads_pure s

/-- A text that was read from anywhere stands there in its stored form, so its bytes were
well-formed. -/
theorem yields_text : Yields text fun s bs ↦ Utf8.size s ≤ maxLength ∧ bs = textForm s := by
  refine ((yields_length 1).bind fun n _ _ ↦
    (yields_take "string" n).bind (S := fun bs s cs ↦ Utf8.bytes s = bs ∧ cs = []) ?_).mono ?_
  · rintro bs - -
    cases hs : Utf8.decode bs with
    | error e => exact yields_fail _ _
    | ok s =>
      refine (yields_pure s).mono ?_
      rintro t cs ⟨rfl, rfl⟩
      exact ⟨Utf8.bytes_of_decode_eq_ok hs, rfl⟩
  · rintro s bs ⟨n, ls, rest, ⟨hn, rfl⟩, ⟨bs', cs, -, ⟨rfl, hlen⟩, ⟨hs, rfl⟩, rfl⟩, rfl⟩
    subst hs
    rw [Utf8.length_bytes] at hlen
    subst hlen
    exact ⟨hn, by rw [textForm, List.append_nil]⟩

/-! ### Repetition -/

/-- Forms of at least `width` bytes each take at least that much together. -/
theorem length_mul_le_length_flatMap {form : γ → List UInt8} {width : Nat} {xs : List γ}
    (h : ∀ x ∈ xs, width ≤ (form x).length) : xs.length * width ≤ (xs.flatMap form).length := by
  induction xs with
  | nil => simp
  | cons x xs ih =>
    have hx := h x List.mem_cons_self
    have hxs := ih fun y hy ↦ h y (List.mem_cons_of_mem x hy)
    rw [List.length_cons, List.flatMap_cons, List.length_append, Nat.succ_mul]
    omega

/-- The accumulator of the loop only holds what has been read before. -/
theorem eachFrom_eq (read : γ → Decoder α) (xs : List γ) (done : List α) :
    eachFrom read xs done = each xs read >>= fun rest ↦ pure (done.reverse ++ rest) := by
  unfold each
  induction xs generalizing done with
  | nil =>
    funext c
    simp [eachFrom, bind_apply, pure_apply]
  | cons x xs ih =>
    funext c
    rw [bind_apply]
    simp only [eachFrom]
    cases read x c with
    | error e => rfl
    | ok r =>
      simp only [ih (r.1 :: done), ih [r.1], bind_apply]
      cases eachFrom read xs [] r.2 <;> simp [pure_apply]

@[simp] theorem each_nil (read : γ → Decoder α) : each [] read = pure [] := rfl

/-- Reading a list reads its first element and then the others. -/
theorem each_cons (read : γ → Decoder α) (x : γ) (xs : List γ) :
    each (x :: xs) read =
      read x >>= fun a ↦ each xs read >>= fun rest ↦ pure (a :: rest) := by
  funext c
  rw [bind_apply, each]
  simp only [eachFrom]
  cases read x c with
  | error e => rfl
  | ok r => simp only [eachFrom_eq, List.reverse_singleton, List.singleton_append]

/-- Reading a number of times is reading for every member of a list of that length. -/
theorem times_length_eq_each (xs : List γ) (read : Decoder α) :
    times xs.length read = each xs fun _ ↦ read := by
  unfold times each
  generalize [] = done
  induction xs generalizing done with
  | nil => rfl
  | cons x xs ih =>
    funext c
    simp only [List.length_cons, repeatFrom, eachFrom, ih]

/-- Reading as often as a number says is reading a list of that length. -/
theorem times_eq_each (n : Nat) (read : Decoder α) :
    times n read = each (List.replicate n ()) fun _ ↦ read := by
  rw [← times_length_eq_each, List.length_replicate]

/-- What is done with every element can be done with the list in the end. -/
theorem each_map (f : α → β) (read : γ → Decoder α) (xs : List γ) :
    (each xs fun x ↦ f <$> read x) = List.map f <$> each xs read := by
  induction xs with
  | nil => rw [each_nil, each_nil, map_pure, List.map_nil]
  | cons x xs ih =>
    rw [each_cons, each_cons, ih]
    simp only [map_eq_pure_bind, bind_assoc, pure_bind, List.map_cons]

/-- The same for elements that are counted. -/
theorem times_map (f : α → β) (read : Decoder α) (n : Nat) :
    times n (f <$> read) = List.map f <$> times n read := by
  rw [times_eq_each, times_eq_each, each_map]

/-- **Every member in its place**: reading one after the other reads the forms in order, and all
limits have to be respected. What is read may be guided by another list than what is stored. -/
theorem readsWhen_zip {read : γ → Decoder α} {P : β → Prop} {form : β → List UInt8} {val : β → α}
    {xs : List β} {ys : List γ}
    (h : List.Forall₂ (fun x y ↦ ReadsWhen (read y) (P x) (form x) (val x)) xs ys) :
    ReadsWhen (each ys read) (∀ x ∈ xs, P x) (xs.flatMap form) (xs.map val) := by
  induction h with
  | nil => exact (readsWhen_pure []).congr (by simp)
  | @cons x y xs ys hx _ ih =>
    rw [each_cons, List.flatMap_cons, List.map_cons]
    exact (hx.bind (f := fun a ↦ each ys read >>= fun rest ↦ pure (a :: rest))
      (ih.map (val x :: ·))).congr List.forall_mem_cons.symm

/-- **A list** is read under the conditions of all its elements. -/
theorem readsWhen_each {read : γ → Decoder α} {P : γ → Prop} {form : γ → List UInt8} {val : γ → α}
    {xs : List γ} (h : ∀ x ∈ xs, ReadsWhen (read x) (P x) (form x) (val x)) :
    ReadsWhen (each xs read) (∀ x ∈ xs, P x) (xs.flatMap form) (xs.map val) :=
  readsWhen_zip (List.forall₂_same.2 h)

/-- The case of elements without conditions. -/
theorem reads_each {read : γ → Decoder α} {form : γ → List UInt8} {val : γ → α} {xs : List γ}
    (h : ∀ x ∈ xs, Reads (read x) (form x) (val x)) :
    Reads (each xs read) (xs.flatMap form) (xs.map val) :=
  (readsWhen_each fun x hx ↦ (h x hx).readsWhen).reads fun _ _ ↦ trivial

/-- The results and the bytes of a repetition come in pairs, one for every member. What they are
related to may be another list than the one that guides the reader. -/
theorem yields_zip {read : γ → Decoder α} {R : β → α → List UInt8 → Prop} {xs : List β}
    {ys : List γ} (h : List.Forall₂ (fun x y ↦ Yields (read y) (R x)) xs ys) :
    Yields (each ys read) fun as bs ↦ ∃ parts : List (α × List UInt8),
      List.Forall₂ (fun x p ↦ R x p.1 p.2) xs parts ∧ as = parts.map Prod.fst ∧
        bs = parts.flatMap Prod.snd := by
  induction h with
  | nil =>
    refine (yields_pure []).mono ?_
    rintro as bs ⟨rfl, rfl⟩
    exact ⟨[], .nil, rfl, rfl⟩
  | cons hx _ ih =>
    rw [each_cons]
    refine (hx.bind fun a _ _ ↦ ih.map (a :: ·)).mono ?_
    rintro as bs ⟨a, abs, cs, hR, ⟨as', ⟨parts, hparts, rfl, rfl⟩, rfl⟩, rfl⟩
    exact ⟨(a, abs) :: parts, .cons hR hparts, rfl, rfl⟩

/-- Reading a number of times: the results and their bytes come in pairs. -/
theorem yields_times {read : Decoder α} {R : α → List UInt8 → Prop} (h : Yields read R) (n : Nat) :
    Yields (times n read) fun as bs ↦ ∃ parts : List (α × List UInt8), parts.length = n ∧
      (∀ p ∈ parts, R p.1 p.2) ∧ as = parts.map Prod.fst ∧ bs = parts.flatMap Prod.snd := by
  rw [times_eq_each]
  refine (yields_zip (List.forall₂_same.2 fun _ _ ↦ h)).mono ?_
  rintro as bs ⟨parts, hparts, rfl, rfl⟩
  have hlen := hparts.length_eq
  rw [List.length_replicate] at hlen
  refine ⟨parts, hlen.symm, fun p hp ↦ ?_, rfl, rfl⟩
  obtain ⟨i, hi, rfl⟩ := List.getElem_of_mem hp
  exact hparts.get (by rw [List.length_replicate, hlen]; exact hi) hi

/-- Reading a number of times what has one spelling. -/
theorem yields_times_form {read : Decoder α} {P : α → Prop} {form : α → List UInt8}
    (h : Yields read fun a bs ↦ P a ∧ bs = form a) (n : Nat) :
    Yields (times n read) fun as bs ↦
      as.length = n ∧ (∀ a ∈ as, P a) ∧ bs = as.flatMap form := by
  refine (yields_times h n).mono ?_
  rintro as bs ⟨parts, rfl, hparts, rfl, rfl⟩
  refine ⟨List.length_map _, fun a ha ↦ ?_, ?_⟩
  · obtain ⟨p, hp, rfl⟩ := List.mem_map.1 ha
    exact (hparts p hp).1
  · rw [List.flatMap_map]
    exact List.flatMap_congr fun p hp ↦ (hparts p hp).2

end Decoder

namespace Image

/-! ### Complete images -/

variable {bs : List UInt8} {c : Content}

open Decoder

/-- An image is decoded if nothing is left behind its content. -/
theorem decode_eq_ok_iff : decode bs = .ok c ↔
    ∃ rest, readContent (Cursor.ofBytes bs) = .ok (c, rest) ∧ rest.remaining = 0 := by
  unfold decode
  rw [bind_eq_ok_iff]
  constructor
  · rintro ⟨⟨c', rest⟩, hread, h⟩
    by_cases hend : rest.remaining = 0
    · simp only [if_pos hend] at h
      cases h
      exact ⟨rest, hread, hend⟩
    · simp only [if_neg hend] at h
      cases h
  · rintro ⟨rest, hread, hend⟩
    exact ⟨_, hread, by simp only [if_pos hend]; rfl⟩

/-- An image is decoded if reading takes all its bytes. -/
theorem decode_eq_of_reads (h : Reads readContent bs c) : decode bs = .ok c := by
  have hread := h [] 0
  rw [List.append_nil, ← Cursor.ofBytes_eq_before] at hread
  exact decode_eq_ok_iff.2 ⟨_, hread, rfl⟩

/-- What the reader of contents refuses is no image. -/
theorem decode_eq_error_of_refuses (h : Refuses readContent bs) : ∃ e, decode bs = .error e := by
  obtain ⟨e, he⟩ := h [] 0
  rw [List.append_nil, ← Cursor.ofBytes_eq_before] at he
  unfold decode
  rw [he]
  exact ⟨e, rfl⟩

end Image

end GraphCodec
