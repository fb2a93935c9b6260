import GraphCodec.Proofs.DateText
import GraphCodec.Proofs.Slot

/-!
# Stored primitives are read back

What the writer makes of a primitive is its form (`primitiveBytes_eq_ok_iff`), and the reader takes
exactly that form, except that it refuses a date whose year does not have four digits
(`readsWhen_primitive`). Conversely, a primitive that is read is spelled by its form and by nothing
else (`yields_primitive`); only for a date does this depend on the text, because a date can be
written in many ways.
-/

namespace GraphCodec

/-- A value that is not absent has one kind. -/
theorem Value.kind_eq {v : Value} {k l : Kind} (hv : v ≠ .null) (hk : v.matchesKind k = true)
    (hl : v.matchesKind l = true) : k = l := by
  cases v with
  | null => exact absurd rfl hv
  | _ =>
    -- all kinds but one contradict `hk`, and then all but the same one `hl`
    cases k <;> first
      | (cases hk; done)
      | (cases l <;> first | rfl | cases hl)

/-- What is neither absent nor a sentinel is read back as it is. -/
theorem restoredScalar_eq_self {k : Kind} {v : Value} (hv : v ≠ .null)
    (hsentinel : v.isSentinel = false) (inRecord : Bool) : restoredScalar k inRecord v = v := by
  cases v with
  | null => exact absurd rfl hv
  | _ => simp [restoredScalar, hsentinel]

/-! ### Writing -/

/-- **The writer of primitives** accepts what is of the kind or absent, if its text is short enough,
and appends its form. -/
theorem primitiveBytes_eq_ok_iff {field : String} {k : Kind} {v : Value} {bs : List UInt8} :
    primitiveBytes field k v = .ok bs ↔
      v.matchesKind k = true ∧ Slot.Storable (.primitive k true) v ∧ bs = scalarForm k v := by
  have hword : ∀ as : List UInt8, (Except.ok as : Except Fault (List UInt8)) = .ok bs ↔ bs = as :=
    fun as ↦ by rw [Except.ok.injEq, eq_comm]
  cases k <;> cases v <;>
    simp [primitiveBytes, Value.matchesKind, Slot.Storable, Kind.isTextual, Kind.width?, scalarForm,
      Value.text?, textBytes_eq_ok_iff, hword]

/-- The form of a primitive is never shorter than its kind demands. -/
theorem minWidth_le_length_scalarForm (k : Kind) (v : Value) :
    k.minWidth ≤ (scalarForm k v).length := by
  cases k <;> cases v <;> simp [Kind.minWidth, Kind.width?, scalarForm, textForm]

namespace Rfc3339

/-- The text of a date is not empty, so it is not taken for an absent one. -/
theorem format_ne_empty (i : Instant) : format i ≠ "" := by
  intro h
  have hlen : (format i).toList = [] := by rw [h]; rfl
  rw [format, String.toList_ofList, chars] at hlen
  simp at hlen

end Rfc3339

namespace Decoder

/-! ### Reading what was written -/

/-- **A date is read back** if its year has four digits, and is refused otherwise. -/
theorem readsWhen_date {i : Instant} (h : Utf8.size (Rfc3339.format i) ≤ maxLength) :
    ReadsWhen date i.HasFourDigitYear (textForm (Rfc3339.format i)) (.date i) := by
  refine (reads_text h).bindWhen_nil ?_
  rw [if_neg (Rfc3339.format_ne_empty i)]
  refine ⟨fun hyear ↦ ?_, fun hyear ↦ ?_⟩
  · rw [Rfc3339.parse_format hyear]
    exact reads_pure _
  · obtain ⟨e, he⟩ := Rfc3339.parse_format_eq_error hyear
    rw [he]
    exact refuses_fail _ _

theorem reads_date_empty : Reads date (textForm "") .null := by
  refine (reads_text (by decide)).bind_nil ?_
  exact reads_pure _

theorem reads_boolean (inRecord b : Bool) :
    Reads (boolean inRecord) [if b then 1 else 0] (.boolean b) := by
  refine (reads_uint8 _).bind_nil ?_
  cases b <;> cases inRecord <;> exact reads_pure _

theorem reads_boolean_absent : Reads (boolean true) [Sentinel.boolean] .null := by
  refine (reads_uint8 _).bind_nil ?_
  exact reads_pure _

/-- Where nothing can be stored for it, nothing comes back; elsewhere it is the value that stands
for it. -/
theorem reads_absent {k : Kind} {inRecord : Bool} (h : inRecord = true ∨ k.isTextual = true) :
    Reads (primitive k inRecord) (scalarForm k .null) (restoredScalar k inRecord .null) := by
  cases htext : k.isTextual with
  | true =>
    have hempty := reads_text (show Utf8.size "" ≤ maxLength by decide)
    cases k with
    | string => exact hempty.map Value.string
    | enum => exact hempty.map Value.enum
    | date =>
      have hnull : restoredScalar .date inRecord .null = .null := by simp [restoredScalar]
      rw [hnull]
      exact reads_date_empty
    | _ => cases htext
  | false =>
    -- a kind of fixed width has its sentinel in records only
    obtain rfl : inRecord = true := h.resolve_right (by rw [htext]; decide)
    cases k with
    | boolean => exact reads_boolean_absent
    | byte => exact (reads_int8 Sentinel.byte).map fun v ↦ orAbsent (v == Sentinel.byte) (.byte v)
    | char => exact (reads_uint8 Sentinel.char).map fun c ↦ orAbsent (c == Sentinel.char) (.char c)
    | short =>
      exact (reads_int16 Sentinel.short).map fun v ↦ orAbsent (v == Sentinel.short) (.short v)
    | int => exact (reads_int32 Sentinel.int).map fun v ↦ orAbsent (v == Sentinel.int) (.int v)
    | long => exact (reads_int64 Sentinel.long).map fun v ↦ orAbsent (v == Sentinel.long) (.long v)
    | float =>
      exact (reads_float Sentinel.float).map fun v ↦ orAbsent (v == Sentinel.float) (.float v)
    | double =>
      exact (reads_double Sentinel.double).map fun v ↦ orAbsent (v == Sentinel.double) (.double v)
    | _ => cases htext

/-- What is not absent is read back but for the sentinels; dates have a law of their own. -/
theorem reads_present {k : Kind} {inRecord : Bool} {v : Value} (hv : v ≠ .null) (hk : k ≠ .date)
    (hkind : v.matchesKind k = true) (hstorable : Slot.Storable (.primitive k inRecord) v) :
    Reads (primitive k inRecord) (scalarForm k v) (restoredScalar k inRecord v) := by
  cases v with
  | null => exact absurd rfl hv
  | boolean b =>
    obtain rfl : k = .boolean := Value.kind_eq hv hkind rfl
    rw [restoredScalar_eq_self hv rfl]
    exact reads_boolean inRecord b
  | byte v =>
    -- numbers may be taken for the value that stands for none
    obtain rfl : k = .byte := Value.kind_eq hv hkind rfl
    exact (reads_int8 v).map fun v ↦ orAbsent (inRecord && v == Sentinel.byte) (.byte v)
  | char c =>
    obtain rfl : k = .char := Value.kind_eq hv hkind rfl
    exact (reads_uint8 c).map fun c ↦ orAbsent (inRecord && c == Sentinel.char) (.char c)
  | short v =>
    obtain rfl : k = .short := Value.kind_eq hv hkind rfl
    exact (reads_int16 v).map fun v ↦ orAbsent (inRecord && v == Sentinel.short) (.short v)
  | int v =>
    obtain rfl : k = .int := Value.kind_eq hv hkind rfl
    exact (reads_int32 v).map fun v ↦ orAbsent (inRecord && v == Sentinel.int) (.int v)
  | long v =>
    obtain rfl : k = .long := Value.kind_eq hv hkind rfl
    exact (reads_int64 v).map fun v ↦ orAbsent (inRecord && v == Sentinel.long) (.long v)
  | float bits =>
    obtain rfl : k = .float := Value.kind_eq hv hkind rfl
    exact (reads_float bits).map fun v ↦ orAbsent (inRecord && v == Sentinel.float) (.float v)
  | double bits =>
    obtain rfl : k = .double := Value.kind_eq hv hkind rfl
    exact (reads_double bits).map fun v ↦ orAbsent (inRecord && v == Sentinel.double) (.double v)
  | string s =>
    obtain rfl : k = .string := Value.kind_eq hv hkind rfl
    rw [restoredScalar_eq_self hv rfl]
    exact (reads_text (hstorable rfl)).map Value.string
  | enum name =>
    obtain rfl : k = .enum := Value.kind_eq hv hkind rfl
    rw [restoredScalar_eq_self hv rfl]
    exact (reads_text (hstorable rfl)).map Value.enum
  -- a date is read back only within its limit
  | date i => exact absurd (Value.kind_eq hv hkind rfl) hk
  | array items => cases k <;> cases hkind
  | record typeName fields => cases k <;> cases hkind

/-- **Reading a primitive** gives back what was stored, unless it is a date whose year does not have
four digits. -/
theorem readsWhen_primitive {k : Kind} {inRecord : Bool} {v : Value}
    (hfits : Slot.Fits (.primitive k inRecord) v)
    (hstorable : Slot.Storable (.primitive k inRecord) v) :
    ReadsWhen (primitive k inRecord) (∀ i, v = .date i → i.HasFourDigitYear) (scalarForm k v)
      (restoredScalar k inRecord v) := by
  obtain ⟨hkind, hnull⟩ := Slot.fits_primitive_iff.1 hfits
  have hother : (∀ i, v ≠ .date i) → Reads (primitive k inRecord) (scalarForm k v)
      (restoredScalar k inRecord v) → ReadsWhen (primitive k inRecord)
        (∀ i, v = .date i → i.HasFourDigitYear) (scalarForm k v)
        (restoredScalar k inRecord v) :=
    fun hdate h ↦ h.readsWhen.congr (iff_of_true trivial fun i hi ↦ absurd hi (hdate i))
  by_cases hv : v = .null
  · subst hv
    exact hother (fun i h ↦ by cases h) (reads_absent (hnull rfl))
  by_cases hk : k = .date
  · subst hk
    cases v with
    | date i =>
      rw [restoredScalar_eq_self hv rfl]
      refine (readsWhen_date (hstorable rfl)).congr ⟨fun h j hj ↦ ?_, fun h ↦ h i rfl⟩
      cases hj
      exact h
    | null => exact absurd rfl hv
    | _ => cases hkind
  · refine hother (fun i hi ↦ hk ?_) (reads_present hv hk hkind hstorable)
    subst hi
    exact Value.kind_eq hv hkind rfl

/-! ### Bytes from anywhere -/

/-- What a primitive is spelled by: it may stand in its slot, and the bytes are its form. -/
def Spells (k : Kind) (inRecord : Bool) (v : Value) (bs : List UInt8) : Prop :=
  Slot.Fits (.primitive k inRecord) v ∧ Slot.Storable (.primitive k inRecord) v ∧
    bs = scalarForm k v

/-- A word that is absent if it is the sentinel: the sentinel has no second spelling. -/
theorem yields_orAbsent {α : Type} [BEq α] [LawfulBEq α] {p : Decoder α} {form : α → List UInt8}
    {k : Kind} {inRecord : Bool} {sentinel : α} {of : α → Value}
    (hp : Yields p fun a bs ↦ bs = form a) (hk : k.isTextual = false)
    (hkind : ∀ a, (of a).matchesKind k = true) (hof : ∀ a, of a ≠ .null)
    (hform : ∀ a, scalarForm k (of a) = form a) (hsentinel : scalarForm k .null = form sentinel) :
    Yields (p >>= fun a ↦ pure (orAbsent (inRecord && a == sentinel) (of a)))
      (Spells k inRecord) := by
  have hstorable : ∀ v, Slot.Storable (.primitive k inRecord) v := fun v htext ↦ by
    rw [hk] at htext
    cases htext
  refine (hp.map _).mono ?_
  rintro v bs ⟨a, rfl, rfl⟩
  by_cases habsent : (inRecord && a == sentinel) = true
  · rw [Bool.and_eq_true, beq_iff_eq] at habsent
    obtain ⟨rfl, rfl⟩ := habsent
    rw [orAbsent, if_pos (by simp)]
    exact ⟨Slot.fits_primitive_iff.2 ⟨rfl, fun _ ↦ .inl rfl⟩, hstorable _, hsentinel.symm⟩
  · rw [orAbsent, if_neg habsent]
    exact ⟨Slot.fits_primitive_iff.2 ⟨hkind a, fun h ↦ absurd h (hof a)⟩, hstorable _,
      (hform a).symm⟩

/-- A truth value that was read is spelled by its byte. -/
theorem yields_boolean (inRecord : Bool) :
    Yields (boolean inRecord) (Spells .boolean inRecord) := by
  have hstorable : ∀ v, Slot.Storable (.primitive .boolean inRecord) v := fun _ h ↦ by cases h
  refine (yields_uint8.bind (S := fun b v cs ↦ Spells .boolean inRecord v [b] ∧ cs = [])
    fun b _ _ ↦ ?_).mono ?_
  · split_ifs with habsent hfalse htrue
    · rw [Bool.and_eq_true, beq_iff_eq] at habsent
      obtain ⟨rfl, rfl⟩ := habsent
      refine (yields_pure _).mono ?_
      rintro v bs ⟨rfl, rfl⟩
      exact ⟨⟨rfl, hstorable _, rfl⟩, rfl⟩
    · subst hfalse
      refine (yields_pure _).mono ?_
      rintro v bs ⟨rfl, rfl⟩
      exact ⟨⟨by cases inRecord <;> rfl, hstorable _, rfl⟩, rfl⟩
    · subst htrue
      refine (yields_pure _).mono ?_
      rintro v bs ⟨rfl, rfl⟩
      exact ⟨⟨by cases inRecord <;> rfl, hstorable _, rfl⟩, rfl⟩
    · exact yields_fail _ _
  · rintro v bs ⟨b, as, cs, rfl, ⟨h, rfl⟩, rfl⟩
    exact h

/-- **A primitive has one spelling**: what is read as anything but a date is spelled by its form. -/
theorem yields_primitive {k : Kind} (hk : k ≠ .date) (inRecord : Bool) :
    Yields (primitive k inRecord) (Spells k inRecord) := by
  cases k with
  | boolean => exact yields_boolean inRecord
  | byte =>
    exact yields_orAbsent yields_int8 rfl (fun _ ↦ rfl) (fun _ h ↦ by cases h) (fun _ ↦ rfl) rfl
  | char =>
    exact yields_orAbsent yields_uint8 rfl (fun _ ↦ rfl) (fun _ h ↦ by cases h) (fun _ ↦ rfl) rfl
  | short =>
    exact yields_orAbsent yields_int16 rfl (fun _ ↦ rfl) (fun _ h ↦ by cases h) (fun _ ↦ rfl) rfl
  | int =>
    exact yields_orAbsent yields_int32 rfl (fun _ ↦ rfl) (fun _ h ↦ by cases h) (fun _ ↦ rfl) rfl
  | long =>
    exact yields_orAbsent yields_int64 rfl (fun _ ↦ rfl) (fun _ h ↦ by cases h) (fun _ ↦ rfl) rfl
  | float =>
    exact yields_orAbsent yields_float rfl (fun _ ↦ rfl) (fun _ h ↦ by cases h) (fun _ ↦ rfl) rfl
  | double =>
    exact yields_orAbsent yields_double rfl (fun _ ↦ rfl) (fun _ h ↦ by cases h) (fun _ ↦ rfl) rfl
  | string =>
    refine (yields_text.map Value.string).mono ?_
    rintro v bs ⟨s, ⟨hs, rfl⟩, rfl⟩
    exact ⟨by cases inRecord <;> rfl, fun _ ↦ hs, rfl⟩
  | enum =>
    refine (yields_text.map Value.enum).mono ?_
    rintro v bs ⟨s, ⟨hs, rfl⟩, rfl⟩
    exact ⟨by cases inRecord <;> rfl, fun _ ↦ hs, rfl⟩
  | date => exact absurd rfl hk

end Decoder

end GraphCodec
