import GraphCodec.Instant.Rfc3339
import GraphCodec.Proofs.Calendar

/-!
# Date text is read back

The stored form of an instant whose year has four digits is read back as that instant
(`parse_format`), and that of any other instant, whose year begins with a sign, is refused
(`parse_format_eq_error`). The reader goes through the text field by field, so there is one lemma
for each field; the parts that it collects give the instant back by `Instant.ofLocal_eq_self`.
-/

namespace GraphCodec

namespace Digits

theorem isDigit_char {d : Nat} (h : d < 10) : (char d).isDigit = true := by
  match d, h with
  | 0, _ | 1, _ | 2, _ | 3, _ | 4, _ | 5, _ | 6, _ | 7, _ | 8, _ | 9, _ => rfl

/-- A field of fixed width has digits only. -/
theorem isDigit_of_mem_fixed {width n : Nat} {c : Char} (h : c ∈ fixed width n) :
    c.isDigit = true := by
  induction width generalizing n with
  | zero => cases h
  | succ width ih =>
    rcases List.mem_append.1 h with h | h
    · exact ih h
    · rw [List.mem_singleton.1 h]
      exact isDigit_char (Nat.mod_lt n (by decide))

/-- Zeros are the field of nothing. -/
theorem replicate_zero_eq_fixed (width : Nat) : List.replicate width '0' = fixed width 0 := by
  induction width with
  | zero => rfl
  | succ width ih => rw [List.replicate_succ', ih]; rfl

end Digits

namespace Instant

/-- Whether the UTC year of an instant is written with four digits. -/
def HasFourDigitYear (i : Instant) : Prop :=
  0 ≤ i.date.year ∧ i.date.year ≤ 9999

/-- **The parts of an instant on the UTC clock** give it back. -/
theorem ofLocal_eq_self (i : Instant) :
    ofLocal i.day i.hour i.minute i.second i.fraction 0 = i := by
  obtain ⟨seconds, nanos, hnanos, hleap⟩ := i
  have hday : seconds = 86400 * (seconds / 86400) + ((seconds % 86400).toNat : Int) ∧
      (seconds % 86400).toNat < 86400 := by
    omega
  unfold ofLocal day hour minute second fraction secondOfDay
  simp only
  generalize (seconds % 86400).toNat = inDay at *
  -- only a leap second has a second of nanoseconds too many, and it ends a minute
  by_cases hn : 1000000000 ≤ nanos
  · have hlast := hleap hn
    have hsixty : inDay % 60 + nanos / 1000000000 = 60 := by omega
    rw [dif_pos hsixty]
    congr 1 <;> omega
  · have hno : ¬inDay % 60 + nanos / 1000000000 = 60 := by omega
    rw [dif_neg hno]
    congr 1 <;> omega

theorem hour_le (i : Instant) : i.hour ≤ 23 := by
  unfold hour secondOfDay
  omega

theorem minute_le (i : Instant) : i.minute ≤ 59 := by
  unfold minute
  omega

theorem second_le (i : Instant) : i.second ≤ 60 := by
  have := i.nanos_lt
  unfold second
  omega

theorem fraction_lt (i : Instant) : i.fraction < 10 ^ 9 :=
  Nat.mod_lt _ (by decide)

end Instant

namespace Rfc3339

/-! ### Fields -/

/-- A field is read back, whatever follows it. -/
theorem field_fixed_append {width n : Nat} (h : n < 10 ^ width) (rest : List Char) :
    field width (Digits.fixed width n ++ rest) = .ok (n, rest) := by
  have htake : (Digits.fixed width n ++ rest).take width = Digits.fixed width n := by
    rw [List.take_left' (Digits.length_fixed width n)]
  have hdrop : (Digits.fixed width n ++ rest).drop width = rest := by
    rw [List.drop_left' (Digits.length_fixed width n)]
  rw [field, htake, hdrop, Digits.value?_fixed, Nat.mod_eq_of_lt h]
  simp

theorem mark_hyphen (rest : List Char) : mark (· == '-') ('-' :: rest) = .ok ((), rest) := rfl

theorem mark_colon (rest : List Char) : mark (· == ':') (':' :: rest) = .ok ((), rest) := rfl

theorem mark_time (rest : List Char) :
    mark (fun c ↦ c == 'T' || c == 't' || c == ' ') ('T' :: rest) = .ok ((), rest) := rfl

/-- A field does not begin with anything but a digit. -/
theorem field_cons_eq_error {width : Nat} {c : Char} (hc : Digits.digit? c = none)
    (rest : List Char) : field (width + 1) (c :: rest) = .error .invalid := by
  rw [field, List.take_succ_cons, Digits.value?, Digits.valueFrom?, hc]
  rfl

/-! ### The fraction -/

/-- Digits behind the point are read as billionths. -/
theorem nanosOfDigits_fixed {width n : Nat} (hwidth : width ≤ 9) (h : n < 10 ^ width) :
    nanosOfDigits (Digits.fixed width n) = n * 10 ^ (9 - width) := by
  have htake : (Digits.fixed width n ++ List.replicate 9 '0').take 9 =
      Digits.fixed width n ++ Digits.fixed (9 - width) 0 := by
    rw [List.take_append, Digits.length_fixed, List.take_of_length_le (by simpa using hwidth),
      List.take_replicate, Nat.min_eq_left (Nat.sub_le 9 width), Digits.replicate_zero_eq_fixed]
  rw [nanosOfDigits, htake, Digits.value?, Digits.valueFrom?_append, Digits.valueFrom?_fixed,
    Option.bind_some, Digits.valueFrom?_fixed]
  simp [Nat.mod_eq_of_lt h]

/-- A fraction of at most nine digits is as many digits of the nanoseconds. -/
theorem fraction_fixed {width n : Nat} (hpos : width ≠ 0) (hwidth : width ≤ 9) (h : n < 10 ^ width)
    {c : Char} (hc : c.isDigit = false) (rest : List Char) :
    fraction ('.' :: (Digits.fixed width n ++ c :: rest)) =
      .ok (n * 10 ^ (9 - width), c :: rest) := by
  have hall : ∀ d ∈ Digits.fixed width n, d.isDigit = true := fun d ↦ Digits.isDigit_of_mem_fixed
  have hwhile : (Digits.fixed width n ++ c :: rest).takeWhile Char.isDigit =
      Digits.fixed width n := by
    rw [List.takeWhile_append_of_pos hall, List.takeWhile_cons_of_neg (by simp [hc]),
      List.append_nil]
  have hdrop : (Digits.fixed width n ++ c :: rest).dropWhile Char.isDigit = c :: rest := by
    rw [List.dropWhile_append_of_pos hall, List.dropWhile_cons_of_neg (by simp [hc])]
  have hne : Digits.fixed width n ≠ [] := by
    intro hnil
    have := Digits.length_fixed width n
    rw [hnil] at this
    exact hpos this.symm
  unfold fraction
  simp only [hwhile, hdrop, nanosOfDigits_fixed hwidth h]

/-- **The fraction loses nothing**: whichever number of digits is written, the nanoseconds are
read back. -/
theorem fraction_fractionText {nanos : Nat} (h : nanos < 10 ^ 9) (rest : List Char) :
    fraction ('.' :: (fractionText nanos ++ 'Z' :: rest)) = .ok (nanos, 'Z' :: rest) := by
  unfold fractionText
  split_ifs with hmilli hmicro
  · rw [fraction_fixed (by decide) (by decide) (by omega) rfl]
    congr 2
    omega
  · rw [fraction_fixed (by decide) (by decide) (by omega) rfl]
    congr 2
    omega
  · rw [fraction_fixed (by decide) (by decide) h rfl]
    congr 2
    omega

/-! ### The whole text -/

/-- Each character has a byte at least. -/
theorem length_le_byteCount (cs : List Char) : cs.length ≤ byteCount cs := by
  unfold byteCount
  induction cs with
  | nil => exact Nat.le_refl 0
  | cons c cs ih =>
    have := c.utf8Size_pos
    rw [List.length_cons, List.map_cons, List.sum_cons]
    omega

/-- The characters of an instant with a year of four digits, field by field. -/
theorem chars_eq {i : Instant} (h : i.HasFourDigitYear) :
    chars i = Digits.fixed 4 i.date.year.toNat ++ '-' :: (Digits.fixed 2 i.date.month ++ '-' ::
      (Digits.fixed 2 i.date.day ++ 'T' :: (Digits.fixed 2 i.hour ++ ':' ::
        (Digits.fixed 2 i.minute ++ ':' :: (Digits.fixed 2 i.second ++ '.' ::
          (fractionText i.fraction ++ ['Z'])))))) := by
  have hyear : Instant.yearText i.date.year = Digits.fixed 4 i.date.year.toNat := if_pos h
  simp [chars, hyear, Instant.clockText]

theorem offset_zulu (rest : List Char) : offset ('Z' :: rest) = .ok (0, rest) := rfl

theorem ok_bind {ε α β : Type} (a : α) (f : α → Except ε β) : (Except.ok a >>= f) = f a := rfl

/-- The parts of an instant fit the widths of their fields. -/
theorem date_parts_lt {i : Instant} (h : i.HasFourDigitYear) :
    i.date.year.toNat < 10 ^ 4 ∧ i.date.month < 10 ^ 2 ∧ i.date.day < 10 ^ 2 := by
  have hexists : i.date.exists? = true := Calendar.exists_date i.day
  unfold Calendar.Date.exists? at hexists
  have hdate := of_decide_eq_true hexists
  have hdays : Calendar.daysInMonth i.date.year i.date.month ≤ 31 := by
    unfold Calendar.daysInMonth
    split_ifs <;> omega
  obtain ⟨hlow, hhigh⟩ := h
  omega

/-- **A date is read back** from its text if its year has four digits. -/
theorem parseChars_chars {i : Instant} (h : i.HasFourDigitYear) :
    parseChars (chars i) = .ok i := by
  obtain ⟨hyear, hmonth, hday⟩ := date_parts_lt h
  have hhour := i.hour_le
  have hminute := i.minute_le
  have hsecond := i.second_le
  have hcast : (i.date.year.toNat : Int) = i.date.year := Int.toNat_of_nonneg h.1
  have hexists : i.date.exists? = true := Calendar.exists_date i.day
  have hlong : ¬byteCount (chars i) < 19 := by
    have hlen := length_le_byteCount (chars i)
    rw [chars_eq h] at hlen ⊢
    simp only [List.length_append, List.length_cons, Digits.length_fixed] at hlen
    omega
  have hclock : ¬(23 < i.hour ∨ 59 < i.minute ∨ 60 < i.second) := by omega
  unfold parseChars
  rw [if_neg hlong, chars_eq h]
  simp only [field_fixed_append hyear, field_fixed_append hmonth, field_fixed_append hday,
    field_fixed_append (show i.hour < 10 ^ 2 by omega),
    field_fixed_append (show i.minute < 10 ^ 2 by omega),
    field_fixed_append (show i.second < 10 ^ 2 by omega),
    fraction_fractionText i.fraction_lt, offset_zulu, mark_hyphen, mark_colon, mark_time, ok_bind,
    hcast]
  rw [if_neg (by simp [hexists]), if_neg hclock, if_neg (by simp), if_neg (by decide)]
  show Except.ok (Instant.ofLocal (Calendar.dayNumber (Calendar.date i.day)) i.hour i.minute
    i.second i.fraction 0) = _
  rw [Calendar.dayNumber_date, Instant.ofLocal_eq_self]

/-- **The stored form of an instant with a year of four digits** is read back as the instant. -/
theorem parse_format {i : Instant} (h : i.HasFourDigitYear) : parse (format i) = .ok i := by
  rw [parse, format, String.toList_ofList, parseChars_chars h]

/-- **A year with a sign is refused**, so no other instant has a stored form that is read. -/
theorem parse_format_eq_error {i : Instant} (h : ¬i.HasFourDigitYear) :
    ∃ e, parse (format i) = .error e := by
  obtain ⟨sign, rest, hsign, hchars⟩ : ∃ sign rest, Digits.digit? sign = none ∧
      chars i = sign :: rest := by
    have hyear : Instant.yearText i.date.year = (if i.date.year < 0 then '-' else '+') ::
        Digits.atLeast 4 i.date.year.natAbs := if_neg h
    refine ⟨if i.date.year < 0 then '-' else '+', _, ?_, by rw [chars, hyear]; rfl⟩
    split_ifs <;> rfl
  -- a sign is no digit, so the field of the year fails at once
  rw [parse, format, String.toList_ofList, parseChars, hchars]
  split_ifs with hshort
  · exact ⟨_, rfl⟩
  · rw [field_cons_eq_error hsign]
    exact ⟨_, rfl⟩

end Rfc3339

end GraphCodec
