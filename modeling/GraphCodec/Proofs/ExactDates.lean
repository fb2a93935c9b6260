import GraphCodec.Proofs.DateText
import GraphCodec.Value.Json

/-!
# Date text is exact

No date loses anything by being written down. The digits of the fraction are as few as three, six or
nine can be without a loss (`Rfc3339.exists_shows_fractionText`), the instant is read back, and no
other instant has the same text. Only years of four digits can be read; the text of any other
instant is refused (`Rfc3339.format_exact`).
-/

namespace GraphCodec

namespace Rfc3339

/-- How many digits of a fraction are shown. -/
def fractionWidths : List Nat :=
  [3, 6, 9]

/-- The date and the clock of an instant, to the second. -/
def secondText (i : Instant) : List Char :=
  Instant.yearText i.date.year ++ '-' :: Digits.fixed 2 i.date.month ++
    '-' :: Digits.fixed 2 i.date.day ++ 'T' :: i.clockText

/-- The text of an instant with `n` as the fraction of its second, in `width` digits. -/
def textWith (i : Instant) (width n : Nat) : String :=
  String.ofList (secondText i ++ '.' :: Digits.fixed width n ++ ['Z'])

/-- Whether the number `n` in `width` digits is the fraction that so many nanoseconds are. -/
def Shows (width n nanos : Nat) : Prop :=
  n < 10 ^ width ∧ n * 10 ^ (9 - width) = nanos

/-- **The digits of a fraction** are the fewest that show all of it. -/
theorem exists_shows_fractionText {nanos : Nat} (h : nanos < 10 ^ 9) :
    ∃ width ∈ fractionWidths, ∃ n, Shows width n nanos ∧
      fractionText nanos = Digits.fixed width n ∧
      ∀ fewer ∈ fractionWidths, fewer < width → ∀ m, ¬Shows fewer m nanos := by
  unfold fractionText Shows
  split_ifs with hmilli hmicro
  · refine ⟨3, by decide, nanos / 1000000, by omega, rfl, fun fewer hmem hlt ↦ ?_⟩
    have hleast : ∀ fewer ∈ fractionWidths, ¬fewer < 3 := by decide
    exact absurd hlt (hleast fewer hmem)
  · refine ⟨6, by decide, nanos / 1000, by omega, rfl, fun fewer hmem hlt m ↦ ?_⟩
    have hfewer : ∀ fewer ∈ fractionWidths, fewer < 6 → fewer = 3 := by decide
    obtain rfl := hfewer fewer hmem hlt
    omega
  · refine ⟨9, by decide, nanos, by omega, rfl, fun fewer hmem hlt m ↦ ?_⟩
    have hfewer : ∀ fewer ∈ fractionWidths, fewer < 9 → fewer = 3 ∨ fewer = 6 := by decide
    rcases hfewer fewer hmem hlt with rfl | rfl <;> omega

/-- The text of a date with the digits that have been chosen for its fraction. -/
theorem format_eq_textWith {i : Instant} {width n : Nat}
    (h : fractionText i.fraction = Digits.fixed width n) : format i = textWith i width n := by
  rw [format, textWith, chars, secondText, h]

/-- **The stored form of an instant is exact.** It shows the fraction of the second in three, six or
nine digits, whichever are the fewest that show all of it. If the UTC year has four digits then the
instant is read back and no other instant has the same text, and otherwise the text is refused. -/
theorem format_exact (i : Instant) :
    (i.HasFourDigitYear →
      Value.instantOf (format i) = .ok i ∧ ∀ j, format j = format i → j = i) ∧
    (∃ width ∈ fractionWidths, ∃ n, Shows width n i.fraction ∧ format i = textWith i width n ∧
      ∀ fewer ∈ fractionWidths, fewer < width → ∀ m, ¬Shows fewer m i.fraction) ∧
    (¬i.HasFourDigitYear → ∃ e, Value.instantOf (format i) = .error e) := by
  refine ⟨fun hyear ↦ ⟨?_, fun j hj ↦ ?_⟩, ?_, fun hyear ↦ ?_⟩
  · rw [Value.instantOf, parse_format hyear]
  · -- the text of the other instant is read as this one, so it is not refused
    have hread : parse (format j) = .ok i := hj ▸ parse_format hyear
    by_cases hj' : j.HasFourDigitYear
    · exact Except.ok.inj ((parse_format hj').symm.trans hread)
    · obtain ⟨e, he⟩ := parse_format_eq_error hj'
      exact nomatch he.symm.trans hread
  · obtain ⟨width, hwidth, n, hshows, htext, hfewest⟩ := exists_shows_fractionText i.fraction_lt
    exact ⟨width, hwidth, n, hshows, format_eq_textWith htext, hfewest⟩
  · obtain ⟨e, he⟩ := parse_format_eq_error hyear
    exact ⟨_, by rw [Value.instantOf, he]⟩

/-- The middle of the leap second at the end of 2016. -/
def leapInstant : Instant :=
  .ofLocal 17166 23 59 60 500000000 0

/-- The beginning of the first year that is written with a sign. -/
def lateInstant : Instant :=
  .ofLocal 2932897 0 0 0 0 0

theorem format_exact_leap :
    leapInstant.HasFourDigitYear ∧ format leapInstant = "2016-12-31T23:59:60.500Z" ∧
      Value.instantOf (format leapInstant) = .ok leapInstant ∧
      ¬lateInstant.HasFourDigitYear ∧ format lateInstant = "+10000-01-01T00:00:00.000Z" ∧
      ∃ e, Value.instantOf (format lateInstant) = .error e := by
  have hleap : leapInstant.HasFourDigitYear := ⟨by decide, by decide⟩
  have hlate : ¬lateInstant.HasFourDigitYear := fun h ↦ absurd h.2 (by decide)
  exact ⟨hleap, by decide, ((format_exact leapInstant).1 hleap).1, hlate, by decide,
    (format_exact lateInstant).2.2 hlate⟩

end Rfc3339

end GraphCodec
