import GraphCodec.Number.Binary
import Mathlib

/-!
# Rounding what needs no rounding

Every finite number of a format has one significand and one exponent that are *canonical* for the
format, and its bits are read off these (`exists_datum`, `datum_magnitude`). A fraction that equals
a number of the format is rounded to that number, whatever numerator and denominator it is given by
(`nearest_eq_magnitude`): the exponent that rounding picks is the canonical one, and then there is
no remainder.

A finite `float` is a `double` as well, so widening and narrowing give its bits back
(`narrow_widen`).
-/

namespace GraphCodec

namespace Binary

theorem log2_mul_two_pow {n : Nat} (hn : n ≠ 0) (k : Nat) : (n * 2 ^ k).log2 = n.log2 + k := by
  rw [Nat.log2_eq_iff (Nat.mul_ne_zero hn (Nat.two_pow_pos k).ne')]
  constructor
  · rw [Nat.pow_add]
    exact Nat.mul_le_mul_right _ (Nat.log2_self_le hn)
  · rw [Nat.add_right_comm, Nat.pow_add]
    exact Nat.mul_lt_mul_of_pos_right Nat.lt_log2_self (Nat.two_pow_pos k)

/-- A quotient without a remainder is not rounded. -/
theorem Format.roundHalfEven_mul (q : Nat) {d : Nat} (hd : 0 < d) :
    Format.roundHalfEven (q * d) d = q := by
  unfold Format.roundHalfEven
  rw [Nat.mul_div_cancel q hd, Nat.mul_mod_left]
  exact if_pos hd

namespace Format

variable {f : Format} {m m' : Nat} {e e' : Int}

/-! ### Canonical numbers -/

/-- Whether a significand and an exponent are the ones that the format has for a finite number: only
at the least exponent may the leading bit be missing. -/
structure Canonical (f : Format) (m : Nat) (e : Int) : Prop where
  lt : m < 2 ^ (f.fractionBits + 1)
  minExponent_le : f.minExponent ≤ e
  eq_minExponent : m < 2 ^ f.fractionBits → e = f.minExponent

/-- The bits of a canonical number without its sign. -/
def magnitude (f : Format) (m : Nat) (e : Int) : Nat :=
  (e - f.minExponent).toNat * 2 ^ f.fractionBits + m

theorem Canonical.le_of_magnitude_eq (h : f.Canonical m e) (h' : f.Canonical m' e')
    (heq : f.magnitude m e = f.magnitude m' e') : e' ≤ e := by
  by_contra hlt
  obtain ⟨k, hk⟩ : ∃ k, (e' - f.minExponent).toNat = (e - f.minExponent).toNat + 1 + k :=
    Nat.exists_eq_add_of_le (by have := h.minExponent_le; omega)
  -- the greater exponent is not the least one, so its significand has the leading bit
  have hm' : 2 ^ f.fractionBits ≤ m' := by
    by_contra hsmall
    have := h'.eq_minExponent (Nat.not_le.1 hsmall)
    omega
  have hm := h.lt
  unfold magnitude at heq
  rw [hk, Nat.add_mul, Nat.add_mul, Nat.one_mul] at heq
  rw [Nat.pow_succ] at hm
  omega

/-- **A canonical number is determined by its bits.** -/
theorem Canonical.eq_of_magnitude_eq (h : f.Canonical m e) (h' : f.Canonical m' e')
    (heq : f.magnitude m e = f.magnitude m' e') : m = m' ∧ e = e' := by
  obtain rfl : e = e' :=
    le_antisymm (h'.le_of_magnitude_eq h heq.symm) (h.le_of_magnitude_eq h' heq)
  exact ⟨Nat.add_left_cancel heq, rfl⟩

theorem infinity_lt_signWeight (f : Format) : f.infinity < f.signWeight := by
  unfold infinity signWeight
  rw [Nat.pow_add, Nat.sub_mul, Nat.one_mul]
  have hpos := Nat.two_pow_pos f.fractionBits
  have := Nat.mul_pos (Nat.two_pow_pos f.exponentBits) hpos
  omega

/-- **The meaning of finite bits** is a canonical number, with these bits. -/
theorem exists_datum {bits : Nat} (hfinite : bits % f.signWeight < f.infinity) : ∃ m e,
    f.datum bits = .finite (decide (f.signWeight ≤ bits)) m e ∧ f.Canonical m e ∧
      bits % f.signWeight = f.magnitude m e := by
  have hsplit : bits % f.signWeight = bits % 2 ^ f.fractionBits +
      2 ^ f.fractionBits * (bits / 2 ^ f.fractionBits % 2 ^ f.exponentBits) := by
    rw [signWeight, Nat.add_comm, Nat.pow_add, Nat.mod_mul]
  have hfraction : bits % 2 ^ f.fractionBits < 2 ^ f.fractionBits :=
    Nat.mod_lt _ (Nat.two_pow_pos _)
  have hexponent : bits / 2 ^ f.fractionBits % 2 ^ f.exponentBits < 2 ^ f.exponentBits - 1 := by
    rw [hsplit, infinity, Nat.mul_comm (2 ^ f.exponentBits - 1)] at hfinite
    exact Nat.lt_of_mul_lt_mul_left (Nat.lt_of_le_of_lt (Nat.le_add_left _ _) hfinite)
  unfold datum
  dsimp only
  rw [if_neg hexponent.ne, hsplit]
  generalize bits % 2 ^ f.fractionBits = fraction at hfraction
  generalize bits / 2 ^ f.fractionBits % 2 ^ f.exponentBits = exponent
  have hpow : 2 ^ (f.fractionBits + 1) = 2 ^ f.fractionBits * 2 := Nat.pow_succ ..
  -- subnormal numbers have the least exponent and no hidden bit
  by_cases hzero : exponent = 0
  · refine ⟨fraction, f.minExponent, if_pos hzero, ⟨by omega, le_rfl, fun _ ↦ rfl⟩, ?_⟩
    rw [hzero, magnitude, sub_self, Int.toNat_zero, Nat.mul_zero, Nat.zero_mul, Nat.add_comm]
  · refine ⟨_, _, if_neg hzero, ⟨by omega, by omega, fun h ↦ by omega⟩, ?_⟩
    obtain ⟨k, rfl⟩ := Nat.exists_eq_succ_of_ne_zero hzero
    rw [magnitude, add_sub_cancel_left, Nat.succ_sub_one, Int.toNat_natCast, Nat.mul_succ,
      Nat.mul_comm]
    omega

/-- **The meaning of the bits of a canonical number** is this number. -/
theorem datum_magnitude (h : f.Canonical m e) (hfinite : f.magnitude m e < f.infinity)
    (negative : Bool) :
    f.datum ((if negative then f.signWeight else 0) + f.magnitude m e) = .finite negative m e := by
  have hlt := hfinite.trans f.infinity_lt_signWeight
  have hmod : ((if negative then f.signWeight else 0) + f.magnitude m e) % f.signWeight =
      f.magnitude m e := by
    cases negative with
    | true => rw [if_pos rfl, Nat.add_mod_left, Nat.mod_eq_of_lt hlt]
    | false => rw [if_neg Bool.false_ne_true, Nat.zero_add, Nat.mod_eq_of_lt hlt]
  obtain ⟨m', e', hdatum, h', heq⟩ := exists_datum (hmod.symm ▸ hfinite)
  obtain ⟨rfl, rfl⟩ := h.eq_of_magnitude_eq h' (hmod.symm.trans heq)
  rw [hdatum]
  cases negative with
  | true => rw [if_pos rfl, decide_eq_true (Nat.le_add_right _ _)]
  | false => rw [if_neg Bool.false_ne_true, Nat.zero_add, decide_eq_false (Nat.not_le.2 hlt)]

/-! ### Rounding -/

/-- **A number of the format is rounded to itself.** The numbers `m * 2 ^ e` and `M * 2 ^ E` are the
same: they become so after `i` and `j` doublings. -/
theorem nearest_eq_magnitude {M : Nat} {E : Int} {i j : Nat} (h : f.Canonical M E)
    (hfinite : f.magnitude M E < f.infinity) (hvalue : m * 2 ^ i = M * 2 ^ j)
    (hexponent : e + j = E + i) :
    f.nearest (m * 2 ^ e.toNat) (2 ^ (-e).toNat) = f.magnitude M E := by
  by_cases hm : m = 0
  · have hM : M = 0 := by
      rw [hm, Nat.zero_mul] at hvalue
      exact (Nat.mul_eq_zero.1 hvalue.symm).resolve_right (Nat.two_pow_pos j).ne'
    have hE := h.eq_minExponent (hM ▸ Nat.two_pow_pos _)
    rw [nearest, if_pos (by rw [hm, Nat.zero_mul]), magnitude, hM, hE, sub_self, Int.toNat_zero,
      Nat.zero_mul]
  · have hnum : m * 2 ^ e.toNat ≠ 0 := Nat.mul_ne_zero hm (Nat.two_pow_pos _).ne'
    have hM : M ≠ 0 := by
      rintro rfl
      rw [Nat.zero_mul] at hvalue
      exact Nat.mul_ne_zero hm (Nat.two_pow_pos i).ne' hvalue
    have hlog : m.log2 + i = M.log2 + j := by
      rw [← log2_mul_two_pow hm, ← log2_mul_two_pow hM, hvalue]
    have hlow : ((m * 2 ^ e.toNat).log2 : Int) - (2 ^ (-e).toNat).log2 - (f.fractionBits + 1) =
        M.log2 + E - (f.fractionBits + 1) := by
      rw [log2_mul_two_pow hm, Nat.log2_two_pow]
      omega
    -- at the lower exponent the quotient has a bit too many
    have hfits : ∀ low : Int, low = M.log2 + E - (f.fractionBits + 1) →
        ¬m * 2 ^ e.toNat * 2 ^ (-low).toNat / (2 ^ (-e).toNat * 2 ^ low.toNat) <
          2 ^ (f.fractionBits + 1) := by
      intro low hlow'
      rw [Nat.not_lt, Nat.le_div_iff_mul_le (Nat.mul_pos (Nat.two_pow_pos _) (Nat.two_pow_pos _)),
        ← Nat.pow_add, ← Nat.pow_add, Nat.mul_assoc, ← Nat.pow_add]
      calc 2 ^ (f.fractionBits + 1 + ((-e).toNat + low.toNat))
          = 2 ^ m.log2 * 2 ^ (e.toNat + (-low).toNat) := by
            rw [← Nat.pow_add]
            congr 1
            omega
        _ ≤ m * 2 ^ (e.toNat + (-low).toNat) := Nat.mul_le_mul_right _ (Nat.log2_self_le hm)
    -- and the next one is the canonical exponent
    have hq : max f.minExponent (M.log2 + E - (f.fractionBits + 1) + 1) = E := by
      have hle := h.minExponent_le
      have hlt : M.log2 < f.fractionBits + 1 := (Nat.log2_lt hM).2 h.lt
      by_cases hsmall : M < 2 ^ f.fractionBits
      · have := h.eq_minExponent hsmall
        have := (Nat.log2_lt hM).2 hsmall
        omega
      · have := (Nat.le_log2 hM).2 (Nat.not_lt.1 hsmall)
        omega
    have hscaled : m * 2 ^ e.toNat * 2 ^ (-E).toNat = M * (2 ^ (-e).toNat * 2 ^ E.toNat) := by
      refine Nat.eq_of_mul_eq_mul_right (Nat.two_pow_pos i) ?_
      calc m * 2 ^ e.toNat * 2 ^ (-E).toNat * 2 ^ i
          = m * 2 ^ i * 2 ^ (e.toNat + (-E).toNat) := by rw [Nat.pow_add]; ring
        _ = M * 2 ^ (j + (e.toNat + (-E).toNat)) := by rw [hvalue, Nat.pow_add 2 j]; ring
        _ = M * 2 ^ ((-e).toNat + E.toNat + i) := by
            congr 2
            omega
        _ = M * (2 ^ (-e).toNat * 2 ^ E.toNat) * 2 ^ i := by
            rw [Nat.pow_add, Nat.pow_add]; ring
    unfold nearest
    rw [if_neg hnum]
    dsimp only
    rw [hlow, if_neg (hfits _ rfl), hq, hscaled,
      roundHalfEven_mul M (Nat.mul_pos (Nat.two_pow_pos _) (Nat.two_pow_pos _))]
    exact Nat.min_eq_right hfinite.le

end Format

/-! ### Widening and narrowing -/

/-- **A finite `float` is a `double`.** Its significand is moved up until it has the leading bit. -/
theorem exists_double {m : Nat} {e : Int} (h : single.Canonical m e)
    (hfinite : single.magnitude m e < single.infinity) : ∃ (M : Nat) (E : Int) (i j : Nat),
      double.Canonical M E ∧ double.magnitude M E < double.infinity ∧
        m * 2 ^ i = M * 2 ^ j ∧ e + j = E + i := by
  have hge : -149 ≤ e := h.minExponent_le
  by_cases hm : m = 0
  · refine ⟨0, -1074, (e + 1074).toNat, 0, ⟨by decide, le_rfl, fun _ ↦ rfl⟩, by decide, ?_,
      by omega⟩
    rw [hm, Nat.zero_mul, Nat.zero_mul]
  · have hlog : m.log2 < 24 := (Nat.log2_lt hm).2 h.lt
    have he : e ≤ 105 := by
      have hbits : (e - -149).toNat * 2 ^ 23 + m < 255 * 2 ^ 23 := hfinite
      omega
    obtain ⟨k, hk⟩ : ∃ k, m.log2 + k = 52 := Nat.le.dest (by omega)
    have hM : m * 2 ^ k ≠ 0 := Nat.mul_ne_zero hm (Nat.two_pow_pos k).ne'
    have hlogM : (m * 2 ^ k).log2 = 52 := (log2_mul_two_pow hm k).trans hk
    obtain ⟨hle, hlt⟩ := (Nat.log2_eq_iff hM).1 hlogM
    refine ⟨m * 2 ^ k, e - k, k, 0, ⟨hlt, ?_, fun hsmall ↦ absurd hle (Nat.not_le.2 hsmall)⟩, ?_,
      (Nat.mul_one _).symm, by omega⟩
    · show (-1074 : Int) ≤ e - k
      omega
    · show (e - k - -1074).toNat * 2 ^ 52 + m * 2 ^ k < 2047 * 2 ^ 52
      omega

theorem toNat_eq_of_mod {bits weight : Nat} (h : bits < weight + weight) :
    bits = (if decide (weight ≤ bits) then weight else 0) + bits % weight := by
  by_cases hle : weight ≤ bits
  · rw [if_pos (decide_eq_true hle), Nat.mod_eq_sub_mod hle, Nat.mod_eq_of_lt (by omega)]
    omega
  · rw [if_neg (by simpa using hle), Nat.zero_add, Nat.mod_eq_of_lt (Nat.not_le.1 hle)]

/-- **What a finite `float` is as a `double`**: a number with the same sign that is rounded back to
the bits of the `float`. -/
theorem exists_widen {bits : UInt32} (h : isFinite32 bits = true) : ∃ (M : Nat) (E : Int),
    double.Canonical M E ∧ double.magnitude M E < double.infinity ∧
      (widen bits).toNat = (if decide (single.signWeight ≤ bits.toNat) then double.signWeight
        else 0) + double.magnitude M E ∧
      single.nearest (M * 2 ^ E.toNat) (2 ^ (-E).toNat) = bits.toNat % single.signWeight := by
  have hbits : bits.toNat % single.signWeight < single.infinity := of_decide_eq_true h
  obtain ⟨m, e, hdatum, hcanonical, hmod⟩ := Format.exists_datum hbits
  rw [hmod] at hbits ⊢
  obtain ⟨M, E, i, j, hcanonical', hfinite, hvalue, hexponent⟩ := exists_double hcanonical hbits
  refine ⟨M, E, hcanonical', hfinite, ?_,
    Format.nearest_eq_magnitude hcanonical hbits hvalue.symm hexponent.symm⟩
  unfold widen
  rw [hdatum]
  show (UInt64.ofNat (double.nearestSigned _ (m * 2 ^ e.toNat) (2 ^ (-e).toNat))).toNat = _
  unfold Format.nearestSigned
  rw [Format.nearest_eq_magnitude hcanonical' hfinite hvalue hexponent]
  have hsize : double.signWeight + double.infinity < UInt64.size := by decide
  refine UInt64.toNat_ofNat_of_lt' (Nat.lt_trans ?_ hsize)
  split <;> omega

/-- **Narrowing undoes widening** of a finite `float`. -/
theorem narrow_widen {bits : UInt32} (h : isFinite32 bits = true) : narrow (widen bits) = bits := by
  obtain ⟨M, E, hcanonical, hfinite, hwiden, hnearest⟩ := exists_widen h
  have hlt : bits.toNat < single.signWeight + single.signWeight := bits.toNat_lt
  unfold narrow
  rw [hwiden, Format.datum_magnitude hcanonical hfinite]
  show UInt32.ofNat (single.nearestSigned _ (M * 2 ^ E.toNat) (2 ^ (-E).toNat)) = bits
  unfold Format.nearestSigned
  rw [hnearest, ← toNat_eq_of_mod hlt, UInt32.ofNat_toNat]

theorem isFinite64_widen {bits : UInt32} (h : isFinite32 bits = true) :
    isFinite64 (widen bits) = true := by
  obtain ⟨M, E, -, hfinite, hwiden, -⟩ := exists_widen h
  have hlt := hfinite.trans double.infinity_lt_signWeight
  refine decide_eq_true ?_
  rw [hwiden]
  split
  · rwa [Nat.add_mod_left, Nat.mod_eq_of_lt hlt]
  · rwa [Nat.zero_add, Nat.mod_eq_of_lt hlt]

end Binary

end GraphCodec
