import Mathlib.Algebra.Order.Field.Basic
import Mathlib.Algebra.Order.Field.Power
import Mathlib.Data.Rat.Cast.Order
import Mathlib.Tactic.Linarith
import Mathlib.Tactic.NormNum
import Mathlib.Tactic.Ring

/-!
Nearest doubles. A number is rounded to the double next to it, and halfway between two of them to
the one with the even mantissa. So the numbers that round to a double fill an interval around it,
which goes halfway to its neighbours and includes its ends if the mantissa is even; below a power of
two the neighbours are closer.
-/

namespace PathCopy

namespace Number

variable {m m' : ℕ} {e e' : ℤ} {q : ℚ}

def magnitude (m : ℕ) (e : ℤ) : ℚ := m * 2 ^ e

/-- The exponent is one that doubles have, and the mantissa has 53 bits unless the exponent is the
least one. -/
structure Canonical (m : ℕ) (e : ℤ) : Prop where
  pos : 0 < m
  lt : m < 2 ^ 53
  least : -1074 ≤ e
  greatest : e ≤ 971
  full : 2 ^ 52 ≤ m ∨ e = -1074

/-- Of all numbers with 53 bits `m * 2 ^ e` is the next one, or one of the two next ones and has the
even mantissa. There is no greatest exponent here: what is nearest to a number beyond the doubles is
not finite. -/
def Nearest (m : ℕ) (e : ℤ) (q : ℚ) : Prop :=
  ∀ m' e', m' < 2 ^ 53 → -1074 ≤ e' → magnitude m' e' ≠ magnitude m e →
    |q - magnitude m e| < |q - magnitude m' e'| ∨
      |q - magnitude m e| = |q - magnitude m' e'| ∧ Even m

/-! ### The interval -/

def quarter (e : ℤ) : ℚ := 2 ^ (e - 2)

/-- How far the interval goes down, in quarters of the last place: halfway to the next double. -/
def below (m : ℕ) (e : ℤ) : ℕ := if m = 2 ^ 52 ∧ e ≠ -1074 then 1 else 2

/-- The number lies in the interval that goes down by `b` quarters and up by two. -/
def Within (b m : ℕ) (e : ℤ) (q : ℚ) : Prop :=
  ((4 * m - b) * quarter e < q ∨ (4 * m - b) * quarter e = q ∧ Even m) ∧
    (q < (4 * m + 2) * quarter e ∨ q = (4 * m + 2) * quarter e ∧ Even m)

theorem quarter_pos (e : ℤ) : 0 < quarter e := zpow_pos two_pos _

theorem magnitude_eq (m : ℕ) (e : ℤ) : magnitude m e = 4 * m * quarter e := by
  rw [magnitude, quarter, zpow_sub₀ two_ne_zero]
  norm_num
  ring

theorem magnitude_of_le (m : ℕ) (h : e ≤ e') :
    magnitude m e' = magnitude (m * 2 ^ (e' - e).toNat) e := by
  have hsub : (2 : ℚ) ^ (e' - e).toNat = 2 ^ (e' - e) := by
    rw [← zpow_natCast, Int.toNat_of_nonneg (Int.sub_nonneg_of_le h)]
  rw [magnitude, magnitude, Nat.cast_mul, Nat.cast_pow, Nat.cast_ofNat, hsub, mul_assoc,
    ← zpow_add₀ two_ne_zero, Int.sub_add_cancel]

theorem below_pos (m : ℕ) (e : ℤ) : 0 < below m e := by
  rw [below]
  split <;> decide

theorem below_le (m : ℕ) (e : ℤ) : below m e ≤ 2 := by
  rw [below]
  split <;> decide

/-- With a smaller exponent 53 bits do not reach further than this. -/
theorem magnitude_le_of_lt (hm' : m' < 2 ^ 53) (h : e' < e) :
    magnitude m' e' ≤ (2 ^ 54 - 2) * quarter e := by
  have hpow : (2 : ℚ) ^ e' ≤ 2 * quarter e := by
    rw [quarter, ← zpow_one_add₀ two_ne_zero]
    exact zpow_le_zpow_right₀ one_le_two (by omega)
  have hm : (m' : ℚ) ≤ 2 ^ 53 - 1 := by
    have : m' + 1 ≤ 2 ^ 53 := hm'
    have hcast : ((m' + 1 : ℕ) : ℚ) ≤ (2 ^ 53 : ℕ) := Nat.cast_le.mpr this
    push_cast at hcast
    linarith
  calc magnitude m' e' ≤ (2 ^ 53 - 1) * (2 * quarter e) :=
        mul_le_mul hm hpow (zpow_nonneg two_pos.le _) (by norm_num)
    _ = (2 ^ 54 - 2) * quarter e := by ring

/-- No number with 53 bits lies between `m * 2 ^ e` and the next one above. -/
theorem Canonical.above_le (h : Canonical m e) (hm' : m' < 2 ^ 53) (he' : -1074 ≤ e')
    (hlt : magnitude m e < magnitude m' e') : (4 * m + 4) * quarter e ≤ magnitude m' e' := by
  have hq := quarter_pos e
  rcases le_or_gt e e' with hle | hgt
  · rw [magnitude_of_le m' hle] at hlt ⊢
    rw [magnitude_eq, magnitude_eq] at hlt
    rw [magnitude_eq]
    have hcount := lt_of_mul_lt_mul_right hlt hq.le
    have hnext : (m : ℚ) + 1 ≤ (m' * 2 ^ (e' - e).toNat : ℕ) := by
      have : (m : ℚ) < (m' * 2 ^ (e' - e).toNat : ℕ) := by linarith
      exact_mod_cast this
    exact mul_le_mul_of_nonneg_right (by linarith) hq.le
  · exfalso
    have hfull : 2 ^ 52 ≤ m := h.full.resolve_right (by omega)
    have hcast : (2 ^ 52 : ℚ) ≤ m := by exact_mod_cast hfull
    have hle := magnitude_le_of_lt hm' hgt
    rw [magnitude_eq m e] at hlt
    have hcount := lt_of_mul_lt_mul_right (hlt.trans_le hle) hq.le
    linarith

/-- No number with 53 bits lies between `m * 2 ^ e` and the next one below. -/
theorem Canonical.le_below (h : Canonical m e) (hm' : m' < 2 ^ 53) (he' : -1074 ≤ e')
    (hlt : magnitude m' e' < magnitude m e) :
    magnitude m' e' ≤ (4 * m - 2 * below m e) * quarter e := by
  have hq := quarter_pos e
  have hb : (below m e : ℚ) ≤ 2 := by exact_mod_cast below_le m e
  rcases le_or_gt e e' with hle | hgt
  · rw [magnitude_of_le m' hle] at hlt ⊢
    rw [magnitude_eq, magnitude_eq] at hlt
    rw [magnitude_eq]
    have hcount := lt_of_mul_lt_mul_right hlt hq.le
    have hnext : ((m' * 2 ^ (e' - e).toNat : ℕ) : ℚ) + 1 ≤ m := by
      have : ((m' * 2 ^ (e' - e).toNat : ℕ) : ℚ) < m := by linarith
      exact_mod_cast this
    exact mul_le_mul_of_nonneg_right (by linarith) hq.le
  -- Doubles of smaller exponents lie below all those of exponent `e` with a full mantissa.
  · have hfull : 2 ^ 52 ≤ m := h.full.resolve_right (by omega)
    refine (magnitude_le_of_lt hm' hgt).trans (mul_le_mul_of_nonneg_right ?_ hq.le)
    rw [below]
    split
    · next hsmall =>
      rw [hsmall.1]
      norm_num
    · next hsmall =>
      have hnext : (2 ^ 52 : ℚ) + 1 ≤ m := by
        have : 2 ^ 52 + 1 ≤ m := by
          have : m ≠ 2 ^ 52 := fun heq => hsmall ⟨heq, by omega⟩
          omega
        exact_mod_cast this
      push_cast
      linarith

/-- A number is kept with one mantissa and one exponent. -/
theorem Canonical.eq_of_magnitude (h : Canonical m e) (h' : Canonical m' e')
    (heq : magnitude m e = magnitude m' e') : m = m' ∧ e = e' := by
  have hdistinct : ∀ {m m' : ℕ} {e e' : ℤ}, Canonical m e → Canonical m' e' → e < e' →
      magnitude m e ≠ magnitude m' e' := by
    intro m m' e e' h h' hlt heq
    have hleast := h.least
    have hfull : 2 ^ 52 ≤ m' := h'.full.resolve_right (by omega)
    have hcast : (2 ^ 52 : ℚ) ≤ m' := by exact_mod_cast hfull
    have hle := magnitude_le_of_lt h.lt hlt
    rw [heq, magnitude_eq] at hle
    have hcount := le_of_mul_le_mul_right hle (quarter_pos e')
    linarith
  obtain rfl : e = e' := by
    rcases lt_trichotomy e e' with hlt | heq' | hgt
    · exact absurd heq (hdistinct h h' hlt)
    · exact heq'
    · exact absurd heq.symm (hdistinct h' h hgt)
  have hpos : (0 : ℚ) < 2 ^ e := by positivity
  exact ⟨by exact_mod_cast mul_right_cancel₀ hpos.ne' heq, rfl⟩

theorem Canonical.exists_above (h : Canonical m e) : ∃ m' e', m' < 2 ^ 53 ∧ -1074 ≤ e' ∧
    magnitude m' e' = (4 * m + 4) * quarter e := by
  have hvalue : magnitude (m + 1) e = (4 * m + 4) * quarter e := by
    rw [magnitude_eq]
    push_cast
    ring
  rcases Nat.lt_or_ge (m + 1) (2 ^ 53) with hlt | hge
  · exact ⟨m + 1, e, hlt, h.least, hvalue⟩
  · refine ⟨2 ^ 52, e + 1, by decide, by linarith [h.least], hvalue ▸ ?_⟩
    have hm : m + 1 = 2 ^ 52 * 2 ^ (e + 1 - e).toNat := by
      rw [add_sub_cancel_left]
      exact le_antisymm h.lt hge
    rw [magnitude_of_le _ (Int.le_add_one le_rfl), ← hm]

theorem Canonical.exists_below (h : Canonical m e) : ∃ m' e', m' < 2 ^ 53 ∧ -1074 ≤ e' ∧
    magnitude m' e' = (4 * m - 2 * below m e) * quarter e := by
  have hm := h.pos
  by_cases hsmall : m = 2 ^ 52 ∧ e ≠ -1074
  · refine ⟨2 ^ 53 - 1, e - 1, by decide, by have := h.least; omega, ?_⟩
    rw [below, if_pos hsmall, hsmall.1, magnitude, quarter,
      show e - 1 = 1 + (e - 2) by ring, zpow_one_add₀ two_ne_zero]
    norm_num
    ring
  · refine ⟨m - 1, e, by have := h.lt; omega, h.least, ?_⟩
    rw [below, if_neg hsmall, magnitude_eq, Nat.cast_sub hm]
    push_cast
    ring

theorem abs_sub_lt_iff_lt_mid {v g : ℚ} (h : v < g) : |q - v| < |q - g| ↔ 2 * q < v + g := by
  have hfactor : (q - g) ^ 2 - (q - v) ^ 2 = (g - v) * (v + g - 2 * q) := by ring
  rw [← sq_lt_sq, ← sub_pos, hfactor, mul_pos_iff_of_pos_left (sub_pos.mpr h), sub_pos]

theorem abs_sub_lt_iff_mid_lt {v g : ℚ} (h : g < v) : |q - v| < |q - g| ↔ v + g < 2 * q := by
  have hfactor : (q - g) ^ 2 - (q - v) ^ 2 = (v - g) * (2 * q - (v + g)) := by ring
  rw [← sq_lt_sq, ← sub_pos, hfactor, mul_pos_iff_of_pos_left (sub_pos.mpr h), sub_pos]

theorem abs_sub_eq_iff_eq_mid {v g : ℚ} (h : g ≠ v) : |q - v| = |q - g| ↔ 2 * q = v + g := by
  have hfactor : (q - v) ^ 2 - (q - g) ^ 2 = (g - v) * (2 * q - (v + g)) := by ring
  rw [← sq_eq_sq_iff_abs_eq_abs, ← sub_eq_zero, hfactor, mul_eq_zero,
    or_iff_right (sub_ne_zero.mpr h), sub_eq_zero]

/-- What is nearest to a number is not further from it than a number above or below. -/
theorem Nearest.mid_le {v g : ℚ} (h : Nearest m e q) (hv : magnitude m e = v) (hm' : m' < 2 ^ 53)
    (he' : -1074 ≤ e') (hg : magnitude m' e' = g) :
    (v < g → 2 * q ≤ v + g) ∧ (g < v → v + g ≤ 2 * q) := by
  subst hv hg
  refine ⟨fun hlt => ?_, fun hlt => ?_⟩
  · rcases h m' e' hm' he' hlt.ne' with hnear | ⟨htie, -⟩
    · exact ((abs_sub_lt_iff_lt_mid hlt).mp hnear).le
    · exact ((abs_sub_eq_iff_eq_mid hlt.ne').mp htie).le
  · rcases h m' e' hm' he' hlt.ne with hnear | ⟨htie, -⟩
    · exact ((abs_sub_lt_iff_mid_lt hlt).mp hnear).le
    · exact ((abs_sub_eq_iff_eq_mid hlt.ne).mp htie).ge

/-- The numbers that are rounded to a double are those of its interval. -/
theorem Canonical.nearest_iff (h : Canonical m e) :
    Nearest m e q ↔ Within (below m e) m e q := by
  have hu := quarter_pos e
  have hv := magnitude_eq m e
  have hb : (0 : ℚ) < below m e := by exact_mod_cast below_pos m e
  constructor
  -- The bounds lie halfway to the neighbours, which are doubles themselves.
  · refine fun hq => ⟨?_, ?_⟩
    · obtain ⟨m', e', hm', he', hg⟩ := h.exists_below
      have hlt : magnitude m' e' < magnitude m e := by
        rw [hg, hv]
        exact mul_lt_mul_of_pos_right (by linarith) hu
      have hmid : magnitude m e + magnitude m' e' = 2 * ((4 * m - below m e) * quarter e) := by
        rw [hg, hv]
        ring
      refine (hq m' e' hm' he' hlt.ne).imp (fun hnear => ?_) (And.imp_left fun htie => ?_)
      · rw [abs_sub_lt_iff_mid_lt hlt, hmid] at hnear
        linarith
      · rw [abs_sub_eq_iff_eq_mid hlt.ne, hmid] at htie
        linarith
    · obtain ⟨m', e', hm', he', hg⟩ := h.exists_above
      have hlt : magnitude m e < magnitude m' e' := by
        rw [hg, hv]
        exact mul_lt_mul_of_pos_right (by linarith) hu
      have hmid : magnitude m e + magnitude m' e' = 2 * ((4 * m + 2) * quarter e) := by
        rw [hg, hv]
        ring
      refine (hq m' e' hm' he' hlt.ne').imp (fun hnear => ?_) (And.imp_left fun htie => ?_)
      · rw [abs_sub_lt_iff_lt_mid hlt, hmid] at hnear
        linarith
      · rw [abs_sub_eq_iff_eq_mid hlt.ne', hmid] at htie
        linarith
  -- Every other double is a neighbour or lies beyond one.
  · rintro ⟨hlow, hhigh⟩ m' e' hm' he' hne
    rcases hne.lt_or_gt with hlt | hgt
    · have hgap := h.le_below hm' he' hlt
      rw [abs_sub_lt_iff_mid_lt hlt, abs_sub_eq_iff_eq_mid hne]
      rcases hlow with hlow | ⟨hlow, heven⟩
      · exact .inl (by linarith)
      · exact (lt_or_eq_of_le (by linarith)).imp id fun heq => ⟨heq.symm, heven⟩
    · have hgap := h.above_le hm' he' hgt
      rw [abs_sub_lt_iff_lt_mid hgt, abs_sub_eq_iff_eq_mid hne]
      rcases hhigh with hhigh | ⟨hhigh, heven⟩
      · exact .inl (by linarith)
      · exact (lt_or_eq_of_le (by linarith)).imp id fun heq => ⟨heq, heven⟩

/-! ### What lies in an interval -/

variable {b : ℕ} {p r : ℚ}

theorem within_of_even (h : Even m) : Within b m e q ↔
    (4 * m - b) * quarter e ≤ q ∧ q ≤ (4 * m + 2) * quarter e := by
  simp only [Within, h, and_true, le_iff_lt_or_eq]

theorem within_of_not_even (h : ¬ Even m) : Within b m e q ↔
    (4 * m - b) * quarter e < q ∧ q < (4 * m + 2) * quarter e := by
  simp only [Within, h, and_false, or_false]

theorem Within.between (hp : Within b m e p) (hr : Within b m e r) (hpq : p ≤ q) (hqr : q ≤ r) :
    Within b m e q := by
  refine ⟨?_, ?_⟩
  · rcases hp.1 with hlow | ⟨hlow, heven⟩
    · exact .inl (hlow.trans_le hpq)
    · exact (lt_or_eq_of_le (hlow.trans_le hpq)).imp_right fun heq => ⟨heq, heven⟩
  · rcases hr.2 with hhigh | ⟨hhigh, heven⟩
    · exact .inl (hqr.trans_lt hhigh)
    · exact (lt_or_eq_of_le (hqr.trans_eq hhigh)).imp_right fun heq => ⟨heq, heven⟩

theorem within_magnitude (hb : 0 < b) (m : ℕ) (e : ℤ) : Within b m e (magnitude m e) := by
  have hu := quarter_pos e
  have hb : (0 : ℚ) < b := by exact_mod_cast hb
  rw [magnitude_eq]
  exact ⟨.inl (mul_lt_mul_of_pos_right (by linarith) hu),
    .inl (mul_lt_mul_of_pos_right (by linarith) hu)⟩

theorem Within.le (h : Within b m e q) : q ≤ (4 * m + 2) * quarter e :=
  h.2.elim le_of_lt fun hhigh => hhigh.1.le

theorem Within.pos (h : Within b m e q) (hb : b ≤ 2) (hm : 0 < m) : 0 < q := by
  have hb : (b : ℚ) ≤ 2 := by exact_mod_cast hb
  have hm : (1 : ℚ) ≤ m := by exact_mod_cast hm
  have hlow : 0 < (4 * m - b) * quarter e := mul_pos (by linarith) (quarter_pos e)
  exact h.1.elim hlow.trans fun heq => hlow.trans_eq heq.1

end Number

end PathCopy
