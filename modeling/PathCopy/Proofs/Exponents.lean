import PathCopy.Proofs.Doubles
import PathCopy.Proofs.FewestDigits
import PathCopy.Proofs.NumericKeys

/-!
Numbers with an exponent. In JavaScript a number is written with the fewest digits that read back, in
positional notation where its point stands close to the digits, and with an exponent elsewhere. A key
is written with the same digits and never with an exponent; so the two are the same text for zero
and from `1e-6` up to `1e21`, and for no other number.
-/

namespace PathCopy

open Number

namespace Decimal

/-! ### Notation -/

/-- Where the point stands: the value is `0.` followed by the digits, times this power of ten. -/
def point (d : Decimal) : ℤ := d.size + d.exponent

/-- The digits with a point, or with zeros up to it, if it stands no more than 21 places to the right
and less than six to the left of the first digit; otherwise scientific notation. -/
def scripted (d : Decimal) : List Char :=
  let digits := digitChars d.digits
  let power := 'e' :: (if 0 < d.point then '+' else '-') :: digitChars (d.point - 1).natAbs
  if d.size ≤ d.point ∧ d.point ≤ 21 then
    digits ++ List.replicate (d.point - d.size).toNat '0'
  else if 0 < d.point ∧ d.point ≤ 21 then
    digits.take d.point.toNat ++ '.' :: digits.drop d.point.toNat
  else if -6 < d.point ∧ d.point ≤ 0 then
    '0' :: '.' :: List.replicate (-d.point).toNat '0' ++ digits
  else if d.size = 1 then digits ++ power
  else digits.take 1 ++ '.' :: digits.drop 1 ++ power

def IsClose (d : Decimal) : Prop := -6 < d.point ∧ d.point ≤ 21

variable {d : Decimal}

theorem scripted_of_isClose (h : d.IsClose) : d.scripted = d.positional := by
  obtain ⟨hlow, hhigh⟩ := h
  have hpoint : d.point = (digitChars d.digits).length + d.exponent := rfl
  have hsize : d.size = (digitChars d.digits).length := rfl
  rw [scripted, positional]
  by_cases hexponent : 0 ≤ d.exponent
  · rw [if_pos ⟨by omega, hhigh⟩, if_pos hexponent]
    congr 3
    omega
  · rw [if_neg (by omega), if_neg hexponent]
    by_cases hpos : 0 < d.point
    · have hplaces : d.point.toNat = (digitChars d.digits).length - (-d.exponent).toNat := by omega
      rw [if_pos ⟨hpos, hhigh⟩, if_pos (by omega), hplaces]
    · rw [if_neg (by omega), if_pos ⟨hlow, by omega⟩, if_neg (by omega)]
      congr 5
      omega

theorem mem_scripted (h : ¬ d.IsClose) : 'e' ∈ d.scripted := by
  rw [IsClose] at h
  rw [scripted, if_neg (by omega), if_neg (by omega), if_neg (by omega)]
  split <;> simp

/-- A number is written in positional notation only where the point stands close. -/
theorem isClose_of_scripted_eq {d' : Decimal} (h : d.scripted = d'.positional) : d.IsClose := by
  by_contra hfar
  have hmem : 'e' ∈ d'.positional := h ▸ mem_scripted hfar
  rcases (Number.isPlain_positional d').chars 'e' hmem with hdigit | hpoint
  · exact absurd hdigit (by decide)
  · exact absurd hpoint (by decide)

/-! ### Powers of ten among the doubles -/

theorem lt_point_iff (h : 0 < d.digits) (j : ℤ) : j < d.point ↔ 10 ^ j ≤ d.value := by
  rw [point]
  constructor
  · intro hlt
    exact (zpow_le_zpow_right₀ (by norm_num) (by omega)).trans (le_value h)
  · intro hle
    have hpower := hle.trans_lt d.value_lt
    exact (zpow_lt_zpow_iff_right₀ (by norm_num)).mp hpower

variable {m m' : ℕ} {e e' j : ℤ}

theorem IsShortest.digits_pos (hd : d.IsShortest m e) (h : Canonical m e) : 0 < d.digits :=
  Decimal.digits_pos (h.nearest_iff.mp hd.reads) h.pos (below_le m e)

/-- A power of ten inside the interval of a double parts the decimals where the double parts the
doubles, if no decimal of one digit below the power is inside. -/
theorem power_le_value_iff (h : Canonical m e) (hd : d.IsShortest m e) (h' : Canonical m' e')
    (hlow : (4 * m' - below m' e') * quarter e' < 10 ^ j)
    (hhigh : 10 ^ j < (4 * m' + 2) * quarter e')
    (hnine : 9 * 10 ^ (j - 1) < (4 * m' - below m' e') * quarter e') :
    10 ^ j ≤ d.value ↔ magnitude m' e' ≤ magnitude m e := by
  have hmid := hd.reads.mid_le rfl h'.lt h'.least rfl
  have hvalue := magnitude_eq m' e'
  constructor
  · intro hle
    by_contra hlt
    have hbelow := h'.le_below h.lt h.least (not_le.mp hlt)
    have hhalf := hmid.1 (not_le.mp hlt)
    linarith
  · intro hle
    by_contra hlt
    rcases hle.lt_or_eq with habove | heq
    · have hnext := h'.above_le h.lt h.least habove
      have hhalf := hmid.2 habove
      linarith
    · obtain ⟨rfl, rfl⟩ := h'.eq_of_magnitude h heq
      -- The power is a decimal of one digit, so there are no more digits than one.
      have hone : (⟨1, j⟩ : Decimal).value = 10 ^ j := by rw [value, Nat.cast_one, one_mul]
      have hpower : Nearest m' e' (⟨1, j⟩ : Decimal).value := by
        rw [h.nearest_iff, hone]
        exact ⟨.inl hlow, .inl hhigh⟩
      have hshort : (⟨1, j⟩ : Decimal).size ≤ 1 := (size_le_iff one_pos).mpr (by norm_num)
      have hsize : d.size ≤ 1 := (hd.fewest _ hpower).trans hshort
      have hpoint : d.point ≤ j := by rwa [← lt_point_iff (hd.digits_pos h), not_lt] at hlt
      have hvalue : d.value ≤ 9 * 10 ^ (j - 1) := by
        have hpos := d.size_pos
        rw [point] at hpoint
        exact value_le_of_size hsize (by omega)
      have hreads := (h.nearest_iff.mp hd.reads).1
      rcases hreads with hreads | ⟨hreads, -⟩ <;> linarith

end Decimal

namespace Number

variable {x : Float}

/-! ### Texts of doubles -/

def mantissa (x : Float) : ℕ := if biased x = 0 then fraction x else 2 ^ 52 + fraction x

def exponent (x : Float) : ℤ := if biased x = 0 then -1074 else (biased x : ℤ) - 1075

def distance (x : Float) : ℚ := magnitude (mantissa x) (exponent x)

theorem ofFloat?_of_isFinite (hx : x.isFinite = true) :
    Dyadic.ofFloat? x = some ⟨isNegative x, mantissa x, exponent x⟩ := by
  rw [ofFloat?_eq, if_neg (isFinite_iff.mp hx), mantissa, exponent]
  split <;> rfl

theorem canonical_of_pos (hx : x.isFinite = true) (hpos : 0 < mantissa x) :
    Canonical (mantissa x) (exponent x) := by
  have hfinite := isFinite_iff.mp hx
  have hbiased := biased_lt x
  have hfraction := fraction_lt x
  rw [mantissa] at hpos ⊢
  rw [exponent]
  by_cases hsubnormal : biased x = 0
  · rw [if_pos hsubnormal] at hpos
    rw [if_pos hsubnormal, if_pos hsubnormal]
    exact ⟨hpos, by omega, le_rfl, by decide, .inr rfl⟩
  · rw [if_neg hsubnormal] at hpos
    rw [if_neg hsubnormal, if_neg hsubnormal]
    exact ⟨hpos, by omega, by omega, by omega, .inl (Nat.le_add_right _ _)⟩

theorem beq_zero_iff_mantissa (hx : x.isFinite = true) : (x == 0) = true ↔ mantissa x = 0 := by
  rw [beq_zero_iff, unpack_eq, if_neg (isFinite_iff.mp hx), mantissa]
  split
  · split <;> simp_all
  · simp

/-- The key of a finite double that is not zero has the digits of its shortest decimal. -/
theorem toList_keyText (hx : x.isFinite = true) (hpos : 0 < mantissa x) : (keyText x).toList =
    (if isNegative x then ['-'] else []) ++
      (Decimal.shortest (mantissa x) (exponent x)).positional := by
  have hzero : ¬ (x == 0) = true := by
    rw [beq_zero_iff_mantissa hx]
    exact hpos.ne'
  have hnan : ¬ x.isNaN = true := by
    rw [isNaN_iff_unpack, unpack_eq, if_neg (isFinite_iff.mp hx)]
    split
    · split <;> simp
    · simp
  rw [keyText, if_neg hzero, if_neg hnan, if_pos hx, text, ofFloat?_of_isFinite hx]
  dsimp only
  rw [String.toList_ofList, if_neg hpos.ne']

/-- The texts that JavaScript allows for a finite double: both zeros are `0`, and any other number is
a shortest decimal behind its sign. -/
def Scripted (x : Float) (text : String) : Prop :=
  if x == 0 then text = "0"
  else ∃ d : Decimal, d.IsShortest (mantissa x) (exponent x) ∧
    text.toList = (if isNegative x then ['-'] else []) ++ d.scripted

theorem distance_bounds : distance 1e-6 = magnitude 4722366482869645 (-72) ∧
    distance 1e21 = magnitude 7629394531250000 17 := by
  have hfields : (mantissa 1e-6 = 4722366482869645 ∧ exponent 1e-6 = -72) ∧
      mantissa 1e21 = 7629394531250000 ∧ exponent 1e21 = 17 := by decide +kernel
  simp only [distance, hfields, and_self]

/-- The point of a shortest decimal stands close for the doubles from `1e-6` up to `1e21`. -/
theorem isClose_iff {d : Decimal} (h : Canonical (mantissa x) (exponent x))
    (hd : d.IsShortest (mantissa x) (exponent x)) :
    d.IsClose ↔ distance 1e-6 ≤ distance x ∧ distance x < distance 1e21 := by
  have hdigits := hd.digits_pos h
  have hlarge : (10 : ℚ) ^ (21 : ℤ) ≤ d.value ↔ distance 1e21 ≤ distance x := by
    rw [distance_bounds.2, distance]
    have hcanonical : Canonical 7629394531250000 17 :=
      ⟨by decide, by decide, by decide, by decide, .inl (by decide)⟩
    refine Decimal.power_le_value_iff h hd hcanonical ?_ ?_ ?_ <;> norm_num [below, quarter]
  have hsmall : (10 : ℚ) ^ (-6 : ℤ) ≤ d.value ↔ distance 1e-6 ≤ distance x := by
    rw [distance_bounds.1, distance]
    have hcanonical : Canonical 4722366482869645 (-72) :=
      ⟨by decide, by decide, by decide, by decide, .inl (by decide)⟩
    refine Decimal.power_le_value_iff h hd hcanonical ?_ ?_ ?_ <;> norm_num [below, quarter]
  rw [Decimal.IsClose, Decimal.lt_point_iff hdigits, hsmall]
  refine and_congr_right' ?_
  rw [← not_lt, Decimal.lt_point_iff hdigits, hlarge, not_le]

/-- The key of a finite double is spelled as in JavaScript for zero and from `1e-6` up to `1e21`, and
for no other number. -/
theorem keyText_scripted_iff (x : Float) (hx : x.isFinite = true) :
    (Value.number x).key? = some (keyText x) ∧
      (Scripted x (keyText x) ↔
        (x == 0) = true ∨ distance 1e-6 ≤ distance x ∧ distance x < distance 1e21) := by
  refine ⟨if_pos hx, ?_⟩
  rw [Scripted]
  by_cases hzero : (x == 0) = true
  · rw [if_pos hzero, keyText, if_pos hzero]
    simp [hzero]
  · rw [if_neg hzero, or_iff_right hzero]
    have hpos : 0 < mantissa x := Nat.pos_of_ne_zero (mt (beq_zero_iff_mantissa hx).mpr hzero)
    have hcanonical := canonical_of_pos hx hpos
    have hshortest := Decimal.isShortest_shortest hcanonical
    rw [toList_keyText hx hpos]
    constructor
    · rintro ⟨d, hd, htext⟩
      have hclose := Decimal.isClose_of_scripted_eq (List.append_cancel_left htext).symm
      exact (isClose_iff hcanonical hd).mp hclose
    · intro hrange
      have hclose := (isClose_iff hcanonical hshortest).mpr hrange
      exact ⟨_, hshortest, by rw [Decimal.scripted_of_isClose hclose]⟩

theorem keyText_scripted_iff_least : (1e-6 : Float).isFinite = true ∧
    (Value.number 1e-6).key? = some "0.000001" ∧ Scripted 1e-6 "0.000001" := by
  obtain ⟨hfinite, htext⟩ : (1e-6 : Float).isFinite = true ∧ keyText 1e-6 = "0.000001" := by
    decide +kernel
  have hkey := keyText_scripted_iff 1e-6 hfinite
  rw [htext] at hkey
  have hrange : distance 1e-6 < distance 1e21 := by
    rw [distance_bounds.1, distance_bounds.2]
    norm_num [magnitude]
  exact ⟨hfinite, hkey.1, hkey.2.mpr (.inr ⟨le_rfl, hrange⟩)⟩

theorem keyText_not_scripted_large : (1e21 : Float).isFinite = true ∧
    (Value.number 1e21).key? = some "1000000000000000000000" ∧
    Scripted 1e21 "1e+21" ∧ ¬ Scripted 1e21 "1000000000000000000000" := by
  obtain ⟨hfinite, hzero, hpositive, hmantissa, hdecimal⟩ : (1e21 : Float).isFinite = true ∧
      ¬ ((1e21 : Float) == 0) = true ∧ isNegative 1e21 = false ∧ 0 < mantissa 1e21 ∧
      Decimal.shortest (mantissa 1e21) (exponent 1e21) = ⟨1, 21⟩ := by
    decide +kernel
  have hcanonical := canonical_of_pos hfinite hmantissa
  have hshortest := Decimal.isShortest_shortest hcanonical
  rw [hdecimal] at hshortest
  rw [Scripted, Scripted, if_neg hzero, if_neg hzero, hpositive]
  refine ⟨hfinite, by decide +kernel, ⟨⟨1, 21⟩, hshortest, by decide +kernel⟩, ?_⟩
  rintro ⟨d, hd, htext⟩
  have hplain : d.scripted = (⟨1, 21⟩ : Decimal).positional :=
    htext.symm.trans (by decide +kernel)
  have hclose := Decimal.isClose_of_scripted_eq hplain
  exact lt_irrefl _ ((isClose_iff hcanonical hd).mp hclose).2

end Number

end PathCopy
