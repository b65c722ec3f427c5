import PathCopy.Number.Numeral
import PathCopy.Proofs.Nearest

/-!
The fewest digits. The search for the text of a double takes the coarsest decimal grid with a point
in the interval of the double, and on it the nearest point. A decimal with fewer digits would leave a
power of ten in the interval, which lies on a coarser grid; so the point has the fewest digits, and of
the decimals with as many it is the nearest.
-/

namespace PathCopy

open Number

namespace Decimal

variable {b m : ℕ} {e k : ℤ} {n : ℕ} {q : ℚ}

def value (d : Decimal) : ℚ := d.digits * 10 ^ d.exponent

def size (d : Decimal) : ℕ := (digitChars d.digits).length

/-! ### The grids -/

/-- The interval that goes down by `b` quarters of the last place, in steps of `10 ^ k`. -/
def rounding (b m : ℕ) (e k : ℤ) : Rounding :=
  let scale := Nat.pow 10 (-k).toNat <<< (e - 2).toNat
  { low := (4 * m - b) * scale
    value := 4 * m * scale
    high := (4 * m + 2) * scale
    unit := Nat.pow 10 k.toNat <<< (2 - e).toNat
    closed := m % 2 == 0 }

theorem zpow_mul_pow_toNat {a : ℚ} (ha : a ≠ 0) (k : ℤ) : a ^ k * a ^ (-k).toNat = a ^ k.toNat := by
  rw [← zpow_natCast, ← zpow_natCast, ← zpow_add₀ ha]
  congr 1
  omega

/-- What both sides of a comparison are multiplied by, to be natural numbers. -/
def weight (e k : ℤ) : ℚ := 10 ^ (-k).toNat * 2 ^ (2 - e).toNat

theorem weight_pos (e k : ℤ) : 0 < weight e k := by
  rw [weight]
  positivity

theorem cast_unit (b m : ℕ) (e k : ℤ) : ((rounding b m e k).unit : ℚ) = 10 ^ k * weight e k := by
  rw [weight, ← mul_assoc, zpow_mul_pow_toNat (by norm_num)]
  simp [rounding, Nat.shiftLeft_eq]

theorem cast_scale (e k : ℤ) :
    ((Nat.pow 10 (-k).toNat <<< (e - 2).toNat : ℕ) : ℚ) = quarter e * weight e k := by
  have htwo := zpow_mul_pow_toNat (two_ne_zero : (2 : ℚ) ≠ 0) (e - 2)
  rw [neg_sub] at htwo
  rw [weight, quarter, mul_left_comm, htwo]
  simp [Nat.shiftLeft_eq]

theorem cast_low (hm : 0 < m) (hb : b ≤ 2) :
    ((rounding b m e k).low : ℚ) = (4 * m - b) * quarter e * weight e k := by
  rw [rounding, Nat.cast_mul, cast_scale, Nat.cast_sub (by omega), ← mul_assoc]
  push_cast
  rfl

theorem cast_high (b m : ℕ) (e k : ℤ) :
    ((rounding b m e k).high : ℚ) = (4 * m + 2) * quarter e * weight e k := by
  rw [rounding, Nat.cast_mul, cast_scale, ← mul_assoc]
  push_cast
  rfl

theorem cast_value (b m : ℕ) (e k : ℤ) :
    ((rounding b m e k).value : ℚ) = magnitude m e * weight e k := by
  rw [rounding, Nat.cast_mul, cast_scale, magnitude_eq, ← mul_assoc]
  push_cast
  rfl

theorem cast_point (b m : ℕ) (e k : ℤ) (n : ℕ) :
    ((n * (rounding b m e k).unit : ℕ) : ℚ) = n * 10 ^ k * weight e k := by
  rw [Nat.cast_mul, cast_unit, mul_assoc]

/-- A point of the grid reads back if it lies in the interval. -/
theorem holds_iff (hm : 0 < m) (hb : b ≤ 2) (n : ℕ) :
    (rounding b m e k).holds n = true ↔ Within b m e (n * 10 ^ k) := by
  have hweight := weight_pos e k
  have hclosed : (rounding b m e k).closed = true ↔ Even m := by
    rw [Nat.even_iff]
    exact beq_iff_eq
  rw [Rounding.holds]
  by_cases heven : Even m
  · rw [if_pos (hclosed.mpr heven), within_of_even heven, decide_eq_true_iff,
      ← Nat.cast_le (α := ℚ), ← Nat.cast_le (α := ℚ), cast_point, cast_low hm hb, cast_high,
      mul_le_mul_iff_left₀ hweight, mul_le_mul_iff_left₀ hweight]
  · rw [if_neg (mt hclosed.mp heven), within_of_not_even heven, decide_eq_true_iff,
      ← Nat.cast_lt (α := ℚ), ← Nat.cast_lt (α := ℚ), cast_point, cast_low hm hb, cast_high,
      mul_lt_mul_iff_left₀ hweight, mul_lt_mul_iff_left₀ hweight]

def floor (b m : ℕ) (e k : ℤ) : ℕ := (rounding b m e k).value / (rounding b m e k).unit

theorem unit_pos (b m : ℕ) (e k : ℤ) : 0 < (rounding b m e k).unit := by
  have hcast := cast_unit b m e k
  have hpos : (0 : ℚ) < 10 ^ k * weight e k := mul_pos (by positivity) (weight_pos e k)
  rw [← hcast] at hpos
  exact_mod_cast hpos

theorem floor_mul_unit_le (b m : ℕ) (e k : ℤ) :
    floor b m e k * (rounding b m e k).unit ≤ (rounding b m e k).value :=
  Nat.div_mul_le_self _ _

theorem lt_floor_succ_mul_unit (b m : ℕ) (e k : ℤ) :
    (rounding b m e k).value < (floor b m e k + 1) * (rounding b m e k).unit :=
  (Nat.div_lt_iff_lt_mul (unit_pos b m e k)).mp (Nat.lt_succ_self _)

theorem floor_le (b m : ℕ) (e k : ℤ) : floor b m e k * 10 ^ k ≤ magnitude m e := by
  have hle := floor_mul_unit_le b m e k
  rw [← Nat.cast_le (α := ℚ), cast_point, cast_value] at hle
  exact le_of_mul_le_mul_right hle (weight_pos e k)

theorem lt_floor_succ (b m : ℕ) (e k : ℤ) :
    magnitude m e < ((floor b m e k + 1 : ℕ) : ℚ) * 10 ^ k := by
  have hlt := lt_floor_succ_mul_unit b m e k
  rw [← Nat.cast_lt (α := ℚ), cast_point, cast_value] at hlt
  exact lt_of_mul_lt_mul_right hlt (weight_pos e k).le

theorem nearer_iff (b m : ℕ) (e k : ℤ) :
    (rounding b m e k).value - floor b m e k * (rounding b m e k).unit <
        (floor b m e k + 1) * (rounding b m e k).unit - (rounding b m e k).value ↔
      magnitude m e - floor b m e k * 10 ^ k <
        ((floor b m e k + 1 : ℕ) : ℚ) * 10 ^ k - magnitude m e := by
  rw [← Nat.cast_lt (α := ℚ), Nat.cast_sub (floor_mul_unit_le b m e k),
    Nat.cast_sub (lt_floor_succ_mul_unit b m e k).le, cast_point, cast_point, cast_value,
    ← sub_mul, ← sub_mul, mul_lt_mul_iff_left₀ (weight_pos e k)]

theorem grid_mono {n n' : ℕ} (h : n ≤ n') (k : ℤ) : (n : ℚ) * 10 ^ k ≤ n' * 10 ^ k :=
  mul_le_mul_of_nonneg_right (Nat.cast_le.mpr h) (by positivity)

/-- If a point of the grid reads back then one of the two next to the number does. -/
theorem within_neighbour (hb : 0 < b) (h : Within b m e (n * 10 ^ k)) :
    n ≤ floor b m e k ∧ Within b m e (floor b m e k * 10 ^ k) ∨
      floor b m e k + 1 ≤ n ∧ Within b m e ((floor b m e k + 1 : ℕ) * 10 ^ k) := by
  have hself := within_magnitude hb m e
  rcases Nat.lt_or_ge (floor b m e k) n with hlt | hge
  · exact .inr ⟨hlt, hself.between h (lt_floor_succ b m e k).le (grid_mono hlt k)⟩
  · exact .inl ⟨hge, h.between hself (grid_mono hge k) (floor_le b m e k)⟩

/-- Of the two neighbours the one that reads back is picked, the nearer one if both do, and none if
neither does. -/
theorem pick?_cases (hm : 0 < m) (hb : b ≤ 2) :
    (Within b m e (floor b m e k * 10 ^ k) ∧
      (Within b m e ((floor b m e k + 1 : ℕ) * 10 ^ k) →
        magnitude m e - floor b m e k * 10 ^ k ≤
          ((floor b m e k + 1 : ℕ) : ℚ) * 10 ^ k - magnitude m e) ∧
      (rounding b m e k).pick? = some (floor b m e k)) ∨
    (Within b m e ((floor b m e k + 1 : ℕ) * 10 ^ k) ∧
      (Within b m e (floor b m e k * 10 ^ k) →
        ((floor b m e k + 1 : ℕ) : ℚ) * 10 ^ k - magnitude m e ≤
          magnitude m e - floor b m e k * 10 ^ k) ∧
      (rounding b m e k).pick? = some (floor b m e k + 1)) ∨
    (¬ Within b m e (floor b m e k * 10 ^ k) ∧
      ¬ Within b m e ((floor b m e k + 1 : ℕ) * 10 ^ k) ∧ (rounding b m e k).pick? = none) := by
  have hnearer := nearer_iff b m e k
  rw [← holds_iff hm hb, ← holds_iff hm hb, Rounding.pick?]
  unfold floor at *
  cases (rounding b m e k).holds ((rounding b m e k).value / (rounding b m e k).unit) <;>
    cases (rounding b m e k).holds ((rounding b m e k).value / (rounding b m e k).unit + 1)
  · simp
  · simp
  · simp
  · simp only [true_and, forall_const, hnearer]
    split
    · next h => exact .inl ⟨h.le, rfl⟩
    · next h => exact .inr (.inl ⟨not_lt.mp h, rfl⟩)

/-- Where no point is picked no point of the grid reads back. -/
theorem not_within_of_pick? (hm : 0 < m) (hb : 0 < b) (hb' : b ≤ 2)
    (h : (rounding b m e k).pick? = none) (n : ℕ) : ¬ Within b m e (n * 10 ^ k) := by
  intro hn
  rcases pick?_cases (b := b) (e := e) (k := k) hm hb' with
    ⟨-, -, hpick⟩ | ⟨-, -, hpick⟩ | ⟨hfloor, hnext, -⟩
  · cases h.symm.trans hpick
  · cases h.symm.trans hpick
  · exact (within_neighbour hb hn).elim (fun hw => hfloor hw.2) fun hw => hnext hw.2

/-- The point that is picked reads back, and no point of the grid that does is nearer. -/
theorem nearest_of_pick? (hm : 0 < m) (hb : 0 < b) (hb' : b ≤ 2) {a : ℕ}
    (h : (rounding b m e k).pick? = some a) : Within b m e (a * 10 ^ k) ∧
      ∀ n : ℕ, Within b m e (n * 10 ^ k) →
        |a * 10 ^ k - magnitude m e| ≤ |n * 10 ^ k - magnitude m e| := by
  have hfloor := floor_le b m e k
  have hnext := lt_floor_succ b m e k
  rcases pick?_cases (b := b) (e := e) (k := k) hm hb' with
    ⟨hreads, hnearer, hpick⟩ | ⟨hreads, hnearer, hpick⟩ | ⟨-, -, hpick⟩
  · cases h.symm.trans hpick
    refine ⟨hreads, fun n hn => ?_⟩
    rw [abs_of_nonpos (sub_nonpos.mpr hfloor)]
    rcases within_neighbour hb hn with ⟨hle, -⟩ | ⟨hle, hw⟩
    · have hgrid := grid_mono hle k
      rw [abs_of_nonpos (by linarith)]
      linarith
    · have hgrid := grid_mono hle k
      have hdist := hnearer hw
      rw [abs_of_nonneg (by linarith)]
      linarith
  · cases h.symm.trans hpick
    refine ⟨hreads, fun n hn => ?_⟩
    rw [abs_of_nonneg (sub_nonneg.mpr hnext.le)]
    rcases within_neighbour hb hn with ⟨hle, hw⟩ | ⟨hle, -⟩
    · have hgrid := grid_mono hle k
      have hdist := hnearer hw
      rw [abs_of_nonpos (by linarith)]
      linarith
    · have hgrid := grid_mono hle k
      rw [abs_of_nonneg (by linarith)]
      linarith
  · cases h.symm.trans hpick

/-! ### How far the search goes -/

theorem zpow_le_zpow_of_nonpos {a b : ℚ} (ha : 0 < a) (h : a ≤ b) {l : ℤ} (hl : l ≤ 0) :
    b ^ l ≤ a ^ l := by
  have hinv := zpow_le_zpow_left₀ (neg_nonneg.mpr hl) ha.le h
  rw [zpow_neg, zpow_neg] at hinv
  exact (inv_le_inv₀ (zpow_pos ha l) (zpow_pos (ha.trans_le h) l)).mp hinv

/-- The same power of two numbers one of which is at most ten times the other. -/
theorem zpow_le_ten_pow_mul {a b : ℚ} {N : ℕ} {l : ℤ} (ha : 0 < a) (hab : a ≤ 10 * b)
    (hba : b ≤ 10 * a) (hl : |l| ≤ N) : a ^ l ≤ 10 ^ N * b ^ l := by
  obtain ⟨hlow, hhigh⟩ := abs_le.mp hl
  have hb : 0 < b := by linarith
  have hstretch : ∀ i : ℤ, i ≤ N → (10 : ℚ) ^ i ≤ 10 ^ N := fun i hi => by
    rw [← zpow_natCast]
    exact zpow_le_zpow_right₀ (by norm_num) hi
  rcases le_total 0 l with hl | hl
  · calc a ^ l ≤ (10 * b) ^ l := zpow_le_zpow_left₀ hl ha.le hab
      _ = 10 ^ l * b ^ l := mul_zpow _ _ _
      _ ≤ 10 ^ N * b ^ l := mul_le_mul_of_nonneg_right (hstretch l hhigh) (zpow_pos hb l).le
  · calc a ^ l ≤ (b / 10) ^ l := zpow_le_zpow_of_nonpos (by linarith) (by linarith) hl
      _ = 10 ^ (-l) * b ^ l := by rw [div_zpow, zpow_neg, div_eq_inv_mul]
      _ ≤ 10 ^ N * b ^ l :=
        mul_le_mul_of_nonneg_right (hstretch (-l) (by linarith)) (zpow_pos hb l).le

/-- The decimal exponent of a power of two is found up to one, from fractions that approximate the
logarithm of two. -/
theorem two_zpow_bounds {N P : ℕ} (hN : 0 < N) (hle : (2 : ℚ) ^ N ≤ 10 ^ P)
    (hge : (10 : ℚ) ^ P ≤ 10 * 2 ^ N) {l : ℤ} (hl : |l| ≤ N) :
    (2 : ℚ) ^ l < 10 ^ (l * P / N + 2) ∧ (10 : ℚ) ^ (l * P / N) ≤ 10 * 2 ^ l := by
  have hNz : (0 : ℤ) < N := by exact_mod_cast hN
  have hfloor := Int.mul_ediv_self_le (x := l * P) hNz.ne'
  have hnext := Int.lt_mul_ediv_self_add (x := l * P) hNz
  have hroot : ∀ (a : ℚ) (i : ℤ), (a ^ i) ^ N = (a ^ N) ^ i := fun a i => by
    rw [← zpow_natCast, ← zpow_natCast, zpow_comm]
  have hpower : ((10 : ℚ) ^ P) ^ l = 10 ^ (l * P) := by
    rw [← zpow_natCast, ← zpow_mul, mul_comm]
  have hten : ∀ i : ℤ, ((10 : ℚ) ^ i) ^ N = 10 ^ (i * N) := fun i => by
    rw [← zpow_natCast, ← zpow_mul]
  have hgrow : (10 : ℚ) ^ P ≤ 10 * 10 ^ P := by linarith [show (0 : ℚ) < 10 ^ P by positivity]
  constructor
  · refine lt_of_pow_lt_pow_left₀ N (by positivity) ?_
    calc ((2 : ℚ) ^ l) ^ N = (2 ^ N) ^ l := hroot 2 l
      _ ≤ 10 ^ N * (10 ^ P) ^ l :=
        zpow_le_ten_pow_mul (by positivity) (hle.trans hgrow) hge hl
      _ = 10 ^ (N + l * P) := by rw [hpower, zpow_add₀ (by norm_num), zpow_natCast]
      _ < 10 ^ ((l * P / N + 2) * N) := zpow_lt_zpow_right₀ (by norm_num) (by linarith)
      _ = (10 ^ (l * P / N + 2)) ^ N := (hten _).symm
  · refine le_of_pow_le_pow_left₀ hN.ne' (by positivity) ?_
    calc ((10 : ℚ) ^ (l * P / N)) ^ N = 10 ^ (l * P / N * N) := hten _
      _ ≤ 10 ^ (l * P) := zpow_le_zpow_right₀ (by norm_num) (by linarith)
      _ = (10 ^ P) ^ l := hpower.symm
      _ ≤ 10 ^ N * (2 ^ N) ^ l :=
        zpow_le_ten_pow_mul (by positivity) hge (hle.trans hgrow) hl
      _ = (10 * 2 ^ l) ^ N := by rw [mul_pow, hroot]

theorem two_zpow_bounds_log (l : ℤ) (hl : |l| ≤ 100000) :
    (2 : ℚ) ^ l < 10 ^ ((l * 30103).fdiv 100000 + 2) ∧
      (10 : ℚ) ^ (l * 30103).fdiv 100000 ≤ 10 * 2 ^ l := by
  have hle : 2 ^ 100000 ≤ 10 ^ 30103 := by decide +kernel
  have hge : 10 ^ 30103 ≤ 10 * 2 ^ 100000 := by decide +kernel
  rw [Int.fdiv_eq_ediv_of_nonneg _ (by decide)]
  exact two_zpow_bounds (by decide) (by exact_mod_cast hle) (by exact_mod_cast hge) hl

/-- The interval ends below the grids above the top one, and is wider than the step of the lowest
grid. -/
theorem topExponent_bounds (h : Canonical m e) :
    (4 * m + 2) * quarter e < 10 ^ (topExponent m e + 1) ∧
      (10 : ℚ) ^ (topExponent m e - 23) ≤ quarter e := by
  have hne := h.pos.ne'
  have hlog : m.log2 < 53 := (Nat.log2_lt hne).mpr h.lt
  have hleast := h.least
  have hgreatest := h.greatest
  obtain ⟨hupper, hlower⟩ := two_zpow_bounds_log (m.log2 + e) (abs_le.mpr (by omega))
  have hten : ∀ i : ℤ, (10 : ℚ) ^ (i + 1) = 10 * 10 ^ i := fun i => by
    rw [zpow_add_one₀ (by norm_num), mul_comm]
  have hpos := quarter_pos e
  constructor
  · have hm : (m : ℚ) < 2 ^ (m.log2 + 1) := by exact_mod_cast Nat.lt_log2_self
    have hvalue : 4 * m * quarter e < 2 * 2 ^ ((m.log2 : ℤ) + e) := by
      rw [← magnitude_eq, magnitude, zpow_add₀ two_ne_zero, zpow_natCast, ← mul_assoc, ← pow_succ']
      exact mul_lt_mul_of_pos_right hm (by positivity)
    have hsmall : (1 : ℚ) ≤ m := by exact_mod_cast h.pos
    have hwidth : 2 * quarter e ≤ 2 * m * quarter e :=
      mul_le_mul_of_nonneg_right (by linarith) hpos.le
    rw [topExponent, hten]
    linarith
  · have he : (2 : ℚ) ^ ((m.log2 : ℤ) + e) ≤ 2 ^ 54 * quarter e := by
      rw [quarter, ← zpow_natCast, ← zpow_add₀ two_ne_zero]
      exact zpow_le_zpow_right₀ one_le_two (by omega)
    rw [topExponent, add_sub_assoc, zpow_add₀ (by norm_num)]
    norm_num
    linarith

/-! ### The search -/

/-- A point of the coarsest grid that has points in the interval, next to the number. -/
structure Coarsest (b m : ℕ) (e : ℤ) (d : Decimal) : Prop where
  reads : Within b m e d.value
  coarsest : ∀ k, d.exponent < k → ∀ n : ℕ, ¬ Within b m e (n * 10 ^ k)
  nearest : ∀ n : ℕ, Within b m e (n * 10 ^ d.exponent) →
    |d.value - magnitude m e| ≤ |n * 10 ^ d.exponent - magnitude m e|

/-- The first point that is picked, from the top grid on. -/
def search (b m : ℕ) (e : ℤ) : Option Decimal :=
  (List.range 24).findSome? fun (i : ℕ) =>
    (rounding b m e (topExponent m e - i)).pick?.map (⟨·, topExponent m e - i⟩)

theorem first_of_findSome?_range {α : Type} {f : ℕ → Option α} {N : ℕ} {a : α}
    (h : (List.range N).findSome? f = some a) : ∃ i < N, f i = some a ∧ ∀ j < i, f j = none := by
  obtain ⟨before, i, after, hrange, hi, hbefore⟩ := List.findSome?_eq_some_iff.mp h
  have hlt : i < N := List.mem_range.mp (hrange ▸ List.mem_append_right _ List.mem_cons_self)
  refine ⟨i, hlt, hi, fun j hj => hbefore j ?_⟩
  have hmem : j ∈ before ++ i :: after := hrange ▸ List.mem_range.mpr (hj.trans hlt)
  have hsorted := List.pairwise_lt_range (n := N)
  rw [hrange, List.pairwise_append, List.pairwise_cons] at hsorted
  rcases List.mem_append.mp hmem with hmem | hmem
  · exact hmem
  · rcases List.mem_cons.mp hmem with rfl | hmem
    · exact absurd hj (Nat.lt_irrefl j)
    · exact absurd (hsorted.2.1.1 j hmem) hj.asymm

/-- Above the top grid no point reads back. -/
theorem not_within_above (h : Canonical m e) (hb : b ≤ 2) (hk : topExponent m e < k) (n : ℕ) :
    ¬ Within b m e (n * 10 ^ k) := by
  intro hn
  have hpos := hn.pos hb h.pos
  have hone : (1 : ℚ) ≤ n := by
    rcases Nat.eq_zero_or_pos n with rfl | hn
    · simp at hpos
    · exact_mod_cast hn
  have hstep : (10 : ℚ) ^ (topExponent m e + 1) ≤ 10 ^ k :=
    zpow_le_zpow_right₀ (by norm_num) hk
  have hpoint : (10 : ℚ) ^ k ≤ n * 10 ^ k := le_mul_of_one_le_left (by positivity) hone
  exact absurd hn.le (not_le.mpr ((topExponent_bounds h).1.trans_le (hstep.trans hpoint)))

/-- On the lowest grid of the search a point reads back. -/
theorem exists_within_lowest (h : Canonical m e) (hb : 0 < b) :
    ∃ n : ℕ, Within b m e (n * 10 ^ (topExponent m e - 23)) := by
  have hstep := (topExponent_bounds h).2
  have hle := floor_le b m e (topExponent m e - 23)
  have hlt := lt_floor_succ b m e (topExponent m e - 23)
  have hpos := quarter_pos e
  have hone : (1 : ℚ) ≤ b := by exact_mod_cast hb
  have hwidth : quarter e ≤ b * quarter e := le_mul_of_one_le_left hpos.le hone
  rw [magnitude_eq] at hle hlt
  push_cast at hlt
  refine ⟨floor b m e (topExponent m e - 23), .inl (by linarith), .inl (by linarith)⟩

theorem exists_search (h : Canonical m e) (hb : 0 < b) (hb' : b ≤ 2) :
    ∃ d, search b m e = some d ∧ d.Coarsest b m e := by
  have hsome : (search b m e).isSome := by
    obtain ⟨n, hn⟩ := exists_within_lowest h hb
    rw [search, List.isSome_findSome?, List.any_eq_true]
    refine ⟨23, List.mem_range.mpr (by decide), ?_⟩
    rw [Option.isSome_map, Option.isSome_iff_ne_none]
    exact fun hnone => not_within_of_pick? h.pos hb hb' hnone n hn
  obtain ⟨d, hd⟩ := Option.isSome_iff_exists.mp hsome
  obtain ⟨i, hi, hpick, hnone⟩ := first_of_findSome?_range hd
  obtain ⟨a, ha, rfl⟩ := Option.map_eq_some_iff.mp hpick
  obtain ⟨hreads, hnearest⟩ := nearest_of_pick? h.pos hb hb' ha
  refine ⟨_, hd, hreads, fun k hk n => ?_, hnearest⟩
  rcases lt_or_ge (topExponent m e) k with habove | hwithin
  · exact not_within_above h hb' habove n
  · have hgrid : topExponent m e - ((topExponent m e - k).toNat : ℤ) = k := by omega
    have hnone := hnone (topExponent m e - k).toNat (by simp only at hk; omega)
    rw [hgrid, Option.map_eq_none_iff] at hnone
    exact not_within_of_pick? h.pos hb hb' hnone n

/-- At the least power of two that has 53 bits the search takes the interval to be narrower below
than it is, and finds the same. -/
theorem search_least : search 1 (2 ^ 52) (-1074) = search 2 (2 ^ 52) (-1074) := by
  decide +kernel

theorem shortest_eq (m : ℕ) (e : ℤ) : shortest m e =
    (search (below m e) m e).getD ⟨m <<< e.toNat * Nat.pow 5 (-e).toNat, min e 0⟩ := by
  have hsearch : search (if m = 2 ^ 52 then 1 else 2) m e = search (below m e) m e := by
    rw [below]
    by_cases hm : m = 2 ^ 52
    · by_cases he : e = -1074
      · rw [if_pos hm, if_neg fun hn => hn.2 he, hm, he]
        exact search_least
      · rw [if_pos hm, if_pos ⟨hm, he⟩]
    · rw [if_neg hm, if_neg fun hn => hm hn.1]
  rw [← hsearch]
  rfl

/-- What the search for the shortest decimal finds. -/
theorem coarsest_shortest (h : Canonical m e) : (shortest m e).Coarsest (below m e) m e := by
  obtain ⟨d, hd, hcoarsest⟩ := exists_search h (below_pos m e) (below_le m e)
  rw [shortest_eq, hd]
  exact hcoarsest

/-! ### Digits -/

variable {d d' : Decimal}

theorem size_pos (d : Decimal) : 0 < d.size := Nat.length_toDigits_pos

theorem size_le_iff (hn : 0 < n) : d.size ≤ n ↔ d.digits < 10 ^ n :=
  Nat.length_toDigits_le_iff (by decide) hn

theorem value_lt (d : Decimal) : d.value < 10 ^ (d.size + d.exponent) := by
  have hlt : (d.digits : ℚ) < 10 ^ d.size := by
    exact_mod_cast (size_le_iff d.size_pos).mp le_rfl
  rw [value, zpow_add₀ (by norm_num), zpow_natCast]
  exact mul_lt_mul_of_pos_right hlt (by positivity)

theorem le_value (h : 0 < d.digits) : 10 ^ (d.size - 1 + d.exponent) ≤ d.value := by
  have hle : (10 : ℚ) ^ (d.size - 1) ≤ d.digits := by
    rcases Nat.eq_zero_or_pos (d.size - 1) with hzero | hpos
    · rw [hzero]
      exact_mod_cast h
    · have hnot : ¬ d.size ≤ d.size - 1 := by omega
      rw [size_le_iff hpos, not_lt] at hnot
      exact_mod_cast hnot
  have hsize : ((d.size : ℤ) - 1) = ((d.size - 1 : ℕ) : ℤ) := by
    have := d.size_pos
    omega
  rw [value, hsize, zpow_add₀ (by norm_num), zpow_natCast]
  exact mul_le_mul_of_nonneg_right hle (by positivity)

/-- With one digit a decimal is at most nine times the power of ten. -/
theorem value_le_of_size (hsize : d.size ≤ 1) (hk : d.exponent ≤ k) : d.value ≤ 9 * 10 ^ k := by
  have hdigits : (d.digits : ℚ) ≤ 9 := by
    have hlt := (size_le_iff one_pos).mp hsize
    have hle : d.digits ≤ 9 := by omega
    exact_mod_cast hle
  have hstep : (10 : ℚ) ^ d.exponent ≤ 10 ^ k := zpow_le_zpow_right₀ (by norm_num) hk
  exact mul_le_mul hdigits hstep (by positivity) (by norm_num)

theorem digits_pos (h : Within b m e d.value) (hm : 0 < m) (hb : b ≤ 2) : 0 < d.digits := by
  have hpos := h.pos hb hm
  rw [Nat.pos_iff_ne_zero]
  intro hzero
  simp [value, hzero] at hpos

namespace Coarsest

variable (hd : d.Coarsest b m e)

include hd

theorem exponent_le (hd' : Within b m e d'.value) : d'.exponent ≤ d.exponent :=
  not_lt.mp fun hlt => hd.coarsest _ hlt _ hd'

/-- Below the leading power of ten no decimal reads back, unless there is one digit only. -/
theorem size_eq_one (hm : 0 < m) (hb : b ≤ 2) (hd' : Within b m e d'.value)
    (hlt : d'.value < 10 ^ (d.size - 1 + d.exponent)) :
    d.size = 1 ∧ Within b m e (10 ^ d.exponent) := by
  have hpower : Within b m e (10 ^ (d.size - 1 + d.exponent)) :=
    hd'.between hd.reads hlt.le (le_value (digits_pos hd.reads hm hb))
  have hsize := d.size_pos
  have hcoarse : d.size - 1 + d.exponent ≤ d.exponent := by
    by_contra hgt
    refine hd.coarsest _ (not_le.mp hgt) 1 ?_
    rwa [Nat.cast_one, one_mul]
  have hone : d.size = 1 := by omega
  rw [hone] at hpower
  exact ⟨hone, by simpa using hpower⟩

/-- No decimal that reads back has fewer digits. -/
theorem size_le (hm : 0 < m) (hb : b ≤ 2) (hd' : Within b m e d'.value) : d.size ≤ d'.size := by
  by_contra hlt
  have hexponent := hd.exponent_le hd'
  have hpower : d'.value < 10 ^ (d.size - 1 + d.exponent) :=
    d'.value_lt.trans_le (zpow_le_zpow_right₀ (by norm_num) (by omega))
  have hone := (hd.size_eq_one hm hb hd' hpower).1
  have hpos := d'.size_pos
  omega

/-- Of the decimals with as many digits that read back none is nearer, if the number is not far below
a leading power of ten. -/
theorem nearest_of_size (hm : 0 < m) (hb : b ≤ 2)
    (hfar : Within b m e (10 ^ d.exponent) → 19 * 10 ^ d.exponent ≤ 20 * magnitude m e)
    (hd' : Within b m e d'.value) (hsize : d'.size = d.size) :
    |d.value - magnitude m e| ≤ |d'.value - magnitude m e| := by
  rcases (hd.exponent_le hd').lt_or_eq with hlt | heq
  · have hpower : d'.value < 10 ^ (d.size - 1 + d.exponent) :=
      d'.value_lt.trans_le (zpow_le_zpow_right₀ (by norm_num) (by omega))
    obtain ⟨hone, hreads⟩ := hd.size_eq_one hm hb hd' hpower
    have hnearest := hd.nearest 1 (by rwa [Nat.cast_one, one_mul])
    rw [Nat.cast_one, one_mul] at hnearest
    -- With one digit and a finer step the other decimal is a tenth below the power at least.
    have hvalue : d'.value ≤ 9 / 10 * 10 ^ d.exponent :=
      calc d'.value ≤ 9 * 10 ^ (d.exponent - 1) := value_le_of_size (by omega) (by omega)
        _ = 9 / 10 * 10 ^ d.exponent := by
            rw [zpow_sub_one₀ (by norm_num)]
            ring
    have hpos : (0 : ℚ) < 10 ^ d.exponent := by positivity
    have hfar := hfar hreads
    refine hnearest.trans ?_
    rw [abs_of_nonpos (by linarith : d'.value - magnitude m e ≤ 0), abs_le]
    constructor <;> linarith
  · have hvalue : d'.value = d'.digits * 10 ^ d.exponent := by rw [value, heq]
    rw [hvalue] at hd' ⊢
    exact hd.nearest d'.digits hd'

end Coarsest

/-- Where the mantissa is small the exponent of the shortest decimal is known. -/
theorem exponent_shortest_of_small (hpos : 0 < m) (hlt : m < 10) :
    (shortest m (-1074)).exponent = -324 ∨ (shortest m (-1074)).exponent = -323 ∧ 2 ≤ m := by
  have hall : ∀ m < 10, 0 < m → (shortest m (-1074)).exponent = -324 ∨
      (shortest m (-1074)).exponent = -323 ∧ 2 ≤ m := by
    decide +kernel
  exact hall m hlt hpos

theorem ten_zpow_le_two_zpow {a c i j : ℕ} (h : a * 2 ^ j ≤ c * 10 ^ i) :
    a * (10 : ℚ) ^ (-i : ℤ) ≤ c * 2 ^ (-j : ℤ) := by
  rw [zpow_neg, zpow_neg, ← div_eq_mul_inv, ← div_eq_mul_inv, zpow_natCast, zpow_natCast,
    div_le_div_iff₀ (by positivity) (by positivity)]
  exact_mod_cast h

/-- The leading power of ten of a shortest decimal of one digit is not far above the number. -/
theorem leading_le (h : Canonical m e)
    (hreads : Within (below m e) m e (10 ^ (shortest m e).exponent)) :
    19 * 10 ^ (shortest m e).exponent ≤ 20 * magnitude m e := by
  have hpos := quarter_pos e
  rcases Nat.lt_or_ge m 10 with hlt | hge
  · obtain rfl : e = -1074 := h.full.resolve_left (by omega)
    have hunit : (0 : ℚ) ≤ 2 ^ (-1074 : ℤ) := by positivity
    rw [magnitude, ← mul_assoc]
    rcases exponent_shortest_of_small h.pos hlt with hk | ⟨hk, hm⟩
    · have hpower := ten_zpow_le_two_zpow (a := 19) (c := 20) (i := 324) (j := 1074) (by decide +kernel)
      have hm : (1 : ℚ) ≤ m := by exact_mod_cast h.pos
      rw [hk]
      refine hpower.trans (mul_le_mul_of_nonneg_right ?_ hunit)
      push_cast
      linarith
    · have hpower := ten_zpow_le_two_zpow (a := 19) (c := 40) (i := 323) (j := 1074) (by decide +kernel)
      have hm : (2 : ℚ) ≤ m := by exact_mod_cast hm
      rw [hk]
      refine hpower.trans (mul_le_mul_of_nonneg_right ?_ hunit)
      push_cast
      linarith
  · have hm : (10 : ℚ) ≤ m := by exact_mod_cast hge
    have hle := hreads.le
    have hten : 10 * quarter e ≤ m * quarter e := mul_le_mul_of_nonneg_right hm hpos.le
    rw [magnitude_eq]
    linarith

/-- A decimal that is rounded to the number, with as few digits as any other one, and as near as any
other one with so few. -/
structure IsShortest (m : ℕ) (e : ℤ) (d : Decimal) : Prop where
  reads : Nearest m e d.value
  fewest : ∀ d' : Decimal, Nearest m e d'.value → d.size ≤ d'.size
  closest : ∀ d' : Decimal, Nearest m e d'.value → d'.size = d.size →
    |d.value - magnitude m e| ≤ |d'.value - magnitude m e|

/-- The search finds a shortest decimal. -/
theorem isShortest_shortest (h : Canonical m e) : (shortest m e).IsShortest m e where
  reads := h.nearest_iff.mpr (coarsest_shortest h).reads
  fewest _ hd' := (coarsest_shortest h).size_le h.pos (below_le m e) (h.nearest_iff.mp hd')
  closest _ hd' hsize := (coarsest_shortest h).nearest_of_size h.pos (below_le m e) (leading_le h)
    (h.nearest_iff.mp hd') hsize

end Decimal

end PathCopy
