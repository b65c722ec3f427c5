import Mathlib
import PathCopy.Number.Dyadic

/-!
Doubles by their bits. The fields of a double say whether it is finite, a NaN or zero, and which
number it is. Two doubles compare as equal if they are the same one and no NaN, or both zeros; so
with one zero for the two, comparing is equality.
-/

namespace PathCopy

namespace Number

open Float.Model (Format UnpackedFloat)
open Float.Model.UnpackedFloat (Sign)

variable {x y : Float}

/-! ### Fields -/

/-- The exponent field; 2047 stands for the infinities and NaN, 0 for the numbers next to zero. -/
def biased (x : Float) : ℕ := x.toBits.toNat / 2 ^ 52 % 2048

def fraction (x : Float) : ℕ := x.toBits.toNat % 2 ^ 52

def isNegative (x : Float) : Bool := decide (2 ^ 63 ≤ x.toBits.toNat)

def sign (x : Float) : Sign := if isNegative x then .negative else .positive

theorem biased_lt (x : Float) : biased x < 2048 := Nat.mod_lt _ (by decide)

theorem fraction_lt (x : Float) : fraction x < 2 ^ 52 := Nat.mod_lt _ (by decide)

theorem toNat_unpackMantissa (x : Float) :
    (@UnpackedFloat.unpackMantissa .binary64 x.toBits.toBitVec).toNat = fraction x := by
  simp [UnpackedFloat.unpackMantissa, fraction]

theorem toNat_unpackExponent (x : Float) :
    (@UnpackedFloat.unpackExponent .binary64 x.toBits.toBitVec).toNat = biased x := by
  simp [UnpackedFloat.unpackExponent, biased, Nat.shiftRight_eq_div_pow]

theorem ofBitVec_unpackSign (x : Float) :
    Sign.ofBitVec (@UnpackedFloat.unpackSign .binary64 x.toBits.toBitVec) = sign x := by
  have hlt := x.toBits.toNat_lt
  have hzero : @UnpackedFloat.unpackSign .binary64 x.toBits.toBitVec = 0#1 ↔
      isNegative x = false := by
    rw [← BitVec.toNat_inj]
    simp [UnpackedFloat.unpackSign, isNegative, Nat.shiftRight_eq_div_pow]
    omega
  cases h : isNegative x with
  | true => rw [Sign.ofBitVec, sign, if_neg (by simp [hzero, h]), h, if_pos rfl]
  | false =>
      rw [Sign.ofBitVec, sign, if_pos (hzero.mpr h), h]
      rfl

/-- What the fields of a double stand for. -/
theorem unpack_eq (x : Float) : x.toModel.unpack =
    if biased x = 2047 then if fraction x = 0 then .infinity (sign x) else .notANumber
    else if biased x = 0 then
      if h : fraction x = 0 then .zero (sign x)
      else .finite (sign x) (fraction x) (-1074) (Nat.pos_of_ne_zero h)
    else .finite (sign x) (2 ^ 52 + fraction x) ((biased x : ℤ) - 1075)
      (Nat.add_pos_left (by decide) _) := by
  have hmantissa := toNat_unpackMantissa x
  have hexponent := toNat_unpackExponent x
  have hsign := ofBitVec_unpackSign x
  have hlast : @UnpackedFloat.unpackExponent .binary64 x.toBits.toBitVec = -1#11 ↔
      biased x = 2047 := by
    rw [← hexponent, ← BitVec.toNat_inj]
    rfl
  have hfirst : @UnpackedFloat.unpackExponent .binary64 x.toBits.toBitVec = 0#11 ↔
      biased x = 0 := by
    rw [← hexponent, ← BitVec.toNat_inj]
    rfl
  have hzero : @UnpackedFloat.unpackMantissa .binary64 x.toBits.toBitVec = 0#52 ↔
      fraction x = 0 := by
    rw [← hmantissa, ← BitVec.toNat_inj]
    rfl
  show UnpackedFloat.unpack Format.binary64 x.toBits.toBitVec = _
  unfold UnpackedFloat.unpack
  dsimp only
  -- The library compares the fields as bit vectors.
  simp only [hlast, hfirst, hzero, hsign, hmantissa, hexponent]
  split
  · rfl
  · split
    · next h =>
      split
      · rfl
      · congr 1
        rw [h]
        rfl
    · congr 1
      rw [BitVec.toNat_append, hmantissa]
      exact (Nat.shiftLeft_add_eq_or_of_lt (fraction_lt x) 1).symm

/-- A double is finite unless its exponent field is full. -/
theorem isFinite_iff : x.isFinite = true ↔ biased x ≠ 2047 := by
  show x.toModel.unpack.isFinite = true ↔ _
  rw [unpack_eq]
  split
  · next h => split <;> simp [UnpackedFloat.isFinite, h]
  · next h =>
    split
    · split <;> simp [UnpackedFloat.isFinite, h]
    · simp [UnpackedFloat.isFinite, h]

theorem ofFloat?_eq (x : Float) : Dyadic.ofFloat? x =
    if biased x = 2047 then none
    else if biased x = 0 then some ⟨isNegative x, fraction x, -1074⟩
    else some ⟨isNegative x, 2 ^ 52 + fraction x, (biased x : ℤ) - 1075⟩ := by
  have hshift : x.toBits.toNat >>> 52 % 2048 = biased x := by
    rw [biased, Nat.shiftRight_eq_div_pow]
  rw [Dyadic.ofFloat?]
  simp only [hshift]
  rfl

/-! ### Comparing -/

theorem isNaN_iff_unpack : x.isNaN = true ↔ x.toModel.unpack = .notANumber :=
  UnpackedFloat.isNaN_iff

/-- The doubles that compare as equal to zero are the two zeros. -/
theorem beq_zero_iff : (x == 0) = true ↔ ∃ s, x.toModel.unpack = .zero s := by
  show x.toModel.unpack.beq (.zero .positive) = true ↔ _
  rw [UnpackedFloat.beq_iff_ne_notANumber_and_eq]
  constructor
  · rintro ⟨-, -, h | ⟨h, -⟩ | ⟨h, -⟩⟩ <;> exact ⟨_, h⟩
  · rintro ⟨s, hs⟩
    cases s <;> simp [hs]

/-- The double with the one zero in place of the two. -/
def plain (x : Float) : Float := if x == 0 then 0 else x

theorem isNaN_plain (x : Float) : (plain x).isNaN = x.isNaN := by
  rw [plain]
  split
  · next h =>
    obtain ⟨s, hs⟩ := beq_zero_iff.mp h
    have hx : x.isNaN = x.toModel.unpack.isNaN := rfl
    rw [hx, hs]
    rfl
  · rfl

theorem plain_beq (h : x.isNaN = false) : (plain x == x) = true := by
  rw [plain]
  split
  · next hzero => exact BEq.symm hzero
  · exact Float.beq_self_iff.mpr (by simpa using h)

/-- With one zero, doubles that are no NaN compare as equal if they are the same. -/
theorem beq_iff : (x == y) = true ↔ x.isNaN = false ∧ plain x = plain y := by
  constructor
  · intro h
    obtain ⟨hx, -, hsame⟩ := Float.beq_iff_ne_nan_and_eq.mp h
    refine ⟨by simpa using hx, ?_⟩
    rcases hsame with rfl | ⟨rfl, rfl⟩ | ⟨rfl, rfl⟩ <;> rfl
  · rintro ⟨hx, hplain⟩
    have hy : y.isNaN = false := by rw [← isNaN_plain, ← hplain, isNaN_plain, hx]
    have hback : (x == plain x) = true := BEq.symm (plain_beq hx)
    exact BEq.trans hback (hplain ▸ plain_beq hy)

end Number

end PathCopy
