import Mathlib.Algebra.Order.Field.Rat
import Mathlib.Data.Nat.Cast.Order.Field
import Mathlib.Tactic.FieldSimp
import Mathlib.Tactic.Linarith
import Mathlib.Tactic.Ring
import Rundown.Number.Binary64

/-!
# Errors of rounding

What rounding does to a quotient, over the exact rationals.  `roundHalfEven` is off by one half at
most (`roundHalfEven_near`).  `Binary64.ofRatio` keeps 53 bits: below `2 ^ 53 * 2 ^ k` it is off by
`2 ^ k / 2` at most (`Binary64.ofRatio_near`), and it leaves a multiple of `2 ^ k` as it is
(`Binary64.ofRatio_exact`).
-/

namespace Rundown

variable {num den n : Nat} {neg : Bool} {k e : Int}

/-! ## Rounding to natural numbers -/

theorem roundHalfEven_near (hden : 0 < den) :
    |(roundHalfEven num den : ℚ) - num / den| ≤ 1 / 2 := by
  have hpos : (0 : ℚ) < den := Nat.cast_pos.2 hden
  have hdiv : (num : ℚ) = den * (num / den : Nat) + (num % den : Nat) := by
    exact_mod_cast (Nat.div_add_mod num den).symm
  have hquotient : (num : ℚ) / den = (num / den : Nat) + ((num % den : Nat) : ℚ) / den := by
    rw [hdiv]
    field_simp
  have hrem : ((num % den : Nat) : ℚ) / den < 1 :=
    (div_lt_one hpos).2 (Nat.cast_lt.2 (Nat.mod_lt num hden))
  have hrem' : 0 ≤ ((num % den : Nat) : ℚ) / den := by positivity
  rw [hquotient, abs_le]
  unfold roundHalfEven
  dsimp only
  split
  next hup =>
    have htwice : (den : ℚ) ≤ 2 * (num % den : Nat) := by
      have : den ≤ 2 * (num % den) := by omega
      exact_mod_cast this
    have hhalf : 1 / 2 ≤ ((num % den : Nat) : ℚ) / den := by
      rw [le_div_iff₀ hpos]
      linarith
    push_cast
    constructor <;> linarith
  next hdown =>
    have htwice : 2 * ((num % den : Nat) : ℚ) ≤ den := by
      have : 2 * (num % den) ≤ den := by omega
      exact_mod_cast this
    have hhalf : ((num % den : Nat) : ℚ) / den ≤ 1 / 2 := by
      rw [div_le_iff₀ hpos]
      linarith
    constructor <;> linarith

/-- A quotient is rounded to the natural number that it is less than one half away from. -/
theorem roundHalfEven_eq (hden : 0 < den) (h : |(num : ℚ) / den - n| < 1 / 2) :
    roundHalfEven num den = n := by
  have hnear : |(roundHalfEven num den : ℚ) - n| < 1 := by
    calc |(roundHalfEven num den : ℚ) - n|
        ≤ |(roundHalfEven num den : ℚ) - num / den| + |(num : ℚ) / den - n| :=
          abs_sub_le _ _ _
      _ < 1 / 2 + 1 / 2 := add_lt_add_of_le_of_lt (roundHalfEven_near hden) h
      _ = 1 := by norm_num
  have hint : |(roundHalfEven num den : Int) - n| < 1 := by exact_mod_cast hnear
  have hzero := Int.abs_lt_one_iff.1 hint
  omega

/-! ## Powers of two -/

theorem two_zpow_pos (k : Int) : (0 : ℚ) < 2 ^ k := zpow_pos two_pos k

theorem two_zpow_le_iff {i j : Int} : (2 : ℚ) ^ i ≤ 2 ^ j ↔ i ≤ j :=
  zpow_le_zpow_iff_right₀ one_lt_two

theorem natPow_cast (b n : Nat) : ((Nat.pow b n : Nat) : ℚ) = (b : ℚ) ^ n := Nat.cast_pow b n

theorem scaleDown_pos (num : Nat) (hden : 0 < den) (e : Int) : 0 < (scaleDown num den e).2 := by
  unfold scaleDown
  split
  · exact Nat.mul_pos hden (Nat.pow_pos two_pos)
  · exact hden

/-- The scaled quotient is the quotient, divided by the power of two. -/
theorem scaleDown_eq (e : Int) :
    ((scaleDown num den e).1 : ℚ) / (scaleDown num den e).2 = num / den / 2 ^ e := by
  unfold scaleDown
  split
  next he =>
    have hpow : (2 : ℚ) ^ e = 2 ^ e.toNat := by
      rw [← zpow_natCast, Int.toNat_of_nonneg he]
    rw [Nat.cast_mul, natPow_cast, hpow, Nat.cast_ofNat, div_div]
  next he =>
    have hpow : (2 : ℚ) ^ e = (2 ^ (-e).toNat)⁻¹ := by
      rw [← zpow_natCast, Int.toNat_of_nonneg (by omega), zpow_neg, inv_inv]
    rw [Nat.cast_mul, natPow_cast, hpow, Nat.cast_ofNat, div_inv_eq_mul, div_mul_eq_mul_div]

namespace Binary64

/-- The absolute value, exactly. -/
def magnitude (x : Binary64) : ℚ := x.significand * 2 ^ x.exponent

theorem ratio_pos (x : Binary64) : 0 < x.ratio.2 := scaleDown_pos _ Nat.one_pos _

theorem ratio_eq (x : Binary64) : (x.ratio.1 : ℚ) / x.ratio.2 = x.magnitude := by
  rw [ratio, scaleDown_eq, Nat.cast_one, div_one, zpow_neg, div_inv_eq_mul, magnitude]

@[simp] theorem magnitude_zero (neg : Bool) : (zero neg).magnitude = 0 := by
  simp [magnitude, zero]

theorem two_pow_log2_le (h : n ≠ 0) : (2 : ℚ) ^ (n.log2 : Int) ≤ n := by
  rw [zpow_natCast]
  exact_mod_cast Nat.log2_self_le h

theorem lt_two_pow_log2 (n : Nat) : (n : ℚ) < 2 ^ ((n.log2 : Int) + 1) := by
  have : n < 2 ^ (n.log2 + 1) := Nat.lt_log2_self
  exact_mod_cast this

/-- The power of two leaves a significand of 53 bits, unless it is the smallest one. -/
theorem le_of_minExponent_lt (hnum : 0 < num) (hden : 0 < den)
    (h : minExponent < ratioExponent num den) :
    2 ^ (52 : Int) * 2 ^ ratioExponent num den ≤ (num : ℚ) / den := by
  have hpos : (0 : ℚ) < den := Nat.cast_pos.2 hden
  obtain ⟨low, hlow⟩ : ∃ low : Int, (num.log2 : Int) - den.log2 - 53 = low := ⟨_, rfl⟩
  have hmax : ratioExponent num den = max minExponent
      (if Nat.pow 2 53 ≤ (scaleDown num den low).1 / (scaleDown num den low).2 then low + 1
        else low) := by
    rw [← hlow]
    rfl
  rw [hmax] at h ⊢
  rw [max_eq_right (le_of_lt ((lt_max_iff.1 h).resolve_left (lt_irrefl _)))]
  split
  next hhigh =>
    have hle : (2 : ℚ) ^ (53 : Int) ≤ num / den / 2 ^ low := by
      rw [← scaleDown_eq]
      calc (2 : ℚ) ^ (53 : Int) = ((Nat.pow 2 53 : Nat) : ℚ) := by rw [natPow_cast]; norm_num
        _ ≤ ((scaleDown num den low).1 / (scaleDown num den low).2 : Nat) := Nat.cast_le.2 hhigh
        _ ≤ _ := Nat.cast_div_le
    calc (2 : ℚ) ^ (52 : Int) * 2 ^ (low + 1) = 2 ^ (53 : Int) * 2 ^ low := by
          rw [← zpow_add₀ two_ne_zero, ← zpow_add₀ two_ne_zero]
          congr 1
          omega
      _ ≤ num / den := (le_div_iff₀ (two_zpow_pos low)).1 hle
  next =>
    rw [le_div_iff₀ hpos]
    calc (2 : ℚ) ^ (52 : Int) * 2 ^ low * den
        ≤ 2 ^ (52 : Int) * 2 ^ low * 2 ^ ((den.log2 : Int) + 1) :=
          mul_le_mul_of_nonneg_left (le_of_lt (lt_two_pow_log2 den))
            (mul_nonneg (le_of_lt (two_zpow_pos 52)) (le_of_lt (two_zpow_pos low)))
      _ = 2 ^ (num.log2 : Int) := by
          rw [← zpow_add₀ two_ne_zero, ← zpow_add₀ two_ne_zero]
          congr 1
          omega
      _ ≤ num := two_pow_log2_le hnum.ne'

/-- Below `2 ^ 53 * 2 ^ k` the power of two is `2 ^ k` at most. -/
theorem ratioExponent_le (hnum : 0 < num) (hden : 0 < den) (hk : minExponent ≤ k)
    (h : (num : ℚ) / den < 2 ^ (53 : Int) * 2 ^ k) : ratioExponent num den ≤ k := by
  by_contra hlt
  have hlt : k < ratioExponent num den := not_le.1 hlt
  have hle := le_of_minExponent_lt hnum hden (lt_of_le_of_lt hk hlt)
  have hless : (2 : ℚ) ^ (52 : Int) * 2 ^ ratioExponent num den < 2 ^ (53 : Int) * 2 ^ k :=
    lt_of_le_of_lt hle h
  rw [← zpow_add₀ two_ne_zero, ← zpow_add₀ two_ne_zero,
    zpow_lt_zpow_iff_right₀ one_lt_two] at hless
  omega

/-- A quotient that is not too large becomes the scaled quotient, rounded and scaled back. -/
theorem ofRatio_eq (neg : Bool) (hnum : 0 < num) (h : ratioExponent num den < maxExponent) :
    ∃ x, ofRatio neg num den = some x ∧ x.neg = neg ∧
      x.magnitude = roundHalfEven (scaleDown num den (ratioExponent num den)).1
        (scaleDown num den (ratioExponent num den)).2 * 2 ^ ratioExponent num den := by
  unfold ofRatio
  rw [if_neg hnum.ne']
  generalize ratioExponent num den = e at h
  dsimp only
  generalize roundHalfEven (scaleDown num den e).1 (scaleDown num den e).2 = significand
  split
  next hcarry =>
    refine ⟨⟨neg, Nat.pow 2 52, e + 1⟩, if_neg (not_lt.2 h), rfl, ?_⟩
    subst hcarry
    rw [magnitude, natPow_cast, natPow_cast, zpow_add_one₀ two_ne_zero]
    norm_num
    ring
  next => exact ⟨⟨neg, significand, e⟩, if_neg (not_lt.2 h.le), rfl, rfl⟩

/-- Below `2 ^ 53 * 2 ^ k` a quotient changes by half of `2 ^ k` at most. -/
theorem ofRatio_near (neg : Bool) (hnum : 0 < num) (hden : 0 < den) (hk : minExponent ≤ k)
    (hk' : k < maxExponent) (h : (num : ℚ) / den < 2 ^ (53 : Int) * 2 ^ k) :
    ∃ x, ofRatio neg num den = some x ∧ x.neg = neg ∧
      |x.magnitude - num / den| ≤ 1 / 2 * 2 ^ k := by
  have hle := ratioExponent_le hnum hden hk h
  obtain ⟨x, hx, hneg, hmagnitude⟩ := ofRatio_eq neg hnum (lt_of_le_of_lt hle hk')
  refine ⟨x, hx, hneg, ?_⟩
  rw [hmagnitude]
  generalize ratioExponent num den = e at hle
  have hpos := two_zpow_pos e
  have hscaled : (num : ℚ) / den =
      (scaleDown num den e).1 / (scaleDown num den e).2 * 2 ^ e := by
    rw [scaleDown_eq, div_mul_cancel₀ _ hpos.ne']
  calc |(roundHalfEven (scaleDown num den e).1 (scaleDown num den e).2 : ℚ) * 2 ^ e - num / den|
      = |(roundHalfEven (scaleDown num den e).1 (scaleDown num den e).2 : ℚ) -
          (scaleDown num den e).1 / (scaleDown num den e).2| * 2 ^ e := by
        rw [hscaled, ← sub_mul, abs_mul, abs_of_pos hpos]
    _ ≤ 1 / 2 * 2 ^ e :=
        mul_le_mul_of_nonneg_right (roundHalfEven_near (scaleDown_pos num hden e)) hpos.le
    _ ≤ 1 / 2 * 2 ^ k := mul_le_mul_of_nonneg_left (two_zpow_le_iff.2 hle) (by norm_num)

/-- A multiple of `2 ^ k` below `2 ^ 53 * 2 ^ k` stays as it is. -/
theorem ofRatio_exact (neg : Bool) (hnum : 0 < num) (hden : 0 < den) (hk : minExponent ≤ k)
    (hk' : k < maxExponent) (hn : n < 2 ^ 53) (h : (num : ℚ) / den = n * 2 ^ k) :
    ∃ x, ofRatio neg num den = some x ∧ x.neg = neg ∧ x.magnitude = num / den := by
  have hlt : (num : ℚ) / den < 2 ^ (53 : Int) * 2 ^ k := by
    rw [h]
    exact mul_lt_mul_of_pos_right (by exact_mod_cast hn) (two_zpow_pos k)
  have hle := ratioExponent_le hnum hden hk hlt
  obtain ⟨x, hx, hneg, hmagnitude⟩ := ofRatio_eq neg hnum (lt_of_le_of_lt hle hk')
  refine ⟨x, hx, hneg, ?_⟩
  rw [hmagnitude]
  generalize ratioExponent num den = e at hle
  -- The power of two divides the number, so that there is nothing to round.
  have hscaled : ((scaleDown num den e).1 : ℚ) / (scaleDown num den e).2 =
      (n * 2 ^ (k - e).toNat : Nat) := by
    rw [scaleDown_eq, h, Nat.cast_mul, Nat.cast_pow, Nat.cast_ofNat, mul_div_assoc,
      ← zpow_sub₀ two_ne_zero, ← zpow_natCast, Int.toNat_of_nonneg (by omega)]
  have hround := roundHalfEven_eq (scaleDown_pos num hden e)
    (n := n * 2 ^ (k - e).toNat) (by rw [hscaled, sub_self]; norm_num)
  rw [hround, ← hscaled, scaleDown_eq, div_mul_cancel₀ _ (two_zpow_pos e).ne']

end Binary64

end Rundown
