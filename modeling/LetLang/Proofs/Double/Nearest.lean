import LetLang.Double
import Mathlib.Tactic.Ring

/-!
# The double nearest to a ratio

A ratio between the midpoints to the neighbours of a double has that double as the nearest one
(`nearest_eq`); at a midpoint it is the double with the even code. A code is a number of leading
bits, the exponent, and a significand on top of them, and the size of the double is the significand
shifted by the exponent (`steps_eq`). So the argument is one about rounding to a whole number
(`roundEven_eq`), once it is clear which exponent `nearest` takes (`exponent_eq`).
-/

namespace LetLang.Double

theorem leadingBit_eq : leadingBit = 2 ^ 52 := rfl

/-! ### Rounding to a whole number -/

/-- The nearest whole number is at most half away, and less than half if it is odd. -/
theorem roundEven_eq {a b n : Nat} (hb : 0 < b) (hlow : 2 * n * b ≤ 2 * a + b)
    (hhigh : 2 * a ≤ 2 * n * b + b)
    (hodd : n % 2 = 1 → 2 * n * b < 2 * a + b ∧ 2 * a < 2 * n * b + b) : roundEven a b = n := by
  have hdiv : b * (a / b) + a % b = a := Nat.div_add_mod a b
  have hmod : a % b < b := Nat.mod_lt a hb
  unfold roundEven
  dsimp only
  generalize a / b = q at *
  generalize a % b = r at *
  have hcomm : 2 * n * b = 2 * (b * n) := by ring
  rw [hcomm] at hlow hhigh hodd
  -- the quotient cut off is the number itself or the one before it
  have hle : q ≤ n := by
    by_contra hlt
    have hmul : b * (n + 1) ≤ b * q := Nat.mul_le_mul_left b (by omega)
    rw [Nat.mul_add_one] at hmul
    omega
  have hge : n ≤ q + 1 := by
    by_contra hlt
    have hmul : b * (q + 2) ≤ b * n := Nat.mul_le_mul_left b (by omega)
    rw [Nat.mul_add] at hmul
    omega
  obtain rfl | rfl : n = q ∨ n = q + 1 := by omega
  · split_ifs <;> omega
  · rw [Nat.mul_add_one] at hlow hhigh hodd
    split_ifs <;> omega

/-! ### Codes as exponents and significands -/

/-- The size of the double whose code is the exponent `k` and the significand `n`. A significand of
two leading bits is one leading bit of the next exponent. -/
theorem steps_eq {c k n : Nat} (hc : c = k * 2 ^ 52 + n) (hn : n ≤ 2 * 2 ^ 52)
    (hk : k = 0 ∨ 2 ^ 52 ≤ n) : steps c = n * 2 ^ k := by
  subst hc
  unfold steps
  rw [leadingBit_eq]
  rcases Nat.lt_or_ge n (2 ^ 52) with hlt | hge
  · obtain rfl : k = 0 := by omega
    rw [if_pos (by omega)]
    omega
  · rw [if_neg (by omega)]
    rcases Nat.lt_or_ge n (2 * 2 ^ 52) with hlt | hge
    · have hdiv : (k * 2 ^ 52 + n) / 2 ^ 52 - 1 = k := by omega
      have hmod : 2 ^ 52 + (k * 2 ^ 52 + n) % 2 ^ 52 = n := by omega
      rw [hdiv, hmod]
      rfl
    · have hdiv : (k * 2 ^ 52 + n) / 2 ^ 52 - 1 = k + 1 := by omega
      have hmod : 2 ^ 52 + (k * 2 ^ 52 + n) % 2 ^ 52 = 2 ^ 52 := by omega
      rw [hdiv, hmod]
      obtain rfl : n = 2 * 2 ^ 52 := by omega
      show 2 ^ 52 * 2 ^ (k + 1) = _
      ring

/-- Every code has an exponent and a significand. -/
theorem exists_eq_mul_add (c : Nat) :
    ∃ k n, c = k * 2 ^ 52 + n ∧ n < 2 * 2 ^ 52 ∧ (k = 0 ∨ 2 ^ 52 ≤ n) := by
  refine ⟨c / 2 ^ 52 - 1, c - (c / 2 ^ 52 - 1) * 2 ^ 52, ?_, ?_, ?_⟩ <;> omega

/-- The midpoint above a double is half a unit of its last place above it. -/
theorem steps_add_steps_succ {c k n : Nat} (hc : c = k * 2 ^ 52 + n) (hn : n < 2 * 2 ^ 52)
    (hk : k = 0 ∨ 2 ^ 52 ≤ n) : steps c + steps (c + 1) = 2 * n * 2 ^ k + 2 ^ k := by
  rw [steps_eq hc hn.le hk, steps_eq (k := k) (n := n + 1) (by omega) (by omega) (by omega)]
  ring

/-- The midpoint below a double is half a unit of its last place below it, if the code before has
the same exponent. -/
theorem steps_pred_add_steps {c k n : Nat} (hc : c = k * 2 ^ 52 + n) (hn : n < 2 * 2 ^ 52)
    (hpos : 0 < n) (hk : k = 0 ∨ 2 ^ 52 < n) :
    steps (c - 1) + steps c + 2 ^ k = 2 * n * 2 ^ k := by
  obtain ⟨m, rfl⟩ : ∃ m, n = m + 1 := ⟨n - 1, by omega⟩
  rw [steps_eq hc hn.le (by omega), steps_eq (k := k) (n := m) (by omega) (by omega) (by omega)]
  ring

/-- Below a power of two the units are half as large. -/
theorem steps_pred_add_steps_of_power {c j : Nat} (hc : c = (j + 1) * 2 ^ 52 + 2 ^ 52) :
    steps (c - 1) + steps c = (4 * 2 ^ 52 - 1) * 2 ^ j := by
  rw [steps_eq hc (by omega) (by omega),
    steps_eq (k := j) (n := 2 * 2 ^ 52 - 1) (by omega) (by omega) (by omega)]
  ring

/-- The exponent that `nearest` takes is the one for which the ratio, in units of its last place,
has 53 bits, or zero if the ratio is too small for that. -/
theorem exponent_eq {a b k : Nat} (hb : 0 < b) (hlt : a < 2 ^ 53 * (b * 2 ^ k))
    (hk : k = 0 ∨ 2 ^ 52 * (b * 2 ^ k) ≤ a) : (a / b).log2 - 52 = k := by
  have hpow : 2 ^ (53 + k) = 2 ^ 53 * 2 ^ k := by ring
  have hupper : a / b < 2 ^ (53 + k) := by
    rw [Nat.div_lt_iff_lt_mul hb, hpow]
    calc a < 2 ^ 53 * (b * 2 ^ k) := hlt
      _ = 2 ^ 53 * 2 ^ k * b := by ring
  by_cases hzero : a / b = 0
  · rw [hzero]
    rcases hk with rfl | hge
    · rfl
    · have hone : b * 1 ≤ b * 2 ^ k := Nat.mul_le_mul_left b Nat.one_le_two_pow
      rcases Nat.div_eq_zero_iff.mp hzero with h | h <;> omega
  · have hlog : (a / b).log2 < 53 + k := (Nat.log2_lt hzero).mpr hupper
    rcases hk with rfl | hge
    · omega
    · have hlower : 2 ^ (52 + k) ≤ a / b := by
        rw [Nat.le_div_iff_mul_le hb]
        calc 2 ^ (52 + k) * b = 2 ^ 52 * (b * 2 ^ k) := by ring
          _ ≤ a := hge
      have hle : 52 + k ≤ (a / b).log2 := (Nat.le_log2 hzero).mpr hlower
      omega

/-! ### The nearest double -/

/-- The code of the nearest double is found by rounding at the exponent of the ratio. -/
theorem nearest_of_roundEven {a b k n : Nat} (hb : 0 < b) (hlt : a < 2 ^ 53 * (b * 2 ^ k))
    (hk : k = 0 ∨ 2 ^ 52 * (b * 2 ^ k) ≤ a) (hround : roundEven a (b * 2 ^ k) = n)
    (hfinite : k * 2 ^ 52 + n < infinityCode) : nearest a b = k * 2 ^ 52 + n := by
  unfold nearest
  rw [exponent_eq hb hlt hk]
  show min (k * 2 ^ 52 + roundEven a (b * 2 ^ k)) infinityCode = _
  rw [hround]
  exact Nat.min_eq_left hfinite.le

/-- A ratio at or between the midpoints to the neighbours of a positive double is nearest to it, if
the double is even or the ratio is not at a midpoint. -/
theorem nearest_eq {a b c : Nat} (hb : 0 < b) (hpos : 0 < c) (hfinite : c < infinityCode)
    (hlow : (steps (c - 1) + steps c) * b ≤ 2 * a) (hhigh : 2 * a ≤ (steps c + steps (c + 1)) * b)
    (hodd : c % 2 = 1 →
      (steps (c - 1) + steps c) * b < 2 * a ∧ 2 * a < (steps c + steps (c + 1)) * b) :
    nearest a b = c := by
  obtain ⟨k, n, hc, hn, hk⟩ := exists_eq_mul_add c
  have hunit : 0 < b * 2 ^ k := Nat.mul_pos hb (Nat.two_pow_pos k)
  have habove : (steps c + steps (c + 1)) * b = 2 * n * (b * 2 ^ k) + b * 2 ^ k := by
    rw [steps_add_steps_succ hc hn hk]
    ring
  rw [habove] at hhigh hodd
  have hupper : a < 2 ^ 53 * (b * 2 ^ k) := by
    have hle : 2 * n * (b * 2 ^ k) ≤ 2 * (2 * 2 ^ 52 - 1) * (b * 2 ^ k) :=
      Nat.mul_le_mul_right _ (by omega)
    omega
  by_cases hbottom : k = 0 ∨ 2 ^ 52 < n
  · -- the neighbours are as far away below as above
    have hbelow : (steps (c - 1) + steps c) * b + b * 2 ^ k = 2 * n * (b * 2 ^ k) := by
      calc (steps (c - 1) + steps c) * b + b * 2 ^ k
          = (steps (c - 1) + steps c + 2 ^ k) * b := by ring
        _ = 2 * n * 2 ^ k * b := by rw [steps_pred_add_steps hc hn (by omega) hbottom]
        _ = 2 * n * (b * 2 ^ k) := by ring
    have hlower : k = 0 ∨ 2 ^ 52 * (b * 2 ^ k) ≤ a := by
      apply hbottom.imp_right
      intro hlt
      have hle : 2 * (2 ^ 52 + 1) * (b * 2 ^ k) ≤ 2 * n * (b * 2 ^ k) :=
        Nat.mul_le_mul_right _ (by omega)
      omega
    rw [hc]
    apply nearest_of_roundEven hb hupper hlower _ (by omega)
    exact roundEven_eq hunit (by omega) (by omega) (by omega)
  · obtain ⟨j, rfl⟩ : ∃ j, k = j + 1 := ⟨k - 1, by omega⟩
    obtain rfl : n = 2 ^ 52 := by omega
    by_cases hlower : 2 ^ 52 * (b * 2 ^ (j + 1)) ≤ a
    · rw [hc]
      apply nearest_of_roundEven hb hupper (.inr hlower) _ (by omega)
      exact roundEven_eq hunit (by omega) (by omega) (by omega)
    · -- a ratio just below a power of two has the exponent before, and is rounded up to the power
      have hdouble : b * 2 ^ (j + 1) = 2 * (b * 2 ^ j) := by ring
      have hbelow : (steps (c - 1) + steps c) * b = (4 * 2 ^ 52 - 1) * (b * 2 ^ j) := by
        rw [steps_pred_add_steps_of_power hc]
        ring
      have hround : roundEven a (b * 2 ^ j) = 2 * 2 ^ 52 :=
        roundEven_eq (by omega) (by omega) (by omega) (by omega)
      have hshift : c = j * 2 ^ 52 + 2 * 2 ^ 52 := by rw [hc]; ring
      rw [hshift]
      exact nearest_of_roundEven hb (by omega) (by omega) hround (by omega)

end LetLang.Double
