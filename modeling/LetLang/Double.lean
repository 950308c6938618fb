/-!
# Doubles as counted steps

Every finite double is a whole number of *steps* of `2⁻¹⁰⁷⁴`, the smallest positive double. The bit
pattern of a non-negative double, read as a natural number, is its *code*: codes are ordered as the
doubles are, `steps` gives the size of the double with a given code, and `nearest` gives the code of
the double nearest to a ratio. Both are plain arithmetic on natural numbers, so reading decimals,
writing decimals and taking remainders are exact.
-/

namespace LetLang.Double

/-- The weight of the implicit leading bit of a normal double, in the unit of its last place. -/
def leadingBit : Nat := Nat.pow 2 52

/-- The code of positive infinity. Smaller codes are finite doubles, larger ones are not numbers. -/
def infinityCode : Nat := 2047 * leadingBit

/-- The code of the absolute value of `x`. -/
def code (x : Float) : Nat := x.toBits.toNat % Nat.pow 2 63

/-- Whether the sign bit of `x` is set; it is for `-0`. -/
def isNegative (x : Float) : Bool := Nat.pow 2 63 ≤ x.toBits.toNat

/-- The double with the given sign and code. -/
def ofCode (negative : Bool) (c : Nat) : Float :=
  Float.ofBits (UInt64.ofNat (if negative then Nat.pow 2 63 + c else c))

/-- The value that is not a number. -/
def notANumber : Float := ofCode false (infinityCode + leadingBit / 2)

/-- The size of the double with code `c`, counted in steps of `2⁻¹⁰⁷⁴`. At the code of infinity it
is the size of `2¹⁰²⁴`, the power of two after the largest finite double. -/
def steps (c : Nat) : Nat :=
  if c < leadingBit then c else (leadingBit + c % leadingBit) * Nat.pow 2 (c / leadingBit - 1)

/-- The whole number nearest to `a / b`; a half goes to the even neighbour. -/
def roundEven (a b : Nat) : Nat :=
  let q := a / b
  let r := a % b
  if 2 * r < b then q
  else if b < 2 * r then q + 1
  else q + q % 2

/-- The code of the double nearest to `a / b` steps; a half goes to the even code, and what is too
large goes to infinity.

A ratio of at least `2 ^ 53` steps keeps its leading 53 bits, so its last place weighs `2 ^ e`
steps. Adding the rounded significand to `e` leading bits carries into the exponent by itself, both
at the smallest normal double and where rounding reaches the next power of two. -/
def nearest (a b : Nat) : Nat :=
  let e := (a / b).log2 - 52
  min (e * leadingBit + roundEven a (b * Nat.pow 2 e)) infinityCode

/-- The remainder of `x` by `y` when the quotient is cut off toward zero. It has the sign of `x`,
also when it is zero; it is not a number when `x` is infinite or `y` is zero. -/
def remainder (x y : Float) : Float :=
  let a := code x
  let b := code y
  if infinityCode < a || infinityCode < b then notANumber
  else if a = infinityCode || b = 0 then notANumber
  else if b = infinityCode then x
  else ofCode (isNegative x) (nearest (steps a % steps b) 1)

end LetLang.Double
