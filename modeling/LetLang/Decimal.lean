import LetLang.Double

/-!
# Decimal text of doubles

`ofDigits` reads digits with an optional fraction as the nearest double, and `ofText?` reads a
signed decimal. `text` writes a double with the fewest digits that read back as it, always
positionally: no exponent and no fraction on a whole number. Of two equally short texts the one
nearer to the double is written, and at an exact tie the larger in size.
-/

namespace LetLang.Decimal

open Double

/-! ### Reading -/

/-- The code of the double nearest to the decimal with the given digits around the point. -/
def digitsCode (whole fraction : List Char) : Nat :=
  let digits := Nat.ofDigitChars 10 (whole ++ fraction) 0
  nearest (digits * Nat.pow 2 1074) (Nat.pow 10 fraction.length)

/-- The double nearest to the decimal with the given digits around the point. -/
def ofDigits (whole fraction : List Char) : Float := ofCode false (digitsCode whole fraction)

/-- The code that a text without a sign stands for. -/
def codeOfText? (cs : List Char) : Option Nat :=
  if cs = "inf".toList then some infinityCode
  else
    let whole := cs.takeWhile Char.isDigit
    if whole.isEmpty then none
    else
      match cs.drop whole.length with
      | [] => some (digitsCode whole [])
      | '.' :: fraction =>
        if !fraction.isEmpty && fraction.all Char.isDigit then some (digitsCode whole fraction)
        else none
      | _ => none

/-- The double that a text stands for: what `text` writes, or any decimal without an exponent. -/
def ofText? (s : String) : Option Float :=
  if s = "NaN" then some notANumber
  else
    match s.toList with
    | '-' :: cs => (codeOfText? cs).map (ofCode true)
    | cs => (codeOfText? cs).map (ofCode false)

/-! ### The shortest decimal

Decimals are compared with a double in units of `2⁻¹⁰⁷⁵ · 10⁻³²⁴`, in which the double itself, the
midpoints to its neighbours and all the decimals that are tried are whole numbers. -/

/-- The number of decimal places that is enough for every double: `10⁻³²⁴` is less than a step. -/
def finestPlace : Nat := 324

/-- The double with code `c`, in units. -/
def center (c : Nat) : Nat := 2 * steps c * Nat.pow 10 finestPlace

/-- The midpoint between the doubles with codes `c` and `c + 1`, in units. -/
def midpoint (c : Nat) : Nat := (steps c + steps (c + 1)) * Nat.pow 10 finestPlace

/-- The distance in units between neighbouring multiples of `10 ^ (k - 324)`. -/
def spacing (k : Nat) : Nat := Nat.pow 10 k * Nat.pow 2 1075

/-- Whether `d` units read as the double with the positive code `c`: `d` lies between the midpoints
to the neighbours, and may be one of them if `c` is even. -/
def readsAs (c d : Nat) : Bool :=
  if c % 2 = 0 then midpoint (c - 1) ≤ d && d ≤ midpoint c
  else midpoint (c - 1) < d && d < midpoint c

/-- The multiple of `10 ^ (k - 324)` that reads as the double with code `c` and is nearest to it,
given by its factor. If there is one at all, it is next to the double on one side or the other. -/
def multiple? (c k : Nat) : Option Nat :=
  let g := spacing k
  let n := center c / g
  let below := readsAs c (n * g)
  let above := readsAs c ((n + 1) * g)
  if below && (!above || 2 * (center c % g) < g) then some n
  else if above then some (n + 1)
  else none

/-- The coarsest place up to `k` with a multiple that reads as the double with code `c`, and the
factor of that multiple. -/
def shortestFrom (c : Nat) : Nat → Nat × Nat
  | 0 => ((multiple? c 0).getD 0, 0)
  | k + 1 =>
    match multiple? c (k + 1) with
    | some n => (n, k + 1)
    | none => shortestFrom c k

/-- The factor `n` and the place `k` of the shortest decimal `n * 10 ^ (k - 324)` that reads as the
double with code `c`. The search starts at a place so coarse that its unit exceeds the double: from
`10 ^ k ≤ m` follows `8 ^ k ≤ m`. -/
def shortest (c : Nat) : Nat × Nat :=
  shortestFrom c ((midpoint c / Nat.pow 2 1075).log2 / 3)

/-! ### Positional text -/

/-- The digits of `n` with a point before the last `places` of them; zeros are put in front so that
a digit stands before the point. -/
def withPoint (n places : Nat) : List Char :=
  let digits := Nat.toDigits 10 n
  let padded := List.replicate (places + 1 - digits.length) '0' ++ digits
  let whole := padded.length - places
  padded.take whole ++ '.' :: padded.drop whole

/-- The positional text of `n * 10 ^ (k - 324)`. -/
def positional (n k : Nat) : List Char :=
  if finestPlace ≤ k then Nat.toDigits 10 n ++ List.replicate (k - finestPlace) '0'
  else withPoint n (finestPlace - k)

/-- The text of the double with code `c`. -/
def codeText (c : Nat) : List Char :=
  if c = 0 then ['0']
  else if c < infinityCode then
    let (n, k) := shortest c
    positional n k
  else "inf".toList

/-- The text of a double. -/
def text (x : Float) : String :=
  let c := code x
  if infinityCode < c then "NaN"
  else String.ofList (if isNegative x then '-' :: codeText c else codeText c)

end LetLang.Decimal
