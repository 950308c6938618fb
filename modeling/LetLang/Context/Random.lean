/-!
# Random numbers

A source of random numbers is any sequence of numbers, of which some have been drawn.
-/

namespace LetLang

/-- A sequence of random numbers, and how many of them have been drawn. -/
structure RandomSource where
  sequence : Nat → Float
  drawn : Nat := 0

namespace RandomSource

/-- The next random number. -/
def current (r : RandomSource) : Float := r.sequence r.drawn

/-- The source after the next random number is drawn. -/
def advance (r : RandomSource) : RandomSource := { r with drawn := r.drawn + 1 }

/-- Scrambles a word by shifts and multiplications, so that close words give unrelated ones. -/
def scramble (x : UInt64) : UInt64 :=
  let x := (x ^^^ (x >>> 30)) * 0xBF58476D1CE4E5B9
  let x := (x ^^^ (x >>> 27)) * 0x94D049BB133111EB
  x ^^^ (x >>> 31)

/-- The source that a seed determines. The upper 53 bits of each scrambled word are scaled to at
least zero and less than one. -/
def ofSeed (seed : UInt64) : RandomSource where
  sequence n :=
    let word := scramble (seed + (UInt64.ofNat n + 1) * 0x9E3779B97F4A7C15)
    (word >>> 11).toFloat / 9007199254740992.0

end RandomSource

end LetLang
