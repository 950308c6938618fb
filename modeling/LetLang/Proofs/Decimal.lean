import LetLang.Proofs.Double.Bits
import LetLang.Proofs.Double.Nearest
import LetLang.Proofs.Token.Lexeme

/-!
# Written doubles read back

The text of a finite double that is not negative is a number of the language, and its value is the
double (`exists_numeral`).

The text has the digits of a multiple of a power of ten. That the multiple is found at all, at the
finest place if nowhere else, is `exists_multiple?_zero`; what is found lies between the midpoints
to the neighbours of the double (`readsAs_shortest`); and every decimal there reads as the double
(`digitsCode_eq`).
-/

namespace LetLang.Decimal

open Double

/-! ### Decimals that read as a double -/

theorem readsAs_iff {c d : Nat} :
    readsAs c d = true ↔ midpoint (c - 1) ≤ d ∧ d ≤ midpoint c ∧
      (c % 2 = 1 → midpoint (c - 1) < d ∧ d < midpoint c) := by
  unfold readsAs
  split_ifs with hparity
  · simp [hparity]
  · have hodd : c % 2 = 1 := by omega
    rw [Bool.and_eq_true, decide_eq_true_eq, decide_eq_true_eq]
    exact ⟨fun h => ⟨h.1.le, h.2.le, fun _ => h⟩, fun h => h.2.2 hodd⟩

/-- Two decimals compare in one unit as they do in another. -/
theorem mul_le_iff_of_scaled {a b d p : Nat} (hb : 0 < b) (hp : 0 < p) (h : d * b = 2 * a * p)
    (s : Nat) : (s * p ≤ d ↔ s * b ≤ 2 * a) ∧ (d ≤ s * p ↔ 2 * a ≤ s * b) := by
  have hcomm : s * p * b = s * b * p := Nat.mul_right_comm s p b
  constructor
  · rw [← Nat.mul_le_mul_right_iff hb, hcomm, h, Nat.mul_le_mul_right_iff hp]
  · rw [← Nat.mul_le_mul_right_iff hb, hcomm, h, Nat.mul_le_mul_right_iff hp]

/-- Digits around a point that stand for `n * 10 ^ (k - 324)` are read as the double that this
decimal reads as. -/
theorem digitsCode_eq {c n k : Nat} {whole fraction : List Char} (hpos : 0 < c)
    (hfinite : c < infinityCode) (hreads : readsAs c (n * spacing k) = true)
    (hdigits : Nat.ofDigitChars 10 (whole ++ fraction) 0 * Nat.pow 10 finestPlace =
      n * Nat.pow 10 k * Nat.pow 10 fraction.length) : digitsCode whole fraction = c := by
  have hb : 0 < Nat.pow 10 fraction.length := Nat.pow_pos (by decide)
  have hp : 0 < Nat.pow 10 finestPlace := by decide +kernel
  have hscaled : n * spacing k * Nat.pow 10 fraction.length =
      2 * (Nat.ofDigitChars 10 (whole ++ fraction) 0 * Nat.pow 2 1074) *
        Nat.pow 10 finestPlace := by
    have htwice : Nat.pow 2 1075 = 2 * Nat.pow 2 1074 := by decide +kernel
    unfold spacing
    rw [htwice]
    -- the powers are too large to be computed by what follows
    generalize Nat.pow 2 1074 = t at *
    generalize Nat.pow 10 finestPlace = p at *
    generalize Nat.pow 10 fraction.length = b at *
    generalize Nat.pow 10 k = q at *
    calc n * (q * (2 * t)) * b = n * q * b * (2 * t) := by ring
      _ = 2 * (Nat.ofDigitChars 10 (whole ++ fraction) 0 * t) * p := by rw [← hdigits]; ring
  -- so the digits lie where the decimal does, between the two midpoints
  have hcompare := mul_le_iff_of_scaled hb hp hscaled
  obtain ⟨hlow, hhigh, hodd⟩ := readsAs_iff.mp hreads
  have hbelow := hcompare (steps (c - 1) + steps c)
  have habove := hcompare (steps c + steps (c + 1))
  have hprev : midpoint (c - 1) = (steps (c - 1) + steps c) * Nat.pow 10 finestPlace := by
    unfold midpoint
    rw [Nat.sub_add_cancel hpos]
  rw [hprev] at hlow hodd
  apply nearest_eq hb hpos hfinite (hbelow.1.mp hlow) (habove.2.mp hhigh)
  intro hparity
  obtain ⟨hlt, hgt⟩ := hodd hparity
  exact ⟨not_le.mp (mt hbelow.2.mpr (not_le.mpr hlt)), not_le.mp (mt habove.1.mpr (not_le.mpr hgt))⟩

/-! ### The search for the shortest decimal -/

theorem readsAs_of_multiple? {c k n : Nat} (h : multiple? c k = some n) :
    readsAs c (n * spacing k) = true := by
  unfold multiple? at h
  dsimp only at h
  split_ifs at h with hbelow habove
  · obtain rfl := Option.some.inj h
    rw [Bool.and_eq_true] at hbelow
    exact hbelow.1
  · obtain rfl := Option.some.inj h
    exact habove

theorem steps_lt_steps_succ (c : Nat) : steps c < steps (c + 1) := by
  obtain ⟨k, n, hc, hn, hk⟩ := exists_eq_mul_add c
  rw [steps_eq hc hn.le hk, steps_eq (k := k) (n := n + 1) (by omega) (by omega) (by omega)]
  exact Nat.mul_lt_mul_of_pos_right (Nat.lt_succ_self n) (Nat.two_pow_pos k)

/-- At the finest place there is a multiple that reads as the double: multiples are closer to each
other there than the double is to its neighbours. -/
theorem exists_multiple?_zero {c : Nat} (hpos : 0 < c) : ∃ n, multiple? c 0 = some n := by
  have hfine : spacing 0 < Nat.pow 10 finestPlace := by decide +kernel
  have hgap := steps_lt_steps_succ c
  have hgap' : steps (c - 1) < steps c := by
    have h := steps_lt_steps_succ (c - 1)
    rwa [Nat.sub_add_cancel hpos] at h
  -- the multiple just below the double is less than the distance to a midpoint away from it
  have hbelow : readsAs c (center c / spacing 0 * spacing 0) = true := by
    have hdiv := Nat.div_add_mod' (center c) (spacing 0)
    have hmod : center c % spacing 0 < spacing 0 := Nat.mod_lt _ (by decide +kernel)
    have hlow : midpoint (c - 1) + Nat.pow 10 finestPlace ≤ center c := by
      unfold midpoint center
      rw [Nat.sub_add_cancel hpos]
      rw [← Nat.succ_mul]
      exact Nat.mul_le_mul_right _ (by omega)
    have hhigh : center c + Nat.pow 10 finestPlace ≤ midpoint c := by
      unfold midpoint center
      rw [← Nat.succ_mul]
      exact Nat.mul_le_mul_right _ (by omega)
    rw [readsAs_iff]
    generalize spacing 0 = g at *
    generalize Nat.pow 10 finestPlace = p at *
    omega
  unfold multiple?
  dsimp only
  rw [hbelow]
  split_ifs with hnearer habove
  · exact ⟨_, rfl⟩
  · exact ⟨_, rfl⟩
  · simp [habove] at hnearer

theorem multiple?_shortestFrom {c : Nat} (hpos : 0 < c) (k : Nat) :
    multiple? c (shortestFrom c k).2 = some (shortestFrom c k).1 := by
  induction k with
  | zero =>
    obtain ⟨n, hn⟩ := exists_multiple?_zero hpos
    show multiple? c 0 = some ((multiple? c 0).getD 0)
    rw [hn]
    rfl
  | succ k ih =>
    unfold shortestFrom
    cases hfound : multiple? c (k + 1) with
    | some n => exact hfound
    | none => exact ih

/-- The shortest decimal of a double reads as the double. -/
theorem readsAs_shortest {c : Nat} (hpos : 0 < c) :
    readsAs c ((shortest c).1 * spacing (shortest c).2) = true :=
  readsAs_of_multiple? (multiple?_shortestFrom hpos _)

/-! ### Positional digits -/

/-- Digits around a point are a number, if there is one before the point. -/
theorem exists_numeral_of_digits {whole fraction : List Char} (hne : whole ≠ [])
    (hwhole : ∀ c ∈ whole, Token.IsDigit c) (hfraction : ∀ c ∈ fraction, Token.IsDigit c) :
    ∃ m : Token.Numeral, m.text = whole ++ Token.pointed fraction ∧
      m.value = ofDigits whole fraction := by
  cases whole with
  | nil => exact absurd rfl hne
  | cons c cs =>
    obtain ⟨hc, hcs⟩ := List.forall_mem_cons.mp hwhole
    exact ⟨⟨c, cs, fraction, hc, hcs, hfraction⟩, rfl, rfl⟩

theorem isDigit_of_mem_toDigits {n : Nat} {c : Char} (h : c ∈ Nat.toDigits 10 n) :
    Token.IsDigit c :=
  Token.isDigit_iff.mp (Nat.isDigit_of_mem_toDigits (by decide) (by decide) h)

theorem isDigit_of_mem_replicate {m : Nat} {c : Char} (h : c ∈ List.replicate m '0') :
    Token.IsDigit c := by
  rw [List.eq_of_mem_replicate h]
  unfold Token.IsDigit
  decide

theorem pow_eq_mul {i j : Nat} (h : i ≤ j) : Nat.pow 10 j = Nat.pow 10 (j - i) * Nat.pow 10 i :=
  (Nat.pow_sub_mul_pow 10 h).symm

/-- The text with a point has at least one digit before the point, as many as asked for after it,
and all of them are the digits of the number. -/
theorem exists_withPoint_eq (n places : Nat) : ∃ whole fraction : List Char,
    withPoint n places = whole ++ '.' :: fraction ∧ whole ≠ [] ∧ fraction.length = places ∧
      (∀ c ∈ whole ++ fraction, Token.IsDigit c) ∧
      Nat.ofDigitChars 10 (whole ++ fraction) 0 = n := by
  unfold withPoint
  dsimp only
  have hdigits : ∀ c ∈ List.replicate (places + 1 - (Nat.toDigits 10 n).length) '0' ++
      Nat.toDigits 10 n, Token.IsDigit c := by
    rw [List.forall_mem_append]
    exact ⟨fun c => isDigit_of_mem_replicate, fun c => isDigit_of_mem_toDigits⟩
  have hvalue : Nat.ofDigitChars 10 (List.replicate (places + 1 - (Nat.toDigits 10 n).length) '0' ++
      Nat.toDigits 10 n) 0 = n := by
    rw [Nat.ofDigitChars_append, Nat.ofDigitChars_replicate_zero, Nat.mul_zero,
      Nat.ofDigitChars_ten_toDigits]
  have hlength : places < (List.replicate (places + 1 - (Nat.toDigits 10 n).length) '0' ++
      Nat.toDigits 10 n).length := by
    rw [List.length_append, List.length_replicate]
    omega
  -- with the zeros before them the digits are enough for one before the point
  generalize List.replicate (places + 1 - (Nat.toDigits 10 n).length) '0' ++ Nat.toDigits 10 n =
    padded at *
  refine ⟨_, _, rfl, ?_, ?_, ?_, ?_⟩
  · rw [Ne, List.take_eq_nil_iff]
    rintro (h | rfl)
    · omega
    · exact absurd hlength (Nat.not_lt_zero places)
  · rw [List.length_drop]
    omega
  · rwa [List.take_append_drop]
  · rwa [List.take_append_drop]

/-- The positional text of `n * 10 ^ (k - 324)` has digits around a point that stand for it. -/
theorem exists_positional_eq (n k : Nat) : ∃ whole fraction : List Char,
    positional n k = whole ++ Token.pointed fraction ∧ whole ≠ [] ∧
      (∀ c ∈ whole ++ fraction, Token.IsDigit c) ∧
      Nat.ofDigitChars 10 (whole ++ fraction) 0 * Nat.pow 10 finestPlace =
        n * Nat.pow 10 k * Nat.pow 10 fraction.length := by
  unfold positional
  split_ifs with hplace
  · refine ⟨Nat.toDigits 10 n ++ List.replicate (k - finestPlace) '0', [], ?_, ?_, ?_, ?_⟩
    · rw [Token.pointed, List.append_nil]
    · simp [Nat.toDigits_ne_nil]
    · rw [List.append_nil, List.forall_mem_append]
      exact ⟨fun c => isDigit_of_mem_toDigits, fun c => isDigit_of_mem_replicate⟩
    · have hzeros : Nat.ofDigitChars 10 (List.replicate (k - finestPlace) '0') n =
          Nat.pow 10 (k - finestPlace) * n := Nat.ofDigitChars_replicate_zero
      have hone : Nat.pow 10 ([] : List Char).length = 1 := rfl
      rw [List.append_nil, Nat.ofDigitChars_append, Nat.ofDigitChars_ten_toDigits, hzeros, hone,
        pow_eq_mul hplace]
      ring
  · obtain ⟨whole, fraction, htext, hne, hlength, hdigits, hvalue⟩ :=
      exists_withPoint_eq n (finestPlace - k)
    have hpointed : Token.pointed fraction = '.' :: fraction := by
      cases fraction with
      | nil =>
        rw [List.length_nil] at hlength
        omega
      | cons c cs => rfl
    refine ⟨whole, fraction, by rw [htext, hpointed], hne, hdigits, ?_⟩
    rw [hvalue, hlength, pow_eq_mul (Nat.le_of_not_le hplace)]
    ring

/-! ### Texts of doubles -/

theorem digitsCode_zero : digitsCode ['0'] [] = 0 := by
  have hdigits : Nat.ofDigitChars 10 (['0'] ++ []) 0 = 0 := rfl
  unfold digitsCode
  generalize Nat.pow 2 1074 = t
  rw [hdigits]
  dsimp only
  rw [Nat.zero_mul]
  rfl

/-- The text of the double with a finite code is a number with that code. -/
theorem exists_numeral_of_code {c : Nat} (hfinite : c < infinityCode) :
    ∃ m : Token.Numeral, m.text = codeText c ∧ m.value = ofCode false c := by
  unfold codeText
  by_cases hzero : c = 0
  · rw [if_pos hzero, hzero]
    obtain ⟨m, htext, hvalue⟩ : ∃ m : Token.Numeral, m.text = ['0'] ++ Token.pointed [] ∧
        m.value = ofDigits ['0'] [] :=
      exists_numeral_of_digits (by decide) (by simp [Token.IsDigit]) (by simp)
    exact ⟨m, htext, hvalue.trans (congrArg (ofCode false) digitsCode_zero)⟩
  · rw [if_neg hzero, if_pos hfinite]
    have hpos : 0 < c := Nat.pos_of_ne_zero hzero
    have hreads := readsAs_shortest hpos
    -- of the search only its result matters
    generalize shortest c = found at *
    obtain ⟨n, k⟩ := found
    obtain ⟨whole, fraction, htext, hne, hdigits, hvalue⟩ := exists_positional_eq n k
    obtain ⟨hwhole, hfraction⟩ := List.forall_mem_append.mp hdigits
    obtain ⟨m, hm, hmvalue⟩ := exists_numeral_of_digits hne hwhole hfraction
    refine ⟨m, hm.trans htext.symm, hmvalue.trans ?_⟩
    exact congrArg (ofCode false) (digitsCode_eq hpos hfinite hreads hvalue)

/-- The text of a finite double that is not negative is a number, and its value is the double. -/
theorem exists_numeral {x : Float} (hsign : isNegative x = false)
    (hfinite : code x < infinityCode) :
    ∃ m : Token.Numeral, String.ofList m.text = text x ∧ m.value = x := by
  obtain ⟨m, htext, hvalue⟩ := exists_numeral_of_code hfinite
  refine ⟨m, ?_, ?_⟩
  · unfold text
    dsimp only
    rw [if_neg (Nat.lt_asymm hfinite), hsign, htext]
    rfl
  · rw [hvalue, ← hsign, ofCode_code]

end LetLang.Decimal
