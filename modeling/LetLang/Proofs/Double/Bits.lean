import LetLang.Double
import Mathlib.Tactic.Ring

/-!
# The bits of a double

A double is determined by its bits (`ofBits_toBits`), hence by its sign and its code
(`ofCode_code`), and a double that is made of a code, up to that of infinity, is not negative
(`isNegative_ofCode`); negation makes it negative and keeps its code (`neg_ofCode`). A double is a
pattern of 64 bits, of which just one stands for what is not a number. Making a double of bits
unpacks them into a sign, an exponent and a significand, and packs these again; that the bits come
back is `pack_unpack`.
-/

namespace LetLang.Double

open Float.Model (Format)
open Float.Model.UnpackedFloat

/-! ### The parts of the bits -/

theorem toNat_unpackMantissa (b : BitVec Format.binary64.numBits) :
    (unpackMantissa b).toNat = b.toNat % 2 ^ 52 := by
  simp [unpackMantissa]

theorem toNat_unpackExponent (b : BitVec Format.binary64.numBits) :
    (unpackExponent b).toNat = b.toNat / 2 ^ 52 % 2 ^ 11 := by
  simp [unpackExponent, Nat.shiftRight_eq_div_pow]

theorem toNat_unpackSign (b : BitVec Format.binary64.numBits) :
    (unpackSign b).toNat = b.toNat / 2 ^ 63 % 2 := by
  have hsign : unpackSign b = (b.extractLsb 63 63).cast rfl := rfl
  simp [hsign, Nat.shiftRight_eq_div_pow]

theorem finite_congr {s s' : Sign} {m m' : Nat} {e e' : Int} {hm : 0 < m} {hm' : 0 < m'}
    (hsign : s = s') (hmantissa : m = m') (hexponent : e = e') :
    Float.Model.UnpackedFloat.finite s m e hm = .finite s' m' e' hm' := by
  subst hsign hmantissa hexponent
  rfl

/-- Bits that differ in the sign only stand for numbers that differ in the sign only. -/
theorem unpack_eq_neg {b b' : BitVec Format.binary64.numBits} (h : b'.toNat = 2 ^ 63 + b.toNat) :
    unpack .binary64 b' = (unpack .binary64 b).neg := by
  have hlt : b'.toNat < 2 ^ 64 := b'.isLt
  have hmantissa : unpackMantissa b' = unpackMantissa b := by
    apply BitVec.eq_of_toNat_eq
    rw [toNat_unpackMantissa, toNat_unpackMantissa]
    omega
  have hexponent : unpackExponent b' = unpackExponent b := by
    apply BitVec.eq_of_toNat_eq
    rw [toNat_unpackExponent, toNat_unpackExponent]
    omega
  have hpositive : unpackSign b = 0#1 := by
    apply BitVec.eq_of_toNat_eq
    rw [toNat_unpackSign]
    show _ = 0
    omega
  have hnegative : unpackSign b' = 1#1 := by
    apply BitVec.eq_of_toNat_eq
    rw [toNat_unpackSign]
    show _ = 1
    omega
  have hsign : Sign.ofBitVec (unpackSign b') = -Sign.ofBitVec (unpackSign b) := by
    rw [hpositive, hnegative]
    rfl
  unfold unpack
  dsimp only
  by_cases hlargest : unpackExponent b = -1#11
  · rw [if_pos (hexponent.trans hlargest), if_pos hlargest]
    by_cases hzero : unpackMantissa b = 0#52
    · rw [if_pos (hmantissa.trans hzero), if_pos hzero, hsign]
      rfl
    · rw [if_neg (hmantissa ▸ hzero), if_neg hzero]
      rfl
  · rw [if_neg (hexponent ▸ hlargest), if_neg hlargest]
    by_cases hsmallest : unpackExponent b = 0#11
    · rw [if_pos (hexponent.trans hsmallest), if_pos hsmallest]
      by_cases hzero : unpackMantissa b = 0#52
      · rw [dif_pos (hmantissa.trans hzero), dif_pos hzero, hsign]
        rfl
      · rw [dif_neg (hmantissa ▸ hzero), dif_neg hzero]
        exact finite_congr hsign (by rw [hmantissa]) (by rw [hexponent])
    · rw [if_neg (hexponent ▸ hsmallest), if_neg hsmallest]
      exact finite_congr hsign (by rw [hmantissa]) (by rw [hexponent])

/-! ### Packing what was unpacked -/

theorem toBitVec_ofBitVec (s : BitVec 1) : (Sign.ofBitVec s).toBitVec = s := by
  revert s
  decide

/-- The parts of the bits, put together, are the bits. -/
theorem packComponents_unpack (b : BitVec Format.binary64.numBits) :
    packComponents .binary64 (Sign.ofBitVec (unpackSign b)) (unpackExponent b) (unpackMantissa b) =
      b := by
  apply BitVec.eq_of_getLsbD_eq
  intro i hi
  -- bit by bit: the significand has the lowest 52, the exponent the next 11, the sign the last
  simp only [packComponents, toBitVec_ofBitVec, BitVec.getLsbD_append]
  by_cases hmantissa : i < 52
  · simp [unpackMantissa, hmantissa]
  · by_cases hexponent : i < 63
    · have hsub : i - 52 < 11 := by omega
      have hadd : 52 + (i - 52) = i := by omega
      simp [unpackExponent, hmantissa, hsub, hadd]
    · have hlast : i = 63 := by
        have hlt : i < 64 := hi
        omega
      subst hlast
      have hsign : unpackSign b = (b.extractLsb 63 63).cast rfl := rfl
      simp [hsign]

/-- The bits of a number below the smallest normal one have no exponent. -/
theorem pack_subnormal (s : Sign) {m : BitVec 52} {e : Int} (he : e = -1074) (hm : 0 < m.toNat) :
    pack .binary64 (.finite s m.toNat e hm) = packComponents .binary64 s 0#11 m := by
  have hexponent : (e + ((1023 : Nat) : Int) + ((52 : Nat) : Int)).toNat = 1 := by omega
  have hlog : m.toNat.log2 < 52 := (Nat.log2_lt (by omega)).mpr m.isLt
  unfold pack
  show (if 2 ^ 11 ≤ (e + ((1023 : Nat) : Int) + ((52 : Nat) : Int)).toNat + 1 then _
    else if m.toNat.log2 + 1 = 53 then _
    else packComponents .binary64 s 0#11 (BitVec.ofNat 52 _)) = _
  rw [hexponent, if_neg (by decide), if_neg (by omega), BitVec.ofNat_toNat, BitVec.setWidth_eq]

/-- The bits of a normal number are its exponent and its significand without the leading bit. -/
theorem pack_normal (s : Sign) {x : BitVec 11} {m : BitVec 52} {n : Nat} {e : Int} (hx : x ≠ -1#11)
    (hn : n = 2 ^ 52 + m.toNat) (he : e = x.toNat - 1075) (hpos : 0 < n) :
    pack .binary64 (.finite s n e hpos) = packComponents .binary64 s x m := by
  have hexponent : (e + ((1023 : Nat) : Int) + ((52 : Nat) : Int)).toNat = x.toNat := by omega
  have hm : m.toNat < 2 ^ 52 := m.isLt
  have hlog : n.log2 = 52 := (Nat.log2_eq_iff (by omega)).mpr ⟨by omega, by omega⟩
  have hlt : x.toNat + 1 < 2 ^ 11 := by
    have hne : x.toNat ≠ 2047 := fun h => hx (BitVec.eq_of_toNat_eq h)
    have hle : x.toNat < 2048 := x.isLt
    omega
  have hsignificand : BitVec.ofNat 52 n = m := by
    apply BitVec.eq_of_toNat_eq
    rw [BitVec.toNat_ofNat]
    omega
  -- the exponent does not overflow, and the significand has its leading bit
  unfold pack
  show (if 2 ^ 11 ≤ (e + ((1023 : Nat) : Int) + ((52 : Nat) : Int)).toNat + 1 then _
    else if n.log2 + 1 = 53 then packComponents .binary64 s
      (BitVec.ofNat 11 (e + ((1023 : Nat) : Int) + ((52 : Nat) : Int)).toNat) (BitVec.ofNat 52 n)
    else _) = _
  rw [hexponent, if_neg (by omega), if_pos (by omega), hsignificand, BitVec.ofNat_toNat,
    BitVec.setWidth_eq]

/-- Bits that do not stand for a second value that is not a number come back. -/
theorem pack_unpack {b : BitVec Format.binary64.numBits} (h : Format.binary64.Valid b) :
    pack .binary64 (unpack .binary64 b) = b := by
  have hparts := packComponents_unpack b
  unfold unpack
  dsimp only
  -- the largest exponent is that of infinity, and zero that of zero and of the subnormal numbers
  by_cases hexponent : unpackExponent b = -1#11
  · rw [if_pos hexponent]
    by_cases hmantissa : unpackMantissa b = 0#52
    · rw [if_pos hmantissa]
      rw [hexponent, hmantissa] at hparts
      exact hparts
    · rw [if_neg hmantissa]
      exact (h.eq_packedNaN hexponent hmantissa).symm
  · rw [if_neg hexponent]
    by_cases hzero : unpackExponent b = 0#11
    · rw [if_pos hzero]
      by_cases hmantissa : unpackMantissa b = 0#52
      · rw [dif_pos hmantissa]
        rw [hzero, hmantissa] at hparts
        exact hparts
      · rw [dif_neg hmantissa]
        rw [hzero] at hparts ⊢
        exact (pack_subnormal _ rfl _).trans hparts
    · rw [if_neg hzero]
      have hsignificand : (1#1 ++ unpackMantissa b).toNat = 2 ^ 52 + (unpackMantissa b).toNat := by
        rw [BitVec.toNat_append, ← Nat.shiftLeft_add_eq_or_of_lt (unpackMantissa b).isLt]
        rfl
      exact (pack_normal _ hexponent hsignificand rfl _).trans hparts

/-- A double is determined by its bits. -/
theorem ofBits_toBits (x : Float) : Float.ofBits x.toBits = x := by
  obtain ⟨⟨bits, valid⟩⟩ := x
  have hbits : Float.Model.ofBits bits = ⟨bits, valid⟩ := by
    unfold Float.Model.ofBits Float.Model.pack
    congr 1
    rw [pack_unpack valid]
  exact congrArg Float.ofModel hbits

/-- Bits that stand for a number, or for infinity, are those of the double that is made of them. -/
theorem toBits_ofBits {b : UInt64} (h : Format.binary64.Valid b.toBitVec) :
    (Float.ofBits b).toBits = b := by
  show UInt64.ofBitVec (pack .binary64 (unpack .binary64 b.toBitVec)) = b
  rw [pack_unpack h]

/-! ### Signs and codes -/

/-- A double is determined by its sign and its code. -/
theorem ofCode_code (x : Float) : ofCode (isNegative x) (code x) = x := by
  have hlt : x.toBits.toNat < 2 ^ 64 := x.toBits.toNat_lt
  have hpow : Nat.pow 2 63 = 2 ^ 63 := rfl
  have hbits : (if isNegative x = true then Nat.pow 2 63 + code x else code x) =
      x.toBits.toNat := by
    unfold isNegative code
    rw [hpow]
    by_cases hsign : 2 ^ 63 ≤ x.toBits.toNat
    · rw [if_pos (decide_eq_true hsign)]
      omega
    · rw [if_neg (by simpa using hsign)]
      omega
  unfold ofCode
  rw [hbits, UInt64.ofNat_toNat]
  exact ofBits_toBits x

theorem infinityCode_eq : infinityCode = 2047 * 2 ^ 52 := rfl

theorem toNat_toBitVec_ofNat {c : Nat} (h : c < 2 ^ 64) : (UInt64.ofNat c).toBitVec.toNat = c := by
  show (UInt64.ofNat c).toNat = c
  rw [UInt64.toNat_ofNat']
  exact Nat.mod_eq_of_lt h

/-- A pattern with a code up to that of infinity stands for a number or for infinity. -/
theorem valid_of_le {c : Nat} (h : c ≤ infinityCode) :
    Format.binary64.Valid (UInt64.ofNat c).toBitVec := by
  have hcode := infinityCode_eq
  have hnat : (UInt64.ofNat c).toBitVec.toNat = c := toNat_toBitVec_ofNat (by omega)
  constructor
  intro hexponent hmantissa
  -- with the largest exponent there is room for infinity only
  have htop : c / 2 ^ 52 % 2 ^ 11 = 2047 := by
    have hx := congrArg BitVec.toNat hexponent
    rwa [toNat_unpackExponent, hnat] at hx
  refine absurd (BitVec.eq_of_toNat_eq ?_) hmantissa
  rw [toNat_unpackMantissa, hnat]
  show _ = 0
  omega

theorem toNat_toBits_ofCode {c : Nat} (h : c ≤ infinityCode) :
    (ofCode false c).toBits.toNat = c := by
  have hcode := infinityCode_eq
  show (Float.ofBits (UInt64.ofNat c)).toBits.toNat = c
  rw [toBits_ofBits (valid_of_le h), UInt64.toNat_ofNat']
  omega

theorem code_ofCode {c : Nat} (h : c ≤ infinityCode) : code (ofCode false c) = c := by
  have hcode := infinityCode_eq
  have hpow : Nat.pow 2 63 = 2 ^ 63 := rfl
  unfold code
  rw [toNat_toBits_ofCode h, hpow]
  omega

theorem isNegative_ofCode {c : Nat} (h : c ≤ infinityCode) :
    isNegative (ofCode false c) = false := by
  have hcode := infinityCode_eq
  have hpow : Nat.pow 2 63 = 2 ^ 63 := rfl
  unfold isNegative
  rw [toNat_toBits_ofCode h]
  apply decide_eq_false
  omega

/-! ### Negation -/

/-- Negation sets the sign bit and changes nothing else. -/
theorem neg_ofCode {c : Nat} (h : c ≤ infinityCode) : -(ofCode false c) = ofCode true c := by
  have hcode := infinityCode_eq
  have hbits : (UInt64.ofNat (Nat.pow 2 63 + c)).toBitVec.toNat =
      2 ^ 63 + (UInt64.ofNat c).toBitVec.toNat := by
    have hpow : Nat.pow 2 63 = 2 ^ 63 := rfl
    rw [toNat_toBitVec_ofNat (by omega), toNat_toBitVec_ofNat (by omega), hpow]
  have hneg : Float.Model.neg (Float.ofBits (UInt64.ofNat c)).toModel =
      Float.Model.pack (unpack .binary64 (Float.ofBits (UInt64.ofNat c)).toBits.toBitVec).neg := rfl
  rw [toBits_ofBits (valid_of_le h), ← unpack_eq_neg hbits] at hneg
  exact congrArg Float.ofModel hneg

/-- A negative number is the negation of the number with its code that is not negative. -/
theorem neg_of_isNegative {x : Float} (hsign : isNegative x = true)
    (hfinite : code x < infinityCode) : -(ofCode false (code x)) = x := by
  rw [neg_ofCode hfinite.le, ← hsign, ofCode_code]

end LetLang.Double
