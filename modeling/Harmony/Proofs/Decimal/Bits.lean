import Harmony.Proofs.Decimal.Nearest

/-! # The bits of binary64 numbers

A binary64 number consists of a sign, an exponent field and a fraction field. A finite number is
determined by its sign, mantissa and exponent: with the sign put in front, the bits of its magnitude are
those of the number.

* `packed`: the bits of three fields; `unpack_packed`, `pack_finiteOf`: what they stand for.
* `ofBits_packed`: the value that they stand for.
* `isFinite_iff`, `isBinary_of_ofFloat`: the finite numbers.
* `withSign_magnitude`: a finite number from its sign and its magnitude. -/

namespace Harmony.Decimal

open Float.Model (Format UnpackedFloat)
open Float.Model.UnpackedFloat

variable {s : Sign} {E : BitVec 11} {M : BitVec 52} {x : Float} {m : Nat} {e : Int} {negative : Bool}

/-! ### Three fields -/

/-- The bits of a sign, an exponent field and a fraction field. -/
def packed (s : Sign) (E : BitVec 11) (M : BitVec 52) : BitVec 64 :=
  packComponents Format.binary64 s E M

theorem toNat_packed (s : Sign) (E : BitVec 11) (M : BitVec 52) :
    (packed s E M).toNat = (s.toBitVec.toNat * 2 ^ 11 + E.toNat) * 2 ^ 52 + M.toNat := by
  unfold packed packComponents
  rw [BitVec.toNat_append, BitVec.toNat_append, ← Nat.shiftLeft_add_eq_or_of_lt M.isLt,
    ← Nat.shiftLeft_add_eq_or_of_lt E.isLt, Nat.shiftLeft_eq, Nat.shiftLeft_eq]

theorem toBitVec_ofBitVec (b : BitVec 1) : (Sign.ofBitVec b).toBitVec = b := by
  revert b
  decide

theorem ofBitVec_toBitVec (s : Sign) : Sign.ofBitVec s.toBitVec = s := by
  cases s <;> rfl

theorem toNat_unpackSign (b : BitVec 64) :
    (@unpackSign Format.binary64 b).toNat = b.toNat / 2 ^ 63 % 2 := by
  have hsign : @unpackSign Format.binary64 b = b.extractLsb' 63 1 := rfl
  rw [hsign, BitVec.extractLsb'_toNat, Nat.shiftRight_eq_div_pow]

theorem toNat_unpackExponent (b : BitVec 64) :
    (@unpackExponent Format.binary64 b).toNat = b.toNat / 2 ^ 52 % 2 ^ 11 := by
  simp [unpackExponent, Nat.shiftRight_eq_div_pow]

theorem toNat_unpackMantissa (b : BitVec 64) :
    (@unpackMantissa Format.binary64 b).toNat = b.toNat % 2 ^ 52 := by
  simp [unpackMantissa]

/-- All bits consist of three fields. -/
theorem exists_packed (b : BitVec 64) : ∃ s E M, b = packed s E M := by
  refine ⟨Sign.ofBitVec (@unpackSign Format.binary64 b), @unpackExponent Format.binary64 b,
    @unpackMantissa Format.binary64 b, BitVec.eq_of_toNat_eq ?_⟩
  rw [toNat_packed, toBitVec_ofBitVec, toNat_unpackSign, toNat_unpackExponent, toNat_unpackMantissa]
  have hlt := b.isLt
  omega

theorem unpackSign_packed : @unpackSign Format.binary64 (packed s E M) = s.toBitVec := by
  refine BitVec.eq_of_toNat_eq ?_
  rw [toNat_unpackSign, toNat_packed]
  have hs := s.toBitVec.isLt
  have hE := E.isLt
  have hM := M.isLt
  omega

theorem unpackExponent_packed : @unpackExponent Format.binary64 (packed s E M) = E :=
  unpackExponent_packComponents

theorem unpackMantissa_packed : @unpackMantissa Format.binary64 (packed s E M) = M :=
  unpackMantissa_packComponents

/-! ### Packing and unpacking -/

theorem toNat_append_one (M : BitVec 52) : (1#1 ++ M).toNat = 2 ^ 52 + M.toNat := by
  rw [BitVec.toNat_append, ← Nat.shiftLeft_add_eq_or_of_lt M.isLt, Nat.shiftLeft_eq]
  rfl

/-- What three fields stand for, unless all bits of the exponent field are set. -/
def finiteOf (s : Sign) (E : BitVec 11) (M : BitVec 52) : UnpackedFloat :=
  if E = 0#11 then
    if h : M = 0#52 then .zero s
    else .finite s M.toNat (-1074) (Nat.pos_of_ne_zero fun hzero => h (BitVec.eq_of_toNat_eq hzero))
  else .finite s (1#1 ++ M).toNat ((E.toNat : Int) - 1075) (by rw [toNat_append_one]; omega)

theorem unpack_eq_finiteOf {b : BitVec 64} (h : @unpackExponent Format.binary64 b ≠ -1#11) :
    unpack Format.binary64 b = finiteOf (Sign.ofBitVec (@unpackSign Format.binary64 b))
      (@unpackExponent Format.binary64 b) (@unpackMantissa Format.binary64 b) := by
  unfold UnpackedFloat.unpack finiteOf
  rw [if_neg h]
  by_cases hzero : @unpackExponent Format.binary64 b = 0#11
  · rw [if_pos hzero, if_pos hzero, hzero]
    rfl
  · rw [if_neg hzero, if_neg hzero]
    rfl

theorem unpack_packed (hE : E ≠ -1#11) : unpack Format.binary64 (packed s E M) = finiteOf s E M := by
  have hexponent : @unpackExponent Format.binary64 (packed s E M) = E := unpackExponent_packed
  rw [unpack_eq_finiteOf (hexponent.trans_ne hE), hexponent, unpackSign_packed, unpackMantissa_packed,
    ofBitVec_toBitVec]

theorem isFinite_unpack_packed_max (s : Sign) (M : BitVec 52) :
    (unpack Format.binary64 (packed s (-1#11) M)).isFinite = false := by
  unfold UnpackedFloat.unpack
  rw [if_pos unpackExponent_packed]
  split <;> rfl

theorem neg_finiteOf (s : Sign) (E : BitVec 11) (M : BitVec 52) :
    (finiteOf s E M).neg = finiteOf (-s) E M := by
  unfold finiteOf
  by_cases hE : E = 0#11
  · rw [if_pos hE, if_pos hE]
    by_cases hM : M = 0#52
    · rw [dif_pos hM, dif_pos hM]
      rfl
    · rw [dif_neg hM, dif_neg hM]
      rfl
  · rw [if_neg hE, if_neg hE]
    rfl

theorem log2_toNat_append (M : BitVec 52) : (1#1 ++ M).toNat.log2 = 52 := by
  have hlt := M.isLt
  rw [toNat_append_one, Nat.log2_eq_iff (by omega)]
  omega

/-- Below the normal numbers the mantissa is the fraction field. -/
theorem pack_finiteOf_zero (s : Sign) (M : BitVec 52) :
    pack Format.binary64 (finiteOf s 0#11 M) = packed s 0#11 M := by
  unfold finiteOf
  rw [if_pos rfl]
  by_cases hM : M = 0#52
  · subst hM
    rw [dif_pos rfl]
    rfl
  · rw [dif_neg hM]
    have hlog : M.toNat.log2 + 1 ≠ 53 := by
      have hpos : M.toNat ≠ 0 := fun h => hM (BitVec.eq_of_toNat_eq h)
      have := (Nat.log2_lt hpos).mpr M.isLt
      omega
    show (if 2048 ≤ 1 + 1 then packedInfinity Format.binary64 s
      else if M.toNat.log2 + 1 = 53 then
        packComponents Format.binary64 s (BitVec.ofNat 11 1) (BitVec.ofNat 52 M.toNat)
      else packComponents Format.binary64 s 0#11 (BitVec.ofNat 52 M.toNat)) = _
    rw [if_neg (by decide), if_neg hlog, BitVec.ofNat_toNat, BitVec.setWidth_eq]
    rfl

theorem pack_finiteOf (hE : E ≠ -1#11) : pack Format.binary64 (finiteOf s E M) = packed s E M := by
  by_cases hzero : E = 0#11
  · rw [hzero]
    exact pack_finiteOf_zero s M
  · have hmax : E.toNat ≠ 2047 := fun h => hE (BitVec.eq_of_toNat_eq h)
    have hlt := E.isLt
    have hexponent : ((E.toNat : Int) - 1075 + 1023 + 52).toNat = E.toNat := by omega
    have hM : BitVec.ofNat 52 (1#1 ++ M).toNat = M := by
      refine BitVec.eq_of_toNat_eq ?_
      rw [BitVec.toNat_ofNat, toNat_append_one, Nat.add_mod_left, Nat.mod_eq_of_lt M.isLt]
    unfold finiteOf
    rw [if_neg hzero]
    show (if 2048 ≤ ((E.toNat : Int) - 1075 + 1023 + 52).toNat + 1 then
        packedInfinity Format.binary64 s
      else if (1#1 ++ M).toNat.log2 + 1 = 53 then
        packComponents Format.binary64 s (BitVec.ofNat 11 ((E.toNat : Int) - 1075 + 1023 + 52).toNat)
          (BitVec.ofNat 52 (1#1 ++ M).toNat)
      else packComponents Format.binary64 s 0#11 (BitVec.ofNat 52 (1#1 ++ M).toNat)) = _
    rw [hexponent, if_neg (by omega), log2_toNat_append, if_pos rfl, BitVec.ofNat_toNat,
      BitVec.setWidth_eq, hM]
    rfl

/-! ### Numbers and their fields -/

theorem eq_of_toBits {x y : Float} (h : x.toBits = y.toBits) : x = y := by
  obtain ⟨⟨bits, hbits⟩⟩ := x
  obtain ⟨⟨bits', hbits'⟩⟩ := y
  obtain rfl : bits = bits' := h
  rfl

/-- The fields of a number that is made from them, if it is finite. -/
theorem toBits_ofBits_packed (hE : E ≠ -1#11) :
    (Float.ofBits (UInt64.ofBitVec (packed s E M))).toBits = UInt64.ofBitVec (packed s E M) := by
  show UInt64.ofBitVec (pack Format.binary64 (unpack Format.binary64 (packed s E M))) = _
  rw [unpack_packed hE, pack_finiteOf hE]

theorem neg_ofBits_packed (hE : E ≠ -1#11) :
    -Float.ofBits (UInt64.ofBitVec (packed s E M)) =
      Float.ofBits (UInt64.ofBitVec (packed (-s) E M)) := by
  refine eq_of_toBits ?_
  rw [toBits_ofBits_packed hE]
  show UInt64.ofBitVec (pack Format.binary64 (unpack Format.binary64
    (pack Format.binary64 (unpack Format.binary64 (packed s E M)))).neg) = _
  rw [unpack_packed hE, pack_finiteOf hE, unpack_packed hE, neg_finiteOf, pack_finiteOf hE]

theorem finiteOf_eq_zero_or (s : Sign) (E : BitVec 11) (M : BitVec 52) :
    finiteOf s E M = .zero s ∨ ∃ m e h, finiteOf s E M = .finite s m e h := by
  unfold finiteOf
  by_cases hE : E = 0#11
  · rw [if_pos hE]
    by_cases hM : M = 0#52
    · exact .inl (dif_pos hM)
    · exact .inr ⟨_, _, _, dif_neg hM⟩
  · exact .inr ⟨_, _, _, if_neg hE⟩

theorem isInf_finiteOf (s : Sign) (E : BitVec 11) (M : BitVec 52) : (finiteOf s E M).isInf = false := by
  rcases finiteOf_eq_zero_or s E M with h | ⟨m, e, hm, h⟩
  · rw [h]
    rfl
  · rw [h]
    rfl

theorem isFinite_finiteOf (s : Sign) (E : BitVec 11) (M : BitVec 52) :
    (finiteOf s E M).isFinite = true := by
  rcases finiteOf_eq_zero_or s E M with h | ⟨m, e, hm, h⟩
  · rw [h]
    rfl
  · rw [h]
    rfl

theorem isInf_ofBits_packed (hE : E ≠ -1#11) :
    (Float.ofBits (UInt64.ofBitVec (packed s E M))).isInf = false := by
  show (unpack Format.binary64 (pack Format.binary64
    (unpack Format.binary64 (packed s E M)))).isInf = false
  rw [unpack_packed hE, pack_finiteOf hE, unpack_packed hE, isInf_finiteOf]

/-! ### Values -/

/-- Is the sign a minus? -/
def isMinus : Sign → Bool
  | .negative => true
  | .positive => false

/-- The value of three fields. -/
theorem ofBits_packed (s : Sign) (E : BitVec 11) (M : BitVec 52) :
    Binary.ofBits (packed s E M).toNat =
      if E.toNat = 2047 then
        if M.toNat = 0 then .infinite (isMinus s) else .notANumber
      else if E.toNat = 0 then .finite (isMinus s) M.toNat (-1074)
      else .finite (isMinus s) (2 ^ 52 + M.toNat) ((E.toNat : Int) - 1075) := by
  have hE := E.isLt
  have hM := M.isLt
  have hs : s.toBitVec.toNat = (isMinus s).toNat := by cases s <;> rfl
  rw [toNat_packed, hs]
  have hsign : (((isMinus s).toNat * 2 ^ 11 + E.toNat) * 2 ^ 52 + M.toNat) / 2 ^ 63 % 2 =
      (isMinus s).toNat := by
    have := Bool.toNat_lt (isMinus s)
    omega
  have hexponent : (((isMinus s).toNat * 2 ^ 11 + E.toNat) * 2 ^ 52 + M.toNat) / 2 ^ 52 % 2 ^ 11 =
      E.toNat := by omega
  have hfraction : (((isMinus s).toNat * 2 ^ 11 + E.toNat) * 2 ^ 52 + M.toNat) % 2 ^ 52 = M.toNat := by
    omega
  unfold Binary.ofBits
  simp only [Nat.pow_eq, hsign, hexponent, hfraction]
  cases s <;> rfl

/-! ### Finite numbers -/

theorem exists_fields (x : Float) : ∃ s E M, x.toBits = UInt64.ofBitVec (packed s E M) := by
  obtain ⟨s, E, M, h⟩ := exists_packed x.toBits.toBitVec
  exact ⟨s, E, M, congrArg UInt64.ofBitVec h⟩

theorem ofFloat_of_fields (h : x.toBits = UInt64.ofBitVec (packed s E M)) :
    Binary.ofFloat x = Binary.ofBits (packed s E M).toNat := by
  unfold Binary.ofFloat
  rw [h]
  rfl

/-- The fields of a finite number, from its sign, its mantissa and its exponent. -/
theorem fields_of_finite (h : Binary.ofFloat x = .finite negative m e) :
    ∃ s E M, x.toBits = UInt64.ofBitVec (packed s E M) ∧ E ≠ -1#11 ∧ isMinus s = negative ∧
      IsBinary m e ∧ (e + 1074).toNat * 2 ^ 52 + m = E.toNat * 2 ^ 52 + M.toNat := by
  obtain ⟨s, E, M, hfields⟩ := exists_fields x
  have hE := E.isLt
  have hM := M.isLt
  rw [ofFloat_of_fields hfields, ofBits_packed] at h
  have hmax : E.toNat ≠ 2047 := by
    intro hmax
    rw [if_pos hmax] at h
    split at h <;> cases h
  rw [if_neg hmax] at h
  refine ⟨s, E, M, hfields, fun heq => hmax (by rw [heq]; rfl), ?_⟩
  split at h
  · obtain ⟨rfl, rfl, rfl⟩ := Binary.finite.inj h
    exact ⟨rfl, ⟨by omega, by omega, by omega, .inr rfl⟩, by omega⟩
  · obtain ⟨rfl, rfl, rfl⟩ := Binary.finite.inj h
    exact ⟨rfl, ⟨by omega, by omega, by omega, .inl (by omega)⟩, by omega⟩

theorem isBinary_of_ofFloat (h : Binary.ofFloat x = .finite negative m e) : IsBinary m e := by
  obtain ⟨-, -, -, -, -, -, hbinary, -⟩ := fields_of_finite h
  exact hbinary

/-- **The finite numbers** are those with a mantissa and an exponent. -/
theorem isFinite_iff : x.isFinite = true ↔ ∃ negative m e, Binary.ofFloat x = .finite negative m e := by
  obtain ⟨s, E, M, hfields⟩ := exists_fields x
  have hfinite : x.isFinite = (unpack Format.binary64 (packed s E M)).isFinite := by
    show (unpack Format.binary64 x.toBits.toBitVec).isFinite = _
    rw [hfields]
  rw [hfinite, ofFloat_of_fields hfields, ofBits_packed]
  by_cases hE : E = -1#11
  · subst hE
    rw [isFinite_unpack_packed_max, if_pos (show (-1#11).toNat = 2047 from rfl)]
    refine iff_of_false nofun ?_
    rintro ⟨negative, m, e, h⟩
    split at h <;> cases h
  · have hmax : E.toNat ≠ 2047 := fun h => hE (BitVec.eq_of_toNat_eq h)
    rw [unpack_packed hE, isFinite_finiteOf, if_neg hmax]
    refine iff_of_true rfl ?_
    split <;> exact ⟨_, _, _, rfl⟩

/-- The number of a magnitude without a sign. -/
def magnitude (m : Nat) (e : Int) : Float :=
  Float.ofBits (UInt64.ofNat ((e + 1074).toNat * 2 ^ 52 + m))

/-- **A finite number** is its magnitude with its sign. -/
theorem withSign_magnitude (h : Binary.ofFloat x = .finite negative m e) :
    (if negative = true then -magnitude m e else magnitude m e) = x ∧ (magnitude m e).isInf = false := by
  obtain ⟨s, E, M, hfields, hE, rfl, -, hbits⟩ := fields_of_finite h
  have hmagnitude : magnitude m e = Float.ofBits (UInt64.ofBitVec (packed .positive E M)) := by
    unfold magnitude
    refine congrArg Float.ofBits (congrArg UInt64.ofBitVec (BitVec.eq_of_toNat_eq ?_))
    have hlt := E.isLt
    have hlt' := M.isLt
    show (BitVec.ofNat 64 _).toNat = _
    rw [toNat_packed, hbits, BitVec.toNat_ofNat]
    show _ = (0 * 2 ^ 11 + E.toNat) * 2 ^ 52 + M.toNat
    omega
  rw [hmagnitude]
  refine ⟨eq_of_toBits ?_, isInf_ofBits_packed hE⟩
  rw [hfields]
  cases s with
  | positive => exact toBits_ofBits_packed hE
  | negative =>
    show (-Float.ofBits _).toBits = _
    rw [neg_ofBits_packed hE]
    exact toBits_ofBits_packed hE

end Harmony.Decimal
