import LuaGraph.Number

/-!
# Bit patterns of floats

A float is determined by its sign bit and its magnitude, and any sign and magnitude up to infinity
belong to a float. All patterns past infinity are one and the same float.

Results: `ofMagnitude_magnitude` (a float is its sign and magnitude), `magnitude_ofMagnitude` and
`negative_ofMagnitude` (and these are read back), `neg_ofMagnitude` (the opposite number has the
other sign and the same magnitude), `eq_of_isNaN` (there is one NaN).
-/

namespace LuaGraph.Binary64

open Float.Model Float.Model.UnpackedFloat

/-! ## The three fields of a pattern -/

theorem toNat_packComponents (s : Sign) (e : BitVec Format.binary64.exponentBits)
    (m : BitVec Format.binary64.mantissaBitsWithoutImplicit) :
    (packComponents Format.binary64 s e m).toNat =
      s.toBitVec.toNat * 2 ^ 63 + e.toNat * 2 ^ 52 + m.toNat := by
  unfold packComponents
  rw [BitVec.toNat_append, ← Nat.shiftLeft_add_eq_or_of_lt m.isLt, BitVec.toNat_append,
    ← Nat.shiftLeft_add_eq_or_of_lt e.isLt]
  simp only [Nat.shiftLeft_eq]
  omega

theorem toNat_unpackMantissa (b : BitVec Format.binary64.numBits) :
    (unpackMantissa b).toNat = b.toNat % 2 ^ 52 := by
  simp [unpackMantissa, BitVec.extractLsb, BitVec.extractLsb']

theorem toNat_unpackExponent (b : BitVec Format.binary64.numBits) :
    (unpackExponent b).toNat = b.toNat / 2 ^ 52 % 2 ^ 11 := by
  simp [unpackExponent, BitVec.extractLsb, BitVec.extractLsb', Nat.shiftRight_eq_div_pow]

theorem toNat_unpackSign (b : BitVec Format.binary64.numBits) :
    (unpackSign b).toNat = b.toNat / 2 ^ 63 := by
  have hlt : b.toNat < 2 ^ 64 := b.isLt
  show (b.toNat >>> 63) % 2 ^ 1 = b.toNat / 2 ^ 63
  rw [Nat.shiftRight_eq_div_pow]
  omega

theorem toNat_toBitVec_ofBitVec (v : BitVec 1) : (Sign.ofBitVec v).toBitVec.toNat = v.toNat := by
  have : v = 0#1 ∨ v = 1#1 := by
    have := v.isLt
    rcases (by omega : v.toNat = 0 ∨ v.toNat = 1) with h | h
    · exact .inl (BitVec.eq_of_toNat_eq h)
    · exact .inr (BitVec.eq_of_toNat_eq h)
  rcases this with rfl | rfl <;> rfl

/-- The magnitude of a pattern. -/
theorem toNat_mod (b : BitVec Format.binary64.numBits) :
    b.toNat % signBit = (unpackExponent b).toNat * 2 ^ 52 + (unpackMantissa b).toNat := by
  rw [toNat_unpackExponent, toNat_unpackMantissa, signBit]
  omega

/-- A mantissa without the leading bit is packed under the exponent zero. -/
theorem pack_subnormal (s : Sign) {m : Nat} (pos : 0 < m) (h : m < 2 ^ 52) :
    UnpackedFloat.pack Format.binary64 (.finite s m (-1074) pos) =
      packComponents Format.binary64 s 0#_ (BitVec.ofNat _ m) := by
  have hlog : m.log2 < 52 := (Nat.log2_lt (by omega)).2 h
  unfold UnpackedFloat.pack
  dsimp only
  rw [show (-1074 + (Format.binary64.exponentBias : Int) + (52 : Nat)).toNat = 1 from rfl,
    show Format.binary64.mantissaBits = 53 from rfl, if_neg (by decide),
    if_neg (show ¬ m.log2 + 1 = 53 by omega)]

/-- A mantissa with the leading bit is packed under its own exponent. -/
theorem pack_normal (s : Sign) {m e : Nat} (pos : 0 < m) (h : 2 ^ 52 ≤ m) (h' : m < 2 ^ 53)
    (he : e < 2047) :
    UnpackedFloat.pack Format.binary64 (.finite s m ((e : Int) - 1075) pos) =
      packComponents Format.binary64 s (BitVec.ofNat _ e) (BitVec.ofNat _ m) := by
  have hlog : m.log2 + 1 = 53 := by
    have := (Nat.le_log2 (by omega)).2 h
    have := (Nat.log2_lt (by omega)).2 h'
    omega
  have hbias : ((e : Int) - 1075 + (1023 : Nat) + (52 : Nat)).toNat = e := by omega
  unfold UnpackedFloat.pack
  dsimp only
  rw [show Format.binary64.exponentBias = 1023 from rfl,
    show Format.binary64.mantissaBits = 53 from rfl, hbias,
    if_neg (show ¬ 2 ^ 11 ≤ e + 1 by omega), if_pos hlog]

/-- What a pattern up to infinity is unpacked to is packed to the same exponent and mantissa, with
any sign. -/
theorem pack_unpack_with (b : BitVec Format.binary64.numBits) (h : b.toNat % signBit ≤ infinity) :
    ∃ u : Sign → UnpackedFloat,
      UnpackedFloat.unpack Format.binary64 b = u (Sign.ofBitVec (unpackSign b)) ∧
      (∀ s, (u s).neg = u (-s)) ∧
      ∀ s, UnpackedFloat.pack Format.binary64 (u s) =
        packComponents Format.binary64 s (unpackExponent b) (unpackMantissa b) := by
  have he : (unpackExponent b).toNat < 2 ^ 11 := (unpackExponent b).isLt
  have hm : (unpackMantissa b).toNat < 2 ^ 52 := (unpackMantissa b).isLt
  rw [toNat_mod, infinity, binade] at h
  unfold UnpackedFloat.unpack
  dsimp only
  by_cases htop : unpackExponent b = -1#_
  · have hexp : (unpackExponent b).toNat = 2047 := by rw [htop]; rfl
    have hman : unpackMantissa b = 0#_ := BitVec.eq_of_toNat_eq (by simp; omega)
    rw [if_pos htop, if_pos hman]
    exact ⟨.infinity, rfl, fun s => rfl, fun s => by rw [htop, hman]; rfl⟩
  rw [if_neg htop]
  by_cases hzero : unpackExponent b = 0#_
  · rw [if_pos hzero]
    by_cases hman : unpackMantissa b = 0#_
    · rw [dif_pos hman]
      exact ⟨.zero, rfl, fun s => rfl, fun s => by rw [hzero, hman]; rfl⟩
    · rw [dif_neg hman]
      refine ⟨fun s => .finite s _ _ _, rfl, fun s => rfl, fun s => ?_⟩
      have := pack_subnormal s (m := (unpackMantissa b).toNat)
        (Nat.pos_of_ne_zero fun e => hman (BitVec.eq_of_toNat_eq (by simpa using e))) hm
      rw [BitVec.ofNat_toNat, BitVec.setWidth_eq, ← hzero] at this
      have hexp :
          ((unpackExponent b).toNat : Int) - (Format.binary64.exponentBias + (52 : Nat)) + 1 =
          -1074 := by
        rw [hzero]
        rfl
      rw [← this]
      exact congrArg (fun e => UnpackedFloat.pack Format.binary64 (.finite s _ e _)) hexp
  · rw [if_neg hzero]
    refine ⟨fun s => .finite s _ _ _, rfl, fun s => rfl, fun s => ?_⟩
    have hlt : (unpackExponent b).toNat < 2047 := by
      have : (unpackExponent b).toNat ≠ 2047 := fun e => htop (BitVec.eq_of_toNat_eq e)
      omega
    have happ : (1#1 ++ unpackMantissa b).toNat = 2 ^ 52 + (unpackMantissa b).toNat := by
      rw [BitVec.toNat_append, ← Nat.shiftLeft_add_eq_or_of_lt hm]
      rfl
    have := pack_normal s (m := (1#1 ++ unpackMantissa b).toNat)
      (e := (unpackExponent b).toNat) (by omega) (by omega) (by omega) hlt
    rw [BitVec.ofNat_toNat, BitVec.setWidth_eq] at this
    refine this.trans ?_
    congr 1
    exact BitVec.eq_of_toNat_eq (by
      rw [BitVec.toNat_ofNat, happ]
      show (2 ^ 52 + (unpackMantissa b).toNat) % 2 ^ 52 = _
      omega)

/-- Packing what was unpacked gives the pattern back. -/
theorem toNat_pack_unpack {b : BitVec Format.binary64.numBits} (h : b.toNat % signBit ≤ infinity) :
    (UnpackedFloat.pack Format.binary64 (UnpackedFloat.unpack Format.binary64 b)).toNat =
      b.toNat := by
  obtain ⟨u, hu, -, hp⟩ := pack_unpack_with b h
  rw [hu, hp, toNat_packComponents, toNat_toBitVec_ofBitVec, toNat_unpackSign,
    toNat_unpackExponent, toNat_unpackMantissa]
  omega

/-- Negation turns the sign bit over. -/
theorem toNat_pack_neg {b : BitVec Format.binary64.numBits} (h : b.toNat % signBit ≤ infinity) :
    (UnpackedFloat.pack Format.binary64 (UnpackedFloat.unpack Format.binary64 b).neg).toNat =
      (b.toNat + signBit) % 2 ^ 64 := by
  have hlt : b.toNat < 2 ^ 64 := b.isLt
  obtain ⟨u, hu, hneg, hp⟩ := pack_unpack_with b h
  rw [hu, hneg, hp, toNat_packComponents, toNat_unpackExponent, toNat_unpackMantissa]
  have hs := toNat_unpackSign b
  rcases (by omega : b.toNat / 2 ^ 63 = 0 ∨ b.toNat / 2 ^ 63 = 1) with e | e
  · have : unpackSign b = 0#1 := BitVec.eq_of_toNat_eq (hs.trans e)
    rw [this]
    show 1 * 2 ^ 63 + _ + _ = (_ + 2 ^ 63) % _
    omega
  · have : unpackSign b = 1#1 := BitVec.eq_of_toNat_eq (hs.trans e)
    rw [this]
    show 0 * 2 ^ 63 + _ + _ = (_ + 2 ^ 63) % _
    omega

/-- There is one pattern past infinity. -/
theorem eq_packedNaN_of_lt {b : BitVec Format.binary64.numBits} (hv : Format.binary64.Valid b)
    (h : infinity < b.toNat % signBit) : b = packedNaN Format.binary64 := by
  have he : (unpackExponent b).toNat < 2 ^ 11 := (unpackExponent b).isLt
  have hm : (unpackMantissa b).toNat < 2 ^ 52 := (unpackMantissa b).isLt
  rw [toNat_mod, infinity, binade] at h
  refine hv.eq_packedNaN (BitVec.eq_of_toNat_eq ?_) fun e => ?_
  · show (unpackExponent b).toNat = 2047
    omega
  · rw [e] at h
    have : (0#(Format.binary64.mantissaBitsWithoutImplicit)).toNat = 0 := rfl
    omega

/-! ## Floats as signs and magnitudes -/

/-- The pattern of a float. -/
def pattern (x : Float) : BitVec Format.binary64.numBits := x.toModel.toBits.toBitVec

theorem toNat_pattern (x : Float) : (pattern x).toNat = x.toBits.toNat := rfl

theorem toNat_toBits_lt (x : Float) : x.toBits.toNat < 2 ^ 64 := x.toBits.toNat_lt

theorem infinity_lt_signBit : infinity < signBit := by decide

theorem toNat_toBits_eq (x : Float) :
    x.toBits.toNat = if negative x then signBit + magnitude x else magnitude x := by
  have := toNat_toBits_lt x
  unfold negative magnitude signBit
  by_cases h : 2 ^ 63 ≤ x.toBits.toNat
  · rw [if_pos (decide_eq_true h)]
    omega
  · rw [if_neg (by simpa using h)]
    omega

theorem toNat_toBits_ofMagnitude (neg : Bool) {m : Nat} (h : m ≤ infinity) :
    (ofMagnitude neg m).toBits.toNat = if neg then signBit + m else m := by
  have lt := infinity_lt_signBit
  have key (n : Nat) (hn : n < 2 ^ 64) (h : n % signBit ≤ infinity) :
      (Float.ofBits (UInt64.ofNat n)).toBits.toNat = n := by
    have hb : (UInt64.ofNat n).toBitVec.toNat = n := Nat.mod_eq_of_lt hn
    exact (toNat_pack_unpack (b := (UInt64.ofNat n).toBitVec) (by rwa [hb])).trans hb
  unfold ofMagnitude
  cases neg
  · refine key m ?_ ?_
    · unfold signBit at lt
      omega
    · rwa [Nat.mod_eq_of_lt (by omega)]
  · refine key (signBit + m) ?_ ?_
    · unfold signBit at *
      omega
    · rwa [Nat.add_mod_left, Nat.mod_eq_of_lt (by omega)]

theorem magnitude_ofMagnitude (neg : Bool) {m : Nat} (h : m ≤ infinity) :
    magnitude (ofMagnitude neg m) = m := by
  have lt := infinity_lt_signBit
  unfold magnitude
  rw [toNat_toBits_ofMagnitude neg h]
  split
  · rw [Nat.add_mod_left, Nat.mod_eq_of_lt (by omega)]
  · rw [Nat.mod_eq_of_lt (by omega)]

theorem negative_ofMagnitude (neg : Bool) {m : Nat} (h : m ≤ infinity) :
    negative (ofMagnitude neg m) = neg := by
  have lt := infinity_lt_signBit
  unfold negative
  rw [toNat_toBits_ofMagnitude neg h]
  cases neg
  · simpa using (by omega : m < signBit)
  · simp

/-- A float is its sign and its magnitude. -/
theorem ofMagnitude_magnitude {x : Float} (h : isNaN x = false) :
    ofMagnitude (negative x) (magnitude x) = x := by
  have h : magnitude x ≤ infinity := by simpa [isNaN] using h
  apply eq_of_toBits
  rw [← UInt64.toNat_inj, toNat_toBits_ofMagnitude _ h, toNat_toBits_eq x]

/-- The opposite number has the other sign. -/
theorem neg_ofMagnitude (neg : Bool) {m : Nat} (h : m ≤ infinity) :
    -ofMagnitude neg m = ofMagnitude (!neg) m := by
  have lt := infinity_lt_signBit
  apply eq_of_toBits
  rw [← UInt64.toNat_inj, toNat_toBits_ofMagnitude _ h]
  have hb := toNat_toBits_ofMagnitude neg h
  have hm : (pattern (ofMagnitude neg m)).toNat % signBit ≤ infinity :=
    Nat.le_trans (Nat.le_of_eq (magnitude_ofMagnitude neg h)) h
  rw [← toNat_pattern] at hb
  refine (toNat_pack_neg hm).trans ?_
  rw [hb]
  unfold signBit at *
  cases neg
  · simp
    omega
  · simp
    omega

/-- There is one NaN. -/
theorem eq_of_isNaN {x y : Float} (hx : isNaN x = true) (hy : isNaN y = true) : x = y := by
  have top (z : Float) (hz : isNaN z = true) : pattern z = packedNaN Format.binary64 :=
    eq_packedNaN_of_lt z.toModel.valid (of_decide_eq_true hz)
  apply eq_of_toBits
  rw [← UInt64.toNat_inj, ← toNat_pattern, ← toNat_pattern, top x hx, top y hy]

end LuaGraph.Binary64
