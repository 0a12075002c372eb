import Mathlib.Algebra.Order.Ring.Nat
import Mathlib.Tactic.Ring
import SelectionModels.Json.Reader.Number

/-! # Doubles

An integer that is too long for 64 bits is made into a double: its leading digits are rounded to 53
bits, so is a power of ten, and so is their product, which is infinite from half a step above the
largest double on. Three numbers are rounded on the way, but which integers are too large can be
told exactly.

* `nearest`: rounding to a multiple of a power of two;
* `roundWithAccuracy_exact`: what rounding to 53 bits leaves of a number;
* `exists_normal_toFloat`, `exists_normal_powerOfTen`: the factors;
* `isInf_mul`: which products are infinite;
* `isInf_scaled`, `isSome_double?_iff`: which leading digits are too large with others behind them.
-/

namespace SelectionModels.Json.Reader

open Float.Model
open Float.Model.UnpackedFloat

variable {m n r k : Nat} {e e' : Int} {x y : Float}

/-! ## Rounding -/

/-- How often `2 ^ n` goes into `m`: the nearest number, or the even one of the two nearest. -/
def nearest (m n : Nat) : Nat :=
  if 2 * (m % 2 ^ n) < 2 ^ n then m / 2 ^ n
  else if 2 * (m % 2 ^ n) = 2 ^ n then m / 2 ^ n + m / 2 ^ n % 2
  else m / 2 ^ n + 1

/-- The bits that are shifted out tell on which side of the middle the number is. -/
theorem shiftRight_exact (m n : Nat) : ExtendedMantissa.ofMantissaAndAccuracy m .exact >>> n =
    ⟨m / 2 ^ n, decide (2 ^ n ≤ 2 * (m % 2 ^ n)), decide (2 * (m % 2 ^ n) % 2 ^ n ≠ 0)⟩ := by
  induction n with
  | zero =>
    simp [HShiftRight.hShiftRight, Nat.repeat, ExtendedMantissa.ofMantissaAndAccuracy, Nat.mod_one]
  | succ n ih =>
    change (ExtendedMantissa.ofMantissaAndAccuracy m .exact >>> n).shiftRightOne = _
    rw [ih, ExtendedMantissa.shiftRightOne]
    have hpos : 0 < 2 ^ n := Nat.two_pow_pos n
    have hlow : m % 2 ^ n < 2 ^ n := Nat.mod_lt _ hpos
    have hmod : m % 2 ^ (n + 1) = m % 2 ^ n + 2 ^ n * (m / 2 ^ n % 2) := Nat.mod_pow_succ
    have hbit : m / 2 ^ n % 2 = 0 ∨ m / 2 ^ n % 2 = 1 := Nat.mod_two_eq_zero_or_one _
    have htwice : 2 * (m % 2 ^ (n + 1)) % 2 ^ (n + 1) = 2 * (m % 2 ^ n) := by
      rw [Nat.pow_succ, Nat.mul_comm (2 ^ n), Nat.mul_mod_mul_left,
        Nat.mod_mod_of_dvd _ (Nat.dvd_mul_left _ _)]
    have hrest : 2 ^ n ≤ 2 * (m % 2 ^ n) ∨ 2 * (m % 2 ^ n) % 2 ^ n ≠ 0 ↔ m % 2 ^ n ≠ 0 := by
      rcases Nat.lt_or_ge (2 * (m % 2 ^ n)) (2 ^ n) with hlt | hge
      · rw [Nat.mod_eq_of_lt hlt]
        omega
      · omega
    rw [ExtendedMantissa.mk.injEq]
    refine ⟨?_, ?_, ?_⟩
    · rw [Nat.div_div_eq_div_mul, Nat.pow_succ]
    · rw [hmod, Nat.pow_succ]
      rcases hbit with hbit | hbit <;> rw [hbit] <;> simp <;> omega
    · rw [htwice, ← Bool.decide_or, decide_eq_decide, hrest]
      omega

theorem roundedMantissa_shiftRight (m n : Nat) :
    (ExtendedMantissa.ofMantissaAndAccuracy m .exact >>> n).roundedMantissa = nearest m n := by
  have hpos : 0 < 2 ^ n := Nat.two_pow_pos n
  have hlow : m % 2 ^ n < 2 ^ n := Nat.mod_lt _ hpos
  rw [shiftRight_exact, ExtendedMantissa.roundedMantissa, nearest]
  rcases Nat.lt_trichotomy (2 * (m % 2 ^ n)) (2 ^ n) with hlt | heq | hgt
  · rw [if_pos hlt, decide_eq_false (by omega)]
    cases decide (2 * (m % 2 ^ n) % 2 ^ n ≠ 0) <;> rfl
  · rw [if_neg (by omega), if_pos heq, heq, decide_eq_true (Nat.le_refl _), Nat.mod_self]
    rfl
  · have hsticky : 2 * (m % 2 ^ n) % 2 ^ n ≠ 0 := by
      rw [Nat.mod_eq_sub_mod (Nat.le_of_lt hgt), Nat.mod_eq_of_lt (by omega)]
      omega
    rw [if_neg (by omega), if_neg (by omega), decide_eq_true (by omega), decide_eq_true hsticky]
    rfl

/-! ## Numbers with more than 53 bits -/

theorem ne_zero_of_log2 (h : m.log2 = 52 + n) : m ≠ 0 := by
  rintro rfl
  rw [Nat.log2_zero] at h
  omega

theorem le_of_log2 (h : m.log2 = 52 + n) : 2 ^ (52 + n) ≤ m :=
  h ▸ Nat.log2_self_le (ne_zero_of_log2 h)

theorem lt_of_log2 (h : m.log2 = 52 + n) : m < 2 ^ (53 + n) := by
  have hlt := Nat.lt_log2_self (n := m)
  rwa [h, show 52 + n + 1 = 53 + n by omega] at hlt

theorem nearest_bounds (h : m.log2 = 52 + n) : 2 ^ 52 ≤ nearest m n ∧ nearest m n ≤ 2 ^ 53 := by
  have hpos : 0 < 2 ^ n := Nat.two_pow_pos n
  have hlow : 2 ^ 52 ≤ m / 2 ^ n := by
    rw [Nat.le_div_iff_mul_le hpos, ← Nat.pow_add]
    exact le_of_log2 h
  have hhigh : m / 2 ^ n < 2 ^ 53 := by
    rw [Nat.div_lt_iff_lt_mul hpos, ← Nat.pow_add]
    exact lt_of_log2 h
  unfold nearest
  split
  · omega
  · split <;> omega

/-- A number is rounded up to a power of two from half a step below on. -/
theorem nearest_eq_iff (h : m.log2 = 52 + (n + 1)) :
    nearest m (n + 1) = 2 ^ 53 ↔ (2 ^ 54 - 1) * 2 ^ n ≤ m := by
  have hhigh : m / 2 ^ (n + 1) < 2 ^ 53 := by
    rw [Nat.div_lt_iff_lt_mul (Nat.two_pow_pos _), ← Nat.pow_add]
    exact lt_of_log2 h
  have hdivide := Nat.div_add_mod m (2 ^ (n + 1))
  have hrest : m % 2 ^ (n + 1) < 2 ^ (n + 1) := Nat.mod_lt _ (Nat.two_pow_pos _)
  unfold nearest
  generalize m / 2 ^ (n + 1) = q at *
  generalize m % 2 ^ (n + 1) = rest at *
  rw [Nat.pow_succ] at *
  by_cases hlast : q = 2 ^ 53 - 1
  · subst hlast
    split
    · omega
    · split <;> omega
  · have hbelow : 2 ^ n * q ≤ 2 ^ n * (2 ^ 53 - 2) := Nat.mul_le_mul_left _ (by omega)
    have hproduct : 2 ^ n * 2 * q = 2 * (2 ^ n * q) := by ring
    split
    · omega
    · split <;> omega

/-- The exponent with which a number is left with 53 bits. -/
theorem targetExponent_exact (h : m.log2 = 52 + n) (he : -1074 ≤ e + n) :
    Format.binary64.targetExponent (totalExponent m e) = e + n := by
  have hbits : Format.binary64.mantissaBits = 53 := rfl
  have hleast : Format.binary64.minExponent = -1074 := rfl
  simp only [Format.targetExponent, totalExponent, h, hbits, hleast]
  omega

theorem shiftToTargetExponent_exact (h : m.log2 = 52 + n) (he : -1074 ≤ e + n) :
    shiftToTargetExponent .binary64 m e .exact =
      (ExtendedMantissa.ofMantissaAndAccuracy m .exact >>> n, e + n) := by
  have hshift : (e + n - e).toNat = n := by omega
  rw [shiftToTargetExponent, targetExponent_exact h he]
  simp only [shiftToExponent, hshift]

/-- A number is shifted, rounded, and shifted once more. -/
theorem roundWithAccuracy_of_shifts {a : Accuracy} {first second : ExtendedMantissa} {e₁ e₂ : Int}
    (s : Sign) (hfirst : shiftToTargetExponent .binary64 m e a = (first, e₁))
    (hsecond : shiftToTargetExponent .binary64 first.roundedMantissa e₁ .exact = (second, e₂))
    (hr : 0 < r) (hmantissa : second.mantissa = r) :
    roundWithAccuracy .binary64 s m e a = .finite s r e₂ hr := by
  subst hmantissa
  rw [roundWithAccuracy, hfirst]
  dsimp only
  rw [hsecond]
  exact dif_neg hr.ne'

/-- What is left of a number when it is rounded to 53 bits. If all bits are carried, there is one
more to be dropped. -/
theorem roundWithAccuracy_exact (s : Sign) (h : m.log2 = 52 + n) (he : -1074 ≤ e + n) :
    ∃ (m' carry : Nat) (hpos : 0 < m'),
      roundWithAccuracy .binary64 s m e .exact = .finite s m' (e + n + carry) hpos ∧
      m'.log2 = 52 ∧ m' * 2 ^ carry = nearest m n ∧
      carry = if nearest m n = 2 ^ 53 then 1 else 0 := by
  obtain ⟨hlow, hhigh⟩ := nearest_bounds h
  have hfirst := shiftToTargetExponent_exact h he
  by_cases hcarry : nearest m n = 2 ^ 53
  · have hsecond := shiftToTargetExponent_exact (m := 2 ^ 53) (n := 1) (e := e + n)
      (Nat.log2_two_pow) (by omega)
    refine ⟨2 ^ 52, 1, by decide, ?_, Nat.log2_two_pow, hcarry.symm, (if_pos hcarry).symm⟩
    apply roundWithAccuracy_of_shifts s hfirst
    · rw [roundedMantissa_shiftRight, hcarry]
      exact hsecond
    · rw [shiftRight_exact]
      rfl
  · have hlog : (nearest m n).log2 = 52 :=
      (Nat.log2_eq_iff (by omega)).mpr ⟨hlow, by omega⟩
    have hsecond := shiftToTargetExponent_exact (n := 0) (e := e + n) hlog (by omega)
    refine ⟨nearest m n, 0, by omega, ?_, hlog, Nat.mul_one _, (if_neg hcarry).symm⟩
    apply roundWithAccuracy_of_shifts s hfirst
    · rw [roundedMantissa_shiftRight]
      exact hsecond
    · rw [shiftRight_exact, Nat.pow_zero, Nat.div_one]

/-! ## Packing -/

theorem unpack_of_pack (f : UnpackedFloat) : (Float.Model.pack f).unpack =
    UnpackedFloat.unpack .binary64 (UnpackedFloat.pack .binary64 f) := rfl

theorem pack_finite (s : Sign) (hm : 0 < m) (hlog : m.log2 = 52) :
    UnpackedFloat.pack .binary64 (.finite s m e hm) =
      if 972 ≤ e then packedInfinity .binary64 s
      else packComponents .binary64 s (BitVec.ofNat 11 (e + 1075).toNat) (BitVec.ofNat 52 m) := by
  have hsize : 2 ^ 11 ≤ (e + 1023 + 52).toNat + 1 ↔ 972 ≤ e := by omega
  have hbits : m.log2 + 1 = Format.binary64.mantissaBits := by rw [hlog]; rfl
  have hbias : e + 1023 + 52 = e + 1075 := by omega
  rw [← if_congr hsize rfl rfl, ← hbias]
  exact if_congr Iff.rfl rfl (if_pos hbits)

/-- The first of the 53 bits is not stored, unless the exponent says that there are fewer. -/
theorem exists_unpack {b : BitVec Format.binary64.numBits} (hm : 0 < m)
    (hones : unpackExponent b ≠ -1#11)
    (hzero : unpackExponent b ≠ 0#11)
    (hmantissa : (1#1 ++ unpackMantissa b).toNat = m)
    (hexponent : ((unpackExponent b).toNat : Int) - 1075 = e) :
    ∃ s, UnpackedFloat.unpack .binary64 b = .finite s m e hm := by
  subst hmantissa hexponent
  exact ⟨_, (if_neg hones).trans (if_neg hzero)⟩

/-- A number with 53 bits is what it was after it has been packed, if it is not too large. -/
theorem exists_unpack_pack (s : Sign) (hm : 0 < m) (hlog : m.log2 = 52) (hlow : -1074 ≤ e)
    (hhigh : e ≤ 971) : ∃ s', (Float.Model.pack (.finite s m e hm)).unpack = .finite s' m e hm := by
  have hexponent : (BitVec.ofNat 11 (e + 1075).toNat).toNat = (e + 1075).toNat := by
    rw [BitVec.toNat_ofNat, Nat.mod_eq_of_lt (by omega)]
  -- it is neither the exponent of infinity nor that of zero
  have hones : BitVec.ofNat 11 (e + 1075).toNat ≠ -1#11 := by
    intro h
    have hvalue := congrArg BitVec.toNat h
    rw [hexponent] at hvalue
    have hlargest : (-1#11).toNat = 2047 := by decide
    omega
  have hzero : BitVec.ofNat 11 (e + 1075).toNat ≠ 0#11 := by
    intro h
    have hvalue := congrArg BitVec.toNat h
    rw [hexponent] at hvalue
    have hleast : (0#11).toNat = 0 := rfl
    omega
  have hmantissa : (1#1 ++ BitVec.ofNat 52 m).toNat = m := by
    have hlow := le_of_log2 (n := 0) hlog
    have hhigh := lt_of_log2 (n := 0) hlog
    rw [BitVec.toNat_append, ← Nat.shiftLeft_add_eq_or_of_lt (BitVec.isLt _), BitVec.toNat_ofNat,
      Nat.shiftLeft_eq]
    simp only [BitVec.toNat_ofNat]
    omega
  rw [unpack_of_pack, pack_finite s hm hlog, if_neg (by omega)]
  apply exists_unpack hm
  · rwa [unpackExponent_packComponents]
  · rwa [unpackExponent_packComponents]
  · rwa [unpackMantissa_packComponents]
  · rw [unpackExponent_packComponents, hexponent]
    omega

/-- A number with too large an exponent is packed as infinity. -/
theorem isInf_pack (s : Sign) (hm : 0 < m) (hlog : m.log2 = 52) (he : -1074 ≤ e) :
    (Float.Model.pack (.finite s m e hm)).isInf = decide (972 ≤ e) := by
  by_cases hlarge : 972 ≤ e
  · rw [Float.Model.isInf, unpack_of_pack, pack_finite s hm hlog, if_pos hlarge,
      decide_eq_true hlarge]
    cases s <;> rfl
  · obtain ⟨s', hunpack⟩ := exists_unpack_pack s hm hlog he (by omega)
    rw [Float.Model.isInf, hunpack, decide_eq_false hlarge]
    rfl

/-! ## Doubles with 53 bits -/

/-- The double is `m * 2 ^ e` but for its sign, and `m` has 53 bits. -/
structure Normal (x : Float) (m : Nat) (e : Int) : Prop where
  unpacked : ∃ s hm, x.toModel.unpack = .finite s m e hm
  bits : m.log2 = 52

/-- A number that is long enough is rounded as it is. -/
theorem round_exact (h : m.log2 = 52 + n) (he : -1074 ≤ e + n) :
    UnpackedFloat.round .binary64 .positive m e =
      roundWithAccuracy .binary64 .positive m e .exact := by
  have hshift : (e - (e + n)).toNat = 0 := by omega
  rw [UnpackedFloat.round, targetExponent_exact h he]
  simp only [decreaseExponent, hshift, Nat.shiftLeft_zero, Int.ofNat_zero, Int.sub_zero]

theorem normal_of_round (h : m.log2 = 52 + n) (hlow : -1074 ≤ e + n) (hhigh : e + n ≤ 970) :
    ∃ (m' carry : Nat), Normal ⟨.pack (roundWithAccuracy .binary64 .positive m e .exact)⟩ m'
      (e + n + carry) ∧ carry ≤ 1 ∧ m' * 2 ^ carry = nearest m n := by
  obtain ⟨m', carry, hpos, hround, hlog, hvalue, hcarry⟩ := roundWithAccuracy_exact .positive h hlow
  have hle : carry ≤ 1 := by
    rw [hcarry]
    split <;> omega
  obtain ⟨s, hunpack⟩ := exists_unpack_pack .positive hpos hlog (e := e + n + carry)
    (by omega) (by omega)
  refine ⟨m', carry, ⟨⟨s, hpos, ?_⟩, hlog⟩, hle, hvalue⟩
  rw [hround]
  exact hunpack

/-- A number of 64 bits is rounded to 53 of them. -/
theorem exists_normal_toFloat (h : m.log2 = 52 + n) (hm : m < 2 ^ 64) :
    ∃ r e : Nat, Normal (UInt64.ofNat m).toFloat r e ∧ r * 2 ^ e = nearest m n * 2 ^ n := by
  have hn : n ≤ 11 := by
    have hlog := (Nat.log2_lt (ne_zero_of_log2 h)).mpr hm
    omega
  obtain ⟨r, carry, hnormal, -, hvalue⟩ := normal_of_round (e := 0) h (by omega) (by omega)
  refine ⟨r, n + carry, ?_, ?_⟩
  · have hround : (UInt64.ofNat m).toFloat =
        ⟨.pack (roundWithAccuracy .binary64 .positive m 0 .exact)⟩ := by
      have hvalue : (UInt64.ofNat m).toNat = m := UInt64.toNat_ofNat_of_lt hm
      have hpos : compare (m : Int) 0 = .gt := by
        rw [Int.compare_eq_gt]
        exact Int.natCast_pos.mpr (Nat.pos_of_ne_zero (ne_zero_of_log2 h))
      rw [UInt64.toFloat, Float.Model.ofUInt64, UnpackedFloat.ofUInt64, UnpackedFloat.ofNat,
        UnpackedFloat.ofInt, hvalue, UnpackedFloat.normalize, hpos]
      simp only [Int.toNat_natCast, round_exact h (e := 0) (by omega)]
    rw [hround]
    convert hnormal using 1
    omega
  · rw [← hvalue]
    ring

/-! ## Products -/

/-- The least number that is rounded to infinity: half a step above the largest double. -/
def roundsUp : Nat := (2 ^ 54 - 1) * 2 ^ 970

theorem roundsUp_eq_scaled {i j : Nat} (h : i + j = 970) :
    roundsUp = (2 ^ 54 - 1) * 2 ^ i * 2 ^ j := by
  rw [roundsUp, Nat.mul_assoc, ← Nat.pow_add, h]

theorem roundsUp_bounds (h : n = 970) : 2 ^ (53 + n) < roundsUp ∧ roundsUp ≤ 2 ^ (54 + n) := by
  rw [roundsUp_eq_scaled (i := 0) (j := n) (by omega), Nat.pow_add, Nat.pow_add]
  exact ⟨Nat.mul_lt_mul_of_pos_right (by decide) (Nat.two_pow_pos n),
    Nat.mul_le_mul_right _ (by decide)⟩

theorem two_pow_lt_roundsUp (h : n ≤ 1023) : 2 ^ n < roundsUp :=
  Nat.lt_of_le_of_lt (pow_le_pow_right₀ (by decide) (show n ≤ 53 + 970 from h))
    (roundsUp_bounds rfl).1

theorem scaled_lt_roundsUp {i j : Nat} (h : i + (n + j) ≤ 1023) :
    2 ^ i * (2 ^ n * 2 ^ j) < roundsUp := by
  rw [← Nat.pow_add, ← Nat.pow_add]
  exact two_pow_lt_roundsUp h

theorem roundsUp_le_two_pow (h : 1024 ≤ n) : roundsUp ≤ 2 ^ n :=
  Nat.le_trans (roundsUp_bounds rfl).2 (pow_le_pow_right₀ (by decide) h)

/-- A number that is rounded to 53 bits gets too large an exponent from half a step above the
largest double on. -/
theorem exponent_iff (h : m.log2 = 52 + (n + 1)) (hn : n ≤ 52) :
    972 ≤ e + (n + 1 : Nat) + (if nearest m (n + 1) = 2 ^ 53 then 1 else 0 : Nat) ↔
      roundsUp ≤ m * 2 ^ e.toNat := by
  have hlow := le_of_log2 h
  have hhigh := lt_of_log2 h
  rcases Int.lt_trichotomy (e + (n + 1 : Nat)) 971 with hlt | heq | hgt
  · -- even with a carry the exponent is small enough
    refine iff_of_false (by split <;> omega) (Nat.not_le_of_lt ?_)
    calc m * 2 ^ e.toNat < 2 ^ (53 + (n + 1)) * 2 ^ e.toNat :=
          Nat.mul_lt_mul_of_pos_right hhigh (Nat.two_pow_pos _)
      _ = 2 ^ (53 + (n + 1) + e.toNat) := (Nat.pow_add ..).symm
      _ ≤ roundsUp := (two_pow_lt_roundsUp (by omega)).le
  · -- it depends on the carry
    rw [roundsUp_eq_scaled (i := n) (j := e.toNat) (by omega),
      Nat.mul_le_mul_right_iff (Nat.two_pow_pos _), ← nearest_eq_iff h]
    split <;> omega
  · refine iff_of_true (by split <;> omega) ?_
    calc roundsUp ≤ 2 ^ (52 + (n + 1) + e.toNat) := roundsUp_le_two_pow (by omega)
      _ = 2 ^ (52 + (n + 1)) * 2 ^ e.toNat := Nat.pow_add ..
      _ ≤ m * 2 ^ e.toNat := Nat.mul_le_mul_right _ hlow

/-- The product of two doubles is infinite if it is half a step above the largest one. -/
theorem isInf_mul (hx : Normal x m e) (hy : Normal y r e') (he : -1074 ≤ e + e') :
    (x * y).isInf = decide (roundsUp ≤ m * r * 2 ^ (e + e').toNat) := by
  obtain ⟨⟨s, hm, hxm⟩, hmlog⟩ := hx
  obtain ⟨⟨s', hr, hyr⟩, hrlog⟩ := hy
  have hlow : 2 ^ 104 ≤ m * r := by
    calc 2 ^ 104 = 2 ^ 52 * 2 ^ 52 := by norm_num
      _ ≤ m * r := Nat.mul_le_mul (le_of_log2 (n := 0) hmlog) (le_of_log2 (n := 0) hrlog)
  have hhigh : m * r < 2 ^ 106 := by
    calc m * r < 2 ^ 53 * 2 ^ 53 := Nat.mul_lt_mul'' (lt_of_log2 (n := 0) hmlog)
          (lt_of_log2 (n := 0) hrlog)
      _ = 2 ^ 106 := by norm_num
  have hne : m * r ≠ 0 := by omega
  have hatLeast := (Nat.le_log2 hne).mpr hlow
  have hatMost := (Nat.log2_lt hne).mpr hhigh
  obtain ⟨n, hlog⟩ : ∃ n, (m * r).log2 = 52 + (n + 1) := ⟨(m * r).log2 - 53, by omega⟩
  obtain ⟨p, carry, hp, hround, hplog, -, hcarry⟩ :=
    roundWithAccuracy_exact (s * s') hlog (e := e + e') (by omega)
  have hproduct : (x * y).isInf =
      (Float.Model.pack (roundWithAccuracy .binary64 (s * s') (m * r) (e + e') .exact)).isInf := by
    change (Float.Model.pack (UnpackedFloat.mul .binary64 x.toModel.unpack y.toModel.unpack)).isInf
      = _
    rw [hxm, hyr]
    rfl
  rw [hproduct, hround, isInf_pack _ hp hplog (by omega), decide_eq_decide, hcarry]
  exact exponent_iff hlog (by omega)

theorem mul_mul_two_pow (m r i j : Nat) : m * r * 2 ^ (i + j) = m * 2 ^ i * (r * 2 ^ j) := by
  ring

/-- A product is infinite if the numbers behind its factors have too large a product. -/
theorem isInf_mul_natCast {e e' : Nat} (hx : Normal x m e) (hy : Normal y r e') :
    (x * y).isInf = decide (roundsUp ≤ m * 2 ^ e * (r * 2 ^ e')) := by
  have hsum : ((e : Int) + (e' : Int)).toNat = e + e' := by omega
  rw [isInf_mul hx hy (by omega), hsum, mul_mul_two_pow]

/-! ## Leading digits -/

/-- A number is rounded by half a step at most. -/
theorem nearest_mul_bounds (m n : Nat) : 2 * (nearest m n * 2 ^ n) ≤ 2 * m + 2 ^ n ∧
    2 * m ≤ 2 * (nearest m n * 2 ^ n) + 2 ^ n := by
  have hdivide := Nat.div_add_mod m (2 ^ n)
  have hrest : m % 2 ^ n < 2 ^ n := Nat.mod_lt _ (Nat.two_pow_pos _)
  have heven : m / 2 ^ n % 2 = 0 ∨ m / 2 ^ n % 2 = 1 := Nat.mod_two_eq_zero_or_one _
  unfold nearest
  rw [Nat.mul_comm] at hdivide
  split
  · omega
  · split
    · rcases heven with heven | heven <;> rw [heven, Nat.add_mul] <;> omega
    · rw [Nat.add_mul]
      omega

/-- The leading digits of an integer that is too long for 64 bits have 61 bits at least, so they are
hardly changed when they are rounded to 53 bits. -/
theorem exists_normal_leading (hlow : maxUnsigned / 10 ≤ m) (hhigh : m ≤ maxUnsigned) :
    ∃ r e : Nat, Normal (UInt64.ofNat m).toFloat r e ∧ m ≤ r * 2 ^ e + 1024 ∧
      r * 2 ^ e ≤ m + 1024 ∧ (2 ^ 63 ≤ m → r * 2 ^ e = nearest m 11 * 2 ^ 11) := by
  unfold maxUnsigned at hlow hhigh
  have hne : m ≠ 0 := by omega
  have hatLeast : 60 ≤ m.log2 := (Nat.le_log2 hne).mpr (by omega)
  have hatMost : m.log2 < 64 := (Nat.log2_lt hne).mpr (by omega)
  obtain ⟨n, hlog⟩ : ∃ n, m.log2 = 52 + n := ⟨m.log2 - 52, by omega⟩
  obtain ⟨r, e, hnormal, hvalue⟩ := exists_normal_toFloat hlog (by omega)
  obtain ⟨hbelow, habove⟩ := nearest_mul_bounds m n
  have hstep : 2 ^ n ≤ 2 ^ 11 := pow_le_pow_right₀ (by decide) (by omega)
  refine ⟨r, e, hnormal, by omega, by omega, fun hlarge => ?_⟩
  have hlast : 63 ≤ m.log2 := (Nat.le_log2 hne).mpr hlarge
  rw [hvalue, show n = 11 by omega]

/-! ## Powers of ten -/

/-- The parts of a finite double, its sign aside. -/
def parts? (x : Float) : Option (Nat × Int) :=
  match x.toModel.unpack with
  | .finite _ m e _ => some (m, e)
  | _ => none

theorem normal_of_parts? (h : parts? x = some (m, e)) (hlog : m.log2 = 52) : Normal x m e := by
  unfold parts? at h
  split at h
  · rename_i s m' e' hm hunpack
    cases h
    exact ⟨⟨s, hm, hunpack⟩, hlog⟩
  · cases h

theorem log2_two_pow_mul (j : Nat) (h : m ≠ 0) : (2 ^ j * m).log2 = j + m.log2 := by
  refine (Nat.log2_eq_iff (Nat.mul_ne_zero (Nat.two_pow_pos j).ne' h)).mpr ⟨?_, ?_⟩
  · rw [Nat.pow_add]
    exact Nat.mul_le_mul_left _ (Nat.log2_self_le h)
  · rw [Nat.add_assoc, Nat.pow_add]
    exact Nat.mul_lt_mul_of_pos_left Nat.lt_log2_self (Nat.two_pow_pos j)

theorem log2_ten_pow_le {j k : Nat} (h : j ≤ k) : (10 ^ j).log2 ≤ (10 ^ k).log2 := by
  have hpos : ∀ j, 10 ^ j ≠ 0 := fun j => (Nat.pow_pos (by decide)).ne'
  rw [Nat.le_log2 (hpos k)]
  exact Nat.le_trans (Nat.log2_self_le (hpos j)) (pow_le_pow_right₀ (by decide) h)

theorem log2_ten_pow :
    (10 ^ 288).log2 = 956 ∧ (10 ^ 291).log2 = 966 ∧ (10 ^ 307).log2 = 1019 := by
  decide +kernel

/-- The powers of ten between which it depends on the leading digits. -/
theorem parts?_powerOfTen : parts? (powerOfTen 289) = some (4621297602213964, 908) ∧
    parts? (powerOfTen 290) = some (5776622002767455, 911) := by
  decide +kernel

theorem normal_powerOfTen_289 : Normal (powerOfTen 289) 4621297602213964 (908 : Nat) :=
  normal_of_parts? parts?_powerOfTen.1 (by decide)

theorem normal_powerOfTen_290 : Normal (powerOfTen 290) 5776622002767455 (911 : Nat) :=
  normal_of_parts? parts?_powerOfTen.2 (by decide)

/-! ## Leading digits that are scaled -/

/-- The least integer that makes no finite double. The largest double is larger: what the integer
is rounded to on the way is larger still. -/
def leastUnheld : Nat := 17976931348623156225 * 10 ^ 289

/-- With too many digits behind them all leading digits are too large. -/
theorem leastUnheld_le (hlow : maxUnsigned / 10 ≤ m) (hk : 290 ≤ k) :
    leastUnheld ≤ m * 10 ^ k := by
  obtain ⟨j, rfl⟩ : ∃ j, k = j + 1 := ⟨k - 1, by omega⟩
  have hexponent : 10 ^ 289 ≤ 10 ^ j := pow_le_pow_right₀ (by decide) (by omega)
  unfold leastUnheld
  calc 17976931348623156225 * 10 ^ 289 ≤ maxUnsigned / 10 * 10 * 10 ^ j :=
        Nat.mul_le_mul (by decide) hexponent
    _ = maxUnsigned / 10 * 10 ^ (j + 1) := by rw [Nat.mul_assoc, ← Nat.pow_succ']
    _ ≤ m * 10 ^ (j + 1) := Nat.mul_le_mul_right _ hlow

/-- With the power of ten between them it depends on the leading digits. -/
theorem isInf_scaled_between (hlow : maxUnsigned / 10 ≤ m) (hhigh : m ≤ maxUnsigned) :
    ((UInt64.ofNat m).toFloat * powerOfTen 289).isInf = decide (17976931348623156225 ≤ m) := by
  obtain ⟨r, e, hx, hbelow, habove, hrounded⟩ := exists_normal_leading hlow hhigh
  rw [isInf_mul_natCast hx normal_powerOfTen_289, decide_eq_decide,
    roundsUp_eq_scaled (i := 62) (j := 908) rfl, ← Nat.mul_assoc,
    Nat.mul_le_mul_right_iff (Nat.two_pow_pos 908)]
  rcases Nat.lt_or_ge m (2 ^ 63) with hsmall | hlarge
  · omega
  · have hnearest : nearest m 11 = if 2 * (m % 2048) < 2048 then m / 2048
        else if 2 * (m % 2048) = 2048 then m / 2048 + m / 2048 % 2 else m / 2048 + 1 := rfl
    -- the digits become a multiple of 2048; the even one of two that are as near is small enough
    rw [hrounded hlarge, hnearest]
    split
    · omega
    · split <;> omega

/-- A power of ten is rounded once, with bits behind it that make it long enough. -/
theorem ofScientific_one (hk : k ≤ 2048) : UnpackedFloat.ofScientific .binary64 1 k =
    roundWithAccuracy .binary64 .positive (2 ^ 53 * 10 ^ k) (-53) .exact := by
  have hlarge : ¬ (k : Int) > 2 ^ 11 := by omega
  have hsmall : ¬ (k : Int) < -(2 ^ 11 + (Nat.log2 1 : Nat)) := by omega
  calc UnpackedFloat.ofScientific .binary64 1 k
    _ = if (k : Int) > 2 ^ 11 then _ else _ := dif_neg (by decide)
    _ = if (k : Int) < -(2 ^ 11 + (Nat.log2 1 : Nat)) then _ else _ := if_neg hlarge
    _ = if 0 ≤ (k : Int) then _ else _ := if_neg hsmall
    _ = _ := if_pos (Int.natCast_nonneg k)

/-- A power of ten that is not too large is rounded to 53 bits. -/
theorem exists_normal_powerOfTen (hk : k ≤ 308) : ∃ r e, Normal (powerOfTen k) r e ∧
    ((10 ^ k).log2 : Int) ≤ e + 52 ∧ e + 51 ≤ (10 ^ k).log2 := by
  by_cases hclosed : k ∈ 308 :: List.range 23
  · -- small powers are there already, and the largest must not be carried
    have hall : ∀ k ∈ 308 :: List.range 23, (parts? (powerOfTen k)).any (fun p =>
        decide (p.1.log2 = 52 ∧ ((10 ^ k).log2 : Int) ≤ p.2 + 52 ∧
          p.2 + 51 ≤ ((10 ^ k).log2 : Int))) = true := by decide +kernel
    obtain ⟨⟨r, e⟩, hparts, hsizes⟩ := (Option.any_eq_true _ _).mp (hall k hclosed)
    obtain ⟨hlog, hsize⟩ := of_decide_eq_true hsizes
    exact ⟨r, e, normal_of_parts? hparts hlog, hsize⟩
  · obtain ⟨hlarge, hsmall⟩ : 22 < k ∧ k < 308 := by
      simp only [List.mem_cons, List.mem_range] at hclosed
      omega
    have hlog := log2_ten_pow_le (j := k) (k := 307) (by omega)
    rw [log2_ten_pow.2.2] at hlog
    have hshifted : (2 ^ 53 * 10 ^ k).log2 = 52 + ((10 ^ k).log2 + 1) := by
      rw [log2_two_pow_mul 53 (Nat.pow_pos (by decide)).ne']
      omega
    obtain ⟨r, carry, hnormal, hcarry, -⟩ :=
      normal_of_round (e := -53) hshifted (by omega) (by omega)
    have hpower : powerOfTen k =
        ⟨.pack (roundWithAccuracy .binary64 .positive (2 ^ 53 * 10 ^ k) (-53) .exact)⟩ := by
      have hpowers : ¬ (1 < 2 ^ 53 ∧ k ≤ 22) := by omega
      rw [powerOfTen, Float.ofScientific, dif_neg hpowers]
      have hround := ofScientific_one (k := k) (by omega)
      exact congrArg (fun f => (⟨.pack f⟩ : Float)) hround
    exact ⟨r, _, hpower ▸ hnormal, by omega, by omega⟩

/-- Up to some power of ten all products are finite. -/
theorem isInf_scaled_of_le (hlow : maxUnsigned / 10 ≤ m) (hhigh : m ≤ maxUnsigned) (hk : k ≤ 288) :
    ((UInt64.ofNat m).toFloat * powerOfTen k).isInf = false := by
  obtain ⟨r, e, hx, -, hvalue, -⟩ := exists_normal_leading hlow hhigh
  obtain ⟨r', e', hy, hleast, hmost⟩ := exists_normal_powerOfTen (k := k) (by omega)
  have hlog := log2_ten_pow_le hk
  rw [log2_ten_pow.1] at hlog
  unfold maxUnsigned at hhigh
  rw [isInf_mul hx hy (by omega), decide_eq_false_iff_not, Nat.not_le]
  have hexponent : ((e : Int) + e').toNat ≤ e + 905 := by omega
  calc r * r' * 2 ^ ((e : Int) + e').toNat ≤ r * r' * 2 ^ (e + 905) :=
        Nat.mul_le_mul_left _ (pow_le_pow_right₀ (by decide) hexponent)
    _ = r * 2 ^ e * (r' * 2 ^ 905) := mul_mul_two_pow ..
    _ ≤ 2 ^ 65 * (2 ^ 53 * 2 ^ 905) :=
        Nat.mul_le_mul (by omega) (Nat.mul_le_mul_right _ (lt_of_log2 (n := 0) hy.bits).le)
    _ < roundsUp := scaled_lt_roundsUp (by decide)

/-- From some power of ten on all products are infinite. -/
theorem isInf_scaled_of_ge (hlow : maxUnsigned / 10 ≤ m) (hhigh : m ≤ maxUnsigned)
    (hleast : 290 ≤ k) (hmost : k ≤ 308) :
    ((UInt64.ofNat m).toFloat * powerOfTen k).isInf = true := by
  obtain ⟨r, e, hx, hvalue, -⟩ := exists_normal_leading hlow hhigh
  unfold maxUnsigned at hlow
  obtain ⟨r', e', hy, hpower⟩ : ∃ r' e' : Nat, Normal (powerOfTen k) r' e' ∧
      5776622002767455 * 2 ^ 911 ≤ r' * 2 ^ e' := by
    rcases Nat.eq_or_lt_of_le hleast with rfl | hlarger
    · exact ⟨_, _, normal_powerOfTen_290, Nat.le_refl _⟩
    · obtain ⟨r', e', hy, hsize, -⟩ := exists_normal_powerOfTen hmost
      have hlog := log2_ten_pow_le (show 291 ≤ k by omega)
      rw [log2_ten_pow.2.1] at hlog
      obtain ⟨j, rfl⟩ : ∃ j : Nat, e' = (j + 1 : Nat) := ⟨e'.toNat - 1, by omega⟩
      have hexponent : 2 ^ 911 ≤ 2 ^ j := pow_le_pow_right₀ (by decide) (by omega)
      refine ⟨r', j + 1, hy, ?_⟩
      calc 5776622002767455 * 2 ^ 911 ≤ 2 ^ 52 * 2 * 2 ^ j := Nat.mul_le_mul (by decide) hexponent
        _ = 2 ^ 52 * 2 ^ (j + 1) := by rw [Nat.mul_assoc, ← Nat.pow_succ']
        _ ≤ r' * 2 ^ (j + 1) := Nat.mul_le_mul_right _ (le_of_log2 (n := 0) hy.bits)
  rw [isInf_mul_natCast hx hy, decide_eq_true_iff]
  calc roundsUp = (2 ^ 54 - 1) * 2 ^ 59 * 2 ^ 911 := roundsUp_eq_scaled rfl
    _ ≤ 1844674407370954000 * 5776622002767455 * 2 ^ 911 := Nat.mul_le_mul_right _ (by decide)
    _ = 1844674407370954000 * (5776622002767455 * 2 ^ 911) := Nat.mul_assoc ..
    _ ≤ r * 2 ^ e * (r' * 2 ^ e') := Nat.mul_le_mul (by omega) hpower

/-- The leading digits of an integer of more than 64 bits, rounded and multiplied by a rounded power
of ten, are infinite if the integer is too large. -/
theorem isInf_scaled (hlow : maxUnsigned / 10 ≤ m) (hhigh : m ≤ maxUnsigned) (hk : k ≤ 308) :
    ((UInt64.ofNat m).toFloat * powerOfTen k).isInf = decide (leastUnheld ≤ m * 10 ^ k) := by
  rcases Nat.lt_trichotomy k 289 with hlt | rfl | hgt
  · have hexponent : 10 ^ (k + 1) ≤ 10 ^ 289 := pow_le_pow_right₀ (by decide) hlt
    have hfinite : m * 10 ^ k < leastUnheld := by
      unfold leastUnheld
      calc m * 10 ^ k ≤ maxUnsigned * 10 ^ k := Nat.mul_le_mul_right _ hhigh
        _ < 17976931348623156225 * 10 * 10 ^ k :=
            Nat.mul_lt_mul_of_pos_right (by decide) (Nat.pow_pos (by decide))
        _ = 17976931348623156225 * 10 ^ (k + 1) := by rw [Nat.mul_assoc, ← Nat.pow_succ']
        _ ≤ 17976931348623156225 * 10 ^ 289 := Nat.mul_le_mul_left _ hexponent
    rw [isInf_scaled_of_le hlow hhigh (by omega), decide_eq_false (Nat.not_le.mpr hfinite)]
  · rw [isInf_scaled_between hlow hhigh, decide_eq_decide, leastUnheld,
      Nat.mul_le_mul_right_iff (Nat.pow_pos (by decide))]
  · rw [isInf_scaled_of_ge hlow hhigh hgt hk, decide_eq_true (leastUnheld_le hlow hgt)]

theorem Normal.beq_zero (h : Normal x m e) : (x == 0) = false := by
  obtain ⟨⟨s, hm, hunpack⟩, -⟩ := h
  have hzero : (0 : Float).toModel.unpack = .zero .positive := by rfl
  change x.toModel.unpack.beq (0 : Float).toModel.unpack = false
  rw [hunpack, hzero]
  cases s <;> rfl

/-- The leading digits of an integer of more than 64 bits make a finite double, scaled by the power
of ten for the others, just if the integer is not too large. -/
theorem isSome_double?_iff (negative : Bool) (hlow : maxUnsigned / 10 ≤ m) (hhigh : m ≤ maxUnsigned)
    (k : Nat) : (double? negative m k).isSome = true ↔ m * 10 ^ k < leastUnheld := by
  unfold double?
  rw [Option.isSome_map, if_neg (by omega), Int.natAbs_natCast]
  by_cases hk : k ≤ maxScale
  · have hscaled := isInf_scaled hlow hhigh hk
    rw [if_pos hk]
    by_cases hlarge : leastUnheld ≤ m * 10 ^ k
    · simp [hscaled, hlarge]
    · simp [hscaled, hlarge, Nat.lt_of_not_le hlarge]
  · obtain ⟨r, e, hx, -⟩ := exists_normal_leading hlow hhigh
    have hsteps : 290 ≤ k := by
      unfold maxScale at hk
      omega
    rw [if_neg hk, hx.beq_zero]
    simp [leastUnheld_le hlow hsteps]

end SelectionModels.Json.Reader
