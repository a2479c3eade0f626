import Mathlib.Tactic.Ring
import SymbolicAlgebra.Proofs.Outcome
import SymbolicAlgebra.Value.Arithmetic

/-!
# Doubles by their bits

A double is a sign, a biased exponent of eleven bits and a fraction of 52 bits, packed into one word;
arithmetic unpacks the operands, computes and packs the result again. Packing gives back the word
that was unpacked, since an undefined double has one word only. So a double is a product of itself
and one, and a product with minus one changes nothing but its sign.
-/

namespace SymbolicAlgebra.Double

open Float.Model Float.Model.UnpackedFloat

def fraction (b : BitVec 64) : Nat := b.toNat % 2 ^ 52

def scale (b : BitVec 64) : Nat := b.toNat / 2 ^ 52 % 2 ^ 11

def sign (b : BitVec 64) : Sign := if b.toNat / 2 ^ 63 = 1 then .negative else .positive

theorem toNat_unpackMantissa (b : BitVec 64) :
    (@unpackMantissa .binary64 b).toNat = fraction b := by
  rw [unpackMantissa, BitVec.toNat_cast, BitVec.extractLsb_toNat]
  rfl

theorem toNat_unpackExponent (b : BitVec 64) :
    (@unpackExponent .binary64 b).toNat = scale b := by
  rw [unpackExponent, BitVec.toNat_cast, BitVec.extractLsb_toNat, Nat.shiftRight_eq_div_pow]
  rfl

theorem ofBitVec_unpackSign (b : BitVec 64) :
    Sign.ofBitVec (@unpackSign .binary64 b) = sign b := by
  have hlt := b.isLt
  have htoNat : (@unpackSign .binary64 b).toNat = b.toNat / 2 ^ 63 := by
    have hbit : @unpackSign .binary64 b = (b.extractLsb 63 63).cast rfl := rfl
    rw [hbit, BitVec.toNat_cast, BitVec.extractLsb_toNat, Nat.shiftRight_eq_div_pow]
    exact Nat.mod_eq_of_lt (by simp only [Nat.sub_self]; omega)
  have hzero : @unpackSign .binary64 b = 0#1 ↔ b.toNat / 2 ^ 63 = 0 := by
    rw [← htoNat, ← BitVec.toNat_inj]
    rfl
  unfold Sign.ofBitVec sign
  simp only [hzero]
  split <;> split <;> first | rfl | omega

theorem toNat_packComponents (s : Sign) (e : BitVec 11) (m : BitVec 52) :
    (packComponents .binary64 s e m).toNat =
      s.toBitVec.toNat * 2 ^ 63 + e.toNat * 2 ^ 52 + m.toNat := by
  rw [packComponents, BitVec.toNat_append, BitVec.toNat_append,
    ← Nat.shiftLeft_add_eq_or_of_lt m.isLt, ← Nat.shiftLeft_add_eq_or_of_lt e.isLt]
  simp only [Nat.shiftLeft_eq]
  ring

/-- A word is packed from its fields. -/
theorem packComponents_eq {b : BitVec 64} {e : BitVec 11} {m : BitVec 52}
    (he : e.toNat = scale b) (hm : m.toNat = fraction b) :
    packComponents .binary64 (sign b) e m = b := by
  apply BitVec.eq_of_toNat_eq
  have hlt := b.isLt
  rw [toNat_packComponents, he, hm, sign, scale, fraction]
  split
  · simp only [Sign.toBitVec, BitVec.toNat_ofNat]
    omega
  · simp only [Sign.toBitVec, BitVec.toNat_ofNat]
    omega

/-- What a word is unpacked to, by its fields. -/
inductive Unpacks (b : BitVec 64) : UnpackedFloat → Prop
  | infinity (hscale : scale b = 2047) (hfraction : fraction b = 0) :
      Unpacks b (.infinity (sign b))
  | notANumber (hscale : scale b = 2047) (hfraction : fraction b ≠ 0) : Unpacks b .notANumber
  | zero (hscale : scale b = 0) (hfraction : fraction b = 0) : Unpacks b (.zero (sign b))
  | subnormal (hscale : scale b = 0) (hpos : 0 < fraction b) :
      Unpacks b (.finite (sign b) (fraction b) (-1074) hpos)
  | normal (hzero : scale b ≠ 0) (hscale : scale b ≠ 2047) (hpos : 0 < 2 ^ 52 + fraction b) :
      Unpacks b (.finite (sign b) (2 ^ 52 + fraction b) (scale b - 1075) hpos)

theorem Unpacks.of_finite_eq {b : BitVec 64} {s s' : Sign} {m m' : Nat} {e e' : Int} {hpos : 0 < m}
    {hpos' : 0 < m'} (h : Unpacks b (.finite s m e hpos)) (hs : s' = s) (hm : m' = m) (he : e' = e) :
    Unpacks b (.finite s' m' e' hpos') := by
  subst hs hm he
  exact h

theorem unpacks (b : BitVec 64) : Unpacks b (UnpackedFloat.unpack .binary64 b) := by
  have hfraction : @unpackMantissa .binary64 b = 0#(Format.binary64.mantissaBitsWithoutImplicit) ↔
      fraction b = 0 := by
    rw [← toNat_unpackMantissa, ← BitVec.toNat_inj]
    rfl
  have htop : @unpackExponent .binary64 b = -1#(Format.binary64.exponentBits) ↔ scale b = 2047 := by
    rw [← toNat_unpackExponent, ← BitVec.toNat_inj]
    rfl
  have hbottom : @unpackExponent .binary64 b = 0#(Format.binary64.exponentBits) ↔ scale b = 0 := by
    rw [← toNat_unpackExponent, ← BitVec.toNat_inj]
    rfl
  have hnormal : (1#1 ++ @unpackMantissa .binary64 b).toNat = 2 ^ 52 + fraction b := by
    rw [BitVec.toNat_append, ← Nat.shiftLeft_add_eq_or_of_lt (BitVec.isLt _), toNat_unpackMantissa]
    rfl
  have hexponent : ((@unpackExponent .binary64 b).toNat : Int) - (Format.binary64.exponentBias +
      Format.binary64.mantissaBitsWithoutImplicit) = scale b - 1075 := by
    rw [toNat_unpackExponent]
    rfl
  dsimp only [UnpackedFloat.unpack]
  by_cases hscale : scale b = 2047
  · rw [if_pos (htop.mpr hscale)]
    by_cases hzero : fraction b = 0
    · rw [if_pos (hfraction.mpr hzero), ofBitVec_unpackSign]
      exact .infinity hscale hzero
    · rw [if_neg (mt hfraction.mp hzero)]
      exact .notANumber hscale hzero
  · rw [if_neg (mt htop.mp hscale)]
    by_cases hsmall : scale b = 0
    · rw [if_pos (hbottom.mpr hsmall)]
      by_cases hzero : fraction b = 0
      · rw [dif_pos (hfraction.mpr hzero), ofBitVec_unpackSign]
        exact .zero hsmall hzero
      · rw [dif_neg (mt hfraction.mp hzero)]
        exact (Unpacks.subnormal hsmall (Nat.pos_of_ne_zero hzero)).of_finite_eq
          (ofBitVec_unpackSign b) (toNat_unpackMantissa b) (by rw [hexponent, hsmall]; rfl)
    · rw [if_neg (mt hbottom.mp hsmall)]
      exact (Unpacks.normal hsmall hscale (by omega)).of_finite_eq (ofBitVec_unpackSign b) hnormal
        hexponent

theorem pack_finite (s : Sign) {m : Nat} (e : Int) (hpos : 0 < m) :
    UnpackedFloat.pack .binary64 (.finite s m e hpos) =
      if 2 ^ 11 ≤ (e + 1023 + 52).toNat + 1 then UnpackedFloat.packedInfinity .binary64 s
      else if m.log2 + 1 = 53 then
        packComponents .binary64 s (BitVec.ofNat 11 (e + 1023 + 52).toNat) (BitVec.ofNat 52 m)
      else packComponents .binary64 s 0#11 (BitVec.ofNat 52 m) := rfl

theorem pack_subnormal (s : Sign) {m : Nat} (hpos : 0 < m) (hm : m < 2 ^ 52) :
    UnpackedFloat.pack .binary64 (.finite s m (-1074) hpos) =
      packComponents .binary64 s 0#11 (BitVec.ofNat 52 m) := by
  have hlog : m.log2 < 52 := (Nat.log2_lt (by omega)).mpr hm
  rw [pack_finite, if_neg (by decide), if_neg (by omega)]

theorem pack_normal (s : Sign) {m : Nat} {e : Int} (hpos : 0 < m) (hle : 2 ^ 52 ≤ m)
    (hlt : m < 2 ^ 53) (hlow : -1074 ≤ e) (hhigh : e ≤ 971) :
    UnpackedFloat.pack .binary64 (.finite s m e hpos) =
      packComponents .binary64 s (BitVec.ofNat 11 (e + 1075).toNat) (BitVec.ofNat 52 m) := by
  have hlog : m.log2 = 52 := by
    have hmin : 52 ≤ m.log2 := (Nat.le_log2 (by omega)).mpr hle
    have hmax : m.log2 < 53 := (Nat.log2_lt (by omega)).mpr hlt
    omega
  have hexponent : e + 1023 + 52 = e + 1075 := by omega
  rw [pack_finite, hexponent, if_neg (by omega), if_pos (by omega)]

/-- Packing gives back a word that stands for an undefined double only if it is the one that does. -/
theorem pack_unpack {b : BitVec 64} (hvalid : Format.binary64.Valid b) :
    UnpackedFloat.pack .binary64 (UnpackedFloat.unpack .binary64 b) = b := by
  have hscale : scale b < 2 ^ 11 := Nat.mod_lt _ (by decide)
  have hfraction : fraction b < 2 ^ 52 := Nat.mod_lt _ (by decide)
  have hunpacks := unpacks b
  generalize UnpackedFloat.unpack .binary64 b = u at hunpacks
  cases hunpacks with
  | infinity hs hf => exact packComponents_eq hs.symm hf.symm
  | zero hs hf => exact packComponents_eq hs.symm hf.symm
  | notANumber hs hf =>
    refine (hvalid.eq_packedNaN ?_ ?_).symm
    · exact BitVec.eq_of_toNat_eq ((toNat_unpackExponent b).trans hs)
    · intro h
      exact hf ((toNat_unpackMantissa b).symm.trans (congrArg BitVec.toNat h))
  | subnormal hs hpos =>
    rw [pack_subnormal _ _ hfraction]
    refine packComponents_eq hs.symm ?_
    rw [BitVec.toNat_ofNat]
    omega
  | normal hzero hs hpos =>
    rw [pack_normal _ _ (by omega) (by omega) (by omega) (by omega)]
    refine packComponents_eq ?_ ?_
    · rw [BitVec.toNat_ofNat]
      omega
    · rw [BitVec.toNat_ofNat]
      omega

theorem ofModel_pack_unpack (x : Float) : Float.ofModel (.pack x.toModel.unpack) = x := by
  obtain ⟨⟨bits, hvalid⟩⟩ := x
  have hbits := congrArg UInt64.ofBitVec (pack_unpack hvalid)
  exact congrArg Float.ofModel ((Float.Model.mk.injEq ..).mpr hbits)

theorem sign_mul_comm (s t : Sign) : s * t = t * s := by cases s <;> cases t <;> rfl

theorem sign_mul_positive (s : Sign) : s * .positive = s := by cases s <;> rfl

theorem sign_mul_negative (s : Sign) : s * .negative = -s := by cases s <;> rfl

theorem unpacked_mul_comm (spec : Format) (u v : UnpackedFloat) :
    UnpackedFloat.mul spec u v = UnpackedFloat.mul spec v u := by
  cases u <;> cases v <;> dsimp only [UnpackedFloat.mul] <;>
    simp only [sign_mul_comm, Nat.mul_comm, Int.add_comm]

theorem mul_comm (x y : Float) : x * y = y * x :=
  congrArg (fun u => Float.ofModel (.pack u)) (unpacked_mul_comm _ _ _)

theorem repeat_shiftRightOne (m n : Nat) :
    Nat.repeat ExtendedMantissa.shiftRightOne n ⟨m * 2 ^ n, false, false⟩ = ⟨m, false, false⟩ := by
  induction n generalizing m with
  | zero => simp [Nat.repeat]
  | succ n ih =>
    rw [Nat.repeat, Nat.pow_succ', ← Nat.mul_assoc, ih]
    simp [ExtendedMantissa.shiftRightOne]

theorem targetExponent_eq {m : Nat} {e : Int} (hpos : 0 < m)
    (h : 2 ^ 52 ≤ m ∧ m < 2 ^ 53 ∧ -1074 ≤ e ∨ m < 2 ^ 52 ∧ e = -1074) :
    Format.binary64.targetExponent (m.log2 + 1 + e) = e := by
  have hleast : Format.binary64.minExponent = -1074 := by decide
  rw [Format.targetExponent, show Format.binary64.mantissaBits = 53 from rfl, hleast]
  rcases h with ⟨hle, hlt, hlow⟩ | ⟨hlt, rfl⟩
  · have hmin : 52 ≤ m.log2 := (Nat.le_log2 (by omega)).mpr hle
    have hmax : m.log2 < 53 := (Nat.log2_lt (by omega)).mpr hlt
    omega
  · have hmax : m.log2 < 52 := (Nat.log2_lt (by omega)).mpr hlt
    omega

theorem round_canonical (s : Sign) {m : Nat} {e : Int} (hpos : 0 < m)
    (h : 2 ^ 52 ≤ m ∧ m < 2 ^ 53 ∧ -1074 ≤ e ∨ m < 2 ^ 52 ∧ e = -1074) :
    roundWithAccuracy .binary64 s (m * 2 ^ 52) (e + -52) .exact = .finite s m e hpos := by
  have hlog : (m * 2 ^ 52).log2 = m.log2 + 52 := by
    have hself := Nat.log2_self_le hpos.ne'
    have hlt : m < 2 ^ (m.log2 + 1) := Nat.lt_log2_self
    rw [Nat.log2_eq_iff (by omega)]
    constructor
    · rw [Nat.pow_add]
      exact Nat.mul_le_mul_right _ hself
    · rw [Nat.add_right_comm, Nat.pow_add _ (m.log2 + 1)]
      exact Nat.mul_lt_mul_of_pos_right hlt (by decide)
  have htarget := targetExponent_eq hpos h
  have hshift : shiftToTargetExponent .binary64 (m * 2 ^ 52) (e + -52) .exact =
      (⟨m, false, false⟩, e) := by
    have htotal : totalExponent (m * 2 ^ 52) (e + -52) = m.log2 + 1 + e := by
      rw [totalExponent, hlog]
      push_cast
      ring
    rw [shiftToTargetExponent, htotal, htarget, shiftToExponent,
      show e - (e + -52) = 52 from by ring]
    exact Prod.ext (repeat_shiftRightOne m 52) (by simp)
  have hstay : shiftToTargetExponent .binary64 m e .exact = (⟨m, false, false⟩, e) := by
    rw [shiftToTargetExponent, totalExponent, htarget, shiftToExponent, Int.sub_self]
    exact Prod.ext rfl (by simp)
  have hrounded : ExtendedMantissa.roundedMantissa ⟨m, false, false⟩ = m := rfl
  rw [roundWithAccuracy, hshift]
  dsimp only
  rw [hrounded, hstay]
  exact dif_neg hpos.ne'

theorem mul_unit_finite (s : Sign) {m : Nat} {e : Int} (hpos : 0 < m)
    (h : 2 ^ 52 ≤ m ∧ m < 2 ^ 53 ∧ -1074 ≤ e ∨ m < 2 ^ 52 ∧ e = -1074) :
    UnpackedFloat.mul .binary64 (.finite s m e hpos) (.finite .positive (2 ^ 52) (-52) (by decide)) =
        .finite s m e hpos ∧
      UnpackedFloat.mul .binary64 (.finite s m e hpos)
        (.finite .negative (2 ^ 52) (-52) (by decide)) = .finite (-s) m e hpos := by
  constructor
  · change roundWithAccuracy .binary64 (s * .positive) (m * 2 ^ 52) (e + -52) .exact = _
    rw [sign_mul_positive, round_canonical s hpos h]
  · change roundWithAccuracy .binary64 (s * .negative) (m * 2 ^ 52) (e + -52) .exact = _
    rw [sign_mul_negative, round_canonical (-s) hpos h]

theorem mul_unit {b : BitVec 64} {u : UnpackedFloat} (h : Unpacks b u) :
    UnpackedFloat.mul .binary64 u (.finite .positive (2 ^ 52) (-52) (by decide)) = u ∧
      UnpackedFloat.mul .binary64 u (.finite .negative (2 ^ 52) (-52) (by decide)) = u.neg := by
  have hfraction : fraction b < 2 ^ 52 := Nat.mod_lt _ (by decide)
  cases h with
  | subnormal hs hpos => exact mul_unit_finite _ hpos (.inr ⟨hfraction, rfl⟩)
  | normal hzero hs hpos => exact mul_unit_finite _ hpos (.inl (by omega))
  | _ =>
    dsimp only [UnpackedFloat.mul, UnpackedFloat.neg]
    simp only [sign_mul_positive, sign_mul_negative, and_self]

theorem mul_one (x : Float) : x * 1.0 = x := by
  refine Eq.trans ?_ (ofModel_pack_unpack x)
  exact congrArg (fun u => Float.ofModel (.pack u)) (mul_unit (unpacks _)).1

theorem mul_neg_one (x : Float) : x * -1.0 = -x :=
  congrArg (fun u => Float.ofModel (.pack u)) (mul_unit (unpacks _)).2

theorem one_mul (x : Float) : 1.0 * x = x := (mul_comm _ x).trans (mul_one x)

theorem nan_add (x : Float) :
    Float.ofBits 0x7FF8000000000000 + x = Float.ofBits 0x7FF8000000000000 := rfl

theorem add_nan (x : Float) :
    x + Float.ofBits 0x7FF8000000000000 = Float.ofBits 0x7FF8000000000000 := by
  change Float.ofModel (.pack (UnpackedFloat.add _ x.toModel.unpack .notANumber)) = _
  cases x.toModel.unpack <;> rfl

theorem nan_mul (x : Float) :
    Float.ofBits 0x7FF8000000000000 * x = Float.ofBits 0x7FF8000000000000 := rfl

theorem fields_packComponents (s : Sign) (e : BitVec 11) (m : BitVec 52) :
    sign (packComponents .binary64 s e m) = s ∧ scale (packComponents .binary64 s e m) = e.toNat ∧
      fraction (packComponents .binary64 s e m) = m.toNat := by
  have he := e.isLt
  have hm := m.isLt
  unfold sign scale fraction
  rw [toNat_packComponents]
  cases s with
  | positive =>
    rw [show Sign.positive.toBitVec.toNat = 0 from rfl, if_neg (by omega)]
    exact ⟨rfl, by omega, by omega⟩
  | negative =>
    rw [show Sign.negative.toBitVec.toNat = 1 from rfl, if_pos (by omega)]
    exact ⟨rfl, by omega, by omega⟩

theorem neg_finite (s : Sign) {m : Nat} (e : Int) (hpos : 0 < m) :
    UnpackedFloat.neg (.finite s m e hpos) = .finite (-s) m e hpos := rfl

def word (x : Float) : BitVec 64 := x.toModel.toBits.toBitVec

/-- The opposite of an undefined double is itself, and that of any other differs from it in the sign
alone. -/
theorem word_neg (x : Float) :
    scale (word x) = 2047 ∧ fraction (word x) ≠ 0 ∧ word (-x) = word x ∨
      ¬ (scale (word x) = 2047 ∧ fraction (word x) ≠ 0) ∧ sign (word (-x)) = -sign (word x) ∧
        scale (word (-x)) = scale (word x) ∧ fraction (word (-x)) = fraction (word x) := by
  have hscale : scale (word x) < 2 ^ 11 := Nat.mod_lt _ (by decide)
  have hfraction : fraction (word x) < 2 ^ 52 := Nat.mod_lt _ (by decide)
  have hneg : word (-x) =
      UnpackedFloat.pack .binary64 (UnpackedFloat.unpack .binary64 (word x)).neg := rfl
  have hself : UnpackedFloat.pack .binary64 (UnpackedFloat.unpack .binary64 (word x)) = word x :=
    pack_unpack x.toModel.valid
  have hunpacks := unpacks (word x)
  rw [hneg]
  generalize UnpackedFloat.unpack .binary64 (word x) = u at hunpacks hself
  cases hunpacks with
  | notANumber hs hf => exact .inl ⟨hs, hf, hself⟩
  | infinity hs hf =>
    obtain ⟨hsign, hscale', hfraction'⟩ := fields_packComponents (-sign (word x)) (-1) 0
    exact .inr ⟨fun h => h.2 hf, hsign, hscale'.trans hs.symm, hfraction'.trans hf.symm⟩
  | zero hs hf =>
    obtain ⟨hsign, hscale', hfraction'⟩ := fields_packComponents (-sign (word x)) 0 0
    exact .inr ⟨fun h => h.2 hf, hsign, hscale'.trans hs.symm, hfraction'.trans hf.symm⟩
  | subnormal hs hpos =>
    rw [neg_finite, pack_subnormal _ _ hfraction]
    obtain ⟨hsign, hscale', hfraction'⟩ :=
      fields_packComponents (-sign (word x)) 0 (BitVec.ofNat 52 (fraction (word x)))
    refine .inr ⟨by omega, hsign, hscale'.trans hs.symm, hfraction'.trans ?_⟩
    rw [BitVec.toNat_ofNat]
    omega
  | normal hzero hs hpos =>
    rw [neg_finite, pack_normal _ _ (by omega) (by omega) (by omega) (by omega)]
    obtain ⟨hsign, hscale', hfraction'⟩ := fields_packComponents (-sign (word x))
      (BitVec.ofNat 11 ((scale (word x) : Int) - 1075 + 1075).toNat)
      (BitVec.ofNat 52 (2 ^ 52 + fraction (word x)))
    refine .inr ⟨by omega, hsign, hscale'.trans ?_, hfraction'.trans ?_⟩
    · rw [BitVec.toNat_ofNat]
      omega
    · rw [BitVec.toNat_ofNat]
      omega

def isSigned (b : BitVec 64) : Bool := b.toNat / 2 ^ 63 = 1

theorem sign_eq (b : BitVec 64) : sign b = if isSigned b then .negative else .positive := by
  simp [sign, isSigned]

theorem isSigned_of_sign_eq_neg {b c : BitVec 64} (h : sign b = -sign c) :
    isSigned b = !isSigned c := by
  rw [sign_eq, sign_eq] at h
  cases hb : isSigned b <;> cases hc : isSigned c <;> simp [hb, hc] at h ⊢

theorem ofFloat?_eq (x : Float) :
    Binary64.ofFloat? x =
      if scale (word x) = 2047 then none
      else if scale (word x) = 0 then some ⟨isSigned (word x), fraction (word x), -1074⟩
      else some ⟨isSigned (word x), 2 ^ 52 + fraction (word x), (scale (word x) : Int) - 1075⟩ := rfl

theorem isNaN_iff (x : Float) : x.isNaN = true ↔ scale (word x) = 2047 ∧ fraction (word x) ≠ 0 := by
  have hnan : x.isNaN = (UnpackedFloat.unpack .binary64 (word x)).isNaN := rfl
  have hunpacks := unpacks (word x)
  rw [hnan]
  generalize UnpackedFloat.unpack .binary64 (word x) = u at hunpacks
  cases hunpacks with
  | notANumber hs hf => exact iff_of_true rfl ⟨hs, hf⟩
  | infinity _ hf => exact iff_of_false Bool.false_ne_true fun h => h.2 hf
  | zero hs _ | subnormal hs _ => exact iff_of_false Bool.false_ne_true fun h => by omega
  | normal _ hs _ => exact iff_of_false Bool.false_ne_true fun h => hs h.1

theorem lt_zero_of_infinite {x : Float} (hscale : scale (word x) = 2047)
    (hfraction : fraction (word x) = 0) : x < 0 ↔ isSigned (word x) = true := by
  have hlt : x < 0 ↔ UnpackedFloat.lt (UnpackedFloat.unpack .binary64 (word x))
      (.zero .positive) = true := decide_eq_true_iff
  have hunpacks := unpacks (word x)
  rw [hlt]
  generalize UnpackedFloat.unpack .binary64 (word x) = u at hunpacks
  cases hunpacks with
  | infinity hs hf =>
    rw [sign_eq]
    cases isSigned (word x) <;> decide
  | notANumber hs hf => exact absurd hfraction hf
  | zero hs hf => omega
  | subnormal hs hpos => omega
  | normal hzero hs hpos => exact absurd hscale hs

end SymbolicAlgebra.Double

namespace SymbolicAlgebra.Value

open Outcome

theorem toFloat_one : one.toFloat = .ok 1.0 := by
  have hnearest : Binary64.nearest? 1 = some 1.0 := by decide +kernel
  simp [one, toFloat, hnearest]

theorem toFloat_negativeOne : negativeOne.toFloat = .ok (-1.0) := by
  have hnearest : Binary64.nearest? (-1) = some (-1.0) := by decide +kernel
  simp [negativeOne, toFloat, hnearest]

theorem mul_one (v : Value) : v.mul one = .ok v := by
  cases v with
  | exact q => simp [one, mul_exact]
  | float x =>
    have hmul : (float x).mul one = inexact (· * ·) (float x) one := rfl
    rw [hmul, inexact, toFloat_one]
    simp [toFloat, Double.mul_one]

theorem one_mul (v : Value) : one.mul v = .ok v := by
  cases v with
  | exact q => simp [one, mul_exact]
  | float x =>
    have hmul : one.mul (float x) = inexact (· * ·) one (float x) := rfl
    rw [hmul, inexact, toFloat_one]
    simp [toFloat, Double.one_mul]

theorem mul_negativeOne_comm (v : Value) : v.mul negativeOne = negativeOne.mul v := by
  cases v with
  | exact q => simp [negativeOne, mul_exact]
  | float x =>
    have hleft : (float x).mul negativeOne = inexact (· * ·) (float x) negativeOne := rfl
    have hright : negativeOne.mul (float x) = inexact (· * ·) negativeOne (float x) := rfl
    rw [hleft, hright, inexact, inexact, toFloat_negativeOne]
    simp [toFloat, Double.mul_comm]

end SymbolicAlgebra.Value
