import RigelTarget.BinaryFormat
import RigelTarget.DoubleWord
import Mathlib

/-!
# The soft-float header of compiler-rt

`fp_lib.h` serves both precisions: the types and the two helpers that depend on the width are chosen
by a macro, and all else is written over them. Here a record holds what the macro chooses, and the
helpers carry what they compute.
-/

namespace RigelTarget.SoftFloat

open BinaryFormat DoubleWord

section Header

/-- The bits of a precision: those of the exponent and of the significand, from which the header
derives its constants. -/
structure Precision where
  /-- `significandBits`. -/
  significandBits : ℕ
  /-- `exponentBits`. -/
  exponentBits : ℕ
  /-- There is a significand. -/
  significand_pos : 0 < significandBits
  /-- There is room beside a significand for three more bits and a carry. -/
  exponent_four : 4≤exponentBits
  /-- Exponents are an `int`. -/
  exponent_le : exponentBits≤30

/-- `typeWidth`: the significand, the exponent and one bit for the sign. The header computes the
bits of the exponent from the width instead. -/
abbrev Precision.typeWidth (f : Precision) : ℕ := f.significandBits+f.exponentBits+1

/-- `rep_t`, the bits of a number. All functions work on them; `toRep` and `fromRep` only change the
type. -/
abbrev Precision.Rep (f : Precision) : Type := BitVec f.typeWidth

/-- What the macro chooses, with the meaning of the helpers: the width of the type and of the wide
one, and the leading zeros. -/
structure FpLib extends Precision where
  /-- `rep_clz`. -/
  repClz : BitVec (significandBits+exponentBits+1) → ℕ
  /-- `wideMultiply`, with `hi` first. -/
  wideMultiply : BitVec (significandBits+exponentBits+1) →
    BitVec (significandBits+exponentBits+1) →
    BitVec (significandBits+exponentBits+1)×BitVec (significandBits+exponentBits+1)
  /-- The leading zeros. -/
  repClz_eq : ∀ a, a≠0 → repClz a=a.clz.toNat
  /-- The whole product. -/
  wideMultiply_eq : ∀ a b,
    (wideMultiply a b).1.toNat*2^(significandBits+exponentBits+1)+(wideMultiply a b).2.toNat=
      a.toNat*b.toNat

variable (f : Precision)

/-- `maxExponent`: all bits of the exponent are set. It is the exponent of infinity and of NaN. -/
def Precision.maxExponent : ℕ := 1<<<f.exponentBits-1

/-- `exponentBias`: half of the largest exponent, which is the exponent of the numbers from one up
to two. -/
def Precision.exponentBias : ℕ := f.maxExponent>>>1

/-- `implicitBit`: the bit above the significand, which normal numbers have without storing it. -/
def Precision.implicitBit : f.Rep := 1#f.typeWidth<<<f.significandBits

/-- `significandMask`: all bits below the implicit bit, that is, those of the significand. -/
def Precision.significandMask : f.Rep := f.implicitBit-1#f.typeWidth

/-- `signBit`: the highest bit. It is set in negative numbers, and in the negative zero. -/
def Precision.signBit : f.Rep := 1#f.typeWidth<<<(f.significandBits+f.exponentBits)

/-- `absMask`: all bits below the sign. Under this mask the bits of two numbers compare as their
absolute values do. -/
def Precision.absMask : f.Rep := f.signBit-1#f.typeWidth

/-- `exponentMask`, which is `infRep` too: an exponent with all bits set and a significand of zero
is infinity. -/
def Precision.infRep : f.Rep := f.absMask^^^f.significandMask

/-- `quietBit`: the highest bit of the significand. NaN is quiet where it is set. -/
def Precision.quietBit : f.Rep := f.implicitBit>>>1

/-- `qnanRep`: the quiet NaN that the functions return where there is no result. -/
def Precision.qnanRep : f.Rep := f.infRep|||f.quietBit

variable {f}

/-- `toRep(a) >> significandBits & maxExponent`: the exponent as it is stored, with the bias in it.
The mask drops the sign. -/
def exponent (a : f.Rep) : ℕ := a.toNat>>>f.significandBits&&&f.maxExponent

/-- `normalize`: the significand of a denormal number moved up to its implicit bit, and the exponent
for it. -/
def normalize (l : FpLib) (significand : l.Rep) : l.Rep×ℤ :=
  let shift : ℤ := l.repClz significand-l.repClz l.implicitBit
  (significand<<<shift.toNat,1-shift)

/-- `wideLeftShift`: two words move to the left together, and the upper one takes what leaves the
lower one. -/
def wideLeftShift (hi lo : f.Rep) (count : ℕ) : f.Rep×f.Rep :=
  (hi<<<count|||lo>>>(f.typeWidth-count),lo<<<count)

/-- `x << count`, with whatever shifts by the width or more give. C leaves them open, and the header
makes one of them when the count is zero. -/
def shiftLeft (beyond : f.Rep → ℕ → f.Rep) (x : f.Rep) (count : ℕ) : f.Rep :=
  if count < f.typeWidth then x<<<count else beyond x count

/-- A `bool` as a number, as C converts it when it is or-ed to a word. -/
def flag (x : f.Rep) : f.Rep := if x=0 then 0 else 1

/-- `wideRightShiftWithSticky`: the two words move to the right, and what falls out is left in the
last bit. -/
def wideRightShiftWithSticky (beyond : f.Rep → ℕ → f.Rep) (hi lo : f.Rep) (count : ℕ) :
    f.Rep×f.Rep :=
  if count < f.typeWidth then
    let sticky := flag (shiftLeft beyond lo (f.typeWidth-count))
    (hi>>>count,shiftLeft beyond hi (f.typeWidth-count)|||lo>>>count|||sticky)
  else if count < 2*f.typeWidth then
    let sticky := flag (shiftLeft beyond hi (2*f.typeWidth-count)|||lo)
    (0,hi>>>(count-f.typeWidth)|||sticky)
  else (0,flag (hi|||lo))

/-- The rounding at the end of all functions: what follows a number is more than half, or half. A
half is rounded to even. -/
def roundBy (more half : Prop) [Decidable more] [Decidable half] (result : f.Rep) : f.Rep :=
  let result := if more then result+1 else result
  if half then result+(result&&&1) else result

/-- `rep_clz` of double precision where `long` has 32 bits: the leading zeros of the upper word, or
those of the lower one on top of 32. -/
def repClz64 (a : BitVec 64) : ℕ :=
  if a&&&0xffffffff00000000#64≠0 then ((a>>>32).setWidth 32).clz.toNat
  else 32+((a&&&0xffffffff#64).setWidth 32).clz.toNat

/-- `wideMultiply` of single precision: a product of 64 bits, cut into its words. -/
def wideMultiply32 (a b : BitVec 32) : BitVec 32×BitVec 32 :=
  let product := a.setWidth 64*b.setWidth 64
  ((product>>>32).setWidth 32,product.setWidth 32)

/-- `loWord`: the lower half, still as a double word, so that products of halves do not overflow. -/
def loWord (a : BitVec 64) : BitVec 64 := a&&&0xffffffff#64

/-- `hiWord`: the upper half, moved down to where the lower half is. -/
def hiWord (a : BitVec 64) : BitVec 64 := a>>>32

/-- `wideMultiply` of double precision, by the four products of the halves with their carries. -/
def wideMultiply64 (a b : BitVec 64) : BitVec 64×BitVec 64 :=
  let plolo := loWord a*loWord b
  let plohi := loWord a*hiWord b
  let philo := hiWord a*loWord b
  let phihi := hiWord a*hiWord b
  let r0 := loWord plolo
  let r1 := hiWord plolo+loWord plohi+loWord philo
  (hiWord plohi+hiWord philo+hiWord r1+phihi,r0+r1<<<32)

end Header

section Helpers

/-- The low word. -/
theorem toNat_loWord (a : BitVec 64) : (loWord a).toNat=a.toNat%2^32 := by
  unfold loWord
  rw [BitVec.toNat_and]
  exact Nat.and_two_pow_sub_one_eq_mod a.toNat 32

/-- The high word. -/
theorem toNat_hiWord (a : BitVec 64) : (hiWord a).toNat=a.toNat/2^32 := by
  unfold hiWord
  rw [BitVec.toNat_ushiftRight,Nat.shiftRight_eq_div_pow]

/-- The two branches of `rep_clz` count the leading zeros of the whole: the low word counts only if
the high one is zero. -/
theorem repClz64_eq (a : BitVec 64) (ha : a≠0) : repClz64 a=a.clz.toNat := by
  have hmask : a&&&0xffffffff00000000#64=(a>>>32)<<<32 := by
    have hones : 0xffffffff00000000#64=BitVec.allOnes 64<<<32 := by decide
    rw [hones]
    ext i hi
    simp only [BitVec.getElem_and,BitVec.getElem_shiftLeft,BitVec.getElem_allOnes,
      BitVec.getElem_ushiftRight]
    grind
  have hlow : ((a&&&0xffffffff#64).setWidth 32).toNat=a.toNat%2^32 := by
    rw [BitVec.toNat_setWidth]
    have hword := toNat_loWord a
    unfold loWord at hword
    rw [hword,Nat.mod_mod]
  have hhigh : ((a>>>32).setWidth 32).toNat=a.toNat/2^32 := by
    have hmax := a.isLt
    rw [BitVec.toNat_setWidth,BitVec.toNat_ushiftRight,Nat.shiftRight_eq_div_pow]
    omega
  have hparts : (a&&&0xffffffff00000000#64).toNat=a.toNat/2^32*2^32 := by
    have hmax := a.isLt
    rw [hmask,BitVec.toNat_shiftLeft,BitVec.toNat_ushiftRight,Nat.shiftRight_eq_div_pow,
      Nat.shiftLeft_eq]
    omega
  unfold repClz64
  by_cases hzero : a&&&0xffffffff00000000#64=0
  · rw [if_neg (not_not.2 hzero)]
    rw [hzero] at hparts
    have hsmall : a.toNat<2^32 := by
      have hnone : (0 : BitVec 64).toNat=0 := rfl
      omega
    have hne : (a&&&0xffffffff#64).setWidth 32≠0 := fun h => ha (BitVec.eq_of_toNat_eq (by
      rw [h] at hlow
      have hnone : (0 : BitVec 32).toNat=0 := rfl
      show a.toNat=0
      omega))
    obtain ⟨hlt,hle,hless⟩ := clz_bounds hne
    rw [hlow,Nat.mod_eq_of_lt hsmall] at hle hless
    refine (clz_unique (by omega) ?_ ?_).symm
    · rw [show 64-1-(32+((a&&&0xffffffff#64).setWidth 32).clz.toNat)=
        32-1-((a&&&0xffffffff#64).setWidth 32).clz.toNat by omega]
      exact hle
    · rw [show 64-(32+((a&&&0xffffffff#64).setWidth 32).clz.toNat)=
        32-((a&&&0xffffffff#64).setWidth 32).clz.toNat by omega]
      exact hless
  · rw [if_pos hzero]
    have hne : (a>>>32).setWidth 32≠0 := fun h => hzero (BitVec.eq_of_toNat_eq (by
      rw [h] at hhigh
      have hnone : (0 : BitVec 32).toNat=0 := rfl
      show _=0
      omega))
    obtain ⟨hlt,hle,hless⟩ := clz_bounds hne
    rw [hhigh] at hle hless
    generalize ((a>>>32).setWidth 32).clz.toNat=k at hlt hle hless ⊢
    refine (clz_unique (by omega) ?_ ?_).symm
    · rw [show 64-1-k=32-1-k+32 by omega,Nat.pow_add]
      generalize 2^(32-1-k)=y at hle ⊢
      omega
    · rw [show 64-k=32-k+32 by omega,Nat.pow_add]
      generalize 2^(32-k)=y at hless ⊢
      omega

/-- The product of words. -/
theorem wideMultiply32_eq (a b : BitVec 32) :
    (wideMultiply32 a b).1.toNat*2^32+(wideMultiply32 a b).2.toNat=a.toNat*b.toNat := by
  have ha := a.isLt
  have hb := b.isLt
  have hlt : a.toNat*b.toNat<2^32*2^32 := Nat.mul_lt_mul'' ha hb
  unfold wideMultiply32
  dsimp only
  rw [BitVec.toNat_setWidth,BitVec.toNat_setWidth,BitVec.toNat_ushiftRight,BitVec.toNat_mul,
    BitVec.toNat_setWidth,BitVec.toNat_setWidth,Nat.shiftRight_eq_div_pow]
  rw [Nat.mod_eq_of_lt (show a.toNat<2^64 by omega),Nat.mod_eq_of_lt (show b.toNat<2^64 by omega)]
  generalize a.toNat*b.toNat=m at hlt ⊢
  omega

/-- The product of double words by the products of their words: no carry is lost. -/
theorem wideMultiply64_eq (a b : BitVec 64) :
    (wideMultiply64 a b).1.toNat*2^64+(wideMultiply64 a b).2.toNat=a.toNat*b.toNat := by
  have hword : ∀ x y : BitVec 64, x.toNat<2^32 → y.toNat<2^32 →
      (x*y).toNat=x.toNat*y.toNat ∧ x.toNat*y.toNat≤(2^32-1)*(2^32-1) := fun x y hx hy => by
    have hle : x.toNat*y.toNat≤(2^32-1)*(2^32-1) := Nat.mul_le_mul (by omega) (by omega)
    rw [BitVec.toNat_mul]
    exact ⟨Nat.mod_eq_of_lt (by omega),hle⟩
  have hlow : ∀ x : BitVec 64, (loWord x).toNat<2^32 := fun x => by
    rw [toNat_loWord]
    exact Nat.mod_lt _ (by decide)
  have hhigh : ∀ x : BitVec 64, (hiWord x).toNat<2^32 := fun x => by
    have hmax := x.isLt
    rw [toNat_hiWord]
    omega
  have hparts : ∀ x : BitVec 64, x.toNat=(hiWord x).toNat*2^32+(loWord x).toNat := fun x => by
    rw [toNat_hiWord,toNat_loWord]
    omega
  obtain ⟨h1,b1⟩ := hword _ _ (hlow a) (hlow b)
  obtain ⟨h2,b2⟩ := hword _ _ (hlow a) (hhigh b)
  obtain ⟨h3,b3⟩ := hword _ _ (hhigh a) (hlow b)
  obtain ⟨h4,b4⟩ := hword _ _ (hhigh a) (hhigh b)
  have hproduct : a.toNat*b.toNat=(hiWord a).toNat*(hiWord b).toNat*2^64+
      ((loWord a).toNat*(hiWord b).toNat+(hiWord a).toNat*(loWord b).toNat)*2^32+
        (loWord a).toNat*(loWord b).toNat := by
    rw [hparts a,hparts b]
    ring
  unfold wideMultiply64
  dsimp only
  rw [hproduct,BitVec.toNat_add,BitVec.toNat_add,BitVec.toNat_add,BitVec.toNat_add,
    BitVec.toNat_shiftLeft,toNat_hiWord (_+_),BitVec.toNat_add,BitVec.toNat_add,
    toNat_hiWord (_*_),toNat_hiWord (_*_),toNat_hiWord (_*_),toNat_loWord (_*_),toNat_loWord (_*_),
    toNat_loWord (_*_),h1,h2,h3,h4,Nat.shiftLeft_eq]
  generalize (loWord a).toNat*(loWord b).toNat=plolo at b1 ⊢
  generalize (loWord a).toNat*(hiWord b).toNat=plohi at b2 ⊢
  generalize (hiWord a).toNat*(loWord b).toNat=philo at b3 ⊢
  generalize (hiWord a).toNat*(hiWord b).toNat=phihi at b4 ⊢
  omega

/-- Single precision, with the leading zeros of a word and a product of 64 bits. Both are what they
should be by definition. -/
def single : FpLib where
  significandBits := 23
  exponentBits := 8
  significand_pos := by decide
  exponent_four := by decide
  exponent_le := by decide
  repClz := fun a => a.clz.toNat
  wideMultiply := wideMultiply32
  repClz_eq := fun _ _ => rfl
  wideMultiply_eq := wideMultiply32_eq

/-- Double precision, where the leading zeros and the product are put together from those of
words. -/
def double : FpLib where
  significandBits := 52
  exponentBits := 11
  significand_pos := by decide
  exponent_four := by decide
  exponent_le := by decide
  repClz := repClz64
  wideMultiply := wideMultiply64
  repClz_eq := repClz64_eq
  wideMultiply_eq := wideMultiply64_eq

end Helpers

section Constants

variable {f : Precision}

/-- One in the width of the type. -/
theorem toNat_shifted_one {k : ℕ} (hk : k < f.typeWidth) : (1#f.typeWidth<<<k).toNat=2^k := by
  have hone : 1%2^f.typeWidth=1 := Nat.mod_eq_of_lt (Nat.one_lt_two_pow (by omega))
  rw [BitVec.toNat_shiftLeft,BitVec.toNat_ofNat,hone,Nat.shiftLeft_eq,Nat.one_mul]
  exact Nat.mod_eq_of_lt (Nat.pow_lt_pow_right Nat.one_lt_two hk)

/-- The value of `implicitBit`. -/
@[simp] theorem toNat_implicitBit : f.implicitBit.toNat=2^f.significandBits :=
  toNat_shifted_one (by unfold Precision.typeWidth; omega)

/-- The value of `signBit`. -/
@[simp] theorem toNat_signBit : f.signBit.toNat=2^(f.significandBits+f.exponentBits) :=
  toNat_shifted_one (Nat.lt_succ_self _)

/-- One less than a power of two. -/
theorem toNat_sub_one {x : f.Rep} {k : ℕ} (hx : x.toNat=2^k) : (x-1#f.typeWidth).toNat=2^k-1 := by
  have hpos := Nat.two_pow_pos k
  have hmax := x.isLt
  have hone : (1#f.typeWidth).toNat=1 := by
    rw [BitVec.toNat_ofNat]
    exact Nat.mod_eq_of_lt (Nat.one_lt_two_pow (Nat.succ_ne_zero _))
  rw [BitVec.toNat_sub_of_le (by rw [BitVec.le_def,hone]; omega),hx,hone]

/-- The value of `significandMask`. -/
@[simp] theorem toNat_significandMask : f.significandMask.toNat=2^f.significandBits-1 :=
  toNat_sub_one toNat_implicitBit

/-- The value of `absMask`. -/
@[simp] theorem toNat_absMask : f.absMask.toNat=2^(f.significandBits+f.exponentBits)-1 :=
  toNat_sub_one toNat_signBit

/-- The bits of the exponent alone. -/
theorem xor_masks (p e : ℕ) : (2^(p+e)-1)^^^(2^p-1)=(2^e-1)*2^p := by
  rw [←Nat.shiftLeft_eq]
  refine Nat.eq_of_testBit_eq fun i => ?_
  rw [Nat.testBit_xor,Nat.testBit_two_pow_sub_one,Nat.testBit_two_pow_sub_one,
    Nat.testBit_shiftLeft,Nat.testBit_two_pow_sub_one]
  grind

/-- The value of `infRep`. -/
@[simp] theorem toNat_infRep : f.infRep.toNat=(2^f.exponentBits-1)*2^f.significandBits := by
  unfold Precision.infRep
  rw [BitVec.toNat_xor,toNat_absMask,toNat_significandMask,xor_masks]

/-- The value of `maxExponent`. -/
theorem maxExponent_eq : f.maxExponent=2^f.exponentBits-1 := by
  unfold Precision.maxExponent
  rw [Nat.shiftLeft_eq,Nat.one_mul]

/-- The bits of the absolute value. -/
@[simp] theorem toNat_and_absMask (a : f.Rep) :
    (a&&&f.absMask).toNat=a.toNat%2^(f.significandBits+f.exponentBits) := by
  rw [BitVec.toNat_and,toNat_absMask,Nat.and_two_pow_sub_one_eq_mod]

/-- The bits of the significand. -/
@[simp] theorem toNat_and_significandMask (a : f.Rep) :
    (a&&&f.significandMask).toNat=a.toNat%2^f.significandBits := by
  rw [BitVec.toNat_and,toNat_significandMask,Nat.and_two_pow_sub_one_eq_mod]

/-- The exponent among the bits of the absolute value. -/
theorem exponent_eq (a : f.Rep) :
    exponent a=a.toNat%2^(f.significandBits+f.exponentBits)/2^f.significandBits := by
  unfold exponent
  rw [maxExponent_eq,Nat.and_two_pow_sub_one_eq_mod,Nat.shiftRight_eq_div_pow,Nat.pow_add,
    Nat.mod_mul_right_div_self]

/-- All exponents are below this bit. -/
theorem infRep_lt : f.infRep.toNat+2^f.significandBits=2^(f.significandBits+f.exponentBits) := by
  have hpos := Nat.one_le_two_pow (n := f.exponentBits)
  rw [toNat_infRep,Nat.add_comm f.significandBits,Nat.pow_add,Nat.sub_mul,Nat.one_mul]
  exact Nat.sub_add_cancel (Nat.le_mul_of_pos_left _ hpos)

/-- A flag is one bit. -/
theorem toNat_flag (x : f.Rep) : (flag x).toNat=if x.toNat=0 then 0 else 1 := by
  have hone : (1 : f.Rep).toNat=1 := Nat.mod_eq_of_lt (Nat.one_lt_two_pow (Nat.succ_ne_zero _))
  unfold flag
  by_cases hx : x=0
  · rw [if_pos hx,hx]
    rfl
  · have hne : x.toNat≠0 := fun hzero => hx (BitVec.eq_of_toNat_eq hzero)
    rw [if_neg hx,if_neg hne,hone]

/-- The bits that a shift to the right loses are those that a shift to the left keeps. -/
theorem shiftLeft_lost {x : f.Rep} {count : ℕ} (hcount : count≤f.typeWidth) :
    (x<<<(f.typeWidth-count)).toNat=0 ↔ x.toNat%2^count=0 := by
  have hwidth : 2^f.typeWidth=2^count*2^(f.typeWidth-count) := by
    rw [←Nat.pow_add,Nat.add_sub_cancel' hcount]
  rw [BitVec.toNat_shiftLeft,Nat.shiftLeft_eq,hwidth,Nat.mul_mod_mul_right,Nat.mul_eq_zero]
  exact or_iff_left (Nat.two_pow_pos _).ne'

end Constants

section Values

variable {f : Precision}

/-- The bits without the sign. Numbers of one sign are ordered as these are. -/
def absBits (a : f.Rep) : ℕ := a.toNat%2^(f.significandBits+f.exponentBits)

/-- NaN: the exponent of infinity, and a significand that is not zero. -/
def IsNaN (a : f.Rep) : Prop := f.infRep.toNat < absBits a

/-- A quiet NaN, in which the highest bit of the significand is set as well. -/
def IsQuiet (a : f.Rep) : Prop := f.qnanRep.toNat≤absBits a

/-- Infinity of either sign: nothing but the exponent is set. -/
def IsInf (a : f.Rep) : Prop := absBits a=f.infRep.toNat

/-- A number, normal or denormal or zero: the exponent has a bit that is not set. -/
def IsFinite (a : f.Rep) : Prop := absBits a < f.infRep.toNat

/-- Zero of either sign: no bit but the sign may be set. -/
def IsZero (a : f.Rep) : Prop := absBits a=0

/-- The least positive number. All numbers are multiples of it, so exact results are compared in
these units. -/
def unit (f : Precision) : ℚ := ((2^(f.exponentBias+f.significandBits-1) : ℕ) : ℚ)⁻¹

/-- The number that some bits stand for: magnitude and sign. NaN and infinities have none, and the
theorems do not ask for it. -/
def value (a : f.Rep) : ℚ :=
  if a.msb then -(magnitude f.significandBits (absBits a)*unit f)
  else magnitude f.significandBits (absBits a)*unit f

/-- The bits without the sign are a number nearest to the absolute value of `x`. Infinity counts as
the number after the greatest one. -/
def RoundsTo (x : ℚ) (r : f.Rep) : Prop :=
  Nearest f.significandBits f.infRep.toNat (|x|/unit f) (absBits r)

/-- The bits are some bits and a sign. Results are put together in this way. -/
def Signed (r : f.Rep) (s : Bool) (n : ℕ) : Prop :=
  r.toNat=n+if s then 2^(f.significandBits+f.exponentBits) else 0

/-- The sign as bits, ready to be or-ed to the bits of an absolute value. -/
def signRep (s : Bool) : f.Rep := if s then f.signBit else 0

/-- The least positive number is positive. -/
theorem unit_pos (f : Precision) : 0 < unit f :=
  inv_pos.2 (Nat.cast_pos.2 (Nat.two_pow_pos _))

/-- The absolute value of a number. -/
theorem abs_value (a : f.Rep) : |value a|=magnitude f.significandBits (absBits a)*unit f := by
  have hpos : (0 : ℚ) ≤ magnitude f.significandBits (absBits a)*unit f :=
    mul_nonneg (Nat.cast_nonneg _) (unit_pos f).le
  unfold value
  cases a.msb with
  | true => rw [if_pos rfl,abs_neg,abs_of_nonneg hpos]
  | false => rw [if_neg Bool.false_ne_true,abs_of_nonneg hpos]

/-- Bits below the sign are bits. -/
theorem absBits_lt (a : f.Rep) : absBits a<2^(f.significandBits+f.exponentBits) :=
  Nat.mod_lt _ (Nat.two_pow_pos _)

/-- Every number is some bits and a sign. -/
theorem signed_self (a : f.Rep) : Signed a a.msb (absBits a) := by
  have hmax : a.toNat<2*2^(f.significandBits+f.exponentBits) := by
    rw [←Nat.pow_succ']
    exact a.isLt
  have hmsb : a.msb=decide (2^(f.significandBits+f.exponentBits)≤a.toNat) :=
    BitVec.msb_eq_decide a
  unfold Signed absBits
  rw [hmsb]
  by_cases hle : 2^(f.significandBits+f.exponentBits)≤a.toNat
  · rw [if_pos (decide_eq_true hle),Nat.mod_eq_sub_mod hle,Nat.mod_eq_of_lt (by omega)]
    omega
  · rw [if_neg (by rw [decide_eq_false hle]; exact Bool.false_ne_true),
      Nat.mod_eq_of_lt (not_le.1 hle),Nat.add_zero]

/-- The bits and the sign of a number. -/
theorem Signed.parts {r : f.Rep} {s : Bool} {n : ℕ} (h : Signed r s n)
    (hn : n<2^(f.significandBits+f.exponentBits)) : absBits r=n ∧ r.msb=s := by
  have hmsb : r.msb=decide (2^(f.significandBits+f.exponentBits) ≤ r.toNat) :=
    BitVec.msb_eq_decide r
  unfold Signed at h
  unfold absBits
  rw [hmsb,h]
  cases s with
  | true => rw [if_pos rfl,Nat.add_mod_right,Nat.mod_eq_of_lt hn,decide_eq_true (by omega)]; simp
  | false =>
    rw [if_neg Bool.false_ne_true,Nat.add_zero,Nat.mod_eq_of_lt hn,decide_eq_false (by omega)]
    simp

/-- The sign of a number as bits. -/
theorem and_signBit (a : f.Rep) : a&&&f.signBit=signRep a.msb := by
  have hmsb : a.toNat.testBit (f.significandBits+f.exponentBits)=a.msb := by
    rw [BitVec.testBit_toNat]
    exact (BitVec.msb_eq_getLsbD_last a).symm
  refine BitVec.eq_of_toNat_eq ?_
  unfold signRep
  rw [BitVec.toNat_and,toNat_signBit,Nat.and_two_pow,hmsb]
  cases a.msb with
  | true => rw [if_pos rfl,toNat_signBit]; exact Nat.one_mul _
  | false => rw [if_neg Bool.false_ne_true]; exact Nat.zero_mul _

/-- A sign joins bits below it. -/
theorem signed_or {x : f.Rep} (s : Bool) (hx : x.toNat<2^(f.significandBits+f.exponentBits)) :
    Signed (x|||signRep s) s x.toNat := by
  unfold Signed signRep
  cases s with
  | true => rw [if_pos rfl,if_pos rfl,BitVec.toNat_or,toNat_signBit,Nat.or_two_pow_eq_add_of_lt hx]
  | false =>
    rw [if_neg Bool.false_ne_true,if_neg Bool.false_ne_true,Nat.add_zero]
    exact congrArg BitVec.toNat (BitVec.or_zero)

/-- The rounding of some bits leaves the sign alone, because the bits below it do not overflow. -/
theorem Signed.round {r : f.Rep} {s : Bool} {n low halfway : ℕ} {more half : Prop}
    [Decidable more] [Decidable half] (h : Signed r s n)
    (hn : n+1<2^(f.significandBits+f.exponentBits)) (hmore : more ↔ halfway < low)
    (hhalf : half ↔ low=halfway) :
    Signed (roundBy more half r) s (BinaryFormat.round n low halfway) := by
  have hpos : f.significandBits+f.exponentBits≠0 := by
    have hbits := f.significand_pos
    omega
  have hwidth : 2^f.typeWidth=2*2^(f.significandBits+f.exponentBits) := Nat.pow_succ'
  have heven : 2^(f.significandBits+f.exponentBits)%2=0 :=
    Nat.mod_eq_zero_of_dvd (dvd_pow_self 2 hpos)
  have hone : (1 : f.Rep).toNat=1 := Nat.mod_eq_of_lt (Nat.one_lt_two_pow (Nat.succ_ne_zero _))
  have hparity : r.toNat%2=n%2 := by
    rw [h]
    split <;> omega
  have hmax : r.toNat+1<2^f.typeWidth := by
    rw [h,hwidth]
    split <;> omega
  have hup : ∀ y : f.Rep, y.toNat≤1 → (r+y).toNat=r.toNat+y.toNat := fun y hy => by
    rw [BitVec.toNat_add,Nat.mod_eq_of_lt (by omega)]
  have hbit : (r&&&1).toNat=n%2 := by
    rw [BitVec.toNat_and,hone,Nat.and_one_is_mod,hparity]
  unfold roundBy BinaryFormat.round
  dsimp only
  by_cases hover : halfway < low
  · rw [if_pos (hmore.2 hover),if_neg fun heq => (hhalf.1 heq).not_gt hover,if_pos hover]
    unfold Signed
    rw [hup 1 hone.le,hone,h]
    omega
  · rw [if_neg (hmore.not.2 hover),if_neg hover]
    by_cases heq : low=halfway
    · rw [if_pos (hhalf.2 heq),if_pos heq]
      unfold Signed
      rw [hup _ (by omega),hbit,h]
      omega
    · rw [if_neg (hhalf.not.2 heq),if_neg heq]
      exact h

end Values

section Classes

variable {f : Precision}

/-- Infinity is not zero. -/
theorem infRep_pos : 0 < f.infRep.toNat := by
  have hbits := f.exponent_four
  have hfour : 2^4≤2^f.exponentBits := Nat.pow_le_pow_right Nat.two_pos hbits
  rw [toNat_infRep]
  exact Nat.mul_pos (by omega) (Nat.two_pow_pos _)

/-- How the code tells NaN. -/
theorem infRep_lt_iff (a : f.Rep) : f.infRep < a&&&f.absMask ↔ IsNaN a := by
  rw [BitVec.lt_def,toNat_and_absMask]
  exact Iff.rfl

/-- How the code tells infinity. -/
theorem eq_infRep_iff (a : f.Rep) : a&&&f.absMask=f.infRep ↔ IsInf a := by
  rw [←BitVec.toNat_inj,toNat_and_absMask]
  exact Iff.rfl

/-- How the code tells zero. -/
theorem eq_zero_iff (a : f.Rep) : a&&&f.absMask=0#f.typeWidth ↔ IsZero a := by
  rw [←BitVec.toNat_inj,toNat_and_absMask]
  exact Iff.rfl

/-- What is neither NaN nor infinity is a number. -/
theorem isFinite_iff {a : f.Rep} : IsFinite a ↔ ¬IsNaN a ∧ ¬IsInf a := by
  unfold IsFinite IsNaN IsInf
  omega

/-- Zero is a number. -/
theorem IsZero.isFinite {a : f.Rep} (h : IsZero a) : IsFinite a := by
  have hpos := infRep_pos (f := f)
  unfold IsZero at h
  unfold IsFinite
  omega

/-- The value of zero. -/
theorem value_zero {a : f.Rep} (h : IsZero a) : value a=0 := by
  have hzero : |value a|=0 := by
    unfold IsZero at h
    rw [abs_value,h,magnitude_low (Nat.two_pow_pos _),Nat.cast_zero,zero_mul]
  exact abs_eq_zero.1 hzero

/-- The quiet bit is among the bits of the significand. -/
theorem quietBit_lt : f.quietBit.toNat<2^f.significandBits := by
  unfold Precision.quietBit
  rw [BitVec.toNat_ushiftRight,toNat_implicitBit,Nat.shiftRight_eq_div_pow]
  exact Nat.div_lt_self (Nat.two_pow_pos _) Nat.one_lt_two

/-- NaN stays NaN, quiet. -/
theorem quiet_or {a : f.Rep} (h : IsNaN a) : IsQuiet (a|||f.quietBit) := by
  have hinf : f.infRep.toNat=2^f.significandBits*(2^f.exponentBits-1) := by
    rw [toNat_infRep,Nat.mul_comm]
  have htop := infRep_lt (f := f)
  have hmax := absBits_lt a
  have hquiet := quietBit_lt (f := f)
  unfold IsNaN at h
  have hrest : absBits a=f.infRep.toNat|||(absBits a-f.infRep.toNat) := by
    have hless : absBits a-f.infRep.toNat<2^f.significandBits := by omega
    rw [hinf] at hless h ⊢
    rw [←Nat.two_pow_add_eq_or_of_lt hless]
    omega
  have hvalue : absBits (a|||f.quietBit)=absBits a|||f.quietBit.toNat := by
    have hpow : 2^f.significandBits≤2^(f.significandBits+f.exponentBits) :=
      Nat.pow_le_pow_right Nat.two_pos (Nat.le_add_right _ _)
    unfold absBits
    rw [BitVec.toNat_or,Nat.or_mod_two_pow,Nat.mod_eq_of_lt (hquiet.trans_le hpow)]
  have hqnan : f.qnanRep.toNat=f.infRep.toNat|||f.quietBit.toNat := BitVec.toNat_or ..
  unfold IsQuiet
  rw [hvalue,hqnan,hrest,Nat.or_right_comm]
  exact Nat.left_le_or

/-- The NaN that the code makes is quiet. -/
theorem quiet_qnan : IsQuiet f.qnanRep := by
  have htop := infRep_lt (f := f)
  have hpos := Nat.two_pow_pos f.significandBits
  have hquiet := quietBit_lt (f := f)
  have hless : f.qnanRep.toNat<2^(f.significandBits+f.exponentBits) := by
    have hpow : 2^f.significandBits≤2^(f.significandBits+f.exponentBits) :=
      Nat.pow_le_pow_right Nat.two_pos (Nat.le_add_right _ _)
    unfold Precision.qnanRep
    rw [BitVec.toNat_or]
    exact Nat.or_lt_two_pow (by omega) (by omega)
  unfold IsQuiet absBits
  rw [Nat.mod_eq_of_lt hless]

/-- A power of two as a number. -/
theorem zpow_of_exponent {E : ℤ} {e : ℕ} (hE : E=e) (he : 0 < e) :
    (2 : ℚ)^(E-1)=((2^(e-1) : ℕ) : ℚ) := by
  obtain ⟨d,rfl⟩ : ∃ d, e=d+1 := ⟨e-1,by omega⟩
  rw [hE,Nat.cast_succ,add_sub_cancel_right,zpow_natCast,Nat.add_sub_cancel,Nat.cast_pow,
    Nat.cast_ofNat]

/-- Everything that is not less than the magnitude of infinity is rounded to infinity. -/
theorem nearest_infRep {y : ℚ} {E : ℤ} (hy : (2^f.significandBits : ℕ)≤y)
    (hE : f.maxExponent≤E) :
    Nearest f.significandBits f.infRep.toNat (y*(2 : ℚ)^(E-1)) f.infRep.toNat := by
  have hmax := maxExponent_eq (f := f)
  have hbits := f.exponent_four
  have hfour : 2^4≤2^f.exponentBits := Nat.pow_le_pow_right Nat.two_pos hbits
  have hmag : magnitude f.significandBits f.infRep.toNat=
      2^f.significandBits*2^(f.maxExponent-1) := by
    have hparts := magnitude_parts (p := f.significandBits) (e := f.maxExponent) (f := 0)
      (by omega) (Nat.two_pow_pos _)
    rw [toNat_infRep,←hmax,Nat.mul_comm]
    exact hparts
  have hpow : ((2^(f.maxExponent-1) : ℕ) : ℚ)≤(2 : ℚ)^(E-1) := by
    rw [←zpow_of_exponent rfl (show 0 < f.maxExponent by omega)]
    exact zpow_le_zpow_right₀ one_le_two (by omega)
  refine nearest_top ?_
  rw [hmag,Nat.cast_mul]
  exact mul_le_mul hy hpow (Nat.cast_nonneg _) ((Nat.cast_nonneg _).trans hy)

/-- A number that is a nearest one is below the sign. -/
theorem nearest_lt {x : ℚ} {n : ℕ} (h : Nearest f.significandBits f.infRep.toNat x n) :
    n<2^(f.significandBits+f.exponentBits) := by
  have htop := infRep_lt (f := f)
  have hpos := Nat.two_pow_pos f.significandBits
  have hle := h.1
  omega

end Classes

section Significands

variable {f : Precision} {l : FpLib}

/-- A significand with its implicit bit and an exponent stand for a magnitude. Denormal operands are
brought to this form. -/
structure Normalized (p sig : ℕ) (E : ℤ) (m : ℕ) : Prop where
  /-- The implicit bit is there. -/
  low : 2^p ≤ sig
  /-- It is the highest bit. -/
  high : sig<2^(p+1)
  /-- The magnitude. -/
  eq : (m : ℚ)=sig*(2 : ℚ)^(E-1)

/-- The implicit bit is set. -/
theorem or_implicitBit {x : f.Rep} (hx : x.toNat<2^f.significandBits) :
    (x|||f.implicitBit).toNat=2^f.significandBits+x.toNat := by
  rw [BitVec.toNat_or,toNat_implicitBit,Nat.or_two_pow_eq_add_of_lt hx,Nat.add_comm]

/-- The implicit bit is set already. -/
theorem or_implicitBit_self {x : f.Rep} (hlow : 2^f.significandBits≤x.toNat)
    (hhigh : x.toNat<2^(f.significandBits+1)) : (x|||f.implicitBit).toNat=x.toNat := by
  have hrest : x.toNat-2^f.significandBits<2^f.significandBits := by
    rw [Nat.pow_succ] at hhigh
    omega
  have hparts : x.toNat=(x.toNat-2^f.significandBits)|||2^f.significandBits := by
    rw [Nat.or_two_pow_eq_add_of_lt hrest]
    omega
  rw [BitVec.toNat_or,toNat_implicitBit,hparts,Nat.or_assoc,Nat.or_self]

/-- How the code asks for the highest bit of a number. -/
theorem and_bit_ne {x y : f.Rep} {k : ℕ} (hy : y.toNat=2^k) (hx : x.toNat<2^(k+1)) :
    x&&&y≠0#f.typeWidth ↔ 2^k≤x.toNat := by
  have hpos := Nat.two_pow_pos k
  have hsplit : 2^(k+1)=2^k*2 := Nat.pow_succ _ _
  have hquot : x.toNat/2^k<2 := Nat.div_lt_of_lt_mul (hsplit▸hx)
  have hvalue : (x&&&y).toNat=x.toNat/2^k*2^k := by
    rw [BitVec.toNat_and,hy,Nat.and_two_pow,Nat.testBit_eq_decide_div_mod_eq,
      Nat.mod_eq_of_lt hquot]
    generalize x.toNat/2^k=q at hquot ⊢
    interval_cases q <;> rfl
  have hzero : x&&&y=0#f.typeWidth ↔ x.toNat/2^k=0 := by
    rw [←BitVec.toNat_inj,hvalue]
    show _*_=0 ↔ _
    rw [Nat.mul_eq_zero]
    exact or_iff_left hpos.ne'
  rw [ne_eq,hzero,Nat.div_eq_zero_iff_lt hpos]
  exact not_lt

/-- A normal number. -/
theorem normal_spec {a : f.Rep} (h : 2^f.significandBits≤absBits a) :
    Normalized f.significandBits ((a&&&f.significandMask)|||f.implicitBit).toNat (exponent a)
      (magnitude f.significandBits (absBits a)) := by
  have hlow : (a&&&f.significandMask).toNat<2^f.significandBits := by
    rw [toNat_and_significandMask]
    exact Nat.mod_lt _ (Nat.two_pow_pos _)
  have hsig : absBits a%2^f.significandBits=(a&&&f.significandMask).toNat := by
    unfold absBits
    rw [toNat_and_significandMask,Nat.mod_mod_of_dvd _ (Nat.pow_dvd_pow 2 (Nat.le_add_right _ _))]
  have hexp : exponent a=absBits a/2^f.significandBits := exponent_eq a
  have hpos : 0 < exponent a := by
    rw [hexp]
    exact Nat.div_pos h (Nat.two_pow_pos _)
  have hparts : absBits a=2^f.significandBits*exponent a+(a&&&f.significandMask).toNat := by
    rw [hexp,←hsig,Nat.div_add_mod]
  obtain ⟨d,hd⟩ : ∃ d, exponent a=d+1 := ⟨exponent a-1,by omega⟩
  rw [or_implicitBit hlow]
  refine ⟨Nat.le_add_right _ _,by rw [Nat.pow_succ]; omega,?_⟩
  rw [hparts,magnitude_parts hpos hlow,hd,Nat.add_sub_cancel,Nat.cast_succ,add_sub_cancel_right,
    zpow_natCast,Nat.cast_mul,Nat.cast_pow,Nat.cast_ofNat]

/-- A denormal number has no exponent. -/
theorem exponent_denormal {a : f.Rep} (h : absBits a<2^f.significandBits) : exponent a=0 := by
  rw [exponent_eq]
  exact Nat.div_eq_of_lt h

/-- The significand of a denormal number is the whole of it. -/
theorem significand_denormal {a : f.Rep} (h : absBits a<2^f.significandBits) :
    (a&&&f.significandMask).toNat=absBits a := by
  rw [toNat_and_significandMask,←Nat.mod_eq_of_lt h]
  unfold absBits
  rw [Nat.mod_mod_of_dvd _ (Nat.pow_dvd_pow 2 (Nat.le_add_right _ _))]

/-- A significand below its exponent: the bits, and their magnitude. The implicit bit is masked out
of the bits and counts in the magnitude. -/
theorem exponent_joined {x : f.Rep} {e : ℕ} (hlow : 2^f.significandBits≤x.toNat)
    (hhigh : x.toNat<2^(f.significandBits+1)) (he : 0 < e) (he' : e < f.maxExponent) :
    ∃ n, (x&&&f.significandMask|||BitVec.ofNat f.typeWidth e<<<f.significandBits).toNat=n ∧
      n < f.infRep.toNat ∧ n/2^f.significandBits=e ∧
      magnitude f.significandBits n=x.toNat*2^(e-1) := by
  have hmax := maxExponent_eq (f := f)
  have hpos := Nat.two_pow_pos f.significandBits
  have hsplit : 2^(f.significandBits+1)=2*2^f.significandBits := Nat.pow_succ'
  have htop := infRep_lt (f := f)
  have hinf := toNat_infRep (f := f)
  have hrest : x.toNat-2^f.significandBits<2^f.significandBits := by omega
  have hbelow : 2^f.significandBits*e+(x.toNat-2^f.significandBits) < f.infRep.toNat := by
    calc 2^f.significandBits*e+(x.toNat-2^f.significandBits)
        < 2^f.significandBits*e+2^f.significandBits := by omega
      _ = 2^f.significandBits*(e+1) := by ring
      _ ≤ 2^f.significandBits*(2^f.exponentBits-1) := Nat.mul_le_mul_left _ (by omega)
      _ = f.infRep.toNat := by rw [hinf,Nat.mul_comm]
  have hmask : (x&&&f.significandMask).toNat=x.toNat-2^f.significandBits := by
    rw [toNat_and_significandMask,Nat.mod_eq_sub_mod hlow,Nat.mod_eq_of_lt hrest]
  have hexp : (BitVec.ofNat f.typeWidth e<<<f.significandBits).toNat=2^f.significandBits*e := by
    have hwidth : 2^f.typeWidth=2*2^(f.significandBits+f.exponentBits) := Nat.pow_succ'
    have hless : 2^f.significandBits*e<2^f.typeWidth := by omega
    have hless' : e<2^f.typeWidth :=
      (Nat.le_mul_of_pos_left e (Nat.two_pow_pos f.significandBits)).trans_lt hless
    rw [BitVec.toNat_shiftLeft,BitVec.toNat_ofNat,Nat.mod_eq_of_lt hless',Nat.shiftLeft_eq,
      Nat.mul_comm,Nat.mod_eq_of_lt hless]
  refine ⟨2^f.significandBits*e+(x.toNat-2^f.significandBits),?_,hbelow,?_,?_⟩
  · rw [BitVec.toNat_or,hmask,hexp,Nat.or_comm,←Nat.two_pow_add_eq_or_of_lt hrest]
  · rw [Nat.mul_add_div hpos,Nat.div_eq_of_lt hrest,Nat.add_zero]
  · rw [magnitude_parts he hrest,Nat.add_sub_cancel' hlow]

/-- The difference of the leading zeros moves the highest bit of a number to that of a power of
two. -/
theorem clz_align {x y : l.Rep} {k : ℕ} (hx : 0 < x.toNat) (hy : y.toNat=2^k)
    (hk : k < l.typeWidth) (hless : x.toNat<2^k) :
    ∃ j : ℕ, 0 < j ∧ j≤k ∧ (l.repClz x : ℤ)-l.repClz y=j ∧ 2^k≤x.toNat*2^j ∧
      x.toNat*2^j<2^(k+1) := by
  have hne : x≠0#l.typeWidth := fun hzero => by
    rw [hzero] at hx
    exact absurd hx (Nat.lt_irrefl _)
  have hne' : y≠0#l.typeWidth := fun hzero => by
    rw [hzero] at hy
    exact absurd hy.symm (Nat.two_pow_pos _).ne'
  have hbit : y.clz.toNat=l.typeWidth-1-k := by
    refine clz_unique (by omega) ?_ ?_
    · rw [hy]
      exact Nat.pow_le_pow_right Nat.two_pos (by omega)
    · rw [hy]
      exact Nat.pow_lt_pow_right Nat.one_lt_two (by omega)
  obtain ⟨hclz,hle,hlt⟩ := clz_bounds hne
  have hmore := (Nat.pow_lt_pow_iff_right Nat.one_lt_two).1 (hle.trans_lt hless)
  obtain ⟨j,hj⟩ : ∃ j, x.clz.toNat=l.typeWidth-1-k+j :=
    Nat.exists_eq_add_of_le (by omega)
  rw [hj] at hclz hle hlt hmore
  have hsplit : 2^k=2^(l.typeWidth-1-(l.typeWidth-1-k+j))*2^j := by
    rw [←Nat.pow_add]
    congr 1
    omega
  have hsplit' : 2^(k+1)=2^(l.typeWidth-(l.typeWidth-1-k+j))*2^j := by
    rw [←Nat.pow_add]
    congr 1
    omega
  refine ⟨j,by omega,by omega,?_,?_,?_⟩
  · rw [l.repClz_eq x hne,l.repClz_eq y hne',hbit,hj,Nat.cast_add,add_sub_cancel_left]
  · rw [hsplit]
    exact Nat.mul_le_mul_right _ hle
  · rw [hsplit']
    exact Nat.mul_lt_mul_of_pos_right hlt (Nat.two_pow_pos _)

/-- `normalize` moves the highest bit to the place of the implicit bit, and returns the exponent
that this makes of it. -/
theorem normalize_spec (significand : l.Rep) (hpos : 0 < significand.toNat)
    (hlow : significand.toNat<2^l.significandBits) :
    Normalized l.significandBits (normalize l significand).1.toNat (normalize l significand).2
      significand.toNat := by
  have hwidth : l.typeWidth=l.significandBits+l.exponentBits+1 := rfl
  have hexponent := l.exponent_four
  obtain ⟨j,hj,hjp,hshift,hle,hhigh⟩ := clz_align hpos (toNat_implicitBit (f := l.toPrecision))
    (by omega) hlow
  have hvalue : (significand<<<j).toNat=significand.toNat*2^j := by
    rw [BitVec.toNat_shiftLeft,Nat.shiftLeft_eq]
    exact Nat.mod_eq_of_lt (hhigh.trans_le (Nat.pow_le_pow_right Nat.two_pos (by omega)))
  unfold normalize
  dsimp only
  rw [hshift,Int.toNat_natCast,hvalue]
  refine ⟨hle,hhigh,?_⟩
  have hexp : (1 : ℤ)-j-1=-(j : ℤ) := by ring
  rw [hexp,zpow_neg,zpow_natCast,Nat.cast_mul,Nat.cast_pow,Nat.cast_ofNat]
  exact (mul_inv_cancel_right₀ (pow_ne_zero _ two_ne_zero) _).symm

/-- A denormal number is normalized. -/
theorem denormal_spec {a : l.Rep} (hzero : ¬IsZero a) (h : absBits a<2^l.significandBits) :
    Normalized l.significandBits
      ((normalize l (a&&&l.significandMask)).1|||l.implicitBit).toNat
      (normalize l (a&&&l.significandMask)).2 (magnitude l.significandBits (absBits a)) := by
  have hsignificand := significand_denormal h
  have hnormal := normalize_spec (a&&&l.significandMask)
    (by rw [hsignificand]; exact Nat.pos_of_ne_zero hzero) (by rw [hsignificand]; exact h)
  rw [hsignificand] at hnormal
  rw [or_implicitBit_self hnormal.low hnormal.high,magnitude_low h]
  exact hnormal

end Significands

end RigelTarget.SoftFloat
