import RigelTarget.SoftFloat

/-!
# Soft-float multiplication

`__mulsf3` and `__muldf3` are one text over `fp_lib.h` but for the underflow, which the second one
cuts short. They multiply the significands, one of them aligned to the left, as whole numbers of two
words; the high word is the significand of the product and the low word what rounding drops.
-/

namespace RigelTarget.SoftFloatMultiply

open BinaryFormat DoubleWord SoftFloat

section Code

variable {f : Precision}

/-- `aExponent-1U >= maxExponent-1U`: zero, denormal, infinity or NaN. -/
def outside (a : f.Rep) : Prop :=
  BitVec.ofNat 32 f.maxExponent-1#32≤BitVec.ofNat 32 (exponent a)-1#32

instance (a : f.Rep) : Decidable (outside a) := by
  unfold outside
  infer_instance

/-- `productSign`. -/
def productSign (a b : f.Rep) : f.Rep := (a^^^b)&&&f.signBit

/-- The returns for NaN, infinity and zero, in the order of the source. Denormal numbers are left
for the multiplication. -/
def special (a b : f.Rep) : Option f.Rep :=
  let aAbs := a&&&f.absMask
  let bAbs := b&&&f.absMask
  if f.infRep < aAbs then some (a|||f.quietBit)
  else if f.infRep < bAbs then some (b|||f.quietBit)
  else if aAbs=f.infRep then
    if bAbs≠0#f.typeWidth then some (aAbs|||productSign a b) else some f.qnanRep
  else if bAbs=f.infRep then
    if aAbs≠0#f.typeWidth then some (bAbs|||productSign a b) else some f.qnanRep
  else if aAbs=0#f.typeWidth then some (productSign a b)
  else if bAbs=0#f.typeWidth then some (productSign a b)
  else none

/-- `if (aAbs < implicitBit) scale += normalize(&aSignificand);`: the significand and what is added
to the scale. -/
def renormalize (l : FpLib) (a : l.Rep) : l.Rep×ℤ :=
  if a&&&l.absMask < l.implicitBit then normalize l (a&&&l.significandMask)
  else (a&&&l.significandMask,0)

/-- The rounding of a high word by the low one. -/
def roundWide (hi lo : f.Rep) : f.Rep := roundBy (f.signBit < lo) (lo=f.signBit) hi

/-- From the overflow to the end. The function of double precision returns zero early when the
significand is shifted by its width or more. -/
def finish (early : Bool) (beyond : f.Rep → ℕ → f.Rep) (productExponent : ℤ)
    (productHi productLo productSign : f.Rep) : f.Rep :=
  if f.maxExponent≤productExponent then f.infRep|||productSign
  else if productExponent≤0 then
    let shift := (1-productExponent).toNat
    if early=true ∧ f.typeWidth ≤ shift then productSign
    else
      let wide := wideRightShiftWithSticky beyond productHi productLo shift
      roundWide (wide.1|||productSign) wide.2
  else
    let productHi := productHi&&&f.significandMask|||
      BitVec.ofNat f.typeWidth productExponent.toNat<<<f.significandBits
    roundWide (productHi|||productSign) productLo

/-- From the implicit bits to the end: the product of the significands in two words, one shift to
the left if it needs it, overflow, underflow and the rounding. -/
def multiply (l : FpLib) (early : Bool) (beyond : l.Rep → ℕ → l.Rep) (aExponent bExponent : ℕ)
    (scale : ℤ) (aSignificand bSignificand productSign : l.Rep) : l.Rep :=
  let aSignificand := aSignificand|||l.implicitBit
  let bSignificand := bSignificand|||l.implicitBit
  let product := l.wideMultiply aSignificand (bSignificand<<<l.exponentBits)
  let productExponent : ℤ := aExponent+bExponent-l.exponentBias+scale
  if product.1&&&l.implicitBit≠0 then
    finish early beyond (productExponent+1) product.1 product.2 productSign
  else
    let wide := wideLeftShift product.1 product.2 1
    finish early beyond productExponent wide.1 wide.2 productSign

/-- The multiplication over the header, for both precisions. The functions of the library are this
one at their precision. -/
def mulf3 (l : FpLib) (early : Bool) (beyond : l.Rep → ℕ → l.Rep) (a b : l.Rep) : l.Rep :=
  if outside a ∨ outside b then
    match special a b with
    | some result => result
    | none =>
      let aNormal := renormalize l a
      let bNormal := renormalize l b
      multiply l early beyond (exponent a) (exponent b) (aNormal.2+bNormal.2) aNormal.1 bNormal.1
        (productSign a b)
  else
    multiply l early beyond (exponent a) (exponent b) 0 (a&&&l.significandMask)
      (b&&&l.significandMask) (productSign a b)

/-- `__mulsf3`. -/
def mulsf3 (beyond : BitVec 32 → ℕ → BitVec 32) (a b : BitVec 32) : BitVec 32 :=
  mulf3 single false beyond a b

/-- `__muldf3`. -/
def muldf3 (beyond : BitVec 64 → ℕ → BitVec 64) (a b : BitVec 64) : BitVec 64 :=
  mulf3 double true beyond a b

end Code

section Wide

variable {f : Precision} {hi lo : f.Rep}

/-- The number in two words. -/
def wideValue (hi lo : f.Rep) : ℕ := hi.toNat*2^f.typeWidth+lo.toNat

/-- The high word and the low one of the number. -/
theorem wideValue_parts (hi lo : f.Rep) :
    wideValue hi lo/2^f.typeWidth=hi.toNat ∧ wideValue hi lo%2^f.typeWidth=lo.toNat := by
  have hlow := lo.isLt
  unfold wideValue
  rw [Nat.mul_comm,Nat.mul_add_div (Nat.two_pow_pos _),Nat.mul_add_mod,Nat.div_eq_of_lt hlow,
    Nat.mod_eq_of_lt hlow]
  exact ⟨Nat.add_zero _,rfl⟩

/-- A shift to the left by one doubles the number. -/
theorem wideLeftShift_spec (lo : f.Rep) (h : hi.toNat<2^(f.typeWidth-1)) :
    wideValue (wideLeftShift hi lo 1).1 (wideLeftShift hi lo 1).2=2*wideValue hi lo := by
  have hmove := shiftLeft_le (w := f.typeWidth) (s := 1) (Nat.succ_le_succ (Nat.zero_le _)) hi lo
  have hlow := lo.isLt
  have hhalf : 2^f.typeWidth=2*2^(f.typeWidth-1) := Nat.pow_succ'
  have hfit : 2*wideValue hi lo<2^(f.typeWidth+f.typeWidth) := by
    calc 2*wideValue hi lo < 2*((hi.toNat+1)*2^f.typeWidth) := by
          unfold wideValue
          rw [Nat.add_mul,Nat.one_mul]
          omega
      _ ≤ 2*(2^(f.typeWidth-1)*2^f.typeWidth) :=
        Nat.mul_le_mul_left _ (Nat.mul_le_mul_right _ h)
      _ = 2^(f.typeWidth+f.typeWidth) := by
        rw [←Nat.mul_assoc,←hhalf,←Nat.pow_add]
  unfold wideLeftShift
  dsimp only
  unfold wideValue at hfit ⊢
  rw [←toNat_words,←toNat_words,←hmove,BitVec.toNat_shiftLeft,Nat.shiftLeft_eq,Nat.pow_one,
    toNat_words,Nat.mod_eq_of_lt (by omega),Nat.mul_comm]

/-- The rounding of a high word leaves the sign alone. -/
theorem signed_roundWide (lo : f.Rep) {s : Bool} {n : ℕ} (h : Signed hi s n)
    (hn : n+1<2^(f.significandBits+f.exponentBits)) :
    Signed (roundWide hi lo) s
      (BinaryFormat.round n lo.toNat (2^(f.significandBits+f.exponentBits))) := by
  refine h.round hn ?_ ?_
  · rw [BitVec.lt_def,toNat_signBit]
  · rw [←BitVec.toNat_inj,toNat_signBit]

/-- A shift to the right by less than a word is the sticky form of the number: what falls out is
kept in the last bit. -/
theorem wideRightShift_lt (hi lo : f.Rep) (beyond : f.Rep → ℕ → f.Rep) {count : ℕ}
    (hpos : 0 < count) (hcount : count < f.typeWidth) :
    wideValue (wideRightShiftWithSticky beyond hi lo count).1
      (wideRightShiftWithSticky beyond hi lo count).2=sticky (wideValue hi lo) count := by
  have hmove := ushiftRight_le hcount.le hi lo
  have hless : f.typeWidth-count < f.typeWidth := by omega
  have hwidth : 2^f.typeWidth=2^count*2^(f.typeWidth-count) := by
    rw [←Nat.pow_add,Nat.add_sub_cancel' hcount.le]
  have hlost : (lo<<<(f.typeWidth-count)).toNat=0 ↔ wideValue hi lo%2^count=0 := by
    unfold wideValue
    rw [shiftLeft_lost hcount.le,hwidth,Nat.mul_left_comm,Nat.mul_add_mod]
  unfold wideRightShiftWithSticky shiftLeft
  rw [if_pos hcount,if_pos hless,if_pos hless]
  dsimp only
  unfold sticky
  have hbelow : (flag (lo<<<(f.typeWidth-count))).toNat=
      if wideValue hi lo%2^count=0 then 0 else 1 := by
    rw [toNat_flag]
    exact if_congr hlost rfl rfl
  have hzero : hi>>>count=hi>>>count|||0#f.typeWidth := BitVec.or_zero.symm
  unfold wideValue at hbelow ⊢
  rw [hzero,←toNat_words,←BitVec.or_append,←hmove,BitVec.toNat_or,BitVec.toNat_ushiftRight,
    Nat.shiftRight_eq_div_pow,toNat_words,toNat_words,hbelow,
    BitVec.toNat_ofNat,Nat.zero_mod,Nat.zero_mul,Nat.zero_add]

/-- A shift to the right by a word or more leaves less than half. -/
theorem wideRightShift_ge (lo : f.Rep) (beyond : f.Rep → ℕ → f.Rep) {count : ℕ}
    (hhigh : hi.toNat<2^(f.significandBits+1)) (hcount : f.typeWidth ≤ count) :
    (wideRightShiftWithSticky beyond hi lo count).1=0 ∧
      (wideRightShiftWithSticky beyond hi lo count).2.toNat<
        2^(f.significandBits+f.exponentBits) := by
  have hbits := f.exponent_four
  have hsmall : 2^(f.significandBits+1)≤2^(f.significandBits+f.exponentBits) :=
    Nat.pow_le_pow_right Nat.two_pos (by omega)
  have htwo : 2≤2^(f.significandBits+1) := Nat.le_self_pow (Nat.succ_ne_zero _) 2
  have hflag : ∀ x : f.Rep, (flag x).toNat<2^(f.significandBits+1) := fun x => by
    rw [toNat_flag]
    split <;> omega
  have hmoved : ∀ k : ℕ, (hi>>>k).toNat<2^(f.significandBits+1) := fun k => by
    rw [BitVec.toNat_ushiftRight,Nat.shiftRight_eq_div_pow]
    exact (Nat.div_le_self _ _).trans_lt hhigh
  unfold wideRightShiftWithSticky
  rw [if_neg (not_lt.2 hcount)]
  by_cases hmore : count<2*f.typeWidth
  · rw [if_pos hmore]
    refine ⟨rfl,?_⟩
    dsimp only
    rw [BitVec.toNat_or]
    exact (Nat.or_lt_two_pow (hmoved _) (hflag _)).trans_le hsmall
  · rw [if_neg hmore]
    exact ⟨rfl,(hflag _).trans_le hsmall⟩

end Wide

section Finish

variable {f : Precision} {hi lo : f.Rep} {E : ℤ}

/-- Overflow: the product is at least the magnitude of infinity. -/
theorem finish_overflow (hlow : 2^f.significandBits≤hi.toNat) (hE : f.maxExponent≤E) :
    Nearest f.significandBits f.infRep.toNat
      ((wideValue hi lo : ℚ)/(2^f.typeWidth : ℕ)*(2 : ℚ)^(E-1)) f.infRep.toNat := by
  have hwidth : (0 : ℚ)<(2^f.typeWidth : ℕ) := Nat.cast_pos.2 (Nat.two_pow_pos _)
  refine nearest_infRep ?_ hE
  rw [le_div_iff₀ hwidth,←Nat.cast_mul,Nat.cast_le]
  exact (Nat.mul_le_mul_right _ hlow).trans (Nat.le_add_right _ _)

/-- Underflow: the significand moves to the right with a sticky bit, and the rounding is that of the
exact product. -/
theorem finish_underflow (beyond : f.Rep → ℕ → f.Rep) (hlow : 2^f.significandBits≤hi.toNat)
    (hhigh : hi.toNat<2^(f.significandBits+1)) (hE : E≤0) (early s : Bool) :
    ∃ n, Signed (finish early beyond E hi lo (signRep s)) s n ∧
      Nearest f.significandBits f.infRep.toNat
        ((wideValue hi lo : ℚ)/(2^f.typeWidth : ℕ)*(2 : ℚ)^(E-1)) n := by
  obtain ⟨count,rfl⟩ : ∃ count : ℕ, E=1-(count : ℤ) := ⟨(1-E).toNat,by omega⟩
  have hcount : (1-(1-(count : ℤ))).toNat=count := by omega
  have hexp : (1 : ℤ)-count-1=-(count : ℤ) := by ring
  have hmax := maxExponent_eq (f := f)
  have htop := infRep_lt (f := f)
  have hbits := f.exponent_four
  have hfour : 2^4≤2^f.exponentBits := Nat.pow_le_pow_right Nat.two_pos hbits
  have hinf : 2^f.significandBits < f.infRep.toNat := by
    rw [toNat_infRep]
    have hpos := Nat.two_pow_pos f.significandBits
    nlinarith [Nat.sub_add_cancel (show 1≤2^f.exponentBits by omega)]
  have hone : 1≤f.significandBits := f.significand_pos
  have hx : (wideValue hi lo : ℚ)/(2^f.typeWidth : ℕ)*(2 : ℚ)^((1 : ℤ)-count-1)=
      wideValue hi lo/(2^count : ℕ)/(2^f.typeWidth : ℕ) := by
    rw [hexp,zpow_neg,zpow_natCast,←div_eq_mul_inv,Nat.cast_pow 2 count,Nat.cast_ofNat,
      div_right_comm]
  rw [hx]
  unfold finish
  rw [if_neg (by omega),if_pos hE,hcount]
  dsimp only
  by_cases hless : count < f.typeWidth
  · have hshifted : (wideRightShiftWithSticky beyond hi lo count).1=hi>>>count := by
      unfold wideRightShiftWithSticky
      rw [if_pos hless]
    have hhi : (wideRightShiftWithSticky beyond hi lo count).1.toNat<2^f.significandBits := by
      rw [hshifted,BitVec.toNat_ushiftRight,Nat.shiftRight_eq_div_pow]
      refine Nat.div_lt_of_lt_mul (hhigh.trans_le ?_)
      rw [←Nat.pow_add]
      exact Nat.pow_le_pow_right Nat.two_pos (by omega)
    have hwide := wideRightShift_lt hi lo beyond (by omega) hless
    obtain ⟨h1,h2⟩ := wideValue_parts (wideRightShiftWithSticky beyond hi lo count).1
      (wideRightShiftWithSticky beyond hi lo count).2
    rw [hwide] at h1 h2
    have hdiv := Nat.div_eq_of_lt hhi
    have hagrees := (agrees_self 0 (wideValue hi lo)).sticky (Nat.zero_le (count+1))
    have hnear := nearest_round (p := f.significandBits)
      (r := f.typeWidth) (Nat.succ_lt_succ (by omega)) hagrees
      (by rw [h1,hdiv,magnitude_low hhi]; exact (Nat.mul_one _).symm) (hhi.trans hinf)
    have hunit : ((2^(0-1) : ℕ) : ℚ)=1 := Nat.cast_one
    rw [hdiv,h2,hunit,mul_one] at hnear
    refine ⟨_,?_,hnear⟩
    rw [if_neg (by omega)]
    exact signed_roundWide _ (signed_or s (by omega)) (by omega)
  · have hwidth : f.typeWidth ≤ count := not_lt.1 hless
    have hsmall : 2*((wideValue hi lo : ℚ)/(2^count : ℕ)/(2^f.typeWidth : ℕ))<1 := by
      have hlo := lo.isLt
      have hbits' : f.typeWidth=f.significandBits+f.exponentBits+1 := rfl
      have hvalue : 2*wideValue hi lo<2^count*2^f.typeWidth := by
        calc 2*wideValue hi lo < 2*((hi.toNat+1)*2^f.typeWidth) := by
              unfold wideValue
              rw [Nat.add_mul,Nat.one_mul]
              omega
          _ ≤ 2*(2^(f.significandBits+1)*2^f.typeWidth) :=
            Nat.mul_le_mul_left _ (Nat.mul_le_mul_right _ hhigh)
          _ = 2^(f.significandBits+2)*2^f.typeWidth := by ring
          _ ≤ 2^count*2^f.typeWidth :=
            Nat.mul_le_mul_right _ (Nat.pow_le_pow_right Nat.two_pos (by omega))
      have hpos : (0 : ℚ)<(2^count*2^f.typeWidth : ℕ) :=
        Nat.cast_pos.2 (Nat.mul_pos (Nat.two_pow_pos _) (Nat.two_pow_pos _))
      rw [div_div,←mul_div_assoc,←Nat.cast_mul,div_lt_one hpos]
      exact_mod_cast hvalue
    refine ⟨0,?_,nearest_zero hsmall⟩
    by_cases hearly : early=true
    · rw [if_pos ⟨hearly,hwidth⟩]
      unfold Signed signRep
      cases s with
      | true => rw [if_pos rfl,if_pos rfl,toNat_signBit,Nat.zero_add]
      | false => rw [if_neg Bool.false_ne_true,if_neg Bool.false_ne_true]; rfl
    · obtain ⟨h1,h2⟩ := wideRightShift_ge lo beyond hhigh hwidth
      rw [if_neg fun h => hearly h.1,h1]
      have hsigned := signed_roundWide (wideRightShiftWithSticky beyond hi lo count).2
        (signed_or (x := (0 : f.Rep)) s (Nat.two_pow_pos _))
        (Nat.one_lt_two_pow (show f.significandBits+f.exponentBits≠0 by omega))
      have hdown : BinaryFormat.round (0 : f.Rep).toNat
          (wideRightShiftWithSticky beyond hi lo count).2.toNat
            (2^(f.significandBits+f.exponentBits))=0 := by
        unfold BinaryFormat.round
        rw [if_neg (not_lt.2 h2.le),if_neg h2.ne]
        rfl
      rw [hdown] at hsigned
      exact hsigned

/-- A normal result. -/
theorem finish_normal (beyond : f.Rep → ℕ → f.Rep) (hlow : 2^f.significandBits≤hi.toNat)
    (hhigh : hi.toNat<2^(f.significandBits+1)) (hE : 0 < E) (hE' : E < f.maxExponent)
    (early s : Bool) :
    ∃ n, Signed (finish early beyond E hi lo (signRep s)) s n ∧
      Nearest f.significandBits f.infRep.toNat
        ((wideValue hi lo : ℚ)/(2^f.typeWidth : ℕ)*(2 : ℚ)^(E-1)) n := by
  obtain ⟨e,rfl⟩ : ∃ e : ℕ, E=e := ⟨E.toNat,by omega⟩
  have he : 0 < e := by omega
  have hpos := Nat.two_pow_pos f.significandBits
  have hbits := f.significand_pos
  have htop := infRep_lt (f := f)
  obtain ⟨n,hn,hbelow,hdiv,hmag⟩ := exponent_joined hlow hhigh he (by omega)
  obtain ⟨h1,h2⟩ := wideValue_parts hi lo
  have hnear := nearest_round (p := f.significandBits) (n := n)
    (r := f.typeWidth) (Nat.succ_pos _) (agrees_self 0 (wideValue hi lo)) (by rw [h1,hdiv,hmag])
    hbelow
  rw [hdiv,h2,←zpow_of_exponent rfl he] at hnear
  refine ⟨_,?_,hnear⟩
  have hsigned := signed_or (x := hi&&&f.significandMask|||
    BitVec.ofNat f.typeWidth e<<<f.significandBits) s (by rw [hn]; omega)
  rw [hn] at hsigned
  unfold finish
  rw [if_neg (by omega),if_neg (by omega)]
  exact signed_roundWide _ hsigned (by omega)

/-- The end of the multiplication rounds the product to nearest. -/
theorem finish_spec (lo : f.Rep) (E : ℤ) (beyond : f.Rep → ℕ → f.Rep)
    (hlow : 2^f.significandBits≤hi.toNat) (hhigh : hi.toNat<2^(f.significandBits+1))
    (early s : Bool) :
    ∃ n, Signed (finish early beyond E hi lo (signRep s)) s n ∧
      Nearest f.significandBits f.infRep.toNat
        ((wideValue hi lo : ℚ)/(2^f.typeWidth : ℕ)*(2 : ℚ)^(E-1)) n := by
  by_cases hover : f.maxExponent≤E
  · refine ⟨_,?_,finish_overflow hlow hover⟩
    have hpos := Nat.two_pow_pos f.significandBits
    have htop := infRep_lt (f := f)
    unfold finish
    rw [if_pos hover]
    exact signed_or s (by omega)
  · by_cases hunder : E≤0
    · exact finish_underflow beyond hlow hhigh hunder early s
    · exact finish_normal beyond hlow hhigh (not_le.1 hunder) (not_le.1 hover) early s

end Finish

section Product

variable {l : FpLib} {aSignificand bSignificand : l.Rep} {mA mB : ℕ} {Ea Eb : ℤ}

/-- The least positive number as a power of two. -/
theorem unit_eq (f : Precision) :
    unit f=(2 : ℚ)^(1-(f.exponentBias : ℤ)-f.significandBits) := by
  have hbits := f.significand_pos
  have hexp : (1 : ℤ)-f.exponentBias-f.significandBits=
      -((f.exponentBias+f.significandBits-1 : ℕ) : ℤ) := by omega
  unfold unit
  rw [hexp,zpow_neg,zpow_natCast,Nat.cast_pow,Nat.cast_ofNat]

/-- The product of two magnitudes by the product of their significands, one of them aligned to the
left as in the source. -/
theorem product_eq {f : Precision} {A B : ℕ} (ha : Normalized f.significandBits A Ea mA)
    (hb : Normalized f.significandBits B Eb mB) :
    ((A*(B*2^f.exponentBits) : ℕ) : ℚ)/(2^f.typeWidth : ℕ)*(2 : ℚ)^(Ea+Eb-f.exponentBias)=
      mA*mB*unit f := by
  have hexp : (2 : ℚ)^(Ea+Eb-f.exponentBias)=
      (2 : ℚ)^(Ea-1)*(2 : ℚ)^(Eb-1)*
        ((2 : ℚ)^(1-(f.exponentBias : ℤ)-f.significandBits)*2^(f.significandBits+1)) := by
    rw [←zpow_natCast,←zpow_add₀ two_ne_zero,←zpow_add₀ two_ne_zero,←zpow_add₀ two_ne_zero]
    congr 1
    push_cast
    ring
  have hwidth : (2 : ℚ)^f.typeWidth=2^(f.significandBits+1)*2^f.exponentBits := by
    rw [←pow_add]
    congr 1
    show f.significandBits+f.exponentBits+1=_
    omega
  have hleft : (2 : ℚ)^(f.significandBits+1)≠0 := pow_ne_zero _ two_ne_zero
  have hright : (2 : ℚ)^f.exponentBits≠0 := pow_ne_zero _ two_ne_zero
  rw [ha.eq,hb.eq,unit_eq,hexp]
  push_cast
  rw [hwidth]
  field_simp

/-- The significands are multiplied and rounded to nearest, whatever the exponents are: too great,
normal, or below the least one. -/
theorem multiply_spec (early : Bool) (beyond : l.Rep → ℕ → l.Rep) {aExponent bExponent : ℕ}
    {scale : ℤ} (s : Bool)
    (ha : Normalized l.significandBits (aSignificand|||l.implicitBit).toNat Ea mA)
    (hb : Normalized l.significandBits (bSignificand|||l.implicitBit).toNat Eb mB)
    (hE : aExponent+bExponent+scale=Ea+Eb) :
    ∃ n, Signed (multiply l early beyond aExponent bExponent scale aSignificand bSignificand
        (signRep s)) s n ∧
      Nearest l.significandBits l.infRep.toNat (mA*mB*unit l.toPrecision) n := by
  have hbits := l.significand_pos
  have hwidth : l.typeWidth=l.significandBits+l.exponentBits+1 := rfl
  have hpow : 2^l.typeWidth=2^(l.significandBits+1)*2^l.exponentBits := by
    rw [←Nat.pow_add]
    congr 1
    omega
  have hmoved : ((bSignificand|||l.implicitBit)<<<l.exponentBits).toNat=
      (bSignificand|||l.implicitBit).toNat*2^l.exponentBits := by
    rw [BitVec.toNat_shiftLeft,Nat.shiftLeft_eq,Nat.mod_eq_of_lt]
    rw [hpow]
    exact Nat.mul_lt_mul_of_pos_right hb.high (Nat.two_pow_pos _)
  have hproduct := l.wideMultiply_eq (aSignificand|||l.implicitBit)
    ((bSignificand|||l.implicitBit)<<<l.exponentBits)
  rw [hmoved] at hproduct
  have hexp : (aExponent : ℤ)+bExponent-l.exponentBias+scale=Ea+Eb-l.exponentBias := by omega
  have heq := product_eq ha hb
  unfold multiply
  dsimp only
  rw [hexp]
  generalize l.wideMultiply (aSignificand|||l.implicitBit)
    ((bSignificand|||l.implicitBit)<<<l.exponentBits)=product at hproduct ⊢
  obtain ⟨hi,lo⟩ := product
  have hvalue : wideValue hi lo=(aSignificand|||l.implicitBit).toNat*
      ((bSignificand|||l.implicitBit).toNat*2^l.exponentBits) := hproduct
  have hhi := (wideValue_parts hi lo).1
  rw [←hvalue] at heq
  -- The high word has its highest bit at the implicit bit or right below it.
  have hupper : hi.toNat<2^(l.significandBits+1) := by
    rw [←hhi,Nat.div_lt_iff_lt_mul (Nat.two_pow_pos _),hvalue,hpow]
    calc _ < 2^(l.significandBits+1)*
          ((bSignificand|||l.implicitBit).toNat*2^l.exponentBits) :=
        Nat.mul_lt_mul_of_pos_right ha.high
          (Nat.mul_pos ((Nat.two_pow_pos _).trans_le hb.low) (Nat.two_pow_pos _))
      _ ≤ _ := Nat.mul_le_mul_left _ (Nat.mul_le_mul_right _ hb.high.le)
  have hlower : 2^(l.significandBits-1)≤hi.toNat := by
    have hdown : 2^(l.significandBits-1)*2^(l.significandBits+1)=
        2^l.significandBits*2^l.significandBits := by
      rw [←Nat.pow_add,←Nat.pow_add]
      congr 1
      omega
    rw [←hhi,Nat.le_div_iff_mul_le (Nat.two_pow_pos _),hvalue,hpow,←Nat.mul_assoc,hdown,
      Nat.mul_assoc]
    exact Nat.mul_le_mul ha.low (Nat.mul_le_mul_right _ hb.low)
  by_cases hset : hi&&&l.implicitBit≠0
  · rw [if_pos hset]
    have hspec := finish_spec lo (Ea+Eb-l.exponentBias+1) beyond
      ((and_bit_ne toNat_implicitBit hupper).1 hset) hupper early s
    rw [add_sub_cancel_right,heq] at hspec
    exact hspec
  · rw [if_neg hset]
    have hless : hi.toNat<2^l.significandBits := not_le.1 fun hle =>
      hset ((and_bit_ne toNat_implicitBit hupper).2 hle)
    have hdouble := wideLeftShift_spec lo (hless.trans_le
      (Nat.pow_le_pow_right Nat.two_pos (show l.significandBits≤l.typeWidth-1 by omega)))
    have hquot := (wideValue_parts (wideLeftShift hi lo 1).1 (wideLeftShift hi lo 1).2).1
    have hpos := Nat.two_pow_pos l.typeWidth
    have hlow : lo.toNat<2^l.typeWidth := lo.isLt
    -- Twice the high word and a carry.
    have hwide : (wideLeftShift hi lo 1).1.toNat=2*hi.toNat+2*lo.toNat/2^l.typeWidth := by
      rw [←hquot,hdouble]
      unfold wideValue
      rw [Nat.mul_add,←Nat.mul_assoc,Nat.mul_comm _ (2^l.typeWidth),Nat.mul_add_div hpos]
    have hcarry : 2*lo.toNat/2^l.typeWidth<2 := (Nat.div_lt_iff_lt_mul hpos).2 (by omega)
    generalize 2*lo.toNat/2^l.typeWidth=carry at hwide hcarry
    have hhalf : 2^l.significandBits=2*2^(l.significandBits-1) := by
      rw [←Nat.pow_succ']
      congr 1
      omega
    have hnext : 2^(l.significandBits+1)=2*2^l.significandBits := Nat.pow_succ'
    have hspec := finish_spec (wideLeftShift hi lo 1).2 (Ea+Eb-l.exponentBias)
      beyond (by rw [hwide]; omega) (by rw [hwide]; omega) early s
    have hscale : (wideValue (wideLeftShift hi lo 1).1 (wideLeftShift hi lo 1).2 : ℚ)/
        (2^l.typeWidth : ℕ)*(2 : ℚ)^(Ea+Eb-l.exponentBias-1)=mA*mB*unit l.toPrecision := by
      rw [←heq,hdouble,Nat.cast_mul,Nat.cast_ofNat,zpow_sub_one₀ two_ne_zero]
      ring
    rw [hscale] at hspec
    exact hspec

end Product

section Correct

variable {f : Precision} {l : FpLib}

/-- There is no product: NaN, or infinity by zero. -/
def Invalid (a b : f.Rep) : Prop := IsNaN a ∨ IsNaN b ∨ IsInf a ∧ IsZero b ∨ IsZero a ∧ IsInf b

/-- The product of two numbers, rounded to nearest: the exact product where both are finite, with
the sign of the operands. -/
structure IsProduct (a b r : f.Rep) : Prop where
  /-- No product. -/
  quiet : Invalid a b → IsQuiet r
  /-- The sign. -/
  sign : ¬Invalid a b → r.msb=(a.msb^^b.msb)
  /-- An infinite product. -/
  infinite : ¬Invalid a b → IsInf a ∨ IsInf b → IsInf r
  /-- A finite product. -/
  finite : IsFinite a → IsFinite b → RoundsTo (value a*value b) r

/-- The sign of the product as bits. -/
theorem productSign_eq (a b : f.Rep) : productSign a b=signRep (a.msb^^b.msb) := by
  unfold productSign
  rw [and_signBit,BitVec.msb_xor]

/-- No product. -/
theorem isProduct_invalid {a b r : f.Rep} (h : Invalid a b) (hr : IsQuiet r) : IsProduct a b r := by
  refine ⟨fun _ => hr,fun hno => absurd h hno,fun hno => absurd h hno,fun ha hb => ?_⟩
  obtain ⟨hnan,hinf⟩ := isFinite_iff.1 ha
  obtain ⟨hnan',hinf'⟩ := isFinite_iff.1 hb
  rcases h with h|h|h|h
  · exact absurd h hnan
  · exact absurd h hnan'
  · exact absurd h.1 hinf
  · exact absurd h.2 hinf'

/-- An infinite product. -/
theorem isProduct_infinite {a b r : f.Rep} (h : ¬Invalid a b) (hinf : IsInf a ∨ IsInf b)
    (hr : Signed r (a.msb^^b.msb) f.infRep.toNat) : IsProduct a b r := by
  have htop := infRep_lt (f := f)
  have hpos := Nat.two_pow_pos f.significandBits
  obtain ⟨habs,hsign⟩ := hr.parts (by omega)
  refine ⟨fun hno => absurd hno h,fun _ => hsign,fun _ _ => habs,fun ha hb => ?_⟩
  rcases hinf with hinf|hinf
  · exact absurd hinf (isFinite_iff.1 ha).2
  · exact absurd hinf (isFinite_iff.1 hb).2

/-- A finite product. -/
theorem isProduct_finite {a b r : f.Rep} {n : ℕ} (ha : IsFinite a) (hb : IsFinite b)
    (hr : Signed r (a.msb^^b.msb) n)
    (hn : Nearest f.significandBits f.infRep.toNat
      (magnitude f.significandBits (absBits a)*magnitude f.significandBits (absBits b)*unit f) n) :
    IsProduct a b r := by
  obtain ⟨habs,hsign⟩ := hr.parts (nearest_lt hn)
  obtain ⟨hnan,hinf⟩ := isFinite_iff.1 ha
  obtain ⟨hnan',hinf'⟩ := isFinite_iff.1 hb
  refine ⟨?_,fun _ => hsign,fun _ h => (h.elim hinf hinf').elim,fun _ _ => ?_⟩
  · rintro (h|h|h|h)
    · exact absurd h hnan
    · exact absurd h hnan'
    · exact absurd h.1 hinf
    · exact absurd h.2 hinf'
  · have hunit := (unit_pos f).ne'
    have hscale : (magnitude f.significandBits (absBits a) : ℚ)*unit f*
        (magnitude f.significandBits (absBits b)*unit f)/unit f=
        magnitude f.significandBits (absBits a)*magnitude f.significandBits (absBits b)*unit f := by
      field_simp
    unfold RoundsTo
    rw [abs_mul,abs_value,abs_value,habs,hscale]
    exact hn

/-- A product by zero. -/
theorem isProduct_zero {a b : f.Rep} (ha : IsFinite a) (hb : IsFinite b)
    (h : IsZero a ∨ IsZero b) : IsProduct a b (productSign a b) := by
  have hsigned : Signed (productSign a b) (a.msb^^b.msb) 0 := by
    have hor := signed_or (x := 0#f.typeWidth) (a.msb^^b.msb) (Nat.two_pow_pos _)
    rw [BitVec.zero_or] at hor
    rw [productSign_eq]
    exact hor
  have hmag : magnitude f.significandBits 0=0 := magnitude_low (Nat.two_pow_pos _)
  refine isProduct_finite ha hb hsigned (nearest_zero ?_)
  unfold IsZero at h
  rcases h with h|h <;> rw [h,hmag] <;> simp

/-- The early returns are products, and what is left are numbers other than zero. Infinity times
zero is the quiet NaN. -/
theorem special_spec (a b : f.Rep) :
    match special a b with
    | some r => IsProduct a b r
    | none => (IsFinite a ∧ ¬IsZero a) ∧ IsFinite b ∧ ¬IsZero b := by
  have htop := infRep_lt (f := f)
  have hpos := Nat.two_pow_pos f.significandBits
  have hinfinite : ∀ {x : f.Rep}, IsInf x → Signed ((x&&&f.absMask)|||productSign a b)
      (a.msb^^b.msb) f.infRep.toNat := fun {x} hx => by
    rw [(eq_infRep_iff x).2 hx,productSign_eq]
    exact signed_or _ (by omega)
  have hexcludes : ∀ {x : f.Rep}, IsInf x → ¬IsZero x := fun {x} hx hzero =>
    (isFinite_iff.1 hzero.isFinite).2 hx
  unfold special
  dsimp only
  by_cases hnan : IsNaN a
  · rw [if_pos ((infRep_lt_iff a).2 hnan)]
    exact isProduct_invalid (Or.inl hnan) (quiet_or hnan)
  by_cases hnan' : IsNaN b
  · rw [if_neg ((infRep_lt_iff a).not.2 hnan),if_pos ((infRep_lt_iff b).2 hnan')]
    exact isProduct_invalid (Or.inr (Or.inl hnan')) (quiet_or hnan')
  rw [if_neg ((infRep_lt_iff a).not.2 hnan),if_neg ((infRep_lt_iff b).not.2 hnan')]
  by_cases hinf : IsInf a
  · rw [if_pos ((eq_infRep_iff a).2 hinf)]
    by_cases hzero : IsZero b
    · rw [if_neg (not_not.2 ((eq_zero_iff b).2 hzero))]
      exact isProduct_invalid (Or.inr (Or.inr (Or.inl ⟨hinf,hzero⟩))) quiet_qnan
    · rw [if_pos ((eq_zero_iff b).not.2 hzero)]
      refine isProduct_infinite ?_ (Or.inl hinf) (hinfinite hinf)
      rintro (h|h|h|h)
      · exact hnan h
      · exact hnan' h
      · exact hzero h.2
      · exact hexcludes hinf h.1
  rw [if_neg ((eq_infRep_iff a).not.2 hinf)]
  have ha := isFinite_iff.2 ⟨hnan,hinf⟩
  by_cases hinf' : IsInf b
  · rw [if_pos ((eq_infRep_iff b).2 hinf')]
    by_cases hzero : IsZero a
    · rw [if_neg (not_not.2 ((eq_zero_iff a).2 hzero))]
      exact isProduct_invalid (Or.inr (Or.inr (Or.inr ⟨hzero,hinf'⟩))) quiet_qnan
    · rw [if_pos ((eq_zero_iff a).not.2 hzero)]
      refine isProduct_infinite ?_ (Or.inr hinf') (hinfinite hinf')
      rintro (h|h|h|h)
      · exact hnan h
      · exact hnan' h
      · exact hinf h.1
      · exact hzero h.1
  rw [if_neg ((eq_infRep_iff b).not.2 hinf')]
  have hb := isFinite_iff.2 ⟨hnan',hinf'⟩
  by_cases hzero : IsZero a
  · rw [if_pos ((eq_zero_iff a).2 hzero)]
    exact isProduct_zero ha hb (Or.inl hzero)
  by_cases hzero' : IsZero b
  · rw [if_neg ((eq_zero_iff a).not.2 hzero),if_pos ((eq_zero_iff b).2 hzero')]
    exact isProduct_zero ha hb (Or.inr hzero')
  rw [if_neg ((eq_zero_iff a).not.2 hzero),if_neg ((eq_zero_iff b).not.2 hzero')]
  exact ⟨⟨ha,hzero⟩,hb,hzero'⟩

/-- A number that is not zero is normalized. -/
theorem renormalize_spec {a : l.Rep} (hzero : ¬IsZero a) :
    Normalized l.significandBits ((renormalize l a).1|||l.implicitBit).toNat
      (exponent a+(renormalize l a).2) (magnitude l.significandBits (absBits a)) := by
  have hlt : a&&&l.absMask < l.implicitBit ↔ absBits a<2^l.significandBits := by
    rw [BitVec.lt_def,toNat_and_absMask,toNat_implicitBit]
    exact Iff.rfl
  unfold renormalize
  by_cases hsmall : absBits a<2^l.significandBits
  · rw [if_pos (hlt.2 hsmall),exponent_denormal hsmall,Nat.cast_zero,zero_add]
    exact denormal_spec hzero hsmall
  · rw [if_neg (hlt.not.2 hsmall),add_zero]
    exact normal_spec (not_lt.1 hsmall)

/-- Exponents inside the range are those of normal numbers. -/
theorem inside_spec {a : f.Rep} (h : ¬outside a) : IsFinite a ∧ 2^f.significandBits≤absBits a := by
  have hpos := Nat.two_pow_pos f.significandBits
  have hmax := maxExponent_eq (f := f)
  have hbits := f.exponent_four
  have hfour : 2^4≤2^f.exponentBits := Nat.pow_le_pow_right Nat.two_pos hbits
  have hint : 2^f.exponentBits≤2^30 := Nat.pow_le_pow_right Nat.two_pos f.exponent_le
  have hexp : exponent a=absBits a/2^f.significandBits := exponent_eq a
  have hinf := toNat_infRep (f := f)
  have hrange : 0 < exponent a ∧ exponent a<2^f.exponentBits-1 := by
    have hle : exponent a≤f.maxExponent := Nat.and_le_right
    unfold outside at h
    rw [hmax] at h hle
    rw [BitVec.not_le,BitVec.lt_def,BitVec.toNat_sub,BitVec.toNat_sub,BitVec.toNat_ofNat,
      BitVec.toNat_ofNat,BitVec.toNat_ofNat,
      Nat.mod_eq_of_lt (show 2^f.exponentBits-1<2^32 by omega),
      Nat.mod_eq_of_lt (show exponent a<2^32 by omega)] at h
    omega
  rw [hexp] at hrange
  refine ⟨?_,(Nat.div_pos_iff.1 hrange.1).2⟩
  unfold IsFinite
  rw [hinf]
  exact (Nat.div_lt_iff_lt_mul hpos).1 hrange.2

/-- The multiplication of both precisions gives the product of all numbers, rounded to nearest. -/
theorem mulf3_spec (early : Bool) (beyond : l.Rep → ℕ → l.Rep) (a b : l.Rep) :
    IsProduct a b (mulf3 l early beyond a b) := by
  unfold mulf3
  by_cases hout : outside a ∨ outside b
  · rw [if_pos hout]
    have hspecial := special_spec a b
    cases hcase : special a b with
    | some r =>
      rw [hcase] at hspecial
      exact hspecial
    | none =>
      rw [hcase] at hspecial
      obtain ⟨⟨ha,hzero⟩,hb,hzero'⟩ := hspecial
      have hexp : (exponent a : ℤ)+exponent b+((renormalize l a).2+(renormalize l b).2)=
          exponent a+(renormalize l a).2+(exponent b+(renormalize l b).2) := by ring
      obtain ⟨n,hsigned,hnear⟩ := multiply_spec early beyond (a.msb^^b.msb) (renormalize_spec hzero)
        (renormalize_spec hzero') hexp
      dsimp only
      rw [productSign_eq]
      exact isProduct_finite ha hb hsigned hnear
  · rw [if_neg hout]
    obtain ⟨ha,hnormal⟩ := inside_spec (not_or.1 hout).1
    obtain ⟨hb,hnormal'⟩ := inside_spec (not_or.1 hout).2
    obtain ⟨n,hsigned,hnear⟩ := multiply_spec early beyond (a.msb^^b.msb) (normal_spec hnormal)
      (normal_spec hnormal') (add_zero _)
    rw [productSign_eq]
    exact isProduct_finite ha hb hsigned hnear

/-- `__mulsf3` and `__muldf3` give the product of all numbers, whatever shifts beyond the width of
the type give. -/
theorem multiplication_correct (beyond : BitVec 32 → ℕ → BitVec 32)
    (beyond' : BitVec 64 → ℕ → BitVec 64) :
    (∀ a b, IsProduct (f := single.toPrecision) a b (mulsf3 beyond a b)) ∧
      ∀ a b, IsProduct (f := double.toPrecision) a b (muldf3 beyond' a b) :=
  ⟨mulf3_spec (l := single) false beyond,mulf3_spec (l := double) true beyond'⟩

end Correct

end RigelTarget.SoftFloatMultiply
