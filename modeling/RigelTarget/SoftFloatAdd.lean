import RigelTarget.SoftFloat

/-!
# Soft-float addition and subtraction

`__addsf3` and `__adddf3` are one text over `fp_lib.h`. The number of the greater magnitude keeps
its significand, with three more bits below; the other one is moved to the right by the difference
of the exponents, with a sticky bit for what it loses. A carry moves the sum to the right once, and
a cancellation moves it to the left, by more than a bit only where nothing was lost.
-/

namespace RigelTarget.SoftFloatAdd

open BinaryFormat DoubleWord SoftFloat

section Code

variable {f : Precision}

/-- What shifts give whose count is negative or not below the width. -/
structure OverShift (f : Precision) where
  /-- Shifts to the left. -/
  left : f.Rep → ℤ → f.Rep
  /-- Shifts to the right. -/
  right : f.Rep → ℤ → f.Rep

/-- `x << count`. -/
def shl (beyond : OverShift f) (x : f.Rep) (count : ℤ) : f.Rep :=
  if 0 ≤ count ∧ count < f.typeWidth then x<<<count.toNat else beyond.left x count

/-- `x >> count`. -/
def shr (beyond : OverShift f) (x : f.Rep) (count : ℤ) : f.Rep :=
  if 0 ≤ count ∧ count < f.typeWidth then x>>>count.toNat else beyond.right x count

/-- `aAbs - 1U >= infRep - 1U`: zero, infinity or NaN. -/
def outside (aAbs : f.Rep) : Prop := f.infRep-1#f.typeWidth≤aAbs-1#f.typeWidth

instance (aAbs : f.Rep) : Decidable (outside aAbs) := by
  unfold outside
  infer_instance

/-- The returns for NaN, infinity and zero, in the order of the source. What is left are numbers
other than zero. -/
def special (a b : f.Rep) : Option f.Rep :=
  let aAbs := a&&&f.absMask
  let bAbs := b&&&f.absMask
  if f.infRep < aAbs then some (a|||f.quietBit)
  else if f.infRep < bAbs then some (b|||f.quietBit)
  else if aAbs=f.infRep then
    if a^^^b=f.signBit then some f.qnanRep else some a
  else if bAbs=f.infRep then some b
  else if aAbs=0#f.typeWidth then
    if bAbs=0#f.typeWidth then some (a&&&b) else some b
  else if bAbs=0#f.typeWidth then some a
  else none

/-- The exponent and the significand, normalized where the exponent is zero. -/
def renormalize (l : FpLib) (a : l.Rep) : l.Rep×ℤ :=
  if exponent a=0 then normalize l (a&&&l.significandMask)
  else (a&&&l.significandMask,exponent a)

/-- `x >> count | sticky`, the sticky bit from `x << (typeWidth - count)`, that is, from the bits
that fall out. -/
def shrSticky (beyond : OverShift f) (x : f.Rep) (count : ℤ) : f.Rep :=
  shr beyond x count|||flag (shl beyond x (f.typeWidth-count))

/-- The significand of `b` under that of `a`: moved to the right by the difference of the exponents,
or all of it in the sticky bit. -/
def alignTo (beyond : OverShift f) (bSignificand : f.Rep) (align : ℤ) : f.Rep :=
  if align≠0 then
    if align < f.typeWidth then shrSticky beyond bSignificand align else 1#f.typeWidth
  else bSignificand

/-- From the overflow to the end: infinity, the move of a denormal result to the right, and the
rounding. -/
def finish (beyond : OverShift f) (aExponent : ℤ) (aSignificand resultSign : f.Rep) : f.Rep :=
  if f.maxExponent≤aExponent then f.infRep|||resultSign
  else
    let denormal := if aExponent≤0 then (shrSticky beyond aSignificand (1-aExponent),(0 : ℤ))
      else (aSignificand,aExponent)
    let roundGuardSticky := denormal.1&&&7#f.typeWidth
    let result := denormal.1>>>3&&&f.significandMask
    let result := result|||BitVec.ofNat f.typeWidth denormal.2.toNat<<<f.significandBits
    let result := result|||resultSign
    roundBy (4#f.typeWidth < roundGuardSticky) (roundGuardSticky=4#f.typeWidth) result

/-- The branch of the subtraction: equal significands give zero, others are moved up to the implicit
bit. -/
def cancel (l : FpLib) (beyond : OverShift l.toPrecision) (aExponent : ℤ)
    (aSignificand bSignificand resultSign : l.Rep) : l.Rep :=
  let aSignificand := aSignificand-bSignificand
  if aSignificand=0#l.typeWidth then 0#l.typeWidth
  else if aSignificand < l.implicitBit<<<3 then
    let shift : ℤ := l.repClz aSignificand-l.repClz (l.implicitBit<<<3)
    finish beyond (aExponent-shift) (shl beyond aSignificand shift) resultSign
  else finish beyond aExponent aSignificand resultSign

/-- The branch of the addition: a carry moves the sum to the right by one, with its sticky bit. The
exponent goes up. -/
def carry (beyond : OverShift f) (aExponent : ℤ) (aSignificand bSignificand resultSign : f.Rep) :
    f.Rep :=
  let aSignificand := aSignificand+bSignificand
  if aSignificand&&&f.implicitBit<<<4≠0#f.typeWidth then
    let sticky := flag (aSignificand&&&1#f.typeWidth)
    finish beyond (aExponent+1) (aSignificand>>>1|||sticky) resultSign
  else finish beyond aExponent aSignificand resultSign

/-- From the exponents to the end, once `a` has the larger absolute value, so that a difference is
not negative. -/
def addOrdered (l : FpLib) (beyond : OverShift l.toPrecision) (a b : l.Rep) : l.Rep :=
  let aNormal := renormalize l a
  let bNormal := renormalize l b
  let resultSign := a&&&l.signBit
  let aSignificand := (aNormal.1|||l.implicitBit)<<<3
  let bSignificand := alignTo beyond ((bNormal.1|||l.implicitBit)<<<3) (aNormal.2-bNormal.2)
  if (a^^^b)&&&l.signBit≠0#l.typeWidth then
    cancel l beyond aNormal.2 aSignificand bSignificand resultSign
  else carry beyond aNormal.2 aSignificand bSignificand resultSign

/-- From the swap to the end. -/
def addNumbers (l : FpLib) (beyond : OverShift l.toPrecision) (a b : l.Rep) : l.Rep :=
  if a&&&l.absMask < b&&&l.absMask then addOrdered l beyond b a else addOrdered l beyond a b

/-- The addition over the header, for both precisions. The functions of the library are this one at
their precision. -/
def addf3 (l : FpLib) (beyond : OverShift l.toPrecision) (a b : l.Rep) : l.Rep :=
  if outside (a&&&l.absMask) ∨ outside (b&&&l.absMask) then
    match special a b with
    | some result => result
    | none => addNumbers l beyond a b
  else addNumbers l beyond a b

/-- `__addsf3`. -/
def addsf3 (beyond : OverShift single.toPrecision) (a b : BitVec 32) : BitVec 32 :=
  addf3 single beyond a b

/-- `__adddf3`. -/
def adddf3 (beyond : OverShift double.toPrecision) (a b : BitVec 64) : BitVec 64 :=
  addf3 double beyond a b

/-- `__negsf2` and `__negdf2`. -/
def negf2 (a : f.Rep) : f.Rep := a^^^f.signBit

/-- The subtraction over the header. -/
def subf3 (l : FpLib) (beyond : OverShift l.toPrecision) (a b : l.Rep) : l.Rep :=
  addf3 l beyond a (b^^^l.signBit)

/-- `__subsf3`. -/
def subsf3 (beyond : OverShift single.toPrecision) (a b : BitVec 32) : BitVec 32 :=
  subf3 single beyond a b

/-- `__subdf3`. -/
def subdf3 (beyond : OverShift double.toPrecision) (a b : BitVec 64) : BitVec 64 :=
  subf3 double beyond a b

end Code

section Shifts

variable {f : Precision} (beyond : OverShift f) {x : f.Rep} {count : ℕ}

/-- A shift to the left by less than the width. -/
theorem shl_of_lt (h : count < f.typeWidth) : shl beyond x count=x<<<count := by
  unfold shl
  rw [if_pos ⟨Int.natCast_nonneg _,Int.ofNat_lt.2 h⟩,Int.toNat_natCast]

/-- A shift to the right by less than the width. -/
theorem shr_of_lt (h : count < f.typeWidth) : shr beyond x count=x>>>count := by
  unfold shr
  rw [if_pos ⟨Int.natCast_nonneg _,Int.ofNat_lt.2 h⟩,Int.toNat_natCast]

/-- The sticky form of a significand. -/
theorem shrSticky_spec (hpos : 0 < count) (h : count < f.typeWidth) :
    (shrSticky beyond x count).toNat=sticky x.toNat count := by
  have hcount : (f.typeWidth : ℤ)-count=(f.typeWidth-count : ℕ) := (Nat.cast_sub h.le).symm
  unfold shrSticky sticky
  rw [hcount,shr_of_lt beyond h,shl_of_lt beyond (show f.typeWidth-count < f.typeWidth by omega),
    BitVec.toNat_or,toNat_flag,BitVec.toNat_ushiftRight,Nat.shiftRight_eq_div_pow]
  congr 1
  exact if_congr (shiftLeft_lost h.le) rfl rfl

/-- The alignment of a significand that is not zero. -/
theorem alignTo_spec (hx : 0 < x.toNat) :
    (alignTo beyond x count).toNat=sticky x.toNat count := by
  have hmax := x.isLt
  unfold alignTo
  by_cases hzero : count=0
  · rw [hzero,if_neg (not_not.2 Nat.cast_zero)]
    unfold sticky
    rw [pow_zero,Nat.div_one,Nat.mod_one,if_pos rfl,Nat.or_zero]
  rw [if_pos (Nat.cast_ne_zero.2 hzero)]
  by_cases hless : count < f.typeWidth
  · rw [if_pos (Int.ofNat_lt.2 hless)]
    exact shrSticky_spec beyond (Nat.pos_of_ne_zero hzero) hless
  · have hsmall : x.toNat<2^count :=
      hmax.trans_le (Nat.pow_le_pow_right Nat.two_pos (not_lt.1 hless))
    rw [if_neg (Int.ofNat_lt.not.2 hless)]
    unfold sticky
    rw [Nat.div_eq_of_lt hsmall,Nat.mod_eq_of_lt hsmall,if_neg hx.ne',BitVec.toNat_ofNat]
    exact Nat.mod_eq_of_lt (Nat.one_lt_two_pow (Nat.succ_ne_zero _))

end Shifts

section Finish

variable {f : Precision} {x : f.Rep} {E : ℤ} {g : ℕ} {t : ℚ}

/-- A significand with three more bits agrees with a number in the same range. -/
theorem agrees_range {n p : ℕ} (hagrees : Agrees g n t) (hg : g≤2) (hlow : 2^(p+3)≤n)
    (hhigh : n<2^(p+4)) : ((2^(p+3) : ℕ) : ℚ)≤t ∧ t<(2^(p+4) : ℕ) := by
  have hlow' : 2^(p+3)=2^(p+3-g)*2^g := by
    rw [←Nat.pow_add]
    congr 1
    omega
  have hhigh' : 2^(p+4)=2^(p+4-g)*2^g := by
    rw [←Nat.pow_add]
    congr 1
    omega
  constructor
  · rw [hlow']
    refine not_lt.1 fun hless => ?_
    have hn := (hagrees (2^(p+3-g))).1.2 hless
    omega
  · rw [hhigh']
    exact (hagrees (2^(p+4-g))).1.1 (hhigh'▸hhigh)

/-- The rounding by the three bits below a significand. -/
theorem signed_roundGuard {r : f.Rep} {s : Bool} {n : ℕ} (h : Signed r s n)
    (hn : n+1<2^(f.significandBits+f.exponentBits)) :
    Signed (roundBy (4#f.typeWidth < x&&&7#f.typeWidth) (x&&&7#f.typeWidth=4#f.typeWidth) r) s
      (BinaryFormat.round n (x.toNat%2^3) (2^(3-1))) := by
  have hexponent := f.exponent_four
  have hwide : 2^3<2^f.typeWidth :=
    Nat.pow_lt_pow_right Nat.one_lt_two (show 3 < f.significandBits+f.exponentBits+1 by omega)
  have hfour : (4#f.typeWidth).toNat=2^(3-1) := Nat.mod_eq_of_lt (by omega)
  have hseven : (7#f.typeWidth).toNat=2^3-1 := Nat.mod_eq_of_lt (by omega)
  have hlow : (x&&&7#f.typeWidth).toNat=x.toNat%2^3 := by
    rw [BitVec.toNat_and,hseven,Nat.and_two_pow_sub_one_eq_mod]
  refine h.round hn ?_ ?_
  · rw [BitVec.lt_def,hlow,hfour]
  · rw [←BitVec.toNat_inj,hlow,hfour]

/-- A result that is denormal before the rounding: it is moved to the right with a sticky bit and
may round up to a normal number. -/
theorem finish_denormal (beyond : OverShift f) (s : Bool) (hlow : 2^(f.significandBits+3)≤x.toNat)
    (hhigh : x.toNat<2^(f.significandBits+4)) (hg : g≤2) (hagrees : Agrees g x.toNat t)
    (hone : 1≤t/(2^3 : ℕ)*(2 : ℚ)^(E-1)) (hE : E≤0) :
    ∃ n, Signed (finish beyond E x (signRep s)) s n ∧
      Nearest f.significandBits f.infRep.toNat (t/(2^3 : ℕ)*(2 : ℚ)^(E-1)) n := by
  obtain ⟨count,rfl⟩ : ∃ count : ℕ, E=1-(count : ℤ) := ⟨(1-E).toNat,by omega⟩
  have hwidth : f.typeWidth=f.significandBits+f.exponentBits+1 := rfl
  have hbits := f.significand_pos
  have hpos := Nat.two_pow_pos f.significandBits
  have htop := infRep_lt (f := f)
  have hinfpos := infRep_pos (f := f)
  have hexp : (1 : ℤ)-count-1=-(count : ℤ) := by ring
  rw [hexp,zpow_neg,zpow_natCast] at hone ⊢
  -- The result is at least the least positive number, so that the shift is less than the width.
  have hcount : count < f.typeWidth := by
    have ht := (agrees_range hagrees hg hlow hhigh).2
    have hpow : (0 : ℚ)<2^count := pow_pos two_pos _
    have hless : ((2^count : ℕ) : ℚ)<(2^(f.significandBits+1) : ℕ) := by
      rw [←div_eq_mul_inv,one_le_div hpow] at hone
      have hfour : 2^(f.significandBits+4)=2^(f.significandBits+1)*2^3 := by
        rw [←Nat.pow_add]
      rw [hfour,Nat.cast_mul] at ht
      have hdown : t/(2^3 : ℕ)<(2^(f.significandBits+1) : ℕ) :=
        (div_lt_iff₀ (Nat.cast_pos.2 (Nat.two_pow_pos _))).2 ht
      rw [Nat.cast_pow,Nat.cast_ofNat]
      exact hone.trans_lt hdown
    have hexponents := (Nat.pow_lt_pow_iff_right Nat.one_lt_two).1 (Nat.cast_lt.1 hless)
    omega
  have hmax : ¬(f.maxExponent : ℤ)≤1-(count : ℤ) := by
    have heq := maxExponent_eq (f := f)
    have hexponent := f.exponent_four
    have hfour : 2^4≤2^f.exponentBits := Nat.pow_le_pow_right Nat.two_pos hexponent
    omega
  have hshift : (1 : ℤ)-(1-count)=count := by ring
  have hsticky := shrSticky_spec (x := x) beyond (by omega) hcount
  have hsmall : sticky x.toNat count<2^(f.significandBits+3) := by
    have hdown : x.toNat/2^count<2^(f.significandBits+3) := by
      refine Nat.div_lt_of_lt_mul (hhigh.trans_le ?_)
      rw [←Nat.pow_add]
      exact Nat.pow_le_pow_right Nat.two_pos (by omega)
    refine Nat.or_lt_two_pow hdown ?_
    have htwo := Nat.one_lt_two_pow (n := f.significandBits+3) (Nat.succ_ne_zero _)
    split <;> omega
  have hplace : 2^(f.significandBits+3)=2^f.significandBits*2^3 := Nat.pow_add ..
  have hresult : sticky x.toNat count/2^3<2^f.significandBits :=
    (Nat.div_lt_iff_lt_mul (Nat.two_pow_pos 3)).2 (hplace▸hsmall)
  have hdiv : sticky x.toNat count/2^3/2^f.significandBits=0 := Nat.div_eq_of_lt hresult
  have hinf : 2^f.significandBits≤f.infRep.toNat := by
    rw [toNat_infRep]
    have hexponent := f.exponent_four
    have hfour : 2^4≤2^f.exponentBits := Nat.pow_le_pow_right Nat.two_pos hexponent
    exact Nat.le_mul_of_pos_left _ (by omega)
  have hnear := nearest_round (p := f.significandBits)
    (n := sticky x.toNat count/2^3) (r := 3) (by decide) (hagrees.sticky (j := count) (by omega))
    (by rw [hdiv,magnitude_low hresult]; exact (Nat.mul_one _).symm) (hresult.trans_le hinf)
  have hscale : t/(2^count : ℕ)/(2^3 : ℕ)*((2^(0-1) : ℕ) : ℚ)=t/(2^3 : ℕ)*(2^count)⁻¹ := by
    have hunit : ((2^(0-1) : ℕ) : ℚ)=1 := Nat.cast_one
    rw [hunit,mul_one,div_right_comm,div_eq_mul_inv (t/(2^3 : ℕ)),Nat.cast_pow 2 count,
      Nat.cast_ofNat]
  rw [hdiv,hscale] at hnear
  refine ⟨_,?_,hnear⟩
  have hbelow : (shrSticky beyond x count>>>3&&&f.significandMask|||
      BitVec.ofNat f.typeWidth (0 : ℤ).toNat<<<f.significandBits).toNat=
        sticky x.toNat count/2^3 := by
    rw [Int.toNat_zero,BitVec.zero_shiftLeft,BitVec.or_zero,toNat_and_significandMask,
      BitVec.toNat_ushiftRight,hsticky,Nat.shiftRight_eq_div_pow,Nat.mod_eq_of_lt hresult]
  have hsigned := signed_or (x := shrSticky beyond x count>>>3&&&f.significandMask|||
    BitVec.ofNat f.typeWidth (0 : ℤ).toNat<<<f.significandBits) s (by rw [hbelow]; omega)
  rw [hbelow] at hsigned
  unfold finish
  rw [if_neg hmax]
  dsimp only
  rw [if_pos (by omega),hshift,←hsticky]
  exact signed_roundGuard (hsticky▸hsigned) (by omega)

/-- A normal result: the significand has its implicit bit, and three bits below it decide the
rounding. -/
theorem finish_normal (beyond : OverShift f) (s : Bool) (hlow : 2^(f.significandBits+3)≤x.toNat)
    (hhigh : x.toNat<2^(f.significandBits+4)) (hg : g≤2) (hagrees : Agrees g x.toNat t)
    (hE : 0 < E) (hE' : E < f.maxExponent) :
    ∃ n, Signed (finish beyond E x (signRep s)) s n ∧
      Nearest f.significandBits f.infRep.toNat (t/(2^3 : ℕ)*(2 : ℚ)^(E-1)) n := by
  obtain ⟨e,rfl⟩ : ∃ e : ℕ, E=e := ⟨E.toNat,by omega⟩
  have he : 0 < e := by omega
  have hpos := Nat.two_pow_pos f.significandBits
  have htop := infRep_lt (f := f)
  have hvalue : (x>>>3).toNat=x.toNat/2^3 := by
    rw [BitVec.toNat_ushiftRight,Nat.shiftRight_eq_div_pow]
  have hplace : 2^(f.significandBits+3)=2^f.significandBits*2^3 := Nat.pow_add ..
  have hplace' : 2^(f.significandBits+4)=2^(f.significandBits+1)*2^3 := by rw [←Nat.pow_add]
  obtain ⟨n,hn,hbelow,hdiv,hmag⟩ := exponent_joined (x := x>>>3) (e := e) (by rw [hvalue]; omega)
    (by rw [hvalue]; omega) he (by omega)
  have hnear := nearest_round (p := f.significandBits) (n := n) (r := 3) (by omega)
    hagrees (by rw [hdiv,hmag,hvalue]) hbelow
  rw [hdiv,←zpow_of_exponent rfl he] at hnear
  refine ⟨_,?_,hnear⟩
  have hsigned := signed_or (x := x>>>3&&&f.significandMask|||
    BitVec.ofNat f.typeWidth e<<<f.significandBits) s (by rw [hn]; omega)
  rw [hn] at hsigned
  unfold finish
  rw [if_neg (by omega)]
  dsimp only
  rw [if_neg (by omega)]
  exact signed_roundGuard hsigned (by omega)

/-- The end of the addition rounds to nearest, also where the result is denormal or overflows. -/
theorem finish_spec (beyond : OverShift f) (s : Bool) (hlow : 2^(f.significandBits+3)≤x.toNat)
    (hhigh : x.toNat<2^(f.significandBits+4)) (hg : g≤2) (hagrees : Agrees g x.toNat t)
    (hone : 1≤t/(2^3 : ℕ)*(2 : ℚ)^(E-1)) :
    ∃ n, Signed (finish beyond E x (signRep s)) s n ∧
      Nearest f.significandBits f.infRep.toNat (t/(2^3 : ℕ)*(2 : ℚ)^(E-1)) n := by
  by_cases hover : f.maxExponent≤E
  · have ht := (agrees_range hagrees hg hlow hhigh).1
    have hpos := Nat.two_pow_pos f.significandBits
    have htop := infRep_lt (f := f)
    have hplace : 2^(f.significandBits+3)=2^f.significandBits*2^3 := Nat.pow_add ..
    rw [hplace,Nat.cast_mul] at ht
    refine ⟨_,?_,nearest_infRep ((le_div_iff₀ (Nat.cast_pos.2 (Nat.two_pow_pos 3))).2 ht) hover⟩
    unfold finish
    rw [if_pos hover]
    exact signed_or s (by omega)
  · by_cases hunder : E≤0
    · exact finish_denormal beyond s hlow hhigh hg hagrees hone hunder
    · exact finish_normal beyond s hlow hhigh hg hagrees (not_le.1 hunder) (not_le.1 hover)

end Finish

section Sum

variable {f : Precision} {a b : f.Rep} {E : ℤ} {c : ℕ} {t : ℚ}

/-- The bits of a power of two above the implicit bit. -/
theorem toNat_implicitBit_shiftLeft {k : ℕ} (hk : k≤4) :
    (f.implicitBit<<<k).toNat=2^(f.significandBits+k) := by
  have hexponent := f.exponent_four
  rw [BitVec.toNat_shiftLeft,toNat_implicitBit,Nat.shiftLeft_eq,←Nat.pow_add]
  exact Nat.mod_eq_of_lt (Nat.pow_lt_pow_right Nat.one_lt_two
    (show f.significandBits+k < f.significandBits+f.exponentBits+1 by omega))

/-- The significands are added: the sum or its half agrees with the exact one, and the exponent says
which. -/
theorem carry_spec (beyond : OverShift f) (s : Bool) (ha : a.toNat=c*2^1)
    (hlow : 2^(f.significandBits+3)≤a.toNat) (hhigh : a.toNat<2^(f.significandBits+4))
    (hb : b.toNat<2^(f.significandBits+4)) (hagrees : Agrees 1 b.toNat t)
    (hone : 1≤(a.toNat+t)/(2^3 : ℕ)*(2 : ℚ)^(E-1)) :
    ∃ n, Signed (carry beyond E a b (signRep s)) s n ∧
      Nearest f.significandBits f.infRep.toNat ((a.toNat+t)/(2^3 : ℕ)*(2 : ℚ)^(E-1)) n := by
  have hexponent := f.exponent_four
  have hdouble : 2^(f.significandBits+4+1)=2*2^(f.significandBits+4) := Nat.pow_succ'
  have hdouble' : 2^(f.significandBits+4)=2*2^(f.significandBits+3) := Nat.pow_succ'
  have hwide : 2^(f.significandBits+4+1)≤2^f.typeWidth := Nat.pow_le_pow_right Nat.two_pos
    (show f.significandBits+4+1≤f.significandBits+f.exponentBits+1 by omega)
  have hsum : (a+b).toNat=a.toNat+b.toNat := by
    rw [BitVec.toNat_add,Nat.mod_eq_of_lt (by omega)]
  have hagrees' : Agrees 1 (a+b).toNat (a.toNat+t) := by
    rw [hsum,ha]
    exact hagrees.add c
  have hbit := and_bit_ne (x := a+b) (toNat_implicitBit_shiftLeft (f := f) (k := 4) (by decide))
    (by rw [hsum]; omega)
  unfold carry
  dsimp only
  by_cases hcarry : 2^(f.significandBits+4)≤(a+b).toNat
  · have hone' : (1#f.typeWidth).toNat=2^1-1 :=
      Nat.mod_eq_of_lt (Nat.one_lt_two_pow (Nat.succ_ne_zero _))
    have hvalue : ((a+b)>>>1|||flag ((a+b)&&&1#f.typeWidth)).toNat=sticky (a+b).toNat 1 := by
      unfold sticky
      rw [BitVec.toNat_or,BitVec.toNat_ushiftRight,toNat_flag,BitVec.toNat_and,hone',
        Nat.and_two_pow_sub_one_eq_mod,Nat.shiftRight_eq_div_pow]
    have hless : sticky (a+b).toNat 1<2^(f.significandBits+4) := by
      refine Nat.or_lt_two_pow (by omega) ?_
      have htwo := Nat.one_lt_two_pow (n := f.significandBits+4) (Nat.succ_ne_zero _)
      split <;> omega
    have hmore : 2^(f.significandBits+3) ≤ sticky (a+b).toNat 1 :=
      (show 2^(f.significandBits+3)≤(a+b).toNat/2^1 by omega).trans Nat.left_le_or
    have hscale : (a.toNat+t)/(2^1 : ℕ)/(2^3 : ℕ)*(2 : ℚ)^(E+1-1)=
        (a.toNat+t)/(2^3 : ℕ)*(2 : ℚ)^(E-1) := by
      rw [add_sub_cancel_right,zpow_sub_one₀ two_ne_zero]
      push_cast
      ring
    have hspec := finish_spec (E := E+1) beyond s (by rw [hvalue]; exact hmore)
      (by rw [hvalue]; exact hless) (Nat.le_succ 1)
      (by rw [hvalue]; exact hagrees'.sticky (j := 1) (Nat.le_succ 1)) (by rw [hscale]; exact hone)
    rw [hscale] at hspec
    rw [if_pos (hbit.2 hcarry)]
    exact hspec
  · rw [if_neg (hbit.not.2 hcarry)]
    exact finish_spec beyond s (by rw [hsum]; omega) (not_le.1 hcarry) (Nat.le_succ 1) hagrees' hone

/-- The significands are subtracted. What was lost in the alignment was lost from a significand
that is far below the other one. -/
theorem cancel_spec {l : FpLib} {a b : l.Rep} (beyond : OverShift l.toPrecision) (s : Bool)
    (ha : a.toNat=c*2^1) (hlow : 2^(l.significandBits+3)≤a.toNat)
    (hhigh : a.toNat<2^(l.significandBits+4)) (hle : b.toNat≤a.toNat)
    (hfine : (b.toNat : ℚ)=t ∨ b.toNat<2^(l.significandBits+2)) (hagrees : Agrees 1 b.toNat t)
    (hne : (a.toNat : ℚ)≠t) (hone : 1≤(a.toNat-t)/(2^3 : ℕ)*(2 : ℚ)^(E-1)) :
    ∃ n, Signed (cancel l beyond E a b (signRep s)) s n ∧
      Nearest l.significandBits l.infRep.toNat ((a.toNat-t)/(2^3 : ℕ)*(2 : ℚ)^(E-1)) n := by
  have hexponent := l.exponent_four
  have hwidth : l.typeWidth=l.significandBits+l.exponentBits+1 := rfl
  have hdiff : (a-b).toNat=a.toNat-b.toNat := BitVec.toNat_sub_of_le (BitVec.le_def.2 hle)
  have hagrees' : Agrees 1 (a-b).toNat (a.toNat-t) := by
    rw [hdiff,ha]
    exact hagrees.sub (ha▸hle)
  have hpos : 0 < (a-b).toNat := by
    refine Nat.pos_of_ne_zero fun hzero => hne ?_
    have heq := (hagrees' 0).2
    rw [Nat.zero_mul,Nat.cast_zero] at heq
    exact sub_eq_zero.1 (heq.1 hzero)
  have hnonzero : a-b≠0#l.typeWidth := fun hzero => by
    rw [hzero] at hpos
    exact absurd hpos (Nat.lt_irrefl _)
  have hbit := toNat_implicitBit_shiftLeft (f := l.toPrecision) (k := 3) (by decide)
  unfold cancel
  dsimp only
  rw [if_neg hnonzero]
  by_cases hless : (a-b).toNat<2^(l.significandBits+3)
  · obtain ⟨j,hj,hjp,hshift,hmin,hmax⟩ := clz_align hpos hbit (by omega) hless
    have hvalue : ((a-b)<<<j).toNat=(a-b).toNat*2^j := by
      rw [BitVec.toNat_shiftLeft,Nat.shiftLeft_eq]
      exact Nat.mod_eq_of_lt (hmax.trans_le (Nat.pow_le_pow_right Nat.two_pos (by omega)))
    -- The moved significand agrees with the moved number as finely as the rounding needs.
    obtain ⟨g,hg,hmoved⟩ : ∃ g≤2, Agrees g ((a-b).toNat*2^j) ((a.toNat-t)*(2^j : ℕ)) := by
      rcases hfine with hexact|hfar
      · have hself : (a.toNat-t)*(2^j : ℕ)=(((a-b).toNat*2^j : ℕ) : ℚ) := by
          rw [hdiff,Nat.cast_mul,Nat.cast_sub hle,hexact]
        refine ⟨0,Nat.zero_le _,?_⟩
        rw [hself]
        exact agrees_self 0 _
      · refine ⟨1+j,?_,hagrees'.scale j⟩
        have hquarter : 2^(l.significandBits+3)=2*2^(l.significandBits+2) := Nat.pow_succ'
        have hmany : 2^(l.significandBits+2)*2^j<2^(l.significandBits+2)*2^2 := by
          calc 2^(l.significandBits+2)*2^j ≤ (a-b).toNat*2^j :=
              Nat.mul_le_mul_right _ (by omega)
            _ < 2^(l.significandBits+3+1) := hmax
            _ = 2^(l.significandBits+2)*2^2 := by rw [←Nat.pow_add]
        have hj2 := (Nat.pow_lt_pow_iff_right Nat.one_lt_two).1 (Nat.lt_of_mul_lt_mul_left hmany)
        omega
    have hscale : (a.toNat-t)*(2^j : ℕ)/(2^3 : ℕ)*(2 : ℚ)^(E-j-1)=
        (a.toNat-t)/(2^3 : ℕ)*(2 : ℚ)^(E-1) := by
      have hexp : (2 : ℚ)^(E-1)=(2 : ℚ)^(E-j-1)*(2^j : ℕ) := by
        rw [Nat.cast_pow,Nat.cast_ofNat,←zpow_natCast,←zpow_add₀ two_ne_zero]
        congr 1
        ring
      rw [hexp]
      ring
    have hspec := finish_spec (E := E-j) beyond s (by rw [hvalue]; exact hmin)
      (by rw [hvalue]; exact hmax) hg (by rw [hvalue]; exact hmoved) (by rw [hscale]; exact hone)
    rw [hscale] at hspec
    rw [if_pos (by rw [BitVec.lt_def,hbit]; exact hless),hshift,shl_of_lt beyond (by omega)]
    exact hspec
  · rw [if_neg (by rw [BitVec.lt_def,hbit]; exact hless)]
    exact finish_spec beyond s (not_lt.1 hless) (by rw [hdiff]; omega) (Nat.le_succ 1) hagrees' hone

/-- Equal significands cancel. -/
theorem cancel_self (l : FpLib) (beyond : OverShift l.toPrecision) (a resultSign : l.Rep) :
    cancel l beyond E a a resultSign=0#l.typeWidth := by
  unfold cancel
  rw [BitVec.sub_self]
  exact if_pos rfl

end Sum

section Alignment

variable {p A B mA mB : ℕ} {Ea Eb : ℤ}

/-- Two significands in one scale, the lesser one by a sticky form. From here on the exact numbers
play no part. -/
structure Aligned (p x y : ℕ) (t : ℚ) (E : ℤ) (mA mB : ℕ) : Prop where
  /-- The greater significand has no odd bits. -/
  even : ∃ c, x=c*2^1
  /-- Its highest bit is there. -/
  low : 2^(p+3)≤x
  /-- It is the highest bit. -/
  high : x<2^(p+4)
  /-- The other significand is no greater. -/
  le : y≤x
  /-- It is exact or far below. -/
  fine : (y : ℚ)=t ∨ y<2^(p+2)
  /-- It is a sticky form. -/
  agrees : Agrees 1 y t
  /-- The greater magnitude. -/
  eq : (x : ℚ)/(2^3 : ℕ)*(2 : ℚ)^(E-1)=mA
  /-- The lesser magnitude. -/
  eq' : t/(2^3 : ℕ)*(2 : ℚ)^(E-1)=mB

/-- The greater number has the greater exponent, or the same one and the greater significand. So the
order of the bits is that of the magnitudes. -/
theorem exponent_le (ha : Normalized p A Ea mA) (hb : Normalized p B Eb mB) (hle : mB ≤ mA) :
    Eb≤Ea ∧ (Ea=Eb → B≤A) := by
  have hle' : (B : ℚ)*(2 : ℚ)^(Eb-1)≤A*(2 : ℚ)^(Ea-1) := by
    rw [←ha.eq,←hb.eq]
    exact Nat.cast_le.2 hle
  refine ⟨not_lt.1 fun hless => ?_,fun heq => ?_⟩
  · have hpow : (2 : ℚ)^(Ea-1)*2≤(2 : ℚ)^(Eb-1) := by
      rw [←zpow_add_one₀ two_ne_zero]
      exact zpow_le_zpow_right₀ one_le_two (by omega)
    have hsmall : (A : ℚ)<2*(2^p : ℕ) := by
      have hhigh := ha.high
      rw [Nat.pow_succ'] at hhigh
      exact_mod_cast hhigh
    have hmore : ((2^p : ℕ) : ℚ)≤B := Nat.cast_le.2 hb.low
    have hpos : (0 : ℚ)<(2 : ℚ)^(Ea-1) := zpow_pos two_pos _
    have hpos' : (0 : ℚ)<(2^p : ℕ) := Nat.cast_pos.2 (Nat.two_pow_pos p)
    have hcontra : (A : ℚ)*(2 : ℚ)^(Ea-1)<B*(2 : ℚ)^(Eb-1) := by
      calc (A : ℚ)*(2 : ℚ)^(Ea-1) < 2*(2^p : ℕ)*(2 : ℚ)^(Ea-1) :=
          mul_lt_mul_of_pos_right hsmall hpos
        _ = (2^p : ℕ)*((2 : ℚ)^(Ea-1)*2) := by ring
        _ ≤ B*(2 : ℚ)^(Eb-1) := mul_le_mul hmore hpow (by positivity) (Nat.cast_nonneg _)
    exact absurd hle' (not_le.2 hcontra)
  · rw [heq] at hle'
    exact Nat.cast_le.1 (le_of_mul_le_mul_right hle' (zpow_pos two_pos _))

/-- The significand of the lesser number under that of the greater one, in the scale with three bits
more. -/
theorem aligned_spec (ha : Normalized p A Ea mA) (hb : Normalized p B Eb mB) (hle : mB ≤ mA) :
    ∃ d : ℕ, Ea-Eb=d ∧
      Aligned p (A*2^3) (sticky (B*2^3) d) ((B*2^3 : ℕ)/(2^d : ℕ)) Ea mA mB := by
  obtain ⟨hexp,hsame⟩ := exponent_le ha hb hle
  obtain ⟨d,hd⟩ : ∃ d : ℕ, Ea-Eb=d := ⟨(Ea-Eb).toNat,by omega⟩
  have hlow := ha.low
  have hhigh := ha.high
  have hhigh' := hb.high
  have hthree : 2^(p+3)=2^p*2^3 := Nat.pow_add ..
  have hfour : 2^(p+4)=2^(p+1)*2^3 := by rw [←Nat.pow_add]
  have hdown : ∀ k, k≤d → k≤4 → B*2^3/2^d<2^(p+4-k) := fun k hk hk4 => by
    refine Nat.div_lt_of_lt_mul ?_
    calc B*2^3 < 2^(p+4) := by omega
      _ = 2^k*2^(p+4-k) := by
        rw [←Nat.pow_add]
        congr 1
        omega
      _ ≤ 2^d*2^(p+4-k) := Nat.mul_le_mul_right _ (Nat.pow_le_pow_right Nat.two_pos hk)
  have hsticky : ∀ k, k≤d → k < 4 → sticky (B*2^3) d<2^(p+4-k) := fun k hk hk4 => by
    refine Nat.or_lt_two_pow (hdown k hk hk4.le) ?_
    have htwo := Nat.one_lt_two_pow (n := p+4-k) (by omega)
    split <;> omega
  have hexact : d≤3 → sticky (B*2^3) d=B*2^3/2^d ∧ B*2^3/2^d*2^d=B*2^3 := fun hd3 => by
    have hdvd : 2^d∣B*2^3 := Dvd.dvd.mul_left (Nat.pow_dvd_pow 2 hd3) B
    unfold sticky
    rw [if_pos (Nat.mod_eq_zero_of_dvd hdvd),Nat.or_zero]
    exact ⟨rfl,Nat.div_mul_cancel hdvd⟩
  have hpos : ((2^d : ℕ) : ℚ)≠0 := Nat.cast_ne_zero.2 (Nat.two_pow_pos d).ne'
  refine ⟨d,hd,⟨A*2^2,by ring⟩,by omega,by omega,?_,?_,
    (agrees_self 0 (B*2^3)).sticky (Nat.zero_le (d+1)),?_,?_⟩
  · rcases Nat.eq_zero_or_pos d with hzero|hmore
    · have hBA := hsame (by omega)
      rw [(hexact (by omega)).1,hzero,pow_zero,Nat.div_one]
      exact Nat.mul_le_mul_right _ hBA
    · have hless := hsticky 1 hmore (by decide)
      have hp : p+4-1=p+3 := rfl
      rw [hp] at hless
      omega
  · rcases Nat.lt_or_ge d 2 with hnear|hfar
    · obtain ⟨h1,h2⟩ := hexact (by omega)
      left
      rw [h1,eq_div_iff hpos,←Nat.cast_mul,h2]
    · exact Or.inr (hsticky 2 hfar (by decide))
  · rw [ha.eq,Nat.cast_mul,mul_div_cancel_right₀ _ (by positivity)]
  · have hsplit : (2 : ℚ)^(Ea-1)=(2 : ℚ)^(Eb-1)*(2^d : ℕ) := by
      rw [Nat.cast_pow,Nat.cast_ofNat,←zpow_natCast,←zpow_add₀ two_ne_zero,←hd]
      congr 1
      ring
    rw [hb.eq,hsplit,Nat.cast_mul]
    field_simp

end Alignment

section Ordered

variable {l : FpLib} {a b : l.Rep}

/-- A number that is not zero is normalized. -/
theorem renormalize_spec (hzero : ¬IsZero a) :
    Normalized l.significandBits ((renormalize l a).1|||l.implicitBit).toNat (renormalize l a).2
      (magnitude l.significandBits (absBits a)) := by
  unfold renormalize
  by_cases hsmall : absBits a<2^l.significandBits
  · rw [if_pos (exponent_denormal hsmall)]
    exact denormal_spec hzero hsmall
  · have hexp : exponent a=absBits a/2^l.significandBits := exponent_eq a
    rw [if_neg (by rw [hexp,Nat.div_eq_zero_iff_lt (Nat.two_pow_pos _)]; exact hsmall)]
    exact normal_spec (not_lt.1 hsmall)

/-- The sign does not count. -/
theorem renormalize_congr (h : absBits a=absBits b) : renormalize l a=renormalize l b := by
  have hexp : exponent a=exponent b := by
    rw [exponent_eq,exponent_eq]
    exact congrArg (·/2^l.significandBits) h
  have hsig : a&&&l.significandMask=b&&&l.significandMask := by
    refine BitVec.eq_of_toNat_eq ?_
    have hmod : absBits a%2^l.significandBits=absBits b%2^l.significandBits := by rw [h]
    unfold absBits at hmod
    rw [Nat.mod_mod_of_dvd _ (Nat.pow_dvd_pow 2 (Nat.le_add_right _ _)),
      Nat.mod_mod_of_dvd _ (Nat.pow_dvd_pow 2 (Nat.le_add_right _ _))] at hmod
    rw [toNat_and_significandMask,toNat_and_significandMask,hmod]
  unfold renormalize
  rw [hexp,hsig]

/-- A significand with its implicit bit and three more bits. -/
theorem toNat_shifted {x : l.Rep} (h : x.toNat<2^(l.significandBits+1)) :
    (x<<<3).toNat=x.toNat*2^3 := by
  have hexponent := l.exponent_four
  have hfour : 2^(l.significandBits+4)=2^(l.significandBits+1)*2^3 := by rw [←Nat.pow_add]
  have hwide : 2^(l.significandBits+4)≤2^l.typeWidth := Nat.pow_le_pow_right Nat.two_pos
    (show l.significandBits+4≤l.significandBits+l.exponentBits+1 by omega)
  rw [BitVec.toNat_shiftLeft,Nat.shiftLeft_eq,Nat.mod_eq_of_lt (by omega)]

/-- How the code tells different signs. -/
theorem subtraction_iff : (a^^^b)&&&l.signBit≠0#l.typeWidth ↔ a.msb≠b.msb := by
  have hbit : l.signBit≠0#l.typeWidth := fun hzero => by
    have hvalue := toNat_signBit (f := l.toPrecision)
    rw [hzero] at hvalue
    exact absurd hvalue.symm (Nat.two_pow_pos _).ne'
  rw [and_signBit,BitVec.msb_xor]
  unfold signRep
  cases a.msb <;> cases b.msb <;> simp [hbit]

/-- The significands that the code adds. -/
theorem significands_aligned (beyond : OverShift l.toPrecision) (ha : ¬IsZero a) (hb : ¬IsZero b)
    (hle : absBits b≤absBits a) :
    ∃ t, Aligned l.significandBits (((renormalize l a).1|||l.implicitBit)<<<3).toNat
      (alignTo beyond (((renormalize l b).1|||l.implicitBit)<<<3)
        ((renormalize l a).2-(renormalize l b).2)).toNat t (renormalize l a).2
      (magnitude l.significandBits (absBits a)) (magnitude l.significandBits (absBits b)) := by
  have hnormal := renormalize_spec ha
  have hnormal' := renormalize_spec hb
  obtain ⟨d,hd,haligned⟩ :=
    aligned_spec hnormal hnormal' ((magnitude_strictMono _).monotone hle)
  have hpos : 0 < (((renormalize l b).1|||l.implicitBit)<<<3).toNat := by
    rw [toNat_shifted hnormal'.high]
    exact Nat.mul_pos ((Nat.two_pow_pos _).trans_le hnormal'.low) (Nat.two_pow_pos 3)
  rw [hd,alignTo_spec beyond hpos,toNat_shifted hnormal.high,toNat_shifted hnormal'.high]
  exact ⟨_,haligned⟩

/-- Numbers of the same sign: their significands are added, and a carry may move the sum. -/
theorem addOrdered_same (beyond : OverShift l.toPrecision) (ha : ¬IsZero a) (hb : ¬IsZero b)
    (hle : absBits b≤absBits a) (hsign : a.msb=b.msb) :
    ∃ n, Signed (addOrdered l beyond a b) a.msb n ∧
      Nearest l.significandBits l.infRep.toNat
        (magnitude l.significandBits (absBits a)+magnitude l.significandBits (absBits b)) n := by
  obtain ⟨t,haligned⟩ := significands_aligned beyond ha hb hle
  obtain ⟨c,hc⟩ := haligned.even
  have hmag : 0 < magnitude l.significandBits (absBits a) :=
    (Nat.pos_of_ne_zero ha).trans_le (magnitude_strictMono _).le_apply
  have hone : (1 : ℚ) ≤ magnitude l.significandBits (absBits a)+
      magnitude l.significandBits (absBits b) := by
    exact_mod_cast (Nat.succ_le_of_lt hmag).trans (Nat.le_add_right _ _)
  rw [←haligned.eq,←haligned.eq',←add_mul,←add_div] at hone ⊢
  unfold addOrdered
  dsimp only
  rw [if_neg (subtraction_iff.not.2 (not_not.2 hsign)),and_signBit]
  exact carry_spec beyond a.msb hc haligned.low haligned.high
    (haligned.le.trans_lt haligned.high) haligned.agrees hone

/-- Numbers of different signs: the significands are subtracted, and the difference may have lost
leading bits. -/
theorem addOrdered_different (beyond : OverShift l.toPrecision) (ha : ¬IsZero a) (hb : ¬IsZero b)
    (hless : absBits b < absBits a) (hsign : a.msb≠b.msb) :
    ∃ n, Signed (addOrdered l beyond a b) a.msb n ∧
      Nearest l.significandBits l.infRep.toNat
        (magnitude l.significandBits (absBits a)-magnitude l.significandBits (absBits b)) n := by
  obtain ⟨t,haligned⟩ := significands_aligned beyond ha hb hless.le
  obtain ⟨c,hc⟩ := haligned.even
  have hmag := magnitude_strictMono l.significandBits hless
  have hone : (1 : ℚ) ≤ magnitude l.significandBits (absBits a)-
      magnitude l.significandBits (absBits b) := by
    rw [←Nat.cast_sub hmag.le]
    exact_mod_cast Nat.sub_pos_of_lt hmag
  rw [←haligned.eq,←haligned.eq',←sub_mul,←sub_div] at hone ⊢
  have hne : ((((renormalize l a).1|||l.implicitBit)<<<3).toNat : ℚ)≠t := fun heq => by
    rw [heq,sub_self,zero_div,zero_mul] at hone
    exact absurd hone (by norm_num)
  unfold addOrdered
  dsimp only
  rw [if_pos (subtraction_iff.2 hsign),and_signBit]
  exact cancel_spec beyond a.msb hc haligned.low haligned.high haligned.le haligned.fine
    haligned.agrees hne hone

/-- A number and its opposite. -/
theorem addOrdered_opposite (beyond : OverShift l.toPrecision) (h : absBits a=absBits b)
    (hsign : a.msb≠b.msb) : addOrdered l beyond a b=0#l.typeWidth := by
  unfold addOrdered alignTo
  dsimp only
  rw [if_pos (subtraction_iff.2 hsign),renormalize_congr h,if_neg (not_not.2 (sub_self _))]
  exact cancel_self l beyond _ _

end Ordered

section Correct

variable {f : Precision} {a b r : f.Rep} {s : Bool} {n : ℕ}

/-- There is no sum: NaN, or infinities of different signs. -/
def Invalid (a b : f.Rep) : Prop := IsNaN a ∨ IsNaN b ∨ IsInf a ∧ IsInf b ∧ a.msb≠b.msb

/-- The sum of two numbers, rounded to nearest: the exact sum where both are finite, with the signs
of zero as the standard has them. -/
structure IsSum (a b r : f.Rep) : Prop where
  /-- No sum. -/
  quiet : Invalid a b → IsQuiet r
  /-- An infinite number on the left. -/
  left : ¬Invalid a b → IsInf a → IsInf r ∧ r.msb=a.msb
  /-- An infinite number on the right. -/
  right : ¬Invalid a b → IsInf b → IsInf r ∧ r.msb=b.msb
  /-- A finite sum. -/
  finite : IsFinite a → IsFinite b → RoundsTo (value a+value b) r
  /-- Its sign: the sum is negative, or both numbers are where it is zero. -/
  sign : IsFinite a → IsFinite b →
    r.msb=if value a+value b=0 then a.msb&&b.msb else decide (value a+value b<0)

/-- The difference of two numbers, rounded to nearest, with the cases of NaN, infinities and zeros
as for the sum. -/
structure IsDifference (a b r : f.Rep) : Prop where
  /-- No difference: NaN, or infinities of the same sign. -/
  quiet : IsNaN a ∨ IsNaN b ∨ IsInf a ∧ IsInf b ∧ a.msb=b.msb → IsQuiet r
  /-- An infinite number on the left. -/
  left : IsInf a → ¬IsNaN b → (IsInf b → a.msb≠b.msb) → IsInf r ∧ r.msb=a.msb
  /-- An infinite number on the right. -/
  right : IsInf b → ¬IsNaN a → (IsInf a → a.msb≠b.msb) → IsInf r ∧ r.msb=!b.msb
  /-- A finite difference. -/
  finite : IsFinite a → IsFinite b → RoundsTo (value a-value b) r
  /-- Its sign: the difference is negative, or negative zero is the left number where it is zero. -/
  sign : IsFinite a → IsFinite b →
    r.msb=if value a-value b=0 then a.msb&&!b.msb else decide (value a-value b<0)

/-- A sum does not depend on the order. -/
theorem IsSum.symm (h : IsSum b a r) : IsSum a b r := by
  have hinvalid : Invalid a b ↔ Invalid b a := by
    unfold Invalid
    constructor
    · rintro (h|h|⟨h1,h2,h3⟩)
      exacts [Or.inr (Or.inl h),Or.inl h,Or.inr (Or.inr ⟨h2,h1,h3.symm⟩)]
    · rintro (h|h|⟨h1,h2,h3⟩)
      exacts [Or.inr (Or.inl h),Or.inl h,Or.inr (Or.inr ⟨h2,h1,h3.symm⟩)]
  refine ⟨fun hno => h.quiet (hinvalid.1 hno),fun hno => h.right (hinvalid.not.1 hno),
    fun hno => h.left (hinvalid.not.1 hno),fun ha hb => ?_,fun ha hb => ?_⟩
  · rw [add_comm]
    exact h.finite hb ha
  · rw [add_comm,Bool.and_comm]
    exact h.sign hb ha

/-- The numbers without a sum are not both finite. -/
theorem not_invalid (ha : IsFinite a) (hb : IsFinite b) : ¬Invalid a b := by
  obtain ⟨hnan,hinf⟩ := isFinite_iff.1 ha
  rintro (h|h|h)
  exacts [hnan h,(isFinite_iff.1 hb).1 h,hinf h.1]

/-- The bits and the sign make up the number. -/
theorem rep_ext (habs : absBits a=absBits b) (hsign : a.msb=b.msb) : a=b := by
  have ha := signed_self a
  have hb := signed_self b
  unfold Signed at ha hb
  refine BitVec.eq_of_toNat_eq ?_
  rw [ha,hb,habs,hsign]

/-- The opposite of a number. -/
theorem negf2_parts (a : f.Rep) : absBits (negf2 a)=absBits a ∧ (negf2 a).msb=!a.msb := by
  have hbit : f.signBit.msb=true := by
    rw [BitVec.msb_eq_decide]
    exact decide_eq_true (le_of_eq toNat_signBit.symm)
  unfold negf2 absBits
  constructor
  · rw [BitVec.toNat_xor,Nat.xor_mod_two_pow,toNat_signBit,Nat.mod_self,Nat.xor_zero]
  · rw [BitVec.msb_xor,hbit,Bool.xor_true]

/-- How the code tells opposite numbers. -/
theorem xor_eq_signBit_iff : a^^^b=f.signBit ↔ absBits a=absBits b ∧ a.msb≠b.msb := by
  obtain ⟨habs,hsign⟩ := negf2_parts a
  constructor
  · intro h
    have hb : b=negf2 a := by
      unfold negf2
      rw [←h,←BitVec.xor_assoc,BitVec.xor_self,BitVec.zero_xor]
    rw [hb,habs,hsign]
    exact ⟨rfl,(Bool.not_ne_self a.msb).symm⟩
  · rintro ⟨h,h'⟩
    have hb : negf2 a=b := rep_ext (habs.trans h) (hsign.trans (Bool.eq_not.2 (Ne.symm h')).symm)
    unfold negf2 at hb
    rw [←hb,←BitVec.xor_assoc,BitVec.xor_self,BitVec.zero_xor]

/-- A sum other than zero. -/
theorem isSum_signed {y : ℚ} (ha : IsFinite a) (hb : IsFinite b) (hy : 0 < y)
    (hsum : value a+value b=if s then -(y*unit f) else y*unit f) (hr : Signed r s n)
    (hn : Nearest f.significandBits f.infRep.toNat y n) : IsSum a b r := by
  have hunit := unit_pos f
  have hpos := mul_pos hy hunit
  obtain ⟨habs,hsign⟩ := hr.parts (nearest_lt hn)
  have hno := not_invalid ha hb
  refine ⟨fun h => absurd h hno,fun _ h => absurd h (isFinite_iff.1 ha).2,
    fun _ h => absurd h (isFinite_iff.1 hb).2,fun _ _ => ?_,fun _ _ => ?_⟩
  · have hsize : |value a+value b|/unit f=y := by
      rw [hsum]
      cases s with
      | true => rw [if_pos rfl,abs_neg,abs_of_pos hpos,mul_div_cancel_right₀ y hunit.ne']
      | false =>
        rw [if_neg Bool.false_ne_true,abs_of_pos hpos,mul_div_cancel_right₀ y hunit.ne']
    unfold RoundsTo
    rw [hsize,habs]
    exact hn
  · rw [hsum,hsign]
    cases s with
    | true =>
      rw [if_pos rfl,if_neg (neg_ne_zero.2 hpos.ne')]
      exact (decide_eq_true (neg_lt_zero.2 hpos)).symm
    | false =>
      rw [if_neg Bool.false_ne_true,if_neg hpos.ne']
      exact (decide_eq_false (lt_asymm hpos)).symm

/-- A sum of zero. -/
theorem isSum_zero (ha : IsFinite a) (hb : IsFinite b) (hsum : value a+value b=0)
    (hr : absBits r=0) (hsign : r.msb=(a.msb&&b.msb)) : IsSum a b r := by
  have hno := not_invalid ha hb
  refine ⟨fun h => absurd h hno,fun _ h => absurd h (isFinite_iff.1 ha).2,
    fun _ h => absurd h (isFinite_iff.1 hb).2,fun _ _ => ?_,fun _ _ => ?_⟩
  · unfold RoundsTo
    rw [hsum,hr,abs_zero,zero_div]
    exact nearest_zero (by norm_num)
  · rw [hsum,if_pos rfl,hsign]

/-- Zero and a number. -/
theorem isSum_zero_left (ha : IsZero a) (hb : IsFinite b) (hzero : ¬IsZero b) : IsSum a b b := by
  have hmag : 0 < magnitude f.significandBits (absBits b) :=
    (Nat.pos_of_ne_zero hzero).trans_le (magnitude_strictMono _).le_apply
  refine isSum_signed ha.isFinite hb (Nat.cast_pos.2 hmag) ?_ (signed_self b)
    (nearest_self (Nat.le_of_lt hb))
  rw [value_zero ha,zero_add]
  rfl

/-- No sum. -/
theorem isSum_invalid (h : Invalid a b) (hr : IsQuiet r) : IsSum a b r :=
  ⟨fun _ => hr,fun hno => absurd h hno,fun hno => absurd h hno,
    fun ha hb => absurd h (not_invalid ha hb),fun ha hb => absurd h (not_invalid ha hb)⟩

/-- An infinite number on the left. -/
theorem isSum_infinite (hno : ¬Invalid a b) (ha : IsInf a) : IsSum a b a := by
  refine ⟨fun h => absurd h hno,fun _ _ => ⟨ha,rfl⟩,fun _ hb => ⟨ha,?_⟩,
    fun h => absurd ha (isFinite_iff.1 h).2,fun h => absurd ha (isFinite_iff.1 h).2⟩
  by_contra hne
  exact hno (Or.inr (Or.inr ⟨ha,hb,hne⟩))

/-- The early returns are sums, and what is left are numbers other than zero. NaN, infinities and
zeros are all returned early. -/
theorem special_spec (a b : f.Rep) :
    match special a b with
    | some r => IsSum a b r
    | none => (IsFinite a ∧ ¬IsZero a) ∧ IsFinite b ∧ ¬IsZero b := by
  unfold special
  dsimp only
  by_cases hnan : IsNaN a
  · rw [if_pos ((infRep_lt_iff a).2 hnan)]
    exact isSum_invalid (Or.inl hnan) (quiet_or hnan)
  by_cases hnan' : IsNaN b
  · rw [if_neg ((infRep_lt_iff a).not.2 hnan),if_pos ((infRep_lt_iff b).2 hnan')]
    exact isSum_invalid (Or.inr (Or.inl hnan')) (quiet_or hnan')
  rw [if_neg ((infRep_lt_iff a).not.2 hnan),if_neg ((infRep_lt_iff b).not.2 hnan')]
  by_cases hinf : IsInf a
  · rw [if_pos ((eq_infRep_iff a).2 hinf)]
    by_cases hopposite : a^^^b=f.signBit
    · obtain ⟨habs,hsign⟩ := xor_eq_signBit_iff.1 hopposite
      rw [if_pos hopposite]
      exact isSum_invalid (Or.inr (Or.inr ⟨hinf,habs.symm.trans hinf,hsign⟩)) quiet_qnan
    · rw [if_neg hopposite]
      refine isSum_infinite ?_ hinf
      rintro (h|h|⟨-,h,hsign⟩)
      exacts [hnan h,hnan' h,hopposite (xor_eq_signBit_iff.2 ⟨hinf.trans h.symm,hsign⟩)]
  rw [if_neg ((eq_infRep_iff a).not.2 hinf)]
  have ha := isFinite_iff.2 ⟨hnan,hinf⟩
  by_cases hinf' : IsInf b
  · rw [if_pos ((eq_infRep_iff b).2 hinf')]
    refine (isSum_infinite ?_ hinf').symm
    rintro (h|h|⟨-,h,-⟩)
    exacts [hnan' h,hnan h,hinf h]
  rw [if_neg ((eq_infRep_iff b).not.2 hinf')]
  have hb := isFinite_iff.2 ⟨hnan',hinf'⟩
  by_cases hzero : IsZero a
  · rw [if_pos ((eq_zero_iff a).2 hzero)]
    by_cases hzero' : IsZero b
    · rw [if_pos ((eq_zero_iff b).2 hzero')]
      refine isSum_zero ha hb (by rw [value_zero hzero,value_zero hzero',add_zero]) ?_ ?_
      · unfold IsZero at hzero hzero'
        unfold absBits at hzero hzero' ⊢
        rw [BitVec.toNat_and,Nat.and_mod_two_pow,hzero,hzero',Nat.and_self]
      · exact BitVec.msb_and
    · rw [if_neg ((eq_zero_iff b).not.2 hzero')]
      exact isSum_zero_left hzero hb hzero'
  by_cases hzero' : IsZero b
  · rw [if_neg ((eq_zero_iff a).not.2 hzero),if_pos ((eq_zero_iff b).2 hzero')]
    exact (isSum_zero_left hzero' ha hzero).symm
  rw [if_neg ((eq_zero_iff a).not.2 hzero),if_neg ((eq_zero_iff b).not.2 hzero')]
  exact ⟨⟨ha,hzero⟩,hb,hzero'⟩

/-- What is not outside is a number other than zero. -/
theorem inside_spec (h : ¬outside (a&&&f.absMask)) : IsFinite a ∧ ¬IsZero a := by
  have hpos := infRep_pos (f := f)
  have htop := infRep_lt (f := f)
  have habs := absBits_lt a
  have hwidth : 2^f.typeWidth=2*2^(f.significandBits+f.exponentBits) := Nat.pow_succ'
  have hone : (1#f.typeWidth).toNat=1 := Nat.mod_eq_of_lt (Nat.one_lt_two_pow (Nat.succ_ne_zero _))
  have hvalue : (a&&&f.absMask).toNat=absBits a := toNat_and_absMask a
  unfold outside at h
  rw [BitVec.not_le,BitVec.lt_def,BitVec.toNat_sub_of_le (x := f.infRep)
    (BitVec.le_def.2 (by rw [hone]; exact hpos)),BitVec.toNat_sub,hone,hvalue] at h
  unfold IsFinite IsZero
  by_cases hzero : absBits a=0
  · rw [hzero,Nat.add_zero,Nat.mod_eq_of_lt (by omega)] at h
    omega
  · rw [Nat.mod_eq_sub_mod (by omega),Nat.mod_eq_of_lt (by omega)] at h
    omega

/-- The sum of two numbers other than zero, the first of the larger absolute value: by its sign it
is an addition or a subtraction. -/
theorem addOrdered_spec {l : FpLib} {a b : l.Rep} (beyond : OverShift l.toPrecision)
    (ha : IsFinite a) (hb : IsFinite b) (hzero : ¬IsZero a) (hzero' : ¬IsZero b)
    (hle : absBits b≤absBits a) : IsSum a b (addOrdered l beyond a b) := by
  have hvalue : value a=if a.msb then -(magnitude l.significandBits (absBits a)*unit l.toPrecision)
      else magnitude l.significandBits (absBits a)*unit l.toPrecision := rfl
  have hvalue' : value b=if b.msb then -(magnitude l.significandBits (absBits b)*unit l.toPrecision)
      else magnitude l.significandBits (absBits b)*unit l.toPrecision := rfl
  by_cases hsign : a.msb=b.msb
  · obtain ⟨n,hsigned,hnear⟩ := addOrdered_same beyond hzero hzero' hle hsign
    have hmag : 0 < magnitude l.significandBits (absBits a) :=
      (Nat.pos_of_ne_zero hzero).trans_le (magnitude_strictMono _).le_apply
    refine isSum_signed ha hb (by positivity) ?_ hsigned hnear
    rw [hvalue,hvalue',←hsign]
    cases a.msb with
    | true => rw [if_pos rfl,if_pos rfl,if_pos rfl]; ring
    | false => simp only [Bool.false_eq_true,if_false]; ring
  have hother : b.msb=!a.msb := Bool.eq_not.2 (Ne.symm hsign)
  rcases Nat.lt_or_eq_of_le hle with hless|hsame
  · obtain ⟨n,hsigned,hnear⟩ := addOrdered_different beyond hzero hzero' hless hsign
    have hmag := magnitude_strictMono l.significandBits hless
    refine isSum_signed ha hb (sub_pos.2 (Nat.cast_lt.2 hmag)) ?_ hsigned hnear
    rw [hvalue,hvalue',hother]
    cases a.msb with
    | true => simp only [Bool.not_true,Bool.false_eq_true,if_true,if_false]; ring
    | false => simp only [Bool.not_false,Bool.false_eq_true,if_true,if_false]; ring
  · have hnone := addOrdered_opposite beyond hsame.symm hsign
    rw [hnone]
    refine isSum_zero ha hb ?_ (Nat.zero_mod _) ?_
    · rw [hvalue,hvalue',hother,hsame]
      cases a.msb <;> simp
    · rw [hother,Bool.and_not_self]
      exact BitVec.msb_zero

/-- The sum of two numbers other than zero. -/
theorem addNumbers_spec {l : FpLib} {a b : l.Rep} (beyond : OverShift l.toPrecision)
    (ha : IsFinite a ∧ ¬IsZero a) (hb : IsFinite b ∧ ¬IsZero b) :
    IsSum a b (addNumbers l beyond a b) := by
  have hlt : a&&&l.absMask < b&&&l.absMask ↔ absBits a < absBits b := by
    rw [BitVec.lt_def,toNat_and_absMask,toNat_and_absMask]
    exact Iff.rfl
  unfold addNumbers
  by_cases hless : absBits a < absBits b
  · rw [if_pos (hlt.2 hless)]
    exact (addOrdered_spec beyond hb.1 ha.1 hb.2 ha.2 hless.le).symm
  · rw [if_neg (hlt.not.2 hless)]
    exact addOrdered_spec beyond ha.1 hb.1 ha.2 hb.2 (not_lt.1 hless)

/-- The addition of both precisions gives the sum of all numbers, rounded to nearest. -/
theorem addf3_spec (l : FpLib) (beyond : OverShift l.toPrecision) (a b : l.Rep) :
    IsSum a b (addf3 l beyond a b) := by
  unfold addf3
  by_cases hout : outside (a&&&l.absMask) ∨ outside (b&&&l.absMask)
  · rw [if_pos hout]
    have hspecial := special_spec a b
    cases hcase : special a b with
    | some r =>
      rw [hcase] at hspecial
      exact hspecial
    | none =>
      rw [hcase] at hspecial
      exact addNumbers_spec beyond hspecial.1 hspecial.2
  · rw [if_neg hout]
    exact addNumbers_spec beyond (inside_spec (not_or.1 hout).1) (inside_spec (not_or.1 hout).2)

/-- A finite sum is one number. -/
theorem IsSum.unique {r' : f.Rep} (ha : IsFinite a) (hb : IsFinite b) (h : IsSum a b r)
    (h' : IsSum a b r') : r=r' :=
  rep_ext ((h.finite ha hb).unique (h'.finite ha hb))
    ((h.sign ha hb).trans (h'.sign ha hb).symm)

/-- The addition of numbers is commutative. -/
theorem addf3_comm {l : FpLib} {a b : l.Rep} (beyond : OverShift l.toPrecision) (ha : IsFinite a)
    (hb : IsFinite b) : addf3 l beyond a b=addf3 l beyond b a :=
  (addf3_spec l beyond a b).unique ha hb (addf3_spec l beyond b a).symm

/-- The value of the opposite. -/
theorem value_negf2 (a : f.Rep) : value (negf2 a)=-value a := by
  obtain ⟨habs,hsign⟩ := negf2_parts a
  unfold value
  rw [habs,hsign]
  cases a.msb <;> simp

/-- A sum with the opposite is a difference. NaN is apart, whose sign does not matter. -/
theorem IsSum.difference (h : IsSum a (negf2 b) r) : IsDifference a b r := by
  obtain ⟨habs,hsign⟩ := negf2_parts b
  have hnan : IsNaN (negf2 b) ↔ IsNaN b := by
    unfold IsNaN
    rw [habs]
  have hinf : IsInf (negf2 b) ↔ IsInf b := by
    unfold IsInf
    rw [habs]
  have hfinite : IsFinite (negf2 b) ↔ IsFinite b := by
    unfold IsFinite
    rw [habs]
  have hother : a.msb≠(negf2 b).msb ↔ a.msb=b.msb := by
    rw [hsign]
    cases a.msb <;> cases b.msb <;> simp
  have hinvalid : Invalid a (negf2 b) ↔ IsNaN a ∨ IsNaN b ∨ IsInf a ∧ IsInf b ∧ a.msb=b.msb := by
    unfold Invalid
    rw [hnan,hinf,hother]
  have hexclusive : ∀ {x : f.Rep}, IsInf x → ¬IsNaN x := fun {x} hx hno => by
    unfold IsInf at hx
    unfold IsNaN at hno
    omega
  refine ⟨fun hno => h.quiet (hinvalid.2 hno),fun ha hb hne => h.left ?_ ha,
    fun hb ha hne => ?_,fun ha hb => ?_,fun ha hb => ?_⟩
  · rw [hinvalid]
    rintro (hno|hno|⟨-,hb',hno⟩)
    exacts [hexclusive ha hno,hb hno,hne hb' hno]
  · rw [←hsign]
    refine h.right ?_ (hinf.2 hb)
    rw [hinvalid]
    rintro (hno|hno|⟨ha',-,hno⟩)
    exacts [ha hno,hexclusive hb hno,hne ha' hno]
  · have hfin := h.finite ha (hfinite.2 hb)
    rw [value_negf2,←sub_eq_add_neg] at hfin
    exact hfin
  · have hsig := h.sign ha (hfinite.2 hb)
    rw [value_negf2,←sub_eq_add_neg,hsign] at hsig
    exact hsig

/-- `__addsf3` and `__adddf3` give the sum of all numbers and `__subsf3` and `__subdf3` the
difference, whatever shifts by other counts than those below the width give. -/
theorem addition_correct (beyond : OverShift single.toPrecision)
    (beyond' : OverShift double.toPrecision) :
    (∀ a b, IsSum (f := single.toPrecision) a b (addsf3 beyond a b) ∧
      IsDifference (f := single.toPrecision) a b (subsf3 beyond a b)) ∧
    ∀ a b, IsSum (f := double.toPrecision) a b (adddf3 beyond' a b) ∧
      IsDifference (f := double.toPrecision) a b (subdf3 beyond' a b) :=
  ⟨fun a b => ⟨addf3_spec single beyond a b,(addf3_spec single beyond a _).difference⟩,
    fun a b => ⟨addf3_spec double beyond' a b,(addf3_spec double beyond' a _).difference⟩⟩

end Correct

end RigelTarget.SoftFloatAdd
