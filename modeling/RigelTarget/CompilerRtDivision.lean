import RigelTarget.DoubleWord
import RigelTarget.RestoringDivision
import Mathlib

/-!
# Integer division of compiler-rt

`__udivsi3` and `__udivmoddi4` move the numerator below the divisor by their leading zeros and then
divide bit by bit. `__udivmoddi4` works on the words of its arguments and treats the cases in which
a word is zero or a power of two on their own; one of its shifts may count the whole width of a
word or more, and masks drop what it gives. The other functions of the family are built from these
two.
-/

namespace RigelTarget.CompilerRtDivision

open DoubleWord RestoringDivision

section Code

/-- `udwords`: the words of a number, in the order in which a little-endian machine has them. -/
structure Udwords where
  /-- `s.low`. -/
  low : BitVec 32
  /-- `s.high`. -/
  high : BitVec 32
  deriving DecidableEq

/-- `all`: the number that two words make up. Both are members of one union in the source. -/
def Udwords.all (x : Udwords) : BitVec 64 := x.high++x.low

/-- The words of `all`: the same union, read by its other member. -/
def udwords (all : BitVec 64) : Udwords := ⟨all.setWidth 32,(all>>>32).setWidth 32⟩

/-- What shifts by the width or more give, which C leaves open. The theorems hold for every
choice. -/
structure OverShift where
  /-- Shifts to the left. -/
  left : BitVec 32 → BitVec 32 → BitVec 32
  /-- Shifts to the right. -/
  right : BitVec 32 → BitVec 32 → BitVec 32

variable (beyond : OverShift)

/-- `x << count`. Counts of `__udivmoddi4` may be the width or more, and negative ones are large as
words; then the shift gives whatever the machine gives. -/
def shl (x count : BitVec 32) : BitVec 32 :=
  if count.toNat<32 then x<<<count.toNat else beyond.left x count

/-- `x >> count` of an `unsigned`, with counts out of range as for the shift to the left. -/
def shr (x count : BitVec 32) : BitVec 32 :=
  if count.toNat<32 then x>>>count.toNat else beyond.right x count

/-- `(si_int)x >> (n_uword_bits - 1)`: all bits are the sign of the number, so this is a mask that
keeps everything or nothing. -/
def signMask (x : BitVec 32) : BitVec 32 := x.sshiftRight 31

/-- `__udivsi3`: the special cases, the leading zeros for the number of turns, and the loop. A
divisor of zero gives zero. -/
def udivsi3 (n d : BitVec 32) : BitVec 32 :=
  if d=0 then 0
  else if n=0 then 0
  else
    let sr := d.clz-n.clz
    if 31 < sr then 0
    else if sr=31 then n
    else
      let sr := sr+1
      quotient (turns d sr.toNat ⟨shl beyond n (32-sr),shr beyond n sr,0⟩)

/-- `__umodsi3`: what is left of the number when the product of quotient and divisor is taken
away. -/
def umodsi3 (a b : BitVec 32) : BitVec 32 := a-udivsi3 beyond a b*b

/-- `(a ^ s) - s` with the sign `s` of another number: the number or its opposite. With a mask of
ones it is the complement and one more. -/
def negateIf {w : ℕ} (a s : BitVec w) : BitVec w := (a^^^s)-s

/-- `__divsi3`: the unsigned division of the absolute values, with the sign of the quotient. -/
def divsi3 (a b : BitVec 32) : BitVec 32 :=
  let signA := a.sshiftRight 31
  let signB := b.sshiftRight 31
  negateIf (udivsi3 beyond (negateIf a signA) (negateIf b signB)) (signA^^^signB)

/-- `__modsi3`: as for unsigned words, with the signed quotient. So the remainder has the sign of
the number. -/
def modsi3 (a b : BitVec 32) : BitVec 32 := a-divsi3 beyond a b*b

/-- The words of the loop of `__udivmoddi4`: quotient and remainder move as one register of four
words. -/
structure WordRegisters where
  /-- `q`. -/
  q : Udwords
  /-- `r`. -/
  r : Udwords
  /-- `carry`. -/
  carry : BitVec 32
  deriving DecidableEq

/-- A turn of the loop of `__udivmoddi4` on words: four of them move up by a bit together. The
subtraction is on the double word of the remainder. -/
def wordTurn (d : BitVec 64) (s : WordRegisters) : WordRegisters :=
  let rHigh := s.r.high<<<1|||s.r.low>>>31
  let rLow := s.r.low<<<1|||s.q.high>>>31
  let qHigh := s.q.high<<<1|||s.q.low>>>31
  let qLow := s.q.low<<<1|||s.carry
  let r := Udwords.all ⟨rLow,rHigh⟩
  let mask := (d-r-1#64).sshiftRight 63
  ⟨⟨qLow,qHigh⟩,udwords (r-(d&&&mask)),(mask&&&1#64).setWidth 32⟩

/-- `for (; sr > 0; --sr)`: as many turns as the quotient has bits left to be found. -/
def wordTurns (d : BitVec 64) : ℕ → WordRegisters → WordRegisters
  | 0, s => s
  | sr+1, s => wordTurns d sr (wordTurn d s)

/-- The loop and what follows it: the quotient and the remainder. The last bit of the quotient is
still in the carry when the loop ends. -/
def divideWords (d : BitVec 64) (sr : BitVec 32) (q r : Udwords) : BitVec 64×BitVec 64 :=
  let s := wordTurns d sr.toNat ⟨q,r,0⟩
  (s.q.all<<<1|||s.carry.setWidth 64,s.r.all)

/-- The part of `__udivmoddi4` where only the high word of the divisor is not zero, with its branch
for powers of two. -/
def divideK0 (n d : Udwords) : BitVec 64×BitVec 64 :=
  if n.low=0 then ((n.high/d.high).setWidth 64,Udwords.all ⟨0,n.high%d.high⟩)
  else if d.high&&&(d.high-1)=0 then
    ((shr beyond n.high d.high.ctz).setWidth 64,Udwords.all ⟨n.low,n.high&&&(d.high-1)⟩)
  else
    let sr := d.high.clz-n.high.clz
    if 30 < sr then (0,n.all)
    else
      let sr := sr+1
      divideWords d.all sr ⟨0,shl beyond n.low (32-sr)⟩
        ⟨shl beyond n.high (32-sr)|||shr beyond n.low sr,shr beyond n.high sr⟩

/-- The part of `__udivmoddi4` where the high word of the divisor is zero. Outside the powers of two
its masks make one branch of all shifts. -/
def divide0K (n d : Udwords) : BitVec 64×BitVec 64 :=
  if d.low&&&(d.low-1)=0 then
    let rem := (n.low&&&(d.low-1)).setWidth 64
    if d.low=1 then (n.all,rem)
    else
      let sr := d.low.ctz
      (Udwords.all ⟨shl beyond n.high (32-sr)|||shr beyond n.low sr,shr beyond n.high sr⟩,rem)
  else
    let sr := 1+32+d.low.clz-n.high.clz
    divideWords d.all sr
      ⟨shl beyond n.low (64-sr)&&&signMask (32-sr),
        shl beyond n.low (32-sr)&&&signMask (sr-32-1)|||
          (shl beyond n.high (64-sr)|||shr beyond n.low (sr-32))&&&signMask (32-sr)⟩
      ⟨shr beyond n.high (sr-32)&&&signMask (32-sr-1)|||
          (shl beyond n.high (32-sr)|||shr beyond n.low sr)&&&signMask (sr-32),
        shr beyond n.high sr&&&signMask (sr-32)⟩

/-- The part of `__udivmoddi4` where both words of the divisor are not zero, so that the quotient
has one word. -/
def divideKK (n d : Udwords) : BitVec 64×BitVec 64 :=
  let sr := d.high.clz-n.high.clz
  if 31 < sr then (0,n.all)
  else
    let sr := sr+1
    divideWords d.all sr ⟨0,shl beyond n.low (32-sr)⟩
      ⟨shl beyond n.high (32-sr)|||shr beyond n.low sr&&&signMask (sr-32),
        shr beyond n.high sr&&&signMask (sr-32)⟩

/-- `__udivmoddi4` with the number that it stores to `rem`, by cases on which words of the operands
are zero. -/
def udivmoddi4 (a b : BitVec 64) : BitVec 64×BitVec 64 :=
  let n := udwords a
  let d := udwords b
  if n.high=0 then
    if d.high=0 then ((n.low/d.low).setWidth 64,(n.low%d.low).setWidth 64)
    else (0,n.low.setWidth 64)
  else if d.low=0 then
    if d.high=0 then ((n.high/d.low).setWidth 64,(n.high%d.low).setWidth 64)
    else divideK0 beyond n d
  else if d.high=0 then divide0K beyond n d
  else divideKK beyond n d

/-- `__udivdi3`: the quotient of `__udivmoddi4`, with no place for the remainder. -/
def udivdi3 (a b : BitVec 64) : BitVec 64 := (udivmoddi4 beyond a b).1

/-- `__umoddi3`: the remainder that `__udivmoddi4` stores; the quotient is dropped. -/
def umoddi3 (a b : BitVec 64) : BitVec 64 := (udivmoddi4 beyond a b).2

/-- `__divdi3`: the unsigned division of the absolute values, with the sign of the quotient, as for
words. -/
def divdi3 (a b : BitVec 64) : BitVec 64 :=
  let signA := a.sshiftRight 63
  let signB := b.sshiftRight 63
  negateIf (udivmoddi4 beyond (negateIf a signA) (negateIf b signB)).1 (signA^^^signB)

/-- `__moddi3`: the unsigned remainder of the absolute values, with the sign of the number. -/
def moddi3 (a b : BitVec 64) : BitVec 64 :=
  let signB := b.sshiftRight 63
  let signA := a.sshiftRight 63
  negateIf (udivmoddi4 beyond (negateIf a signA) (negateIf b signB)).2 signA

end Code

section Words

variable (beyond : OverShift)

/-- The words of a number make up the number. -/
theorem all_udwords (a : BitVec 64) : (udwords a).all=a := words_of (w := 32) a

/-- The value of two words. -/
theorem toNat_all (x : Udwords) : x.all.toNat=x.high.toNat*2^32+x.low.toNat :=
  toNat_words x.high x.low

/-- A word keeps its value in two words. -/
theorem toNat_wide (x : BitVec 32) : (x.setWidth 64).toNat=x.toNat := by
  have hmax := x.isLt
  rw [BitVec.toNat_setWidth]
  exact Nat.mod_eq_of_lt (by omega)

/-- A shift to the left by less than the width. -/
theorem shl_eq (x : BitVec 32) {count : BitVec 32} {k : ℕ} (hcount : count.toNat=k) (hk : k<32) :
    shl beyond x count=x<<<k := by
  rw [shl,if_pos (hcount ▸ hk),hcount]

/-- A shift to the right by less than the width. -/
theorem shr_eq (x : BitVec 32) {count : BitVec 32} {k : ℕ} (hcount : count.toNat=k) (hk : k<32) :
    shr beyond x count=x>>>k := by
  rw [shr,if_pos (hcount ▸ hk),hcount]

/-- The mask of a number that is not negative keeps nothing. -/
theorem and_signMask_low (x : BitVec 32) {y : BitVec 32} (hy : y.toNat<2^31) :
    x&&&signMask y=0#32 := by
  have hmsb : y.msb=false := by
    rw [BitVec.msb_eq_decide,decide_eq_false]
    omega
  rw [signMask,sshiftRight_sign,hmsb,if_neg Bool.false_ne_true,BitVec.and_zero]

/-- The mask of a negative number keeps everything. -/
theorem and_signMask_high (x : BitVec 32) {y : BitVec 32} (hy : 2^31≤y.toNat) :
    x&&&signMask y=x := by
  have hmsb : y.msb=true := by
    rw [BitVec.msb_eq_decide,decide_eq_true]
    omega
  rw [signMask,sshiftRight_sign,hmsb,if_pos rfl,BitVec.and_allOnes]

/-- A power of two and its trailing zeros. -/
theorem power_of_two {x : BitVec 32} (hx : x≠0) (h : x&&&(x-1)=0) :
    x.toNat=2^x.ctz.toNat ∧ x.ctz.toNat<32 := by
  have hpos : x.toNat≠0 := fun hzero => hx (BitVec.eq_of_toNat_eq hzero)
  have hsub : (x-1).toNat=x.toNat-1 := by bv_omega
  have hand : x.toNat&&&(x.toNat-1)=0 := by
    rw [←hsub,←BitVec.toNat_and,h]
    rfl
  obtain ⟨k,hk⟩ := (Nat.and_sub_one_eq_zero_iff_isPowerOfTwo hpos).1 hand
  have hbit := BitVec.getLsbD_true_ctz_of_ne_zero hx
  rw [←BitVec.testBit_toNat,hk,Nat.testBit_two_pow,decide_eq_true_eq] at hbit
  refine ⟨by rw [hk,hbit],?_⟩
  have hmax := x.isLt
  rw [hk,hbit] at hmax
  exact (Nat.pow_lt_pow_iff_right Nat.one_lt_two).1 hmax

/-- The highest bit of a word by its leading zeros. -/
theorem clz_word {x : BitVec 32} (hx : x≠0) :
    x.clz.toNat<32 ∧ 2^(31-x.clz.toNat)≤x.toNat ∧ x.toNat<2^(32-x.clz.toNat) := clz_bounds hx

/-- The words as registers of the division, on which the general theorems about dividing bit by bit
are stated. -/
def WordRegisters.registers (s : WordRegisters) : Registers 64 :=
  ⟨s.q.all,s.r.all,s.carry.setWidth 64⟩

/-- Two words move up by a bit that comes from below. -/
theorem all_shiftIn (x : Udwords) (b : BitVec 32) :
    Udwords.all ⟨x.low<<<1|||b,x.high<<<1|||x.low>>>31⟩=x.all<<<1|||b.setWidth 64 := by
  have hmove := shiftLeft_le (w := 32) (s := 1) (by decide) x.high x.low
  have hbelow : b.setWidth 64=0#32++b := BitVec.setWidth_eq_append (by decide)
  unfold Udwords.all
  rw [hmove,hbelow,BitVec.or_append,BitVec.or_zero]

/-- The words of a turn are the registers of a turn, so the abstract loop tells what the words are
in the end. -/
theorem wordTurn_registers (d : BitVec 64) (s : WordRegisters) :
    (wordTurn d s).registers=turn d s.registers := by
  have hq := all_shiftIn s.q s.carry
  have hr : Udwords.all ⟨s.r.low<<<1|||s.q.high>>>31,s.r.high<<<1|||s.r.low>>>31⟩=
      s.r.all<<<1|||s.q.all>>>63 := by
    have htop := ushiftRight_ge (w := 32) (s := 63) (by decide) s.q.high s.q.low
    have hbelow : (s.q.high>>>31).setWidth 64=0#32++s.q.high>>>31 :=
      BitVec.setWidth_eq_append (by decide)
    rw [all_shiftIn,hbelow]
    exact congrArg _ htop.symm
  have hcarry : ∀ m : BitVec 64, ((m&&&1#64).setWidth 32).setWidth 64=m&&&1#64 := by
    intro m
    refine BitVec.eq_of_toNat_eq ?_
    have hone : (m&&&1#64).toNat≤1 := by
      rw [BitVec.toNat_and]
      exact Nat.and_le_right
    rw [BitVec.toNat_setWidth,BitVec.toNat_setWidth]
    omega
  unfold WordRegisters.registers wordTurn turn subtract mask
  dsimp only
  rw [hq,hr,all_udwords,hcarry]

/-- The loop over the words is the loop over the registers. -/
theorem wordTurns_registers (d : BitVec 64) (sr : ℕ) (s : WordRegisters) :
    (wordTurns d sr s).registers=turns d sr s.registers := by
  induction sr generalizing s with
  | zero => rfl
  | succ sr ih => rw [wordTurns,ih,wordTurn_registers,turns]

/-- The loop divides when it starts with the two parts of the numerator. -/
theorem divideWords_eq {a b : BitVec 64} {sr : BitVec 32} {q r : Udwords} {m : ℕ}
    (hm : sr.toNat=m) (hle : m≤64) (hb : 0 < b.toNat) (hbelow : a.toNat/2^m < b.toNat)
    (hroom : b.toNat≤2^63 ∨ (m=1 ∧ 2^63≤a.toNat)) (hq : q.all=a<<<(64-m)) (hr : r.all=a>>>m) :
    divideWords b sr q r=(a/b,a%b) := by
  obtain ⟨h1,h2⟩ := turns_spec (s := ⟨q.all,r.all,0#64⟩) hb hle hbelow hroom hq hr rfl
  have hrun := wordTurns_registers b m ⟨q,r,0⟩
  have hstart : WordRegisters.registers ⟨q,r,0⟩=⟨q.all,r.all,0#64⟩ := rfl
  rw [hstart] at hrun
  rw [←hrun] at h1 h2
  unfold divideWords
  rw [hm]
  exact Prod.ext h1 h2

end Words

section Cases

variable {beyond : OverShift} {n d : Udwords}

/-- The words of two words. -/
theorem udwords_all (x : Udwords) : udwords x.all=x := by
  obtain ⟨low,high⟩ := x
  unfold udwords Udwords.all
  congr 1
  · ext i hi
    simp only [BitVec.getElem_setWidth,BitVec.getLsbD_append]
    grind
  · ext i hi
    simp only [BitVec.getElem_setWidth,BitVec.getLsbD_ushiftRight,BitVec.getLsbD_append]
    grind

/-- Division by a multiple of the words' base. -/
theorem divide_high {h l e base : ℕ} (hl : l < base) :
    (h*base+l)/(e*base)=h/e ∧ (h*base+l)%(e*base)=h%e*base+l := by
  have hdiv : (h*base+l)/base=h := by
    rw [Nat.mul_comm,Nat.mul_add_div (by omega),Nat.div_eq_of_lt hl,Nat.add_zero]
  have hmod : (h*base+l)%base=l := by
    rw [Nat.mul_comm,Nat.mul_add_mod,Nat.mod_eq_of_lt hl]
  constructor
  · rw [Nat.mul_comm e,←Nat.div_div_eq_div_mul,hdiv]
  · rw [Nat.mul_comm e,Nat.mod_mul,hdiv,hmod]
    ring

/-- A numerator below the divisor. -/
theorem divide_less {a b : BitVec 64} (h : a.toNat < b.toNat) : (0,a)=(a/b,a%b) := by
  refine Prod.ext (BitVec.eq_of_toNat_eq ?_) (BitVec.eq_of_toNat_eq ?_)
  · rw [BitVec.toNat_udiv,Nat.div_eq_of_lt h]
    rfl
  · rw [BitVec.toNat_umod,Nat.mod_eq_of_lt h]

/-- The low word of the divisor is zero: its high word divides. -/
theorem divide_highWord {q : BitVec 32} {r : Udwords} (hlow : d.low=0)
    (hq : q.toNat=n.high.toNat/d.high.toNat)
    (hr : r=⟨n.low,n.high%d.high⟩) :
    (q.setWidth 64,r.all)=(n.all/d.all,n.all%d.all) := by
  have hd : d.all.toNat=d.high.toNat*2^32 := by
    rw [toNat_all,hlow]
    exact Nat.add_zero _
  obtain ⟨hdiv,hmod⟩ := divide_high (h := n.high.toNat) (e := d.high.toNat) n.low.isLt
  refine Prod.ext (BitVec.eq_of_toNat_eq ?_) (BitVec.eq_of_toNat_eq ?_)
  · rw [toNat_wide,BitVec.toNat_udiv,toNat_all,hd,hdiv,hq]
  · rw [BitVec.toNat_umod,toNat_all n,hd,hmod,hr,toNat_all,BitVec.toNat_umod]

/-- The loop starts below the divisor: by their leading zeros the numerator and the divisor are at
most so many bits apart. -/
theorem start_below {a b N D m : ℕ} (ha : a<2^N) (hb : 2^D≤b) (hm : N≤D+m) : a/2^m < b := by
  refine Nat.lt_of_lt_of_le (Nat.div_lt_of_lt_mul (Nat.lt_of_lt_of_le ha ?_)) hb
  rw [←Nat.pow_add]
  exact Nat.pow_le_pow_right Nat.two_pos (by omega)

/-- The numerator is below this power of two. -/
theorem all_lt {x : Udwords} (hx : x.high≠0) : x.all.toNat<2^(64-x.high.clz.toNat) := by
  obtain ⟨hclz,-,hlt⟩ := clz_word hx
  have hlow := x.low.isLt
  have hsplit : 64-x.high.clz.toNat=32-x.high.clz.toNat+32 := by omega
  rw [toNat_all,hsplit,Nat.pow_add]
  generalize 2^(32-x.high.clz.toNat)=p at hlt ⊢
  omega

/-- A number with a high word is at least this power of two. -/
theorem le_all {x : Udwords} (hx : x.high≠0) : 2^(63-x.high.clz.toNat)≤x.all.toNat := by
  obtain ⟨hclz,hle,-⟩ := clz_word hx
  have hsplit : 63-x.high.clz.toNat=31-x.high.clz.toNat+32 := by omega
  rw [toNat_all,hsplit,Nat.pow_add]
  generalize 2^(31-x.high.clz.toNat)=p at hle ⊢
  omega

/-- More leading zeros, less number. -/
theorem all_lt_all (hn : n.high≠0) (hd : d.high≠0) (h : d.high.clz.toNat < n.high.clz.toNat) :
    n.all.toNat < d.all.toNat := by
  have hclz := (clz_word hn).1
  refine Nat.lt_of_lt_of_le (Nat.lt_of_lt_of_le (all_lt hn) ?_) (le_all hd)
  exact Nat.pow_le_pow_right Nat.two_pos (by omega)

/-- The words of a numerator that moves to the right by at most a word. -/
theorem parts_le {m : ℕ} (hm : m≤32) :
    Udwords.all ⟨0,n.low<<<(32-m)⟩=n.all<<<(64-m) ∧
      Udwords.all ⟨n.high<<<(32-m)|||n.low>>>m,n.high>>>m⟩=n.all>>>m := by
  have hleft := shiftLeft_ge (w := 32) (s := 64-m) (by omega) n.high n.low
  have hright := ushiftRight_le hm n.high n.low
  have hcount : 64-m-32=32-m := by omega
  rw [hcount] at hleft
  exact ⟨hleft.symm,hright.symm⟩

/-- The words of a numerator that moves to the right by at least a word. -/
theorem parts_ge {m : ℕ} (hm : 32 ≤ m) (hm' : m≤64) :
    Udwords.all ⟨n.low<<<(64-m),n.high<<<(64-m)|||n.low>>>(m-32)⟩=n.all<<<(64-m) ∧
      Udwords.all ⟨n.high>>>(m-32),0⟩=n.all>>>m := by
  have hleft := shiftLeft_le (w := 32) (s := 64-m) (by omega) n.high n.low
  have hright := ushiftRight_ge hm n.high n.low
  have hcount : 32-(64-m)=m-32 := by omega
  rw [hcount] at hleft
  exact ⟨hleft.symm,hright.symm⟩

end Cases

section Functions

variable (beyond : OverShift)

/-- Words are divided alone where both high words are zero. -/
theorem divide_word {n d : Udwords} (hn : n.high=0) (hd : d.high=0) :
    ((n.low/d.low).setWidth 64,(n.low%d.low).setWidth 64)=(n.all/d.all,n.all%d.all) := by
  have hlow : ∀ {x : Udwords}, x.high=0 → x.all.toNat=x.low.toNat := fun hx => by
    rw [toNat_all,hx]
    exact Nat.zero_add _
  refine Prod.ext (BitVec.eq_of_toNat_eq ?_) (BitVec.eq_of_toNat_eq ?_)
  · rw [toNat_wide,BitVec.toNat_udiv,BitVec.toNat_udiv,hlow hn,hlow hd]
  · rw [toNat_wide,BitVec.toNat_umod,BitVec.toNat_umod,hlow hn,hlow hd]

/-- Division by a power of two in the low word. -/
theorem divide_powerOfTwo {n d : Udwords} {k : ℕ} (hd : d.high=0) (hpow : d.low.toNat=2^k)
    (hk : k<32) :
    (n.all>>>k,(n.low&&&(d.low-1)).setWidth 64)=(n.all/d.all,n.all%d.all) := by
  have hpos : 0 < 2^k := Nat.two_pow_pos k
  have hvalue : d.all.toNat=2^k := by
    rw [toNat_all,hd,hpow]
    exact Nat.zero_add _
  have hsub : (d.low-1).toNat=2^k-1 := by
    rw [←hpow]
    have hmax := d.low.isLt
    bv_omega
  refine Prod.ext (BitVec.eq_of_toNat_eq ?_) (BitVec.eq_of_toNat_eq ?_)
  · rw [BitVec.toNat_ushiftRight,Nat.shiftRight_eq_div_pow,BitVec.toNat_udiv,hvalue]
  · have hbase : 2^32=2^k*2^(32-k) := by rw [←Nat.pow_add,Nat.add_sub_cancel' hk.le]
    have hmod : n.all.toNat%2^k=n.low.toNat%2^k := by
      rw [toNat_all,hbase,Nat.mul_left_comm,Nat.mul_add_mod]
    rw [toNat_wide,BitVec.toNat_and,hsub,Nat.and_two_pow_sub_one_eq_mod,BitVec.toNat_umod,hvalue,
      hmod]

/-- The shifts under masks give the two parts of the numerator for every shift, also where a shift
by the width is masked out. -/
theorem masked_parts {n : Udwords} {sr : BitVec 32} {m : ℕ} (hsr : sr.toNat=m) (hpos : 0 < m)
    (hm : m<64) :
    Udwords.all ⟨shl beyond n.low (64-sr)&&&signMask (32-sr),
        shl beyond n.low (32-sr)&&&signMask (sr-32-1)|||
          (shl beyond n.high (64-sr)|||shr beyond n.low (sr-32))&&&signMask (32-sr)⟩=
        n.all<<<(64-m) ∧
      Udwords.all ⟨shr beyond n.high (sr-32)&&&signMask (32-sr-1)|||
          (shl beyond n.high (32-sr)|||shr beyond n.low sr)&&&signMask (sr-32),
        shr beyond n.high sr&&&signMask (sr-32)⟩=n.all>>>m := by
  rcases Nat.lt_trichotomy m 32 with hless|heq|hmore
  · obtain ⟨hq,hr⟩ := parts_le (n := n) hless.le
    have h1 : (32-sr).toNat=32-m := by bv_omega
    have h2 : 2^31≤(sr-32-1).toNat := by bv_omega
    have h3 : 2^31≤(sr-32).toNat := by bv_omega
    have h4 : (32-sr-1).toNat<2^31 := by bv_omega
    have h5 : (32-sr).toNat<2^31 := by bv_omega
    rw [and_signMask_low _ h5,and_signMask_high _ h2,and_signMask_low _ h5,BitVec.or_zero,
      and_signMask_low _ h4,BitVec.zero_or,and_signMask_high _ h3,and_signMask_high _ h3,
      shl_eq beyond _ h1 (by omega),shl_eq beyond _ h1 (by omega),shr_eq beyond _ hsr hless,
      shr_eq beyond _ hsr hless]
    exact ⟨hq,hr⟩
  · subst heq
    obtain ⟨hq,-⟩ := parts_le (n := n) (Nat.le_refl 32)
    obtain ⟨-,hr⟩ := parts_ge (n := n) (Nat.le_refl 32) (by decide)
    have h1 : (32-sr).toNat=0 := by bv_omega
    have h2 : 2^31≤(sr-32-1).toNat := by bv_omega
    have h3 : (sr-32).toNat<2^31 := by bv_omega
    have h4 : 2^31≤(32-sr-1).toNat := by bv_omega
    have h5 : (32-sr).toNat<2^31 := by bv_omega
    have h6 : (sr-32).toNat=0 := by bv_omega
    rw [and_signMask_low _ h5,and_signMask_high _ h2,and_signMask_low _ h5,BitVec.or_zero,
      and_signMask_high _ h4,and_signMask_low _ h3,BitVec.or_zero,and_signMask_low _ h3,
      shl_eq beyond _ h1 (by decide),shr_eq beyond _ h6 (by decide)]
    exact ⟨hq,hr⟩
  · obtain ⟨hq,hr⟩ := parts_ge (n := n) hmore.le hm.le
    have h1 : (64-sr).toNat=64-m := by bv_omega
    have h2 : (sr-32-1).toNat<2^31 := by bv_omega
    have h3 : (sr-32).toNat<2^31 := by bv_omega
    have h4 : 2^31≤(32-sr-1).toNat := by bv_omega
    have h5 : 2^31≤(32-sr).toNat := by bv_omega
    have h6 : (sr-32).toNat=m-32 := by bv_omega
    rw [and_signMask_high _ h5,and_signMask_low _ h2,and_signMask_high _ h5,BitVec.zero_or,
      and_signMask_high _ h4,and_signMask_low _ h3,BitVec.or_zero,and_signMask_low _ h3,
      shl_eq beyond _ h1 (by omega),shl_eq beyond _ h1 (by omega),shr_eq beyond _ h6 (by omega),
      shr_eq beyond _ h6 (by omega)]
    exact ⟨hq,hr⟩

end Functions

section Division

variable (beyond : OverShift) {n d : Udwords}

/-- Where the divisor has a high word and at least as many leading zeros as the numerator, the loop
starts below the divisor and has room. -/
theorem start_spec (hn : n.high≠0) (hd : d.high≠0)
    (hle : n.high.clz.toNat≤d.high.clz.toNat) {m : ℕ}
    (hm : m=d.high.clz.toNat-n.high.clz.toNat+1) :
    n.all.toNat/2^m < d.all.toNat ∧ (d.all.toNat≤2^63 ∨ (m=1 ∧ 2^63≤n.all.toNat)) := by
  have hclz := (clz_word hd).1
  refine ⟨start_below (all_lt hn) (le_all hd) (by omega),?_⟩
  by_cases hzero : d.high.clz.toNat=0
  · have hhalf := le_all hn
    have hcount : 63-n.high.clz.toNat=63 := by omega
    rw [hcount] at hhalf
    exact Or.inr ⟨by omega,hhalf⟩
  · have hlt := all_lt hd
    have hpow : 2^(64-d.high.clz.toNat)≤2^63 := Nat.pow_le_pow_right Nat.two_pos (by omega)
    exact Or.inl (by omega)

/-- The difference of the leading zeros, as the code computes it. -/
theorem sr_cases (hn : n.high≠0) (hd : d.high≠0) :
    (n.high.clz.toNat≤d.high.clz.toNat ∧
        (d.high.clz-n.high.clz).toNat=d.high.clz.toNat-n.high.clz.toNat) ∨
      (d.high.clz.toNat < n.high.clz.toNat ∧ 31 < (d.high.clz-n.high.clz).toNat) := by
  have hcn := (clz_word hn).1
  have hcd := (clz_word hd).1
  bv_omega

/-- The low word of the divisor is zero and its high word a power of two. -/
theorem divide_highPower (hdl : d.low=0) (hd : d.high≠0) (hpow : d.high&&&(d.high-1)=0) :
    ((shr beyond n.high d.high.ctz).setWidth 64,Udwords.all ⟨n.low,n.high&&&(d.high-1)⟩)=
      (n.all/d.all,n.all%d.all) := by
  obtain ⟨hvalue,hk⟩ := power_of_two hd hpow
  have hsub : (d.high-1).toNat=2^d.high.ctz.toNat-1 := by
    rw [←hvalue]
    have hpos : d.high.toNat≠0 := fun hzero => hd (BitVec.eq_of_toNat_eq hzero)
    bv_omega
  refine divide_highWord hdl ?_ ?_
  · rw [shr_eq beyond _ rfl hk,BitVec.toNat_ushiftRight,Nat.shiftRight_eq_div_pow,hvalue]
  · congr 1
    refine BitVec.eq_of_toNat_eq ?_
    rw [BitVec.toNat_and,hsub,Nat.and_two_pow_sub_one_eq_mod,BitVec.toNat_umod,hvalue]

/-- The loop where the divisor has a high word that is no power of two with a zero below. -/
theorem divide_moved (hn : n.high≠0) (hd : d.high≠0)
    (hle : n.high.clz.toNat≤d.high.clz.toNat)
    (hsr : (d.high.clz-n.high.clz).toNat=d.high.clz.toNat-n.high.clz.toNat) {q r : Udwords}
    (hq : q.all=n.all<<<(64-(d.high.clz.toNat-n.high.clz.toNat+1)))
    (hr : r.all=n.all>>>(d.high.clz.toNat-n.high.clz.toNat+1)) :
    divideWords d.all (d.high.clz-n.high.clz+1) q r=(n.all/d.all,n.all%d.all) := by
  have hclz := (clz_word hd).1
  obtain ⟨hbelow,hroom⟩ := start_spec hn hd hle rfl
  refine divideWords_eq (by bv_omega) (by omega) ?_ hbelow hroom hq hr
  exact Nat.lt_of_le_of_lt (Nat.zero_le _) hbelow

/-- The counts of the shifts before the loop. -/
theorem count_spec (hd : d.high≠0) (hle : n.high.clz.toNat≤d.high.clz.toNat)
    (hsr : (d.high.clz-n.high.clz).toNat=d.high.clz.toNat-n.high.clz.toNat) :
    (d.high.clz-n.high.clz+1).toNat=d.high.clz.toNat-n.high.clz.toNat+1 ∧
      (32-(d.high.clz-n.high.clz+1)).toNat=32-(d.high.clz.toNat-n.high.clz.toNat+1) := by
  have hclz := (clz_word hd).1
  bv_omega

/-- Division by a high word alone. The low word of the remainder is that of the numerator. -/
theorem divideK0_eq (hn : n.high≠0) (hdl : d.low=0) (hd : d.high≠0) :
    divideK0 beyond n d=(n.all/d.all,n.all%d.all) := by
  unfold divideK0
  dsimp only
  by_cases hnl : n.low=0
  · rw [if_pos hnl]
    refine divide_highWord hdl BitVec.toNat_udiv ?_
    rw [hnl]
  rw [if_neg hnl]
  by_cases hpow : d.high&&&(d.high-1)=0
  · rw [if_pos hpow]
    exact divide_highPower beyond hdl hd hpow
  rw [if_neg hpow]
  obtain ⟨hcd,hge,hlt⟩ := clz_word hd
  rcases sr_cases hn hd with ⟨hle,hsr⟩|⟨hless,hsr⟩
  · -- A difference of 31 bits would leave only the divisor one, a power of two.
    have hbits : d.high.clz.toNat≠31 := fun hone => by
      rw [hone] at hge hlt
      have hvalue : d.high=1 := BitVec.eq_of_toNat_eq (show d.high.toNat=1 by omega)
      exact hpow (by rw [hvalue]; rfl)
    have hcount : ¬30 < d.high.clz-n.high.clz := by bv_omega
    obtain ⟨h1,h2⟩ := count_spec hd hle hsr
    obtain ⟨hq,hr⟩ := parts_le (n := n)
      (show d.high.clz.toNat-n.high.clz.toNat+1≤32 by omega)
    rw [if_neg hcount,shl_eq beyond _ h2 (by omega),shl_eq beyond _ h2 (by omega),
      shr_eq beyond _ h1 (by omega),shr_eq beyond _ h1 (by omega)]
    exact divide_moved hn hd hle hsr hq hr
  · have hcount : 30 < d.high.clz-n.high.clz := by bv_omega
    rw [if_pos hcount]
    exact divide_less (all_lt_all hn hd hless)

/-- Division by a low word alone: the branches for a small numerator and for powers of two, and the
loop. -/
theorem divide0K_eq (hn : n.high≠0) (hdl : d.low≠0) (hd : d.high=0) :
    divide0K beyond n d=(n.all/d.all,n.all%d.all) := by
  have hvalue : d.all.toNat=d.low.toNat := by
    rw [toNat_all,hd]
    exact Nat.zero_add _
  unfold divide0K
  dsimp only
  by_cases hpow : d.low&&&(d.low-1)=0
  · rw [if_pos hpow]
    obtain ⟨hpower,hk⟩ := power_of_two hdl hpow
    have hdiv := divide_powerOfTwo (n := n) hd hpower hk
    by_cases hone : d.low=1
    · have hunit : 2^d.low.ctz.toNat=1 := by
        rw [←hpower,hone]
        rfl
      have hzero : d.low.ctz.toNat=0 := (Nat.pow_eq_one.1 hunit).resolve_left (by decide)
      rw [hzero,BitVec.ushiftRight_zero] at hdiv
      rw [if_pos hone]
      exact hdiv
    · have hk' : d.low.ctz.toNat≠0 := fun hzero => by
        rw [hzero] at hpower
        exact hone (BitVec.eq_of_toNat_eq hpower)
      have hcount : (32-d.low.ctz).toNat=32-d.low.ctz.toNat := by bv_omega
      rw [if_neg hone,shl_eq beyond _ hcount (by omega),shr_eq beyond _ rfl hk,
        shr_eq beyond _ rfl hk,(parts_le hk.le).2]
      exact hdiv
  · rw [if_neg hpow]
    have hcn := (clz_word hn).1
    obtain ⟨hcd,hge,hlt⟩ := clz_word hdl
    have hsr : (1+32+d.low.clz-n.high.clz).toNat=33+d.low.clz.toNat-n.high.clz.toNat := by
      bv_omega
    -- The divisor is no power of two and has a second bit.
    have hbits : d.low.clz.toNat≠31 := fun hone => by
      rw [hone] at hge hlt
      have hunit : d.low=1 := BitVec.eq_of_toNat_eq (show d.low.toNat=1 by omega)
      exact hpow (by rw [hunit]; rfl)
    obtain ⟨hq,hr⟩ := masked_parts (n := n) beyond hsr (by omega) (by omega)
    have hmax := d.low.isLt
    have hbelow : n.all.toNat/2^(33+d.low.clz.toNat-n.high.clz.toNat) < d.all.toNat := by
      rw [hvalue]
      exact start_below (all_lt hn) hge (by omega)
    exact divideWords_eq hsr (by omega) (Nat.lt_of_le_of_lt (Nat.zero_le _) hbelow) hbelow
      (Or.inl (by omega)) hq hr

/-- Division by two words. The first turns of the loop are skipped, because the leading zeros say
that their bits are zero. -/
theorem divideKK_eq (hn : n.high≠0) (hd : d.high≠0) :
    divideKK beyond n d=(n.all/d.all,n.all%d.all) := by
  unfold divideKK
  dsimp only
  rcases sr_cases hn hd with ⟨hle,hsr⟩|⟨hless,hsr⟩
  · have hcd := (clz_word hd).1
    have hcount : ¬31 < d.high.clz-n.high.clz := by bv_omega
    obtain ⟨h1,h2⟩ := count_spec hd hle hsr
    obtain ⟨hq,hr⟩ := parts_le (n := n)
      (show d.high.clz.toNat-n.high.clz.toNat+1≤32 by omega)
    rw [if_neg hcount,shl_eq beyond _ h2 (by omega),shl_eq beyond _ h2 (by omega)]
    by_cases hword : d.high.clz.toNat-n.high.clz.toNat+1=32
    · have hmask : (d.high.clz-n.high.clz+1-32).toNat<2^31 := by bv_omega
      have hwhole := (parts_ge (n := n) (Nat.le_refl 32) (by decide)).2
      rw [Nat.sub_self,BitVec.ushiftRight_zero] at hwhole
      rw [and_signMask_low _ hmask,and_signMask_low _ hmask,BitVec.or_zero]
      refine divide_moved hn hd hle hsr hq ?_
      rw [hword,Nat.sub_self,BitVec.shiftLeft_zero]
      exact hwhole
    · have hmask : 2^31≤(d.high.clz-n.high.clz+1-32).toNat := by bv_omega
      rw [and_signMask_high _ hmask,and_signMask_high _ hmask,shr_eq beyond _ h1 (by omega),
        shr_eq beyond _ h1 (by omega)]
      exact divide_moved hn hd hle hsr hq hr
  · have hcount : 31 < d.high.clz-n.high.clz := by bv_omega
    rw [if_pos hcount]
    exact divide_less (all_lt_all hn hd hless)

/-- `__udivmoddi4` gives the quotient and the remainder of all double words. A divisor of zero is
apart, since the source divides by it. -/
theorem udivmoddi4_eq (a b : BitVec 64) (hb : b≠0) : udivmoddi4 beyond a b=(a/b,a%b) := by
  obtain ⟨n,rfl⟩ : ∃ n : Udwords, a=n.all := ⟨_,(all_udwords a).symm⟩
  obtain ⟨d,rfl⟩ : ∃ d : Udwords, b=d.all := ⟨_,(all_udwords b).symm⟩
  unfold udivmoddi4
  rw [udwords_all,udwords_all]
  dsimp only
  by_cases hn : n.high=0
  · rw [if_pos hn]
    by_cases hd : d.high=0
    · rw [if_pos hd]
      exact divide_word hn hd
    · have hword : d.high.toNat≠0 := fun hzero => hd (BitVec.eq_of_toNat_eq hzero)
      have hless : n.all.toNat < d.all.toNat := by
        have hlow := n.low.isLt
        have hhigh : n.high.toNat=0 := by rw [hn]; rfl
        rw [toNat_all,toNat_all]
        omega
      have hall : n.low.setWidth 64=n.all := by
        rw [Udwords.all,hn]
        exact BitVec.setWidth_eq_append (by decide)
      rw [if_neg hd,hall]
      exact divide_less hless
  · rw [if_neg hn]
    by_cases hdl : d.low=0
    · have hd : d.high≠0 := fun hzero => hb (by rw [Udwords.all,hdl,hzero]; rfl)
      rw [if_pos hdl,if_neg hd]
      exact divideK0_eq beyond hn hdl hd
    · rw [if_neg hdl]
      by_cases hd : d.high=0
      · rw [if_pos hd]
        exact divide0K_eq beyond hn hdl hd
      · rw [if_neg hd]
        exact divideKK_eq beyond hn hd

/-- `__udivsi3` gives the quotient, and 0 for the divisor 0. -/
theorem udivsi3_eq (n d : BitVec 32) : udivsi3 beyond n d=n/d := by
  unfold udivsi3
  by_cases hd : d=0
  · rw [if_pos hd,hd]
    exact BitVec.udiv_zero.symm
  rw [if_neg hd]
  by_cases hn : n=0
  · rw [if_pos hn,hn]
    exact BitVec.zero_udiv.symm
  rw [if_neg hn]
  dsimp only
  obtain ⟨hcn,hgen,hltn⟩ := clz_word hn
  obtain ⟨hcd,hged,hltd⟩ := clz_word hd
  by_cases hless : d.clz.toNat < n.clz.toNat
  · have hcount : 31 < d.clz-n.clz := by bv_omega
    have hpow : 2^(32-n.clz.toNat)≤2^(31-d.clz.toNat) :=
      Nat.pow_le_pow_right Nat.two_pos (by omega)
    rw [if_pos hcount]
    refine BitVec.eq_of_toNat_eq ?_
    rw [BitVec.toNat_udiv,Nat.div_eq_of_lt (by omega)]
    rfl
  have hcount : ¬31 < d.clz-n.clz := by bv_omega
  rw [if_neg hcount]
  by_cases hone : d.clz-n.clz=31
  · have hclz : d.clz.toNat=31 := by bv_omega
    rw [hclz] at hged hltd
    have hunit : d=1 := BitVec.eq_of_toNat_eq (show d.toNat=1 by omega)
    rw [if_pos hone,hunit]
    exact BitVec.udiv_one.symm
  · have h1 : (d.clz-n.clz+1).toNat=d.clz.toNat-n.clz.toNat+1 := by bv_omega
    have h2 : (32-(d.clz-n.clz+1)).toNat=32-(d.clz.toNat-n.clz.toNat+1) := by bv_omega
    have hmoved : d.clz.toNat-n.clz.toNat+1<32 := by bv_omega
    rw [if_neg hone,shl_eq beyond _ h2 (by omega),shr_eq beyond _ h1 hmoved,h1]
    have hpos : 0 < d.toNat := Nat.lt_of_lt_of_le (Nat.two_pow_pos _) hged
    refine (turns_spec hpos hmoved.le (start_below hltn hged (by omega)) ?_ rfl rfl rfl).1
    by_cases hzero : d.clz.toNat=0
    · have hhalf : 31-n.clz.toNat=31 := by omega
      rw [hhalf] at hgen
      exact Or.inr ⟨by omega,hgen⟩
    · have hpow : 2^(32-d.clz.toNat)≤2^31 := Nat.pow_le_pow_right Nat.two_pos (by omega)
      exact Or.inl (by omega)

end Division

section Signs

variable (beyond : OverShift) {w : ℕ}

/-- What remains when the quotient is taken off. -/
theorem sub_div_mul (x y : BitVec w) : x-x/y*y=x%y := by
  have hsum : x%y+x/y*y=x := by
    refine BitVec.eq_of_toNat_eq ?_
    have hdiv := Nat.mod_add_div x.toNat y.toNat
    have hmax := x.isLt
    rw [BitVec.toNat_add,BitVec.toNat_mul,BitVec.toNat_umod,BitVec.toNat_udiv,Nat.add_mod_mod,
      Nat.mul_comm,hdiv,Nat.mod_eq_of_lt hmax]
  rw [sub_eq_iff_eq_add,hsum]

/-- The sign of a number negates another one. -/
theorem negateIf_sign (a b : BitVec w) :
    negateIf a (b.sshiftRight (w-1))=if b.msb then -a else a := by
  unfold negateIf
  rw [sshiftRight_sign]
  cases b.msb with
  | true =>
    rw [if_pos rfl,if_pos rfl,BitVec.xor_allOnes,BitVec.not_eq_neg_add,←BitVec.neg_one_eq_allOnes]
    ring
  | false =>
    rw [if_neg Bool.false_ne_true,if_neg Bool.false_ne_true,BitVec.xor_zero,BitVec.sub_zero]

/-- The signs of two numbers negate a third one once or not at all. -/
theorem negateIf_signs (q a b : BitVec w) :
    negateIf q (a.sshiftRight (w-1)^^^b.sshiftRight (w-1))=if a.msb=b.msb then q else -q := by
  have hnone : negateIf q 0#w=q := by
    unfold negateIf
    rw [BitVec.xor_zero,BitVec.sub_zero]
  have hall : negateIf q (BitVec.allOnes w)=-q := by
    unfold negateIf
    rw [BitVec.xor_allOnes,BitVec.not_eq_neg_add,←BitVec.neg_one_eq_allOnes]
    ring
  rw [sshiftRight_sign,sshiftRight_sign]
  cases a.msb <;> cases b.msb
  · rw [if_neg Bool.false_ne_true,BitVec.xor_zero,if_pos rfl,hnone]
  · rw [if_neg Bool.false_ne_true,if_pos rfl,BitVec.zero_xor,if_neg Bool.false_ne_true,hall]
  · rw [if_pos rfl,if_neg Bool.false_ne_true,BitVec.xor_zero,if_neg (by decide),hall]
  · rw [if_pos rfl,BitVec.xor_self,if_pos rfl,hnone]

/-- The quotient of the absolute values with the sign of the two numbers. -/
theorem sdiv_signs (a b : BitVec w) :
    a.sdiv b=if a.msb=b.msb then (if a.msb then -a else a)/(if b.msb then -b else b)
      else -((if a.msb then -a else a)/(if b.msb then -b else b)) := by
  rw [BitVec.sdiv_eq]
  cases a.msb <;> cases b.msb <;> rfl

/-- The remainder of the absolute values with the sign of the numerator. -/
theorem srem_signs (a b : BitVec w) :
    a.srem b=if a.msb then -((if a.msb then -a else a)%(if b.msb then -b else b))
      else (if a.msb then -a else a)%(if b.msb then -b else b) := by
  rw [BitVec.srem_eq]
  cases a.msb <;> cases b.msb <;> rfl

/-- What remains when the quotient with its sign is taken off. -/
theorem sub_sdiv_mul (a b : BitVec w) : a-a.sdiv b*b=a.srem b := by
  rw [BitVec.sdiv_eq,BitVec.srem_eq]
  cases a.msb <;> cases b.msb <;> dsimp only
  · exact sub_div_mul a b
  · change a- -(a/(-b))*b=a%(-b)
    rw [←sub_div_mul a (-b)]
    ring
  · change a- -(-a/b)*b=-(-a%b)
    rw [←sub_div_mul (-a) b]
    ring
  · change a- -a/(-b)*b=-(-a%(-b))
    rw [←sub_div_mul (-a) (-b)]
    ring

/-- `__divsi3` gives the quotient with its sign. -/
theorem divsi3_eq (a b : BitVec 32) : divsi3 beyond a b=a.sdiv b := by
  have hsign : ∀ x : BitVec 32, negateIf x (x.sshiftRight 31)=if x.msb then -x else x :=
    fun x => negateIf_sign x x
  unfold divsi3
  dsimp only
  rw [hsign,hsign,udivsi3_eq,sdiv_signs]
  exact negateIf_signs _ a b

/-- The negated divisor is not zero either. -/
theorem absolute_ne_zero {b : BitVec 64} (hb : b≠0) : (if b.msb then -b else b)≠0 := by
  cases b.msb with
  | true => exact neg_ne_zero.2 hb
  | false => exact hb

/-- `__divdi3` gives the quotient with its sign. -/
theorem divdi3_eq (a b : BitVec 64) (hb : b≠0) : divdi3 beyond a b=a.sdiv b := by
  have hsign : ∀ x : BitVec 64, negateIf x (x.sshiftRight 63)=if x.msb then -x else x :=
    fun x => negateIf_sign x x
  unfold divdi3
  dsimp only
  rw [hsign,hsign,udivmoddi4_eq beyond _ _ (absolute_ne_zero hb),sdiv_signs]
  exact negateIf_signs _ a b

/-- `__moddi3` gives the remainder with the sign of the numerator. -/
theorem moddi3_eq (a b : BitVec 64) (hb : b≠0) : moddi3 beyond a b=a.srem b := by
  have hsign : ∀ x : BitVec 64, negateIf x (x.sshiftRight 63)=if x.msb then -x else x :=
    fun x => negateIf_sign x x
  unfold moddi3
  dsimp only
  rw [hsign,hsign,udivmoddi4_eq beyond _ _ (absolute_ne_zero hb),srem_signs]
  exact negateIf_sign _ a

/-- For all numbers and whatever shifts by the width or more give, the division functions give the
quotients and remainders that C defines; those of words give 0 and the numerator for the divisor 0,
and a quotient out of range wraps. -/
theorem division_correct :
    (∀ n d : BitVec 32, udivsi3 beyond n d=n/d ∧ umodsi3 beyond n d=n%d ∧
      divsi3 beyond n d=n.sdiv d ∧ modsi3 beyond n d=n.srem d) ∧
    ∀ a b : BitVec 64, b≠0 → udivmoddi4 beyond a b=(a/b,a%b) ∧ udivdi3 beyond a b=a/b ∧
      umoddi3 beyond a b=a%b ∧ divdi3 beyond a b=a.sdiv b ∧ moddi3 beyond a b=a.srem b := by
  refine ⟨fun n d => ⟨udivsi3_eq beyond n d,?_,divsi3_eq beyond n d,?_⟩,fun a b hb => ?_⟩
  · rw [umodsi3,udivsi3_eq,sub_div_mul]
  · rw [modsi3,divsi3_eq,sub_sdiv_mul]
  · have hboth := udivmoddi4_eq beyond a b hb
    refine ⟨hboth,?_,?_,divdi3_eq beyond a b hb,moddi3_eq beyond a b hb⟩
    · rw [udivdi3,hboth]
    · rw [umoddi3,hboth]

/-- The least number divided by -1 and by 3, where shifts take their counts modulo 32. -/
theorem division_correct_least :
    let beyond : OverShift := ⟨fun x c => x<<<(c.toNat%32),fun x c => x>>>(c.toNat%32)⟩
    divdi3 beyond (BitVec.intMin 64) (-1)=BitVec.intMin 64 ∧
      moddi3 beyond (BitVec.intMin 64) 3=-2#64 := by
  intro beyond
  have hone := (division_correct beyond).2 (BitVec.intMin 64) (-1) (by decide)
  have hthree := (division_correct beyond).2 (BitVec.intMin 64) 3 (by decide)
  exact ⟨hone.2.2.2.1.trans (by decide),hthree.2.2.2.2.trans (by decide)⟩

end Signs

end RigelTarget.CompilerRtDivision
