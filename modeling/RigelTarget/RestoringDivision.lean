import Mathlib.Tactic.Ring

/-!
# Restoring division in two registers

The numerator stands in a pair of registers, its upper part in the remainder `r` and its lower part
at the upper end of the quotient `q`. A turn moves the pair one bit up and subtracts the divisor
under a mask, which is the sign of `d-r-1`, so that no branch is taken. The bit of the quotient that
a turn finds enters `q` only with the next turn.
-/

namespace RigelTarget.RestoringDivision

variable {w : ℕ}

/-- The registers that a turn changes: quotient, remainder and the bit of the quotient that is not
yet shifted in. The divisor stays as it is. -/
structure Registers (w : ℕ) where
  /-- Quotient bits, below the rest of the numerator. -/
  q : BitVec w
  /-- Remainder. -/
  r : BitVec w
  /-- The last bit of the quotient. -/
  carry : BitVec w
  deriving DecidableEq

/-- All bits are the sign of `d-r-1`, which is set when the divisor goes into the remainder. -/
def mask (d r : BitVec w) : BitVec w := (d-r-1#w).sshiftRight (w-1)

/-- Subtraction of the divisor where the mask is set. -/
def subtract (d r q : BitVec w) : Registers w := ⟨q,r-(d&&&mask d r),mask d r&&&1#w⟩

/-- A turn of the loop: the pair of registers moves up by a bit, and the divisor is subtracted if it
goes into the remainder. -/
def turn (d : BitVec w) (s : Registers w) : Registers w :=
  subtract d (s.r<<<1|||s.q>>>(w-1)) (s.q<<<1|||s.carry)

/-- The loop, with the number of turns that remain. -/
def turns (d : BitVec w) : ℕ → Registers w → Registers w
  | 0, s => s
  | sr+1, s => turns d sr (turn d s)

/-- The quotient with its last bit. -/
def quotient (s : Registers w) : BitVec w := s.q<<<1|||s.carry

/-- The shift fills a vector with its sign. -/
theorem sshiftRight_sign (x : BitVec w) :
    x.sshiftRight (w-1)=if x.msb then BitVec.allOnes w else 0#w := by
  ext i hi
  rw [BitVec.getElem_sshiftRight]
  have hmsb : x.msb=x.getLsbD (w-1) := BitVec.msb_eq_getLsbD_last x
  by_cases hlast : w-1+i<w
  · have hzero : w-1+i=w-1 := by omega
    rw [dif_pos hlast]
    have hget : x[w-1+i]=x.msb := by
      rw [hmsb,←BitVec.getLsbD_eq_getElem,hzero]
    rw [hget]
    cases x.msb with
    | true => rw [if_pos rfl,BitVec.getElem_allOnes]
    | false => rw [if_neg Bool.false_ne_true,BitVec.getElem_zero]
  · rw [dif_neg hlast]
    cases x.msb with
    | true => rw [if_pos rfl,BitVec.getElem_allOnes]
    | false => rw [if_neg Bool.false_ne_true,BitVec.getElem_zero]

/-- The sign of `d-r-1` decides the comparison while the two are less than half of the range
apart. -/
theorem msb_sub {d r : BitVec w} (hw : 0 < w)
    (hbelow : r.toNat < d.toNat → d.toNat-r.toNat≤2^(w-1))
    (habove : d.toNat ≤ r.toNat → r.toNat-d.toNat<2^(w-1)) :
    (d-r-1#w).msb=decide (d.toNat ≤ r.toNat) := by
  have hpow : 2^w=2*2^(w-1) := by
    rw [←Nat.pow_succ',Nat.succ_eq_add_one,Nat.sub_add_cancel hw]
  have hd := d.isLt
  have hr := r.isLt
  have hhalf : 0 < 2^(w-1) := Nat.two_pow_pos _
  have hone : 1 % 2^w=1 := Nat.mod_eq_of_lt (by omega)
  rw [BitVec.msb_eq_decide,decide_eq_decide,BitVec.toNat_sub,BitVec.toNat_sub,BitVec.toNat_ofNat,
    hone]
  by_cases hle : d.toNat ≤ r.toNat
  · have hdiff := habove hle
    by_cases heq : d.toNat=r.toNat
    · have hinner : 2^w-r.toNat+d.toNat=2^w := by omega
      rw [hinner,Nat.mod_self,Nat.add_zero,Nat.mod_eq_of_lt (by omega)]
      omega
    · rw [Nat.mod_eq_of_lt (show 2^w-r.toNat+d.toNat<2^w by omega)]
      have hsum : 2^w-1+(2^w-r.toNat+d.toNat)=(2^w-r.toNat+d.toNat-1)+2^w := by omega
      rw [hsum,Nat.add_mod_right,Nat.mod_eq_of_lt (by omega)]
      omega
  · have hdiff := hbelow (by omega)
    have hinner : 2^w-r.toNat+d.toNat=(d.toNat-r.toNat)+2^w := by omega
    rw [hinner,Nat.add_mod_right,Nat.mod_eq_of_lt (show d.toNat-r.toNat<2^w by omega)]
    have hsum : 2^w-1+(d.toNat-r.toNat)=(d.toNat-r.toNat-1)+2^w := by omega
    rw [hsum,Nat.add_mod_right,Nat.mod_eq_of_lt (by omega)]
    omega

/-- What the subtraction leaves: the divisor is taken off where it fits, and the carry says
whether it did. -/
theorem subtract_spec {d r q : BitVec w} (hw : 0 < w)
    (hbelow : r.toNat < d.toNat → d.toNat-r.toNat≤2^(w-1))
    (habove : d.toNat ≤ r.toNat → r.toNat-d.toNat<2^(w-1)) :
    (subtract d r q).q=q ∧
      (subtract d r q).r.toNat=(if d.toNat ≤ r.toNat then r.toNat-d.toNat else r.toNat) ∧
      (subtract d r q).carry.toNat=(if d.toNat ≤ r.toNat then 1 else 0) := by
  have hr := r.isLt
  have hone : 1 % 2^w=1 := Nat.mod_eq_of_lt (Nat.one_lt_two_pow (by omega))
  unfold subtract mask
  dsimp only
  rw [sshiftRight_sign,msb_sub hw hbelow habove]
  by_cases hle : d.toNat ≤ r.toNat
  · rw [decide_eq_true hle,if_pos rfl,if_pos hle,if_pos hle,BitVec.and_allOnes,
      BitVec.allOnes_and,BitVec.toNat_sub,BitVec.toNat_ofNat,hone]
    refine ⟨rfl,?_,rfl⟩
    have hsum : 2^w-d.toNat+r.toNat=(r.toNat-d.toNat)+2^w := by
      have hd := d.isLt
      omega
    rw [hsum,Nat.add_mod_right,Nat.mod_eq_of_lt (by omega)]
  · rw [decide_eq_false hle,if_neg Bool.false_ne_true,if_neg hle,if_neg hle,BitVec.and_zero,
      BitVec.zero_and,BitVec.sub_zero]
    exact ⟨rfl,rfl,rfl⟩

/-- The registers when `m` bits of the numerator are still to come: the remainder and the quotient
of the other bits. -/
structure Dividing (n d m : ℕ) (s : Registers w) : Prop where
  /-- The remainder so far. -/
  rest : s.r.toNat=n/2^m%d
  /-- The bits to come, above the quotient so far but for its last bit. -/
  bits : s.q.toNat=n%2^m*2^(w-m)+n/2^m/d/2
  /-- The last bit of the quotient so far. -/
  last : s.carry.toNat=n/2^m/d%2

/-- The numbers that the comparison sees are less than half of the range apart: the divisor is at
most half of the range, or the numerator has no bit to come and is at least half of the range. -/
def Room (w n d m : ℕ) : Prop := d≤2^(w-1) ∨ (m=0 ∧ n/2 < d ∧ 2^(w-1)≤n)

/-- A bit moves in from below. -/
theorem toNat_shiftIn (hw : 0 < w) (x b : BitVec w) (hb : b.toNat<2) :
    (x<<<1|||b).toNat=2*x.toNat%2^w+b.toNat := by
  have hpow : 2^w=2*2^(w-1) := by
    rw [←Nat.pow_succ',Nat.succ_eq_add_one,Nat.sub_add_cancel hw]
  have heven : x.toNat*2%2^w=2^1*(x.toNat%2^(w-1)) := by
    rw [hpow,Nat.mul_comm,Nat.mul_mod_mul_left,Nat.pow_one]
  rw [BitVec.toNat_or,BitVec.toNat_shiftLeft,Nat.shiftLeft_eq,Nat.pow_one,Nat.mul_comm 2,heven,
    Nat.two_pow_add_eq_or_of_lt hb]

/-- The next bit of the numerator. -/
theorem bit_split (n m : ℕ) :
    n/2^m=2*(n/2^(m+1))+n/2^m%2 ∧ n%2^(m+1)=2^m*(n/2^m%2)+n%2^m := by
  have hdiv : n/2^(m+1)=n/2^m/2 := by rw [Nat.pow_succ,Nat.div_div_eq_div_mul]
  refine ⟨by omega,?_⟩
  rw [Nat.pow_succ,Nat.mod_mul,Nat.add_comm]

/-- The quotient grows by a bit. -/
theorem quotient_half (n m d : ℕ) : n/2^m/d/2=n/2^(m+1)/d := by
  rw [Nat.div_div_eq_div_mul (n/2^m),Nat.mul_comm d,←Nat.div_div_eq_div_mul,
    Nat.div_div_eq_div_mul n,←Nat.pow_succ]

/-- The highest bit of `q` is the next bit of the numerator, since the quotient bits are still below
it. -/
theorem Dividing.top {n d m k : ℕ} {s : Registers (m+(k+1))} (h : Dividing n d (m+1) s)
    (hn : n<2^(m+(k+1))) :
    s.q.toNat=2^(m+k)*(n/2^m%2)+(n%2^m*2^k+n/2^(m+1)/d/2) ∧
      n%2^m*2^k+n/2^(m+1)/d/2<2^(m+k) := by
  have hlow : n%2^m<2^m := Nat.mod_lt _ (Nat.two_pow_pos m)
  have hwidth : m+1+k=m+(k+1) := by omega
  have hquot : n/2^(m+1)/d<2^k := by
    refine Nat.lt_of_le_of_lt (Nat.div_le_self _ _) (Nat.div_lt_of_lt_mul ?_)
    rw [←Nat.pow_add,hwidth]
    exact hn
  have hk : m+(k+1)-(m+1)=k := by omega
  have hq := h.bits
  rw [(bit_split n m).2,hk] at hq
  constructor
  · rw [hq,Nat.add_mul,Nat.pow_add 2 m k,Nat.mul_right_comm,Nat.add_assoc]
  · have hless : n/2^(m+1)/d/2<2^k := Nat.lt_of_le_of_lt (Nat.div_le_self _ _) hquot
    calc n%2^m*2^k+n/2^(m+1)/d/2 < n%2^m*2^k+2^k := Nat.add_lt_add_left hless _
      _ = (n%2^m+1)*2^k := by rw [Nat.add_mul,Nat.one_mul]
      _ ≤ 2^m*2^k := Nat.mul_le_mul_right _ hlow
      _ = 2^(m+k) := (Nat.pow_add 2 m k).symm

/-- The pair of registers moves up by a bit. The bit that leaves the quotient enters the
remainder. -/
theorem Dividing.shifted {n d m : ℕ} {s : Registers w} (h : Dividing n d (m+1) s) (hm : m<w)
    (hn : n<2^w) (hfit : 2*(n/2^(m+1)%d)+n/2^m%2<2^w) :
    (s.r<<<1|||s.q>>>(w-1)).toNat=2*(n/2^(m+1)%d)+n/2^m%2 ∧
      (s.q<<<1|||s.carry).toNat=n%2^m*2^(w-m)+n/2^m/d/2 := by
  obtain ⟨k,rfl⟩ : ∃ k, w=m+(k+1) := ⟨w-m-1,by omega⟩
  have hw : 0 < m+(k+1) := by omega
  have hhalf : m+(k+1)-1=m+k := by omega
  have hk : m+(k+1)-m=k+1 := by omega
  obtain ⟨hq,hlow⟩ := h.top hn
  have htop : (s.q>>>(m+(k+1)-1)).toNat=n/2^m%2 := by
    rw [BitVec.toNat_ushiftRight,Nat.shiftRight_eq_div_pow,hhalf,hq,
      Nat.mul_add_div (Nat.two_pow_pos _),Nat.div_eq_of_lt hlow,Nat.add_zero]
  constructor
  · rw [toNat_shiftIn hw _ _ (by omega),htop,h.rest,Nat.mod_eq_of_lt (by omega)]
  · have hmoved : 2*s.q.toNat%2^(m+(k+1))=2*(n%2^m*2^k+n/2^(m+1)/d/2) := by
      have hsum : 2*s.q.toNat=
          2*(n%2^m*2^k+n/2^(m+1)/d/2)+2^(m+(k+1))*(n/2^m%2) := by
        rw [hq,←Nat.add_assoc m k 1,Nat.pow_succ]
        ring
      rw [hsum,Nat.add_mul_mod_self_left,Nat.mod_eq_of_lt]
      rw [←Nat.add_assoc m k 1,Nat.pow_succ,Nat.mul_comm]
      exact Nat.mul_lt_mul_of_pos_right hlow Nat.two_pos
    have hlast := h.last
    rw [toNat_shiftIn hw _ _ (by omega),hmoved,hlast,quotient_half n m d,hk,Nat.mul_add,
      Nat.add_assoc,Nat.div_add_mod,pow_succ 2 k]
    ring

/-- A step of the division by hand. -/
theorem next_digit {a b d : ℕ} (hb : b<2) (hd : 0 < d) :
    (2*a+b)%d=(if d≤2*(a%d)+b then 2*(a%d)+b-d else 2*(a%d)+b) ∧
      (2*a+b)/d%2=if d≤2*(a%d)+b then 1 else 0 := by
  have hrest : a%d < d := Nat.mod_lt _ hd
  have hsum : 2*a+b=d*(2*(a/d))+(2*(a%d)+b) := by
    have hdiv := Nat.div_add_mod a d
    calc 2*a+b = 2*(d*(a/d)+a%d)+b := by rw [hdiv]
      _ = d*(2*(a/d))+(2*(a%d)+b) := by ring
  rw [hsum,Nat.mul_add_mod,Nat.mul_add_div hd,Nat.mul_add_mod]
  by_cases hle : d≤2*(a%d)+b
  · have hone : (2*(a%d)+b)/d=1 := Nat.div_eq_of_lt_le (by omega) (by omega)
    rw [if_pos hle,if_pos hle,hone,Nat.mod_eq_sub_mod hle,Nat.mod_eq_of_lt (by omega)]
    exact ⟨rfl,rfl⟩
  · rw [if_neg hle,if_neg hle,Nat.mod_eq_of_lt (by omega),Nat.div_eq_of_lt (by omega)]
    exact ⟨rfl,rfl⟩

/-- A turn takes up the next bit of the numerator: quotient and remainder are those of one bit
more. -/
theorem Dividing.turn {n m : ℕ} {d : BitVec w} {s : Registers w}
    (h : Dividing n d.toNat (m+1) s) (hd : 0 < d.toNat) (hm : m<w) (hn : n<2^w)
    (hroom : Room w n d.toNat m) : Dividing n d.toNat m (turn d s) := by
  have hw : 0 < w := by omega
  have hpow : 2^w=2*2^(w-1) := by
    rw [←Nat.pow_succ',Nat.succ_eq_add_one,Nat.sub_add_cancel hw]
  have hrest : n/2^(m+1)%d.toNat < d.toNat := Nat.mod_lt _ hd
  have hsplit := (bit_split n m).1
  -- The number that the comparison sees.
  have hseen : 2*(n/2^(m+1)%d.toNat)+n/2^m%2<2^w ∧
      (2*(n/2^(m+1)%d.toNat)+n/2^m%2 < d.toNat →
        d.toNat-(2*(n/2^(m+1)%d.toNat)+n/2^m%2)≤2^(w-1)) ∧
      (d.toNat≤2*(n/2^(m+1)%d.toNat)+n/2^m%2 →
        2*(n/2^(m+1)%d.toNat)+n/2^m%2-d.toNat<2^(w-1)) := by
    rcases hroom with hsmall|⟨rfl,hhalf,hbig⟩
    · omega
    · have hone : n/2^(0+1)=n/2 := rfl
      have hzero : n/2^0=n := Nat.div_one n
      have hbits : 2*(n/2^(0+1)%d.toNat)+n/2^0%2=n := by
        rw [hone,hzero,Nat.mod_eq_of_lt hhalf]
        omega
      have hmax := d.isLt
      rw [hbits]
      omega
  obtain ⟨hr,hq⟩ := h.shifted hm hn hseen.1
  obtain ⟨h1,h2,h3⟩ := subtract_spec (q := s.q<<<1|||s.carry) hw
    (hr ▸ hseen.2.1) (hr ▸ hseen.2.2)
  obtain ⟨hmod,hdigit⟩ := next_digit (a := n/2^(m+1)) (Nat.mod_lt (n/2^m) Nat.two_pos) hd
  rw [←hsplit] at hmod hdigit
  refine ⟨?_,?_,?_⟩
  · rw [hmod,←hr]
    exact h2
  · have hsame : (RestoringDivision.turn d s).q=s.q<<<1|||s.carry := h1
    rw [hsame,hq]
  · rw [hdigit,←hr]
    exact h3

/-- The loop takes up all bits that remain. -/
theorem Dividing.turns {n m : ℕ} {d : BitVec w} {s : Registers w}
    (h : Dividing n d.toNat m s) (hd : 0 < d.toNat) (hm : m≤w) (hn : n<2^w)
    (hroom : d.toNat≤2^(w-1) ∨ (m=1 ∧ n/2 < d.toNat ∧ 2^(w-1)≤n)) :
    Dividing n d.toNat 0 (turns d m s) := by
  induction m generalizing s with
  | zero => exact h
  | succ m ih =>
    have hturn := h.turn hd (by omega) hn (hroom.imp_right fun hlast => ⟨by omega,hlast.2⟩)
    by_cases hzero : m=0
    · subst hzero
      exact hturn
    · exact ih hturn (by omega) (hroom.imp_right fun hlast => by omega)

/-- The registers before the first turn: the numerator, moved so that it is below the divisor. -/
theorem dividing_start {n m : ℕ} {d : ℕ} {s : Registers w} (hbelow : n/2^m < d)
    (hq : s.q.toNat=n%2^m*2^(w-m)) (hr : s.r.toNat=n/2^m) (hcarry : s.carry.toNat=0) :
    Dividing n d m s := by
  refine ⟨?_,?_,?_⟩
  · rw [hr,Nat.mod_eq_of_lt hbelow]
  · rw [hq,Nat.div_eq_of_lt hbelow,Nat.zero_div,Nat.add_zero]
  · rw [hcarry,Nat.div_eq_of_lt hbelow,Nat.zero_mod]

/-- The loop divides: it leaves the quotient and the remainder of the numerator after as many turns
as it has bits. -/
theorem turns_spec {n d : BitVec w} {m : ℕ} {s : Registers w} (hd : 0 < d.toNat) (hm : m≤w)
    (hbelow : n.toNat/2^m < d.toNat)
    (hroom : d.toNat≤2^(w-1) ∨ (m=1 ∧ 2^(w-1)≤n.toNat))
    (hq : s.q=n<<<(w-m)) (hr : s.r=n>>>m) (hcarry : s.carry=0#w) :
    quotient (turns d m s)=n/d ∧ (turns d m s).r=n%d := by
  have hupper : s.q.toNat=n.toNat%2^m*2^(w-m) := by
    have hpow : 2^w=2^m*2^(w-m) := by rw [←Nat.pow_add,Nat.add_sub_cancel' hm]
    rw [hq,BitVec.toNat_shiftLeft,Nat.shiftLeft_eq,hpow,Nat.mul_mod_mul_right]
  have hlower : s.r.toNat=n.toNat/2^m := by
    rw [hr,BitVec.toNat_ushiftRight,Nat.shiftRight_eq_div_pow]
  have hroom' : d.toNat≤2^(w-1) ∨ (m=1 ∧ n.toNat/2 < d.toNat ∧ 2^(w-1)≤n.toNat) :=
    hroom.imp_right fun hlast => by
      obtain ⟨rfl,hbig⟩ := hlast
      rw [Nat.pow_one] at hbelow
      exact ⟨rfl,hbelow,hbig⟩
  have hzero : s.carry.toNat=0 := by rw [hcarry,BitVec.toNat_zero]
  have hdone := (dividing_start hbelow hupper hlower hzero).turns hd hm n.isLt hroom'
  have hone : n.toNat/2^0=n.toNat := Nat.div_one _
  have hw : 0 < w := by
    rcases Nat.eq_zero_or_pos w with rfl|hpos
    · have hmax := d.isLt
      omega
    · exact hpos
  constructor
  · refine BitVec.eq_of_toNat_eq ?_
    have hbits := hdone.bits
    have hlast := hdone.last
    have hmax : n.toNat/d.toNat<2^w := Nat.lt_of_le_of_lt (Nat.div_le_self _ _) n.isLt
    rw [hone,Nat.pow_zero,Nat.mod_one,Nat.zero_mul,Nat.zero_add] at hbits
    rw [hone] at hlast
    unfold quotient
    rw [toNat_shiftIn hw _ _ (by omega),hbits,hlast,BitVec.toNat_udiv]
    generalize n.toNat/d.toNat=a at hmax ⊢
    rw [Nat.mod_eq_of_lt (by omega)]
    omega
  · refine BitVec.eq_of_toNat_eq ?_
    rw [hdone.rest,hone,BitVec.toNat_umod]

end RigelTarget.RestoringDivision
