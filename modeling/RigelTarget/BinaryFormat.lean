import Mathlib

/-!
# Binary formats and rounding to nearest

The bits of a number without its sign are a natural number: the significand below, the exponent
above it. Their magnitude, in units of the least positive number, grows with the bits, by a unit in
the last place from one number to the next. A number is rounded to the nearest magnitude, and to
the even bits of two that are as near. The magnitude one behind the greatest stands for infinity, so
that overflow is no case of its own.

The bits that a computation drops may be gathered in one sticky bit: a number and its sticky form
agree in every comparison with an even number, and more coarsely after they are moved to the left.
-/

namespace RigelTarget.BinaryFormat

/-- The magnitude of some bits with `p` bits of significand: exponent and significand are read off
the bits, and the least exponent has no implicit bit. -/
def magnitude (p n : ℕ) : ℕ := if n/2^p=0 then n else (2^p+n%2^p)*2^(n/2^p-1)

/-- How far a number is from the magnitude of some bits. -/
def distance (p : ℕ) (x : ℚ) (n : ℕ) : ℚ := |x-(magnitude p n : ℚ)|

/-- The bits are a number nearest to `x` up to `top`; of two that are as near, the even one. It
compares with every other number of the format. -/
def Nearest (p top : ℕ) (x : ℚ) (n : ℕ) : Prop :=
  n≤top ∧ ∀ m, m≤top → m≠n →
    distance p x n < distance p x m ∨ (distance p x n=distance p x m ∧ Even n)

/-- A number is rounded up when what follows it is more than half, or half and the number odd. One
added to the bits is the next number. -/
def round (n low half : ℕ) : ℕ :=
  if half < low then n+1 else if low=half then n+n%2 else n

/-- A number moved to the right, with a bit that says whether it lost any. The bit keeps later
roundings right. -/
def sticky (s j : ℕ) : ℕ := s/2^j|||if s%2^j=0 then 0 else 1

/-- The numbers agree in every comparison with a multiple of `2^g`. This is what a rounding asks of
a shortened number. -/
def Agrees (g s : ℕ) (t : ℚ) : Prop :=
  ∀ k : ℕ, (s<k*2^g ↔ t<(k*2^g : ℕ)) ∧ (s=k*2^g ↔ t=(k*2^g : ℕ))

section Magnitudes

variable {p n m top : ℕ}

/-- A number without its exponent. -/
theorem magnitude_low (h : n<2^p) : magnitude p n=n := if_pos (Nat.div_eq_of_lt h)

/-- A number by its exponent and significand. -/
theorem magnitude_parts {e f : ℕ} (he : 0 < e) (hf : f<2^p) :
    magnitude p (2^p*e+f)=(2^p+f)*2^(e-1) := by
  have hdiv : (2^p*e+f)/2^p=e := by
    rw [Nat.mul_add_div (Nat.two_pow_pos p),Nat.div_eq_of_lt hf,Nat.add_zero]
  have hmod : (2^p*e+f)%2^p=f := by rw [Nat.mul_add_mod,Nat.mod_eq_of_lt hf]
  unfold magnitude
  rw [hdiv,hmod,if_neg (by omega)]

/-- The next number is a unit in the last place greater, also where the exponent goes up: the
significand of all ones is followed by the least one of the next exponent. -/
theorem magnitude_succ (p n : ℕ) : magnitude p (n+1)=magnitude p n+2^(n/2^p-1) := by
  have hpos := Nat.two_pow_pos p
  have hlow : n%2^p<2^p := Nat.mod_lt _ hpos
  have hn := Nat.div_add_mod n (2^p)
  rcases Nat.eq_zero_or_pos (n/2^p) with hzero|he
  · rw [hzero] at hn ⊢
    rw [magnitude_low (show n<2^p by omega)]
    by_cases hlast : n+1<2^p
    · rw [magnitude_low hlast]
      rfl
    · have hone : n+1=2^p*1+0 := by omega
      rw [hone,magnitude_parts Nat.one_pos hpos]
      omega
  · have hthis : magnitude p n=(2^p+n%2^p)*2^(n/2^p-1) := by
      conv_lhs => rw [←hn]
      exact magnitude_parts he hlow
    by_cases hlast : n%2^p+1<2^p
    · have hnext : n+1=2^p*(n/2^p)+(n%2^p+1) := by omega
      rw [hthis,hnext,magnitude_parts he hlast]
      ring
    · have hnext : n+1=2^p*(n/2^p+1)+0 := by
        rw [Nat.mul_succ]
        omega
      have hfull : n%2^p+1=2^p := by omega
      obtain ⟨e,he'⟩ : ∃ e, n/2^p=e+1 := ⟨n/2^p-1,by omega⟩
      rw [hthis,hnext,magnitude_parts (Nat.succ_pos _) hpos,he',Nat.succ_sub_one,
        Nat.succ_sub_one,pow_succ 2 e]
      calc (2^p+0)*(2^e*2) = (2^p+2^p)*2^e := by ring
        _ = (2^p+(n%2^p+1))*2^e := by rw [hfull]
        _ = (2^p+n%2^p)*2^e+2^e := by ring

/-- Magnitudes grow with the bits. -/
theorem magnitude_strictMono (p : ℕ) : StrictMono (magnitude p) :=
  strictMono_nat_of_lt_succ fun n => by
    rw [magnitude_succ]
    exact Nat.lt_add_of_pos_right (Nat.two_pow_pos _)

/-- The magnitudes of two numbers as rationals. -/
theorem magnitude_cast_lt (h : n < m) : (magnitude p n : ℚ) < magnitude p m :=
  Nat.cast_lt.2 (magnitude_strictMono p h)

/-- The greater of two numbers is nearer above their middle. -/
theorem distance_above {x : ℚ} (h : m<n) (hx : (magnitude p m+magnitude p n : ℚ)<2*x) :
    distance p x n < distance p x m := by
  have hlt : (magnitude p m : ℚ) < magnitude p n := magnitude_cast_lt h
  have hbound : |x-(magnitude p n : ℚ)|<x-(magnitude p m : ℚ) :=
    abs_lt.2 ⟨by linarith,by linarith⟩
  exact hbound.trans_le (le_abs_self _)

/-- The less of two numbers is nearer below their middle. -/
theorem distance_below {x : ℚ} (h : n < m) (hx : 2*x<(magnitude p n+magnitude p m : ℚ)) :
    distance p x n < distance p x m := by
  have hlt : (magnitude p n : ℚ) < magnitude p m := magnitude_cast_lt h
  have hbound : |x-(magnitude p n : ℚ)|<(magnitude p m : ℚ)-x :=
    abs_lt.2 ⟨by linarith,by linarith⟩
  refine hbound.trans_le ?_
  unfold distance
  rw [abs_sub_comm]
  exact le_abs_self _

/-- Two numbers are as near to their middle. -/
theorem distance_middle {x : ℚ} (hx : (magnitude p m+magnitude p n : ℚ)=2*x) :
    distance p x n=distance p x m := by
  have hsame : x-(magnitude p n : ℚ)=-(x-(magnitude p m : ℚ)) := by linarith
  unfold distance
  rw [hsame,abs_neg]

/-- A number is nearest if its neighbours on both sides are not nearer, and it is even where one
of them is as near. -/
theorem nearest_of_neighbours {x : ℚ} (hn : n≤top)
    (hbelow : ∀ m, m+1=n → (magnitude p m+magnitude p n : ℚ)<2*x ∨
      ((magnitude p m+magnitude p n : ℚ)=2*x ∧ Even n))
    (habove : n < top → 2*x<(magnitude p n+magnitude p (n+1) : ℚ) ∨
      ((magnitude p n+magnitude p (n+1) : ℚ)=2*x ∧ Even n)) :
    Nearest p top x n := by
  refine ⟨hn,fun m hm hne => ?_⟩
  rcases Nat.lt_or_gt_of_ne hne with hless|hmore
  · obtain ⟨b,rfl⟩ : ∃ b, n=b+1 := ⟨n-1,by omega⟩
    rcases Nat.lt_or_eq_of_le (show m≤b by omega) with hfar|rfl
    · have hmb : (magnitude p m : ℚ) < magnitude p b := magnitude_cast_lt hfar
      refine Or.inl (distance_above hless ?_)
      rcases hbelow b rfl with h|h <;> linarith [h]
    · exact (hbelow m rfl).imp (distance_above hless) fun h => ⟨distance_middle h.1,h.2⟩
  · rcases Nat.lt_or_eq_of_le (show n+1 ≤ m by omega) with hfar|rfl
    · have hmb : (magnitude p (n+1) : ℚ) < magnitude p m :=
        magnitude_cast_lt hfar
      refine Or.inl (distance_below hmore ?_)
      rcases habove (by omega) with h|h <;> linarith [h]
    · refine (habove (by omega)).imp (distance_below hmore) fun h => ⟨?_,h.2⟩
      exact (distance_middle h.1).symm

/-- Numbers below half of the least positive one are nearest to zero. -/
theorem nearest_zero {x : ℚ} (h : 2*x<1) : Nearest p top x 0 := by
  have hzero : magnitude p 0=0 := magnitude_low (Nat.two_pow_pos p)
  have hone : magnitude p 1=1 := by
    rw [magnitude_succ,hzero,Nat.zero_div]
    rfl
  refine nearest_of_neighbours (Nat.zero_le _) (fun m hm => absurd hm (Nat.succ_ne_zero m))
    fun _ => Or.inl ?_
  rw [Nat.zero_add,hzero,hone,Nat.cast_zero,Nat.cast_one,zero_add]
  exact h

/-- A number is nearest to its own magnitude. -/
theorem nearest_self (h : n≤top) : Nearest p top (magnitude p n) n := by
  refine nearest_of_neighbours h (fun m hm => Or.inl ?_) fun _ => Or.inl ?_
  · have hlt : (magnitude p m : ℚ) < magnitude p n :=
      magnitude_cast_lt (by omega)
    linarith
  · have hlt : (magnitude p n : ℚ) < magnitude p (n+1) :=
      magnitude_cast_lt (Nat.lt_succ_self n)
    linarith

/-- Only one number is the nearest, since of two neighbours only one is even. -/
theorem Nearest.unique {x : ℚ} (h : Nearest p top x n) (h' : Nearest p top x m) : n=m := by
  by_contra hne
  wlog hless : n < m generalizing n m
  · exact this h' h (Ne.symm hne) (by omega)
  have hn := h.2 m h'.1 (Ne.symm hne)
  have hm := h'.2 n h.1 hne
  -- Neither is nearer, so both are even and the number between them is nearer than they are.
  have hsame : distance p x n=distance p x m := by
    rcases hn with hn|hn
    · rcases hm with hm|hm
      · exact absurd hm (lt_asymm hn)
      · exact hm.1.symm
    · exact hn.1
  have heven : Even n := (hn.resolve_left fun hlt => absurd hsame (ne_of_lt hlt)).2
  have heven' : Even m := (hm.resolve_left fun hlt => absurd hsame.symm (ne_of_lt hlt)).2
  have hbetween : n+1 < m := by
    obtain ⟨a,rfl⟩ := heven
    obtain ⟨b,rfl⟩ := heven'
    omega
  have hlower : (magnitude p n : ℚ) < magnitude p m := magnitude_cast_lt hless
  have hupper : (magnitude p (n+1) : ℚ) < magnitude p m :=
    magnitude_cast_lt hbetween
  have hmiddle : 2*x=(magnitude p n+magnitude p m : ℚ) := by
    rcases abs_eq_abs.1 hsame with heq|heq <;> linarith
  have hnearer : distance p x (n+1) < distance p x n :=
    distance_above (Nat.lt_succ_self n) (by linarith)
  have hle := h'.1
  rcases h.2 (n+1) (by omega) (Nat.succ_ne_self n) with hfar|hfar
  · exact lt_asymm hfar hnearer
  · exact absurd hfar.1.symm (ne_of_lt hnearer)

end Magnitudes

section Rounding

variable {p top n s r g j : ℕ} {t : ℚ}

/-- The greatest magnitude is nearest to all numbers that are not less. -/
theorem nearest_top {x : ℚ} (h : (magnitude p top : ℚ)≤x) : Nearest p top x top := by
  refine nearest_of_neighbours (Nat.le_refl top) (fun m hm => Or.inl ?_)
    fun hless => absurd hless (Nat.lt_irrefl top)
  have hlt : (magnitude p m : ℚ) < magnitude p top :=
    magnitude_cast_lt (by omega)
  linarith

/-- A number agrees with itself. -/
theorem agrees_self (g s : ℕ) : Agrees g s s := fun _ => ⟨Nat.cast_lt.symm,Nat.cast_inj.symm⟩

/-- The order the other way round. -/
theorem Agrees.lt_iff (h : Agrees g s t) (k : ℕ) : k*2^g < s ↔ ((k*2^g : ℕ) : ℚ)<t := by
  obtain ⟨hless,hsame⟩ := h k
  constructor
  · intro hs
    by_contra hle
    rcases lt_or_eq_of_le (not_lt.1 hle) with hlt|heq
    · exact absurd (hless.2 hlt) (by omega)
    · exact absurd (hsame.2 heq) (by omega)
  · intro hs
    by_contra hle
    rcases Nat.lt_or_eq_of_le (not_lt.1 hle) with hlt|heq
    · exact absurd (hless.1 hlt) (lt_asymm hs)
    · exact absurd (hsame.1 heq) (ne_of_gt hs)

/-- A number that agrees with a natural number is not negative. -/
theorem Agrees.nonneg (h : Agrees g s t) : 0≤t := by
  by_contra hneg
  have hless := (h 0).1.2
  rw [Nat.zero_mul,Nat.cast_zero] at hless
  exact absurd (hless (not_le.1 hneg)) (Nat.not_lt_zero s)

/-- Multiples are added. -/
theorem Agrees.add (h : Agrees g s t) (c : ℕ) : Agrees g (c*2^g+s) ((c*2^g : ℕ)+t) := by
  intro k
  have hpos := h.nonneg
  rcases Nat.lt_or_ge k c with hless|hle
  · have hlt : k*2^g < c*2^g := Nat.mul_lt_mul_of_pos_right hless (Nat.two_pow_pos g)
    have hlt' : ((k*2^g : ℕ) : ℚ)<(c*2^g : ℕ) := Nat.cast_lt.2 hlt
    constructor <;> constructor <;> intro hk <;> first | omega | linarith
  · obtain ⟨d,rfl⟩ := Nat.exists_eq_add_of_le hle
    obtain ⟨h1,h2⟩ := h d
    rw [Nat.add_mul,Nat.cast_add,add_lt_add_iff_left,add_right_inj,add_lt_add_iff_left,
      add_right_inj]
    exact ⟨h1,h2⟩

/-- Numbers are taken off multiples. -/
theorem Agrees.sub (h : Agrees g s t) {c : ℕ} (hle : s ≤ c*2^g) :
    Agrees g (c*2^g-s) ((c*2^g : ℕ)-t) := by
  intro k
  have hpos := h.nonneg
  rcases Nat.lt_or_ge c k with hless|hge
  · have hlt : c*2^g < k*2^g := Nat.mul_lt_mul_of_pos_right hless (Nat.two_pow_pos g)
    have hlt' : ((c*2^g : ℕ) : ℚ)<(k*2^g : ℕ) := Nat.cast_lt.2 hlt
    constructor <;> constructor <;> intro hk <;> first | omega | linarith
  · obtain ⟨d,rfl⟩ := Nat.exists_eq_add_of_le hge
    have hless := h.lt_iff d
    have hsame := (h d).2
    rw [Nat.add_mul] at hle ⊢
    rw [Nat.cast_add,sub_lt_iff_lt_add,sub_eq_iff_eq_add,add_lt_add_iff_left,add_right_inj,←hless,
      eq_comm (a := ((d*2^g : ℕ) : ℚ)),←hsame]
    omega

/-- Both numbers are moved to the left. -/
theorem Agrees.scale (h : Agrees g s t) (j : ℕ) : Agrees (g+j) (s*2^j) (t*(2^j : ℕ)) := by
  intro k
  have hpos : (0 : ℚ)<(2^j : ℕ) := Nat.cast_pos.2 (Nat.two_pow_pos j)
  have hk : k*2^(g+j)=k*2^g*2^j := by rw [Nat.pow_add,Nat.mul_assoc]
  rw [hk,Nat.cast_mul (k*2^g),mul_lt_mul_iff_left₀ hpos,mul_left_inj' hpos.ne',
    Nat.mul_lt_mul_right (Nat.two_pow_pos j),Nat.mul_left_inj (Nat.two_pow_pos j).ne']
  exact h k

/-- The lowest bit is set. -/
theorem or_one (x : ℕ) : x|||1=2*(x/2)+1 := by
  have hlow : x%2<2^1 := Nat.mod_lt _ Nat.two_pos
  have hbit : x%2|||1=1 := by
    rcases Nat.mod_two_eq_zero_or_one x with h|h <;> rw [h] <;> rfl
  have hparts : x=2^1*(x/2)|||x%2 := by
    rw [←Nat.two_pow_add_eq_or_of_lt hlow]
    omega
  calc x|||1 = 2^1*(x/2)|||x%2|||1 := congrArg (·|||1) hparts
    _ = 2^1*(x/2)|||1 := by rw [Nat.or_assoc,hbit]
    _ = 2*(x/2)+1 := (Nat.two_pow_add_eq_or_of_lt Nat.one_lt_two (x/2)).symm

/-- The sticky form of a number in comparisons with even numbers. -/
theorem sticky_compare (s j k : ℕ) :
    (sticky s j<k*2 ↔ s<k*2*2^j) ∧ (sticky s j=k*2 ↔ s=k*2*2^j) := by
  have hpos := Nat.two_pow_pos j
  have hsplit := Nat.div_add_mod s (2^j)
  have hlow : s%2^j<2^j := Nat.mod_lt _ hpos
  have hdiv : s/2^j<k*2 ↔ s<k*2*2^j := Nat.div_lt_iff_lt_mul hpos
  unfold sticky
  by_cases hexact : s%2^j=0
  · rw [if_pos hexact,Nat.or_zero]
    refine ⟨hdiv,?_⟩
    rw [hexact,Nat.add_zero] at hsplit
    conv_rhs => rw [←hsplit,Nat.mul_comm]
    exact (Nat.mul_left_inj hpos.ne').symm
  · have hne : s≠k*2*2^j := fun heq => hexact (by rw [heq,Nat.mul_mod_left])
    rw [if_neg hexact,or_one,←hdiv]
    omega

/-- The sticky form of a number agrees with it in comparisons with even numbers. -/
theorem Agrees.sticky (h : Agrees g s t) (hg : g≤j+1) :
    Agrees 1 (sticky s j) (t/(2^j : ℕ)) := by
  intro k
  obtain ⟨d,hd⟩ := Nat.exists_eq_add_of_le hg
  have hpos : (0 : ℚ)<(2^j : ℕ) := Nat.cast_pos.2 (Nat.two_pow_pos j)
  have hk : k*2*2^j=k*2^d*2^g := by
    calc k*2*2^j = k*2^(j+1) := by ring
      _ = k*2^d*2^g := by rw [hd,Nat.pow_add]; ring
  obtain ⟨h1,h2⟩ := sticky_compare s j k
  obtain ⟨h3,h4⟩ := h (k*2^d)
  rw [pow_one,h1,h2,hk,h3,h4,←hk,Nat.cast_mul (k*2),div_lt_iff₀ hpos,div_eq_iff hpos.ne']
  exact ⟨Iff.rfl,Iff.rfl⟩

/-- Rounding by the bits that follow a number gives the nearest one. The cases are those of what
follows: less than half, half, and more. -/
theorem nearest_round (hg : g < r) (h : Agrees g s t)
    (hmag : magnitude p n=s/2^r*2^(n/2^p-1)) (hn : n < top) :
    Nearest p top (t/(2^r : ℕ)*(2^(n/2^p-1) : ℕ)) (round n (s%2^r) (2^(r-1))) := by
  obtain ⟨d,rfl⟩ : ∃ d, r=g+d+1 := ⟨r-g-1,by omega⟩
  have hsplit := Nat.div_add_mod s (2^(g+d+1))
  have hlow : s%2^(g+d+1)<2^(g+d+1) := Nat.mod_lt _ (Nat.two_pow_pos _)
  have hnext := magnitude_succ p n
  have hstep : ∀ m, m+1=n → (magnitude p m : ℚ) < magnitude p n := fun m hm =>
    magnitude_cast_lt (by omega)
  have hafter : (magnitude p (n+1) : ℚ) < magnitude p (n+1+1) :=
    magnitude_cast_lt (Nat.lt_succ_self _)
  have hhalf : 2^(g+d+1)=2*2^(g+d) := Nat.pow_succ'
  have hmultiple : ∀ k, k*2^(g+d)=k*2^d*2^g := fun k => by
    rw [Nat.pow_add]
    ring
  have hpos : (0 : ℚ)<(2^(g+d) : ℕ) := Nat.cast_pos.2 (Nat.two_pow_pos _)
  have hu : (0 : ℚ)<(2^(n/2^p-1) : ℕ) := Nat.cast_pos.2 (Nat.two_pow_pos _)
  have hcompare : ∀ k, (s<k*2^(g+d) ↔ t<k*(2^(g+d) : ℕ)) ∧ (s=k*2^(g+d) ↔ t=k*(2^(g+d) : ℕ)) ∧
      (k*2^(g+d) < s ↔ k*(2^(g+d) : ℕ)<t) := fun k => by
    have hk := h (k*2^d)
    have hk' := h.lt_iff (k*2^d)
    rw [←hmultiple] at hk hk'
    rw [←Nat.cast_mul]
    exact ⟨hk.1,hk.2,hk'⟩
  rw [Nat.add_sub_cancel]
  rw [hhalf] at hsplit hlow hmag ⊢
  generalize 2^(n/2^p-1)=u at hmag hnext hu ⊢
  generalize 2^(g+d)=half at hsplit hlow hmag hpos hcompare ⊢
  generalize s/(2*half)=q at hmag hsplit
  generalize s%(2*half)=l at hsplit hlow ⊢
  have hbelow : (magnitude p n : ℚ)=q*u := by rw [hmag,Nat.cast_mul]
  have habove : (magnitude p (n+1) : ℚ)=q*u+u := by rw [hnext,hmag,Nat.cast_add,Nat.cast_mul]
  -- The number in units in the last place.
  obtain ⟨y,rfl⟩ : ∃ y, t=y*(2*half) := ⟨t/(2*half),(div_mul_cancel₀ t (by positivity)).symm⟩
  have hplace : ∀ k : ℕ, (s<k*half ↔ 2*y<k) ∧ (s=k*half ↔ 2*y=k) ∧ (k*half < s ↔ (k : ℚ)<2*y) := by
    intro k
    have hscale : y*(2*half)=2*y*half := by ring
    obtain ⟨h1,h2,h3⟩ := hcompare k
    rw [hscale] at h1 h2 h3
    rw [h1,h2,h3,mul_lt_mul_iff_left₀ hpos,mul_left_inj' hpos.ne',mul_lt_mul_iff_left₀ hpos]
    exact ⟨Iff.rfl,Iff.rfl,Iff.rfl⟩
  have hx : y*(2*half)/(2*half : ℕ)*u=y*u := by
    rw [Nat.cast_mul,Nat.cast_ofNat,mul_div_cancel_right₀ y (by positivity)]
  have hfirst : (q : ℚ)≤y := by
    have hplace' := (hplace (2*q)).1
    rw [Nat.cast_mul,Nat.cast_ofNat] at hplace'
    have hnot := hplace'.not.1 (by nlinarith)
    linarith
  have hlast : y<q+1 := by
    have hplace' := (hplace (2*q+2)).1.1 (by nlinarith)
    push_cast at hplace'
    linarith
  have hodd : (2*q+1)*half=2*half*q+half := by ring
  obtain ⟨h1,h2,h3⟩ := hplace (2*q+1)
  rw [hodd,←hsplit] at h1 h2 h3
  push_cast at h1 h2 h3
  have hlower : q*u≤y*u := mul_le_mul_of_nonneg_right hfirst hu.le
  have hupper : y*u<(q+1)*u := mul_lt_mul_of_pos_right hlast hu
  rw [hx]
  unfold round
  rcases Nat.lt_trichotomy l half with hless|rfl|hmore
  · have hy := mul_lt_mul_of_pos_right (h1.1 (by omega)) hu
    rw [if_neg (by omega),if_neg (by omega)]
    refine nearest_of_neighbours hn.le (fun m hm => Or.inl ?_) fun _ => Or.inl ?_
    · have hbefore := hstep m hm
      linarith
    · linarith
  · have hy := h2.1 rfl
    have hy' : 2*y*u=(2*q+1)*u := by rw [hy]
    rw [if_neg (Nat.lt_irrefl l),if_pos rfl]
    rcases Nat.mod_two_eq_zero_or_one n with heven|hodd'
    · rw [heven,Nat.add_zero]
      refine nearest_of_neighbours hn.le (fun m hm => Or.inl ?_) fun _ =>
        Or.inr ⟨?_,Nat.even_iff.2 heven⟩
      · have hbefore := hstep m hm
        linarith
      · linear_combination hbelow+habove-u*hy
    · rw [hodd']
      refine nearest_of_neighbours hn (fun m hm => Or.inr ⟨?_,?_⟩) fun _ => Or.inl ?_
      · rw [Nat.succ_inj.1 hm]
        linear_combination hbelow+habove-u*hy
      · exact Nat.even_iff.2 (by omega)
      · linarith
  · have hy := mul_lt_mul_of_pos_right (h3.1 (by omega)) hu
    rw [if_pos hmore]
    refine nearest_of_neighbours hn (fun m hm => Or.inl ?_) fun _ => Or.inl ?_
    · rw [Nat.succ_inj.1 hm]
      linarith
    · linarith

end Rounding

end RigelTarget.BinaryFormat
