import Mathlib.Data.Nat.Bitwise
import Mathlib.Tactic.Common

/-!
# Addresses and cache lines

A mask of high bits rounds a word down to a multiple of a power of two. A walk visits the
places from a start up to an end with steps of one line. It reaches the line of every place
before the end except perhaps the last one, which it reaches if and only if the last step starts
in that line; a visit of the end itself reaches it in any case. Of several rows, the next may reach
the last line of one.
-/

namespace RigelTarget.CacheLine

section Mask

variable {w k x : ℕ}

/-- The mask of the bits from `k` on rounds down. -/
theorem and_highMask (hx : x<2^w) (hk : k≤w) : x&&&(2^w-2^k)=x/2^k*2^k := by
  have hmask : 2^w-2^k=(2^(w-k)-1)<<<k := by
    rw [Nat.shiftLeft_eq,Nat.sub_mul,Nat.one_mul,←pow_add,Nat.sub_add_cancel hk]
  have hdown : x/2^k*2^k=x>>>k<<<k := by
    rw [Nat.shiftLeft_eq,Nat.shiftRight_eq_div_pow]
  rw [hmask,hdown]
  refine Nat.eq_of_testBit_eq fun i => ?_
  rw [Nat.testBit_and,Nat.testBit_shiftLeft,Nat.testBit_shiftLeft,Nat.testBit_shiftRight,
    Nat.testBit_two_pow_sub_one]
  by_cases hi : k ≤ i
  · rw [Nat.add_sub_cancel' hi]
    by_cases hw : i<w
    · have hlow : i-k<w-k := by omega
      simp [hi,hlow]
    · have hhigh : x.testBit i=false :=
        Nat.testBit_lt_two_pow (hx.trans_le (Nat.pow_le_pow_right (by decide) (by omega)))
      simp [hhigh]
  · simp [hi]

end Mask

section Walk

variable {L a b p : ℕ}

/-- The places from `a` on, with steps of `L`, that lie before `b`. -/
def walk (L a b : ℕ) : List ℕ :=
  if a<b ∧ 0<L then a::walk L (a+L) b else []
termination_by b-a

/-- The places of a walk are whole steps from its start. -/
theorem mem_walk (hL : 0<L) : p∈walk L a b ↔ ∃ t, p=a+L*t ∧ p<b := by
  fun_induction walk L a b with
  | case1 a h ih =>
    rw [List.mem_cons,ih]
    constructor
    · rintro (rfl|⟨t,rfl,hlt⟩)
      · exact ⟨0,by omega,h.1⟩
      · exact ⟨t+1,by rw [Nat.mul_add]; omega,hlt⟩
    · rintro ⟨t,rfl,hlt⟩
      cases t with
      | zero => exact .inl (by omega)
      | succ t => exact .inr ⟨t,by rw [Nat.mul_add]; omega,hlt⟩
  | case2 a h =>
    constructor
    · intro hp
      cases hp
    · rintro ⟨t,rfl,hlt⟩
      exact absurd ⟨by omega,hL⟩ h

/-- The step of a walk that starts at or before a place, less than a line before it. -/
theorem step_before (hL : 0<L) (ha : a≤p) (hb : p<b) :
    ∃ q, q∈walk L a b ∧ q≤p ∧ p<q+L := by
  have hrest := Nat.mod_lt (p-a) hL
  have hsplit := Nat.div_add_mod (p-a) L
  exact ⟨a+L*((p-a)/L),(mem_walk hL).2 ⟨_,rfl,by omega⟩,by omega,by omega⟩

/-- Places less than a line apart are in the same line or in neighbouring lines. -/
theorem line_neighbour {q : ℕ} (hL : 0<L) (hq : q≤p) (hp : p<q+L) :
    p/L=q/L ∨ p/L=(q+L)/L := by
  have hle := Nat.div_le_div_right (c := L) hq
  have hge := Nat.div_le_div_right (c := L) hp.le
  rw [Nat.add_div_right _ hL] at hge ⊢
  omega

/-- A walk that also visits its end reaches the line of every place before the end. -/
theorem walk_end_reaches (hL : 0<L) (ha : a≤p) (hb : p<b) :
    ∃ q, (q∈walk L a b ∨ q=b) ∧ q/L=p/L := by
  obtain ⟨q,hq,hle,hlt⟩ := step_before hL ha hb
  rcases line_neighbour hL hle hlt with hline|hline
  · exact ⟨q,.inl hq,hline.symm⟩
  · by_cases hnext : q+L<b
    · obtain ⟨t,ht,-⟩ := (mem_walk hL).1 hq
      exact ⟨q+L,.inl ((mem_walk hL).2 ⟨t+1,by rw [Nat.mul_add]; omega,hnext⟩),hline.symm⟩
    · -- the end lies between the place and the next step
      refine ⟨b,.inr rfl,Nat.le_antisymm ?_ (Nat.div_le_div_right hb.le)⟩
      rw [hline]
      exact Nat.div_le_div_right (by omega)

/-- The last place before the end is in the line of the last step, or in the one after it. -/
theorem last_line_iff (hL : 0<L) (hab : a<b) :
    (b-1)/L=a/L+(b-1-a)/L ↔ a%L+(b-1-a)%L<L := by
  have hsum : b-1=L*(a/L+(b-1-a)/L)+(a%L+(b-1-a)%L) := by
    have hfirst := Nat.div_add_mod a L
    have hrest := Nat.div_add_mod (b-1-a) L
    rw [Nat.mul_add]
    omega
  generalize a/L+(b-1-a)/L=T at hsum ⊢
  generalize a%L+(b-1-a)%L=r at hsum ⊢
  rw [hsum,Nat.mul_add_div hL]
  constructor
  · intro h
    exact (Nat.div_eq_zero_iff_lt hL).1 (by omega)
  · intro h
    rw [Nat.div_eq_of_lt h,Nat.add_zero]

/-- No step of a walk is beyond the line of its last step. -/
theorem walk_line_le (hL : 0<L) {q : ℕ} (hq : q∈walk L a b) : q/L≤a/L+(b-1-a)/L := by
  obtain ⟨t,rfl,hlt⟩ := (mem_walk hL).1 hq
  rw [Nat.add_mul_div_left _ _ hL]
  have ht : t≤(b-1-a)/L := (Nat.le_div_iff_mul_le hL).2 (by rw [Nat.mul_comm]; omega)
  omega

/-- A walk reaches the line of its last place if and only if its last step starts there. -/
theorem last_reached_iff (hL : 0<L) (hab : a<b) :
    (∃ q, q∈walk L a b ∧ q/L=(b-1)/L) ↔ a%L+(b-1-a)%L<L := by
  rw [←last_line_iff hL hab]
  have hsplit := Nat.div_add_mod (b-1-a) L
  constructor
  · rintro ⟨q,hq,he⟩
    have hle := walk_line_le hL hq
    have hge : a/L+(b-1-a)/L≤(b-1)/L := by
      rw [←Nat.add_mul_div_left _ _ hL]
      exact Nat.div_le_div_right (by omega)
    omega
  · intro hlast
    refine ⟨a+L*((b-1-a)/L),(mem_walk hL).2 ⟨_,rfl,by omega⟩,?_⟩
    rw [Nat.add_mul_div_left _ _ hL,hlast]

/-- A walk reaches the line of every place before its end that is not in the last line. -/
theorem walk_line (hL : 0<L) (ha : a≤p) (hb : p<b) :
    (∃ q, q∈walk L a b ∧ q/L=p/L) ∨ p/L=(b-1)/L := by
  obtain ⟨q,hq,hle,hlt⟩ := step_before hL ha hb
  rcases line_neighbour hL hle hlt with he|he
  · exact .inl ⟨q,hq,he.symm⟩
  · by_cases hnext : q+L<b
    · obtain ⟨t,rfl,-⟩ := (mem_walk hL).1 hq
      exact .inl ⟨a+L*t+L,(mem_walk hL).2 ⟨t+1,by rw [Nat.mul_add]; omega,hnext⟩,he.symm⟩
    · have hlow : p/L≤(b-1)/L := Nat.div_le_div_right (by omega)
      have hhigh : (b-1)/L≤(q+L)/L := Nat.div_le_div_right (by omega)
      omega

end Walk

section Rows

variable {L a s w n : ℕ}

/-- Rows of `w` places, `s` places apart, are walked one after the other. Their walks reach the
lines of all places if and only if, for every row, its own walk reaches the line of its last place
or the next row is walked too and starts in that line. -/
theorem rows_reach_iff (hL : 0<L) (hw : 0<w) (hs : w ≤ s) :
    (∀ r, r<n → ∀ p, a+s*r≤p → p<a+s*r+w →
      ∃ r', r'<n ∧ ∃ q, q∈walk L (a+s*r') (a+s*r'+w) ∧ q/L=p/L) ↔
    ∀ r, r<n → (a+s*r)%L+(w-1)%L<L ∨ (r+1<n ∧ (a+s*(r+1))/L=(a+s*r+w-1)/L) := by
  have hlast : ∀ r, (∃ q, q∈walk L (a+s*r) (a+s*r+w) ∧ q/L=(a+s*r+w-1)/L) ↔
      (a+s*r)%L+(w-1)%L<L := by
    intro r
    have hwidth : a+s*r+w-1-(a+s*r)=w-1 := by omega
    rw [last_reached_iff hL (by omega),hwidth]
  have hstart : ∀ r, a+s*r∈walk L (a+s*r) (a+s*r+w) := fun r =>
    (mem_walk hL).2 ⟨0,by omega,by omega⟩
  have hstep : ∀ r r', r < r' → s*r+s ≤ s*r' := fun r r' h => by
    rw [←Nat.mul_succ]
    exact Nat.mul_le_mul_left s h
  constructor
  · intro hall r hr
    obtain ⟨r',hr',q,hq,he⟩ := hall r hr (a+s*r+w-1) (by omega) (by omega)
    obtain ⟨t,ht,hend⟩ := (mem_walk hL).1 hq
    rcases Nat.lt_trichotomy r' r with hlt|rfl|hgt
    · -- an earlier row: this row is within one line
      have hbefore := hstep r' r hlt
      have hle : q/L≤(a+s*r)/L := Nat.div_le_div_right (by omega)
      have hge : (a+s*r)/L≤(a+s*r+w-1)/L := Nat.div_le_div_right (by omega)
      exact .inl ((hlast r).1 ⟨_,hstart r,by omega⟩)
    · exact .inl ((hlast r').1 ⟨q,hq,he⟩)
    · -- a later row: the next row starts between the last place and the step
      have hnext := hstep r (r+1) (Nat.lt_succ_self r)
      have hmono : s*(r+1) ≤ s*r' := Nat.mul_le_mul_left s hgt
      have hle : (a+s*(r+1))/L≤q/L := Nat.div_le_div_right (by omega)
      have hge : (a+s*r+w-1)/L≤(a+s*(r+1))/L := Nat.div_le_div_right (by omega)
      exact .inr ⟨by omega,by omega⟩
  · intro hcond r hr p ha hb
    rcases walk_line hL ha hb with hown|hline
    · exact ⟨r,hr,hown⟩
    · rw [hline]
      rcases hcond r hr with hown|⟨hnext,he⟩
      · exact ⟨r,hr,(hlast r).2 hown⟩
      · exact ⟨r+1,hnext,_,hstart (r+1),he⟩

end Rows

end RigelTarget.CacheLine
