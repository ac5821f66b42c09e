import RigelTarget.BitReversal
import Mathlib.Data.List.Nodup
import Mathlib.Logic.Function.Basic
import Mathlib.Tactic.Ring

/-!
# The radix-two transform

The transform of twice as many values is made of the transforms of the values at even and at odd
places, whose results are combined in pairs. Nothing is assumed of the operation that combines a
pair: it may round, and it may depend on the depth of the recursion and on the place of the pair.
Stages of butterflies on the values in bit reversed order compute the same transform, operation by
operation, block by block. A stage works in place: every pair of values is replaced once, and the
order of the pairs does not matter.
-/

namespace RigelTarget.RadixTwo

open BitReversal

section Transform

variable {V : Type} {op : ℕ → ℕ → V → V → V×V} {k s e : ℕ} {f g : ℕ → V}

/-- The transform of `2^s` values by recursion: the values at even and those at odd places are
transformed by themselves, and `op s r` makes the results number `r` and `r+2^s` from the two
results number `r`. -/
def transform (op : ℕ → ℕ → V → V → V×V) : ℕ → (ℕ → V) → ℕ → V
  | 0, f, _ => f 0
  | s+1, f, e =>
    let even := transform op s fun j => f (2*j)
    let odd := transform op s fun j => f (2*j+1)
    if e<2^s then (op s e (even e) (odd e)).1 else (op s (e-2^s) (even (e-2^s)) (odd (e-2^s))).2

/-- The transform reads its `2^s` values only. -/
theorem transform_congr (h : ∀ j, j<2^s → f j=g j) : transform op s f e=transform op s g e := by
  induction s generalizing f g e with
  | zero => exact h 0 Nat.one_pos
  | succ s ih =>
    have hpow : 2^(s+1)=2*2^s := pow_succ' 2 s
    have heven : ∀ x, transform op s (fun j => f (2*j)) x=transform op s (fun j => g (2*j)) x :=
      fun x => ih fun j hj => h (2*j) (by omega)
    have hodd : ∀ x, transform op s (fun j => f (2*j+1)) x=
        transform op s (fun j => g (2*j+1)) x := fun x => ih fun j hj => h (2*j+1) (by omega)
    simp only [transform,heven,hodd]

/-- A stage of butterflies: in every block of `2^(s+1)` values the lower half is combined with the
upper half. -/
def stage (op : ℕ → V → V → V×V) (s : ℕ) (a : ℕ → V) (e : ℕ) : V :=
  if e%2^(s+1)<2^s then (op (e%2^s) (a e) (a (e+2^s))).1 else (op (e%2^s) (a (e-2^s)) (a e)).2

/-- The first stages, each with its own operation. They are done on values in bit reversed order. -/
def stages (op : ℕ → ℕ → V → V → V×V) : ℕ → (ℕ → V) → ℕ → V
  | 0, a => a
  | s+1, a => stage (op s) s (stages op s a)

/-- The place of a value in its block of twice the size: in the lower half, with its partner above
it, or in the upper half. -/
theorem block_cases (s e : ℕ) :
    (e%2^(s+1)<2^s ∧ e%2^(s+1)=e%2^s ∧ e/2^s=2*(e/2^(s+1)) ∧ (e+2^s)%2^s=e%2^s ∧
      (e+2^s)/2^s=2*(e/2^(s+1))+1) ∨
    (¬e%2^(s+1)<2^s ∧ e%2^(s+1)=e%2^s+2^s ∧ e/2^s=2*(e/2^(s+1))+1 ∧ 2^s≤e ∧
      (e-2^s)%2^s=e%2^s ∧ (e-2^s)/2^s=2*(e/2^(s+1))) := by
  have hpos := Nat.two_pow_pos s
  have hdiv : e/2^(s+1)=e/2^s/2 := by rw [pow_succ,Nat.div_div_eq_div_mul]
  have hmod : e%2^(s+1)=e%2^s+2^s*(e/2^s%2) := by rw [pow_succ,Nat.mod_mul]
  have hlt := Nat.mod_lt e hpos
  have hup : (e+2^s)/2^s=e/2^s+1 := Nat.add_div_right e hpos
  rw [hdiv,hmod,hup,Nat.add_mod_right]
  rcases Nat.mod_two_eq_zero_or_one (e/2^s) with heven|hodd
  · left
    rw [heven,Nat.mul_zero,Nat.add_zero]
    exact ⟨hlt,rfl,by omega,rfl,by omega⟩
  · right
    have hle : 2^s≤e := by
      by_contra hsmall
      rw [Nat.div_eq_of_lt (by omega)] at hodd
      omega
    have hdown : (e-2^s)/2^s=e/2^s-1 := by
      rw [Nat.div_eq_sub_div hpos hle,Nat.add_sub_cancel]
    rw [hodd,Nat.mul_one,hdown]
    refine ⟨by omega,rfl,by omega,hle,?_,by omega⟩
    exact (Nat.mod_eq_sub_mod hle).symm

/-- A value of a stage below `2^k` depends on such values only. -/
theorem stage_congr {op : ℕ → V → V → V×V} (hs : s<k) (h : ∀ e, e<2^k → f e=g e) (he : e<2^k) :
    stage op s f e=stage op s g e := by
  unfold stage
  have hup : e%2^(s+1)<2^s → e+2^s<2^k := by
    intro hlow
    obtain ⟨d,rfl⟩ := Nat.exists_eq_add_of_le hs
    have hblock := Nat.div_add_mod e (2^(s+1))
    have hpow : 2^(s+1)=2*2^s := pow_succ' 2 s
    have hquot : e/2^(s+1)<2^d := Nat.div_lt_of_lt_mul (by rw [←pow_add]; exact he)
    have hend : 2^(s+1)*(e/2^(s+1)+1)≤2^(s+1)*2^d := Nat.mul_le_mul_left _ hquot
    rw [Nat.mul_succ,←pow_add] at hend
    have hsum : s.succ+d=s+1+d := rfl
    rw [hsum]
    omega
  split
  · rw [h e he,h _ (hup ‹_›)]
  · rw [h e he,h _ ((Nat.sub_le _ _).trans_lt he)]

/-- After the first stages every block holds the transform of the values whose reversed numbers
are in it. -/
theorem stages_eq (hs : s≤k) (f : ℕ → V) (e : ℕ) : stages op s (fun e => f (reversal k e)) e=
    transform op s (fun j => f (reversal (k-s) (e/2^s)+j*2^(k-s))) (e%2^s) := by
  induction s generalizing e with
  | zero =>
    rw [pow_zero,Nat.div_one,transform,Nat.zero_mul,Nat.add_zero]
    rfl
  | succ s ih =>
    obtain ⟨d,hd⟩ : ∃ d, k-s=d+1 := ⟨k-s-1,by omega⟩
    have hd' : k-(s+1)=d := by omega
    -- the blocks with an even and an odd number below a block
    have heven : ∀ q x, x/2^s=2*q → stages op s (fun e => f (reversal k e)) x=
        transform op s (fun j => f (reversal d q+2*j*2^d)) (x%2^s) := by
      intro q x hx
      rw [ih (by omega),hx,hd]
      congr 1
      funext j
      rw [reversal,Nat.mul_mod_right,Nat.zero_mul,Nat.zero_add,
        Nat.mul_div_cancel_left _ Nat.two_pos]
      congr 2
      ring
    have hodd : ∀ q x, x/2^s=2*q+1 → stages op s (fun e => f (reversal k e)) x=
        transform op s (fun j => f (reversal d q+(2*j+1)*2^d)) (x%2^s) := by
      intro q x hx
      rw [ih (by omega),hx,hd]
      congr 1
      funext j
      rw [reversal,show (2*q+1)%2=1 by omega,show (2*q+1)/2=q by omega]
      congr 1
      ring
    have hmodlt := Nat.mod_lt e (Nat.two_pow_pos s)
    rw [hd',stages,stage,transform]
    rcases block_cases s e with ⟨hlow,hmod,hdiv,hmod',hdiv'⟩|⟨hhigh,hmod,hdiv,-,hmod',hdiv'⟩
    · rw [if_pos hlow,if_pos hlow,hmod,heven _ e hdiv,hodd _ _ hdiv',hmod']
    · rw [if_neg hhigh,if_neg hhigh,hmod,Nat.add_sub_cancel,heven _ _ hdiv',hodd _ e hdiv,hmod']

/-- All stages together transform the values in bit reversed order. -/
theorem stages_transform (f : ℕ → V) {e : ℕ} (he : e<2^k) :
    stages op k (fun e => f (reversal k e)) e=transform op k f e := by
  rw [stages_eq (Nat.le_refl k),Nat.sub_self,Nat.mod_eq_of_lt he]
  refine transform_congr fun j _ => ?_
  rw [reversal,Nat.zero_add,pow_zero,Nat.mul_one]

end Transform

section InPlace

variable {I V T : Type} [DecidableEq I] {low high : T → I} {op : T → V → V → V×V} {l : List T}
  {t : T} {a : I → V} {i : I}

/-- The two cells of a pair get new values, computed from their old ones. -/
def rework (low high : T → I) (op : T → V → V → V×V) (a : I → V) (t : T) : I → V :=
  Function.update (Function.update a (high t) (op t (a (low t)) (a (high t))).2) (low t)
    (op t (a (low t)) (a (high t))).1

/-- The cells of the other pairs keep their values. -/
theorem rework_other (hlow : i≠low t) (hhigh : i≠high t) : rework low high op a t i=a i := by
  unfold rework
  rw [Function.update_of_ne hlow,Function.update_of_ne hhigh]

/-- A cell that is in no pair keeps its value. -/
theorem foldl_rework_keep (h : ∀ t, t∈l → i≠low t ∧ i≠high t) :
    l.foldl (rework low high op) a i=a i := by
  induction l generalizing a with
  | nil => rfl
  | cons t l ih =>
    obtain ⟨hlow,hhigh⟩ := h t List.mem_cons_self
    rw [List.foldl_cons,ih fun u hu => h u (List.mem_cons_of_mem t hu),rework_other hlow hhigh]

variable (op) in
/-- When no cell is in two pairs, every pair gets the values computed from its first ones. So a
stage may be done in place. -/
theorem foldl_rework (hnodup : (l.flatMap fun t => [low t,high t]).Nodup) (ht : t∈l) :
    l.foldl (rework low high op) a (low t)=(op t (a (low t)) (a (high t))).1 ∧
    l.foldl (rework low high op) a (high t)=(op t (a (low t)) (a (high t))).2 := by
  induction l generalizing a with
  | nil => cases ht
  | cons u l ih =>
    obtain ⟨hpair,hrest,hdisjoint⟩ := List.nodup_append'.1
      (show ([low u,high u]++l.flatMap fun t => [low t,high t]).Nodup from hnodup)
    have hcells : ∀ x, x∈l → low x∈l.flatMap (fun t => [low t,high t]) ∧
        high x∈l.flatMap (fun t => [low t,high t]) := fun x hx =>
      ⟨List.mem_flatMap.2 ⟨x,hx,List.mem_cons_self⟩,
        List.mem_flatMap.2 ⟨x,hx,List.mem_cons_of_mem _ List.mem_cons_self⟩⟩
    have hother : ∀ x, x∈l.flatMap (fun t => [low t,high t]) → x≠low u ∧ x≠high u := by
      intro x hx
      refine ⟨?_,?_⟩ <;> rintro rfl
      · exact hdisjoint List.mem_cons_self hx
      · exact hdisjoint (List.mem_cons_of_mem _ List.mem_cons_self) hx
    rw [List.foldl_cons]
    rcases List.mem_cons.1 ht with rfl|hlater
    · have hkeep : ∀ x, x∈l → low t≠low x ∧ low t≠high x ∧ high t≠low x ∧ high t≠high x := by
        intro x hx
        have h1 := hother _ (hcells x hx).1
        have h2 := hother _ (hcells x hx).2
        exact ⟨h1.1.symm,h2.1.symm,h1.2.symm,h2.2.symm⟩
      have hne : high t≠low t := by
        have hlow : low t≠high t := fun he =>
          (List.nodup_cons.1 hpair).1 (List.mem_singleton.2 he)
        exact hlow.symm
      rw [foldl_rework_keep fun x hx => ⟨(hkeep x hx).1,(hkeep x hx).2.1⟩,
        foldl_rework_keep fun x hx => ⟨(hkeep x hx).2.2.1,(hkeep x hx).2.2.2⟩]
      unfold rework
      rw [Function.update_self,Function.update_of_ne hne,Function.update_self]
      exact ⟨rfl,rfl⟩
    · -- the first pair is about other cells
      obtain ⟨h1,h2⟩ := hother _ (hcells t hlater).1
      obtain ⟨h3,h4⟩ := hother _ (hcells t hlater).2
      have hstep := ih (a := rework low high op a u) hrest hlater
      rw [rework_other h1 h2,rework_other h3 h4] at hstep
      exact hstep

end InPlace

end RigelTarget.RadixTwo
