import Mathlib.Data.List.Nodup
import Mathlib.Logic.Function.Basic
import Mathlib.Tactic.Common

/-!
# Exchanges of cells

An array whose cells are exchanged in pairs, one pair after the other. When no cell is in two
pairs, every exchanged cell ends with the value of its partner and the order does not matter; the
pairs of an involution therefore permute the array by the involution.
-/

namespace RigelTarget.Exchanges

variable {I V : Type} {a : I → V} {i j x y : I} {ps : List (I×I)}

/-- The cells of some pairs. -/
def cells (ps : List (I×I)) : List I := ps.flatMap fun p => [p.1,p.2]

/-- A cell is in some pair if it is its first or its second cell. -/
theorem mem_cells : x∈cells ps ↔ ∃ p, p∈ps ∧ (x=p.1 ∨ x=p.2) := by
  unfold cells
  rw [List.mem_flatMap]
  refine exists_congr fun p => and_congr_right fun _ => ?_
  rw [List.mem_cons,List.mem_singleton]

section Order

variable [DecidableEq I]

/-- `tmp = a[i]; a[i] = a[j]; a[j] = tmp`. -/
def exchange (a : I → V) (i j : I) : I → V :=
  Function.update (Function.update a i (a j)) j (a i)

/-- Exchanges of pairs of cells, the first one first. When the pairs are apart their order does not
matter. -/
def exchanges (a : I → V) : List (I×I) → I → V
  | [] => a
  | p::ps => exchanges (exchange a p.1 p.2) ps

/-- Two sequences of exchanges. -/
theorem exchanges_append (a : I → V) (ps qs : List (I×I)) :
    exchanges a (ps++qs)=exchanges (exchanges a ps) qs := by
  induction ps generalizing a with
  | nil => rfl
  | cons p ps ih => exact ih _

/-- The second cell of an exchange. -/
theorem exchange_right (a : I → V) (i j : I) : exchange a i j j=a i := Function.update_self _ _ _

/-- The first cell of an exchange. -/
theorem exchange_left (a : I → V) (i j : I) : exchange a i j i=a j := by
  unfold exchange
  by_cases hij : i=j
  · rw [hij,Function.update_self]
  · rw [Function.update_of_ne hij,Function.update_self]

/-- The two cells play the same part. -/
theorem exchange_comm (a : I → V) (i j : I) : exchange a i j=exchange a j i := by
  by_cases hij : i=j
  · rw [hij]
  · unfold exchange
    exact Function.update_comm hij _ _ _

/-- The other cells keep their values. -/
theorem exchange_other (hi : x≠i) (hj : x≠j) : exchange a i j x=a x := by
  unfold exchange
  rw [Function.update_of_ne hj,Function.update_of_ne hi]

/-- A cell that is in no pair keeps its value. -/
theorem exchanges_keep (hx : x∉cells ps) : exchanges a ps x=a x := by
  induction ps generalizing a with
  | nil => rfl
  | cons p ps ih =>
    have hrest : x∉cells ps := fun h => hx (List.mem_append_right _ h)
    have hfirst : x≠p.1 ∧ x≠p.2 :=
      ⟨fun h => hx (mem_cells.2 ⟨p,List.mem_cons_self,.inl h⟩),
        fun h => hx (mem_cells.2 ⟨p,List.mem_cons_self,.inr h⟩)⟩
    rw [exchanges,ih hrest,exchange_other hfirst.1 hfirst.2]

/-- The cells of a pair that shares none with the other pairs end with each other's values, wherever
the pair is in the list. -/
theorem exchanges_partner (hnodup : (cells ps).Nodup) (hp : (x,y)∈ps) :
    exchanges a ps x=a y ∧ exchanges a ps y=a x := by
  induction ps generalizing a with
  | nil => cases hp
  | cons p ps ih =>
    obtain ⟨-,hrest,hdisjoint⟩ :=
      List.nodup_append'.1 (show ([p.1,p.2]++cells ps).Nodup from hnodup)
    rcases List.mem_cons.1 hp with rfl|hlater
    · have hx : x∉cells ps := fun h => hdisjoint List.mem_cons_self h
      have hy : y∉cells ps := fun h => hdisjoint (List.mem_cons_of_mem _ List.mem_cons_self) h
      rw [exchanges,exchanges_keep hx,exchanges_keep hy]
      exact ⟨exchange_left a x y,exchange_right a x y⟩
    · -- the first exchange is about other cells
      have hkeep : ∀ z, z∈cells ps → exchange a p.1 p.2 z=a z := by
        intro z hz
        refine exchange_other ?_ ?_
        · rintro rfl
          exact hdisjoint List.mem_cons_self hz
        · rintro rfl
          exact hdisjoint (List.mem_cons_of_mem _ List.mem_cons_self) hz
      rw [←hkeep x (mem_cells.2 ⟨_,hlater,.inl rfl⟩),←hkeep y (mem_cells.2 ⟨_,hlater,.inr rfl⟩)]
      exact ih hrest hlater

end Order

section Involution

variable {n : ℕ} {f : ℕ → ℕ} {b : ℕ → V}

/-- The pairs of `f` among the first `n` cells, each with its smaller cell first. -/
def pairsOf (f : ℕ → ℕ) (n : ℕ) : List (ℕ×ℕ) :=
  ((List.range n).filter fun e => decide (e < f e)).map fun e => (e,f e)

/-- The pairs of `f`. -/
theorem mem_pairsOf {p : ℕ×ℕ} : p∈pairsOf f n ↔ (p.1 < n ∧ p.1 < f p.1) ∧ p.2=f p.1 := by
  unfold pairsOf
  rw [List.mem_map]
  constructor
  · rintro ⟨e,he,rfl⟩
    obtain ⟨hlt,hpair⟩ := List.mem_filter.1 he
    exact ⟨⟨List.mem_range.1 hlt,of_decide_eq_true hpair⟩,rfl⟩
  · rintro ⟨⟨hlt,hpair⟩,hf⟩
    refine ⟨p.1,List.mem_filter.2 ⟨List.mem_range.2 hlt,decide_eq_true hpair⟩,?_⟩
    rw [←hf]

/-- The pairs up to the next cell. -/
theorem pairsOf_succ (f : ℕ → ℕ) (t : ℕ) :
    pairsOf f (t+1)=pairsOf f t++if t < f t then [(t,f t)] else [] := by
  unfold pairsOf
  rw [List.range_succ,List.filter_append,List.map_append]
  congr 1
  by_cases h : t < f t
  · rw [if_pos h,List.filter_cons,if_pos (decide_eq_true h)]
    rfl
  · rw [if_neg h,List.filter_cons,if_neg (by rw [decide_eq_true_eq]; exact h)]
    rfl

/-- The cells that come after their partners add no pairs. -/
theorem pairsOf_stop {t : ℕ} (ht : t≤n) (h : ∀ e, t≤e → e < n → ¬e < f e) :
    pairsOf f n=pairsOf f t := by
  obtain ⟨d,rfl⟩ := Nat.exists_eq_add_of_le ht
  induction d with
  | zero => rfl
  | succ d ih =>
    rw [←Nat.add_assoc,pairsOf_succ,if_neg (h (t+d) (by omega) (by omega)),List.append_nil]
    exact ih (by omega) fun e he hlt => h e he (by omega)

/-- Every pair of `f` is met once. -/
theorem pairsOf_nodup (f : ℕ → ℕ) (n : ℕ) : (pairsOf f n).Nodup :=
  (List.nodup_range.filter _).map fun _ _ h => congrArg Prod.fst h

/-- No cell is in two pairs of an involution. -/
theorem cells_pairsOf_nodup (hf : ∀ e, e < n → f (f e)=e) : (cells (pairsOf f n)).Nodup := by
  refine List.nodup_flatMap.2 ⟨?_,(pairsOf_nodup f n).imp_of_mem ?_⟩
  · intro p hp
    obtain ⟨⟨-,hlt⟩,hf⟩ := mem_pairsOf.1 hp
    rw [List.nodup_cons,List.mem_singleton]
    exact ⟨by omega,List.nodup_singleton _⟩
  · intro p q hp hq hne e hep heq
    obtain ⟨⟨hp1,hplt⟩,hpf⟩ := mem_pairsOf.1 hp
    obtain ⟨⟨hq1,hqlt⟩,hqf⟩ := mem_pairsOf.1 hq
    rw [List.mem_cons,List.mem_singleton] at hep heq
    have hback := hf p.1 hp1
    have hback' := hf q.1 hq1
    -- the smaller cells of the two pairs agree
    have hfirst : p.1=q.1 := by
      rcases hep with rfl|rfl <;> rcases heq with he|he
      · exact he
      · rw [he,hqf] at hplt
        rw [hback'] at hplt
        omega
      · rw [hpf] at he
        rw [←he,hback] at hqlt
        omega
      · rw [hpf,hqf] at he
        rw [←hback,he,hback']
    exact hne (Prod.ext hfirst (by rw [hpf,hqf,hfirst]))

/-- The exchanges of an involution permute the cells by the involution. -/
theorem exchanges_involution (hlt : ∀ e, e < n → f e < n) (hf : ∀ e, e < n → f (f e)=e) {e : ℕ}
    (he : e < n) : exchanges b (pairsOf f n) e=b (f e) := by
  have hnodup := cells_pairsOf_nodup hf
  rcases Nat.lt_trichotomy e (f e) with hup|hfix|hdown
  · exact (exchanges_partner hnodup (mem_pairsOf.2 ⟨⟨he,hup⟩,rfl⟩)).1
  · rw [←hfix]
    refine exchanges_keep fun hmem => ?_
    obtain ⟨p,hp,hep⟩ := mem_cells.1 hmem
    obtain ⟨⟨hp1,hplt⟩,hpf⟩ := mem_pairsOf.1 hp
    have hback := hf p.1 hp1
    rcases hep with rfl|rfl
    · omega
    · rw [hpf,hback] at hfix
      omega
  · refine (exchanges_partner hnodup (mem_pairsOf.2 ⟨⟨hlt e he,?_⟩,?_⟩)).2
    · rw [hf e he]
      exact hdown
    · exact (hf e he).symm

end Involution

end RigelTarget.Exchanges
