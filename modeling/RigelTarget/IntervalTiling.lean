import Mathlib.Data.List.Basic
import Mathlib.Order.Nat
import Mathlib.Tactic.Common

/-!
# Consecutive nonempty intervals

A list of half-open intervals tiles a range when each interval is nonempty and
starts where the one before it ended. Tilings of adjacent ranges concatenate,
are disjoint in order and contain exactly the points of their range.
-/

namespace RigelTarget.IntervalTiling

/-- Nonempty intervals that follow each other from `a` to `b`. -/
def Tiles (b : ℕ) : ℕ → List (ℕ×ℕ) → Prop
  | a, [] => a=b
  | a, k::ks => k.1=a ∧ a<k.2 ∧ Tiles b k.2 ks

/-- A tiled range is not reversed. -/
theorem Tiles.le {b : ℕ} : ∀ {a : ℕ} {ks : List (ℕ×ℕ)}, Tiles b a ks → a≤b
  | _, [], h => Nat.le_of_eq h
  | _, _::_, ⟨_,hlt,hrest⟩ => hlt.le.trans hrest.le

/-- Tilings of adjacent ranges concatenate. -/
theorem Tiles.append {a b c : ℕ} {ks ls : List (ℕ×ℕ)} (hk : Tiles b a ks) (hl : Tiles c b ls) :
    Tiles c a (ks++ls) := by
  induction ks generalizing a with
  | nil =>
    cases hk
    exact hl
  | cons k ks ih => exact ⟨hk.1,hk.2.1,ih hk.2.2⟩

/-- So many intervals of a bounded length reach no further. -/
theorem Tiles.le_length {a b d : ℕ} {ks : List (ℕ×ℕ)} (h : Tiles b a ks)
    (hd : ∀ k∈ks, k.2-k.1≤d) : b≤a+ks.length*d := by
  induction ks generalizing a with
  | nil =>
    cases h
    exact Nat.le_add_right _ _
  | cons k ks ih =>
    obtain ⟨h1,h2,h3⟩ := h
    have hfirst := hd k List.mem_cons_self
    have hrest := ih h3 fun l hl => hd l (List.mem_cons_of_mem k hl)
    rw [List.length_cons,Nat.add_mul,Nat.one_mul]
    omega

/-- The intervals hold exactly the points of the range. -/
theorem Tiles.mem_iff {a b : ℕ} {ks : List (ℕ×ℕ)} (h : Tiles b a ks) (i : ℕ) :
    (∃ k∈ks, k.1 ≤ i ∧ i<k.2) ↔ a ≤ i ∧ i<b := by
  induction ks generalizing a with
  | nil =>
    cases h
    simp only [List.not_mem_nil,false_and,exists_false,false_iff]
    omega
  | cons k ks ih =>
    obtain ⟨h1,h2,h3⟩ := h
    have hle := h3.le
    simp only [List.mem_cons,exists_eq_or_imp,ih h3]
    omega

/-- Every interval starts in the range. -/
theorem Tiles.first_le {a b : ℕ} {ks : List (ℕ×ℕ)} (h : Tiles b a ks) {k : ℕ×ℕ} (hk : k∈ks) :
    a≤k.1 := by
  induction ks generalizing a with
  | nil => cases hk
  | cons l ks ih =>
    obtain ⟨h1,h2,h3⟩ := h
    rcases List.mem_cons.mp hk with rfl|hk
    · exact h1.ge
    · exact h2.le.trans (ih h3 hk)

/-- Every interval is nonempty. -/
theorem Tiles.nonempty {a b : ℕ} {ks : List (ℕ×ℕ)} (h : Tiles b a ks) {k : ℕ×ℕ} (hk : k∈ks) :
    k.1<k.2 := by
  induction ks generalizing a with
  | nil => cases hk
  | cons l ks ih =>
    obtain ⟨h1,h2,h3⟩ := h
    rcases List.mem_cons.mp hk with rfl|hk
    · omega
    · exact ih h3 hk

/-- Each interval ends before every later one starts. -/
theorem Tiles.pairwise {a b : ℕ} {ks : List (ℕ×ℕ)} (h : Tiles b a ks) :
    ks.Pairwise fun k l => k.2≤l.1 := by
  induction ks generalizing a with
  | nil => exact .nil
  | cons k ks ih =>
    refine .cons ?_ (ih h.2.2)
    intro l hl
    exact h.2.2.first_le hl

/-- Tilings of consecutive ranges, taken in order, tile their union. -/
theorem Tiles.flatMap_range {n : ℕ} {bound : ℕ → ℕ} {pieces : ℕ → List (ℕ×ℕ)}
    (h : ∀ c<n, Tiles (bound (c+1)) (bound c) (pieces c)) :
    Tiles (bound n) (bound 0) ((List.range n).flatMap pieces) := by
  induction n with
  | zero => rfl
  | succ n ih =>
    rw [List.range_succ,List.flatMap_append,List.flatMap_singleton]
    exact (ih fun c hc => h c (by omega)).append (h n (by omega))

end RigelTarget.IntervalTiling
