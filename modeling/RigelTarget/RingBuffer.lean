import Mathlib.Data.List.Basic
import Mathlib.Logic.Function.Basic
import Mathlib.Tactic.Common

/-!
# Ring buffers with one free cell

A ring of `N` cells has a head, where the next entry is written, and a tail, where the oldest
entry is read. It is empty when both are equal and full when the head is one cell behind the
tail, so one cell stays free. The contents are read from the tail to the head; writing at the
head appends an entry and advancing the tail drops the oldest one.
-/

namespace RigelTarget.RingBuffer

variable {α : Type} {N head tail : ℕ}

/-- The number of entries from `tail` to `head`. -/
def size (N head tail : ℕ) : ℕ := if tail≤head then head-tail else head+N-tail

/-- `k` consecutive cells from `tail` on. -/
def segment (cells : ℕ → α) (N tail : ℕ) : ℕ → List α
  | 0 => []
  | k+1 => cells tail::segment cells N ((tail+1)%N) k

/-- The entries from `tail` to `head`. -/
def contents (cells : ℕ → α) (N head tail : ℕ) : List α :=
  segment cells N tail (size N head tail)

/-- The next cell. -/
theorem succ_mod (h : tail<N) : (tail+1)%N=if tail+1=N then 0 else tail+1 := by
  by_cases hlast : tail+1=N
  · rw [if_pos hlast,hlast,Nat.mod_self]
  · rw [if_neg hlast,Nat.mod_eq_of_lt (by omega)]

/-- A segment has as many entries as it has cells. -/
theorem segment_length (cells : ℕ → α) (N tail k : ℕ) : (segment cells N tail k).length=k := by
  induction k generalizing tail with
  | zero => rfl
  | succ k ih => rw [segment,List.length_cons,ih]

/-- One cell stays free. -/
theorem contents_length_lt (cells : ℕ → α) (hhead : head<N) (htail : tail<N) :
    (contents cells N head tail).length<N := by
  rw [contents,segment_length,size]
  split <;> omega

/-- A ring with equal head and tail is empty. -/
theorem contents_empty (cells : ℕ → α) : contents cells N tail tail=[] := by
  unfold contents size
  rw [if_pos (Nat.le_refl tail),Nat.sub_self]
  rfl

/-- The oldest entry of a ring that is not empty is at the tail. -/
theorem contents_pop (cells : ℕ → α) (hhead : head<N) (htail : tail<N) (hne : tail≠head) :
    contents cells N head tail=cells tail::contents cells N head ((tail+1)%N) := by
  have hsize : size N head tail=size N head ((tail+1)%N)+1 := by
    rw [succ_mod htail]
    unfold size
    split <;> split <;> split <;> omega
  unfold contents
  rw [hsize]
  rfl

/-- A cell outside the segment does not matter. -/
theorem segment_congr {cells cells' : ℕ → α} {k : ℕ} (htail : tail<N) (hk : k<N)
    (h : ∀ i, i<N → i≠(if tail+k<N then tail+k else tail+k-N) → cells' i=cells i) :
    segment cells' N tail k=segment cells N tail k := by
  induction k generalizing tail with
  | zero => rfl
  | succ k ih =>
    have hfirst : cells' tail=cells tail := h tail htail (by split <;> omega)
    have hlt : (tail+1)%N<N := Nat.mod_lt _ (by omega)
    have hnext := succ_mod htail
    have hrest := ih hlt (by omega) fun i hi hne => h i hi (by
      rw [hnext] at hne
      split at hne <;> split at hne <;> split <;> omega)
    rw [segment,segment,hfirst,hrest]

/-- The last cell of a segment. -/
theorem segment_last (cells : ℕ → α) {k : ℕ} (htail : tail<N) (hk : k<N) :
    segment cells N tail (k+1)=segment cells N tail k++
      [cells (if tail+k<N then tail+k else tail+k-N)] := by
  induction k generalizing tail with
  | zero =>
    have hcell : (if tail+0<N then tail+0 else tail+0-N)=tail := if_pos htail
    rw [hcell]
    rfl
  | succ k ih =>
    have hlt : (tail+1)%N<N := Nat.mod_lt _ (by omega)
    have hcell : (if (tail+1)%N+k<N then (tail+1)%N+k else (tail+1)%N+k-N)=
        if tail+(k+1)<N then tail+(k+1) else tail+(k+1)-N := by
      rw [succ_mod htail]
      split <;> split <;> split <;> omega
    have hrest := ih hlt (by omega)
    rw [hcell] at hrest
    rw [segment,hrest]
    rfl

/-- Writing at the head of a ring that is not full appends an entry. The entries from the tail on
stay in order. -/
theorem contents_push (cells : ℕ → α) (x : α) (hhead : head<N) (htail : tail<N)
    (hroom : (head+1)%N≠tail) :
    contents (Function.update cells head x) N ((head+1)%N) tail=
      contents cells N head tail++[x] := by
  have hnext := succ_mod hhead
  rw [hnext] at hroom
  have hsize : size N ((head+1)%N) tail=size N head tail+1 := by
    rw [hnext]
    unfold size
    split at hroom <;> split <;> split <;> split <;> omega
  have hend : (if tail+size N head tail<N then tail+size N head tail
      else tail+size N head tail-N)=head := by
    unfold size
    split <;> split <;> omega
  have hlt : size N head tail<N := by
    unfold size
    split at hroom <;> split <;> omega
  have hsame : segment (Function.update cells head x) N tail (size N head tail)=
      segment cells N tail (size N head tail) := by
    refine segment_congr htail hlt fun i _ hne => ?_
    rw [hend] at hne
    exact Function.update_of_ne hne x cells
  unfold contents
  rw [hsize,segment_last _ htail hlt,hend,Function.update_self,hsame]

end RigelTarget.RingBuffer
