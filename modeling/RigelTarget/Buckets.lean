import Mathlib.Data.List.Basic
import Mathlib.Logic.Function.Basic
import Mathlib.Tactic.Common

/-!
# Buckets in one array

Items with a key are laid out bucket by bucket: the bucket of a key starts behind all items with
smaller keys. Items that are placed one after the other, each behind those of its bucket, fill the
buckets in their order.
-/

namespace RigelTarget.Buckets

variable {A B : Type} {key : A → ℕ} {l done rest : List A} {e : A} {r r' : ℕ}

/-- The items with a key, in their order. -/
def bucket (key : A → ℕ) (l : List A) (r : ℕ) : List A := l.filter fun e => decide (key e=r)

/-- Where the bucket of a key starts: behind all items with smaller keys. -/
def start (key : A → ℕ) (l : List A) (r : ℕ) : ℕ :=
  (l.filter fun e => decide (key e < r)).length

/-- The first bucket starts at the beginning. -/
theorem start_zero (key : A → ℕ) (l : List A) : start key l 0=0 := by
  unfold start
  rw [List.length_eq_zero_iff,List.filter_eq_nil_iff]
  intro e _ h
  exact absurd (of_decide_eq_true h) (Nat.not_lt_zero _)

/-- A bucket ends where the next one starts. The counts of the keys are summed up to there. -/
theorem start_succ (key : A → ℕ) (l : List A) (r : ℕ) :
    start key l (r+1)=start key l r+(bucket key l r).length := by
  unfold start bucket
  induction l with
  | nil => rfl
  | cons e l ih =>
    rw [List.filter_cons,List.filter_cons,List.filter_cons]
    rcases Nat.lt_trichotomy (key e) r with hlt|heq|hgt
    · rw [if_pos (decide_eq_true (by omega)),if_pos (decide_eq_true hlt),
        if_neg (fun h => absurd (of_decide_eq_true h) (by omega)),List.length_cons,
        List.length_cons,ih]
      omega
    · rw [if_pos (decide_eq_true (by omega)),
        if_neg (fun h => absurd (of_decide_eq_true h) (by omega)),if_pos (decide_eq_true heq),
        List.length_cons,List.length_cons,ih]
      omega
    · rw [if_neg (fun h => absurd (of_decide_eq_true h) (by omega)),
        if_neg (fun h => absurd (of_decide_eq_true h) (by omega)),
        if_neg (fun h => absurd (of_decide_eq_true h) (by omega))]
      exact ih

/-- A bucket ends before the ones of greater keys. -/
theorem bucket_end_le (key : A → ℕ) (l : List A) (h : r < r') :
    start key l r+(bucket key l r).length ≤ start key l r' := by
  rw [←start_succ]
  unfold start
  refine (List.monotone_filter_right l fun e he => ?_).length_le
  exact decide_eq_true (by have := of_decide_eq_true he; omega)

/-- Behind the greatest key there are all items. -/
theorem start_all (h : ∀ e, e∈l → key e < r) : start key l r=l.length := by
  unfold start
  rw [List.filter_eq_self.2 fun e he => decide_eq_true (h e he)]

/-- Another item comes last in its bucket. -/
theorem bucket_concat (key : A → ℕ) (l : List A) (e : A) (r : ℕ) :
    bucket key (l++[e]) r=bucket key l r++if key e=r then [e] else [] := by
  unfold bucket
  rw [List.filter_append,List.filter_cons]
  by_cases h : key e=r
  · rw [if_pos (decide_eq_true h),if_pos h]
    rfl
  · rw [if_neg (fun hd => h (of_decide_eq_true hd)),if_neg h]
    rfl

/-- A bucket of the first items is a beginning of the bucket. -/
theorem bucket_length_le (key : A → ℕ) (done rest : List A) (r : ℕ) :
    (bucket key done r).length≤(bucket key (done++rest) r).length := by
  unfold bucket
  rw [List.filter_append,List.length_append]
  exact Nat.le_add_right _ _

/-- The buckets of all items are filled with those of the first items, of which the cells hold some
part. -/
def Filled (key : A → ℕ) (part : A → B) (l done : List A) (cell : ℕ → B) : Prop :=
  ∀ r d : ℕ, ∀ e, (bucket key done r)[d]? = some e → cell (start key l r+d)=part e

/-- The next item goes behind those of its bucket. The buckets of other keys are not touched, since
the place is inside the bucket of the key. -/
theorem Filled.place {part : A → B} {cell : ℕ → B} (h : Filled key part l done cell)
    (hl : l=done++e::rest) :
    Filled key part l (done++[e])
      (Function.update cell (start key l (key e)+(bucket key done (key e)).length) (part e)) := by
  have hroom : (bucket key done (key e)).length<(bucket key l (key e)).length := by
    have hle := bucket_length_le key (done++[e]) rest (key e)
    rw [List.append_assoc,List.singleton_append,←hl,bucket_concat,if_pos rfl,
      List.length_append,List.length_singleton] at hle
    exact hle
  intro r d x hx
  rw [bucket_concat] at hx
  by_cases hr : key e=r
  · rw [←hr] at hx ⊢
    rw [if_pos rfl] at hx
    rcases Nat.lt_trichotomy d (bucket key done (key e)).length with hlt|heq|hgt
    · rw [List.getElem?_append_left hlt] at hx
      rw [Function.update_of_ne (by omega)]
      exact h _ _ _ hx
    · rw [heq,List.getElem?_concat_length] at hx
      rw [heq,Function.update_self,Option.some.inj hx]
    · rw [List.getElem?_eq_none (by rw [List.length_append,List.length_singleton]; omega)] at hx
      cases hx
  · -- another bucket ends before the place or starts behind it
    rw [if_neg hr,List.append_nil] at hx
    have hd : d<(bucket key done r).length := (List.getElem?_eq_some_iff.1 hx).1
    have hpart : (bucket key done r).length≤(bucket key l r).length := by
      rw [hl]
      exact bucket_length_le key done (e::rest) r
    have hplace : start key l r+d≠start key l (key e)+(bucket key done (key e)).length := by
      rcases Nat.lt_or_gt_of_ne hr with hlt|hgt
      · have hend := bucket_end_le key l hlt
        omega
      · have hend := bucket_end_le key l hgt
        omega
    rw [Function.update_of_ne hplace]
    exact h _ _ _ hx

/-- When all items are placed, the cells of a bucket are its items. -/
theorem Filled.segment {part : A → B} {cell : ℕ → B} (h : Filled key part l l cell) (r : ℕ) :
    ((List.range (start key l (r+1)-start key l r)).map fun d => cell (start key l r+d))=
      (bucket key l r).map part := by
  rw [start_succ,Nat.add_sub_cancel_left]
  refine List.ext_getElem (by rw [List.length_map,List.length_map,List.length_range]) ?_
  intro d hd hd'
  rw [List.length_map] at hd'
  rw [List.getElem_map,List.getElem_map,List.getElem_range]
  exact h r d _ (List.getElem?_eq_getElem hd')

end RigelTarget.Buckets
