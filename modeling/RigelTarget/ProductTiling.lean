import Mathlib.Data.List.Nodup
import Mathlib.Data.List.Perm.Basic
import Mathlib.Data.List.ProdSigma

/-!
# Tilings of a rectangle

A rectangle is the product of two lists. If each side is cut into pieces, the products of a piece
of one side and a piece of the other tile the rectangle, in whatever order the tiles and the
elements of a tile are listed.
-/

namespace RigelTarget.ProductTiling

variable {A B C D : Type}

/-- A rectangle is cut along its first side. -/
theorem flatMap_product (l : List A) (f : A → List C) (s : List D) :
    l.flatMap f ×ˢ s=l.flatMap fun a => f a ×ˢ s :=
  List.flatMap_assoc

/-- A rectangle is cut along its second side. -/
theorem product_flatMap_perm (s : List C) (l : List B) (g : B → List D) :
    (l.flatMap fun b => s ×ˢ g b).Perm (s ×ˢ l.flatMap g) := by
  induction l with
  | nil => rw [List.flatMap_nil,List.flatMap_nil,List.product_nil]
  | cons b l ih =>
    rw [List.flatMap_cons,List.flatMap_cons]
    refine (ih.append_left (s ×ˢ g b)).trans ?_
    refine (List.flatMap_append_perm s _ _).trans ?_
    refine List.Perm.of_eq (List.flatMap_congr fun c _ => ?_)
    exact List.map_append.symm

/-- The tiles of two cut sides. -/
theorem tiles_perm (l : List A) (f : A → List C) (l' : List B) (g : B → List D) :
    (l.flatMap fun a => l'.flatMap fun b => f a ×ˢ g b).Perm (l.flatMap f ×ˢ l'.flatMap g) := by
  rw [flatMap_product]
  exact List.Perm.flatMap_left l fun a _ => product_flatMap_perm (f a) l' g

/-- A rectangle is listed along its second side. -/
theorem product_columns_perm (s : List C) (t : List D) :
    (t.flatMap fun d => s.map fun c => (c,d)).Perm (s ×ˢ t) := by
  induction t with
  | nil => rw [List.flatMap_nil,List.product_nil]
  | cons d t ih =>
    rw [List.flatMap_cons]
    exact (ih.append_left _).trans (List.map_append_flatMap_perm s _ _)

/-- An element of lists without duplicates is in one of them. -/
theorem countP_of_nodup_flatten [BEq A] [LawfulBEq A] {ls : List (List A)} {a : A}
    (h : ls.flatten.Nodup) (ha : a∈ls.flatten) : ls.countP (a∈·)=1 := by
  induction ls with
  | nil => cases ha
  | cons l ls ih =>
    rw [List.flatten_cons] at h ha
    obtain ⟨-,hls,hdisjoint⟩ := List.nodup_append'.1 h
    by_cases hl : a∈l
    · -- no other list has it
      have hrest : ls.countP (a∈·)=0 := by
        refine List.countP_eq_zero.2 fun l' hl' hmem => ?_
        exact hdisjoint hl (List.mem_flatten_of_mem hl' (of_decide_eq_true hmem))
      rw [List.countP_cons,hrest,if_pos (decide_eq_true hl)]
    · rw [List.countP_cons,if_neg fun hmem => hl (of_decide_eq_true hmem)]
      exact ih hls ((List.mem_append.1 ha).resolve_left hl)

end RigelTarget.ProductTiling
