import Mathlib.Data.List.Nodup
import Mathlib.Data.List.Perm.Basic
import Mathlib.Logic.Function.Basic
import Mathlib.Tactic.Common

/-!
# Stores in any order

Stores are made one after the other. A cell that is stored to always with the same value has
that value at the end, whatever the order and the number of stores; a cell that is not stored
to keeps its value. A sweep that computes its values from another array is of that kind, so
its result depends on the set of its cells only.
-/

namespace RigelTarget.DoubleBuffer

variable {I V : Type} [DecidableEq I]

/-- Stores of values into cells, the first one first; a later store to the same cell wins. -/
def stores (a : I → V) : List (I×V) → I → V
  | [] => a
  | w::ws => stores (Function.update a w.1 w.2) ws

/-- Two sequences of stores. -/
theorem stores_append (a : I → V) (ws ws' : List (I×V)) :
    stores a (ws++ws')=stores (stores a ws) ws' := by
  induction ws generalizing a with
  | nil => rfl
  | cons w ws ih => exact ih _

/-- A loop whose turns are stores. -/
theorem foldl_stores {T : Type} {f : (I → V) → T → I → V} {ws : T → List (I×V)}
    (h : ∀ a t, f a t=stores a (ws t)) (l : List T) (a : I → V) :
    l.foldl f a=stores a (l.flatMap ws) := by
  induction l generalizing a with
  | nil => rfl
  | cons t l ih => rw [List.foldl_cons,h,ih,List.flatMap_cons,stores_append]

/-- A loop whose turns are stores, where a turn may fail. -/
theorem foldlM_stores {T : Type} {f : (I → V) → T → Option (I → V)} {ws : T → List (I×V)}
    {l : List T} (h : ∀ t, t∈l → ∀ a, f a t=some (stores a (ws t))) (a : I → V) :
    l.foldlM f a=some (stores a (l.flatMap ws)) := by
  induction l generalizing a with
  | nil => rfl
  | cons t l ih =>
    rw [List.foldlM_cons,h t List.mem_cons_self,List.flatMap_cons,stores_append]
    exact ih (fun u hu => h u (List.mem_cons_of_mem t hu)) _

/-- A cell without a store keeps its value. -/
theorem stores_keep {a : I → V} {ws : List (I×V)} {i : I} (h : ∀ w, w∈ws → w.1≠i) :
    stores a ws i=a i := by
  induction ws generalizing a with
  | nil => rfl
  | cons w ws ih =>
    rw [stores,ih fun u hu => h u (List.mem_cons_of_mem w hu)]
    exact Function.update_of_ne (h w List.mem_cons_self).symm _ _

/-- A cell whose stores agree has their value, in whatever order they were made. -/
theorem stores_value {a : I → V} {ws : List (I×V)} {i : I} {v : V}
    (hsome : ∃ w, w∈ws ∧ w.1=i) (h : ∀ w, w∈ws → w.1=i → w.2=v) : stores a ws i=v := by
  induction ws generalizing a with
  | nil =>
    obtain ⟨w,hw,-⟩ := hsome
    cases hw
  | cons w ws ih =>
    have hrest : ∀ u, u∈ws → u.1=i → u.2=v := fun u hu => h u (List.mem_cons_of_mem w hu)
    by_cases hlater : ∃ u, u∈ws ∧ u.1=i
    · exact ih hlater hrest
    · -- this is the last store to the cell
      obtain ⟨u,hu,hui⟩ := hsome
      have huw : u=w := by
        rcases List.mem_cons.1 hu with he|hmem
        · exact he
        · exact absurd ⟨u,hmem,hui⟩ hlater
      subst huw
      rw [stores,stores_keep fun x hx hxi => hlater ⟨x,hx,hxi⟩,hui,Function.update_self]
      exact h u List.mem_cons_self hui

/-- Among stores to different cells each one stays. -/
theorem stores_unique {a : I → V} {ws : List (I×V)} (h : (ws.map Prod.fst).Nodup) {w : I×V}
    (hw : w∈ws) : stores a ws w.1=w.2 :=
  stores_value ⟨w,hw,rfl⟩ fun u hu he => by rw [List.inj_on_of_nodup_map h hu hw he]

section Keys

variable {K : Type} {a : I → V} {cell : K → I} {value : K → V} {l : List K} {k : K} {i : I}

/-- A loop that stores a value for each key leaves it in the cell of the key, when the keys with
that cell have the same value. -/
theorem stores_map (hk : k∈l) (h : ∀ k', k'∈l → cell k'=cell k → value k'=value k) :
    stores a (l.map fun k => (cell k,value k)) (cell k)=value k := by
  refine stores_value ⟨_,List.mem_map_of_mem hk,rfl⟩ fun w hw hwk => ?_
  obtain ⟨k',hk',rfl⟩ := List.mem_map.1 hw
  exact h k' hk' hwk

/-- It keeps a cell of no key. -/
theorem stores_map_keep (h : ∀ k, k∈l → cell k≠i) :
    stores a (l.map fun k => (cell k,value k)) i=a i := by
  refine stores_keep fun w hw => ?_
  obtain ⟨k,hk,rfl⟩ := List.mem_map.1 hw
  exact h k hk

end Keys

/-- Lists that can be told apart by their members have no member in common, so that a sweep
through all of them visits every member once. -/
theorem nodup_flatMap_of_index {α β : Type} {l : List α} {f : α → List β} (g : β → α)
    (hl : l.Nodup) (hf : ∀ x, x∈l → (f x).Nodup) (hg : ∀ x, x∈l → ∀ y, y∈f x → g y=x) :
    (l.flatMap f).Nodup := by
  rw [List.nodup_flatMap]
  refine ⟨hf,hl.imp_of_mem ?_⟩
  intro x x' hx hx' hne y hy hy'
  exact hne ((hg x hx y hy).symm.trans (hg x' hx' y hy'))

/-- A sweep whose parts all succeed succeeds. -/
theorem mapM_eq_some {α β : Type} {f : α → Option β} {g : α → β} {l : List α}
    (h : ∀ x, x∈l → f x=some (g x)) : l.mapM f=some (l.map g) := by
  induction l with
  | nil => rfl
  | cons x l ih =>
    rw [List.mapM_cons,h x List.mem_cons_self,ih fun y hy => h y (List.mem_cons_of_mem x hy)]
    rfl

end RigelTarget.DoubleBuffer
