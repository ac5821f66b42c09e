import Mathlib.Data.List.Nodup
import Mathlib.Logic.Function.Basic
import Mathlib.Tactic.Common

/-!
# Intrusive lists and the owners of their nodes

Nodes are numbers, zero is the null pointer, and each node has one successor. A
segment runs from a node through a list of nodes to a final pointer; a chain is a
segment that ends in null. Nodes belong to places, each node to at most one, so a
node can be relinked by the place that owns it without touching any other list.
-/

namespace RigelTarget.IntrusiveList

/-- Following `next` from `a` visits exactly the nodes of the list and arrives at `b`. A list with
the head `a` is such a segment that arrives at 0. -/
def Seg (next : ℕ → ℕ) : ℕ → List ℕ → ℕ → Prop
  | a, [], b => a=b
  | a, p::l, b => a=p ∧ p≠0 ∧ Seg next (next p) l b

section Segments

variable {next next' : ℕ → ℕ} {a b c : ℕ} {l k : List ℕ}

/-- A segment depends on the successors of its nodes only. -/
theorem Seg.congr (h : Seg next a l b) (hn : ∀ p, p∈l → next' p=next p) : Seg next' a l b := by
  induction l generalizing a with
  | nil => exact h
  | cons p l ih =>
    obtain ⟨hp,h0,hl⟩ := h
    refine ⟨hp,h0,?_⟩
    rw [hn p List.mem_cons_self]
    exact ih hl fun q hq => hn q (List.mem_cons_of_mem p hq)

/-- Segments compose. -/
theorem Seg.append (h : Seg next a l b) (h' : Seg next b k c) : Seg next a (l++k) c := by
  induction l generalizing a with
  | nil =>
    have he : a=b := h
    rw [he]
    exact h'
  | cons p l ih => exact ⟨h.1,h.2.1,ih h.2.2⟩

/-- A segment grows by the node it arrives at. -/
theorem Seg.snoc (h : Seg next a l b) (hb : b≠0) (hc : next b=c) : Seg next a (l++[b]) c :=
  h.append ⟨rfl,hb,hc⟩

/-- A chain that starts at a node has that node in front. -/
theorem Seg.cons_of_ne (h : Seg next a l 0) (ha : a≠0) :
    ∃ k, l=a::k ∧ Seg next (next a) k 0 := by
  cases l with
  | nil => exact absurd h ha
  | cons p k =>
    obtain ⟨rfl,-,hk⟩ := h
    exact ⟨k,rfl,hk⟩

/-- A chain that starts at null is empty. -/
theorem Seg.eq_nil (h : Seg next 0 l 0) : l=[] := by
  cases l with
  | nil => rfl
  | cons p k => exact absurd h.1.symm h.2.1

/-- Two chains from one pointer are equal. -/
theorem Seg.unique (h : Seg next a l 0) (h' : Seg next a k 0) : l=k := by
  induction l generalizing a k with
  | nil =>
    have ha : a=0 := h
    rw [ha] at h'
    exact h'.eq_nil.symm
  | cons p l ih =>
    obtain ⟨hp,h0,hl⟩ := h
    obtain ⟨k',hk,hs⟩ := h'.cons_of_ne (by rw [hp]; exact h0)
    rw [hk,hp]
    rw [hp] at hs
    rw [ih hl hs]

end Segments

/-- The nodes of every place are distinct, and no node is in two places. Places are the lists of a
program and the hands of its threads. -/
structure Owned {P : Type} (nodes : P → List ℕ) : Prop where
  /-- A place has a node once. -/
  nodup : ∀ x, (nodes x).Nodup
  /-- A node has one place. -/
  apart : ∀ x y p, p∈nodes x → p∈nodes y → x=y

section Places

variable {P : Type} [DecidableEq P] {nodes : P → List ℕ}

/-- A place changes its nodes to some of its own and some that were free. The other places do not
notice. -/
theorem Owned.change (h : Owned nodes) {x : P} {l : List ℕ} (hl : l.Nodup)
    (hfrom : ∀ p, p∈l → p∈nodes x ∨ ∀ y, p∉nodes y) : Owned (Function.update nodes x l) := by
  have hmem : ∀ y p, p∈Function.update nodes x l y → (y=x ∧ p∈l) ∨ (y≠x ∧ p∈nodes y) := by
    intro y p hp
    by_cases hy : y=x
    · rw [hy,Function.update_self] at hp
      exact .inl ⟨hy,hp⟩
    · rw [Function.update_of_ne hy] at hp
      exact .inr ⟨hy,hp⟩
  constructor
  · intro y
    by_cases hy : y=x
    · rw [hy,Function.update_self]
      exact hl
    · rw [Function.update_of_ne hy]
      exact h.nodup y
  · intro y z p hy hz
    rcases hmem y p hy with ⟨hyx,hp⟩|⟨hyx,hp⟩ <;> rcases hmem z p hz with ⟨hzx,hq⟩|⟨hzx,hq⟩
    · rw [hyx,hzx]
    · rcases hfrom p hp with hx|hfree
      · exact absurd (h.apart z x p hq hx) hzx
      · exact absurd hq (hfree z)
    · rcases hfrom p hq with hx|hfree
      · exact absurd (h.apart y x p hp hx) hyx
      · exact absurd hp (hfree y)
    · exact h.apart y z p hp hq

/-- Two places redistribute their nodes, as when a thread unlinks the head of a list or links what
it holds in front of it. -/
theorem Owned.exchange (h : Owned nodes) {x y : P} (hxy : x≠y) {l k : List ℕ}
    (hlk : (l++k).Nodup) (hfrom : ∀ p, p∈l++k → p∈nodes x ∨ p∈nodes y) :
    Owned (Function.update (Function.update nodes x l) y k) := by
  obtain ⟨hl,hk,hdisj⟩ := List.nodup_append.mp hlk
  have hmem : ∀ z p, p∈Function.update (Function.update nodes x l) y k z →
      (z=y ∧ p∈k) ∨ (z=x ∧ p∈l) ∨ (z≠x ∧ z≠y ∧ p∈nodes z) := by
    intro z p hp
    by_cases hy : z=y
    · rw [hy,Function.update_self] at hp
      exact .inl ⟨hy,hp⟩
    · rw [Function.update_of_ne hy] at hp
      by_cases hx : z=x
      · rw [hx,Function.update_self] at hp
        exact .inr (.inl ⟨hx,hp⟩)
      · rw [Function.update_of_ne hx] at hp
        exact .inr (.inr ⟨hx,hy,hp⟩)
  have hout : ∀ z p, z≠x → z≠y → p∈nodes z → p∉l++k := by
    intro z p hx hy hp hlk
    rcases hfrom p hlk with hq|hq
    · exact hx (h.apart z x p hp hq)
    · exact hy (h.apart z y p hp hq)
  constructor
  · intro z
    by_cases hy : z=y
    · rw [hy,Function.update_self]
      exact hk
    · rw [Function.update_of_ne hy]
      by_cases hx : z=x
      · rw [hx,Function.update_self]
        exact hl
      · rw [Function.update_of_ne hx]
        exact h.nodup z
  · intro z z' p hz hz'
    rcases hmem z p hz with ⟨rfl,hp⟩|⟨rfl,hp⟩|⟨hzx,hzy,hp⟩ <;>
      rcases hmem z' p hz' with ⟨rfl,hq⟩|⟨rfl,hq⟩|⟨hzx',hzy',hq⟩
    · rfl
    · exact absurd rfl (hdisj p hq p hp)
    · exact absurd (List.mem_append_right l hp) (hout z' p hzx' hzy' hq)
    · exact absurd rfl (hdisj p hp p hq)
    · rfl
    · exact absurd (List.mem_append_left k hp) (hout z' p hzx' hzy' hq)
    · exact absurd (List.mem_append_right l hq) (hout z p hzx hzy hp)
    · exact absurd (List.mem_append_left k hq) (hout z p hzx hzy hp)
    · exact h.apart z z' p hp hq

end Places

end RigelTarget.IntrusiveList
