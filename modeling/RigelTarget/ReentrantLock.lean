import Mathlib.Logic.Function.Basic
import Mathlib.Tactic.Common

/-!
# A reentrant lock of an owner word and a count word

The count is the nesting depth of the holder and the owner word is its name. Taking
a free lock raises the count and then names the owner; giving it up clears the
owner and then lowers the count, so between the two the lock is held and nameless.
The invariant relates both words to the phase of every thread. A thread that reads
its own name is the holder, and a count of zero means that no thread is inside.
-/

namespace RigelTarget.ReentrantLock

/-- What a thread has done to the lock. The count is raised before the owner is named and lowered
after the owner is cleared, and in between the two words do not agree. -/
inductive Phase where
  /-- The thread has no part in it. -/
  | free
  /-- The count is raised and the owner is not named yet. -/
  | taken
  /-- The thread holds the lock to this depth. -/
  | held (depth : ℕ)
  /-- The owner is cleared and the count is not lowered yet. -/
  | dropping
  deriving DecidableEq

/-- The count that a phase accounts for. -/
def Phase.weight : Phase → ℕ
  | .free => 0
  | .taken => 1
  | .held depth => depth
  | .dropping => 1

variable {T : Type}

/-- Owner and count are explained by the phases; `nobody` is the name of no thread. A thread inside
is the owner, and the count is the depth of its acquires. -/
structure Inv (nobody : ℕ) (name : T → ℕ) (owner count : ℕ) (phase : T → Phase) : Prop where
  /-- At most one thread is inside. -/
  exclusive : ∀ t u, phase t≠.free → phase u≠.free → t=u
  /-- A held lock has a depth. -/
  deep : ∀ t, phase t≠.held 0
  /-- The count is that of the thread inside. -/
  inside : ∀ t, phase t≠.free → count=(phase t).weight
  /-- With no thread inside the count is zero. -/
  empty : (∀ t, phase t=.free) → count=0
  /-- The owner is the name of the holder. -/
  named : ∀ t d, phase t=.held d → owner=name t
  /-- Without a holder the owner is nobody. -/
  nameless : (∀ t d, phase t≠.held d) → owner=nobody

/-- A step of one thread: owner, count and phase before and after. Any lock whose steps are such
moves excludes. -/
inductive Move (nobody self : ℕ) : ℕ → ℕ → Phase → ℕ → ℕ → Phase → Prop where
  /-- Nothing changes. -/
  | quiet {o c : ℕ} (p : Phase) : Move nobody self o c p o c p
  /-- A free lock is taken. -/
  | take {o : ℕ} : Move nobody self o 0 .free o 1 .taken
  /-- The owner is named. -/
  | enter {o c : ℕ} : Move nobody self o c .taken self c (.held 1)
  /-- The holder enters again. -/
  | nest {o c : ℕ} (d : ℕ) : Move nobody self o c (.held d) o (c+1) (.held (d+1))
  /-- The holder leaves an inner level. -/
  | unnest {o c : ℕ} (d : ℕ) : 0<d → Move nobody self o c (.held (d+1)) o (c-1) (.held d)
  /-- The owner is cleared. -/
  | clear {o c : ℕ} : Move nobody self o c (.held 1) nobody c .dropping
  /-- The lock is given up. -/
  | drop {o c : ℕ} : Move nobody self o c .dropping o (c-1) .free

section Facts

variable {nobody : ℕ} {name : T → ℕ} {owner count : ℕ} {phase : T → Phase}

/-- The free lock. -/
theorem Inv.initial : Inv nobody name nobody 0 (fun _ : T => .free) where
  exclusive _ _ h := absurd rfl h
  deep _ h := by cases h
  inside _ h := absurd rfl h
  empty _ := rfl
  named _ _ h := by cases h
  nameless _ := rfl

/-- A thread inside has weight. -/
theorem Inv.weight_pos (h : Inv nobody name owner count phase) {t : T} (ht : phase t≠.free) :
    0<(phase t).weight := by
  have hdeep := h.deep t
  cases hp : phase t with
  | free => exact absurd hp ht
  | taken => exact Nat.one_pos
  | held d =>
    rw [hp] at hdeep
    have hd : d≠0 := fun hd => hdeep (by rw [hd])
    exact Nat.pos_of_ne_zero hd
  | dropping => exact Nat.one_pos

/-- A count of zero means that no thread is inside. -/
theorem Inv.free_of_zero (h : Inv nobody name owner count phase) (hc : count=0) (t : T) :
    phase t=.free := by
  by_contra ht
  have hcount := h.inside t ht
  have hpos := h.weight_pos ht
  omega

/-- A thread that reads its own name holds the lock. -/
theorem Inv.held_of_owner (h : Inv nobody name owner count phase)
    (hname : ∀ t u, name t=name u → t=u) (hnobody : ∀ t, name t≠nobody) {t : T}
    (ho : owner=name t) : ∃ d, phase t=.held d := by
  by_contra hnot
  by_cases hex : ∃ u d, phase u=.held d
  · obtain ⟨u,d,hu⟩ := hex
    have hou := h.named u d hu
    have htu : t=u := hname t u (by rw [←ho,hou])
    exact hnot ⟨d,by rw [htu]; exact hu⟩
  · have hnone := h.nameless fun u d hu => hex ⟨u,d,hu⟩
    exact hnobody t (by rw [←ho,hnone])

/-- With a count of zero the owner is nobody. -/
theorem Inv.nobody_of_zero (h : Inv nobody name owner count phase) (hc : count=0) :
    owner=nobody := by
  refine h.nameless fun t d ht => ?_
  have hfree := h.free_of_zero hc t
  rw [ht] at hfree
  cases hfree

variable [DecidableEq T]

/-- The invariant holds when no other thread is inside and one phase accounts for both words. All
steps that take or give up the lock end here. -/
theorem Inv.of_alone {t : T} {p : Phase} {owner' count' : ℕ}
    (halone : ∀ u, u≠t → phase u=.free) (hdeep : p≠.held 0)
    (hcount : count'=p.weight) (hnamed : ∀ d, p=.held d → owner'=name t)
    (hnameless : (∀ d, p≠.held d) → owner'=nobody) :
    Inv nobody name owner' count' (Function.update phase t p) := by
  have hother : ∀ u, u≠t → Function.update phase t p u=.free := fun u hu => by
    rw [Function.update_of_ne hu]
    exact halone u hu
  have honly : ∀ u, Function.update phase t p u≠.free → u=t := fun u hu => by
    by_contra hne
    exact hu (hother u hne)
  refine ⟨?_,?_,?_,?_,?_,?_⟩
  · intro u v hu hv
    rw [honly u hu,honly v hv]
  · intro u
    by_cases hu : u=t
    · rw [hu,Function.update_self]
      exact hdeep
    · rw [hother u hu]
      exact fun h => by cases h
  · intro u hu
    rw [honly u hu,Function.update_self]
    exact hcount
  · intro hall
    have hp := hall t
    rw [Function.update_self] at hp
    rw [hcount,hp]
    rfl
  · intro u d hu
    have hut : u=t := honly u (by rw [hu]; exact fun h => by cases h)
    rw [hut,Function.update_self] at hu
    rw [hut]
    exact hnamed d hu
  · intro hnone
    refine hnameless fun d hd => hnone t d ?_
    rw [Function.update_self]
    exact hd

/-- Every step keeps the invariant, those of the holder and those of threads that try. -/
theorem Inv.move (h : Inv nobody name owner count phase) {t : T} {owner' count' : ℕ} {p : Phase}
    (hm : Move nobody (name t) owner count (phase t) owner' count' p) :
    Inv nobody name owner' count' (Function.update phase t p) := by
  have halone : phase t≠.free → ∀ u, u≠t → phase u=.free := fun ht u hu => by
    by_contra hne
    exact hu (h.exclusive u t hne ht)
  generalize hpt : phase t=q at hm
  cases hm with
  | quiet => rw [←hpt,Function.update_eq_self]; exact h
  | take =>
    have hnone := h.nobody_of_zero rfl
    exact .of_alone (fun u _ => h.free_of_zero rfl u) (fun h => by cases h) rfl
      (fun d hd => by cases hd) (fun _ => hnone)
  | enter =>
    have hc := h.inside t (by rw [hpt]; exact fun h => by cases h)
    rw [hpt] at hc
    exact .of_alone (halone (by rw [hpt]; exact fun h => by cases h)) (fun h => by cases h) hc
      (fun _ _ => rfl) (fun hn => absurd rfl (hn 1))
  | nest d =>
    have hc := h.inside t (by rw [hpt]; exact fun h => by cases h)
    have ho := h.named t d hpt
    rw [hpt] at hc
    refine .of_alone (halone (by rw [hpt]; exact fun h => by cases h)) (fun h => by cases h) ?_
      (fun _ _ => ho) (fun hn => absurd rfl (hn (d+1)))
    rw [hc]
    rfl
  | unnest d hd =>
    have hc := h.inside t (by rw [hpt]; exact fun h => by cases h)
    have ho := h.named t (d+1) hpt
    rw [hpt] at hc
    refine .of_alone (halone (by rw [hpt]; exact fun h => by cases h)) ?_ ?_
      (fun _ _ => ho) (fun hn => absurd rfl (hn d))
    · intro he
      cases he
      omega
    · rw [hc]
      rfl
  | clear =>
    have hc := h.inside t (by rw [hpt]; exact fun h => by cases h)
    rw [hpt] at hc
    exact .of_alone (halone (by rw [hpt]; exact fun h => by cases h)) (fun h => by cases h) hc
      (fun _ hd => by cases hd) (fun _ => rfl)
  | drop =>
    have hc := h.inside t (by rw [hpt]; exact fun h => by cases h)
    rw [hpt] at hc
    have hthere : phase t≠.free := by rw [hpt]; exact fun h => by cases h
    have hnone := h.nameless fun u d hu => by
      have hut : u=t := h.exclusive u t (by rw [hu]; exact fun h => by cases h) hthere
      rw [hut,hpt] at hu
      cases hu
    refine .of_alone (halone hthere) (fun h => by cases h) ?_ (fun _ hd => by cases hd)
      (fun _ => hnone)
    rw [hc]
    rfl

end Facts

end RigelTarget.ReentrantLock
