import Mathlib.Data.Fintype.Card
import Mathlib.Data.Nat.ModEq
import Mathlib.Data.List.Nodup
import Mathlib.Tactic.Common

/-!
# Ticket locks as first-in first-out queues

A ticket lock keeps a counter of reservations and the ticket being served,
both modulo the word size. The abstract lock is the queue of the threads that
reserved and did not release. The invariant ties both words and the private
ticket of every thread to the positions of that queue. It is stated over
arbitrary words and thread phases, so that a program with further state can
carry it along. Fewer threads than tickets is the only size assumption.
-/

namespace RigelTarget.TicketLock

/-- What a thread is doing with the lock, with its private registers. The phases of any
implementation by load and store are mapped to these. -/
inductive Phase where
  /-- Neither waiting for the lock nor owning it. -/
  | outside
  /-- Reserved a ticket and polls for it. -/
  | waiting (ticket : ℕ)
  /-- Owns the lock and no longer uses its ticket. -/
  | holding
  /-- Owns the lock and keeps its ticket for the release. -/
  | holdingWith (ticket : ℕ)
  /-- Owns the lock and has loaded the ticket being served. -/
  | releasing (loaded : ℕ)
  deriving DecidableEq

/-- The phases between a granted acquire and its release. -/
def Phase.owns : Phase → Bool
  | .holding => true
  | .holdingWith _ => true
  | .releasing _ => true
  | _ => false

section Queue

variable {ι : Type}

/-- The queue explains both words and every private ticket: the thread at the front is served, and
the tickets behind it follow in order, modulo the size of the words. -/
structure Inv (M : ℕ) (queue : List ι) (count poll : ℕ) (phase : ι → Phase) : Prop where
  /-- A thread reserves at most once at a time. -/
  nodup : queue.Nodup
  /-- Exactly the threads outside the lock are not queued. -/
  queued : ∀ t, t∈queue ↔ phase t≠.outside
  /-- The ticket being served fits a word. -/
  poll_lt : poll<M
  /-- The counter is the ticket of the last queued thread. -/
  count_eq : count=(poll+queue.length+(M-1))%M
  /-- The private ticket of a waiting thread is its distance from the front. -/
  waiting : ∀ t k, phase t=.waiting k → ∃ i, queue[i]? =some t ∧ k=(poll+i)%M
  /-- Only the front of the queue owns the lock. -/
  front : ∀ t, (phase t).owns=true → queue.head? =some t
  /-- A kept ticket is the one being served. -/
  kept : ∀ t k, phase t=.holdingWith k → k=poll
  /-- A loaded ticket is the one being served. -/
  loaded : ∀ t k, phase t=.releasing k → k=poll

/-- The lock words of an unused lock: the first ticket is one above the count. -/
theorem Inv.initial {M : ℕ} (hM : 1<M) :
    Inv M ([] : List ι) 0 1 (fun _ => .outside) where
  nodup := List.nodup_nil
  queued t := by simp
  poll_lt := hM
  count_eq := by
    have he : 1+([] : List ι).length+(M-1)=M := by simp only [List.length_nil]; omega
    rw [he,Nat.mod_self]
  waiting t k h := by cases h
  front t h := by cases h
  kept t k h := by cases h
  loaded t k h := by cases h

/-- At most one thread is between a granted acquire and its release. -/
theorem Inv.exclusive {M : ℕ} {queue : List ι} {count poll : ℕ} {phase : ι → Phase}
    (h : Inv M queue count poll phase) {t u : ι} (ht : (phase t).owns=true)
    (hu : (phase u).owns=true) : t=u :=
  Option.some.inj ((h.front t ht).symm.trans (h.front u hu))

/-- The queue holds each thread once, so it is no longer than the thread count. -/
theorem Inv.length_le [Fintype ι] {M : ℕ} {queue : List ι} {count poll : ℕ}
    {phase : ι → Phase} (h : Inv M queue count poll phase) :
    queue.length≤Fintype.card ι :=
  h.nodup.length_le_card

/-- Distinct positions of a short queue have distinct tickets. -/
theorem ticket_injective {M poll i j : ℕ} (hi : i<M) (hj : j<M)
    (h : (poll+i)%M=(poll+j)%M) : i=j := by
  have hm : i ≡ j [MOD M] := Nat.ModEq.add_left_cancel' poll h
  exact (Nat.mod_eq_of_lt hi).symm.trans (Eq.trans hm (Nat.mod_eq_of_lt hj))

/-- The thread whose ticket is being served is the front of the queue. -/
theorem Inv.front_of_served [Fintype ι] {M : ℕ} {queue : List ι} {count poll : ℕ}
    {phase : ι → Phase} (h : Inv M queue count poll phase) (hM : Fintype.card ι<M) {t : ι}
    (ht : phase t=.waiting poll) : queue.head? =some t := by
  obtain ⟨i,hi,hk⟩ := h.waiting t poll ht
  have hlen : i<queue.length := (List.getElem?_eq_some_iff.mp hi).1
  have hle := h.length_le
  have hp := h.poll_lt
  have h0 : (poll+i)%M=(poll+0)%M := by rw [←hk,Nat.add_zero,Nat.mod_eq_of_lt hp]
  have hz : i=0 := ticket_injective (by omega) (by omega) h0
  rw [hz] at hi
  rwa [List.head?_eq_getElem?]

/-- When nobody owns the lock, the front of the queue is served. -/
theorem Inv.served_of_front {M : ℕ} {queue : List ι} {count poll : ℕ} {phase : ι → Phase}
    (h : Inv M queue count poll phase) {t : ι} (ht : queue.head? =some t)
    (hfree : (phase t).owns=false) : phase t=.waiting poll := by
  have hmem : t∈queue := List.mem_of_mem_head? ht
  have hq := (h.queued t).mp hmem
  cases hp : phase t with
  | outside => exact absurd hp hq
  | waiting k =>
    obtain ⟨i,hi,hk⟩ := h.waiting t k hp
    rw [List.head?_eq_getElem?] at ht
    have hpos : 0<queue.length := List.length_pos_of_mem hmem
    have hlen : i<queue.length := (List.getElem?_eq_some_iff.mp hi).1
    have hz : i=0 := (List.getElem?_inj hlen h.nodup).mp (hi.trans ht.symm)
    rw [hk,hz,Nat.add_zero,Nat.mod_eq_of_lt h.poll_lt]
  | holding => rw [hp] at hfree; cases hfree
  | holdingWith k => rw [hp] at hfree; cases hfree
  | releasing k => rw [hp] at hfree; cases hfree

/-- One phase changes and the others stay. -/
theorem update_cases [DecidableEq ι] {phase : ι → Phase} {t u : ι} {p q : Phase}
    (h : Function.update phase t p u=q) : (u=t ∧ p=q) ∨ (u≠t ∧ phase u=q) := by
  by_cases hu : u=t
  · subst hu
    rw [Function.update_self] at h
    exact .inl ⟨rfl,h⟩
  · rw [Function.update_of_ne hu] at h
    exact .inr ⟨hu,h⟩

/-- A successful increment of the counter queues the thread with its ticket. The counter may wrap
around as long as fewer threads wait than there are tickets. -/
theorem Inv.reserve [DecidableEq ι] {M : ℕ} {queue : List ι} {count poll : ℕ}
    {phase : ι → Phase} (h : Inv M queue count poll phase) {t : ι} (ht : phase t=.outside) :
    Inv M (queue++[t]) ((count+1)%M) poll
      (Function.update phase t (.waiting ((count+1)%M))) := by
  have hnot : t∉queue := by
    intro hmem
    exact (h.queued t).mp hmem ht
  have hM : 0<M := lt_of_le_of_lt (Nat.zero_le poll) h.poll_lt
  have hcount : (count+1)%M=(poll+queue.length)%M := by
    rw [h.count_eq,Nat.mod_add_mod]
    have he : poll+queue.length+(M-1)+1=poll+queue.length+M := by omega
    rw [he,Nat.add_mod_right]
  refine ⟨?_,?_,h.poll_lt,?_,?_,?_,?_,?_⟩
  · rw [List.nodup_append]
    refine ⟨h.nodup,List.nodup_singleton t,?_⟩
    intro a ha b hb hab
    rw [List.mem_singleton] at hb
    exact hnot (hb ▸ hab ▸ ha)
  · intro u
    by_cases hu : u=t
    · subst hu
      simp
    · simp only [List.mem_append,List.mem_singleton,hu,or_false,Function.update_of_ne hu]
      exact h.queued u
  · rw [hcount,List.length_append,List.length_singleton]
    have he : poll+(queue.length+1)+(M-1)=poll+queue.length+M := by omega
    rw [he,Nat.add_mod_right]
  · intro u k hu
    rcases update_cases hu with ⟨rfl,hp⟩|⟨_,hp⟩
    · cases hp
      exact ⟨queue.length,by simp,hcount⟩
    · obtain ⟨i,hi,hk⟩ := h.waiting u k hp
      have hlen : i<queue.length := (List.getElem?_eq_some_iff.mp hi).1
      exact ⟨i,by rw [List.getElem?_append_left hlen,hi],hk⟩
  · intro u hu
    by_cases hut : u=t
    · subst hut
      rw [Function.update_self] at hu
      cases hu
    · rw [Function.update_of_ne hut] at hu
      rw [List.head?_append,h.front u hu,Option.some_or]
  · intro u k hu
    rcases update_cases hu with ⟨_,hp⟩|⟨_,hp⟩
    · cases hp
    · exact h.kept u k hp
  · intro u k hu
    rcases update_cases hu with ⟨_,hp⟩|⟨_,hp⟩
    · cases hp
    · exact h.loaded u k hp

/-- The front of the queue may move between the phases that own the lock; the words and the queue
stay. -/
theorem Inv.own [DecidableEq ι] {M : ℕ} {queue : List ι} {count poll : ℕ} {phase : ι → Phase}
    (h : Inv M queue count poll phase) {t : ι} (ht : queue.head? =some t) {p : Phase}
    (hp : p=.holding ∨ p=.holdingWith poll ∨ p=.releasing poll) :
    Inv M queue count poll (Function.update phase t p) := by
  have hmem : t∈queue := List.mem_of_mem_head? ht
  refine ⟨h.nodup,?_,h.poll_lt,h.count_eq,?_,?_,?_,?_⟩
  · intro u
    by_cases hu : u=t
    · subst hu
      rw [Function.update_self]
      refine ⟨fun _ => ?_,fun _ => hmem⟩
      rcases hp with rfl|rfl|rfl <;> exact fun h => by cases h
    · rw [Function.update_of_ne hu]
      exact h.queued u
  · intro u k hu
    rcases update_cases hu with ⟨_,hk⟩|⟨_,hk⟩
    · rcases hp with rfl|rfl|rfl <;> cases hk
    · exact h.waiting u k hk
  · intro u hu
    by_cases hut : u=t
    · rw [hut]
      exact ht
    · rw [Function.update_of_ne hut] at hu
      exact h.front u hu
  · intro u k hu
    rcases update_cases hu with ⟨_,hk⟩|⟨_,hk⟩
    · rcases hp with rfl|rfl|rfl <;> cases hk
      rfl
    · exact h.kept u k hk
  · intro u k hu
    rcases update_cases hu with ⟨_,hk⟩|⟨_,hk⟩
    · rcases hp with rfl|rfl|rfl <;> cases hk
      rfl
    · exact h.loaded u k hk

/-- A thread whose poll returned its own ticket owns the lock. -/
theorem Inv.grant [DecidableEq ι] [Fintype ι] {M : ℕ} {queue : List ι} {count poll : ℕ}
    {phase : ι → Phase} (h : Inv M queue count poll phase) (hM : Fintype.card ι<M) {t : ι}
    (ht : phase t=.waiting poll) {p : Phase} (hp : p=.holding ∨ p=.holdingWith poll) :
    Inv M queue count poll (Function.update phase t p) := by
  refine h.own (h.front_of_served hM ht) ?_
  rcases hp with hp|hp
  · exact .inl hp
  · exact .inr (.inl hp)

/-- A release serves the next ticket and removes the front of the queue, so that the thread behind
it is the only one whose poll succeeds. -/
theorem Inv.release [DecidableEq ι] {M : ℕ} {queue : List ι} {count poll : ℕ}
    {phase : ι → Phase} (h : Inv M queue count poll phase) {t : ι}
    (ht : (phase t).owns=true) :
    Inv M queue.tail count ((poll+1)%M) (Function.update phase t .outside) := by
  obtain ⟨rest,hq⟩ : ∃ rest, queue=t::rest := List.head?_eq_some_iff.mp (h.front t ht)
  subst hq
  have hM : 0<M := lt_of_le_of_lt (Nat.zero_le poll) h.poll_lt
  have hnd := List.nodup_cons.mp h.nodup
  -- no other thread owns the lock, so nothing else depends on the served ticket
  have hother : ∀ u, u≠t → (phase u).owns=false := by
    intro u hu
    by_contra hown
    exact hu (h.exclusive (Bool.eq_true_of_not_eq_false hown) ht)
  refine ⟨hnd.2,?_,Nat.mod_lt _ hM,?_,?_,?_,?_,?_⟩
  · intro u
    rw [List.tail_cons]
    by_cases hu : u=t
    · subst hu
      simp [hnd.1]
    · rw [Function.update_of_ne hu]
      have hu' := h.queued u
      simpa only [List.mem_cons,hu,false_or] using hu'
  · rw [h.count_eq,List.tail_cons,List.length_cons,Nat.add_assoc ((poll+1)%M),Nat.mod_add_mod]
    congr 1
    omega
  · intro u k hu
    rcases update_cases hu with ⟨_,hp⟩|⟨hut,hp⟩
    · cases hp
    · obtain ⟨i,hi,hk⟩ := h.waiting u k hp
      cases i with
      | zero =>
        rw [List.getElem?_cons_zero] at hi
        exact absurd (Option.some.inj hi).symm hut
      | succ i =>
        rw [List.getElem?_cons_succ] at hi
        refine ⟨i,hi,?_⟩
        rw [hk,Nat.mod_add_mod]
        congr 1
        omega
  · intro u hu
    by_cases hut : u=t
    · subst hut
      rw [Function.update_self] at hu
      cases hu
    · rw [Function.update_of_ne hut,hother u hut] at hu
      cases hu
  · intro u k hu
    rcases update_cases hu with ⟨_,hp⟩|⟨hut,hp⟩
    · cases hp
    · have hown := hother u hut
      rw [hp] at hown
      cases hown
  · intro u k hu
    rcases update_cases hu with ⟨_,hp⟩|⟨hut,hp⟩
    · cases hp
    · have hown := hother u hut
      rw [hp] at hown
      cases hown

/-- The moves of one thread: words and phase before, words and phase after. A program whose steps
are such moves has a fair lock. -/
inductive Move (M : ℕ) (count poll : ℕ) : Phase → ℕ → ℕ → Phase → Prop where
  /-- Nothing of the lock changes. -/
  | quiet (p : Phase) : Move M count poll p count poll p
  /-- The counter is incremented and the thread keeps the new count as its ticket. -/
  | reserve : Move M count poll .outside ((count+1)%M) poll (.waiting ((count+1)%M))
  /-- The ticket being served is the own one. -/
  | grant {p : Phase} : p=.holding ∨ p=.holdingWith poll →
      Move M count poll (.waiting poll) count poll p
  /-- The owner loads the ticket being served. -/
  | load : Move M count poll .holding count poll (.releasing poll)
  /-- The owner stores its own ticket plus one. -/
  | releaseWith (k : ℕ) : Move M count poll (.holdingWith k) count ((k+1)%M) .outside
  /-- The owner stores the loaded ticket plus one. -/
  | releaseLoaded (k : ℕ) : Move M count poll (.releasing k) count ((k+1)%M) .outside

/-- Every move of one thread keeps the invariant, with some queue. The queue is a witness and not
part of the program. -/
theorem Inv.move [DecidableEq ι] [Fintype ι] {M : ℕ} {queue : List ι} {count poll count' poll' : ℕ}
    {phase : ι → Phase} (h : Inv M queue count poll phase) (hM : Fintype.card ι<M) {t : ι}
    {p : Phase} (hmove : Move M count poll (phase t) count' poll' p) :
    ∃ queue, Inv M queue count' poll' (Function.update phase t p) := by
  generalize hq : phase t=q at hmove
  cases hmove with
  | quiet => exact ⟨queue,by rw [←hq,Function.update_eq_self]; exact h⟩
  | reserve => exact ⟨queue++[t],h.reserve hq⟩
  | grant hp => exact ⟨queue,h.grant hM hq hp⟩
  | load =>
    have hown : (phase t).owns=true := by rw [hq]; rfl
    exact ⟨queue,h.own (h.front t hown) (.inr (.inr rfl))⟩
  | releaseWith k =>
    have hown : (phase t).owns=true := by rw [hq]; rfl
    rw [h.kept t k hq]
    exact ⟨queue.tail,h.release hown⟩
  | releaseLoaded k =>
    have hown : (phase t).owns=true := by rw [hq]; rfl
    rw [h.loaded t k hq]
    exact ⟨queue.tail,h.release hown⟩

end Queue

end RigelTarget.TicketLock
