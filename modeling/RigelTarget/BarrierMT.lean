import RigelTarget.RigelAtomics
import RigelTarget.CombiningBarrier

/-!
# The multithreaded full-chip barrier

`RigelBarrierMT_EnterFull` increments the counter of the cluster with a linked load and
a conditional store; the thread whose new count is zero under the mask of the cluster
size increments the global counter, and the one whose new global count is zero under the
mask of the number of clusters stores its sense for everybody. The counters are never
reset and wrap at 2^32. Relative to the number of completed episodes the barrier is a
combining barrier, and the sense of a thread is the parity of its returns.
-/

namespace RigelTarget.BarrierMT

open SharedMemory RigelAtomics CombiningBarrier

/-- Shared words of a `RigelBarrierMT_Info`: the two counts and the two senses, those of the
clusters and those of all. -/
inductive Loc (n : ℕ) where
  /-- `local_complete` of a cluster. -/
  | localComplete (c : Fin n)
  /-- `global_compete`. -/
  | globalCompete
  /-- `global_reduce_done`. -/
  | globalReduceDone
  deriving DecidableEq

/-- The next access of a thread, one for each load, store and atomic instruction of
`RigelBarrierMT_EnterFull`. -/
inductive Pc where
  /-- Outside the barrier. -/
  | outside
  /-- `ldl` of the local count. -/
  | ldl
  /-- `stc` of the count that was loaded, plus one. -/
  | stc (v : ℕ)
  /-- `atom.inc` of the global count. -/
  | globalInc
  /-- The store of the sense that wakes the other threads. -/
  | wakeup
  /-- The spin loop on `global_reduce_done`. -/
  | spin
  deriving DecidableEq

/-- A thread: its next access, its word of `local_sense`, and its calls and returns so far, by which
its episode is told. -/
structure Local where
  /-- The next access. -/
  pc : Pc
  /-- `local_sense`, which no other thread touches. -/
  sense : ℕ
  /-- Calls that have begun. -/
  begun : ℕ
  /-- Calls that have returned. -/
  returned : ℕ
  deriving DecidableEq

/-- A thread in a cluster. -/
abbrev Thread (n m : ℕ) := Fin n×Fin m

section Steps

variable {n m : ℕ}

/-- The access of a thread. The increments are linked loads and conditional stores, which may
fail. -/
def access (t : Thread n m) (l : Local) : Access (Loc n) :=
  match l.pc with
  | .outside => .skip
  | .ldl => .loadLinked (.localComplete t.1)
  | .stc v => .storeCond (.localComplete t.1) (incWord v)
  | .globalInc => atomicInc .globalCompete
  | .wakeup => .store .globalReduceDone l.sense
  | .spin => .load .globalReduceDone

/-- The branch after the local count: the last thread of the cluster goes on. -/
def afterLocal (m v : ℕ) : Pc := if v&&&(m-1)=0 then .globalInc else .spin

/-- The branch after the global count: the last cluster wakes everybody. -/
def afterGlobal (n v : ℕ) : Pc := if v&&&(n-1)=0 then .wakeup else .spin

/-- The local state after an access. A thread outside may begin a call, which flips its private
sense. -/
def next (n m : ℕ) (l : Local) (call : Bool) (r : ℕ) : Local :=
  match l.pc with
  | .outside => if call=true then { l with pc := .ldl, begun := l.begun+1 } else l
  | .ldl => { l with pc := .stc r }
  | .stc v => { l with pc := if r=0 then .ldl else afterLocal m (incWord v) }
  | .globalInc => { l with pc := afterGlobal n (incWord r) }
  | .wakeup => { l with pc := .spin }
  | .spin =>
    if r=l.sense then ⟨.outside,if l.sense=0 then 1 else 0,l.begun,l.returned+1⟩ else l

/-- The threads of `n` clusters of `m` threads. -/
def program (n m : ℕ) : Program (Thread n m) (Loc n) Local Bool Unit where
  access t l := access t l
  next _ l call r := next n m l call r
  emit _ _ _ _ := none

end Steps

/-- States of the threads and the barrier. -/
abbrev BState (n m : ℕ) := State (Thread n m) (Loc n) Local Unit

/-- Turns of the threads. -/
abbrev BTurn (n m : ℕ) := Turn (Thread n m) Bool

/-- The words after `RigelBarrierMT_Init`. -/
def initWord {n : ℕ} : Loc n → ℕ
  | .localComplete _ => 0
  | .globalCompete => 0
  | .globalReduceDone => 1

/-- The state after `RigelBarrierMT_Init`, with every thread outside. -/
def initial (n m : ℕ) : BState n m := ⟨initWord,fun _ => none,fun _ => ⟨.outside,0,0,0⟩,[]⟩

/-- A thread that has loaded its local count. -/
def reserve {n m : ℕ} (t : Thread n m) (l : Local) : Option (Loc n×ℕ) :=
  match l.pc with
  | .stc v => some (.localComplete t.1,v)
  | _ => none

/-- Only the linked load of the local count precedes its conditional store. So a link that is left
is on the word that is stored next. -/
theorem reserving (n m : ℕ) : Reserving (program n m) reserve := by
  refine ⟨?_⟩
  rintro t ⟨pc,sense,begun,returned⟩ call r x v h
  cases pc with
  | outside => cases call <;> cases h
  | ldl =>
    simp only [program,next,reserve,Option.some.injEq,Prod.mk.injEq] at h
    obtain ⟨rfl,rfl⟩ := h
    exact ⟨rfl,rfl⟩
  | stc u =>
    simp only [program,next,reserve,afterLocal] at h
    split at h
    · rename_i hpc
      split_ifs at hpc
    · cases h
  | globalInc =>
    simp only [program,next,reserve,afterGlobal] at h
    split at h
    · rename_i hpc
      split_ifs at hpc
    · cases h
  | wakeup => cases h
  | spin =>
    simp only [program,next] at h
    by_cases hr : r=sense
    · rw [if_pos hr] at h
      cases h
    · rw [if_neg hr] at h
      cases h

/-- The stage of a thread in the episode after `E` completed ones. A thread that is still on its way
out of the last episode counts as not arrived. -/
def stage (E : ℕ) (l : Local) : Stage :=
  match l.pc with
  | .globalInc => .counting
  | .wakeup => .waking
  | .spin => if l.returned=E then .waiting else .away
  | _ => .away

/-- The calls, the returns and the sense of a thread after `E` completed episodes. -/
def RegOk (E : ℕ) (l : Local) : Prop :=
  l.sense=l.returned%2 ∧ match l.pc with
  | .outside => l.begun=E ∧ l.returned=E
  | .spin => l.begun=l.returned+1 ∧ (l.returned=E ∨ l.returned+1=E)
  | _ => l.begun=E+1 ∧ l.returned=E

/-- The barrier after `E` completed episodes: the words and the threads are in episode `E+1` of a
combining barrier, and nobody is further. -/
structure BarInv {n m : ℕ} (E : ℕ) (arrivals : Fin n → ℕ) (counted : ℕ) (s : BState n m) :
    Prop where
  /-- The threads are the members of a combining barrier. -/
  barrier : Inv (fun t => stage E (s.pc t)) arrivals counted
  /-- The sense of the last completed episode. -/
  done : s.word .globalReduceDone=(E+1)%2
  /-- The local counts, modulo 2^32. -/
  locals : ∀ c, s.word (.localComplete c)=(m*E+arrivals c)%2^32
  /-- The global count, modulo 2^32. -/
  counts : s.word .globalCompete=(n*E+counted)%2^32
  /-- Calls, returns and senses. -/
  regs : ∀ t, RegOk E (s.pc t)
  /-- Links are fresh. -/
  fresh : LinkFresh reserve s

/-- The barrier after its initialisation. -/
theorem barInv_initial {n m : ℕ} (hn : 0<n) (hm : 0 < m) :
    BarInv 0 (fun _ => 0) 0 (initial n m) := by
  have : Nonempty (Fin n) := ⟨⟨0,hn⟩⟩
  have : Nonempty (Fin m) := ⟨⟨0,hm⟩⟩
  refine ⟨Inv.idle fun _ => rfl,rfl,?_,?_,fun _ => ⟨rfl,rfl,rfl⟩,?_⟩
  · intro c
    show 0=(m*0+0)%2^32
    rw [Nat.mul_zero]
    rfl
  · show 0=(n*0+0)%2^32
    rw [Nat.mul_zero]
    rfl
  · intro t x v h
    cases h

/-- The mask of a power of two tells whether a wrapped count of episodes is full. -/
theorem mask_eq_zero {a E k : ℕ} (ha : a≤32) (h0 : 0<k) (hk : k≤2^a) :
    ((2^a*E+k)%2^32)&&&(2^a-1)=0 ↔ k=2^a := by
  rw [Nat.and_two_pow_sub_one_eq_mod,Nat.mod_mod_of_dvd _ (Nat.pow_dvd_pow 2 ha),
    Nat.mul_add_mod]
  constructor
  · intro h
    by_contra hne
    rw [Nat.mod_eq_of_lt (by omega)] at h
    omega
  · intro h
    rw [h,Nat.mod_self]

/-- A wrapped count is incremented like the count. -/
theorem incWord_mod (k : ℕ) : incWord (k%2^32)=(k+1)%2^32 := by
  unfold incWord
  omega

/-- A waiting thread spins on the current episode. -/
theorem stage_waiting {E : ℕ} {l : Local} (h : stage E l=.waiting) : l.pc=.spin ∧ l.returned=E := by
  obtain ⟨pc,sense,begun,returned⟩ := l
  cases pc with
  | spin =>
    change (if returned=E then Stage.waiting else .away)=.waiting at h
    refine ⟨rfl,?_⟩
    by_contra hne
    rw [if_neg hne] at h
    cases h
  | _ => cases h

section Step

variable {n m E counted : ℕ} {arrivals : Fin n → ℕ} {s : BState n m} {turn : BTurn n m}

/-- A turn changes the stage of its thread only. -/
theorem stage_step : (fun t => stage E ((step (program n m) s turn).pc t))=
    Function.update (fun t => stage E (s.pc t)) turn.thread
      (stage E ((step (program n m) s turn).pc turn.thread)) :=
  step_pc_map _ _ _ (stage E)

/-- The registers after a turn. -/
theorem BarInv.regs_step (h : BarInv E arrivals counted s)
    (hreg : RegOk E ((step (program n m) s turn).pc turn.thread)) :
    ∀ t, RegOk E ((step (program n m) s turn).pc t) :=
  step_pc_forall (Q := fun _ l => RegOk E l) _ _ _ hreg fun t _ => h.regs t

/-- A turn that changes neither a word nor the stage of its thread. -/
theorem BarInv.quiet (h : BarInv E arrivals counted s)
    (hword : (step (program n m) s turn).word=s.word)
    (hstage : stage E ((step (program n m) s turn).pc turn.thread)=stage E (s.pc turn.thread))
    (hreg : RegOk E ((step (program n m) s turn).pc turn.thread)) :
    BarInv E arrivals counted (step (program n m) s turn) := by
  refine ⟨?_,?_,?_,?_,h.regs_step hreg,linkFresh_step (reserving n m) turn h.fresh⟩
  · rw [stage_step,hstage,Function.update_eq_self]
    exact h.barrier
  · rw [hword]
    exact h.done
  · rw [hword]
    exact h.locals
  · rw [hword]
    exact h.counts

/-- A conditional store that succeeds is the arrival of its thread. Its link is fresh, so it has
counted from the number of the threads that arrived before. -/
theorem BarInv.arrive {a v : ℕ} (ha : a≤32) (hm : m=2^a) (h : BarInv E arrivals counted s)
    (hpc : (s.pc turn.thread).pc=.stc v)
    (hlink : holdsLink s turn.thread turn.lose (.localComplete turn.thread.1)=true) :
    BarInv E (Function.update arrivals turn.thread.1 (arrivals turn.thread.1+1)) counted
      (step (program n m) s turn) := by
  have hreg := h.regs turn.thread
  have hfresh := h.fresh turn.thread (.localComplete turn.thread.1) v
  have hlocal := h.locals turn.thread.1
  cases hl : s.pc turn.thread with
  | mk pc sense begun returned =>
    rw [hl] at hpc hreg hfresh
    change pc=.stc v at hpc
    subst hpc
    obtain ⟨hpc',hword,-⟩ := step_at (program n m) s turn hl
    change (step (program n m) s turn).pc turn.thread=next n m ⟨.stc v,sense,begun,returned⟩
      turn.choice (if holdsLink s turn.thread turn.lose (.localComplete turn.thread.1)=true
        then 1 else 0) at hpc'
    change (step (program n m) s turn).word=applyWrite s.word (if holdsLink s turn.thread turn.lose
      (.localComplete turn.thread.1)=true then some (.localComplete turn.thread.1,incWord v)
      else none) at hword
    rw [if_pos hlink] at hpc' hword
    change (step (program n m) s turn).pc turn.thread=
      ⟨afterLocal m (incWord v),sense,begun,returned⟩ at hpc'
    have hv : s.word (.localComplete turn.thread.1)=v := by
      refine hfresh rfl ?_
      simp only [holdsLink,Bool.and_eq_true,decide_eq_true_eq] at hlink
      exact hlink.2
    have haway : stage E (s.pc turn.thread)=.away := by
      rw [hl]
      rfl
    have hroom := h.barrier.room (c := turn.thread.1) (j := turn.thread.2) haway
    rw [Fintype.card_fin] at hroom
    have hinc : incWord v=(m*E+(arrivals turn.thread.1+1))%2^32 := by
      rw [←hv,hlocal,incWord_mod,Nat.add_assoc]
    have hnew : stage E ((step (program n m) s turn).pc turn.thread)=
        arrivedStage (Fin m) (arrivals turn.thread.1+1) := by
      obtain ⟨-,-,hret⟩ := hreg
      change returned=E at hret
      have hmask := mask_eq_zero (E := E) (k := arrivals turn.thread.1+1) ha (Nat.succ_pos _)
        (by rw [←hm]; exact hroom)
      rw [←hm,←hinc] at hmask
      rw [hpc',arrivedStage,Fintype.card_fin,afterLocal]
      by_cases hlast : arrivals turn.thread.1+1=m
      · rw [if_pos hlast,if_pos (hmask.2 hlast)]
        rfl
      · rw [if_neg hlast,if_neg (fun hz => hlast (hmask.1 hz))]
        exact if_pos hret
    refine ⟨?_,?_,?_,?_,h.regs_step ?_,linkFresh_step (reserving n m) turn h.fresh⟩
    · rw [stage_step,hnew]
      exact h.barrier.arrive (c := turn.thread.1) (j := turn.thread.2) haway
    · rw [hword,applyWrite_keep (fun v he => by cases he)]
      exact h.done
    · intro c
      by_cases hc : c=turn.thread.1
      · rw [hc,hword,applyWrite_self,Function.update_self]
        exact hinc
      · rw [hword,applyWrite_keep (fun v he => hc (by cases he; rfl)),Function.update_of_ne hc]
        exact h.locals c
    · rw [hword,applyWrite_keep (fun v he => by cases he)]
      exact h.counts
    · rw [hpc']
      obtain ⟨hsense,hbegun,hret⟩ := hreg
      change sense=returned%2 at hsense
      change begun=E+1 at hbegun
      change returned=E at hret
      unfold afterLocal
      split
      · exact ⟨hsense,hbegun,hret⟩
      · exact ⟨hsense,by rw [hret]; exact hbegun,.inl hret⟩

/-- The increment of the global count counts the cluster of its thread, and by what it returns the
thread knows whether the cluster was the last. -/
theorem BarInv.count {b : ℕ} (hb : b≤32) (hn : n=2^b) (h : BarInv E arrivals counted s)
    (hpc : (s.pc turn.thread).pc=.globalInc) :
    BarInv E arrivals (counted+1) (step (program n m) s turn) := by
  have hreg := h.regs turn.thread
  cases hl : s.pc turn.thread with
  | mk pc sense begun returned =>
    rw [hl] at hpc hreg
    change pc=.globalInc at hpc
    subst hpc
    obtain ⟨hpc',hword,-⟩ := step_at (program n m) s turn hl
    change (step (program n m) s turn).pc turn.thread=
      ⟨afterGlobal n (incWord (s.word .globalCompete)),sense,begun,returned⟩ at hpc'
    change (step (program n m) s turn).word=
      applyWrite s.word (some (.globalCompete,incWord (s.word .globalCompete))) at hword
    have hcounting : stage E (s.pc turn.thread)=.counting := by
      rw [hl]
      rfl
    have hroom := h.barrier.room_counted (c := turn.thread.1) (j := turn.thread.2) hcounting
    rw [Fintype.card_fin] at hroom
    have hinc : incWord (s.word .globalCompete)=(n*E+(counted+1))%2^32 := by
      rw [h.counts,incWord_mod,Nat.add_assoc]
    obtain ⟨hsense,hbegun,hret⟩ := hreg
    change sense=returned%2 at hsense
    change begun=E+1 at hbegun
    change returned=E at hret
    have hnew : stage E ((step (program n m) s turn).pc turn.thread)=
        countedStage (Fin n) (counted+1) := by
      have hmask := mask_eq_zero (E := E) (k := counted+1) hb (Nat.succ_pos _)
        (by rw [←hn]; exact hroom)
      rw [←hn,←hinc] at hmask
      rw [hpc',countedStage,Fintype.card_fin,afterGlobal]
      by_cases hlast : counted+1=n
      · rw [if_pos hlast,if_pos (hmask.2 hlast)]
        rfl
      · rw [if_neg hlast,if_neg (fun hz => hlast (hmask.1 hz))]
        exact if_pos hret
    refine ⟨?_,?_,?_,?_,h.regs_step ?_,linkFresh_step (reserving n m) turn h.fresh⟩
    · rw [stage_step,hnew]
      exact h.barrier.count (c := turn.thread.1) (j := turn.thread.2) hcounting
    · rw [hword,applyWrite_keep (fun v he => by cases he)]
      exact h.done
    · intro c
      rw [hword,applyWrite_keep (fun v he => by cases he)]
      exact h.locals c
    · rw [hword,applyWrite_self]
      exact hinc
    · rw [hpc']
      unfold afterGlobal
      split
      · exact ⟨hsense,hbegun,hret⟩
      · exact ⟨hsense,by rw [hret]; exact hbegun,.inl hret⟩

/-- The store of the sense completes the episode: everybody waits, and nobody has arrived in
the next one. -/
theorem BarInv.wake (h : BarInv E arrivals counted s) (hpc : (s.pc turn.thread).pc=.wakeup) :
    BarInv (E+1) (fun _ => 0) 0 (step (program n m) s turn) := by
  have hreg := h.regs turn.thread
  have : Nonempty (Fin n) := ⟨turn.thread.1⟩
  have : Nonempty (Fin m) := ⟨turn.thread.2⟩
  cases hl : s.pc turn.thread with
  | mk pc sense begun returned =>
    rw [hl] at hpc hreg
    change pc=.wakeup at hpc
    subst hpc
    obtain ⟨hpc',hword,-⟩ := step_at (program n m) s turn hl
    change (step (program n m) s turn).pc turn.thread=⟨.spin,sense,begun,returned⟩ at hpc'
    change (step (program n m) s turn).word=applyWrite s.word (some (.globalReduceDone,sense))
      at hword
    obtain ⟨hsense,hbegun,hret⟩ := hreg
    change sense=returned%2 at hsense
    change begun=E+1 at hbegun
    change returned=E at hret
    have hwaking : stage E (s.pc turn.thread)=.waking := by
      rw [hl]
      rfl
    -- every thread now spins on the episode that is complete
    have hspin : ∀ t, ((step (program n m) s turn).pc t).pc=.spin ∧
        ((step (program n m) s turn).pc t).returned=E ∧
        ((step (program n m) s turn).pc t).begun=E+1 ∧
        ((step (program n m) s turn).pc t).sense=E%2 := by
      intro t
      by_cases ht : t=turn.thread
      · rw [ht,hpc']
        exact ⟨rfl,hret,hbegun,by rw [hsense,hret]⟩
      · rw [step_pc_other _ _ _ ht]
        obtain ⟨hp,hr⟩ := stage_waiting (h.barrier.others_wait hwaking ht)
        obtain ⟨hs,hreg⟩ := h.regs t
        rw [hp] at hreg
        exact ⟨hp,hr,by rw [hreg.1,hr],by rw [hs,hr]⟩
    refine ⟨Inv.idle ?_,?_,?_,?_,?_,linkFresh_step (reserving n m) turn h.fresh⟩
    · intro t
      obtain ⟨hp,hr,-,-⟩ := hspin t
      unfold stage
      rw [hp]
      exact if_neg (by omega)
    · rw [hword,applyWrite_self]
      omega
    · intro c
      have hfull := h.barrier.full_of_waking hwaking c
      rw [Fintype.card_fin] at hfull
      rw [hword,applyWrite_keep (fun v he => by cases he),h.locals c,hfull,Nat.mul_add_one,
        Nat.add_zero]
    · have hall := h.barrier.counted_iff.2 ⟨turn.thread,hwaking⟩
      rw [Fintype.card_fin] at hall
      rw [hword,applyWrite_keep (fun v he => by cases he),h.counts,hall,Nat.mul_add_one,
        Nat.add_zero]
    · intro t
      obtain ⟨hp,hr,hbg,hs⟩ := hspin t
      refine ⟨by rw [hs,hr],?_⟩
      rw [hp]
      exact ⟨by rw [hbg,hr],.inr (by rw [hr])⟩

/-- A thread spins: it returns when its episode is complete, and then the word that it spins on has
its own sense. -/
theorem BarInv.spin (h : BarInv E arrivals counted s) (hpc : (s.pc turn.thread).pc=.spin) :
    BarInv E arrivals counted (step (program n m) s turn) := by
  have hreg := h.regs turn.thread
  cases hl : s.pc turn.thread with
  | mk pc sense begun returned =>
    rw [hl] at hpc hreg
    change pc=.spin at hpc
    subst hpc
    obtain ⟨hpc',hword,-⟩ := step_at (program n m) s turn hl
    change (step (program n m) s turn).pc turn.thread=
      (if s.word .globalReduceDone=sense then
        ⟨.outside,if sense=0 then 1 else 0,begun,returned+1⟩
      else ⟨.spin,sense,begun,returned⟩) at hpc'
    change (step (program n m) s turn).word=s.word at hword
    obtain ⟨hsense,hbegun,hret⟩ := hreg
    change sense=returned%2 at hsense
    change begun=returned+1 at hbegun
    change returned=E ∨ returned+1=E at hret
    rw [h.done] at hpc'
    by_cases hdone : (E+1)%2=sense
    · have hold : returned+1=E := by omega
      rw [if_pos hdone] at hpc'
      refine h.quiet hword ?_ ?_
      · rw [hpc',hl]
        exact (if_neg (show returned≠E by omega)).symm
      · rw [hpc']
        refine ⟨?_,by rw [hbegun]; exact hold,hold⟩
        show (if sense=0 then 1 else 0)=(returned+1)%2
        split <;> omega
    · rw [if_neg hdone] at hpc'
      refine h.quiet hword (by rw [hpc',hl]) ?_
      rw [hpc']
      exact ⟨hsense,hbegun,hret⟩

/-- Every turn keeps the barrier, possibly in the next episode, whichever threads call, spin or lose
their links. -/
theorem barInv_step {a b : ℕ} (ha : a≤32) (hb : b≤32) (hm : m=2^a) (hn : n=2^b)
    (h : BarInv E arrivals counted s) :
    ∃ E arrivals counted, BarInv E arrivals counted (step (program n m) s turn) := by
  have hreg := h.regs turn.thread
  cases hl : s.pc turn.thread with
  | mk pc sense begun returned =>
    rw [hl] at hreg
    obtain ⟨hpc,hword,-⟩ := step_at (program n m) s turn hl
    cases pc with
    | outside =>
      change (step (program n m) s turn).word=s.word at hword
      change (step (program n m) s turn).pc turn.thread=(if turn.choice=true then
        ⟨.ldl,sense,begun+1,returned⟩ else ⟨.outside,sense,begun,returned⟩) at hpc
      obtain ⟨hsense,hbegun,hret⟩ := hreg
      refine ⟨E,arrivals,counted,h.quiet hword ?_ ?_⟩
      · rw [hpc,hl]
        split <;> rfl
      · rw [hpc]
        split
        · exact ⟨hsense,congrArg (·+1) hbegun,hret⟩
        · exact ⟨hsense,hbegun,hret⟩
    | ldl =>
      change (step (program n m) s turn).word=s.word at hword
      change (step (program n m) s turn).pc turn.thread=
        ⟨.stc (s.word (.localComplete turn.thread.1)),sense,begun,returned⟩ at hpc
      exact ⟨E,arrivals,counted,h.quiet hword (by rw [hpc,hl]; rfl) (by rw [hpc]; exact hreg)⟩
    | stc v =>
      by_cases hlink :
          holdsLink s turn.thread turn.lose (.localComplete turn.thread.1)=true
      · exact ⟨E,_,counted,h.arrive ha hm (by rw [hl]) hlink⟩
      · change (step (program n m) s turn).pc turn.thread=
          next n m ⟨.stc v,sense,begun,returned⟩ turn.choice (if holdsLink s turn.thread
            turn.lose (.localComplete turn.thread.1)=true then 1 else 0) at hpc
        change (step (program n m) s turn).word=applyWrite s.word (if holdsLink s turn.thread
          turn.lose (.localComplete turn.thread.1)=true
          then some (.localComplete turn.thread.1,incWord v) else none) at hword
        rw [if_neg hlink] at hpc hword
        change (step (program n m) s turn).pc turn.thread=⟨.ldl,sense,begun,returned⟩ at hpc
        exact ⟨E,arrivals,counted,h.quiet hword (by rw [hpc,hl]; rfl) (by rw [hpc]; exact hreg)⟩
    | globalInc => exact ⟨E,arrivals,counted+1,h.count hb hn (by rw [hl])⟩
    | wakeup => exact ⟨E+1,_,0,h.wake (by rw [hl])⟩
    | spin => exact ⟨E,arrivals,counted,h.spin (by rw [hl])⟩

/-- The calls and returns of every thread are those of the current episode. So no thread returns
before all have called. -/
theorem BarInv.episode (h : BarInv E arrivals counted s) (t : Thread n m) :
    (s.pc t).returned≤E ∧ E≤(s.pc t).begun ∧ E≤(s.pc t).returned+1 := by
  obtain ⟨-,hreg⟩ := h.regs t
  generalize s.pc t=l at hreg
  obtain ⟨pc,sense,begun,returned⟩ := l
  cases pc with
  | outside =>
    obtain ⟨hb,hr⟩ := hreg
    change begun=E at hb
    change returned=E at hr
    show returned≤E ∧ E≤begun ∧ E ≤ returned+1
    omega
  | spin =>
    obtain ⟨hb,hr⟩ := hreg
    change begun=returned+1 at hb
    change returned=E ∨ returned+1=E at hr
    show returned≤E ∧ E≤begun ∧ E ≤ returned+1
    omega
  | _ =>
    obtain ⟨hb,hr⟩ := hreg
    change begun=E+1 at hb
    change returned=E at hr
    show returned≤E ∧ E≤begun ∧ E ≤ returned+1
    omega

/-- Not every thread spins on a sense that is not stored. -/
theorem BarInv.not_stuck (h : BarInv E arrivals counted s) :
    ¬∀ t, (s.pc t).pc=.spin ∧ s.word .globalReduceDone≠(s.pc t).sense := by
  intro hall
  refine h.barrier.not_all_waiting fun t => ?_
  obtain ⟨hpc,hsense⟩ := hall t
  obtain ⟨hs,hreg⟩ := h.regs t
  rw [hpc] at hreg
  rw [h.done,hs] at hsense
  have hret : (s.pc t).returned=E := by
    obtain ⟨-,hret⟩ := hreg
    omega
  unfold stage
  rw [hpc]
  exact if_pos hret

end Step

/-- For power-of-two numbers of threads in a cluster and of clusters, in every state of every
run: a thread has not returned from more calls than any thread has begun, the returns of two
threads differ by one at most, and some thread that spins can return unless some thread does not
spin. -/
theorem barrier_reusable {a b n m : ℕ} (ha : a≤32) (hb : b≤32) (hm : m=2^a) (hn : n=2^b)
    {s : BState n m} (hs : Reachable (program n m) (initial n m) (fun _ _ => True) s) :
    (∀ t u, (s.pc t).returned≤(s.pc u).begun) ∧
    (∀ t u, (s.pc t).returned≤(s.pc u).returned+1) ∧
    ¬∀ t, (s.pc t).pc=.spin ∧ s.word .globalReduceDone≠(s.pc t).sense := by
  have hn0 : 0<n := by
    rw [hn]
    exact Nat.two_pow_pos b
  have hm0 : 0 < m := by
    rw [hm]
    exact Nat.two_pow_pos a
  obtain ⟨E,arrivals,counted,h⟩ : ∃ E arrivals counted, BarInv E arrivals counted s := by
    refine Reachable.invariant (I := fun s => ∃ E arrivals counted, BarInv E arrivals counted s)
      ⟨0,_,0,barInv_initial hn0 hm0⟩ ?_ hs
    rintro s turn - - ⟨E,arrivals,counted,h⟩
    exact barInv_step ha hb hm hn h
  refine ⟨?_,?_,h.not_stuck⟩
  · intro t u
    have ht := h.episode t
    have hu := h.episode u
    omega
  · intro t u
    have ht := h.episode t
    have hu := h.episode u
    omega

/-- Two clusters of one thread; the first thread has returned and entered again while the second
one still spins. -/
def overtaking : List (BTurn 2 1) :=
  [⟨(left,solo),true,false⟩,⟨(left,solo),true,false⟩,⟨(left,solo),true,false⟩,
    ⟨(left,solo),true,false⟩,⟨(right,solo),true,false⟩,⟨(right,solo),true,false⟩,
    ⟨(right,solo),true,true⟩,⟨(right,solo),true,false⟩,⟨(right,solo),true,false⟩,
    ⟨(right,solo),true,false⟩,⟨(right,solo),true,false⟩,⟨(left,solo),true,false⟩,
    ⟨(left,solo),true,false⟩]

/-- The returns of the two threads differ by one: the first has returned while the second still
spins in the same episode. -/
theorem barrier_reusable_overtaking :
    ((run (program 2 1) (initial 2 1) overtaking).pc (left,solo)).returned=1 ∧
    ((run (program 2 1) (initial 2 1) overtaking).pc (left,solo)).returned≤
      ((run (program 2 1) (initial 2 1) overtaking).pc (right,solo)).returned+1 := by
  have hs : Reachable (program 2 1) (initial 2 1) (fun _ _ => True)
      (run (program 2 1) (initial 2 1) overtaking) := .of_allows .init (by decide +kernel)
  have h := barrier_reusable (a := 0) (b := 1) (by decide) (by decide) rfl rfl hs
  exact ⟨by decide +kernel,h.2.1 _ _⟩

end RigelTarget.BarrierMT
