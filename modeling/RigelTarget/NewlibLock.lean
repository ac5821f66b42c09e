import RigelTarget.RigelAtomics
import RigelTarget.ReentrantLock
import Mathlib.Data.Fintype.Basic

/-!
# The locks of newlib

`_LOCK_RECURSIVE_T` is an owner word and a count word; `_LOCK_T` is one word. Both
are run by any number of threads, one access to a shared word at a time. The
recursive lock is an instance of the reentrant lock: the phase of a thread follows
from its local state and its nesting depth. The blocking acquire of the plain lock
repeats its exchange while it reads zero, so it leaves a free lock free and does
not wait for a taken one.
-/

namespace RigelTarget.NewlibLock

open SharedMemory RigelAtomics

namespace Recursive

/-- Words of a `_LOCK_RECURSIVE_T`. Both are shared by all threads and accessed at the global
level. -/
inductive Loc where
  /-- `owner`. -/
  | owner
  /-- `count`. -/
  | count
  deriving DecidableEq

/-- The next access of a thread. `_lock_try_acquire_recursive` takes the accesses of
`_lock_acquire_recursive` with `trying` set. -/
inductive Pc where
  /-- Outside the lock functions. -/
  | outside
  /-- `compare_and_swap` of the count from 0 to 1. -/
  | cas (trying : Bool)
  /-- `global_load` of the owner. -/
  | load (trying : Bool)
  /-- `atomic_inc` of the count by the owner. -/
  | inc (trying : Bool)
  /-- The spin loop on `compare_and_swap`. -/
  | spin
  /-- `global_store` of the thread number into the owner. -/
  | store (trying : Bool)
  /-- `_lock_release_recursive`: `global_load` of the count. -/
  | relLoad
  /-- `global_store` of `-1` into the owner. -/
  | relClear
  /-- `atomic_dec` of the count. -/
  | relDec
  deriving DecidableEq

/-- A thread: its next access and the acquires it has not released. The depth is not in the source;
it is what the count should be. -/
structure Local where
  /-- The next access. -/
  pc : Pc
  /-- Nesting depth. -/
  depth : ℕ
  deriving DecidableEq

/-- What a thread outside the lock functions does next. A thread in one of them has no choice. -/
inductive Choice where
  /-- Nothing. -/
  | stay
  /-- `_lock_acquire_recursive`. -/
  | acquire
  /-- `_lock_try_acquire_recursive`. -/
  | tryAcquire
  /-- `_lock_release_recursive`. -/
  | release
  deriving DecidableEq

/-- Returns of the lock functions. What threads hold is told by these alone. -/
inductive Event (n : ℕ) where
  /-- `_lock_acquire_recursive` returned. -/
  | acquired (t : Fin n)
  /-- `_lock_try_acquire_recursive` returned 1 or 0. -/
  | tried (t : Fin n) (success : Bool)
  /-- `_lock_release_recursive` returned. -/
  | released (t : Fin n)
  deriving DecidableEq

section Steps

variable {n : ℕ} (tid : Fin n → ℕ)

/-- The access of a thread to one of the two words, or none outside. -/
def access (t : Fin n) (l : Local) : Access Loc :=
  match l.pc with
  | .outside => .skip
  | .cas _ => compareAndSwap .count 0 1
  | .load _ => .load .owner
  | .inc _ => atomicInc .count
  | .spin => compareAndSwap .count 0 1
  | .store _ => .store .owner (tid t)
  | .relLoad => .load .count
  | .relClear => .store .owner minusOne
  | .relDec => atomicDec .count

/-- The first access of a call. Both acquires start with the swap of the count. -/
def callPc : Choice → Pc
  | .stay => .outside
  | .acquire => .cas false
  | .tryAcquire => .cas true
  | .release => .relLoad

/-- The next access of a thread. A failed swap is followed by a look at the owner, and only then by
the spin loop. -/
def nextPc (t : Fin n) (pc : Pc) (choice : Choice) (r : ℕ) : Pc :=
  match pc with
  | .outside => callPc choice
  | .cas trying => if r=0 then .store trying else .load trying
  | .load trying => if r=tid t then .inc trying else if trying=true then .outside else .spin
  | .inc _ => .outside
  | .spin => if r=0 then .store false else .spin
  | .store _ => .outside
  | .relLoad => if r=1 then .relClear else .relDec
  | .relClear => .relDec
  | .relDec => .outside

/-- The nesting depth after a step: acquires count from their return, releases from their
return. -/
def nextDepth (pc : Pc) (depth : ℕ) : ℕ :=
  match pc with
  | .inc _ => depth+1
  | .store _ => depth+1
  | .relDec => depth-1
  | _ => depth

/-- The event of a step. A try that fails returns as soon as it has seen another owner. -/
def emit (t : Fin n) (pc : Pc) (r : ℕ) : Option (Event n) :=
  match pc with
  | .load true => if r=tid t then none else some (.tried t false)
  | .inc trying => some (if trying=true then .tried t true else .acquired t)
  | .store trying => some (if trying=true then .tried t true else .acquired t)
  | .relDec => some (.released t)
  | _ => none

/-- Threads with the numbers `tid` on one lock. The numbers are what `RigelGetThreadNum` gives. -/
def program : Program (Fin n) Loc Local Choice (Event n) where
  access t l := access tid t l
  next t l choice r := ⟨nextPc tid t l.pc choice r,nextDepth l.pc l.depth⟩
  emit t l _ r := emit tid t l.pc r

end Steps

/-- States of the threads and the lock. -/
abbrev RState (n : ℕ) := State (Fin n) Loc Local (Event n)

/-- Turns of the threads. -/
abbrev RTurn (n : ℕ) := Turn (Fin n) Choice

/-- The words after `_lock_init_recursive`: nobody owns the lock, and nobody has counted. -/
def initWord : Loc → ℕ
  | .owner => minusOne
  | .count => 0

/-- The state after `_lock_init_recursive`, with every thread outside. -/
def initial (n : ℕ) : RState n := ⟨initWord,fun _ => none,fun _ => ⟨.outside,0⟩,[]⟩

/-- Threads release what they hold, and nesting stays below 2^32. Nothing else is asked of them. -/
structure Client {n : ℕ} (s : RState n) (turn : RTurn n) : Prop where
  /-- A release is called by a thread that holds the lock. -/
  holds : (s.pc turn.thread).pc=.outside → turn.choice=.release → 0<(s.pc turn.thread).depth
  /-- An acquire is called below the largest depth. -/
  nests : (s.pc turn.thread).pc=.outside → turn.choice=.acquire ∨ turn.choice=.tryAcquire →
    (s.pc turn.thread).depth+1<2^32

instance {n : ℕ} (s : RState n) (turn : RTurn n) : Decidable (Client s turn) :=
  decidable_of_iff
    (((s.pc turn.thread).pc=.outside → turn.choice=.release → 0<(s.pc turn.thread).depth) ∧
      ((s.pc turn.thread).pc=.outside → turn.choice=.acquire ∨ turn.choice=.tryAcquire →
        (s.pc turn.thread).depth+1<2^32)) ⟨fun h => ⟨h.1,h.2⟩,fun h => ⟨h.holds,h.nests⟩⟩

/-- The thread holds the lock: it has a depth, or it has taken the count and names itself. In the
second case the acquire is about to return. -/
def Holds (l : Local) : Prop := 0<l.depth ∨ ∃ b, l.pc=.store b

/-- In `_lock_release_recursive`. A thread holds the lock until its last access there. -/
def releasing : Pc → Bool
  | .relLoad => true
  | .relClear => true
  | .relDec => true
  | _ => false

/-- The part of a thread in the lock. It follows from the next access and the depth, so the model
needs no other record of it. -/
def phase (l : Local) : ReentrantLock.Phase :=
  match l.pc with
  | .store _ => .taken
  | .relDec => if l.depth=1 then .dropping else if l.depth=0 then .free else .held l.depth
  | _ => if l.depth=0 then .free else .held l.depth

/-- Registers and depth of a thread: what it has loaded of the owner, and how deep it is in the
lock. -/
def RegOk (l : Local) : Prop :=
  l.depth<2^32 ∧ match l.pc with
  | .outside => True
  | .cas _ => l.depth+1<2^32
  | .load _ => l.depth+1<2^32
  | .inc _ => 0<l.depth ∧ l.depth+1<2^32
  | .spin => l.depth=0
  | .store _ => l.depth=0
  | .relLoad => 0<l.depth
  | .relClear => l.depth=1
  | .relDec => 0<l.depth

/-- The lock is a reentrant lock of its threads: in every reachable state its words are those that
the phases of the threads make up. -/
structure LockInv {n : ℕ} (tid : Fin n → ℕ) (s : RState n) : Prop where
  /-- Owner and count follow the phases. -/
  lock : ReentrantLock.Inv minusOne tid (s.word .owner) (s.word .count) fun t => phase (s.pc t)
  /-- Every thread has consistent registers. -/
  regs : ∀ t, RegOk (s.pc t)

variable {n : ℕ} {tid : Fin n → ℕ}

/-- The lock after its initialisation. -/
theorem lockInv_initial : LockInv tid (initial n) where
  lock := ReentrantLock.Inv.initial
  regs _ := ⟨Nat.two_pow_pos 32,trivial⟩

/-- Outside the stores of the owner and the last decrement, depth and phase agree. -/
theorem phase_eq {l : Local} (h : l.pc≠.relDec) (h' : ∀ b, l.pc≠.store b) :
    phase l=if l.depth=0 then .free else .held l.depth := by
  unfold phase
  split
  · exact absurd ‹_› (h' _)
  · exact absurd ‹_› h
  · rfl

/-- A thread with a depth that has not cleared the owner is the holder. -/
theorem phase_held {l : Local} (h : l.pc≠.relDec) (h' : ∀ b, l.pc≠.store b) (hd : 0<l.depth) :
    phase l=.held l.depth := by
  rw [phase_eq h h',if_neg (by omega)]

section Step

variable {s : RState n} {turn : RTurn n}

/-- The words that a turn leaves alone and the phase that it keeps. -/
theorem quiet_move {o c o' c' : ℕ} {p p' : ReentrantLock.Phase} {self : ℕ} (ho : o'=o) (hc : c'=c)
    (hp : p'=p) : ReentrantLock.Move minusOne self o c p o' c' p' := by
  rw [ho,hc,hp]
  exact .quiet p

/-- The count is the weight of the thread in the lock. -/
theorem LockInv.count_eq (h : LockInv tid s) {t : Fin n} {p : ReentrantLock.Phase}
    (hp : phase (s.pc t)=p) (hne : p≠.free) : s.word .count=p.weight := by
  have hc := h.lock.inside t (by rw [hp]; exact hne)
  rw [hp] at hc
  exact hc

/-- A thread that finds the count zero has no depth. -/
theorem LockInv.depth_zero (h : LockInv tid s) {t : Fin n} {pc : Pc} {depth : ℕ}
    (hl : s.pc t=⟨pc,depth⟩) (hrel : pc≠.relDec) (hstore : ∀ b, pc≠.store b)
    (hz : s.word .count=0) : depth=0 ∧ phase ⟨pc,depth⟩=.free := by
  have hfree := h.lock.free_of_zero hz t
  rw [hl] at hfree
  refine ⟨?_,hfree⟩
  by_contra hd
  rw [phase_held hrel hstore (show 0<depth by omega)] at hfree
  cases hfree

/-- One turn is a step of the reentrant lock and keeps the registers of its thread. The words change
as the step says. -/
theorem move_step (hname : ∀ t u, tid t=tid u → t=u) (hnobody : ∀ t, tid t≠minusOne)
    (h : LockInv tid s) (ok : Client s turn) {s' : RState n} (hs' : step (program tid) s turn=s') :
    ReentrantLock.Move minusOne (tid turn.thread) (s.word .owner) (s.word .count)
      (phase (s.pc turn.thread)) (s'.word .owner) (s'.word .count)
      (phase (s'.pc turn.thread)) ∧ RegOk (s'.pc turn.thread) := by
  have hreg := h.regs turn.thread
  have hnests := ok.nests
  have hholds := ok.holds
  cases hl : s.pc turn.thread with
  | mk pc depth =>
    obtain ⟨hpc,hword,-⟩ := step_at (program tid) s turn hl
    rw [hl] at hreg hnests hholds
    rw [hs'] at hpc hword
    obtain ⟨hlt,hreg⟩ := hreg
    change depth<2^32 at hlt
    cases pc with
    | outside =>
      change s'.pc turn.thread=⟨callPc turn.choice,depth⟩ at hpc
      change s'.word=s.word at hword
      rw [hpc,hword]
      refine ⟨quiet_move rfl rfl ?_,hlt,?_⟩
      · cases turn.choice <;> rfl
      · cases hc : turn.choice with
        | stay => trivial
        | acquire => exact hnests rfl (.inl hc)
        | tryAcquire => exact hnests rfl (.inr hc)
        | release => exact hholds rfl hc
    | cas b =>
      change s'.pc turn.thread=⟨if s.word .count=0 then .store b else .load b,depth⟩ at hpc
      change s'.word=applyWrite s.word (some (.count,casValue 0 1 (s.word .count))) at hword
      by_cases hz : s.word .count=0
      · obtain ⟨hdepth,hfree⟩ := h.depth_zero hl (fun h => by cases h) (fun _ h => by cases h) hz
        rw [if_pos hz] at hpc
        rw [hpc,hword,hz,casValue_self,applyWrite_self,applyWrite_keep (fun v he => by cases he),
          hfree]
        exact ⟨.take,hlt,hdepth⟩
      · rw [if_neg hz] at hpc
        rw [hpc,hword,casValue_of_ne hz,applyWrite_self,applyWrite_keep (fun v he => by cases he)]
        exact ⟨quiet_move rfl rfl rfl,hlt,hreg⟩
    | load b =>
      change s'.pc turn.thread=⟨if s.word .owner=tid turn.thread then .inc b
        else if b=true then .outside else .spin,depth⟩ at hpc
      change s'.word=s.word at hword
      have hkeep : phase ⟨.load b,depth⟩=if depth=0 then .free else .held depth := rfl
      rw [hpc,hword]
      by_cases ho : s.word .owner=tid turn.thread
      · obtain ⟨d,hd⟩ := h.lock.held_of_owner hname hnobody ho
        rw [hl,hkeep] at hd
        have hpos : 0<depth := by
          by_contra h0
          rw [if_pos (by omega)] at hd
          cases hd
        rw [if_pos ho]
        exact ⟨quiet_move rfl rfl rfl,hlt,hpos,hreg⟩
      · rw [if_neg ho]
        cases b with
        | true => exact ⟨quiet_move rfl rfl rfl,hlt,trivial⟩
        | false =>
          refine ⟨quiet_move rfl rfl rfl,hlt,?_⟩
          show depth=0
          by_contra hd
          have hheld : phase (s.pc turn.thread)=.held depth := by
            rw [hl,hkeep,if_neg hd]
          exact ho (h.lock.named turn.thread depth hheld)
    | inc b =>
      change s'.pc turn.thread=⟨.outside,depth+1⟩ at hpc
      change s'.word=applyWrite s.word (some (.count,incWord (s.word .count))) at hword
      change 0<depth ∧ depth+1<2^32 at hreg
      have hheld : phase ⟨.inc b,depth⟩=.held depth :=
        phase_held (fun h => by cases h) (fun _ h => by cases h) hreg.1
      have hcount : s.word .count=depth :=
        h.count_eq (p := .held depth) (by rw [hl,hheld]) (fun h => by cases h)
      have hinc : incWord (s.word .count)=s.word .count+1 := incWord_eq (by
        unfold minusOne
        omega)
      have hafter : phase ⟨.outside,depth+1⟩=.held (depth+1) :=
        phase_held (fun h => by cases h) (fun _ h => by cases h) (Nat.succ_pos depth)
      rw [hpc,hword,applyWrite_self,applyWrite_keep (fun v he => by cases he),hheld,hinc,hafter]
      exact ⟨.nest depth,hreg.2,trivial⟩
    | spin =>
      change s'.pc turn.thread=⟨if s.word .count=0 then .store false else .spin,depth⟩ at hpc
      change s'.word=applyWrite s.word (some (.count,casValue 0 1 (s.word .count))) at hword
      by_cases hz : s.word .count=0
      · obtain ⟨hdepth,hfree⟩ := h.depth_zero hl (fun h => by cases h) (fun _ h => by cases h) hz
        rw [if_pos hz] at hpc
        rw [hpc,hword,hz,casValue_self,applyWrite_self,applyWrite_keep (fun v he => by cases he),
          hfree]
        exact ⟨.take,hlt,hdepth⟩
      · rw [if_neg hz] at hpc
        rw [hpc,hword,casValue_of_ne hz,applyWrite_self,applyWrite_keep (fun v he => by cases he)]
        exact ⟨quiet_move rfl rfl rfl,hlt,hreg⟩
    | store b =>
      change s'.pc turn.thread=⟨.outside,depth+1⟩ at hpc
      change s'.word=applyWrite s.word (some (.owner,tid turn.thread)) at hword
      change depth=0 at hreg
      rw [hpc,hword,applyWrite_self,applyWrite_keep (fun v he => by cases he),hreg]
      exact ⟨.enter,by decide,trivial⟩
    | relLoad =>
      change s'.pc turn.thread=⟨if s.word .count=1 then .relClear else .relDec,depth⟩ at hpc
      change s'.word=s.word at hword
      change 0<depth at hreg
      have hheld : phase ⟨.relLoad,depth⟩=.held depth :=
        phase_held (fun h => by cases h) (fun _ h => by cases h) hreg
      have hcount : s.word .count=depth :=
        h.count_eq (p := .held depth) (by rw [hl,hheld]) (fun h => by cases h)
      rw [hpc,hword,hcount,hheld]
      by_cases h1 : depth=1
      · rw [if_pos h1]
        refine ⟨quiet_move rfl rfl ?_,hlt,h1⟩
        exact phase_held (fun h => by cases h) (fun _ h => by cases h) hreg
      · rw [if_neg h1]
        refine ⟨quiet_move rfl rfl ?_,hlt,hreg⟩
        show (if depth=1 then ReentrantLock.Phase.dropping
          else if depth=0 then .free else .held depth)=_
        rw [if_neg h1,if_neg (by omega)]
    | relClear =>
      change s'.pc turn.thread=⟨.relDec,depth⟩ at hpc
      change s'.word=applyWrite s.word (some (.owner,minusOne)) at hword
      change depth=1 at hreg
      rw [hpc,hword,applyWrite_self,applyWrite_keep (fun v he => by cases he),hreg]
      exact ⟨.clear,by decide,Nat.one_pos⟩
    | relDec =>
      change s'.pc turn.thread=⟨.outside,depth-1⟩ at hpc
      change s'.word=applyWrite s.word (some (.count,decWord (s.word .count))) at hword
      change 0<depth at hreg
      rw [hpc,hword,applyWrite_self,applyWrite_keep (fun v he => by cases he)]
      have hphase : phase ⟨.relDec,depth⟩=if depth=1 then .dropping else .held depth := by
        show (if depth=1 then ReentrantLock.Phase.dropping
          else if depth=0 then .free else .held depth)=_
        rw [if_neg (show ¬depth=0 by omega)]
      have hcount : s.word .count=depth := by
        have hc := h.count_eq (t := turn.thread) (by rw [hl,hphase]) (by
          split <;> exact fun h => by cases h)
        rw [hc]
        split
        · exact Eq.symm ‹_›
        · rfl
      have hdec : decWord (s.word .count)=s.word .count-1 :=
        decWord_eq (by omega) (by omega)
      rw [hdec,hphase]
      by_cases h1 : depth=1
      · rw [if_pos h1,h1]
        exact ⟨.drop,by decide,trivial⟩
      · obtain ⟨d,rfl⟩ : ∃ d, depth=d+1 := ⟨depth-1,by omega⟩
        have hafter : phase ⟨.outside,d+1-1⟩=.held d :=
          phase_held (fun h => by cases h) (fun _ h => by cases h) (show 0<d by omega)
        rw [if_neg h1,hafter]
        exact ⟨.unnest d (by omega),(by show d<2^32; omega),trivial⟩

/-- One turn keeps the lock. -/
theorem lockInv_step (hname : ∀ t u, tid t=tid u → t=u) (hnobody : ∀ t, tid t≠minusOne)
    (h : LockInv tid s) (ok : Client s turn) : LockInv tid (step (program tid) s turn) := by
  obtain ⟨hm,hreg⟩ := move_step hname hnobody h ok rfl
  refine ⟨?_,step_pc_forall (Q := fun _ l => RegOk l) _ _ _ hreg fun u _ => h.regs u⟩
  convert h.lock.move hm using 1
  exact step_pc_map _ _ _ phase

end Step

/-- The lock is in order in every reached state. -/
theorem lockInv_reachable (hname : ∀ t u, tid t=tid u → t=u) (hnobody : ∀ t, tid t≠minusOne)
    {s : RState n} (hs : Reachable (program tid) (initial n) Client s) : LockInv tid s :=
  Reachable.invariant lockInv_initial (fun _ _ _ ok h => lockInv_step hname hnobody h ok) hs

/-- A thread that holds the lock has a part in it, whatever it is doing at the time. -/
theorem phase_of_holds {l : Local} (h : Holds l) : phase l≠.free := by
  obtain ⟨pc,depth⟩ := l
  intro hfree
  rcases h with hd|⟨b,hb⟩
  · change 0<depth at hd
    cases pc with
    | store b => cases hfree
    | relDec =>
      change (if depth=1 then ReentrantLock.Phase.dropping
        else if depth=0 then .free else .held depth)=.free at hfree
      split at hfree
      · cases hfree
      · rw [if_neg (by omega)] at hfree
        cases hfree
    | _ =>
      rw [phase_held (fun h => by cases h) (fun _ h => by cases h) hd] at hfree
      cases hfree
  · change pc=.store b at hb
    rw [hb] at hfree
    cases hfree

/-- A thread with a depth that is not in its last release is the holder. -/
theorem phase_of_depth {l : Local} (hreg : RegOk l) (hd : 0<l.depth)
    (hlast : l.depth=1 → releasing l.pc=false) : phase l=.held l.depth := by
  obtain ⟨pc,depth⟩ := l
  change 0<depth at hd
  cases pc with
  | store b =>
    have h0 : depth=0 := hreg.2
    omega
  | relDec =>
    have h1 : depth≠1 := fun h1 => by cases hlast h1
    show (if depth=1 then ReentrantLock.Phase.dropping
      else if depth=0 then .free else .held depth)=.held depth
    rw [if_neg h1,if_neg (by omega)]
  | _ => exact phase_held (fun h => by cases h) (fun _ h => by cases h) hd

/-- `_lock_try_acquire_recursive` returns 1 with one more level and 0 with none. The depth is the
private one of the caller, not the count of the lock. -/
theorem tried_depth {s : RState n} {turn : RTurn n} {t : Fin n} {b : Bool}
    (he : shows (program tid) s turn=some (.tried t b)) :
    t=turn.thread ∧ ((step (program tid) s turn).pc turn.thread).depth=
      (s.pc turn.thread).depth+if b=true then 1 else 0 := by
  cases hl : s.pc turn.thread with
  | mk pc depth =>
    obtain ⟨hpc,-,hev⟩ := step_at (program tid) s turn hl
    rw [hev] at he
    rw [hpc]
    cases pc with
    | load trying =>
      cases trying with
      | false => cases he
      | true =>
        simp only [program,emit] at he
        split at he
        · cases he
        · cases he
          exact ⟨rfl,rfl⟩
    | inc trying =>
      cases trying <;> cases he
      exact ⟨rfl,rfl⟩
    | store trying =>
      cases trying <;> cases he
      exact ⟨rfl,rfl⟩
    | _ => cases he

/-- In every state of a run of threads that release what they hold and nest below 2^32: one
thread holds the lock, the count is its depth between its calls, the owner is its number from
its first acquire to its last release and `-1` at count zero, only the holder nests, and the
try-acquire returns 1 exactly when it adds a level. -/
theorem recursive_lock (hname : ∀ t u, tid t=tid u → t=u) (hnobody : ∀ t, tid t≠minusOne)
    {s : RState n} (hs : Reachable (program tid) (initial n) Client s) :
    (∀ t u, Holds (s.pc t) → Holds (s.pc u) → t=u) ∧
    (∀ t, (s.pc t).pc=.outside → 0<(s.pc t).depth → s.word .count=(s.pc t).depth) ∧
    (∀ t, 0<(s.pc t).depth → ((s.pc t).depth=1 → releasing (s.pc t).pc=false) →
      s.word .owner=tid t) ∧
    (s.word .count=0 → s.word .owner=minusOne) ∧
    (∀ t b, (s.pc t).pc=.inc b → 0<(s.pc t).depth) ∧
    ∀ turn t b, shows (program tid) s turn=some (.tried t b) →
      ((step (program tid) s turn).pc t).depth=(s.pc t).depth+if b=true then 1 else 0 := by
  have h := lockInv_reachable hname hnobody hs
  refine ⟨?_,?_,?_,h.lock.nobody_of_zero,?_,?_⟩
  · intro t u ht hu
    exact h.lock.exclusive t u (phase_of_holds ht) (phase_of_holds hu)
  · intro t hpc hd
    have hp := phase_of_depth (h.regs t) hd (fun _ => by rw [hpc]; rfl)
    exact h.count_eq hp (fun h => by cases h)
  · intro t hd hlast
    exact h.lock.named t _ (phase_of_depth (h.regs t) hd hlast)
  · intro t b hpc
    have hreg := (h.regs t).2
    rw [hpc] at hreg
    exact hreg.1
  · intro turn t b he
    obtain ⟨rfl,hd⟩ := tried_depth he
    exact hd

/-- Thread 0 acquires twice; thread 1 tries and is about to fail. -/
def nestedThenTry : List (RTurn 2) :=
  [⟨left,.acquire,false⟩,⟨left,.stay,false⟩,⟨left,.stay,false⟩,⟨left,.acquire,false⟩,
    ⟨left,.stay,false⟩,⟨left,.stay,false⟩,⟨left,.stay,false⟩,⟨right,.tryAcquire,false⟩,
    ⟨right,.stay,false⟩]

/-- Thread 0 holds the lock at depth 2 while thread 1 tries. The try changes neither the count nor
the owner. -/
theorem recursive_lock_nested :
    (run (program fun t : Fin 2 => t.val) (initial 2) nestedThenTry).word .count=2 ∧
    (run (program fun t : Fin 2 => t.val) (initial 2) nestedThenTry).word .owner=0 := by
  have hs : Reachable (program fun t : Fin 2 => t.val) (initial 2) Client
      (run (program fun t : Fin 2 => t.val) (initial 2) nestedThenTry) :=
    .of_allows .init (by decide +kernel)
  have h := recursive_lock (fun t u h => Fin.ext h) (by decide) hs
  exact ⟨h.2.1 left (by decide +kernel) (by decide +kernel),
    h.2.2.1 left (by decide +kernel) (by decide +kernel)⟩

end Recursive

namespace Plain

/-- The next access of a thread to the lock word. All three functions make a single kind of access
each. -/
inductive Pc where
  /-- Outside the lock functions. -/
  | outside
  /-- `_lock_acquire`: `atom.xchg` with `swapval`, repeated while it reads zero. -/
  | acq (swapval : ℕ)
  /-- `_lock_try_acquire`: `atom.xchg` with 1. -/
  | tryAcq
  /-- `_lock_release`: `global_store` of 0. -/
  | rel
  deriving DecidableEq

/-- A thread: its next access and whether it holds the lock, as the returns of the functions tell
it. -/
structure Local where
  /-- The next access. -/
  pc : Pc
  /-- Between a returned acquire and the return of the release. -/
  holds : Bool
  deriving DecidableEq

/-- What a thread outside the lock functions does next, among the functions of the plain lock. -/
inductive Choice where
  /-- Nothing. -/
  | stay
  /-- `_lock_acquire`. -/
  | acquire
  /-- `_lock_try_acquire`. -/
  | tryAcquire
  /-- `_lock_release`. -/
  | release
  deriving DecidableEq

/-- Returns of the lock functions, with the result of a try. -/
inductive Event (n : ℕ) where
  /-- `_lock_acquire` returned. -/
  | acquired (t : Fin n)
  /-- `_lock_try_acquire` returned 1 or 0. -/
  | tried (t : Fin n) (success : Bool)
  /-- `_lock_release` returned. -/
  | released (t : Fin n)
  deriving DecidableEq

/-- The access of a thread. -/
def access : Pc → Access Unit
  | .outside => .skip
  | .acq swapval => exchange () swapval
  | .tryAcq => exchange () 1
  | .rel => .store () 0

/-- The first access of a call, which is the only one but for the loop of the acquire. -/
def callPc : Choice → Pc
  | .stay => .outside
  | .acquire => .acq 1
  | .tryAcquire => .tryAcq
  | .release => .rel

/-- The local state after an access. The register of `_lock_acquire` keeps what it read, and
`beq` branches back on zero. -/
def next (l : Local) (choice : Choice) (r : ℕ) : Local :=
  match l.pc with
  | .outside => ⟨callPc choice,l.holds⟩
  | .acq _ => if r=0 then ⟨.acq r,l.holds⟩ else ⟨.outside,true⟩
  | .tryAcq => ⟨.outside,if r=0 then true else l.holds⟩
  | .rel => ⟨.outside,false⟩

/-- The event of a step. -/
def emit {n : ℕ} (t : Fin n) (pc : Pc) (r : ℕ) : Option (Event n) :=
  match pc with
  | .outside => none
  | .acq _ => if r=0 then none else some (.acquired t)
  | .tryAcq => some (.tried t (decide (r=0)))
  | .rel => some (.released t)

/-- Any number of threads on one `_LOCK_T`. Their numbers do not matter to it. -/
def program (n : ℕ) : Program (Fin n) Unit Local Choice (Event n) where
  access _ l := access l.pc
  next _ l choice r := next l choice r
  emit t l _ r := emit t l.pc r

/-- States of the threads and the lock word. -/
abbrev PState (n : ℕ) := State (Fin n) Unit Local (Event n)

/-- Turns of the threads. -/
abbrev PTurn (n : ℕ) := Turn (Fin n) Choice

/-- The state after `_lock_init`, with every thread outside. -/
def initial (n : ℕ) : PState n := ⟨fun _ => 0,fun _ => none,fun _ => ⟨.outside,false⟩,[]⟩

/-- Threads release only what they hold, and no thread calls `_lock_acquire`. The try-acquire and
the release are the parts of the lock that work. -/
structure TryOnly {n : ℕ} (s : PState n) (turn : PTurn n) : Prop where
  /-- A release is called by a thread that holds the lock. -/
  holds : (s.pc turn.thread).pc=.outside → turn.choice=.release → (s.pc turn.thread).holds=true
  /-- The blocking acquire is not called. -/
  tries : (s.pc turn.thread).pc=.outside → turn.choice≠.acquire

instance {n : ℕ} (s : PState n) (turn : PTurn n) : Decidable (TryOnly s turn) :=
  decidable_of_iff
    (((s.pc turn.thread).pc=.outside → turn.choice=.release → (s.pc turn.thread).holds=true) ∧
      ((s.pc turn.thread).pc=.outside → turn.choice≠.acquire))
    ⟨fun h => ⟨h.1,h.2⟩,fun h => ⟨h.holds,h.tries⟩⟩

variable {n : ℕ}

/-- The lock word and the holder, as long as nobody calls the blocking acquire: at most one thread
holds the lock, and the word shows that it does. -/
structure LockInv (s : PState n) : Prop where
  /-- The blocking acquire is not in use. -/
  tries : ∀ t v, (s.pc t).pc≠.acq v
  /-- A thread in the release holds the lock. -/
  rel : ∀ t, (s.pc t).pc=.rel → (s.pc t).holds=true
  /-- A held lock is not zero. -/
  word : ∀ t, (s.pc t).holds=true → s.word ()≠0
  /-- One thread holds the lock. -/
  single : ∀ t u, (s.pc t).holds=true → (s.pc u).holds=true → t=u

/-- The lock after its initialisation. -/
theorem lockInv_initial : LockInv (initial n) where
  tries _ _ h := by cases h
  rel _ h := by cases h
  word _ h := by cases h
  single _ _ h := by cases h

/-- A turn of the try-acquire and the release keeps the lock. -/
theorem lockInv_step {s : PState n} {turn : PTurn n} (h : LockInv s) (ok : TryOnly s turn) :
    LockInv (step (program n) s turn) := by
  have hother : ∀ u, u≠turn.thread → (step (program n) s turn).pc u=s.pc u := fun u hu =>
    step_pc_other (program n) s turn hu
  have hholds := ok.holds
  have htries := ok.tries
  have hrel := h.rel turn.thread
  have hnoacq := h.tries turn.thread
  cases hl : s.pc turn.thread with
  | mk pc holds =>
    obtain ⟨hpc,hword,-⟩ := step_at (program n) s turn hl
    rw [hl] at hholds htries hrel hnoacq
    cases pc with
    | outside =>
      change (step (program n) s turn).pc turn.thread=⟨callPc turn.choice,holds⟩ at hpc
      change (step (program n) s turn).word=s.word at hword
      have hsame : ∀ u, ((step (program n) s turn).pc u).holds=(s.pc u).holds := by
        intro u
        by_cases hu : u=turn.thread
        · rw [hu,hpc,hl]
        · rw [hother u hu]
      refine ⟨?_,?_,?_,?_⟩
      · intro u v
        by_cases hu : u=turn.thread
        · rw [hu,hpc]
          cases hc : turn.choice with
          | acquire => exact absurd hc (htries rfl)
          | _ => exact fun h => by cases h
        · rw [hother u hu]
          exact h.tries u v
      · intro u hu
        by_cases hut : u=turn.thread
        · rw [hut,hpc] at hu ⊢
          cases hc : turn.choice with
          | release => exact hholds rfl hc
          | _ =>
            rw [hc] at hu
            cases hu
        · rw [hother u hut] at hu ⊢
          exact h.rel u hu
      · intro u hu
        rw [hsame u] at hu
        rw [hword]
        exact h.word u hu
      · intro u v hu hv
        rw [hsame u] at hu
        rw [hsame v] at hv
        exact h.single u v hu hv
    | acq v => exact absurd rfl (hnoacq v)
    | tryAcq =>
      change (step (program n) s turn).pc turn.thread=
        ⟨.outside,if s.word ()=0 then true else holds⟩ at hpc
      have hw : (step (program n) s turn).word ()=1 := by
        rw [hword]
        exact applyWrite_self
      -- a lock word of zero means that no thread held the lock
      have hnew : ∀ u, ((step (program n) s turn).pc u).holds=true →
          (s.pc u).holds=true ∨ (u=turn.thread ∧ s.word ()=0) := by
        intro u hu
        by_cases hut : u=turn.thread
        · rw [hut,hpc] at hu
          rw [hut,hl]
          by_cases hz : s.word ()=0
          · exact .inr ⟨rfl,hz⟩
          · simp only [hz,if_false] at hu
            exact .inl hu
        · rw [hother u hut] at hu
          exact .inl hu
      refine ⟨?_,?_,?_,?_⟩
      · intro u v
        by_cases hu : u=turn.thread
        · rw [hu,hpc]
          exact fun h => by cases h
        · rw [hother u hu]
          exact h.tries u v
      · intro u hu
        by_cases hut : u=turn.thread
        · rw [hut,hpc] at hu
          cases hu
        · rw [hother u hut] at hu ⊢
          exact h.rel u hu
      · intro u _
        rw [hw]
        exact Nat.one_ne_zero
      · intro u v hu hv
        rcases hnew u hu with hu|⟨hu,hz⟩ <;> rcases hnew v hv with hv|⟨hv,hz'⟩
        · exact h.single u v hu hv
        · exact absurd hz' (h.word u hu)
        · exact absurd hz (h.word v hv)
        · rw [hu,hv]
    | rel =>
      change (step (program n) s turn).pc turn.thread=⟨.outside,false⟩ at hpc
      have hmine : (s.pc turn.thread).holds=true := by
        rw [hl]
        exact hrel rfl
      have hnone : ∀ u, ((step (program n) s turn).pc u).holds≠true := by
        intro u hu
        by_cases hut : u=turn.thread
        · rw [hut,hpc] at hu
          cases hu
        · rw [hother u hut] at hu
          exact hut (h.single u turn.thread hu hmine)
      refine ⟨?_,?_,fun u hu => absurd hu (hnone u),fun u v hu => absurd hu (hnone u)⟩
      · intro u v
        by_cases hu : u=turn.thread
        · rw [hu,hpc]
          exact fun h => by cases h
        · rw [hother u hu]
          exact h.tries u v
      · intro u hu
        by_cases hut : u=turn.thread
        · rw [hut,hpc] at hu
          cases hu
        · rw [hother u hut] at hu ⊢
          exact h.rel u hu

/-- A call of `_lock_acquire` by thread `t` and its two exchanges on a free lock. The first reads
zero, and so the loop goes on. -/
def acquireAlone (t : Fin n) (lose : Bool) : List (PTurn n) :=
  [⟨t,.acquire,lose⟩,⟨t,.stay,lose⟩,⟨t,.stay,lose⟩]

/-- `_lock_acquire` of a free lock by a single thread returns and leaves the word zero: the exchange
that takes the lock is followed by one that gives it back. -/
theorem acquire_leaves_zero {s : PState n} {t : Fin n} {holds : Bool}
    (ht : s.pc t=⟨.outside,holds⟩) (hz : s.word ()=0) (lose : Bool) :
    (run (program n) s (acquireAlone t lose)).pc t=⟨.outside,true⟩ ∧
    (run (program n) s (acquireAlone t lose)).word ()=0 := by
  simp only [acquireAlone,run]
  obtain ⟨hpc1,hword1,-⟩ := step_at (program n) s ⟨t,.acquire,lose⟩ ht
  change (step (program n) s ⟨t,.acquire,lose⟩).pc t=⟨.acq 1,holds⟩ at hpc1
  change (step (program n) s ⟨t,.acquire,lose⟩).word=s.word at hword1
  generalize step (program n) s ⟨t,.acquire,lose⟩=s1 at hpc1 hword1 ⊢
  have hz1 : s1.word ()=0 := by rw [hword1,hz]
  -- the first exchange reads zero, so the register that is stored next is zero
  obtain ⟨hpc2,hword2,-⟩ := step_at (program n) s1 ⟨t,.stay,lose⟩ hpc1
  change (step (program n) s1 ⟨t,.stay,lose⟩).pc t=
    (if s1.word ()=0 then ⟨.acq (s1.word ()),holds⟩ else ⟨.outside,true⟩) at hpc2
  change (step (program n) s1 ⟨t,.stay,lose⟩).word=applyWrite s1.word (some ((),1)) at hword2
  rw [if_pos hz1,hz1] at hpc2
  generalize step (program n) s1 ⟨t,.stay,lose⟩=s2 at hpc2 hword2 ⊢
  have hone : s2.word ()=1 := by
    rw [hword2]
    exact applyWrite_self
  obtain ⟨hpc3,hword3,-⟩ := step_at (program n) s2 ⟨t,.stay,lose⟩ hpc2
  change (step (program n) s2 ⟨t,.stay,lose⟩).pc t=
    (if s2.word ()=0 then ⟨.acq (s2.word ()),holds⟩ else ⟨.outside,true⟩) at hpc3
  change (step (program n) s2 ⟨t,.stay,lose⟩).word=applyWrite s2.word (some ((),0)) at hword3
  rw [if_neg (by omega)] at hpc3
  refine ⟨hpc3,?_⟩
  rw [hword3]
  exact applyWrite_self

/-- Without calls of `_lock_acquire` at most one thread holds the lock in every reached state;
a call of `_lock_acquire` on a free lock by a single thread always leaves the word zero. -/
theorem plain_lock_try_only :
    (∀ s : PState n, Reachable (program n) (initial n) TryOnly s →
      ∀ t u, (s.pc t).holds=true → (s.pc u).holds=true → t=u) ∧
    ∀ (s : PState n) t holds lose, s.pc t=⟨.outside,holds⟩ → s.word ()=0 →
      (run (program n) s (acquireAlone t lose)).pc t=⟨.outside,true⟩ ∧
      (run (program n) s (acquireAlone t lose)).word ()=0 := by
  refine ⟨?_,?_⟩
  · intro s hs
    exact (Reachable.invariant lockInv_initial (fun _ _ _ ok h => lockInv_step h ok) hs).single
  · intro s t holds lose ht hz
    exact acquire_leaves_zero ht hz lose

/-- Thread 0 gets the lock and thread 1 finds it taken; after the release thread 1 gets it. -/
def tryTurns : List (PTurn 2) :=
  [⟨left,.tryAcquire,false⟩,⟨left,.stay,false⟩,⟨right,.tryAcquire,false⟩,⟨right,.stay,false⟩,
    ⟨left,.release,false⟩,⟨left,.stay,false⟩,⟨right,.tryAcquire,false⟩,⟨right,.stay,false⟩]

/-- Thread 1 holds the lock in the end, and it alone; and `_lock_acquire` leaves the word of a free
lock zero. -/
theorem plain_lock_try_only_two :
    ((run (program 2) (initial 2) tryTurns).pc right).holds=true ∧
    (∀ t, ((run (program 2) (initial 2) tryTurns).pc t).holds=true → t=right) ∧
    (run (program 2) (initial 2) (acquireAlone left false)).word ()=0 := by
  have hs : Reachable (program 2) (initial 2) TryOnly
      (run (program 2) (initial 2) tryTurns) := .of_allows .init (by decide)
  have hright : ((run (program 2) (initial 2) tryTurns).pc right).holds=true := by decide
  refine ⟨hright,fun t ht => plain_lock_try_only.1 _ hs t right ht hright,?_⟩
  exact (plain_lock_try_only.2 (initial 2) left false false rfl rfl).2

/-- Both threads acquire the free lock one after the other and hold it together, and the word
is zero after each acquire. -/
theorem plain_lock_shared :
    ((run (program 2) (initial 2) (acquireAlone left false)).word ()=0 ∧
      ((run (program 2) (initial 2) (acquireAlone left false)).pc left).holds=true) ∧
    ((run (program 2) (initial 2) (acquireAlone left false++acquireAlone right false)).pc
      left).holds=true ∧
    ((run (program 2) (initial 2) (acquireAlone left false++acquireAlone right false)).pc
      right).holds=true := by
  decide

end Plain

end RigelTarget.NewlibLock
