import RigelTarget.RigelAtomics
import RigelTarget.ReentrantLock
import Mathlib.Data.Fintype.Basic

/-!
# The mutexes of libpthread

A `pthread_mutex_t` has the words `__lock`, `__count` and `__owner` and one of three
kinds. `pthread_mutex_lock`, `pthread_mutex_trylock` and `pthread_mutex_unlock` are run
by any number of threads, one access to a shared word at a time, with their return
codes. The normal and the error checking kind are held through `__lock` alone. The
recursive kind is a reentrant lock of `__owner` and `__count` as long as no thread takes
the mutex through `__lock`, which the holder does not look at.
-/

namespace RigelTarget.PthreadMutex

open SharedMemory RigelAtomics

/-- Words of a `pthread_mutex_t`. Which of them a call uses depends on the type of the mutex. -/
inductive Loc where
  /-- `__lock`. -/
  | lock
  /-- `__count`. -/
  | count
  /-- `__owner`. -/
  | owner
  deriving DecidableEq

/-- Types of a mutex, which differ in what they ask before the swap on `__lock`. -/
inductive Kind where
  /-- `PTHREAD_MUTEX_NORMAL`. -/
  | normal
  /-- `PTHREAD_MUTEX_ERRORCHECK`. -/
  | errorcheck
  /-- `PTHREAD_MUTEX_RECURSIVE`. -/
  | recursive
  deriving DecidableEq

/-- Return codes, all but the first negated as in the source. -/
inductive Code where
  /-- `0`. -/
  | ok
  /-- `-EPERM`. -/
  | eperm
  /-- `-EBUSY`. -/
  | ebusy
  /-- `-EINVAL`. -/
  | einval
  /-- `-EDEADLK`. -/
  | edeadlk
  deriving DecidableEq

/-- `__PTHREAD_MUTEX_GETTYPE` of the word `__kind`, for the three types. The accesses of a call
depend on it. -/
def getType (kind : ℕ) : Option Kind :=
  match kind%4 with
  | 0 => some .normal
  | 1 => some .errorcheck
  | 2 => some .recursive
  | _ => none

/-- The words that `pthread_mutex_init` leaves: each kind falls through to the next, and so makes
the stores of that one as well. -/
def initWord (kind : Kind) (before : Loc → ℕ) : Loc → ℕ
  | .lock => 0
  | .count => if kind=.recursive then 0 else before .count
  | .owner => if kind=.normal then before .owner else minusOne

/-- `pthread_mutex_init` with an attribute word or none. Bit 15 marks an initialised
attribute. -/
def pthreadMutexInit (a : Option ℕ) (before : Loc → ℕ) : Except Code (Kind×(Loc → ℕ)) :=
  let kind := match a with
    | none => some (2^15)
    | some align => if align.testBit 15=true then some align else none
  match kind.bind getType with
  | some kind => .ok (kind,initWord kind before)
  | none => .error .einval

/-- The calls on a mutex. -/
inductive Call where
  /-- `pthread_mutex_lock`. -/
  | lock
  /-- `pthread_mutex_trylock`. -/
  | trylock
  /-- `pthread_mutex_unlock`. -/
  | unlock
  deriving DecidableEq

/-- The next access of a thread. The accesses of `pthread_mutex_trylock` are those of
`pthread_mutex_lock` with `trying` set. -/
inductive Pc where
  /-- Outside the mutex functions. -/
  | outside
  /-- `compare_and_swap` of the count from 0 to 1. -/
  | cas (trying : Bool)
  /-- `global_store` of the owner after the count was taken. -/
  | casStore (trying : Bool)
  /-- `global_load` of the owner. -/
  | loadOwner (trying : Bool)
  /-- `atomic_inc` of the count by the owner. -/
  | inc (trying : Bool)
  /-- `swap` of 1 into `__lock`. -/
  | swap (trying : Bool)
  /-- `global_store` of the owner after `__lock` was taken. -/
  | storeOwner (trying : Bool)
  /-- `pthread_mutex_unlock`: `global_load` of the owner. -/
  | unlockLoad
  /-- `global_load` of the count. -/
  | loadCount
  /-- `global_store` that clears the owner. -/
  | clearOwner
  /-- `global_store` of 0 into `__lock`. -/
  | storeLock
  /-- `atomic_dec` of the count. -/
  | dec
  deriving DecidableEq

/-- What follows an access: the next access, or the return of the call with its code. -/
inductive Flow where
  /-- The call goes on. -/
  | goto (pc : Pc)
  /-- The call returns. -/
  | ret (code : Code)
  deriving DecidableEq

/-- A thread: its next access and the successful locks it has not successfully unlocked. The depth
is kept for the claims; the code does not know it. -/
structure Local where
  /-- The next access. -/
  pc : Pc
  /-- Nesting depth. -/
  depth : ℕ
  deriving DecidableEq

/-- A call returned. -/
structure Event (n : ℕ) where
  /-- The caller. -/
  thread : Fin n
  /-- The function. -/
  call : Call
  /-- Its return code. -/
  code : Code
  deriving DecidableEq

section Steps

variable {n : ℕ} (kind : Kind) (tid : Fin n → ℕ)

/-- The access of a thread. The error checking kind clears the owner with 0, the recursive
kind with `-1`. -/
def access (t : Fin n) : Pc → Access Loc
  | .outside => .skip
  | .cas _ => compareAndSwap .count 0 1
  | .casStore _ => .store .owner (tid t)
  | .loadOwner _ => .load .owner
  | .inc _ => atomicInc .count
  | .swap _ => exchange .lock 1
  | .storeOwner _ => .store .owner (tid t)
  | .unlockLoad => .load .owner
  | .loadCount => .load .count
  | .clearOwner => .store .owner (if kind=.errorcheck then 0 else minusOne)
  | .storeLock => .store .lock 0
  | .dec => atomicDec .count

/-- The first access of a call. -/
def callPc : Call → Pc
  | .unlock => if kind=.normal then .storeLock else .unlockLoad
  | call => match kind with
    | .normal => .swap (decide (call=.trylock))
    | .errorcheck => .loadOwner (decide (call=.trylock))
    | .recursive => .cas (decide (call=.trylock))

/-- The code of a recursive lock that used the count: `pthread_mutex_trylock` leaves its
`switch` by `break`. -/
def countCode (trying : Bool) : Code := if trying=true then .einval else .ok

/-- What follows the access of a call, for each kind of mutex: the branches of `pthread_mutex_lock`,
`pthread_mutex_trylock` and `pthread_mutex_unlock`. -/
def flow (t : Fin n) (pc : Pc) (r : ℕ) : Flow :=
  match pc with
  | .outside => .goto .outside
  | .cas trying => .goto (if r=0 then .casStore trying else .loadOwner trying)
  | .casStore trying => .ret (countCode trying)
  | .loadOwner trying =>
    if r=tid t then if kind=.recursive then .goto (.inc trying) else .ret .edeadlk
    else .goto (.swap trying)
  | .inc trying => .ret (countCode trying)
  | .swap trying =>
    if r=0 then if kind=.normal then .ret .ok else .goto (.storeOwner trying)
    else if trying=true then .ret .ebusy else .goto (.swap trying)
  | .storeOwner _ => .ret .ok
  | .unlockLoad =>
    if kind=.recursive then if r=tid t then .goto .loadCount else .ret .eperm
    else if r=tid t then .ret .eperm else .goto .clearOwner
  | .loadCount => .goto (if r=1 then .clearOwner else .dec)
  | .clearOwner => .goto (if kind=.recursive then .dec else .storeLock)
  | .storeLock => .ret .ok
  | .dec => .ret .ok

/-- The call that an access belongs to. `pthread_mutex_trylock` shares its accesses with
`pthread_mutex_lock`, with a flag that says which one it is. -/
def callOf : Pc → Call
  | .cas trying => if trying=true then .trylock else .lock
  | .casStore trying => if trying=true then .trylock else .lock
  | .loadOwner trying => if trying=true then .trylock else .lock
  | .inc trying => if trying=true then .trylock else .lock
  | .swap trying => if trying=true then .trylock else .lock
  | .storeOwner trying => if trying=true then .trylock else .lock
  | _ => .unlock

/-- The nesting depth after a return. -/
def returnDepth (call : Call) (code : Code) (depth : ℕ) : ℕ :=
  if code=.ok then if call=.unlock then depth-1 else depth+1 else depth

/-- The local state after an access, or after a call is chosen outside. When a call returns, the
depth changes as its code says. -/
def next (t : Fin n) (l : Local) (choice : Option Call) (r : ℕ) : Local :=
  if l.pc=.outside then
    match choice with
    | none => l
    | some call => ⟨callPc kind call,l.depth⟩
  else match flow kind tid t l.pc r with
    | .goto pc => ⟨pc,l.depth⟩
    | .ret code => ⟨.outside,returnDepth (callOf l.pc) code l.depth⟩

/-- The event of a step. -/
def emit (t : Fin n) (l : Local) (r : ℕ) : Option (Event n) :=
  match flow kind tid t l.pc r with
  | .goto _ => none
  | .ret code => some ⟨t,callOf l.pc,code⟩

/-- Threads with the numbers `tid` on one mutex; a thread outside may choose a call. -/
def program : Program (Fin n) Loc Local (Option Call) (Event n) where
  access t l := access kind tid t l.pc
  next t l choice r := next kind tid t l choice r
  emit t l _ r := emit kind tid t l r

end Steps

/-- States of the threads and the mutex. -/
abbrev MState (n : ℕ) := State (Fin n) Loc Local (Event n)

/-- Turns of the threads. -/
abbrev MTurn (n : ℕ) := Turn (Fin n) (Option Call)

/-- The mutex has these words and every thread is outside. -/
def initial (n : ℕ) (word : Loc → ℕ) : MState n := ⟨word,fun _ => none,fun _ => ⟨.outside,0⟩,[]⟩

/-- A thread unlocks only what it holds. -/
def Client {n : ℕ} (s : MState n) (turn : MTurn n) : Prop :=
  (s.pc turn.thread).pc=.outside → turn.choice=some .unlock → 0<(s.pc turn.thread).depth

/-- The swap on `__lock` does not find zero, and the count does not wrap. A recursive mutex that is
held this way is held through `__count`, and the swap is what lets a second thread in. -/
structure ThroughCount {n : ℕ} (s : MState n) (turn : MTurn n) : Prop where
  /-- `__lock` is not taken. -/
  lock : ∀ trying, (s.pc turn.thread).pc=.swap trying → s.word .lock≠0
  /-- The count is not at its largest value when it is incremented. -/
  count : ∀ trying, (s.pc turn.thread).pc=.inc trying → s.word .count≠minusOne

/-- The turns under which one thread at a time holds the mutex: clients unlock what they hold, and
for the recursive kind the swap takes nothing. -/
def Allowed {n : ℕ} (kind : Kind) (s : MState n) (turn : MTurn n) : Prop :=
  Client s turn ∧ (kind=.recursive → ThroughCount s turn)

instance {n : ℕ} (s : MState n) (turn : MTurn n) : Decidable (Client s turn) :=
  inferInstanceAs (Decidable ((s.pc turn.thread).pc=.outside → turn.choice=some .unlock →
    0<(s.pc turn.thread).depth))

instance {n : ℕ} (s : MState n) (turn : MTurn n) : Decidable (ThroughCount s turn) :=
  decidable_of_iff ((∀ trying, (s.pc turn.thread).pc=.swap trying → s.word .lock≠0) ∧
      ∀ trying, (s.pc turn.thread).pc=.inc trying → s.word .count≠minusOne)
    ⟨fun h => ⟨h.1,h.2⟩,fun h => ⟨h.lock,h.count⟩⟩

instance {n : ℕ} (kind : Kind) (s : MState n) (turn : MTurn n) : Decidable (Allowed kind s turn) :=
  inferInstanceAs (Decidable (Client s turn ∧ (kind=.recursive → ThroughCount s turn)))

variable {n : ℕ} {kind : Kind} {tid : Fin n → ℕ}

/-- `pthread_mutex_init` sets the words of the kind that it accepts. -/
theorem pthreadMutexInit_word {a : Option ℕ} {before word : Loc → ℕ}
    (h : pthreadMutexInit a before=.ok (kind,word)) : word=initWord kind before := by
  unfold pthreadMutexInit at h
  dsimp only at h
  split at h
  · cases h
    rfl
  · cases h

/-- A turn of a thread inside a call follows the flow of the call. -/
theorem next_goto (pc' : Pc) {t : Fin n} {pc : Pc} {depth r : ℕ} {choice : Option Call}
    (hpc : pc≠.outside) (hflow : flow kind tid t pc r=.goto pc') :
    next kind tid t ⟨pc,depth⟩ choice r=⟨pc',depth⟩ := by
  unfold next
  rw [if_neg hpc]
  simp only [hflow]

/-- A turn of a thread inside a call that returns. -/
theorem next_ret (code : Code) {t : Fin n} {pc : Pc} {depth r : ℕ} {choice : Option Call}
    (hpc : pc≠.outside) (hflow : flow kind tid t pc r=.ret code) :
    next kind tid t ⟨pc,depth⟩ choice r=⟨.outside,returnDepth (callOf pc) code depth⟩ := by
  unfold next
  rw [if_neg hpc]
  simp only [hflow]

section Swap

/-- The thread has taken `__lock`: it holds the mutex, or it is about to store itself as the
owner. -/
def Inside (l : Local) : Prop := 0<l.depth ∨ ∃ trying, l.pc=.storeOwner trying

/-- The accesses of the normal and the error checking kind, with the depth at each. They never touch
`__count`. -/
def SwapPc (kind : Kind) (l : Local) : Prop :=
  match l.pc with
  | .outside => True
  | .loadOwner _ => kind=.errorcheck
  | .swap _ => True
  | .storeOwner _ => kind=.errorcheck ∧ l.depth=0
  | .unlockLoad => kind=.errorcheck ∧ 0<l.depth
  | .storeLock => kind=.normal ∧ 0<l.depth
  | _ => False

/-- A mutex that is held through `__lock`: the word is not zero while a thread has taken it, and at
most one has. -/
structure SwapInv (kind : Kind) (tid : Fin n → ℕ) (s : MState n) : Prop where
  /-- One thread has taken `__lock`. -/
  single : ∀ t u, Inside (s.pc t) → Inside (s.pc u) → t=u
  /-- A taken `__lock` is not zero. -/
  taken : ∀ t, Inside (s.pc t) → s.word .lock≠0
  /-- The mutex does not nest. -/
  shallow : ∀ t, (s.pc t).depth≤1
  /-- The accesses are those of the kind. -/
  pcs : ∀ t, SwapPc kind (s.pc t)
  /-- The holder of an error checking mutex is its owner. -/
  owner : kind=.errorcheck → ∀ t, 0<(s.pc t).depth → s.word .owner=tid t

/-- The mutex after its initialisation. -/
theorem swapInv_initial (word : Loc → ℕ) : SwapInv kind tid (initial n word) where
  single _ _ h := by
    rcases h with h|⟨_,h⟩ <;> cases h
  taken _ h := by
    rcases h with h|⟨_,h⟩ <;> cases h
  shallow _ := Nat.zero_le 1
  pcs _ := trivial
  owner _ _ h := by cases h

variable {s s' : MState n} {t : Fin n}

/-- A step of a thread after which no other thread has taken `__lock`. This covers taking the free
lock and releasing it. -/
theorem SwapInv.alone (h : SwapInv kind tid s) (hother : ∀ u, u≠t → s'.pc u=s.pc u)
    (halone : ∀ u, u≠t → ¬Inside (s.pc u)) (hpc : SwapPc kind (s'.pc t))
    (hdepth : (s'.pc t).depth≤1) (hlock : Inside (s'.pc t) → s'.word .lock≠0)
    (howner : kind=.errorcheck → 0<(s'.pc t).depth → s'.word .owner=tid t) :
    SwapInv kind tid s' := by
  have honly : ∀ u, Inside (s'.pc u) → u=t := by
    intro u hu
    by_contra hut
    rw [hother u hut] at hu
    exact halone u hut hu
  refine ⟨?_,?_,?_,?_,?_⟩
  · intro u v hu hv
    rw [honly u hu,honly v hv]
  · intro u hu
    have hut := honly u hu
    rw [hut] at hu
    exact hlock hu
  · intro u
    by_cases hut : u=t
    · rw [hut]
      exact hdepth
    · rw [hother u hut]
      exact h.shallow u
  · intro u
    by_cases hut : u=t
    · rw [hut]
      exact hpc
    · rw [hother u hut]
      exact h.pcs u
  · intro hk u hu
    have hut := honly u (.inl hu)
    rw [hut] at hu ⊢
    exact howner hk hu

/-- A step of a thread that neither takes nor releases `__lock`. Owner and word stay with their
thread. -/
theorem SwapInv.same (h : SwapInv kind tid s) (hother : ∀ u, u≠t → s'.pc u=s.pc u)
    (hpc : SwapPc kind (s'.pc t)) (hdepth : (s'.pc t).depth=(s.pc t).depth)
    (hinside : Inside (s'.pc t) → Inside (s.pc t))
    (hlock : s.word .lock≠0 → s'.word .lock≠0) (howner : s'.word .owner=s.word .owner) :
    SwapInv kind tid s' := by
  have hin : ∀ u, Inside (s'.pc u) → Inside (s.pc u) := by
    intro u hu
    by_cases hut : u=t
    · rw [hut] at hu ⊢
      exact hinside hu
    · rw [hother u hut] at hu
      exact hu
  have hdep : ∀ u, (s'.pc u).depth=(s.pc u).depth := by
    intro u
    by_cases hut : u=t
    · rw [hut]
      exact hdepth
    · rw [hother u hut]
  refine ⟨?_,?_,?_,?_,?_⟩
  · intro u v hu hv
    exact h.single u v (hin u hu) (hin v hv)
  · intro u hu
    exact hlock (h.taken u (hin u hu))
  · intro u
    rw [hdep u]
    exact h.shallow u
  · intro u
    by_cases hut : u=t
    · rw [hut]
      exact hpc
    · rw [hother u hut]
      exact h.pcs u
  · intro hk u hu
    rw [hdep u] at hu
    rw [howner]
    exact h.owner hk u hu

/-- A thread that is not at the store of the owner is inside by its depth. -/
theorem inside_depth {pc : Pc} {depth : ℕ} (h : Inside ⟨pc,depth⟩) (hpc : ∀ b, pc≠.storeOwner b) :
    0<depth := by
  rcases h with h|⟨b,h⟩
  · exact h
  · exact absurd h (hpc b)

/-- The first access of a call on a normal or an error checking mutex. -/
theorem swapPc_call {call : Call} {depth : ℕ} (hk : kind≠.recursive)
    (hd : call=.unlock → 0<depth) : SwapPc kind ⟨callPc kind call,depth⟩ ∧
      ∀ b, callPc kind call≠.storeOwner b := by
  cases call with
  | unlock =>
    have hpos := hd rfl
    cases kind with
    | recursive => exact absurd rfl hk
    | normal => exact ⟨⟨rfl,hpos⟩,fun b h => by cases h⟩
    | errorcheck => exact ⟨⟨rfl,hpos⟩,fun b h => by cases h⟩
  | lock =>
    cases kind with
    | recursive => exact absurd rfl hk
    | normal => exact ⟨trivial,fun b h => by cases h⟩
    | errorcheck => exact ⟨rfl,fun b h => by cases h⟩
  | trylock =>
    cases kind with
    | recursive => exact absurd rfl hk
    | normal => exact ⟨trivial,fun b h => by cases h⟩
    | errorcheck => exact ⟨rfl,fun b h => by cases h⟩

/-- One turn on a normal or an error checking mutex keeps the invariant. The swap returns zero to
one thread only until it stores zero again. -/
theorem swapInv_step (hk : kind≠.recursive) {turn : MTurn n} (h : SwapInv kind tid s)
    (ok : Client s turn) : SwapInv kind tid (step (program kind tid) s turn) := by
  have hother : ∀ u, u≠turn.thread → (step (program kind tid) s turn).pc u=s.pc u := fun u hu =>
    step_pc_other (program kind tid) s turn hu
  have hsw := h.pcs turn.thread
  have hcall := ok
  unfold Client at hcall
  cases hl : s.pc turn.thread with
  | mk pc depth =>
    obtain ⟨hpc,hword,-⟩ := step_at (program kind tid) s turn hl
    rw [hl] at hsw hcall
    generalize step (program kind tid) s turn=s' at hother hpc hword ⊢
    have hshallow : depth≤1 := by
      have h1 := h.shallow turn.thread
      rw [hl] at h1
      exact h1
    -- a thread that finds `__lock` zero is the only one at it
    have hfree : s.word .lock=0 → ∀ u, ¬Inside (s.pc u) := fun hz u hu => h.taken u hu hz
    have hmine : 0<depth → ∀ u, u≠turn.thread → ¬Inside (s.pc u) := fun hd u hu hin =>
      hu (h.single u turn.thread hin (by rw [hl]; exact .inl hd))
    cases pc with
    | outside =>
      change s'.word=s.word at hword
      cases hc : turn.choice with
      | none =>
        rw [hc] at hpc
        change s'.pc turn.thread=⟨.outside,depth⟩ at hpc
        refine h.same hother (by rw [hpc]; exact trivial) (by rw [hpc,hl]) ?_
          (fun hne => by rw [hword]; exact hne) (by rw [hword])
        rw [hpc,hl]
        exact id
      | some call =>
        rw [hc] at hpc hcall
        change s'.pc turn.thread=⟨callPc kind call,depth⟩ at hpc
        have hunlock : call=.unlock → 0<depth := fun hu => hcall rfl (by rw [hu])
        obtain ⟨hnew,hnot⟩ := swapPc_call hk hunlock
        refine h.same hother (by rw [hpc]; exact hnew) (by rw [hpc,hl]) ?_
          (fun hne => by rw [hword]; exact hne) (by rw [hword])
        rw [hpc,hl]
        exact fun hin => .inl (inside_depth hin hnot)
    | loadOwner b =>
      change s'.word=s.word at hword
      change kind=.errorcheck at hsw
      change s'.pc turn.thread=next kind tid turn.thread ⟨.loadOwner b,depth⟩ turn.choice
        (s.word .owner) at hpc
      have hstay : (s'.pc turn.thread=⟨.outside,depth⟩ ∨ s'.pc turn.thread=⟨.swap b,depth⟩) := by
        by_cases ho : s.word .owner=tid turn.thread
        · rw [next_ret .edeadlk (fun h => by cases h)
            (by simp only [flow,if_pos ho,if_neg hk])] at hpc
          exact .inl hpc
        · rw [next_goto (.swap b) (fun h => by cases h)
            (by simp only [flow,if_neg ho])] at hpc
          exact .inr hpc
      refine h.same hother ?_ ?_ ?_ (fun hne => by rw [hword]; exact hne) (by rw [hword])
      · rcases hstay with hpc|hpc <;> rw [hpc] <;> trivial
      · rcases hstay with hpc|hpc <;> rw [hpc,hl]
      · rw [hl]
        rcases hstay with hpc|hpc <;> rw [hpc] <;>
          exact fun hin => .inl (inside_depth hin fun _ h => by cases h)
    | swap b =>
      change s'.word=applyWrite s.word (some (.lock,1)) at hword
      change s'.pc turn.thread=next kind tid turn.thread ⟨.swap b,depth⟩ turn.choice
        (s.word .lock) at hpc
      have hlock : s'.word .lock=1 := by
        rw [hword]
        exact applyWrite_self
      have howner : s'.word .owner=s.word .owner := by
        rw [hword]
        exact applyWrite_keep (fun v he => by cases he)
      by_cases hz : s.word .lock=0
      · have hzero : depth=0 := by
          by_contra hd
          exact hfree hz turn.thread (by rw [hl]; exact .inl (Nat.pos_of_ne_zero hd))
        by_cases hn : kind=.normal
        · rw [next_ret .ok (fun h => by cases h)
            (by simp only [flow,if_pos hz,if_pos hn])] at hpc
          have hcode : returnDepth (callOf (.swap b)) .ok depth=1 := by
            rw [hzero]
            cases b <;> rfl
          rw [hcode] at hpc
          refine h.alone hother (fun u _ => hfree hz u) (by rw [hpc]; exact trivial)
            (by rw [hpc]) (fun _ => by rw [hlock]; exact Nat.one_ne_zero) ?_
          intro he
          rw [hn] at he
          cases he
        · have he : kind=.errorcheck := by
            cases kind with
            | normal => exact absurd rfl hn
            | errorcheck => rfl
            | recursive => exact absurd rfl hk
          rw [next_goto (.storeOwner b) (fun h => by cases h)
            (by simp only [flow,if_pos hz,if_neg hn])] at hpc
          refine h.alone hother (fun u _ => hfree hz u) (by rw [hpc]; exact ⟨he,hzero⟩)
            (by rw [hpc]; exact hshallow) (fun _ => by rw [hlock]; exact Nat.one_ne_zero) ?_
          intro _ hd
          rw [hpc] at hd
          change 0<depth at hd
          omega
      · have hstay : s'.pc turn.thread=⟨.outside,depth⟩ ∨ s'.pc turn.thread=⟨.swap b,depth⟩ := by
          cases b with
          | true =>
            rw [next_ret .ebusy (fun h => by cases h)
              (by simp only [flow,if_neg hz,if_true])] at hpc
            exact .inl hpc
          | false =>
            rw [next_goto (.swap false) (fun h => by cases h)
              (by simp only [flow,if_neg hz,Bool.false_eq_true,if_false])] at hpc
            exact .inr hpc
        refine h.same hother ?_ ?_ ?_ (fun _ => by rw [hlock]; exact Nat.one_ne_zero) howner
        · rcases hstay with hpc|hpc <;> rw [hpc] <;> trivial
        · rcases hstay with hpc|hpc <;> rw [hpc,hl]
        · rw [hl]
          rcases hstay with hpc|hpc <;> rw [hpc] <;>
            exact fun hin => .inl (inside_depth hin fun _ h => by cases h)
    | storeOwner b =>
      change s'.word=applyWrite s.word (some (.owner,tid turn.thread)) at hword
      obtain ⟨he,hzero⟩ := hsw
      change depth=0 at hzero
      have hin : Inside (s.pc turn.thread) := by
        rw [hl]
        exact .inr ⟨b,rfl⟩
      have hcode : returnDepth (callOf (.storeOwner b)) .ok depth=1 := by
        rw [hzero]
        cases b <;> rfl
      change s'.pc turn.thread=⟨.outside,returnDepth (callOf (.storeOwner b)) .ok depth⟩ at hpc
      rw [hcode] at hpc
      refine h.alone hother (fun u hu hin' => hu (h.single u turn.thread hin' hin))
        (by rw [hpc]; exact trivial) (by rw [hpc]) ?_ ?_
      · intro _
        rw [hword,applyWrite_keep (fun v he => by cases he)]
        exact h.taken turn.thread hin
      · intro _ _
        rw [hword]
        exact applyWrite_self
    | unlockLoad =>
      change s'.word=s.word at hword
      obtain ⟨he,hd⟩ := hsw
      change 0<depth at hd
      have howner := h.owner he turn.thread (by rw [hl]; exact hd)
      change s'.pc turn.thread=next kind tid turn.thread ⟨.unlockLoad,depth⟩ turn.choice
        (s.word .owner) at hpc
      rw [next_ret .eperm (fun h => by cases h)
        (by simp only [flow,if_neg hk,if_pos howner])] at hpc
      change s'.pc turn.thread=⟨.outside,depth⟩ at hpc
      refine h.same hother (by rw [hpc]; exact trivial) (by rw [hpc,hl]) ?_
        (fun hne => by rw [hword]; exact hne) (by rw [hword])
      rw [hl]
      exact fun _ => .inl hd
    | storeLock =>
      obtain ⟨hn,hd⟩ := hsw
      change 0<depth at hd
      change s'.pc turn.thread=⟨.outside,depth-1⟩ at hpc
      have hzero : depth-1=0 := by omega
      rw [hzero] at hpc
      refine h.alone hother (hmine hd) (by rw [hpc]; exact trivial)
        (by rw [hpc]; exact Nat.zero_le 1)
        ?_ ?_
      · rw [hpc]
        exact fun hin => absurd (inside_depth hin fun _ h => by cases h) (Nat.lt_irrefl 0)
      · rw [hpc]
        exact fun _ h0 => absurd h0 (Nat.lt_irrefl 0)
    | _ => exact absurd hsw id

end Swap

section Count

open ReentrantLock (Phase Move)

/-- The part that a thread of a recursive mutex has in the count. The depth may be smaller,
since `pthread_mutex_trylock` reports an error when it raises the count. -/
def Fits (l : Local) (p : Phase) : Prop :=
  match l.pc with
  | .outside => (p=.free ∧ l.depth=0) ∨ ∃ d, p=.held d ∧ l.depth≤d
  | .cas _ => (p=.free ∧ l.depth=0) ∨ ∃ d, p=.held d ∧ l.depth≤d
  | .loadOwner _ => (p=.free ∧ l.depth=0) ∨ ∃ d, p=.held d ∧ l.depth≤d
  | .swap _ => (p=.free ∧ l.depth=0) ∨ ∃ d, p=.held d ∧ l.depth≤d
  | .casStore _ => p=.taken ∧ l.depth=0
  | .inc _ => ∃ d, p=.held d ∧ l.depth≤d
  | .unlockLoad => ∃ d, p=.held d ∧ l.depth≤d ∧ 0<l.depth
  | .loadCount => ∃ d, p=.held d ∧ l.depth≤d ∧ 0<l.depth
  | .clearOwner => p=.held 1 ∧ l.depth=1
  | .dec => (p=.dropping ∧ l.depth=1) ∨ ∃ d, 0<d ∧ p=.held (d+1) ∧ l.depth≤d+1 ∧ 0<l.depth
  | .storeOwner _ => False
  | .storeLock => False

/-- A recursive mutex is a reentrant lock of its threads, as long as nobody takes `__lock` by the
swap. -/
structure CountInv (tid : Fin n → ℕ) (phase : Fin n → Phase) (s : MState n) : Prop where
  /-- Owner and count follow the phases. -/
  lock : ReentrantLock.Inv minusOne tid (s.word .owner) (s.word .count) phase
  /-- Every thread has its part. -/
  fits : ∀ t, Fits (s.pc t) (phase t)
  /-- The count is a word. -/
  bounded : s.word .count<2^32

/-- The mutex after its initialisation. -/
theorem countInv_initial (before : Loc → ℕ) :
    CountInv tid (fun _ => .free) (initial n (initWord .recursive before)) where
  lock := ReentrantLock.Inv.initial
  fits _ := .inl ⟨rfl,rfl⟩
  bounded := Nat.two_pow_pos 32

/-- A thread with a depth has a part in the count. -/
theorem fits_inside {l : Local} {p : Phase} (h : Fits l p) (hd : 0<l.depth) : p≠.free := by
  unfold Fits at h
  rintro rfl
  split at h
  all_goals first | exact h | simp at h
  all_goals omega

/-- The first access of a call on a recursive mutex. -/
theorem fits_call {call : Call} {depth : ℕ} {p : Phase} (h : Fits ⟨.outside,depth⟩ p)
    (hd : call=.unlock → 0<depth) : Fits ⟨callPc .recursive call,depth⟩ p := by
  cases call with
  | lock => exact h
  | trylock => exact h
  | unlock =>
    have hpos := hd rfl
    rcases h with ⟨-,h0⟩|⟨d,hp,hle⟩
    · change depth=0 at h0
      omega
    · exact ⟨d,hp,hle,hpos⟩

variable {s : MState n} {phase : Fin n → Phase} {turn : MTurn n}

/-- The count is the weight of a thread inside. -/
theorem CountInv.count_eq (h : CountInv tid phase s) {t : Fin n} {p : Phase} (hp : phase t=p)
    (hne : p≠.free) : s.word .count=p.weight := by
  have hc := h.lock.inside t (by rw [hp]; exact hne)
  rw [hp] at hc
  exact hc

/-- One turn on a recursive mutex is a step of the reentrant lock: `__count` is its count and
`__owner` its owner, and `__lock` has no part in it. -/
theorem count_move (hname : ∀ t u, tid t=tid u → t=u) (hnobody : ∀ t, tid t≠minusOne)
    (h : CountInv tid phase s) (ok : Client s turn) (hcount : ThroughCount s turn) {s' : MState n}
    (hs' : step (program .recursive tid) s turn=s') :
    ∃ p, Move minusOne (tid turn.thread) (s.word .owner) (s.word .count) (phase turn.thread)
      (s'.word .owner) (s'.word .count) p ∧ Fits (s'.pc turn.thread) p ∧
      s'.word .count<2^32 := by
  have hfit := h.fits turn.thread
  have hlt := h.bounded
  unfold Client at ok
  have hlock := hcount.lock
  have hwrap := hcount.count
  generalize hp : phase turn.thread=p at hfit ⊢
  cases hl : s.pc turn.thread with
  | mk pc depth =>
    obtain ⟨hpc,hword,-⟩ := step_at (program .recursive tid) s turn hl
    rw [hl] at hfit ok hlock hwrap
    rw [hs'] at hpc hword
    cases pc with
    | outside =>
      change s'.word=s.word at hword
      rw [hword]
      refine ⟨p,.quiet p,?_,hlt⟩
      cases hc : turn.choice with
      | none =>
        rw [hc] at hpc
        change s'.pc turn.thread=⟨.outside,depth⟩ at hpc
        rw [hpc]
        exact hfit
      | some call =>
        rw [hc] at hpc ok
        change s'.pc turn.thread=⟨callPc .recursive call,depth⟩ at hpc
        rw [hpc]
        exact fits_call hfit fun hu => ok rfl (by rw [hu])
    | cas b =>
      change s'.pc turn.thread=⟨if s.word .count=0 then .casStore b else .loadOwner b,depth⟩ at hpc
      change s'.word=applyWrite s.word (some (.count,casValue 0 1 (s.word .count))) at hword
      by_cases hz : s.word .count=0
      · have hfree := h.lock.free_of_zero hz turn.thread
        rw [hp] at hfree
        rw [if_pos hz] at hpc
        rw [hpc,hword,hz,casValue_self,applyWrite_self,applyWrite_keep (fun v he => by cases he)]
        have hdepth : depth=0 := by
          rcases hfit with ⟨-,h0⟩|⟨d,hd,-⟩
          · exact h0
          · rw [hfree] at hd
            cases hd
        rw [hfree]
        exact ⟨.taken,.take,⟨rfl,hdepth⟩,by decide⟩
      · rw [if_neg hz] at hpc
        rw [hpc,hword,casValue_of_ne hz,applyWrite_self,applyWrite_keep (fun v he => by cases he)]
        exact ⟨p,.quiet p,hfit,hlt⟩
    | casStore b =>
      change s'.pc turn.thread=⟨.outside,returnDepth (callOf (.casStore b)) (countCode b) depth⟩
        at hpc
      change s'.word=applyWrite s.word (some (.owner,tid turn.thread)) at hword
      obtain ⟨htaken,hdepth⟩ := hfit
      change depth=0 at hdepth
      rw [hpc,hword,applyWrite_self,applyWrite_keep (fun v he => by cases he),htaken,hdepth]
      refine ⟨.held 1,.enter,.inr ⟨1,rfl,?_⟩,hlt⟩
      cases b <;> decide
    | loadOwner b =>
      change s'.word=s.word at hword
      change s'.pc turn.thread=next .recursive tid turn.thread ⟨.loadOwner b,depth⟩ turn.choice
        (s.word .owner) at hpc
      rw [hword]
      refine ⟨p,.quiet p,?_,hlt⟩
      by_cases ho : s.word .owner=tid turn.thread
      · rw [next_goto (.inc b) (fun h => by cases h)
          (by simp only [flow,if_pos ho,if_true])] at hpc
        obtain ⟨d,hd⟩ := h.lock.held_of_owner hname hnobody ho
        rw [hp] at hd
        rw [hpc,hd]
        rcases hfit with ⟨hfree,-⟩|⟨e,he,hle⟩
        · rw [hd] at hfree
          cases hfree
        · rw [hd] at he
          cases he
          exact ⟨d,rfl,hle⟩
      · rw [next_goto (.swap b) (fun h => by cases h) (by simp only [flow,if_neg ho])] at hpc
        rw [hpc]
        exact hfit
    | inc b =>
      change s'.pc turn.thread=⟨.outside,returnDepth (callOf (.inc b)) (countCode b) depth⟩ at hpc
      change s'.word=applyWrite s.word (some (.count,incWord (s.word .count))) at hword
      obtain ⟨d,hd,hle⟩ := hfit
      change depth≤d at hle
      have hne := hwrap b rfl
      unfold minusOne at hne
      have hinc : incWord (s.word .count)=s.word .count+1 := incWord_eq (by
        unfold minusOne
        omega)
      rw [hpc,hword,applyWrite_self,applyWrite_keep (fun v he => by cases he),hinc,hd]
      refine ⟨.held (d+1),.nest d,.inr ⟨d+1,rfl,?_⟩,by omega⟩
      cases b with
      | true => exact Nat.le_succ_of_le hle
      | false => exact Nat.succ_le_succ hle
    | swap b =>
      change s'.word=applyWrite s.word (some (.lock,1)) at hword
      change s'.pc turn.thread=next .recursive tid turn.thread ⟨.swap b,depth⟩ turn.choice
        (s.word .lock) at hpc
      have hz := hlock b rfl
      rw [hword,applyWrite_keep (fun v he => by cases he),
        applyWrite_keep (fun v he => by cases he)]
      refine ⟨p,.quiet p,?_,hlt⟩
      cases b with
      | true =>
        rw [next_ret .ebusy (fun h => by cases h)
          (by simp only [flow,if_neg hz,if_true])] at hpc
        rw [hpc]
        exact hfit
      | false =>
        rw [next_goto (.swap false) (fun h => by cases h)
          (by simp only [flow,if_neg hz,Bool.false_eq_true,if_false])] at hpc
        rw [hpc]
        exact hfit
    | storeOwner b => exact absurd hfit id
    | unlockLoad =>
      change s'.word=s.word at hword
      change s'.pc turn.thread=next .recursive tid turn.thread ⟨.unlockLoad,depth⟩ turn.choice
        (s.word .owner) at hpc
      obtain ⟨d,hd,hle,hpos⟩ := hfit
      have howner := h.lock.named turn.thread d (by rw [hp,hd])
      rw [next_goto .loadCount (fun h => by cases h)
        (by simp only [flow,if_pos howner,if_true])] at hpc
      rw [hword,hpc]
      exact ⟨p,.quiet p,⟨d,hd,hle,hpos⟩,hlt⟩
    | loadCount =>
      change s'.word=s.word at hword
      change s'.pc turn.thread=⟨if s.word .count=1 then .clearOwner else .dec,depth⟩ at hpc
      obtain ⟨d,hd,hle,hpos⟩ := hfit
      change depth≤d at hle
      change 0<depth at hpos
      have hc : s.word .count=d := h.count_eq (hp.trans hd) (fun h => by cases h)
      rw [hword,hpc,hc]
      refine ⟨p,.quiet p,?_,by omega⟩
      rw [hd]
      by_cases h1 : d=1
      · rw [if_pos h1,h1]
        refine ⟨rfl,?_⟩
        show depth=1
        omega
      · rw [if_neg h1]
        refine .inr ⟨d-1,by omega,?_,?_,hpos⟩
        · rw [Nat.sub_add_cancel (by omega)]
        · show depth≤d-1+1
          omega
    | clearOwner =>
      change s'.pc turn.thread=⟨.dec,depth⟩ at hpc
      change s'.word=applyWrite s.word (some (.owner,minusOne)) at hword
      obtain ⟨hd,h1⟩ := hfit
      rw [hpc,hword,applyWrite_self,applyWrite_keep (fun v he => by cases he),hd]
      exact ⟨.dropping,.clear,.inl ⟨rfl,h1⟩,hlt⟩
    | storeLock => exact absurd hfit id
    | dec =>
      change s'.pc turn.thread=⟨.outside,depth-1⟩ at hpc
      change s'.word=applyWrite s.word (some (.count,decWord (s.word .count))) at hword
      have hpos : 0 < s.word .count := by
        rcases hfit with ⟨hd,-⟩|⟨d,hd0,hd,-⟩
        · have hc : s.word .count=1 := h.count_eq (hp.trans hd) (fun h => by cases h)
          omega
        · have hc : s.word .count=d+1 := h.count_eq (hp.trans hd) (fun h => by cases h)
          omega
      have hdec : decWord (s.word .count)=s.word .count-1 := decWord_eq hpos hlt
      rw [hpc,hword,applyWrite_self,applyWrite_keep (fun v he => by cases he),hdec]
      rcases hfit with ⟨hd,h1⟩|⟨d,hd0,hd,hle,h0⟩
      · change depth=1 at h1
        rw [hd,h1]
        exact ⟨.free,.drop,.inl ⟨rfl,rfl⟩,by omega⟩
      · change depth≤d+1 at hle
        rw [hd]
        refine ⟨.held d,.unnest d hd0,.inr ⟨d,rfl,?_⟩,by omega⟩
        show depth-1≤d
        omega

/-- One turn on a recursive mutex keeps its invariant. -/
theorem countInv_step (hname : ∀ t u, tid t=tid u → t=u) (hnobody : ∀ t, tid t≠minusOne)
    (h : CountInv tid phase s) (ok : Client s turn) (hcount : ThroughCount s turn) :
    ∃ phase', CountInv tid phase' (step (program .recursive tid) s turn) := by
  obtain ⟨p,hmove,hfit,hlt⟩ := count_move hname hnobody h ok hcount rfl
  refine ⟨Function.update phase turn.thread p,h.lock.move hmove,?_,hlt⟩
  intro u
  by_cases hu : u=turn.thread
  · rw [hu,Function.update_self]
    exact hfit
  · rw [Function.update_of_ne hu,step_pc_other _ _ _ hu]
    exact h.fits u

end Count

/-- In every state of a run after `pthread_mutex_init` in which threads unlock what they hold,
and in which a recursive mutex is not taken through `__lock` and its count does not wrap, one
thread at most is between a successful lock and its unlock. -/
theorem mutex_exclusion (hname : ∀ t u, tid t=tid u → t=u) (hnobody : ∀ t, tid t≠minusOne)
    {a : Option ℕ} {before word : Loc → ℕ} (hinit : pthreadMutexInit a before=.ok (kind,word))
    {s : MState n} (hs : Reachable (program kind tid) (initial n word) (Allowed kind) s) :
    ∀ t u, 0<(s.pc t).depth → 0<(s.pc u).depth → t=u := by
  have hword := pthreadMutexInit_word hinit
  by_cases hk : kind=.recursive
  · subst hk
    rw [hword] at hs
    obtain ⟨phase,h⟩ : ∃ phase, CountInv tid phase s := by
      refine Reachable.invariant (I := fun s => ∃ phase, CountInv tid phase s)
        ⟨_,countInv_initial before⟩ ?_ hs
      rintro s turn - hallowed ⟨phase,h⟩
      exact countInv_step hname hnobody h hallowed.1 (hallowed.2 rfl)
    intro t u ht hu
    exact h.lock.exclusive t u (fits_inside (h.fits t) ht) (fits_inside (h.fits u) hu)
  · have h : SwapInv kind tid s :=
      Reachable.invariant (swapInv_initial word)
        (fun _ _ _ hallowed h => swapInv_step hk h hallowed.1) hs
    intro t u ht hu
    exact h.single t u (.inl ht) (.inl hu)

/-- Thread 0 nests and gives up a level while thread 1 tries, and thread 1 reads the owner. -/
def nestedWhileTrying : List (MTurn 2) :=
  [⟨left,some .lock,false⟩,⟨left,none,false⟩,⟨left,none,false⟩,⟨left,some .lock,false⟩,
    ⟨left,none,false⟩,⟨left,none,false⟩,⟨left,none,false⟩,⟨right,some .trylock,false⟩,
    ⟨right,none,false⟩,⟨left,some .unlock,false⟩,⟨left,none,false⟩,⟨left,none,false⟩,
    ⟨left,none,false⟩,⟨right,none,false⟩]

/-- A recursive mutex that thread 0 still holds while thread 1 is in its try: the theorem at a state
in the middle of two calls. -/
theorem mutex_exclusion_nested :
    ((run (program .recursive fun t : Fin 2 => t.val)
      (initial 2 (initWord .recursive fun _ => 0)) nestedWhileTrying).pc left).depth=1 ∧
    ¬0<((run (program .recursive fun t : Fin 2 => t.val)
      (initial 2 (initWord .recursive fun _ => 0)) nestedWhileTrying).pc right).depth := by
  have hs : Reachable (program .recursive fun t : Fin 2 => t.val)
      (initial 2 (initWord .recursive fun _ => 0)) (Allowed .recursive)
      (run (program .recursive fun t : Fin 2 => t.val)
        (initial 2 (initWord .recursive fun _ => 0)) nestedWhileTrying) :=
    .of_allows .init (by decide +kernel)
  have hleft : ((run (program .recursive fun t : Fin 2 => t.val)
      (initial 2 (initWord .recursive fun _ => 0)) nestedWhileTrying).pc left).depth=1 := by
    decide +kernel
  refine ⟨hleft,?_⟩
  intro hright
  have hsame := mutex_exclusion (fun t u h => Fin.ext h) (by decide) (a := some (2^15+2)) rfl hs
    left right (by rw [hleft]; exact Nat.one_pos) hright
  exact absurd hsame (by decide)

/-- Thread 0 locks, and thread 1 locks while thread 0 holds the mutex. -/
def lockTwice : List (MTurn 2) :=
  [⟨left,some .lock,false⟩,⟨left,none,false⟩,⟨left,none,false⟩,⟨right,some .lock,false⟩,
    ⟨right,none,false⟩,⟨right,none,false⟩,⟨right,none,false⟩,⟨right,none,false⟩]

/-- Two threads hold the recursive mutex: the second one took `__lock`, which was zero because the
first holds the mutex through `__count`. -/
theorem mutex_held_twice :
    pthreadMutexInit (some (2^15+2)) (fun _ => 0)=
      .ok (.recursive,initWord .recursive fun _ => 0) ∧
    ∃ s, Reachable (program .recursive fun t : Fin 2 => t.val)
        (initial 2 (initWord .recursive fun _ => 0)) Client s ∧
      0<(s.pc left).depth ∧ 0<(s.pc right).depth ∧ left≠right := by
  have hs : Reachable (program .recursive fun t : Fin 2 => t.val)
      (initial 2 (initWord .recursive fun _ => 0)) Client
      (run (program .recursive fun t : Fin 2 => t.val)
        (initial 2 (initWord .recursive fun _ => 0)) lockTwice) :=
    .of_allows .init (by decide +kernel)
  exact ⟨rfl,_,hs,by decide +kernel,by decide +kernel,by decide⟩

end RigelTarget.PthreadMutex
