import RigelTarget.PthreadMutex

/-!
# The condition variables of libpthread

A `pthread_cond_t` at address `c` has the flag `__broadcast` at `c` and the pointer
`__mutex` at `c+4`. Memory is addressed, since `broadcast_update` is one instruction with
a value and an address. `bcast.u` stores its first operand at the address in its second
operand, as `RigelBroadcastUpdate` and both barriers use it; `broadcast_update` passes the
address of the flag first and the value 2 second, so it stores that address at address 2.
The flag therefore keeps the value of `pthread_cond_init`: every signal and broadcast
returns 0, and no wait leaves its spin loop.
-/

namespace RigelTarget.PthreadCond

open SharedMemory RigelAtomics PthreadMutex

/-- `bcast.u value,address,0`: a store that is announced to every cluster. The first operand is the
value, as its other uses in the library show. -/
def bcastU (value address : ℕ) : Access ℕ := .store address value

/-- `broadcast_update`: the operands of the instruction are `addr` and `val`, in this order, so the
address is stored at the place that the value names. -/
def broadcastUpdate (addr val : ℕ) : Access ℕ := bcastU addr val

/-- Address of `__broadcast`. -/
def flag (c : ℕ) : ℕ := c

/-- Address of `__mutex`. -/
def mutex (c : ℕ) : ℕ := c+4

/-- Address of `__lock` of the mutex at `m`. -/
def lockOf (m : ℕ) : ℕ := m

/-- `pthread_cond_init` on the variable at `c`: attributes and a second initialisation are
refused. -/
def pthreadCondInit (c : ℕ) (attr : Option ℕ) (word : ℕ → ℕ) : Code×(ℕ → ℕ) :=
  if attr≠none then (.einval,word)
  else if word (flag c)=1 then (.einval,word)
  else (.ok,Function.update (Function.update word (flag c) 1) (mutex c) 0)

/-- The next access of a thread, in the three functions and in the calls of `pthread_mutex_lock` and
`pthread_mutex_unlock` that they make. The mutexes are of the normal kind. -/
inductive Pc where
  /-- Outside the functions. -/
  | outside
  /-- `pthread_mutex_lock(m)` of the client. -/
  | lock (m : ℕ)
  /-- `pthread_mutex_unlock(m)` of the client. -/
  | unlock (m : ℕ)
  /-- `pthread_cond_wait`: `global_load` of `__mutex`. -/
  | waitLoad (m : ℕ)
  /-- `global_store` of `m` into `__mutex`. -/
  | waitStore (m : ℕ)
  /-- `pthread_mutex_unlock(m)`. -/
  | waitUnlock (m : ℕ)
  /-- The spin loop on `__broadcast`. -/
  | waitSpin (m : ℕ)
  /-- `pthread_mutex_lock(m)`. -/
  | waitLock (m : ℕ)
  /-- `pthread_cond_broadcast` and `pthread_cond_signal`: the test of `__broadcast`. -/
  | broadcastLoad
  /-- `broadcast_update`. -/
  | broadcastStore
  deriving DecidableEq

/-- What a thread outside does next. The client names the mutex of the call, and the model keeps
nothing else of its code. -/
inductive Choice where
  /-- Nothing. -/
  | stay
  /-- `pthread_mutex_lock`. -/
  | lock (m : ℕ)
  /-- `pthread_mutex_unlock`. -/
  | unlock (m : ℕ)
  /-- `pthread_cond_wait`. -/
  | wait (m : ℕ)
  /-- `pthread_cond_broadcast`, which `pthread_cond_signal` calls. -/
  | broadcast
  deriving DecidableEq

/-- Visible events. The release of the mutex by a wait is one of them, since a broadcast is meant to
wake whoever has got that far. -/
inductive Event (n : ℕ) where
  /-- A wait released its mutex. -/
  | released (t : Fin n)
  /-- `pthread_cond_wait` returned. -/
  | waited (t : Fin n) (code : Code)
  /-- A signal or broadcast was called. -/
  | issued (t : Fin n)
  /-- A signal or broadcast returned. -/
  | broadcasted (t : Fin n) (code : Code)
  deriving DecidableEq

section Steps

variable {n : ℕ} (c : ℕ)

/-- The access of a thread. The last access of a broadcast is `bcast.u` with the operands as the
source has them. -/
def access : Pc → Access ℕ
  | .outside => .skip
  | .lock m => exchange (lockOf m) 1
  | .unlock m => .store (lockOf m) 0
  | .waitLoad _ => .load (mutex c)
  | .waitStore m => .store (mutex c) m
  | .waitUnlock m => .store (lockOf m) 0
  | .waitSpin _ => .load (flag c)
  | .waitLock m => exchange (lockOf m) 1
  | .broadcastLoad => .load (flag c)
  | .broadcastStore => broadcastUpdate (flag c) 2

/-- The first access of a call. -/
def callPc : Choice → Pc
  | .stay => .outside
  | .lock m => .lock m
  | .unlock m => .unlock m
  | .wait m => .waitLoad m
  | .broadcast => .broadcastLoad

/-- The next access of a thread. A wait that finds another mutex recorded gives up, and so does a
broadcast whose flag is not 1. -/
def next (pc : Pc) (choice : Choice) (r : ℕ) : Pc :=
  match pc with
  | .outside => callPc choice
  | .lock m => if r=0 then .outside else .lock m
  | .unlock _ => .outside
  | .waitLoad m => if r=0 then .waitStore m else if r=m then .waitUnlock m else .outside
  | .waitStore m => .waitUnlock m
  | .waitUnlock m => .waitSpin m
  | .waitSpin m => if r=2 then .waitLock m else .waitSpin m
  | .waitLock m => if r=0 then .outside else .waitLock m
  | .broadcastLoad => if r=1 then .broadcastStore else .outside
  | .broadcastStore => .outside

/-- The event of a step. Of the codes of the source, `EINVAL` stands for another mutex, or for a
variable whose flag is not 1. -/
def emit (t : Fin n) (pc : Pc) (choice : Choice) (r : ℕ) : Option (Event n) :=
  match pc with
  | .outside => if choice=.broadcast then some (.issued t) else none
  | .waitLoad m => if r=0 ∨ r=m then none else some (.waited t .einval)
  | .waitUnlock _ => some (.released t)
  | .waitLock _ => if r=0 then some (.waited t .ok) else none
  | .broadcastLoad => if r=1 then none else some (.broadcasted t .einval)
  | .broadcastStore => some (.broadcasted t .ok)
  | _ => none

/-- Any number of threads on the condition variable at `c`. -/
def program (n : ℕ) : Program (Fin n) ℕ Pc Choice (Event n) where
  access _ pc := access c pc
  next _ pc choice r := next pc choice r
  emit t pc choice r := emit t pc choice r

end Steps

/-- States of the threads and the memory. -/
abbrev CState (n : ℕ) := State (Fin n) ℕ Pc (Event n)

/-- Turns of the threads. -/
abbrev CTurn (n : ℕ) := Turn (Fin n) Choice

/-- Every thread is outside. -/
def initial (n : ℕ) (word : ℕ → ℕ) : CState n := ⟨word,fun _ => none,fun _ => .outside,[]⟩

/-- The 24 bytes of a mutex do not overlap the two words of the condition variable, as for objects
of their own. -/
def Apart (c m : ℕ) : Prop := m+24 ≤ c ∨ c+8 ≤ m

instance (c m : ℕ) : Decidable (Apart c m) := inferInstanceAs (Decidable (_ ∨ _))

/-- The mutex that a call names. -/
def named : Choice → Option ℕ
  | .lock m => some m
  | .unlock m => some m
  | .wait m => some m
  | _ => none

/-- Calls name mutexes that are objects of their own. -/
def Client (c : ℕ) {n : ℕ} (_ : CState n) (turn : CTurn n) : Prop :=
  ∀ m∈named turn.choice, Apart c m

instance (c : ℕ) {n : ℕ} (s : CState n) (turn : CTurn n) : Decidable (Client c s turn) :=
  inferInstanceAs (Decidable (∀ m∈named turn.choice, Apart c m))

/-- Some signal or broadcast was called after the last release of `t` and returned 0. Traces
have their latest event first. -/
def Woken {n : ℕ} (t : Fin n) (trace : List (Event n)) : Prop :=
  ∃ late early, trace=late++.released t::early ∧ .released t∉late ∧
    ∃ u x y z, late=x++.broadcasted u .ok::(y++.issued u::z) ∧ .issued u∉y

/-- The mutex that a local state is about: it is held, or it is on the way to being taken or
released. -/
def holding : Pc → Option ℕ
  | .lock m => some m
  | .unlock m => some m
  | .waitLoad m => some m
  | .waitStore m => some m
  | .waitUnlock m => some m
  | .waitSpin m => some m
  | .waitLock m => some m
  | _ => none

variable {n c : ℕ}

/-- The flag keeps the value of its initialisation, so a thread that waits for another value spins
for ever. -/
structure CondInv (c : ℕ) (s : CState n) : Prop where
  /-- The flag is 1. -/
  initialised : s.word (flag c)=1
  /-- Mutexes in use are apart from the variable. -/
  apart : ∀ t, ∀ m∈holding (s.pc t), Apart c m
  /-- No wait has left its loop. -/
  spinning : ∀ t m, s.pc t≠.waitLock m

/-- After `pthread_cond_init`. -/
theorem condInv_initial {attr : Option ℕ} {before word : ℕ → ℕ}
    (h : pthreadCondInit c attr before=(.ok,word)) : CondInv c (initial n word) := by
  unfold pthreadCondInit at h
  split_ifs at h with hattr hflag
  · cases h
  · cases h
  · cases h
    refine ⟨?_,(fun _ _ h => by cases h),(fun _ _ h => by cases h)⟩
    show Function.update (Function.update before (flag c) 1) (mutex c) 0 (flag c)=1
    have hne : flag c≠mutex c := by
      unfold flag mutex
      omega
    rw [Function.update_of_ne hne,Function.update_self]

/-- The mutex of a local state was named by the call or by the local state before. So no thread ever
touches a mutex that no call has named. -/
theorem holding_next (pc : Pc) (choice : Choice) (r : ℕ) :
    ∀ m∈holding (next pc choice r), m∈holding pc ∨ m∈named choice := by
  intro m hm
  cases pc with
  | outside =>
    right
    cases choice <;> exact hm
  | lock m' =>
    simp only [next] at hm
    split_ifs at hm
    · cases hm
    · exact .inl hm
  | unlock m' => cases hm
  | waitLoad m' =>
    simp only [next] at hm
    split_ifs at hm
    · exact .inl hm
    · exact .inl hm
    · cases hm
  | waitStore m' => exact .inl hm
  | waitUnlock m' => exact .inl hm
  | waitSpin m' =>
    simp only [next] at hm
    split_ifs at hm
    · exact .inl hm
    · exact .inl hm
  | waitLock m' =>
    simp only [next] at hm
    split_ifs at hm
    · cases hm
    · exact .inl hm
  | broadcastLoad =>
    simp only [next] at hm
    split_ifs at hm <;> cases hm
  | broadcastStore => cases hm

/-- The address that an access writes: a mutex in use, the pointer `__mutex`, or address 2. None of
them is the flag. -/
theorem written_cases {s : CState n} {t : Fin n} {lose : Bool} {pc : Pc} {x v : ℕ}
    (h : written s t lose (access c pc)=some (x,v)) :
    (∃ m∈holding pc, x=lockOf m) ∨ x=mutex c ∨ x=2 := by
  cases pc with
  | outside => cases h
  | lock m =>
    cases h
    exact .inl ⟨m,rfl,rfl⟩
  | unlock m =>
    cases h
    exact .inl ⟨m,rfl,rfl⟩
  | waitLoad m => cases h
  | waitStore m =>
    cases h
    exact .inr (.inl rfl)
  | waitUnlock m =>
    cases h
    exact .inl ⟨m,rfl,rfl⟩
  | waitSpin m => cases h
  | waitLock m =>
    cases h
    exact .inl ⟨m,rfl,rfl⟩
  | broadcastLoad => cases h
  | broadcastStore =>
    cases h
    exact .inr (.inr rfl)

/-- One turn keeps the flag: no access stores 2 into it, whatever the waits and broadcasts do. -/
theorem condInv_step (hc : 8 ≤ c) {s : CState n} {turn : CTurn n} (h : CondInv c s)
    (ok : Client c s turn) : CondInv c (step (program c n) s turn) := by
  refine ⟨?_,?_,?_⟩
  · rw [step_word_other,h.initialised]
    intro v hw
    rcases written_cases hw with ⟨m,hm,hx⟩|hx|hx
    · have hapart := h.apart turn.thread m hm
      unfold flag lockOf at hx
      unfold Apart at hapart
      omega
    · unfold flag mutex at hx
      omega
    · unfold flag at hx
      omega
  · intro t m hm
    by_cases ht : t=turn.thread
    · subst ht
      rw [step_pc_self] at hm
      rcases holding_next _ _ _ m hm with hm|hm
      · exact h.apart turn.thread m hm
      · exact ok m hm
    · rw [step_pc_other _ _ _ ht] at hm
      exact h.apart t m hm
  · intro t m
    by_cases ht : t=turn.thread
    · subst ht
      have hnot := h.spinning turn.thread
      cases hp : s.pc turn.thread with
      | waitSpin m' =>
        obtain ⟨hpc,-,-⟩ := step_at (program c n) s turn hp
        change (step (program c n) s turn).pc turn.thread=
          (if s.word (flag c)=2 then .waitLock m' else .waitSpin m') at hpc
        rw [hpc,h.initialised,if_neg (by decide)]
        exact fun h => by cases h
      | waitLock m' => exact absurd hp (hnot m')
      | outside =>
        obtain ⟨hpc,-,-⟩ := step_at (program c n) s turn hp
        rw [hpc]
        show callPc turn.choice≠_
        cases turn.choice <;> exact fun h => by cases h
      | lock m' =>
        obtain ⟨hpc,-,-⟩ := step_at (program c n) s turn hp
        rw [hpc]
        simp only [program,next]
        split_ifs <;> exact fun h => by cases h
      | waitLoad m' =>
        obtain ⟨hpc,-,-⟩ := step_at (program c n) s turn hp
        rw [hpc]
        simp only [program,next]
        split_ifs <;> exact fun h => by cases h
      | broadcastLoad =>
        obtain ⟨hpc,-,-⟩ := step_at (program c n) s turn hp
        rw [hpc]
        simp only [program,next]
        split_ifs <;> exact fun h => by cases h
      | _ =>
        obtain ⟨hpc,-,-⟩ := step_at (program c n) s turn hp
        rw [hpc]
        exact fun h => by cases h
    · rw [step_pc_other _ _ _ ht]
      exact h.spinning t m

/-- The events of a turn: no wait returns 0 and no signal or broadcast fails. A waiter never sees
the flag change. -/
theorem CondInv.event {s : CState n} (h : CondInv c s) {turn : CTurn n} {e : Event n}
    (he : shows (program c n) s turn=some e) :
    (∀ t, e≠.waited t .ok) ∧ ∀ t code, e=.broadcasted t code → code=.ok := by
  have hnot := h.spinning turn.thread
  cases hp : s.pc turn.thread with
  | outside =>
    obtain ⟨-,-,hev⟩ := step_at (program c n) s turn hp
    rw [hev] at he
    simp only [program,emit] at he
    split_ifs at he
    cases he
    exact ⟨(fun _ h => by cases h),(fun _ _ h => by cases h)⟩
  | waitLoad m =>
    obtain ⟨-,-,hev⟩ := step_at (program c n) s turn hp
    rw [hev] at he
    simp only [program,emit] at he
    split_ifs at he
    cases he
    exact ⟨(fun _ h => by cases h),(fun _ _ h => by cases h)⟩
  | waitUnlock m =>
    obtain ⟨-,-,hev⟩ := step_at (program c n) s turn hp
    rw [hev] at he
    cases he
    exact ⟨(fun _ h => by cases h),(fun _ _ h => by cases h)⟩
  | waitLock m => exact absurd hp (hnot m)
  | broadcastLoad =>
    obtain ⟨-,-,hev⟩ := step_at (program c n) s turn hp
    rw [hev] at he
    change (if s.word (flag c)=1 then none else some (Event.broadcasted turn.thread .einval))=
      some e at he
    rw [if_pos h.initialised] at he
    cases he
  | broadcastStore =>
    obtain ⟨-,-,hev⟩ := step_at (program c n) s turn hp
    rw [hev] at he
    cases he
    refine ⟨(fun _ h => by cases h),?_⟩
    intro t code hcode
    cases hcode
    rfl
  | _ =>
    obtain ⟨-,-,hev⟩ := step_at (program c n) s turn hp
    rw [hev] at he
    cases he

/-- In every run after a successful `pthread_cond_init`: a wait that returns 0 was woken by a
signal or broadcast that was called after the wait released its mutex and returned 0, and every
signal and broadcast returns 0. The first part holds because no wait returns 0. -/
theorem condition_variable (hc : 8 ≤ c) {attr : Option ℕ} {before word : ℕ → ℕ}
    (hinit : pthreadCondInit c attr before=(.ok,word)) {s : CState n}
    (hs : Reachable (program c n) (initial n word) (Client c) s) (turn : CTurn n) :
    (∀ t, shows (program c n) s turn=some (.waited t .ok) → Woken t s.trace) ∧
    (∀ t code, shows (program c n) s turn=some (.broadcasted t code) → code=.ok) ∧
    ∀ t, shows (program c n) s turn≠some (.waited t .ok) := by
  have h : CondInv c s := Reachable.invariant (condInv_initial hinit)
    (fun _ _ _ ok h => condInv_step hc h ok) hs
  have hnever : ∀ t, shows (program c n) s turn≠some (.waited t .ok) := fun t he =>
    (h.event he).1 t rfl
  refine ⟨fun t he => absurd he (hnever t),?_,hnever⟩
  intro t code he
  exact (h.event he).2 t code rfl

/-- Thread 0 waits with the mutex at 64, and thread 1 broadcasts twice. -/
def waitAndBroadcasts : List (CTurn 2) :=
  [⟨left,.lock 64,false⟩,⟨left,.stay,false⟩,⟨left,.wait 64,false⟩,⟨left,.stay,false⟩,
    ⟨left,.stay,false⟩,⟨left,.stay,false⟩,⟨right,.broadcast,false⟩,⟨right,.stay,false⟩,
    ⟨right,.stay,false⟩,⟨left,.stay,false⟩,⟨right,.broadcast,false⟩,⟨right,.stay,false⟩]

/-- The second broadcast is about to return 0 while thread 0 still waits. It has woken nobody. -/
theorem condition_variable_second_broadcast :
    shows (program 32 2) (run (program 32 2) (initial 2 (pthreadCondInit 32 none fun _ => 0).2)
      waitAndBroadcasts) ⟨right,.stay,false⟩=some (.broadcasted right .ok) ∧
    shows (program 32 2) (run (program 32 2) (initial 2 (pthreadCondInit 32 none fun _ => 0).2)
      waitAndBroadcasts) ⟨left,.stay,false⟩≠some (.waited left .ok) := by
  have hs : Reachable (program 32 2) (initial 2 (pthreadCondInit 32 none fun _ => 0).2)
      (Client 32) (run (program 32 2) (initial 2 (pthreadCondInit 32 none fun _ => 0).2)
        waitAndBroadcasts) := .of_allows .init (by decide +kernel)
  have hinit : pthreadCondInit 32 none (fun _ => 0)=
      (.ok,(pthreadCondInit 32 none fun _ => 0).2) := rfl
  have h := condition_variable (by decide) hinit hs ⟨left,.stay,false⟩
  exact ⟨by decide +kernel,h.2.2 left⟩

end RigelTarget.PthreadCond
