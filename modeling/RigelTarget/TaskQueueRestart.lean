import RigelTarget.TaskQueueElection
import RigelTarget.TaskQueueRoom

/-!
# A second `SW_TaskQueue_Init`

`SW_TaskQueue_End` frees the two arrays and `SW_TaskQueue_Init` stores initial values again, but
not everywhere: the private senses are reset for the numbers below the number of cores, although
they are indexed by the number of the thread, and the settings that the program may have changed
are reset only in part. The heads of the local queues and the enqueue lock are not stored either;
they are free at the end of a run in which every task was delivered.
-/

namespace RigelTarget.TaskQueueRestart

open SharedMemory TaskQueueModel TaskQueueProgram TaskQueueSteps TaskQueueFrame TaskQueueLocks
  TaskQueueCluster TaskQueuePrefetch TaskQueueElection TaskQueueLists TaskQueueRoom IntrusiveList

/-- What the hardware tells the software: the number of cores and the numbers of the threads. With
several threads on a core, thread numbers go beyond the number of cores. -/
structure Machine (n m : ℕ) where
  /-- `RigelGetNumCores()`. -/
  numCores : ℕ
  /-- `RigelGetNumThreadsPerCore()`. -/
  threadsPerCore : ℕ
  /-- `RigelGetThreadNum()`. -/
  threadNum : Thread n m → ℕ
  /-- A core has a thread. -/
  threadsPerCore_pos : 0<threadsPerCore
  /-- All threads belong to cores. -/
  numThreads : numCores*threadsPerCore=n*m
  /-- Threads are numbered from zero on. -/
  threadNum_lt : ∀ t, threadNum t<n*m
  /-- Two threads have two numbers. -/
  threadNum_inj : Function.Injective threadNum
  /-- `RigelGetNumThreadsPerCluster()` is a word. -/
  threads_lt : m<wordSize

/-- The globals of the task queue, with the threads that use it: the settings, and the words and
local states of the shared memory. -/
structure Queue (n m : ℕ) where
  /-- Words, links and private senses. -/
  state : QState n m
  /-- Settings. -/
  cfg : Config
  /-- `GLOBAL_tq_init_flag`. -/
  initFlag : Bool

section Init

variable {n m : ℕ}

/-- The globals when the program is loaded. -/
def static (n m : ℕ) : Queue n m where
  state := ⟨fun _ => 0,fun _ => none,fun _ => ⟨.outside,0,0⟩,[]⟩
  cfg := ⟨0,1,0,false⟩
  initFlag := false

/-- The loop that looks for the lowest bit of a count, from bit `shift` on. -/
def lowestBit (count : ℕ) : ℕ → ℕ → ℕ
  | 0, shift => shift
  | fuel+1, shift => if count.testBit shift then shift else lowestBit count fuel (shift+1)

/-- The shift for a count of 32 bits, if the count is a power of two. -/
def shiftOf (count : ℕ) : Option ℕ :=
  let shift := lowestBit count 32 0
  if 2^shift=count then some shift else none

/-- The words after `SW_TaskQueue_Init`; the arrays are those that `malloc` returned, and are not
cleared. -/
def initWord (memory word : Loc n → ℕ) : Loc n → ℕ
  | .headIndex => 0
  | .tailIndex => 0
  | .globalSense => 0
  | .waitcount _ => 0
  | .enqueueLock => word .enqueueLock
  | .headData => 0
  | .taskqueueHead c => word (.taskqueueHead c)
  | .ticketCount _ => 0
  | .ticketPoll _ => 1
  | .gtqLock _ => 0
  | .coreWaitcount _ => 0
  | .percoreSense _ => 0
  | .perclusterSense _ => 0
  | .enqueueLoop _ => 0
  | .task slot i => memory (.task slot i)
  | .desc p f => memory (.desc p f)

/-- The words that `SW_TaskQueue_Init` stores. The others keep what the last use of the queue has
left in them. -/
def storedByInit : Loc n → Bool
  | .enqueueLock => false
  | .taskqueueHead _ => false
  | .task _ _ => false
  | .desc _ _ => false
  | _ => true

/-- The private senses after `SW_TaskQueue_Init`: the loop runs up to the number of cores. -/
def initLocal (machine : Machine n m) (t : Thread n m) (l : Local) : Local :=
  if machine.threadNum t < machine.numCores then {l with sense := 0,enqueueSense := 0} else l

/-- `SW_TaskQueue_Init`; `none` when an assertion fails. It stores the words and senses, and of the
settings only some. -/
def taskQueueInit (machine : Machine n m) (memory : Loc n → ℕ) (q : Queue n m) :
    Option (Queue n m) :=
  if q.initFlag=true then none
  else
    match shiftOf machine.numCores, shiftOf n with
    | some _, some shift => some
      { state :=
          { word := initWord memory q.state.word
            link := fun t => (q.state.link t).filter fun x => !storedByInit x
            pc := fun t => initLocal machine t (q.state.pc t)
            trace := q.state.trace }
        cfg := {q.cfg with shift := shift,fetch := 1}
        initFlag := true }
    | _, _ => none

/-- `SW_TaskQueue_End`. -/
def taskQueueEnd (q : Queue n m) : Option (Queue n m) :=
  if q.initFlag=true then some {q with initFlag := false} else none

/-- The functions that change a setting. `SW_TaskQueue_Init` stores some of the settings and not
others. -/
inductive Setter where
  /-- `SW_TaskQueue_Set_TASK_GROUP_FETCH`. -/
  | taskGroupFetch (count : ℕ)
  /-- `SW_TaskQueue_Set_DATA_PARALLEL_MODE`. -/
  | dataParallelMode
  /-- `SW_TaskQueue_Set_LOCAL_ENQUEUE_COUNT`. -/
  | localEnqueueCount (count : ℕ)

/-- A setting is changed. -/
def Setter.set (cfg : Config) : Setter → Config
  | .taskGroupFetch count => {cfg with fetch := count}
  | .dataParallelMode => {cfg with dataparMode := true}
  | .localEnqueueCount count => {cfg with localEnqueueCount := count}

/-- Runs from the first `SW_TaskQueue_Init` on: turns of the threads, each with a free descriptor
if it takes one, and changes of the settings. -/
inductive Run (machine : Machine n m) : Queue n m → Prop where
  /-- The first `SW_TaskQueue_Init`. -/
  | init {q : Queue n m} (memory : Loc n → ℕ)
      (h : taskQueueInit machine memory (static n m)=some q) : Run machine q
  /-- A turn. -/
  | move {q : Queue n m} (turn : QTurn n m) (h : Run machine q) (hd : Disciplined q.state turn) :
      Run machine {q with state := step (program n m q.cfg) q.state turn}
  /-- A changed setting. -/
  | set {q : Queue n m} (f : Setter) (h : Run machine q) : Run machine {q with cfg := f.set q.cfg}

/-- The end of a run: every thread is outside the queue, its last dequeue returned `TQ_RET_SYNC`
and the tasks of the local queues were delivered. -/
structure Finished (s : QState n m) : Prop where
  /-- No call is in progress. -/
  outside : ∀ t, (s.pc t).pc=.outside
  /-- The last dequeue of every thread returned `TQ_RET_SYNC`. -/
  synced : ∀ t, s.trace.find? (fun e => isSync t e || isSuccess t e)=some (.sync t)
  /-- What was inserted was unlinked. -/
  delivered : ∀ c p, (insertedOf c s.trace).count p=(poppedOf c s.trace).count p

/-- Two states that no later call can tell apart: words, links, threads and settings are the same,
and they differ at most in the events so far. -/
def Indistinguishable (q r : Queue n m) : Prop :=
  q.state.word=r.state.word ∧ q.state.link=r.state.link ∧ q.state.pc=r.state.pc ∧
    q.cfg=r.cfg ∧ q.initFlag=r.initFlag

/-- The senses agree, the local queues are empty and the settings are the initial ones. This is what
a program that starts again relies on. -/
structure Reset (q : Queue n m) : Prop where
  /-- The private sense of a thread is that of its cluster. -/
  sense : ∀ t, (q.state.pc t).sense=q.state.word (.percoreSense t.1)
  /-- So is the sense of the enqueue. -/
  enqueueSense : ∀ t, (q.state.pc t).enqueueSense=q.state.word (.enqueueLoop t.1)
  /-- The local queues are empty. -/
  head : ∀ c, q.state.word (.taskqueueHead c)=0
  /-- The settings are the initial ones. -/
  cfg : q.cfg.fetch=1 ∧ q.cfg.dataparMode=false ∧ q.cfg.localEnqueueCount=0

/-- `SW_TaskQueue_End` and `SW_TaskQueue_Init` lead to what the first `SW_TaskQueue_Init` leaves,
whatever `malloc` returns. -/
def Restarts (machine : Machine n m) (q : Queue n m) : Prop :=
  ∀ memory, ∃ r first, (taskQueueEnd q).bind (taskQueueInit machine memory)=some r ∧
    taskQueueInit machine memory (static n m)=some first ∧ Indistinguishable r first ∧ Reset r

/-- Every thread with a number past the cores left an even number of barriers and made an even
number of parallel enqueues, and the settings that `SW_TaskQueue_Init` does not store are the
initial ones. -/
def Clean (machine : Machine n m) (q : Queue n m) : Prop :=
  (∀ t, machine.numCores ≤ machine.threadNum t → syncs q.state t%2=0 ∧ parCalls q.state t%2=0) ∧
    q.cfg.dataparMode=false ∧ q.cfg.localEnqueueCount=0

end Init

section Runs

variable {n m : ℕ} {machine : Machine n m}

/-- What runs keep: the invariants of the queue from which the state at the end of a finished run is
told. -/
structure Kept (machine : Machine n m) (q : Queue n m) : Prop where
  /-- Links are fresh. -/
  fresh : LinkFresh reserve q.state
  /-- The ticket locks of the local queues. -/
  ltq : LtqInv q.state
  /-- The lists. -/
  lists : ListInv q.state
  /-- A taken enqueue lock has a holder. -/
  lock : q.state.word .enqueueLock≠0 → ∃ t, holdsEnqueue (q.state.pc t).pc=true
  /-- A private sense is the parity of the barriers that the thread has left. -/
  sense : ∀ t, (q.state.pc t).sense=syncs q.state t%2
  /-- A private enqueue sense is the parity of the ended tries. -/
  enqueueSense : ∀ t, (q.state.pc t).enqueueSense=
    (parCalls q.state t+if stageOf (q.state.pc t).pc=.trying then 1 else 0)%2
  /-- Links are to words that `SW_TaskQueue_Init` stores. -/
  link : ∀ t x, q.state.link t=some x → storedByInit x=true
  /-- The queue is initialised. -/
  flag : q.initFlag=true
  /-- The counts of the machine are powers of two. -/
  shift : shiftOf machine.numCores≠none ∧ shiftOf n=some q.cfg.shift

/-- A private state that `SW_TaskQueue_Init` resets, or that needs no reset. -/
theorem initLocal_eq_iff {t : Thread n m} {a b : ℕ} :
    initLocal machine t ⟨.outside,a,b⟩=⟨.outside,0,0⟩ ↔
      (machine.numCores ≤ machine.threadNum t → a=0 ∧ b=0) := by
  unfold initLocal
  split
  next hlt => exact iff_of_true rfl fun hle => absurd hlt (Nat.not_lt.2 hle)
  next hge =>
    constructor
    · intro he _
      rw [Local.mk.injEq] at he
      exact he.2
    · intro h
      obtain ⟨rfl,rfl⟩ := h (Nat.le_of_not_lt hge)
      rfl

/-- What the first `SW_TaskQueue_Init` leaves. -/
def begun (memory : Loc n → ℕ) (shift : ℕ) : Queue n m where
  state := ⟨initWord memory fun _ => 0,fun _ => none,fun _ => ⟨.outside,0,0⟩,[]⟩
  cfg := ⟨shift,1,0,false⟩
  initFlag := true

/-- The first `SW_TaskQueue_Init` on a machine with powers of two. -/
theorem taskQueueInit_static (memory : Loc n → ℕ) {k shift : ℕ}
    (hk : shiftOf machine.numCores=some k) (hn : shiftOf n=some shift) :
    taskQueueInit machine memory (static n m)=some (begun memory shift) := by
  have hpc : (fun t => initLocal machine t ((static n m).state.pc t))=fun _ => ⟨.outside,0,0⟩ :=
    funext fun t => initLocal_eq_iff.2 fun _ => ⟨rfl,rfl⟩
  unfold taskQueueInit
  rw [if_neg (fun he => by cases he),hk,hn]
  dsimp only
  rw [hpc]
  rfl

/-- The state after the first `SW_TaskQueue_Init`. -/
theorem begun_of_init {memory : Loc n → ℕ} {q : Queue n m}
    (h : taskQueueInit machine memory (static n m)=some q) :
    ∃ k shift, shiftOf machine.numCores=some k ∧ shiftOf n=some shift ∧ q=begun memory shift := by
  cases hk : shiftOf machine.numCores with
  | none => simp [taskQueueInit,static,hk] at h
  | some k =>
    cases hn : shiftOf n with
    | none => simp [taskQueueInit,static,hk,hn] at h
    | some shift =>
      rw [taskQueueInit_static memory hk hn] at h
      exact ⟨k,shift,rfl,rfl,(Option.some.inj h).symm⟩

/-- The invariant holds after the first `SW_TaskQueue_Init`. -/
theorem kept_init {memory : Loc n → ℕ} {q : Queue n m}
    (h : taskQueueInit machine memory (static n m)=some q) : Kept machine q := by
  obtain ⟨k,shift,hk,hn,rfl⟩ := begun_of_init h
  exact {
    fresh := fun t x v hres => by cases hres
    ltq := fun c => ⟨[],TicketLock.Inv.initial (by decide)⟩
    lists := {
      owned := ⟨fun x => by cases x <;> exact List.nodup_nil,fun x y p hx => by
        cases x <;> cases hx⟩
      chain := fun _ => rfl
      hands := fun _ => trivial
      work := fun _ => trivial
      ledger := fun _ _ => rfl }
    lock := fun hne => absurd rfl hne
    sense := fun _ => rfl
    enqueueSense := fun _ => rfl
    link := fun t x hx => by cases hx
    flag := rfl
    shift := ⟨by rw [hk]; exact Option.some_ne_none k,hn⟩ }

section Step

variable {cfg : Config} {s : QState n m} {turn : QTurn n m}

/-- Linked loads are of words that `SW_TaskQueue_Init` stores. So a link that is left from the run
before is harmless. -/
theorem stored_of_loadLinked {t : Thread n m} {l : Local} {x : Loc n}
    (h : access cfg t l=.loadLinked x) : storedByInit x=true := by
  have hacq : ∀ {a : Acq}, a.access t.1=.loadLinked x → storedByInit x=true := by
    intro a ha
    cases a <;> cases ha
    rfl
  have hrel : ∀ {r : Rel}, r.access t.1≠.loadLinked x := by
    intro r hr
    cases r <;> cases hr
  have htry : ∀ {k : Try}, k.access t.1=.loadLinked x → storedByInit x=true := by
    intro k hk
    cases k <;> cases hk
    rfl
  have hupd : ∀ {f : ℕ → ℕ} {u : Upd}, u.access t.1 f=.loadLinked x → storedByInit x=true := by
    intro f u hu
    cases u <;> cases hu
    rfl
  obtain ⟨pc,sense,esense⟩ := l
  cases pc with
  | outside => cases h
  | fast p =>
    cases p with
    | acq a => exact hacq h
    | _ => cases h
  | slow p =>
    cases p with
    | inc u => exact hupd h
    | acq a => exact hacq h
    | relSync r => exact absurd h hrel
    | dec p got u => exact hupd h
    | relPop p got r => exact absurd h hrel
    | relNull r => exact absurd h hrel
    | tryGtq k => exact htry h
    | _ => cases h
  | fetch pf p =>
    cases p with
    | bar h' counted b =>
      cases b with
      | acqTest tail a => exact hacq h
      | relTest tail pending r => exact absurd h hrel
      | _ => cases h
    | acqIns first passed p a => exact hacq h
    | relIns r => exact absurd h hrel
    | _ => cases h
  | par args p =>
    cases p with
    | tryGtq k => exact htry h
    | acq w a => exact hacq h
    | relLocal w r => exact absurd h hrel
    | relGlobal w r => exact absurd h hrel
    | _ => cases h
  | seq args p => cases p <;> cases h

/-- A turn keeps the kinds of the linked words. -/
theorem link_step (h : ∀ t x, s.link t=some x → storedByInit x=true) (t : Thread n m) (x : Loc n)
    (hx : (step (program n m cfg) s turn).link t=some x) : storedByInit x=true := by
  rcases relink_eq_some hx with hold|hnew
  · exact h t x hold
  · exact stored_of_loadLinked hnew

/-- A turn keeps a holder of the taken enqueue lock. When all threads are outside it is free. -/
theorem lock_step (fresh : LinkFresh reserve s)
    (h : s.word .enqueueLock≠0 → ∃ t, holdsEnqueue (s.pc t).pc=true)
    (hne : (step (program n m cfg) s turn).word .enqueueLock≠0) :
    ∃ t, holdsEnqueue ((step (program n m cfg) s turn).pc t).pc=true := by
  have ht := trans_step cfg s turn fresh
  rw [word_step] at hne
  -- a holder that does not move stays one
  have hstay : ∀ u, u≠turn.thread → holdsEnqueue (s.pc u).pc=true →
      ∃ t, holdsEnqueue ((step (program n m cfg) s turn).pc t).pc=true := by
    intro u hu hheld
    exact ⟨u,by rw [pc_other _ _ _ hu]; exact hheld⟩
  by_cases hw : ∃ v, wrote cfg s turn=some (.enqueueLock,v)
  · obtain ⟨v,hw⟩ := hw
    rw [hw] at ht hne
    rcases trans_enqueueLock ht with ⟨-,hpc,hfree⟩|⟨rfl,-,-⟩
    · by_cases hzero : s.word .enqueueLock=0
      · exact ⟨turn.thread,hfree.2 hzero⟩
      · obtain ⟨u,hu⟩ := h hzero
        refine hstay u (fun he => ?_) hu
        rw [he,hpc] at hu
        cases hu
    · rw [applyWrite_self] at hne
      exact absurd rfl hne
  · have hkeep : ∀ v, wrote cfg s turn≠some (.enqueueLock,v) := fun v he => hw ⟨v,he⟩
    rw [applyWrite_keep hkeep] at hne
    obtain ⟨u,hu⟩ := h hne
    by_cases hthread : u=turn.thread
    · subst hthread
      exact ⟨turn.thread,by rw [trans_holdsEnqueue ht hkeep]; exact hu⟩
    · exact hstay u hthread hu

/-- A turn keeps the parity of the private senses: they count the returns of `TQ_RET_SYNC`. -/
theorem syncSense_step {t : Thread n m} (h : (s.pc t).sense=syncs s t%2) :
    ((step (program n m cfg) s turn).pc t).sense=syncs (step (program n m cfg) s turn) t%2 := by
  by_cases ht : t=turn.thread
  · subst ht
    have hcount : syncs (step (program n m cfg) s turn) turn.thread=
        syncs s turn.thread+shown (event cfg s turn) (isSync turn.thread) := countP_step ..
    rw [sense_step,hcount]
    split
    next hone => rw [h,flipSense_mod,hone]
    next hno =>
      have hzero : shown (event cfg s turn) (isSync turn.thread)=0 := by
        unfold shown at hno ⊢
        split at hno
        · exact absurd rfl hno
        · next hne => exact if_neg hne
      rw [hzero]
      exact h
  · rw [pc_other _ _ _ ht,syncs_other ht]
    exact h

end Step

/-- The invariant holds in every run. -/
theorem Run.kept {q : Queue n m} (h : Run machine q) : Kept machine q := by
  induction h with
  | init memory h => exact kept_init h
  | @move q turn _ hd ih =>
    exact {
      fresh := linkFresh_step reserving turn ih.fresh
      ltq := ltqInv_step machine.threads_lt ih.fresh ih.ltq turn
      lists := listInv_step ih.lists ih.fresh ih.ltq hd
      lock := lock_step ih.fresh ih.lock
      sense := fun t => syncSense_step (ih.sense t)
      enqueueSense := fun t => sense_next ih.fresh (ih.enqueueSense t)
      link := link_step ih.link
      flag := ih.flag
      shift := ih.shift }
  | @set q f _ ih =>
    exact {ih with shift := ⟨ih.shift.1,by cases f <;> exact ih.shift.2⟩}

section Restart

variable {q : Queue n m}

/-- Delivered tasks leave the local queues empty. -/
theorem Kept.head (h : Kept machine q) (hf : Finished q.state) (c : Fin n) :
    q.state.word (.taskqueueHead c)=0 := by
  have hempty : queue q.state c=[] := by
    refine List.eq_nil_iff_forall_not_mem.2 fun p hp => ?_
    have hpos := List.count_pos_iff.2 hp
    have hledger := h.lists.ledger c p
    rw [hf.delivered c p] at hledger
    omega
  have hchain := h.lists.chain c
  rw [hempty] at hchain
  exact hchain

/-- Nobody holds the enqueue lock at the end. -/
theorem Kept.enqueueLock (h : Kept machine q) (hf : Finished q.state) :
    q.state.word .enqueueLock=0 := by
  by_contra hne
  obtain ⟨t,ht⟩ := h.lock hne
  rw [hf.outside t] at ht
  cases ht

/-- The private senses at the end. -/
theorem Kept.senses (h : Kept machine q) (hf : Finished q.state) (t : Thread n m) :
    q.state.pc t=⟨.outside,syncs q.state t%2,parCalls q.state t%2⟩ := by
  have hpc := hf.outside t
  have hs := h.sense t
  have he := h.enqueueSense t
  rw [hpc] at he
  cases hl : q.state.pc t with
  | mk pc sense esense =>
    rw [hl] at hpc hs he
    cases hpc
    cases hs
    cases he
    rfl

/-- What `SW_TaskQueue_End` and `SW_TaskQueue_Init` lead to at the end of a run: everything is as at
first but the senses of threads whose numbers are beyond the cores, and two settings. -/
theorem Kept.restart (h : Kept machine q) (hf : Finished q.state) (memory : Loc n → ℕ) :
    (taskQueueEnd q).bind (taskQueueInit machine memory)=some
      ⟨⟨initWord memory fun _ => 0,fun _ => none,
        fun t => initLocal machine t ⟨.outside,syncs q.state t%2,parCalls q.state t%2⟩,
        q.state.trace⟩,⟨q.cfg.shift,1,q.cfg.localEnqueueCount,q.cfg.dataparMode⟩,true⟩ := by
  obtain ⟨k,hk⟩ := Option.ne_none_iff_exists'.1 h.shift.1
  have hword : initWord memory q.state.word=initWord memory fun _ => 0 := by
    funext x
    cases x with
    | enqueueLock => exact h.enqueueLock hf
    | taskqueueHead c => exact h.head hf c
    | _ => rfl
  have hlink : (fun t => (q.state.link t).filter fun x => !storedByInit x)=fun _ => none := by
    funext t
    cases hx : q.state.link t with
    | none => rfl
    | some x => simp [Option.filter,h.link t x hx]
  have hpc : q.state.pc=fun t => ⟨.outside,syncs q.state t%2,parCalls q.state t%2⟩ :=
    funext fun t => h.senses hf t
  unfold taskQueueEnd taskQueueInit
  rw [if_pos h.flag,Option.bind_some,if_neg (fun he => by cases he),hk,h.shift.2]
  dsimp only
  rw [hword,hlink,hpc]

/-- A clean end of a run is followed by a restart. -/
theorem Kept.restarts (h : Kept machine q) (hf : Finished q.state) (hc : Clean machine q) :
    Restarts machine q := by
  intro memory
  obtain ⟨hparity,hmode,hcount⟩ := hc
  obtain ⟨k,hk⟩ := Option.ne_none_iff_exists'.1 h.shift.1
  have hpc : (fun t => initLocal machine t ⟨.outside,syncs q.state t%2,parCalls q.state t%2⟩)=
      fun _ => ⟨.outside,0,0⟩ := funext fun t => initLocal_eq_iff.2 (hparity t)
  have hrestart := h.restart hf memory
  rw [hpc,hmode,hcount] at hrestart
  exact ⟨_,_,hrestart,taskQueueInit_static memory hk h.shift.2,⟨rfl,rfl,rfl,rfl,rfl⟩,
    fun _ => rfl,fun _ => rfl,fun _ => rfl,rfl,rfl,rfl⟩

/-- A restart needs a clean end of the run. -/
theorem Kept.clean (h : Kept machine q) (hf : Finished q.state) (hr : Restarts machine q) :
    Clean machine q := by
  obtain ⟨r,first,hrestart,-,-,hreset⟩ := hr fun _ => 0
  rw [h.restart hf] at hrestart
  cases hrestart
  refine ⟨fun t => initLocal_eq_iff.1 ?_,hreset.cfg.2⟩
  have hs : (initLocal machine t ⟨.outside,syncs q.state t%2,parCalls q.state t%2⟩).sense=0 :=
    hreset.sense t
  have he : (initLocal machine t
      ⟨.outside,syncs q.state t%2,parCalls q.state t%2⟩).enqueueSense=0 := hreset.enqueueSense t
  unfold initLocal at hs he ⊢
  split at hs
  next hlt => rw [if_pos hlt]
  next hge =>
    rw [if_neg hge] at he ⊢
    dsimp only at hs he
    rw [hs,he]

end Restart

end Runs

/-- At the end of every run, with every thread outside after a return of `TQ_RET_SYNC` and every
task delivered, `SW_TaskQueue_End` and `SW_TaskQueue_Init` lead to the state of the first
`SW_TaskQueue_Init` if and only if the threads numbered past the cores left an even number of
barriers and made an even number of parallel enqueues, and the settings that are not stored were
not changed. -/
theorem restart_iff_clean {n m : ℕ} (machine : Machine n m) {q : Queue n m}
    (hrun : Run machine q) (hf : Finished q.state) : Restarts machine q ↔ Clean machine q :=
  ⟨hrun.kept.clean hf,hrun.kept.restarts hf⟩

section Examples

/-- The globals after a schedule. -/
def Queue.after {n m : ℕ} (q : Queue n m) (turns : List (QTurn n m)) : Queue n m :=
  {q with state := SharedMemory.run (program n m q.cfg) q.state turns}

/-- A checked schedule continues a run. -/
theorem Run.turns {n m : ℕ} {machine : Machine n m} {q : Queue n m} (h : Run machine q)
    {turns : List (QTurn n m)}
    (hall : allows (program n m q.cfg) Disciplined q.state turns=true) :
    Run machine (q.after turns) := by
  induction turns generalizing q with
  | nil => exact h
  | cons turn turns ih =>
    simp only [allows,Bool.and_eq_true,decide_eq_true_eq] at hall
    exact ih (h.move turn hall.1) hall.2

/-- Barriers end a run when every task of the local queues was unlinked in order. -/
theorem finished_of_outside {n m : ℕ} {s : QState n m} (hout : ∀ t, isOutside (s.pc t).pc=true)
    (hsync : ∀ t, s.trace.find? (fun e => isSync t e || isSuccess t e)=some (.sync t))
    (hsame : ∀ c, insertedOf c s.trace=poppedOf c s.trace) : Finished s where
  outside t := by
    have h := hout t
    cases hpc : (s.pc t).pc with
    | outside => rfl
    | _ =>
      rw [hpc] at h
      cases h
  synced := hsync
  delivered c p := by rw [hsame c]

/-- One cluster of one core with two threads. The second thread has a number that is not below the
number of cores. -/
def twoThreads : Machine 1 2 where
  numCores := 1
  threadsPerCore := 2
  threadNum t := t.2
  threadsPerCore_pos := Nat.two_pos
  numThreads := rfl
  threadNum_lt t := t.2.isLt
  threadNum_inj t u h := Prod.ext (Subsingleton.elim _ _) (Fin.ext h)
  threads_lt := by decide

/-- Both threads call the parallel enqueue of a task, the second returns the task, and both dequeue
until the barrier is passed. -/
def taskRound : List (QTurn 1 2) :=
  alone left (.loopParallel singleTask)::List.replicate 21 (alone left .stay)++
    alone right (.loopParallel singleTask)::List.replicate 4 (alone right .stay)++
    alone right .dequeue::List.replicate 12 (alone right .stay)++
    alone right .dequeue::List.replicate 7 (alone right .stay)++
    alone left .dequeue::List.replicate 45 (alone left .stay)++[alone right .stay]

/-- Two such rounds. -/
def twoRounds : Queue 1 2 := Queue.after (begun (fun _ => 0) 0) (taskRound++taskRound)

/-- After two barriers and two parallel enqueues of both threads of the core the queue can be
restarted. -/
theorem restart_iff_clean_twoRounds : Run twoThreads twoRounds ∧ Finished twoRounds.state ∧
    deliveredBy (solo,right) twoRounds.state.trace=[9,1] ∧ Restarts twoThreads twoRounds := by
  have hrun : Run twoThreads twoRounds :=
    (Run.init (fun _ => 0) (taskQueueInit_static _ rfl rfl)).turns (by decide +kernel)
  have hf : Finished twoRounds.state :=
    finished_of_outside (by decide +kernel) (by decide +kernel) (by decide +kernel)
  refine ⟨hrun,hf,by decide +kernel,(restart_iff_clean twoThreads hrun hf).2 ⟨?_,rfl,rfl⟩⟩
  decide +kernel

/-- Both threads dequeue from an empty queue until the barrier is passed. -/
def sharedBarrier : Queue 1 2 :=
  Queue.after (begun (fun _ => 0) 0) (alone left .dequeue::List.replicate 20 (alone left .stay)++
    alone right .dequeue::List.replicate 7 (alone right .stay)++
    List.replicate 25 (alone left .stay)++[alone right .stay])

/-- After one barrier the second thread of the core keeps its sense, and the queue cannot be
restarted. -/
theorem sense_survives_init : Run twoThreads sharedBarrier ∧ Finished sharedBarrier.state ∧
    ¬Restarts twoThreads sharedBarrier := by
  have hrun : Run twoThreads sharedBarrier :=
    (Run.init (fun _ => 0) (taskQueueInit_static _ rfl rfl)).turns (by decide +kernel)
  have hf : Finished sharedBarrier.state :=
    finished_of_outside (by decide +kernel) (by decide +kernel) (by decide +kernel)
  refine ⟨hrun,hf,fun hr => ?_⟩
  have hodd := ((hrun.kept.clean hf hr).1 (solo,right) (Nat.le_refl 1)).1
  exact absurd hodd (by decide +kernel)

end Examples

end RigelTarget.TaskQueueRestart
