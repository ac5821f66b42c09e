import RigelTarget.TaskQueueSafety
import RigelTarget.TaskQueueLists

/-!
# Several groups per fetch

`SW_TaskQueue_Set_TASK_GROUP_FETCH` lets the slow path ask for a further group after it has
filled the local queue. The request may block, and a thread that blocks there is counted in
the barrier like any other, although the local queue has the tasks of its first group.
As long as a cluster is found waiting on an empty local queue only, both levels of the barrier
keep their invariants, for any number of groups; otherwise a fetched task is left behind.
-/

namespace RigelTarget.TaskQueuePrefetch

open SharedMemory TaskQueueModel TaskQueueProgram TaskQueueSteps TaskQueueFrame TaskQueueLocks
  TaskQueueCluster TaskQueueBarrier TaskQueueSafety TaskQueueLists IntrusiveList

variable {n m : ℕ} {cfg : Config}

/-- Outside the queue. -/
def isOutside : Pc → Bool
  | .outside => true
  | _ => false

/-- Calls of `SW_TaskQueue_Dequeue`. -/
def isDequeue : Choice → Bool
  | .dequeue => true
  | _ => false

/-- The calls of `SW_TaskQueue_Loop_SEQUENTIAL` by thread 0. -/
def inSequential : Pc → Bool
  | .seq _ _ => true
  | _ => false

/-- Enqueues precede the dequeues or hold `CLUSTER_gtq_lock`: the sequential enqueue, which
takes no lock of a cluster, and the dequeue do not overlap. -/
structure EnqueuesApart (cfg : Config) (s : QState n m) (turn : QTurn n m) : Prop where
  /-- The sequential enqueue is called while no thread dequeues. -/
  enqueue : isOutside (s.pc turn.thread).pc=true → isSequential turn.choice=true →
    ∀ u, inDequeue (s.pc u).pc=false
  /-- The dequeue is called while no thread is in the sequential enqueue. -/
  dequeue : isOutside (s.pc turn.thread).pc=true → isDequeue turn.choice=true →
    ∀ u, inSequential (s.pc u).pc=false
  /-- The tail index stays more than a queue size below its wraparound. -/
  room : (event cfg s turn).any isPublish=true → s.word .tailIndex+1+globalTqSize<wordSize

/-- Enqueues are apart, and all threads of a cluster are found waiting only while its local
queue is empty. -/
structure WaitsEmpty (cfg : Config) (s : QState n m) (turn : QTurn n m) : Prop extends
    EnqueuesApart cfg s turn where
  /-- The test of `CLUSTER_core_waitcount` succeeds on an empty local queue. -/
  empty : findsTasks s turn=false

instance (cfg : Config) (s : QState n m) (turn : QTurn n m) :
    Decidable (EnqueuesApart cfg s turn) :=
  decidable_of_iff ((isOutside (s.pc turn.thread).pc=true → isSequential turn.choice=true →
      ∀ u, inDequeue (s.pc u).pc=false) ∧
    (isOutside (s.pc turn.thread).pc=true → isDequeue turn.choice=true →
      ∀ u, inSequential (s.pc u).pc=false) ∧
    ((event cfg s turn).any isPublish=true → s.word .tailIndex+1+globalTqSize<wordSize))
    ⟨fun h => ⟨h.1,h.2.1,h.2.2⟩,fun h => ⟨h.1,h.2,h.3⟩⟩

instance (cfg : Config) (s : QState n m) (turn : QTurn n m) : Decidable (WaitsEmpty cfg s turn) :=
  decidable_of_iff (EnqueuesApart cfg s turn ∧ findsTasks s turn=false)
    ⟨fun h => ⟨h.1,h.2⟩,fun h => ⟨h.1,h.2⟩⟩

section Apart

variable {s : QState n m} {turn : QTurn n m}

/-- A thread outside the queue starts the call that it chooses. -/
theorem pc_call (hout : (s.pc turn.thread).pc=.outside) :
    ((step (program n m cfg) s turn).pc turn.thread).pc=callPc turn.thread turn.choice := by
  rw [pc_self]
  simp only [next,nextPc,hout]

/-- The dequeue is entered by its call. -/
theorem trans_inDequeue {word : Loc n → ℕ} {t : Thread n m} {sense esense : ℕ} {pc q : Pc}
    {w : Wr n} {e : Option (Event n m)} (h : Trans cfg word t sense esense pc w e q)
    (hq : inDequeue q=true) : inDequeue pc=true ∨ pc=.outside := by
  cases h with
  | fast h => exact .inl rfl
  | slow h => exact .inl rfl
  | fetch h => exact .inl rfl
  | par h => cases h <;> cases hq
  | seq h => cases h <;> cases hq
  | _ => exact .inr rfl

/-- A call that leads into the dequeue is a call of the dequeue. -/
theorem inDequeue_call {t : Thread n m} {choice : Choice}
    (h : inDequeue (callPc t choice)=true) : isDequeue choice=true := by
  cases choice with
  | dequeue => rfl
  | loopSequential args =>
    simp only [callPc] at h
    split at h <;> cases h
  | _ => cases h

/-- A call that leads into the sequential enqueue is a call of it. -/
theorem isSequential_call {t : Thread n m} {choice : Choice} {args : Args} {p : SeqPc}
    (h : callPc t choice=.seq args p) : isSequential choice=true := by
  cases choice with
  | loopSequential args => rfl
  | _ => cases h

/-- Turns that keep the sequential enqueue apart from the dequeue: a thread starts either only while
no thread is in the other. -/
theorem seqApart_step (h : SeqApart s) (fresh : LinkFresh reserve s)
    (ok : EnqueuesApart cfg s turn) : SeqApart (step (program n m cfg) s turn) := by
  have ht := trans_step cfg s turn fresh
  intro t args p hpc u
  refine Bool.eq_false_of_not_eq_true fun hu => ?_
  by_cases htt : t=turn.thread
  · -- the moving thread is in the enqueue: nobody dequeued before
    subst htt
    have hothers : ∀ u, inDequeue (s.pc u).pc=false := by
      have hseq := ht
      rw [hpc] at hseq
      rcases trans_seq hseq with hout|⟨p',hp'⟩
      · rw [pc_call hout] at hpc
        exact ok.enqueue (by rw [hout]; rfl) (isSequential_call hpc)
      · exact h _ _ _ hp'
    by_cases hut : u=turn.thread
    · rw [hut,hpc] at hu
      cases hu
    · rw [pc_other cfg s turn hut,hothers u] at hu
      cases hu
  · rw [pc_other cfg s turn htt] at hpc
    have hothers := h t args p hpc
    by_cases hut : u=turn.thread
    · rw [hut] at hu
      rcases trans_inDequeue ht hu with hin|hout
      · rw [hothers] at hin
        cases hin
      · rw [pc_call hout] at hu
        have hfree := ok.dequeue (by rw [hout]; rfl) (inDequeue_call hu) t
        rw [hpc] at hfree
        cases hfree
    · rw [pc_other cfg s turn hut,hothers u] at hu
      cases hu

end Apart

section Decision

variable {s : QState n m} {turn : QTurn n m}

/-- What holds in every state when clusters are found waiting on empty local queues only. The number
of groups per fetch does not matter. -/
structure PrefetchInv (s : QState n m) : Prop where
  /-- Both levels of the barrier. -/
  barrier : BarrierInv s
  /-- The tail of the last ticket. -/
  last : LastTail s
  /-- The sequential enqueue is apart from the dequeue. -/
  apart : SeqApart s
  /-- Publications count the tail index up. -/
  tail : TailInv s

/-- Nobody is in the queue. -/
theorem prefetchInv_initial : PrefetchInv (initial n m) := by
  refine ⟨⟨clusterInv_initial,gInv_initial⟩,?_,?_,?_⟩
  · intro c i k b τ h
    rw [lead_none fun j => rfl] at h
    cases h
  · intro t args p h
    cases h
  · intro i
    exact (if_neg (Nat.not_lt_zero i)).symm

/-- One turn, with any number of groups per fetch. -/
theorem prefetchInv_step (hn : n<globalTqSize) (hm : m<wordSize) (fresh : LinkFresh reserve s)
    (gtq : GtqInv s) (ltq : LtqInv s) (h : PrefetchInv s) (ok : WaitsEmpty cfg s turn) :
    PrefetchInv (step (program n m cfg) s turn) where
  barrier := barrierInv_step hm hn fresh gtq ltq
    ⟨ok.empty,h.last.findsStale h.barrier gtq,ok.room⟩ h.barrier
  last := lastTail_step h.barrier fresh gtq h.apart h.last
  apart := seqApart_step h.apart fresh ok.toEnqueuesApart
  tail := tailInv_step fresh ok.room h.tail

/-- A thread that is counted in the barrier has no task in its hands or on its way, so a decided
barrier leaves no task with a thread. -/
theorem idle_of_waiting {pc : Pc} (h : committed pc=true ∨ calm pc=true) :
    inDequeue pc=true ∧ hand pc=[] ∧ delivering pc=none := by
  cases pc with
  | slow p =>
    rcases h with h|h
    · cases h
    · cases p with
      | sense => exact ⟨rfl,rfl,rfl⟩
      | acq a => exact ⟨rfl,rfl,rfl⟩
      | senseLocked => exact ⟨rfl,rfl,rfl⟩
      | head => exact ⟨rfl,rfl,rfl⟩
      | relNull r => exact ⟨rfl,rfl,rfl⟩
      | tryGtq k => exact ⟨rfl,rfl,rfl⟩
      | _ => cases h
  | fetch pf p =>
    rcases h with h|h
    · cases p with
      | bar i k b => exact ⟨rfl,rfl,rfl⟩
      | _ => cases h
    · cases h
  | _ => rcases h with h|h <;> cases h

end Decision

/-- The settings of a queue with two groups per fetch. -/
def twoGroups : Config := ⟨0,2,0,false⟩

/-- Thread 0 enqueues one task and dequeues until it decides the barrier. -/
def secondFetch : List (QTurn 1 1) :=
  alone solo (.loopSequential singleTask)::List.replicate 11 (alone solo .stay)++
    alone solo .dequeue::List.replicate 52 (alone solo .stay)

/-- With two groups per fetch the barrier is decided while the only task, fetched and linked
into the local queue by the same call, was returned to nobody. -/
theorem second_fetch_strands_task :
    Reachable (program 1 1 twoGroups) (initial 1 1) (EnqueuesApart twoGroups)
      (run (program 1 1 twoGroups) (initial 1 1) secondFetch) ∧
    (event twoGroups (run (program 1 1 twoGroups) (initial 1 1) secondFetch)
      (alone solo .stay))=some (.decide (solo,solo)) ∧
    (run (program 1 1 twoGroups) (initial 1 1) secondFetch).word (.taskqueueHead solo)=1 ∧
    deliveredBy (solo,solo) (run (program 1 1 twoGroups) (initial 1 1) secondFetch).trace=[] := by
  refine ⟨.of_allows .init (by decide +kernel),?_⟩
  decide +kernel

end RigelTarget.TaskQueuePrefetch
