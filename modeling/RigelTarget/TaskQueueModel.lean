import RigelTarget.SharedMemory
import RigelTarget.LoopPartition

/-!
# The software task queue as interleaved threads

Clusters of threads run `SW_TaskQueue_Dequeue`, `SW_TaskQueue_Loop_PARALLEL` and
`SW_TaskQueue_Loop_SEQUENTIAL` over shared words. Each load, store, linked load,
conditional store and atomic instruction on a shared word is one step; work in
registers and on the words that only one thread uses goes with a neighbouring
step. The parallel enqueue is the compiled branch with the inline assembly, whose
slots are not reduced modulo the array. Words past the end of an array are words
of their own: memory layout, caches and prefetches are outside this model.
-/

namespace RigelTarget.TaskQueueModel

open SharedMemory

/-- Number of values of a 32-bit word. -/
abbrev wordSize : ℕ := 2^32

/-- `__DEFAULT_GLOBAL_TQ_SIZE`. -/
abbrev globalTqSize : ℕ := 2^18

/-- `__DEFAULT_GLOBAL_TQ_SIZE / __DEFAULT_TASK_GROUP_SIZE`: the slots of `GLOBAL_taskqueue_index`,
one for each task group of the array of descriptors. -/
abbrev groupSlots : ℕ := 2^15

/-- Words of a `TQ_TaskDescEntry`: the four of the task and the pointer to the next entry. `begin`
and `end` share `v3` and `v4`. -/
inductive Field where
  /-- `task_desc.v1`. -/
  | v1
  /-- `task_desc.v2`. -/
  | v2
  /-- `task_desc.begin`. -/
  | v3
  /-- `task_desc.end`. -/
  | v4
  /-- `next`. -/
  | next
  deriving DecidableEq

/-- Shared words, those of every cluster included. A pointer to `GLOBAL_taskqueue_data[i]` is the
number `i+1`, so that 0 is `NULL`. -/
inductive Loc (n : ℕ) where
  /-- `GLOBAL_tq_head_index`. -/
  | headIndex
  /-- `GLOBAL_tq_tail_index`. -/
  | tailIndex
  /-- `GLOBAL_percluster_sense`. -/
  | globalSense
  /-- `GLOBAL_cluster_waitcount0` and `GLOBAL_cluster_waitcount1`. -/
  | waitcount (one : Bool)
  /-- `GLOBAL_tq_enqueue_lock`. -/
  | enqueueLock
  /-- `GLOBAL_tq_head_data`. -/
  | headData
  /-- `CLUSTER_taskqueue_head[8*c]`. -/
  | taskqueueHead (c : Fin n)
  /-- `CLUSTER_ltq_ticket_count[c]`. -/
  | ticketCount (c : Fin n)
  /-- `CLUSTER_ltq_ticket_poll[c]`. -/
  | ticketPoll (c : Fin n)
  /-- `CLUSTER_gtq_lock[c]`. -/
  | gtqLock (c : Fin n)
  /-- `CLUSTER_core_waitcount[c]`. -/
  | coreWaitcount (c : Fin n)
  /-- `CLUSTER_percore_sense[c]`. -/
  | percoreSense (c : Fin n)
  /-- `CLUSTER_percluster_sense[c]`. -/
  | perclusterSense (c : Fin n)
  /-- `CLUSTER_percluster_enqueue_loop[c]`. -/
  | enqueueLoop (c : Fin n)
  /-- `GLOBAL_taskqueue_index[slot].tasks[i]`. -/
  | task (slot i : ℕ)
  /-- A word of the descriptor that the pointer designates. -/
  | desc (p : ℕ) (f : Field)

/-- Place of a field in its descriptor. -/
def Field.index : Field → ℕ
  | .v1 => 0
  | .v2 => 1
  | .v3 => 2
  | .v4 => 3
  | .next => 4

/-- Numbers that tell the words apart; words are compared by them, so that a run can be evaluated
without comparing pointers that were not evaluated yet. -/
def Loc.code : Loc n → ℕ×ℕ×ℕ
  | .headIndex => (0,0,0)
  | .tailIndex => (1,0,0)
  | .globalSense => (2,0,0)
  | .waitcount one => (3,one.toNat,0)
  | .enqueueLock => (4,0,0)
  | .headData => (5,0,0)
  | .taskqueueHead c => (6,c,0)
  | .ticketCount c => (7,c,0)
  | .ticketPoll c => (8,c,0)
  | .gtqLock c => (9,c,0)
  | .coreWaitcount c => (10,c,0)
  | .percoreSense c => (11,c,0)
  | .perclusterSense c => (12,c,0)
  | .enqueueLoop c => (13,c,0)
  | .task slot i => (14,slot,i)
  | .desc p f => (15,p,f.index)

/-- Different words have different numbers. -/
theorem Loc.code_inj {x y : Loc n} (h : x.code=y.code) : x=y := by
  have hbool : ∀ a b : Bool, a.toNat=b.toNat → a=b := by decide
  have hfield : ∀ f g : Field, f.index=g.index → f=g := by
    intro f g hfg
    cases f <;> cases g <;> first | rfl | cases hfg
  cases x <;> cases y <;> simp only [Loc.code,Prod.mk.injEq] at h <;> grind

instance : DecidableEq (Loc n) := fun _ _ =>
  decidable_of_iff _ ⟨Loc.code_inj,congrArg Loc.code⟩

/-- The cluster that owns a word; words of no cluster are shared by all. A thread accesses the words
of its own cluster and the shared ones only. -/
def Loc.cluster : Loc n → Option (Fin n)
  | .taskqueueHead c => some c
  | .ticketCount c => some c
  | .ticketPoll c => some c
  | .gtqLock c => some c
  | .coreWaitcount c => some c
  | .percoreSense c => some c
  | .perclusterSense c => some c
  | .enqueueLoop c => some c
  | _ => none

/-- Settings of the queue that `SW_TaskQueue_Init` or its client makes once, before any thread uses
the queue. -/
structure Config where
  /-- `GLOBAL_numclusters_SHIFT`. -/
  shift : ℕ
  /-- `SWTQ_TASK_GROUP_FETCH`. -/
  fetch : ℕ
  /-- `SWTQ_LOCAL_ENQUEUE_COUNT`. -/
  localEnqueueCount : ℕ
  /-- `SWTQ_DATAPAR_MODE`. -/
  dataparMode : Bool

/-- The words of a `TQ_TaskDesc`, as an enqueue writes them and a dequeue copies them to its
caller. -/
structure Desc where
  /-- `v1`. -/
  v1 : ℕ
  /-- `v2`. -/
  v2 : ℕ
  /-- `v3`, also `begin`. -/
  v3 : ℕ
  /-- `v4`, also `end`. -/
  v4 : ℕ
  deriving DecidableEq

/-- Arguments of an enqueue call; both counts are positive or zero `int` values. The other two words
go into every task unchanged. -/
structure Args where
  /-- `tot_iters`. -/
  totIters : ℕ
  /-- `iters_per_task`. -/
  itersPerTask : ℕ
  /-- `*tdesc`; the enqueue reads `v1` and `v2`. -/
  tdesc : Desc
  /-- The total is an `int`. -/
  tot_lt : totIters<2^31
  /-- At least one iteration per task. -/
  per_pos : 0 < itersPerTask
  /-- The chunk is an `int`. -/
  per_lt : itersPerTask<2^31
  deriving DecidableEq

/-- A word decremented by one, with the wraparound of a 32-bit word. -/
def decWord (v : ℕ) : ℕ := (v+(wordSize-1))%wordSize

/-- `!v` on a sense word. -/
def flipSense (v : ℕ) : ℕ := if v=0 then 1 else 0

/-- The waiting counter of a sense: the barrier has two, so that clusters of the next phase are not
counted with those of the last. -/
def waitLoc {n : ℕ} (sense : ℕ) : Loc n := .waitcount (sense != 0)

/-- `LOCAL_LOCK_ACQUIRE`: linked load and conditional store of the count, which draw a ticket, then
polling until the poll word is the ticket. -/
inductive Acq where
  /-- `ldl` of the count. -/
  | ldl
  /-- `stc` of the loaded count plus one. -/
  | stc (v : ℕ)
  /-- `ldw` of the poll word until it is the ticket. -/
  | poll (ticket : ℕ)
  deriving DecidableEq

/-- `LOCAL_LOCK_RELEASE`: load and store of the poll word. -/
inductive Rel where
  /-- Load of the poll word. -/
  | ld
  /-- Store of the loaded ticket plus one. -/
  | st (v : ℕ)
  deriving DecidableEq

/-- The try-lock on `CLUSTER_gtq_lock`: a lock that is not free ends the attempt, a conditional
store that fails starts it again. -/
inductive Try where
  /-- `ldl`; a lock that is not free ends the attempt. -/
  | ldl
  /-- `stc` of 1; a lost link starts over. -/
  | stc
  deriving DecidableEq

/-- A linked update of `CLUSTER_core_waitcount`. -/
inductive Upd where
  /-- `ldl`. -/
  | ldl
  /-- `stc` of the changed value; a lost link starts over. -/
  | stc (v : ℕ)
  deriving DecidableEq

/-- Access of the acquire. -/
def Acq.access {n : ℕ} (c : Fin n) : Acq → Access (Loc n)
  | .ldl => .loadLinked (.ticketCount c)
  | .stc v => .storeCond (.ticketCount c) ((v+1)%wordSize)
  | .poll _ => .load (.ticketPoll c)

/-- The acquire after a result; `none` when the lock is granted. -/
def Acq.next : Acq → ℕ → Option Acq
  | .ldl, r => some (.stc r)
  | .stc v, r => some (if r=1 then .poll ((v+1)%wordSize) else .ldl)
  | .poll ticket, r => if r=ticket then none else some (.poll ticket)

/-- The ticket in the register of a polling acquire. -/
def Acq.ticket : Acq → ℕ
  | .poll ticket => ticket
  | _ => 0

/-- Access of the release. -/
def Rel.access {n : ℕ} (c : Fin n) : Rel → Access (Loc n)
  | .ld => .load (.ticketPoll c)
  | .st v => .store (.ticketPoll c) ((v+1)%wordSize)

/-- The release after a result; `none` when it is done. -/
def Rel.next : Rel → ℕ → Option Rel
  | .ld, r => some (.st r)
  | .st _, _ => none

/-- Access of the try-lock. -/
def Try.access {n : ℕ} (c : Fin n) : Try → Access (Loc n)
  | .ldl => .loadLinked (.gtqLock c)
  | .stc => .storeCond (.gtqLock c) 1

/-- The try-lock after a result: still trying, or ended with its outcome. -/
def Try.next : Try → ℕ → Try ⊕ Bool
  | .ldl, r => if r=0 then .inl .stc else .inr false
  | .stc, r => if r=1 then .inr true else .inl .ldl

/-- Access of an update of the wait count. -/
def Upd.access {n : ℕ} (c : Fin n) (f : ℕ → ℕ) : Upd → Access (Loc n)
  | .ldl => .loadLinked (.coreWaitcount c)
  | .stc v => .storeCond (.coreWaitcount c) (f v)

/-- The update after a result; `none` when it is done. -/
def Upd.next : Upd → ℕ → Option Upd
  | .ldl, r => some (.stc r)
  | .stc _, r => if r=1 then none else some .ldl

/-- `SW_TaskQueue_Dequeue_FAST`, with the ticket of the lock in a register. It takes the head of the
local queue, or finds it empty and goes to the slow path. -/
inductive FastPc where
  /-- Acquire of the local queue lock. -/
  | acq (a : Acq)
  /-- Load of the head. -/
  | head (ticket : ℕ)
  /-- Release on an empty queue, then the call of the slow path. -/
  | relEmpty (ticket : ℕ)
  /-- Second load of the head. -/
  | headAgain (ticket : ℕ)
  /-- Load of `next`. -/
  | next (ticket p : ℕ)
  /-- Store of `next` into the head. -/
  | setHead (ticket p successor : ℕ)
  /-- Release after the unlink. -/
  | relPop (ticket p : ℕ)
  /-- Copy of the descriptor; the words read so far are in registers. -/
  | copy (p : ℕ) (got : List ℕ)
  deriving DecidableEq

/-- `SW_TaskQueue_Dequeue_SLOW` without the part that holds `CLUSTER_gtq_lock`: counting itself as
waiting, spinning on the lock and the local queue, and leaving by a task or by `TQ_RET_SYNC`. -/
inductive SlowPc where
  /-- Increment of the wait count. -/
  | inc (u : Upd)
  /-- First test of the sense. -/
  | sense
  /-- Acquire of the local queue lock. -/
  | acq (a : Acq)
  /-- Test of the sense under the lock. -/
  | senseLocked
  /-- Release before the return of `TQ_RET_SYNC`. -/
  | relSync (r : Rel)
  /-- Test of the head. -/
  | head
  /-- Load of the head by the inline pop. -/
  | headAgain
  /-- Copy of the descriptor. -/
  | copy (p : ℕ) (got : List ℕ)
  /-- Load of `next`. -/
  | next (p : ℕ) (got : List ℕ)
  /-- Store of `next` into the head. -/
  | setHead (p : ℕ) (got : List ℕ) (successor : ℕ)
  /-- Decrement of the wait count. -/
  | dec (p : ℕ) (got : List ℕ) (u : Upd)
  /-- Release after the pop. -/
  | relPop (p : ℕ) (got : List ℕ) (r : Rel)
  /-- Release on an empty queue. -/
  | relNull (r : Rel)
  /-- The try-lock on `CLUSTER_gtq_lock`. -/
  | tryGtq (k : Try)
  deriving DecidableEq

/-- The loop of `global_swtq_cluster_dequeue` inside the barrier. `tail` is the
tail index read in this iteration. -/
inductive BarPc where
  /-- Load of `GLOBAL_percluster_sense`. -/
  | gsense
  /-- Load of the cluster's sense, to compare. -/
  | csense (g : ℕ)
  /-- Load of the tail index. -/
  | tail
  /-- Acquire of the local queue lock for the test of the wait count. -/
  | acqTest (tail : ℕ) (a : Acq)
  /-- Load of the wait count. -/
  | test (tail : ℕ)
  /-- Release of the local queue lock. -/
  | relTest (tail : ℕ) (pending : Bool) (r : Rel)
  /-- Load of the cluster's sense, to select the counter. -/
  | incSel (tail : ℕ)
  /-- Increment of the selected counter. -/
  | incWc (tail s : ℕ)
  /-- The queue is not empty: second load of `GLOBAL_percluster_sense`. -/
  | reSense (tail : ℕ)
  /-- Load of the cluster's sense, to compare again. -/
  | reCsense (tail g : ℕ)
  /-- Load of the cluster's sense, to select the counter. -/
  | decSel (tail : ℕ)
  /-- Decrement of the selected counter. -/
  | decWc (tail s : ℕ)
  /-- Load of the cluster's sense, to back out. -/
  | backLd (tail : ℕ)
  /-- Store of the sense flipped back. -/
  | backSt (tail v : ℕ)
  /-- The last ticket: load of the cluster's sense, to select the counter. -/
  | wcSel (tail : ℕ)
  /-- Load of the selected counter. -/
  | wcLd (tail s : ℕ)
  /-- Store of the tail into the head index. -/
  | setHead (tail : ℕ)
  /-- Load of the cluster's sense, to select the opposing counter. -/
  | rstSel (tail : ℕ)
  /-- Reset of the opposing counter. -/
  | rstWc (tail s : ℕ)
  /-- Load of the cluster's sense, to publish it. -/
  | flipLd (tail : ℕ)
  /-- Store of `GLOBAL_percluster_sense`. -/
  | flip (tail v : ℕ)
  /-- Reset of the wait count. -/
  | passW
  /-- Load of `CLUSTER_percore_sense`. -/
  | passLd
  /-- Store of `CLUSTER_percore_sense` flipped. -/
  | passSt (v : ℕ)
  deriving DecidableEq

/-- The part of `SW_TaskQueue_Dequeue_SLOW` that holds `CLUSTER_gtq_lock`: the calls of
`global_swtq_cluster_dequeue` with the barrier inside, and the links of the fetched group into the
local queue. -/
inductive FetchPc where
  /-- Test of the sense with the lock held. -/
  | sense
  /-- Test whether the local queue was filled meanwhile. -/
  | head
  /-- `RigelAtomicINC` of the head index. -/
  | inc
  /-- Load of the tail index with ticket `h`. -/
  | tail (h : ℕ)
  /-- Load of the cluster's sense on entry to the barrier. -/
  | enterLd (h : ℕ)
  /-- Store of the cluster's sense flipped. -/
  | enterSt (h v : ℕ)
  /-- In the barrier loop; `counted` when the waiting counter includes this cluster. -/
  | bar (h : ℕ) (counted : Bool) (b : BarPc)
  /-- Load of the first task pointer of the slot of ticket `h`. -/
  | slot (h idx : ℕ)
  /-- Walk to the last task of the group `first`; `p` is the current task. -/
  | walk (first : ℕ) (passed : List ℕ) (p : ℕ)
  /-- Acquire of the local queue lock. -/
  | acqIns (first : ℕ) (passed : List ℕ) (p : ℕ) (a : Acq)
  /-- Load of the head. -/
  | insHead (first : ℕ) (passed : List ℕ) (p : ℕ)
  /-- Store of the head into `next` of the last task. -/
  | insNext (first : ℕ) (passed : List ℕ) (p v : ℕ)
  /-- Store of the first task into the head. -/
  | insSet (first : ℕ) (passed : List ℕ) (p : ℕ)
  /-- Release of the local queue lock. -/
  | relIns (r : Rel)
  /-- Release of `CLUSTER_gtq_lock`, then around the loop. -/
  | unlock
  /-- Release of `CLUSTER_gtq_lock` before the return of `TQ_RET_SYNC`. -/
  | unlockSync
  deriving DecidableEq

/-- The groups still to be enqueued by `SW_TaskQueue_Loop_PARALLEL`, with the place of the current
one in the descriptors that were drawn for all of them. -/
structure Work where
  /-- Task bounds of the current group and of those that follow. -/
  groups : List (List (ℕ×ℕ))
  /-- `tq_base_offset + tq_group_offset`. -/
  offset : ℕ
  /-- `local_enqueue_count` while it is positive. -/
  left : ℕ
  deriving DecidableEq

/-- Task bounds of the current group. -/
def Work.current (w : Work) : List (ℕ×ℕ) := w.groups.headD []

/-- The pointer to task `k` of the current group. -/
def Work.ptr (w : Work) (k : ℕ) : ℕ := w.offset+k+1

/-- Pointers of the current group in order. -/
def Work.nodes (w : Work) : List ℕ := (List.range w.current.length).map w.ptr

/-- The work after the current group. -/
def Work.rest (w : Work) : Work := {w with groups := w.groups.tail,offset := w.offset+8}

/-- `SW_TaskQueue_Loop_PARALLEL`, from the try-lock to the return: the senses, the draw of the
descriptors, the stores of stage 1, and for every group the stores of its pointers and its
publication, or its links into the local queue. -/
inductive ParPc where
  /-- The try-lock on `CLUSTER_gtq_lock`. -/
  | tryGtq (k : Try)
  /-- Test of `CLUSTER_percluster_enqueue_loop`. -/
  | chk
  /-- Load of `CLUSTER_percluster_enqueue_loop`, to flip it. -/
  | togLd
  /-- Store of the flipped value. -/
  | togSt (v : ℕ)
  /-- `TQ_DESC_POOL_GET`. -/
  | pool (groups : List (List (ℕ×ℕ)))
  /-- Store of word `f` of task `k` of the current group. -/
  | fill (w : Work) (k : ℕ) (f : Field)
  /-- Acquire of the local queue lock. -/
  | acq (w : Work) (a : Acq)
  /-- Test of the local queue. -/
  | head (w : Work)
  /-- Load of the head for the link of the last task. -/
  | insHead (w : Work)
  /-- Store of the head into `next` of the last task. -/
  | insNext (w : Work) (v : ℕ)
  /-- Store of the first task into the head. -/
  | insSet (w : Work)
  /-- Release after the local insertion. -/
  | relLocal (w : Work) (r : Rel)
  /-- Release before the global enqueue. -/
  | relGlobal (w : Work) (r : Rel)
  /-- `atom.xchg` on `GLOBAL_tq_enqueue_lock`. -/
  | lock (w : Work)
  /-- Load of the tail index. -/
  | loadTail (w : Work)
  /-- Store of task pointer `i`: the first to the slot of the tail, the others to slot 0. -/
  | storeTask (w : Work) (tail i : ℕ)
  /-- Store of `NULL` into `next` of the last task. -/
  | storeNull (w : Work)
  /-- `atom.inc` of the tail index. -/
  | incTail (w : Work)
  /-- Release of `GLOBAL_tq_enqueue_lock`. -/
  | unlockEnqueue (w : Work)
  /-- Release of `CLUSTER_gtq_lock`. -/
  | unlock
  deriving DecidableEq

/-- `SW_TaskQueue_Loop_SEQUENTIAL` of thread 0; `idx` is the descriptor of the
current group's first task. -/
inductive SeqPc where
  /-- `spin_lock` on `GLOBAL_tq_enqueue_lock`. -/
  | lock
  /-- Load of the tail index. -/
  | loadTail
  /-- Store of word `f` of task `k` of the current group. -/
  | fill (idx : ℕ) (groups : List (List (ℕ×ℕ))) (k : ℕ) (f : Field)
  /-- Store of task pointer `k`. -/
  | storeTask (idx : ℕ) (groups : List (List (ℕ×ℕ))) (k : ℕ)
  /-- Store of `NULL` into `next` of the last task. -/
  | storeNull (idx : ℕ) (groups : List (List (ℕ×ℕ)))
  /-- `atom.inc` of the tail index. -/
  | incTail (idx : ℕ) (groups : List (List (ℕ×ℕ)))
  /-- `spin_unlock`. -/
  | unlock
  deriving DecidableEq

/-- Where a thread is: in the client, or in one of the functions of the queue. Each of these has its
own accesses, and a call carries its arguments. -/
inductive Pc where
  /-- Outside the queue. -/
  | outside
  /-- In `SW_TaskQueue_Dequeue_FAST`. -/
  | fast (p : FastPc)
  /-- In `SW_TaskQueue_Dequeue_SLOW`. -/
  | slow (p : SlowPc)
  /-- In the fetch of group number `pf` of this round. -/
  | fetch (pf : ℕ) (p : FetchPc)
  /-- In `SW_TaskQueue_Loop_PARALLEL`. -/
  | par (args : Args) (p : ParPc)
  /-- In `SW_TaskQueue_Loop_SEQUENTIAL`. -/
  | seq (args : Args) (p : SeqPc)

/-- Local state of a thread: where it is, and its own entries of the two arrays of senses that only
it reads and writes. -/
structure Local where
  /-- The next access. -/
  pc : Pc
  /-- `LOCAL_percore_sense`. -/
  sense : ℕ
  /-- `LOCAL_percore_sense_enqueue_loop`. -/
  enqueueSense : ℕ

/-- What a thread outside the queue does next. Inside a function the choice has no effect. -/
inductive Choice where
  /-- Nothing. -/
  | stay
  /-- `SW_TaskQueue_Dequeue`. -/
  | dequeue
  /-- `SW_TaskQueue_Loop_PARALLEL`. -/
  | loopParallel (args : Args)
  /-- `SW_TaskQueue_Loop_SEQUENTIAL`. -/
  | loopSequential (args : Args)

end RigelTarget.TaskQueueModel
