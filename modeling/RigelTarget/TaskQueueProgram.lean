import RigelTarget.TaskQueueModel

/-!
# The program of the software task queue

For every local state of `TaskQueueModel`: the access it performs, the local
state that follows its result and the event it makes visible. `program` puts the
three together for `n` clusters of `m` threads, and `initial` is the state left
by `SW_TaskQueue_Init`. Events record what the claims of later modules speak
about; no step reads them.
-/

namespace RigelTarget.TaskQueueProgram

open SharedMemory TaskQueueModel

/-- A thread: its cluster and its number in the cluster. -/
abbrev Thread (n m : ℕ) := Fin n×Fin m

/-- Visible events: what the functions return, and the stores by which the groups, the tasks and the
barrier go on. The invariants and the claims speak of them. -/
inductive Event (n m : ℕ) where
  /-- Call of `SW_TaskQueue_Loop_PARALLEL`. -/
  | parCall (t : Thread n m)
  /-- The enqueue body was entered: the cluster's enqueue sense was flipped. -/
  | body (t : Thread n m)
  /-- `SW_TaskQueue_Loop_SEQUENTIAL` returned `TQ_RET_SUCCESS`. -/
  | seqReturn (t : Thread n m) (args : Args)
  /-- The descriptor at `p` was written. -/
  | fill (t : Thread n m) (p : ℕ) (d : Desc)
  /-- The tail index was incremented from `i`, for these tasks. -/
  | publish (t : Thread n m) (i : ℕ) (nodes : List ℕ)
  /-- `global_swtq_cluster_dequeue` returned `TQ_RET_SUCCESS` for ticket `i`. -/
  | group (t : Thread n m) (i first : ℕ)
  /-- A list was linked in front of the local queue. -/
  | insert (t : Thread n m) (nodes : List ℕ)
  /-- The first task of the local queue was unlinked. -/
  | pop (t : Thread n m) (p : ℕ)
  /-- A dequeue returned `TQ_RET_SUCCESS` with the words copied from `p`. -/
  | success (t : Thread n m) (p : ℕ) (words : List ℕ)
  /-- `GLOBAL_percluster_sense` was flipped. -/
  | decide (t : Thread n m)
  /-- `CLUSTER_percore_sense` of the cluster was flipped. -/
  | pass (t : Thread n m)
  /-- A dequeue returned `TQ_RET_SYNC`. -/
  | sync (t : Thread n m)
  deriving DecidableEq

/-- The words of a descriptor in memory order. -/
def wordField : ℕ → Field
  | 0 => .v1
  | 1 => .v2
  | 2 => .v3
  | 3 => .v4
  | _ => .next

/-- The field that is stored after `f`. -/
def fieldAfter : Field → Option Field
  | .v1 => some .v2
  | .v2 => some .v3
  | .v3 => some .v4
  | .v4 => some .next
  | .next => none

/-- The descriptor of one task of a loop. -/
def taskDesc (args : Args) (bounds : ℕ×ℕ) : Desc :=
  ⟨args.tdesc.v1,args.tdesc.v2,bounds.1,bounds.2⟩

/-- The value stored into a field of the descriptor at `p`. The pointer to the next entry is that of
the neighbour in the array; the last one of a group is overwritten by `NULL` afterwards. -/
def fieldValue (d : Desc) (p : ℕ) : Field → ℕ
  | .v1 => d.v1
  | .v2 => d.v2
  | .v3 => d.v3
  | .v4 => d.v4
  | .next => p+1

/-- The wraparound test of the dequeue: the compared head and tail indices. A head that is ahead of
the tail by more than the size of the pool is taken for one from before a wraparound of the tail: it
is reduced to its slot, and the tail is moved on by the size of the pool. -/
def wrapIndices (h tail : ℕ) : ℕ×ℕ :=
  if (tail+globalTqSize)%wordSize<h then (h%groupSlots,(tail+globalTqSize)%wordSize) else (h,tail)

section Steps

variable {n : ℕ} (m : ℕ) (cfg : Config) (c : Fin n)

/-- Accesses of the fast path, in the order of the source. -/
def fastAccess : FastPc → Access (Loc n)
  | .acq a => a.access c
  | .head _ => .load (.taskqueueHead c)
  | .relEmpty ticket => .store (.ticketPoll c) ((ticket+1)%wordSize)
  | .headAgain _ => .load (.taskqueueHead c)
  | .next _ p => .load (.desc p .next)
  | .setHead _ _ successor => .store (.taskqueueHead c) successor
  | .relPop ticket _ => .store (.ticketPoll c) ((ticket+1)%wordSize)
  | .copy p got => .load (.desc p (wordField got.length))

/-- Steps of the fast path: it takes the first task of the local queue and copies it after it has
released the lock. An empty local queue ends in the slow path. -/
def fastNext : FastPc → ℕ → Pc
  | .acq a, r => match a.next r with
    | some a' => .fast (.acq a')
    | none => .fast (.head a.ticket)
  | .head ticket, r => if r=0 then .fast (.relEmpty ticket) else .fast (.headAgain ticket)
  | .relEmpty _, _ => .slow (.inc .ldl)
  | .headAgain ticket, r => .fast (.next ticket r)
  | .next ticket p, r => .fast (.setHead ticket p r)
  | .setHead ticket p _, _ => .fast (.relPop ticket p)
  | .relPop _ p, _ => .fast (.copy p [])
  | .copy p got, r => if got.length<3 then .fast (.copy p (got++[r])) else .outside

/-- Accesses of the slow path, in the order of the source. -/
def slowAccess : SlowPc → Access (Loc n)
  | .inc u => u.access c fun v => (v+1)%wordSize
  | .sense => .load (.percoreSense c)
  | .acq a => a.access c
  | .senseLocked => .load (.percoreSense c)
  | .relSync r => r.access c
  | .head => .load (.taskqueueHead c)
  | .headAgain => .load (.taskqueueHead c)
  | .copy p got => .load (.desc p (wordField got.length))
  | .next p _ => .load (.desc p .next)
  | .setHead _ _ successor => .store (.taskqueueHead c) successor
  | .dec _ _ u => u.access c decWord
  | .relPop _ _ r => r.access c
  | .relNull r => r.access c
  | .tryGtq k => k.access c

/-- Steps of the slow path; `sense` is the private sense of the thread. A thread leaves by a task
from the local queue, or by `TQ_RET_SYNC` when the sense of the cluster has become its own. -/
def slowNext (sense : ℕ) : SlowPc → ℕ → Pc
  | .inc u, r => match u.next r with
    | some u' => .slow (.inc u')
    | none => .slow .sense
  | .sense, r => if r=sense then .slow (.acq .ldl) else .outside
  | .acq a, r => match a.next r with
    | some a' => .slow (.acq a')
    | none => .slow .senseLocked
  | .senseLocked, r => if r=sense then .slow .head else .slow (.relSync .ld)
  | .relSync l, r => match l.next r with
    | some l' => .slow (.relSync l')
    | none => .outside
  | .head, r => if r=0 then .slow (.relNull .ld) else .slow .headAgain
  | .headAgain, r => .slow (.copy r [])
  | .copy p got, r =>
    if got.length<3 then .slow (.copy p (got++[r])) else .slow (.next p (got++[r]))
  | .next p got, r => .slow (.setHead p got r)
  | .setHead p got _, _ => .slow (.dec p got .ldl)
  | .dec p got u, r => match u.next r with
    | some u' => .slow (.dec p got u')
    | none => .slow (.relPop p got .ld)
  | .relPop p got l, r => match l.next r with
    | some l' => .slow (.relPop p got l')
    | none => .outside
  | .relNull l, r => match l.next r with
    | some l' => .slow (.relNull l')
    | none => .slow (.tryGtq .ldl)
  | .tryGtq k, r => match k.next r with
    | .inl k' => .slow (.tryGtq k')
    | .inr true => .fetch 1 .sense
    | .inr false => .slow .sense

/-- Accesses inside the barrier: the loop of `global_swtq_cluster_dequeue` over the tail index, the
threads waiting in the cluster and the clusters waiting, and the stores that decide the barrier. -/
def barAccess : BarPc → Access (Loc n)
  | .gsense => .load .globalSense
  | .csense _ => .load (.perclusterSense c)
  | .tail => .load .tailIndex
  | .acqTest _ a => a.access c
  | .test _ => .load (.coreWaitcount c)
  | .relTest _ _ r => r.access c
  | .incSel _ => .load (.perclusterSense c)
  | .incWc _ s => .rmw (waitLoc s) fun v => (v+1)%wordSize
  | .reSense _ => .load .globalSense
  | .reCsense _ _ => .load (.perclusterSense c)
  | .decSel _ => .load (.perclusterSense c)
  | .decWc _ s => .rmw (waitLoc s) decWord
  | .backLd _ => .load (.perclusterSense c)
  | .backSt _ v => .store (.perclusterSense c) (flipSense v)
  | .wcSel _ => .load (.perclusterSense c)
  | .wcLd _ s => .load (waitLoc s)
  | .setHead tail => .store .headIndex tail
  | .rstSel _ => .load (.perclusterSense c)
  | .rstWc _ s => .store (waitLoc (flipSense s)) 0
  | .flipLd _ => .load (.perclusterSense c)
  | .flip _ v => .store .globalSense v
  | .passW => .store (.coreWaitcount c) 0
  | .passLd => .load (.percoreSense c)
  | .passSt v => .store (.percoreSense c) (flipSense v)

/-- The end of an iteration of the barrier loop: a valid ticket backs out, the last
ticket looks at the waiting counter, any other ticket goes around. -/
def barBranch (h : ℕ) (counted : Bool) (tail : ℕ) : FetchPc :=
  let w := wrapIndices h tail
  if w.1<w.2 then .bar h counted (.reSense tail)
  else if w.1=decWord (w.2+n) then .bar h counted (.wcSel tail)
  else .bar h counted .gsense

/-- Steps inside the barrier. A cluster may leave it by the group of its ticket, by the sense that
another cluster has flipped, or by flipping it itself as the last one. -/
def barNext (h : ℕ) (counted : Bool) : BarPc → ℕ → FetchPc
  | .gsense, r => .bar h counted (.csense r)
  | .csense g, r => if g=r then .bar h counted .passW else .bar h counted .tail
  | .tail, r => if counted=true then barBranch (n := n) h counted r
    else .bar h counted (.acqTest r .ldl)
  | .acqTest tail a, r => match a.next r with
    | some a' => .bar h counted (.acqTest tail a')
    | none => .bar h counted (.test tail)
  | .test tail, r => .bar h counted (.relTest tail (decide (m=r)) .ld)
  | .relTest tail pending l, r => match l.next r with
    | some l' => .bar h counted (.relTest tail pending l')
    | none => if pending=true then .bar h counted (.incSel tail)
      else barBranch (n := n) h counted tail
  | .incSel tail, r => .bar h counted (.incWc tail r)
  | .incWc tail _, _ => barBranch (n := n) h true tail
  | .reSense tail, r => .bar h counted (.reCsense tail r)
  | .reCsense tail g, r => if g=r then .bar h counted .gsense
    else if counted=true then .bar h counted (.decSel tail) else .bar h counted (.backLd tail)
  | .decSel tail, r => .bar h counted (.decWc tail r)
  | .decWc tail _, _ => .bar h false (.backLd tail)
  | .backLd tail, r => .bar h counted (.backSt tail r)
  | .backSt tail _, _ => .slot h ((wrapIndices h tail).1%groupSlots)
  | .wcSel tail, r => .bar h counted (.wcLd tail r)
  | .wcLd tail _, r => if n=r then .bar h counted (.setHead tail) else .bar h counted .gsense
  | .setHead tail, _ => .bar h counted (.rstSel tail)
  | .rstSel tail, r => .bar h counted (.rstWc tail r)
  | .rstWc tail _, _ => .bar h counted (.flipLd tail)
  | .flipLd tail, r => .bar h counted (.flip tail r)
  | .flip _ _, _ => .bar h counted .passW
  | .passW, _ => .bar h counted .passLd
  | .passLd, r => .bar h counted (.passSt r)
  | .passSt _, _ => .unlockSync

/-- Accesses with `CLUSTER_gtq_lock` held by the slow path: the ticket for a group, the barrier, the
pointer of the group and its links into the local queue. -/
def fetchAccess : FetchPc → Access (Loc n)
  | .sense => .load (.percoreSense c)
  | .head => .load (.taskqueueHead c)
  | .inc => .rmw .headIndex fun v => (v+1)%wordSize
  | .tail _ => .load .tailIndex
  | .enterLd _ => .load (.perclusterSense c)
  | .enterSt _ v => .store (.perclusterSense c) (flipSense v)
  | .bar _ _ b => barAccess c b
  | .slot _ idx => .load (.task idx 0)
  | .walk _ _ p => .load (.desc p .next)
  | .acqIns _ _ _ a => a.access c
  | .insHead _ _ _ => .load (.taskqueueHead c)
  | .insNext _ _ p v => .store (.desc p .next) v
  | .insSet first _ _ => .store (.taskqueueHead c) first
  | .relIns r => r.access c
  | .unlock => .store (.gtqLock c) 0
  | .unlockSync => .store (.gtqLock c) 0

/-- Steps with `CLUSTER_gtq_lock` held by the slow path, in fetch number `pf`. The
call always allows blocking, since the count is incremented before it is tested. -/
def fetchNext (sense pf : ℕ) : FetchPc → ℕ → Pc
  | .sense, r => if r=sense then .fetch pf .head else .fetch pf .unlockSync
  | .head, r => if r=0 ∧ 0 < cfg.fetch then .fetch pf .inc else .fetch pf .unlock
  | .inc, r => .fetch pf (.tail r)
  | .tail h, r =>
    if (wrapIndices h r).1<(wrapIndices h r).2 then .fetch pf (.slot h (h%groupSlots))
    else .fetch pf (.enterLd h)
  | .enterLd h, r => .fetch pf (.enterSt h r)
  | .enterSt h _, _ => .fetch pf (.bar h false .gsense)
  | .bar h counted b, r => .fetch pf (barNext (n := n) m h counted b r)
  | .slot _ _, r => .fetch pf (.walk r [] r)
  | .walk first passed p, r =>
    if r=0 then .fetch pf (.acqIns first passed p .ldl)
    else .fetch pf (.walk first (passed++[p]) r)
  | .acqIns first passed p a, r => match a.next r with
    | some a' => .fetch pf (.acqIns first passed p a')
    | none => .fetch pf (.insHead first passed p)
  | .insHead first passed p, r => .fetch pf (.insNext first passed p r)
  | .insNext first passed p _, _ => .fetch pf (.insSet first passed p)
  | .insSet _ _ _, _ => .fetch pf (.relIns .ld)
  | .relIns l, r => match l.next r with
    | some l' => .fetch pf (.relIns l')
    | none => if pf < cfg.fetch then .fetch (pf+1) .inc else .fetch pf .unlock
  | .unlock, _ => .slow .sense
  | .unlockSync, _ => .outside

/-- The task groups of the cluster's share; `none` when it starts past the end, in which case the
function returns before it draws descriptors. -/
def parGroups (args : Args) : Option (List (List (ℕ×ℕ))) :=
  if args.totIters≤LoopPartition.perClusterIter cfg.shift args.totIters args.itersPerTask c then
    none
  else some ((LoopPartition.enqueueBody cfg.shift args.totIters args.itersPerTask c).getD [])

/-- Continue with the next group, or release the lock when there is none. -/
def parGroup (w : Work) : ParPc := if w.groups=[] then .unlock else .fill w 0 .v1

/-- Accesses of the parallel enqueue. The pointers of the second and later tasks of a group go to
the words of slot 0, the pointer of the first to the slot of the tail, which is not reduced to the
size of the index. -/
def parAccess (args : Args) : ParPc → Access (Loc n)
  | .tryGtq k => k.access c
  | .chk => .load (.enqueueLoop c)
  | .togLd => .load (.enqueueLoop c)
  | .togSt v => .store (.enqueueLoop c) (flipSense v)
  | .pool _ => .rmw .headData fun v => (v+8*LoopPartition.perClusterTaskGroups cfg.shift
      args.totIters args.itersPerTask)%wordSize
  | .fill w k f => .store (.desc (w.ptr k) f)
      (fieldValue (taskDesc args (w.current.getD k (0,0))) (w.ptr k) f)
  | .acq _ a => a.access c
  | .head _ => .load (.taskqueueHead c)
  | .insHead _ => .load (.taskqueueHead c)
  | .insNext w v => .store (.desc (w.ptr (w.current.length-1)) .next) v
  | .insSet w => .store (.taskqueueHead c) (w.ptr 0)
  | .relLocal _ r => r.access c
  | .relGlobal _ r => r.access c
  | .lock _ => .rmw .enqueueLock fun _ => 1
  | .loadTail _ => .load .tailIndex
  | .storeTask w tail i => .store (.task (if i=0 then tail%2^27 else 0) i) (w.ptr i)
  | .storeNull w => .store (.desc (w.ptr (w.current.length-1)) .next) 0
  | .incTail _ => .rmw .tailIndex fun v => (v+1)%wordSize
  | .unlockEnqueue _ => .rmw .enqueueLock fun _ => 0
  | .unlock => .store (.gtqLock c) 0

/-- Steps of the parallel enqueue; `enqueueSense` is already flipped after the try-lock. Only the
thread that finds the sense of the cluster different from its own enqueues. -/
def parNext (args : Args) (enqueueSense : ℕ) : ParPc → ℕ → Pc
  | .tryGtq k, r => match k.next r with
    | .inl k' => .par args (.tryGtq k')
    | .inr true => .par args .chk
    | .inr false => .outside
  | .chk, r => if r=enqueueSense then .par args .unlock else .par args .togLd
  | .togLd, r => .par args (.togSt r)
  | .togSt _, _ => match parGroups cfg c args with
    | some groups => .par args (.pool groups)
    | none => .par args .unlock
  | .pool groups, r => .par args (parGroup ⟨groups,r%globalTqSize,cfg.localEnqueueCount⟩)
  | .fill w k f, _ => match fieldAfter f with
    | some f' => .par args (.fill w k f')
    | none => if k+1<w.current.length then .par args (.fill w (k+1) .v1)
      else .par args (.acq w .ldl)
  | .acq w a, r => match a.next r with
    | some a' => .par args (.acq w a')
    | none => .par args (.head w)
  | .head w, r =>
    if r=0 then .par args (.insHead w)
    else if 0<w.left ∨ cfg.dataparMode=true then .par args (.insHead {w with left := w.left-1})
    else .par args (.relGlobal w .ld)
  | .insHead w, r => .par args (.insNext w r)
  | .insNext w _, _ => .par args (.insSet w)
  | .insSet w, _ => .par args (.relLocal w .ld)
  | .relLocal w l, r => match l.next r with
    | some l' => .par args (.relLocal w l')
    | none => .par args (parGroup w.rest)
  | .relGlobal w l, r => match l.next r with
    | some l' => .par args (.relGlobal w l')
    | none => .par args (.lock w)
  | .lock w, r => if r=0 then .par args (.loadTail w) else .par args (.lock w)
  | .loadTail w, r => .par args (.storeTask w r 0)
  | .storeTask w tail i, _ =>
    if i+1<w.current.length then .par args (.storeTask w tail (i+1)) else .par args (.storeNull w)
  | .storeNull w, _ => .par args (.incTail w)
  | .incTail w, _ => .par args (.unlockEnqueue w)
  | .unlockEnqueue w, _ => .par args (parGroup w.rest)
  | .unlock, _ => .outside

/-- The pointer to task `k` of the group at `idx`; the mask keeps it in the array. -/
def seqPtr (idx k : ℕ) : ℕ := (idx+k)%globalTqSize+1

/-- Task bounds of the first of the remaining groups. -/
def seqCurrent (groups : List (List (ℕ×ℕ))) : List (ℕ×ℕ) := groups.headD []

/-- Continue with the next group, or release the lock. -/
def seqGroup (idx : ℕ) (groups : List (List (ℕ×ℕ))) : SeqPc :=
  if groups=[] then .unlock else .fill idx groups 0 .v1

/-- All groups of a sequential enqueue. -/
def seqGroups (args : Args) : List (List (ℕ×ℕ)) :=
  (LoopPartition.stageOne args.itersPerTask args.totIters args.totIters 0).getD []

/-- Pointers of the first of the remaining groups. -/
def seqNodes (idx : ℕ) (groups : List (List (ℕ×ℕ))) : List ℕ :=
  (List.range (seqCurrent groups).length).map (seqPtr idx)

/-- Accesses of the sequential enqueue: the spin lock, the tail index once, and for every group the
stores of its descriptors and pointers and the increment of the tail. -/
def seqAccess (args : Args) : SeqPc → Access (Loc n)
  | .lock => .rmw .enqueueLock fun _ => 1
  | .loadTail => .load .tailIndex
  | .fill idx groups k f => .store (.desc (seqPtr idx k) f)
      (fieldValue (taskDesc args ((seqCurrent groups).getD k (0,0))) (seqPtr idx k) f)
  | .storeTask idx _ k => .store (.task ((idx+k)%globalTqSize/8) ((idx+k)%8)) (seqPtr idx k)
  | .storeNull idx groups => .store (.desc (seqPtr idx ((seqCurrent groups).length-1)) .next) 0
  | .incTail _ _ => .rmw .tailIndex fun v => (v+1)%wordSize
  | .unlock => .rmw .enqueueLock fun _ => 0

/-- Steps of the sequential enqueue. The descriptors follow each other from the slot of the tail on,
around the end of the array. -/
def seqNext (args : Args) : SeqPc → ℕ → Pc
  | .lock, r => if r=0 then .seq args .loadTail else .seq args .lock
  | .loadTail, r => .seq args (seqGroup (8*r%globalTqSize) (seqGroups args))
  | .fill idx groups k f, _ => match fieldAfter f with
    | some f' => .seq args (.fill idx groups k f')
    | none => .seq args (.storeTask idx groups k)
  | .storeTask idx groups k, _ =>
    if k+1<(seqCurrent groups).length then .seq args (.fill idx groups (k+1) .v1)
    else .seq args (.storeNull idx groups)
  | .storeNull idx groups, _ => .seq args (.incTail idx groups)
  | .incTail idx groups, _ => .seq args (seqGroup ((idx+8)%globalTqSize) groups.tail)
  | .unlock, _ => .outside

end Steps

section Threads

variable {n m : ℕ} (cfg : Config)

/-- `RigelGetThreadNum() == 0`. -/
def isThreadZero (t : Thread n m) : Bool := t.1.val==0 && t.2.val==0

/-- The access of a thread. -/
def access (t : Thread n m) (l : Local) : Access (Loc n) :=
  match l.pc with
  | .outside => .skip
  | .fast p => fastAccess t.1 p
  | .slow p => slowAccess t.1 p
  | .fetch _ p => fetchAccess t.1 p
  | .par args p => parAccess cfg t.1 args p
  | .seq args p => seqAccess args p

/-- The first step of a call. `SW_TaskQueue_Loop_SEQUENTIAL` returns at once on every
thread but thread 0. -/
def callPc (t : Thread n m) : Choice → Pc
  | .stay => .outside
  | .dequeue => .fast (.acq .ldl)
  | .loopParallel args => .par args (.tryGtq .ldl)
  | .loopSequential args => if isThreadZero t=true then .seq args .lock else .outside

/-- The next access of a thread. -/
def nextPc (t : Thread n m) (l : Local) (choice : Choice) (r : ℕ) : Pc :=
  match l.pc with
  | .outside => callPc t choice
  | .fast p => fastNext p r
  | .slow p => slowNext l.sense p r
  | .fetch pf p => fetchNext (n := n) m cfg l.sense pf p r
  | .par args p => parNext cfg t.1 args l.enqueueSense p r
  | .seq args p => seqNext args p r

/-- Whether this step returns `TQ_RET_SYNC`. -/
def returnsSync (l : Local) (r : ℕ) : Bool :=
  match l.pc with
  | .slow .sense => r != l.sense
  | .slow (.relSync (.st _)) => true
  | .fetch _ .unlockSync => true
  | _ => false

/-- Whether this step ends the try-lock of the parallel enqueue. -/
def endsTry (l : Local) (r : ℕ) : Bool :=
  match l.pc with
  | .par _ (.tryGtq .ldl) => r != 0
  | .par _ (.tryGtq .stc) => r == 1
  | _ => false

/-- The local state after a step. The private senses are flipped with the return of
`TQ_RET_SYNC` and with the end of the try-lock. -/
def next (t : Thread n m) (l : Local) (choice : Choice) (r : ℕ) : Local where
  pc := nextPc cfg t l choice r
  sense := if returnsSync l r=true then flipSense l.sense else l.sense
  enqueueSense := if endsTry l r=true then flipSense l.enqueueSense else l.enqueueSense

/-- Events of the barrier loop. -/
def barEvent (t : Thread n m) : BarPc → Option (Event n m)
  | .flip _ _ => some (.decide t)
  | .passSt _ => some (.pass t)
  | _ => none

/-- The event of a step that does not return `TQ_RET_SYNC`: what an enqueue has written, linked or
published, what a fetch has returned, what a dequeue has unlinked or delivered, and how the barrier
goes on. -/
def workEvent (t : Thread n m) (pc : Pc) (choice : Choice) (r : ℕ) : Option (Event n m) :=
  match pc, choice with
  | .outside, .loopParallel _ => some (.parCall t)
  | .outside, .loopSequential args =>
    if isThreadZero t=true then none else some (.seqReturn t args)
  | .fast (.setHead _ p _), _ => some (.pop t p)
  | .fast (.copy p got), _ => if got.length<3 then none else some (.success t p (got++[r]))
  | .slow (.setHead p _ _), _ => some (.pop t p)
  | .slow (.relPop p got (.st _)), _ => some (.success t p got)
  | .fetch _ (.bar _ _ b), _ => barEvent t b
  | .fetch _ (.slot h _), _ => some (.group t h r)
  | .fetch _ (.insSet _ passed p), _ => some (.insert t (passed++[p]))
  | .par _ (.togSt _), _ => some (.body t)
  | .par args (.fill w k .next), _ =>
    some (.fill t (w.ptr k) (taskDesc args (w.current.getD k (0,0))))
  | .par _ (.insSet w), _ => some (.insert t w.nodes)
  | .par _ (.incTail w), _ => some (.publish t r w.nodes)
  | .seq args (.fill idx groups k .next), _ =>
    some (.fill t (seqPtr idx k) (taskDesc args ((seqCurrent groups).getD k (0,0))))
  | .seq _ (.incTail idx groups), _ => some (.publish t r (seqNodes idx groups))
  | .seq args .unlock, _ => some (.seqReturn t args)
  | _, _ => none

/-- The event of a step. -/
def emit (t : Thread n m) (l : Local) (choice : Choice) (r : ℕ) : Option (Event n m) :=
  if returnsSync l r=true then some (.sync t) else workEvent t l.pc choice r

/-- The task queue as a program of the shared memory, for any number of clusters with any number of
threads each. -/
def program (n m : ℕ) (cfg : Config) :
    Program (Thread n m) (Loc n) Local Choice (Event n m) where
  access t l := access cfg t l
  next t l choice r := next cfg t l choice r
  emit t l choice r := emit t l choice r

/-- States of the task queue. -/
abbrev QState (n m : ℕ) := State (Thread n m) (Loc n) Local (Event n m)

/-- Turns of the task queue. -/
abbrev QTurn (n m : ℕ) := Turn (Thread n m) Choice

/-- The state left by `SW_TaskQueue_Init`, with every thread outside the queue. All words are zero
but the poll words of the ticket locks. -/
def initial (n m : ℕ) : QState n m where
  word x := match x with
    | .ticketPoll _ => 1
    | _ => 0
  link _ := none
  pc _ := ⟨.outside,0,0⟩
  trace := []

end Threads

/-- The settings of a queue with one group per fetch. -/
def oneGroup : Config := ⟨0,1,0,false⟩

/-- Arguments of `SW_TaskQueue_Enqueue`: one task of one iteration. -/
def singleTask : Args := ⟨1,1,⟨7,8,0,0⟩,by decide,by decide,by decide⟩

/-- A turn of thread `i` of a single cluster. -/
def alone {m : ℕ} (i : Fin m) (choice : Choice) : QTurn 1 m := ⟨(solo,i),choice,false⟩

end RigelTarget.TaskQueueProgram
