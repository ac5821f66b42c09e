import RigelTarget.TaskQueueDelivery

/-!
# Round trip of a single task

`SW_TaskQueue_Enqueue` hands its descriptor to `SW_TaskQueue_Loop_SEQUENTIAL` as a loop of one
iteration. The loop returns `TQ_RET_SUCCESS` at once on every thread but thread 0, and it writes the
bounds of the iteration into the third and the fourth word. So a descriptor comes back from a
dequeue as it was given only from thread 0, and only with the words 0 and 1 there.
-/

namespace RigelTarget.TaskQueueRoundTrip

open SharedMemory TaskQueueModel TaskQueueProgram TaskQueueSteps TaskQueueFrame TaskQueueLocks
  TaskQueueBarrier TaskQueueLists TaskQueueRoom TaskQueueSafety TaskQueuePrefetch TaskQueueCluster
  TaskQueueDelivery

variable {n m : ℕ} {cfg : Config}

/-- The arguments of the loop that `SW_TaskQueue_Enqueue` makes of a descriptor: one iteration, in
one task. -/
def enqueueArgs (tdesc : Desc) : Args := ⟨1,1,tdesc,singleTask.tot_lt,Nat.one_pos,singleTask.per_lt⟩

/-- `SW_TaskQueue_Enqueue`. It is a call of the loop and nothing else, so a client that calls the
loop with these arguments does the same. -/
def taskQueueEnqueue (tdesc : Desc) : Choice := .loopSequential (enqueueArgs tdesc)

/-- Whether a thread is in `SW_TaskQueue_Enqueue`. -/
def inEnqueue : Pc → Bool
  | .seq args _ => decide (args=enqueueArgs args.tdesc)
  | _ => false

/-- The call of `SW_TaskQueue_Enqueue` that an event ends: the thread and the descriptor that it
gave. The event is the return of `TQ_RET_SUCCESS`, and nothing else is ever returned. -/
def acceptedBy : Event n m → Option (Thread n m×Desc)
  | .seqReturn t args => if args=enqueueArgs args.tdesc then some (t,args.tdesc) else none
  | _ => none

/-- The calls of `SW_TaskQueue_Enqueue` that have returned, the latest first. -/
def accepted (es : List (Event n m)) : List (Thread n m×Desc) := es.filterMap acceptedBy

/-- The words that a turn writes for another call than `SW_TaskQueue_Enqueue`. -/
def otherTasks (cfg : Config) (s : QState n m) (turn : QTurn n m) : List (List ℕ) :=
  if inEnqueue (s.pc turn.thread).pc=true then [] else written (event cfg s turn).toList

/-- A run of the queue, with the words of all tasks that other calls than `SW_TaskQueue_Enqueue`
have written in it, the latest first. -/
inductive History (cfg : Config) (allowed : QState n m → QTurn n m → Prop) :
    QState n m → List (List ℕ) → Prop where
  /-- Nothing has happened. -/
  | init : History cfg allowed (initial n m) []
  /-- A turn that is allowed. -/
  | move {s : QState n m} {others : List (List ℕ)} (turn : QTurn n m) :
      History cfg allowed s others → allowed s turn →
      History cfg allowed (step (program n m cfg) s turn) (otherTasks cfg s turn++others)

/-- The words of the other tasks of a schedule. -/
def otherTasksOf (cfg : Config) : QState n m → List (QTurn n m) → List (List ℕ)
  | _, [] => []
  | s, turn::turns =>
    otherTasksOf cfg (step (program n m cfg) s turn) turns++otherTasks cfg s turn

/-- What dequeues have returned is what `SW_TaskQueue_Enqueue` was given, each descriptor once and
with all its words, next to what other calls have written. -/
def RoundTrip (es : List (Event n m)) (others : List (List ℕ)) : Prop :=
  (returned es).Perm ((accepted es).map (fun a => taskWords a.2)++others)

/-- All descriptors were given by thread 0 and have the bounds of the one iteration. -/
def GivenAsLoop (es : List (Event n m)) : Prop :=
  ∀ a∈accepted es, isThreadZero a.1=true ∧ a.2.v3=0 ∧ a.2.v4=1

/-- What all calls of a run have in common, those before an earlier barrier have. -/
theorem GivenAsLoop.suffix {before es : List (Event n m)} (h : GivenAsLoop es)
    (hsuffix : before <:+ es) : GivenAsLoop before := fun a ha =>
  h a ((hsuffix.filterMap acceptedBy).subset ha)

section Accounts

/-- The task that the loop writes for a descriptor. -/
def loopTask (tdesc : Desc) : Desc := taskDesc (enqueueArgs tdesc) (0,1)

/-- The tasks of the calls by thread 0 that have returned. The calls by other threads have none. -/
def finished (es : List (Event n m)) : List Desc :=
  ((accepted es).filter fun a => isThreadZero a.1).map fun a => loopTask a.2

/-- Whether the loop has written a task of the group at hand. -/
def afterFill : SeqPc → Bool
  | .lock => false
  | .loadTail => false
  | .fill _ _ _ _ => false
  | _ => true

/-- The task that a call of `SW_TaskQueue_Enqueue` has written before its return. -/
def pending : Pc → List Desc
  | .seq args p =>
    if args=enqueueArgs args.tdesc ∧ afterFill p=true then [loopTask args.tdesc] else []
  | _ => []

/-- The registers of a loop of one iteration: its only group has one task. -/
def OneTask : SeqPc → Prop
  | .fill _ groups k _ => groups=[[(0,1)]] ∧ k=0
  | .storeTask _ groups k => groups=[[(0,1)]] ∧ k=0
  | .storeNull _ groups => groups=[[(0,1)]]
  | .incTail _ groups => groups=[[(0,1)]]
  | _ => True

/-- The loop runs on thread 0, and in a call of `SW_TaskQueue_Enqueue` it has one iteration. -/
def LoopOk (t : Thread n m) : Pc → Prop
  | .seq args p => isThreadZero t=true ∧ (args=enqueueArgs args.tdesc → OneTask p)
  | _ => True

/-- The loop of one iteration has one group of one task. -/
theorem seqGroups_enqueue (tdesc : Desc) : seqGroups (enqueueArgs tdesc)=[[(0,1)]] := rfl

variable {word : Loc n → ℕ} {t : Thread n m} {sense esense : ℕ} {pc q : Pc} {w : Wr n}
  {e : Option (Event n m)}

/-- Every step keeps the registers of the loop. -/
theorem trans_loopOk (h : Trans cfg word t sense esense pc w e q) (hok : LoopOk t pc) :
    LoopOk t q := by
  cases h with
  | seqCall args hz => exact ⟨hz,fun _ => trivial⟩
  | fast h => cases h <;> trivial
  | slow h => cases h <;> trivial
  | fetch h => cases h <;> trivial
  | par h =>
    cases h with
    | pool groups => unfold parGroup; split <;> trivial
    | _ => trivial
  | seq h =>
    obtain ⟨hz,hone⟩ := hok
    cases h with
    | lock hfree => exact ⟨hz,fun _ => trivial⟩
    | spin htaken => exact ⟨hz,fun _ => trivial⟩
    | loadTail =>
      refine ⟨hz,fun he => ?_⟩
      rw [he,seqGroups_enqueue]
      exact ⟨rfl,rfl⟩
    | fill idx groups k f f' hf => exact ⟨hz,hone⟩
    | fillNext idx groups k => exact ⟨hz,hone⟩
    | storeTask idx groups k hlt =>
      refine ⟨hz,fun he => ?_⟩
      obtain ⟨rfl,rfl⟩ := hone he
      exact absurd hlt (by decide)
    | storeLast idx groups k hlast => exact ⟨hz,fun he => (hone he).1⟩
    | storeNull idx groups => exact ⟨hz,hone⟩
    | incTail idx groups =>
      refine ⟨hz,fun he => ?_⟩
      have hgroups : groups=[[(0,1)]] := hone he
      rw [hgroups]
      trivial
    | unlock => trivial
  | _ => trivial

/-- A thread that is not in `SW_TaskQueue_Enqueue` has no task of it. -/
theorem pending_eq_nil (hpc : inEnqueue pc=false) : pending pc=[] := by
  cases pc with
  | seq args p => exact if_neg fun h => of_decide_eq_false hpc h.1
  | _ => rfl

/-- Another call than `SW_TaskQueue_Enqueue` changes nothing in the accounts, and so does a call by
another thread than thread 0. -/
theorem trans_other (h : Trans cfg word t sense esense pc w e q) (hpc : inEnqueue pc=false) :
    pending q=[] ∧ finished e.toList=[] := by
  cases h with
  | seqCall args hz => exact ⟨if_neg fun h => Bool.false_ne_true h.2,rfl⟩
  | seqSkip args hz =>
    refine ⟨rfl,?_⟩
    by_cases hargs : args=enqueueArgs args.tdesc
    · simp [finished,accepted,acceptedBy,hargs.symm,hz]
    · simp [finished,accepted,acceptedBy,hargs]
  | fast h => cases h <;> exact ⟨rfl,rfl⟩
  | slow h => cases h <;> exact ⟨rfl,rfl⟩
  | fetch h =>
    cases h with
    | bar h => cases h <;> exact ⟨rfl,rfl⟩
    | _ => exact ⟨rfl,rfl⟩
  | par h => cases h <;> exact ⟨rfl,rfl⟩
  | seq h =>
    have hargs := of_decide_eq_false hpc
    cases h with
    | unlock =>
      exact ⟨rfl,by simp [finished,accepted,acceptedBy,hargs]⟩
    | _ => exact ⟨if_neg fun h => hargs h.1,rfl⟩
  | _ => exact ⟨rfl,rfl⟩

/-- The task of a call in progress. -/
theorem pending_enqueue (tdesc : Desc) (p : SeqPc) : pending (.seq (enqueueArgs tdesc) p)=
    if afterFill p=true then [loopTask tdesc] else [] :=
  if_congr (and_iff_right rfl) rfl rfl

/-- `SW_TaskQueue_Enqueue` writes one task, the one of its loop, and has it in its hands until its
return. -/
theorem trans_enqueue (h : Trans cfg word t sense esense pc w e q) (hok : LoopOk t pc)
    (hpc : inEnqueue pc=true) :
    written e.toList++(pending pc).map taskWords=(pending q++finished e.toList).map taskWords := by
  cases h with
  | @seq args p _ _ _ h =>
    obtain ⟨hz,hone⟩ := hok
    obtain ⟨tdesc,rfl⟩ : ∃ tdesc, args=enqueueArgs tdesc := ⟨_,of_decide_eq_true hpc⟩
    have hone := hone rfl
    cases h with
    | fillNext idx groups k =>
      obtain ⟨rfl,rfl⟩ := hone
      rw [pending_enqueue,pending_enqueue]
      rfl
    | storeTask idx groups k hlt =>
      obtain ⟨rfl,rfl⟩ := hone
      exact absurd hlt (by decide)
    | incTail idx groups =>
      rw [show groups=[[(0,1)]] from hone,pending_enqueue,pending_enqueue]
      rfl
    | unlock =>
      have hfinished : finished [Event.seqReturn t (enqueueArgs tdesc)]=[loopTask tdesc] := by
        simp [finished,accepted,acceptedBy,show (enqueueArgs tdesc).tdesc=tdesc from rfl,hz]
      rw [pending_enqueue,Option.toList_some,hfinished]
      rfl
    | _ =>
      simp only [pending_enqueue]
      rfl
  | _ => cases hpc

/-- What is written with an event is written before or by the event. -/
theorem written_append (e : Option (Event n m)) (es : List (Event n m)) :
    written (e.toList++es)=written e.toList++written es := by
  cases e with
  | none => rfl
  | some e => cases e <;> rfl

/-- The finished tasks with an event are finished before or by the event. -/
theorem finished_append (e : Option (Event n m)) (es : List (Event n m)) :
    finished (e.toList++es)=finished e.toList++finished es := by
  unfold finished accepted
  rw [List.filterMap_append,List.filter_append,List.map_append]

/-- Only thread 0 is ever in a call that writes. -/
theorem threadZero_of_inEnqueue (hok : LoopOk t pc) (hpc : inEnqueue pc=true) :
    isThreadZero t=true := by
  cases pc with
  | seq args p => exact hok.1
  | _ => cases hpc

/-- There is one thread 0. -/
theorem threadZero_unique {t u : Thread n m} (ht : isThreadZero t=true) (hu : isThreadZero u=true) :
    t=u := by
  simp only [isThreadZero,Bool.and_eq_true,beq_iff_eq] at ht hu
  exact Prod.ext (Fin.ext (ht.1.trans hu.1.symm)) (Fin.ext (ht.2.trans hu.2.symm))

end Accounts

section Run

variable {s : QState n m} {others : List (List ℕ)} {turn : QTurn n m}
  {allowed : QState n m → QTurn n m → Prop}

/-- A run with its other tasks is a run. -/
theorem History.reachable (h : History cfg allowed s others) :
    Reachable (program n m cfg) (initial n m) allowed s := by
  induction h with
  | init => exact .init
  | move turn _ ok ih => exact .move turn ih ok

/-- A schedule whose turns were checked is a run with its other tasks. -/
theorem History.of_allows [∀ s turn, Decidable (allowed s turn)] (h : History cfg allowed s others)
    {turns : List (QTurn n m)} (hall : allows (program n m cfg) allowed s turns=true) :
    History cfg allowed (run (program n m cfg) s turns) (otherTasksOf cfg s turns++others) := by
  induction turns generalizing s others with
  | nil => exact h
  | cons turn turns ih =>
    simp only [allows,Bool.and_eq_true,decide_eq_true_eq] at hall
    show History cfg allowed (run (program n m cfg) (step (program n m cfg) s turn) turns)
      ((otherTasksOf cfg (step (program n m cfg) s turn) turns++otherTasks cfg s turn)++others)
    rw [List.append_assoc]
    exact ih (.move turn h hall.1) hall.2

/-- A schedule from the first state on, with its other tasks computed. -/
theorem History.of_checked [∀ s turn, Decidable (allowed s turn)] {turns : List (QTurn n m)}
    (hall : allows (program n m cfg) allowed (initial n m) turns=true)
    (hothers : otherTasksOf cfg (initial n m) turns=others) :
    History cfg allowed (run (program n m cfg) (initial n m) turns) others := by
  have h := History.of_allows .init hall
  rwa [hothers,List.append_nil] at h

/-- Every event of a run was shown by a turn of it. -/
theorem History.before (h : History cfg allowed s others) {e : Event n m} {es : List (Event n m)}
    (he : e::es <:+ s.trace) : ∃ s' others' turn, History cfg allowed s' others' ∧ s'.trace=es ∧
      event cfg s' turn=some e := by
  induction h with
  | init => cases List.suffix_nil.1 he
  | @move s others turn h ok ih =>
    rw [trace_step] at he
    cases hevent : event cfg s turn with
    | none =>
      rw [hevent] at he
      exact ih he
    | some e' =>
      rw [hevent] at he
      rcases List.suffix_cons_iff.1 he with heq|hold
      · obtain ⟨rfl,rfl⟩ := List.cons.inj heq
        exact ⟨s,others,turn,h,rfl,hevent⟩
      · exact ih hold

/-- The loops of one iteration have their registers in every run. -/
theorem loopOk_reachable (hs : Reachable (program n m cfg) (initial n m) allowed s)
    (t : Thread n m) : LoopOk t (s.pc t).pc := by
  refine Reachable.invariant (I := fun s => ∀ t, LoopOk t (s.pc t).pc) ?_ ?_ hs t
  · exact fun t => trivial
  · intro s turn hs ok h
    exact step_pc_forall (Q := fun t (l : Local) => LoopOk t l.pc) _ _ _
      (trans_loopOk (trans_step cfg s turn (linkFresh_reachable hs)) (h _)) fun u _ => h u

/-- The accounts of a run: what was written is what `SW_TaskQueue_Enqueue` has finished or has in
its hands on thread 0, and what other calls have written. -/
theorem History.accounts (h : History cfg allowed s others) {z : Thread n m}
    (hz : isThreadZero z=true) : (written s.trace).Perm
      ((pending (s.pc z).pc++finished s.trace).map taskWords++others) := by
  induction h with
  | init => exact .refl _
  | @move s others turn h ok ih =>
    have ht := trans_step cfg s turn (linkFresh_reachable h.reachable)
    have hok := loopOk_reachable h.reachable turn.thread
    rw [trace_step,written_append,finished_append]
    unfold otherTasks
    cases hin : inEnqueue (s.pc turn.thread).pc with
    | true =>
      -- the call runs on thread 0 and accounts for its own task
      obtain rfl := threadZero_unique (threadZero_of_inEnqueue hok hin) hz
      have hone := trans_enqueue ht hok hin
      rw [if_pos rfl,List.nil_append,←List.append_assoc,List.map_append,←hone,List.append_assoc,
        List.append_assoc]
      refine (ih.append_left _).trans (.of_eq ?_)
      rw [List.map_append,List.append_assoc]
    | false =>
      obtain ⟨hpending,hfinished⟩ := trans_other ht hin
      have hsame : pending ((step (program n m cfg) s turn).pc z).pc=pending (s.pc z).pc := by
        by_cases hmove : z=turn.thread
        · rw [hmove,hpending,pending_eq_nil hin]
        · rw [pc_other _ _ _ hmove]
      rw [if_neg Bool.false_ne_true,hfinished,hsame,List.nil_append]
      exact (ih.append_left _).trans (List.perm_append_comm_assoc ..)

/-- A descriptor with the words of a task of the loop has the bounds of the iteration. -/
theorem loopTask_words {given tdesc : Desc} (h : taskWords (loopTask given)=taskWords tdesc) :
    tdesc.v3=0 ∧ tdesc.v4=1 := by
  simp only [taskWords,List.cons.injEq] at h
  exact ⟨h.2.2.1.symm,h.2.2.2.1.symm⟩

/-- A descriptor with the bounds of the iteration is the task that the loop writes for it. -/
theorem loopTask_eq {tdesc : Desc} (h : tdesc.v3=0 ∧ tdesc.v4=1) : loopTask tdesc=tdesc := by
  obtain ⟨v1,v2,v3,v4⟩ := tdesc
  obtain ⟨rfl,rfl⟩ := h
  rfl

/-- The finished tasks are the given descriptors if and only if all were given by thread 0 and with
the bounds of the loop. -/
theorem finished_perm_iff (es : List (Event n m)) :
    ((finished es).map taskWords).Perm ((accepted es).map fun a => taskWords a.2) ↔
      GivenAsLoop es := by
  unfold finished GivenAsLoop
  rw [List.map_map]
  refine ⟨fun h a ha => ?_,fun h => ?_⟩
  · -- no call is left out, so every call was made by thread 0
    have hlength := h.length_eq
    rw [List.length_map,List.length_map] at hlength
    refine ⟨List.length_filter_eq_length_iff.1 hlength a ha,?_⟩
    obtain ⟨b,-,hb⟩ := List.mem_map.1 (h.mem_iff.2 (List.mem_map_of_mem ha))
    exact loopTask_words hb
  · rw [List.filter_eq_self.2 fun a ha => (h a ha).1]
    exact .of_eq (List.map_congr_left fun a ha => congrArg taskWords (loopTask_eq (h a ha).2))

/-- When the barrier is decided, nobody is in `SW_TaskQueue_Enqueue`. -/
theorem pending_of_inDequeue {pc : Pc} (h : inDequeue pc=true) : pending pc=[] := by
  cases pc with
  | seq args p => cases h
  | _ => rfl

/-- When the barrier is decided, what has come back is the loop task of every call by thread 0, next
to what other calls have written. -/
theorem History.decided (hn : n<globalTqSize) (hm : m<wordSize)
    (h : History cfg (Supplied cfg) s others) {t : Thread n m}
    (he : event cfg s turn=some (.decide t)) :
    (returned s.trace).Perm ((finished s.trace).map taskWords++others) ∧
      (RoundTrip s.trace others ↔ GivenAsLoop s.trace) := by
  have hs := h.reachable
  have hq := queueInv_reachable hn hm hs
  have fresh := linkFresh_reachable hs
  have gtq := gtqInv_reachable hs
  have haccounts := h.accounts (z := (⟨0,t.1.pos⟩,⟨0,t.2.pos⟩)) rfl
  -- thread 0 waits in the barrier as all others do
  obtain ⟨-,hall⟩ := all_counted hq.barrier fresh gtq he
  obtain ⟨hwait,-⟩ := (calm_of_counted_fetch hq.barrier (hall ⟨0,t.1.pos⟩).2).2 ⟨0,t.2.pos⟩
  rw [pending_of_inDequeue (idle_of_waiting hwait).1,List.nil_append] at haccounts
  have hreturned := (hq.all_returned fresh gtq he).symm.trans haccounts
  refine ⟨hreturned,?_⟩
  rw [←finished_perm_iff]
  unfold RoundTrip
  refine ⟨fun hback => ?_,fun hgiven => hreturned.trans (hgiven.append_right _)⟩
  exact (List.perm_append_right_iff others).1 (hreturned.symm.trans hback)

/-- For any number of clusters, threads and groups per fetch, next to any other calls: when a
barrier is decided, dequeues have returned the loop task of every call of `SW_TaskQueue_Enqueue` by
thread 0, each once. The descriptors that the calls were given have come back if and only if all of
them were given by thread 0 with 0 and 1 as the third and the fourth word. A thread that returns
`TQ_RET_SYNC` passes a barrier for which this was so. -/
theorem enqueue_dequeue_round_trip (hn : n<2^18) (hm : m<2^32)
    (h : History cfg (Supplied cfg) s others) (turn : QTurn n m) :
    (∀ t, event cfg s turn=some (.decide t) →
      (returned s.trace).Perm ((finished s.trace).map taskWords++others) ∧
      (RoundTrip s.trace others ↔ GivenAsLoop s.trace)) ∧
    ∀ t, event cfg s turn=some (.sync t) → ∃ s' others' turn' u,
      History cfg (Supplied cfg) s' others' ∧ event cfg s' turn'=some (.decide u) ∧
      Event.decide u::s'.trace <:+ s.trace ∧ s'.trace.countP isDecide=syncs s t ∧
      (RoundTrip s'.trace others' ↔ GivenAsLoop s'.trace) := by
  refine ⟨fun t he => h.decided hn hm he,fun t he => ?_⟩
  have hs := h.reachable
  obtain ⟨hdecided,-⟩ := sync_safe (queueInv_reachable hn hm hs).barrier (linkFresh_reachable hs)
    (gtqInv_reachable hs) (ltqInv_reachable hm hs) he
  obtain ⟨e,before,hsuffix,hkind,hcount⟩ := exists_event hdecided
  cases e with
  | decide u =>
    obtain ⟨s',others',turn',h',rfl,he'⟩ := h.before hsuffix
    exact ⟨s',others',turn',u,h',he',hsuffix,hcount,(h'.decided hn hm he').2⟩
  | _ => cases hkind

end Run

/-- A single thread enqueues a descriptor whose third word is not 0, and dequeues until it decides
the barrier. -/
def thirdWord : List (QTurn 1 1) :=
  alone solo (taskQueueEnqueue ⟨7,8,1,0⟩)::List.replicate 11 (alone solo .stay)++
    alone solo .dequeue::List.replicate 49 (alone solo .stay)++
    alone solo .dequeue::List.replicate 40 (alone solo .stay)

/-- The second of two threads enqueues a descriptor, and both dequeue until they decide the
barrier. -/
def secondThread : List (QTurn 1 2) :=
  alone right (taskQueueEnqueue ⟨7,8,0,1⟩)::alone right .dequeue::alone left .dequeue::
    (List.replicate 40 [alone left .stay,alone right .stay]).flatten

/-- When the barrier is decided, the first call has returned and its descriptor has come back with
other words. -/
theorem thirdWord_run :
    allows (program 1 1 oneGroup) (Supplied oneGroup) (initial 1 1) thirdWord=true ∧
    event oneGroup (run (program 1 1 oneGroup) (initial 1 1) thirdWord) (alone solo .stay)=
      some (.decide (solo,solo)) ∧
    accepted (run (program 1 1 oneGroup) (initial 1 1) thirdWord).trace=
      [((solo,solo),⟨7,8,1,0⟩)] ∧
    returned (run (program 1 1 oneGroup) (initial 1 1) thirdWord).trace=[[7,8,0,1]] ∧
    otherTasksOf oneGroup (initial 1 1) thirdWord=[] := by
  decide +kernel

/-- When the barrier is decided, the second call has returned and nothing has come back. -/
theorem secondThread_run :
    allows (program 1 2 oneGroup) (Supplied oneGroup) (initial 1 2) secondThread=true ∧
    event oneGroup (run (program 1 2 oneGroup) (initial 1 2) secondThread) (alone left .stay)=
      some (.decide (solo,left)) ∧
    accepted (run (program 1 2 oneGroup) (initial 1 2) secondThread).trace=
      [((solo,right),⟨7,8,0,1⟩)] ∧
    returned (run (program 1 2 oneGroup) (initial 1 2) secondThread).trace=[] ∧
    otherTasksOf oneGroup (initial 1 2) secondThread=[] := by
  decide +kernel

/-- Calls that have returned `TQ_RET_SUCCESS` before a barrier whose descriptors have not come back
when it is decided: a third word is lost, and so is all that a second thread gives. -/
theorem enqueue_changes_descriptor :
    (History oneGroup (Supplied oneGroup) (run (program 1 1 oneGroup) (initial 1 1) thirdWord) [] ∧
      event oneGroup (run (program 1 1 oneGroup) (initial 1 1) thirdWord) (alone solo .stay)=
        some (.decide (solo,solo)) ∧
      ¬RoundTrip (run (program 1 1 oneGroup) (initial 1 1) thirdWord).trace []) ∧
    History oneGroup (Supplied oneGroup) (run (program 1 2 oneGroup) (initial 1 2) secondThread)
      [] ∧
      event oneGroup (run (program 1 2 oneGroup) (initial 1 2) secondThread) (alone left .stay)=
        some (.decide (solo,left)) ∧
      ¬RoundTrip (run (program 1 2 oneGroup) (initial 1 2) secondThread).trace [] := by
  obtain ⟨hallowed,hdecide,haccepted,hreturned,hothers⟩ := thirdWord_run
  obtain ⟨hallowed',hdecide',haccepted',hreturned',hothers'⟩ := secondThread_run
  refine ⟨⟨.of_checked hallowed hothers,hdecide,?_⟩,.of_checked hallowed' hothers',hdecide',?_⟩
  · unfold RoundTrip
    rw [haccepted,hreturned]
    decide
  · unfold RoundTrip
    rw [haccepted',hreturned']
    decide

/-- Two iterations in a task each. -/
def twoTasks : Args := ⟨2,1,⟨5,6,0,0⟩,by decide,Nat.one_pos,singleTask.per_lt⟩

/-- Thread 0 enqueues a task and a loop of two tasks. While the other thread is in its dequeue, it
enqueues another task, and then both dequeue. -/
def threeCalls : List (QTurn 1 2) :=
  alone left (taskQueueEnqueue ⟨7,8,0,1⟩)::List.replicate 11 (alone left .stay)++
    alone left (.loopSequential twoTasks)::List.replicate 17 (alone left .stay)++
    alone right .dequeue::List.replicate 20 (alone right .stay)++
    alone left (taskQueueEnqueue ⟨9,10,0,1⟩)::List.replicate 11 (alone left .stay)++
    (List.replicate 149 [alone left .dequeue,alone right .dequeue]).flatten

/-- The turns are supplied, and the next one decides the barrier. -/
theorem threeCalls_decide :
    allows (program 1 2 oneGroup) (Supplied oneGroup) (initial 1 2) threeCalls=true ∧
    event oneGroup (run (program 1 2 oneGroup) (initial 1 2) threeCalls) (alone left .stay)=
      some (.decide (solo,left)) ∧
    accepted (run (program 1 2 oneGroup) (initial 1 2) threeCalls).trace=
      [((solo,left),⟨9,10,0,1⟩),((solo,left),⟨7,8,0,1⟩)] ∧
    otherTasksOf oneGroup (initial 1 2) threeCalls=[[5,6,1,2],[5,6,0,1]] := by
  decide +kernel

/-- Later the thread that has decided returns `TQ_RET_SYNC`. -/
theorem threeCalls_sync :
    allows (program 1 2 oneGroup) (Supplied oneGroup) (initial 1 2)
      (threeCalls++List.replicate 4 (alone left .stay))=true ∧
    event oneGroup (run (program 1 2 oneGroup) (initial 1 2)
      (threeCalls++List.replicate 4 (alone left .stay))) (alone left .stay)=
        some (.sync (solo,left)) ∧
    accepted (run (program 1 2 oneGroup) (initial 1 2)
      (threeCalls++List.replicate 4 (alone left .stay))).trace=
        [((solo,left),⟨9,10,0,1⟩),((solo,left),⟨7,8,0,1⟩)] := by
  decide +kernel

/-- Both descriptors have come back when the barrier is decided, next to the tasks of the loop, and
the thread that returns `TQ_RET_SYNC` has passed such a barrier. -/
theorem enqueue_dequeue_round_trip_threeCalls :
    (returned (run (program 1 2 oneGroup) (initial 1 2) threeCalls).trace).Perm
      [[9,10,0,1],[7,8,0,1],[5,6,1,2],[5,6,0,1]] ∧
    ∃ u before others, Event.decide u::before <:+ (run (program 1 2 oneGroup) (initial 1 2)
        (threeCalls++List.replicate 4 (alone left .stay))).trace ∧ RoundTrip before others := by
  obtain ⟨hallowed,hdecide,haccepted,hothers⟩ := threeCalls_decide
  obtain ⟨hallowed',hsync,haccepted'⟩ := threeCalls_sync
  refine ⟨?_,?_⟩
  · have hgiven : GivenAsLoop (run (program 1 2 oneGroup) (initial 1 2) threeCalls).trace := by
      unfold GivenAsLoop
      rw [haccepted]
      decide
    have hback := ((enqueue_dequeue_round_trip (by decide) (by decide)
      (.of_checked hallowed hothers) (alone left .stay)).1 _ hdecide).2.2 hgiven
    unfold RoundTrip at hback
    rwa [haccepted] at hback
  · obtain ⟨s',others',-,u,-,-,hsuffix,-,hiff⟩ := (enqueue_dequeue_round_trip (by decide)
      (by decide) (.of_allows .init hallowed') (alone left .stay)).2 _ hsync
    refine ⟨u,s'.trace,others',hsuffix,hiff.2 ?_⟩
    refine GivenAsLoop.suffix ?_ ((List.suffix_cons _ _).trans hsuffix)
    unfold GivenAsLoop
    rw [haccepted']
    decide

end RigelTarget.TaskQueueRoundTrip
