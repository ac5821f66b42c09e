import RigelTarget.SharedMemory
import RigelTarget.X86TaskModel
import Mathlib.Data.List.Infix

/-!
# The ring of the x86 task model

Calls of `TaskQueue_Enqueue` and `TaskQueue_Dequeue` one after the other, each by some core. The
tail wraps around to zero at the end of the data, the head index does so one place later, and an
index is valid if it is below the tail. So the first call of `TaskQueue_Dequeue` after the tail has
wrapped around never returns; up to there the queue is a queue.
-/

namespace RigelTarget.X86BoundedRing

open X86TaskModel
open SharedMemory (solo)

variable {N : ℕ}

/-- A call of the task queue by a core. Calls are made one after the other here; which core makes
one does not matter to the ring. -/
inductive Call (N : ℕ) where
  /-- `TaskQueue_Enqueue`. -/
  | enqueue (c : Fin N) (tdesc : TaskDesc)
  /-- `TaskQueue_Dequeue`. -/
  | dequeue (c : Fin N)
  deriving DecidableEq

/-- The core that calls. -/
def Call.core : Call N → Fin N
  | .enqueue c _ => c
  | .dequeue c => c

/-- The call as the choice of the core, which is how the interleaved model starts it. -/
def Call.choice : Call N → Choice
  | .enqueue _ tdesc => .enqueue tdesc
  | .dequeue _ => .dequeue

/-- The descriptor that a call enqueues; a call of `TaskQueue_Dequeue` has none. -/
def Call.task : Call N → Option TaskDesc
  | .enqueue _ tdesc => some tdesc
  | .dequeue _ => none

/-- The enqueued descriptors in their order. The tail is their number, up to the size of the
data. -/
def tasks (calls : List (Call N)) : List TaskDesc := calls.filterMap Call.task

/-- The number of calls of `TaskQueue_Dequeue`, which is that of the tasks to be returned if the
queue never is empty. -/
def dequeues (calls : List (Call N)) : ℕ := calls.countP fun call => call.task.isNone

section Calls

variable (size : ℕ)

/-- The index of `GLOBAL_taskqueue_data` that the next critical section of a core accesses, if it
gets that far. The source does not check it against the size. -/
def accessed (s : QState N) (c : Fin N) : List ℕ :=
  match (s.core c).pc with
  | .enqueue _ => if size≠s.count then [s.tail] else []
  | .redeem headIdx _ => if 0 < s.count ∧ headIdx < s.tail then [headIdx] else []
  | _ => []

/-- Critical sections of a core until it has returned, with the accessed indices. The other cores
are outside meanwhile. -/
def finish (c : Fin N) : ℕ → QState N → Option (QState N×List ℕ)
  | 0, _ => none
  | fuel+1, s =>
    if (s.core c).pc=.ready then some (s,[])
    else (finish c fuel (step size s c .stay)).map fun r => (r.1,accessed size s c++r.2)

/-- A call until it has returned: the choice of the core, and then its critical sections. -/
def perform (fuel : ℕ) (s : QState N) (call : Call N) : Option (QState N×List ℕ) :=
  finish size call.core fuel (step size s call.core call.choice)

/-- Calls one after the other, each by its core. `none` when one of them does not return within its
sections. -/
def performAll (fuel : ℕ) : QState N → List (Call N) → Option (QState N×List ℕ)
  | s, [] => some (s,[])
  | s, call::calls =>
    (perform size fuel s call).bind fun r =>
      (performAll fuel r.1 calls).map fun r' => (r'.1,r.2++r'.2)

end Calls

/-- The descriptor that an event returns; all other events return none. -/
def successOf : Event N → Option TaskDesc
  | .success _ tdesc => some tdesc
  | _ => none

/-- The returned descriptors in their order. The trace has the latest event first. -/
def taken (s : QState N) : List TaskDesc := (s.trace.filterMap successOf).reverse

/-- No call of `TaskQueue_Dequeue` finds the queue empty, and none of `TaskQueue_Enqueue` finds it
full. -/
structure Valid (size : ℕ) (calls : List (Call N)) : Prop where
  /-- There is room for every task. -/
  room : ∀ done c tdesc, done++[.enqueue c tdesc]<+:calls →
    (tasks done).length<dequeues done+size
  /-- There is a task for every core. -/
  task : ∀ done c, done++[.dequeue c]<+:calls → dequeues done<(tasks done).length

/-- Every call returns, every accessed index is in the data, the tasks are returned in the order
in which they were enqueued, and the count is the number of tasks that were not returned. -/
def Served (size : ℕ) (calls : List (Call N)) : Prop :=
  ∃ fuel s used, performAll size fuel (initial N) calls=some (s,used) ∧ (∀ i∈used, i < size) ∧
    taken s=(tasks calls).take (dequeues calls) ∧
    s.count+dequeues calls=(tasks calls).length

/-- Every call of `TaskQueue_Dequeue` is made before `max_size` tasks were enqueued, that is, before
the tail wraps around. -/
def Early (size : ℕ) (calls : List (Call N)) : Prop :=
  ∀ done c, done++[.dequeue c]<+:calls → (tasks done).length < size

section Fuel

variable {size : ℕ} {c : Fin N} {s : QState N} {r : QState N×List ℕ}

/-- A core that has returned stays. -/
theorem finish_ready (fuel : ℕ) (h : (s.core c).pc=.ready) :
    finish size c (fuel+1) s=some (s,[]) := if_pos h

/-- A core in a call makes a step. -/
theorem finish_step (fuel : ℕ) (h : (s.core c).pc≠.ready) : finish size c (fuel+1) s=
    (finish size c fuel (step size s c .stay)).map fun r => (r.1,accessed size s c++r.2) :=
  if_neg h

/-- A core that returns with its next step. -/
theorem finish_last {s' : QState N} (fuel : ℕ) (hpc : (s.core c).pc≠.ready)
    (hstep : step size s c .stay=s') (hready : (s'.core c).pc=.ready) :
    finish size c (fuel+2) s=some (s',accessed size s c) := by
  rw [finish_step _ hpc,hstep,finish_ready _ hready,Option.map_some,List.append_nil]

/-- More fuel does not change the result. -/
theorem finish_mono {fuel : ℕ} (h : finish size c fuel s=some r) (more : ℕ) :
    finish size c (fuel+more) s=some r := by
  induction fuel generalizing s r with
  | zero => cases h
  | succ fuel ih =>
    rw [Nat.add_right_comm]
    by_cases hpc : (s.core c).pc=.ready
    · rw [finish_ready fuel hpc] at h
      rw [finish_ready _ hpc,h]
    · rw [finish_step fuel hpc] at h
      obtain ⟨r',hr,rfl⟩ := Option.map_eq_some_iff.1 h
      rw [finish_step _ hpc,ih hr]
      rfl

/-- More fuel does not change the result of the calls. -/
theorem performAll_mono {fuel : ℕ} {calls : List (Call N)}
    (h : performAll size fuel s calls=some r) (more : ℕ) :
    performAll size (fuel+more) s calls=some r := by
  induction calls generalizing s r with
  | nil => exact h
  | cons call calls ih =>
    obtain ⟨r',hr,hrest⟩ := Option.bind_eq_some_iff.1 h
    obtain ⟨r'',hr',rfl⟩ := Option.map_eq_some_iff.1 hrest
    have hfirst : perform size (fuel+more) s call=some r' := finish_mono hr more
    rw [performAll,hfirst,Option.bind_some,ih hr']
    rfl

/-- One more call. -/
theorem performAll_concat (fuel : ℕ) (s : QState N) (calls : List (Call N)) (call : Call N) :
    performAll size fuel s (calls++[call])=(performAll size fuel s calls).bind fun r =>
      (perform size fuel r.1 call).map fun r' => (r'.1,r.2++r'.2) := by
  induction calls generalizing s with
  | nil =>
    rw [List.nil_append,performAll,performAll,Option.bind_some]
    cases perform size fuel s call with
    | none => rfl
    | some r =>
      simp only [Option.bind_some,performAll,Option.map_some,List.append_nil,List.nil_append]
  | cons first calls ih =>
    rw [List.cons_append,performAll,performAll]
    cases perform size fuel s first with
    | none => rfl
    | some r =>
      rw [Option.bind_some,Option.bind_some,ih]
      cases performAll size fuel r.1 calls with
      | none => rfl
      | some r' =>
        rw [Option.bind_some,Option.map_some,Option.bind_some]
        cases perform size fuel r'.1 call with
        | none => rfl
        | some r'' => simp only [Option.map_some,List.append_assoc]

end Fuel

/-- The queue between two calls, after the tasks `ts` were enqueued and `d` were returned: the tail
is their number modulo the size, and the data holds the tasks that were not returned. -/
structure RingState (size : ℕ) (ts : List TaskDesc) (d : ℕ) (s : QState N) : Prop where
  /-- No assertion has failed. -/
  running : s.aborted=false
  /-- No core is in a call. -/
  outside : ∀ c, (s.core c).pc=.ready
  /-- The count is the number of tasks that were not returned. -/
  count : s.count+d=ts.length
  /-- They fit into the data. -/
  room : s.count ≤ size
  /-- The tail wraps around. -/
  tail : s.tail=ts.length%size
  /-- The head index does not. -/
  head : s.head=d
  /-- Nothing is returned after the tail has wrapped around. -/
  early : d < size
  /-- Before that, the tasks are in the data. -/
  data : ts.length < size → ∀ i (h : i<ts.length), s.data i=ts.get ⟨i,h⟩
  /-- The first tasks were returned. -/
  taken : taken s=ts.take d

section Step

variable {size d : ℕ} {ts : List TaskDesc} {s : QState N} {c : Fin N}

/-- A core in `TaskQueue_Enqueue` makes its one critical section, and no other core is in the
way. -/
theorem step_enqueue {tdesc : TaskDesc} (hrun : s.aborted=false)
    (hpc : (s.core c).pc=.enqueue tdesc) :
    step size s c .stay=enqueueStep size s c tdesc .ready := by
  unfold step
  rw [if_neg (by rw [hrun]; decide),hpc]

/-- A core before its reservation draws the next head index. -/
theorem step_reserve (hrun : s.aborted=false) (hpc : (s.core c).pc=.reserve) :
    step size s c .stay=reserveStep size s c := by
  unfold step
  rw [if_neg (by rw [hrun]; decide),hpc]

/-- A core in the loop of `TaskQueue_Dequeue` looks whether the index that it has drawn is there by
now. -/
theorem step_redeem {headIdx : ℕ} {did : Bool} (hrun : s.aborted=false)
    (hpc : (s.core c).pc=.redeem headIdx did) :
    step size s c .stay=dequeueStep s c headIdx did := by
  unfold step
  rw [if_neg (by rw [hrun]; decide),hpc]

/-- Nothing has happened yet. -/
theorem ring_initial (hsize : 0 < size) : RingState size [] 0 (initial N) where
  running := rfl
  outside _ := rfl
  count := rfl
  room := Nat.zero_le _
  tail := (Nat.zero_mod size).symm
  head := rfl
  early := hsize
  data _ i h := absurd h (Nat.not_lt_zero i)
  taken := rfl

/-- The core that steps has the new local state. -/
theorem put_core (s : QState N) (c : Fin N) (k : Core) : (s.put c k).core c=k := by
  change Function.update s.core c k c=k
  rw [Function.update_self]

/-- A core outside makes a call. -/
theorem RingState.step_call (h : RingState size ts d s) (c : Fin N) (choice : Choice) :
    step size s c choice=s.put c ⟨callPc choice,(s.core c).sense⟩ := by
  unfold step
  rw [if_neg (by rw [h.running]; decide),h.outside c]

/-- After a call all cores are outside again. -/
theorem RingState.outside_again (h : RingState size ts d s) (c : Fin N) (k : Core) (b : Bool)
    (e : Fin N) :
    (Function.update (Function.update s.core c k) c ⟨.ready,b⟩ e).pc=.ready := by
  rw [Function.update_idem]
  by_cases he : e=c
  · rw [he,Function.update_self]
  · rw [Function.update_of_ne he]
    exact h.outside e

/-- A task is put at the tail. -/
theorem RingState.data_concat (h : RingState size ts d s) (tdesc : TaskDesc)
    (hlt : (ts++[tdesc]).length < size) (i : ℕ) (hi : i<(ts++[tdesc]).length) :
    Function.update s.data s.tail tdesc i=(ts++[tdesc]).get ⟨i,hi⟩ := by
  have hlen : (ts++[tdesc]).length=ts.length+1 := List.length_append
  have htail : s.tail=ts.length := by
    rw [h.tail]
    exact Nat.mod_eq_of_lt (by omega)
  rw [htail,List.get_eq_getElem]
  by_cases he : i=ts.length
  · subst he
    rw [Function.update_self,List.getElem_concat_length rfl]
  · have hlow : i<ts.length := by omega
    rw [Function.update_of_ne he,List.getElem_append_left hlow]
    exact h.data (by omega) i hlow

/-- `TaskQueue_Enqueue` into a queue with room returns and adds the task, also where the tail wraps
around. -/
theorem RingState.enqueue (h : RingState size ts d s) (hroom : s.count < size) (c : Fin N)
    (tdesc : TaskDesc) (fuel : ℕ) :
    ∃ s', perform size (fuel+2) s (.enqueue c tdesc)=some (s',[s.tail]) ∧
      RingState size (ts++[tdesc]) d s' := by
  have hne : size≠s.count := by omega
  have hcount := h.count
  have hle : d≤ts.length := by omega
  have hlen : (ts++[tdesc]).length=ts.length+1 := List.length_append
  let m := s.put c ⟨.enqueue tdesc,(s.core c).sense⟩
  have hstep : enqueueStep size m c tdesc .ready=
      { m with
        data := Function.update s.data s.tail tdesc
        tail := (s.tail+1)%size
        count := s.count+1
        core := Function.update m.core c ⟨.ready,(m.core c).sense⟩
        trace := .enqueued c tdesc::s.trace } := if_pos hne
  refine ⟨enqueueStep size m c tdesc .ready,?_,?_⟩
  · have haccess : accessed size m c=[s.tail] := by
      unfold accessed
      rw [put_core]
      exact if_pos hne
    change finish size c (fuel+2) (step size s c (.enqueue tdesc))=_
    rw [h.step_call,←haccess]
    have hpc : (m.core c).pc=.enqueue tdesc := congrArg Core.pc (put_core s c _)
    have hinside : (m.core c).pc≠.ready := by
      rw [hpc]
      exact nofun
    refine finish_last fuel hinside (step_enqueue h.running hpc) ?_
    rw [hstep]
    exact h.outside_again c _ _ c
  · rw [hstep]
    exact {
      running := h.running
      outside := h.outside_again c _ _
      count := by
        change s.count+1+d=_
        omega
      room := hroom
      tail := by
        change (s.tail+1)%size=_
        rw [h.tail,hlen,Nat.mod_add_mod]
      head := h.head
      early := h.early
      data := h.data_concat tdesc
      taken := h.taken.trans (List.take_append_of_le_length hle).symm }

/-- The state in which core `c` has drawn index `d`. From here the loop of `TaskQueue_Dequeue` waits
for the tail to pass that index. -/
def drawn (s : QState N) (c : Fin N) (d : ℕ) : QState N :=
  { s.put c ⟨.redeem d false,(s.core c).sense⟩ with head := d+1 }

/-- The core that has drawn an index goes on to redeem it. -/
theorem drawn_core (s : QState N) (c : Fin N) (d : ℕ) :
    (drawn s c d).core c=⟨.redeem d false,(s.core c).sense⟩ := put_core s c _

/-- A core that has drawn an index is in a call. -/
theorem drawn_ready (s : QState N) (c : Fin N) (d : ℕ) : ((drawn s c d).core c).pc≠.ready := by
  rw [drawn_core]
  exact nofun

/-- `TaskQueue_Dequeue` draws the number of the next task. -/
theorem RingState.reserve (h : RingState size ts d s) (c : Fin N) :
    reserveStep size (s.put c ⟨.reserve,(s.core c).sense⟩) c=drawn s c d := by
  have hearly := h.early
  have hcore : Function.update (s.put c ⟨.reserve,(s.core c).sense⟩).core c
      ⟨.redeem d false,((s.put c ⟨.reserve,(s.core c).sense⟩).core c).sense⟩=
      Function.update s.core c ⟨.redeem d false,(s.core c).sense⟩ := by
    rw [put_core]
    exact Function.update_idem _ _ _
  unfold reserveStep
  change ({ s.put c ⟨.reserve,(s.core c).sense⟩ with
    head := if size < s.head+1 then (s.head+1)%size else s.head+1
    core := Function.update (s.put c ⟨.reserve,(s.core c).sense⟩).core c
      ⟨.redeem s.head false,((s.put c ⟨.reserve,(s.core c).sense⟩).core c).sense⟩ } : QState N)=_
  rw [h.head,if_neg (by omega),hcore]
  rfl

/-- `TaskQueue_Dequeue` goes on with the index it has drawn. -/
theorem RingState.perform_dequeue (h : RingState size ts d s) (c : Fin N) (fuel : ℕ) :
    perform size (fuel+1) s (.dequeue c)=finish size c fuel (drawn s c d) := by
  have hpc : ((s.put c ⟨.reserve,(s.core c).sense⟩).core c).pc=.reserve :=
    congrArg Core.pc (put_core s c _)
  have hstep : step size (s.put c ⟨.reserve,(s.core c).sense⟩) c .stay=
      reserveStep size (s.put c ⟨.reserve,(s.core c).sense⟩) c := step_reserve h.running hpc
  have hnone : accessed size (s.put c ⟨.reserve,(s.core c).sense⟩) c=[] := by
    unfold accessed
    rw [hpc]
  change finish size c (fuel+1) (step size s c .dequeue)=_
  rw [h.step_call,callPc,finish_step _ (by rw [hpc]; exact nofun),hstep,
    h.reserve,hnone]
  exact Option.map_id'

/-- The loop of `TaskQueue_Dequeue` with the index it has drawn. -/
theorem RingState.step_drawn (h : RingState size ts d s) (c : Fin N) :
    step size (drawn s c d) c .stay=dequeueStep (drawn s c d) c d false :=
  step_redeem h.running (congrArg Core.pc (drawn_core s c d))

/-- A returned task is the last one. -/
theorem taken_cons {s' : QState N} {c : Fin N} {tdesc : TaskDesc}
    (h : s'.trace=.success c tdesc::s.trace) : taken s'=taken s++[tdesc] := by
  unfold taken
  rw [h]
  exact List.reverse_cons

/-- `TaskQueue_Dequeue` before the tail wraps around returns the next task: its index is below the
tail. -/
theorem RingState.dequeue (h : RingState size ts d s) (hpos : 0 < s.count) (hlt : ts.length < size)
    (c : Fin N) (fuel : ℕ) : ∃ s', perform size (fuel+3) s (.dequeue c)=some (s',[d]) ∧
      RingState size ts (d+1) s' := by
  have hcount := h.count
  have hroom := h.room
  have hnext : d<ts.length := by omega
  have hvalid : 0 < (drawn s c d).count ∧ d < (drawn s c d).tail := by
    refine ⟨hpos,?_⟩
    change d < s.tail
    rw [h.tail,Nat.mod_eq_of_lt hlt]
    exact hnext
  have hstep : step size (drawn s c d) c .stay=
      { drawn s c d with
        count := s.count-1
        core := Function.update (drawn s c d).core c ⟨.ready,((drawn s c d).core c).sense⟩
        trace := .success c (s.data d)::s.trace } := by
    rw [h.step_drawn]
    unfold dequeueStep
    rw [if_pos hvalid.1,if_pos hvalid.2]
    rfl
  have haccess : accessed size (drawn s c d) c=[d] := by
    unfold accessed
    rw [drawn_core]
    exact if_pos hvalid
  refine ⟨step size (drawn s c d) c .stay,?_,?_⟩
  · rw [h.perform_dequeue,←haccess]
    refine finish_last fuel (drawn_ready s c d) rfl ?_
    rw [hstep]
    exact h.outside_again c _ _ c
  · rw [hstep]
    exact {
      running := h.running
      outside := h.outside_again c _ _
      count := by
        change s.count-1+(d+1)=_
        omega
      room := by
        change s.count-1 ≤ size
        omega
      tail := h.tail
      head := rfl
      early := by omega
      data := h.data
      taken := by
        rw [taken_cons rfl,h.taken,h.data hlt d hnext,List.get_eq_getElem,
          List.take_append_getElem hnext] }

/-- `TaskQueue_Dequeue` after the tail has wrapped around does not return: its index stays at or
above the tail, and nobody enqueues meanwhile. -/
theorem RingState.spin (h : RingState size ts d s) (hpos : 0 < s.count) (hge : size≤ts.length)
    (c : Fin N) (fuel : ℕ) : perform size fuel s (.dequeue c)=none := by
  have hcount := h.count
  have hroom := h.room
  have hearly := h.early
  have htail : s.tail≤d := by
    rw [h.tail,Nat.mod_eq_sub_mod hge,Nat.mod_eq_of_lt (by omega)]
    omega
  have hstay : step size (drawn s c d) c .stay=drawn s c d := by
    rw [h.step_drawn]
    unfold dequeueStep
    rw [if_pos (show 0 < (drawn s c d).count from hpos),
      if_neg (show ¬d < (drawn s c d).tail from Nat.not_lt.2 htail)]
  have hloop : ∀ fuel, finish size c fuel (drawn s c d)=none := by
    intro fuel
    induction fuel with
    | zero => rfl
    | succ fuel ih => rw [finish_step _ (drawn_ready s c d),hstay,ih,Option.map_none]
  cases fuel with
  | zero => rfl
  | succ fuel => rw [h.perform_dequeue,hloop]

end Step

section Runs

variable {size : ℕ} {calls done : List (Call N)}

/-- An enqueue adds its task to those that were passed in. -/
theorem tasks_enqueue (done : List (Call N)) (c : Fin N) (tdesc : TaskDesc) :
    tasks (done++[.enqueue c tdesc])=tasks done++[tdesc] := List.filterMap_append

/-- A dequeue adds no task. -/
theorem tasks_dequeue (done : List (Call N)) (c : Fin N) :
    tasks (done++[.dequeue c])=tasks done :=
  List.filterMap_append.trans (List.append_nil _)

/-- An enqueue is not counted as a dequeue. -/
theorem dequeues_enqueue (done : List (Call N)) (c : Fin N) (tdesc : TaskDesc) :
    dequeues (done++[.enqueue c tdesc])=dequeues done := List.countP_append

/-- A dequeue is counted. -/
theorem dequeues_dequeue (done : List (Call N)) (c : Fin N) :
    dequeues (done++[.dequeue c])=dequeues done+1 := List.countP_append

/-- As long as every call of `TaskQueue_Dequeue` is early, the calls return and keep the ring, for
every number of cores. -/
theorem ring_run (hsize : 0 < size) (hvalid : Valid size calls) (hdone : done<+:calls)
    (hearly : Early size done) : ∃ s used, performAll size 3 (initial N) done=some (s,used) ∧
      (∀ i∈used, i < size) ∧ RingState size (tasks done) (dequeues done) s := by
  induction done using List.reverseRecOn with
  | nil => exact ⟨_,[],rfl,fun i hi => absurd hi List.not_mem_nil,ring_initial hsize⟩
  | append_singleton done call ih =>
    have hstart : done<+:done++[call] := List.prefix_append done [call]
    obtain ⟨s,used,hrun,hused,hring⟩ := ih (hstart.trans hdone)
      fun done' c h => hearly done' c (h.trans hstart)
    have hcount := hring.count
    have htail : ∀ i∈[s.tail], i < size := fun i hi => by
      rw [List.mem_singleton.1 hi,hring.tail]
      exact Nat.mod_lt _ hsize
    rw [performAll_concat,hrun,Option.bind_some]
    cases call with
    | enqueue c tdesc =>
      have hroom := hvalid.room done c tdesc hdone
      obtain ⟨s',hcall,hring'⟩ := hring.enqueue (by omega) c tdesc 1
      rw [tasks_enqueue,dequeues_enqueue,hcall]
      exact ⟨s',_,rfl,fun i hi => (List.mem_append.1 hi).elim (hused i) (htail i),hring'⟩
    | dequeue c =>
      have htask := hvalid.task done c hdone
      have hlt := hearly done c (List.prefix_refl _)
      obtain ⟨s',hcall,hring'⟩ := hring.dequeue (by omega) hlt c 0
      rw [tasks_dequeue,dequeues_dequeue,hcall]
      refine ⟨s',_,rfl,fun i hi => (List.mem_append.1 hi).elim (hused i) fun hi => ?_,hring'⟩
      rw [List.mem_singleton.1 hi]
      exact hring.early

/-- A call of `TaskQueue_Dequeue` that is late after early ones does not return. -/
theorem late_dequeue (hsize : 0 < size) (hvalid : Valid size calls) {c : Fin N}
    (hdone : done++[.dequeue c]<+:calls) (hearly : Early size done)
    (hlate : size≤(tasks done).length) : ¬Served size (done++[.dequeue c]) := by
  rintro ⟨fuel,s',used',hrun',-⟩
  obtain ⟨s,used,hrun,-,hring⟩ :=
    ring_run hsize hvalid ((List.prefix_append done _).trans hdone) hearly
  have hcount := hring.count
  have htask := hvalid.task done c hdone
  have hmore := performAll_mono hrun' 3
  rw [Nat.add_comm,performAll_concat,performAll_mono hrun fuel,Option.bind_some,
    hring.spin (by omega) hlate] at hmore
  cases hmore

end Runs

/-- For every ring with a place, every number of cores and all calls that find the queue neither
empty nor full, all of them are served at every point if and only if every call of
`TaskQueue_Dequeue` is made before `max_size` tasks were enqueued. -/
theorem bounded_ring_iff {size : ℕ} {calls : List (Call N)} (hsize : 0 < size)
    (hvalid : Valid size calls) : (∀ done, done<+:calls → Served size done) ↔ Early size calls := by
  constructor
  · intro hserved
    -- the first late call is not served
    have hall : ∀ n done c, done.length=n → done++[.dequeue c]<+:calls →
        (tasks done).length < size := by
      intro n
      induction n using Nat.strong_induction_on with
      | _ n ih =>
        intro done c hlen hdone
        by_contra hlate
        refine late_dequeue hsize hvalid hdone ?_ (Nat.le_of_not_lt hlate) (hserved _ hdone)
        intro done' c' hdone'
        have hshort := hdone'.length_le
        rw [List.length_append,List.length_singleton] at hshort
        exact ih done'.length (by omega) done' c' rfl
          ((hdone'.trans (List.prefix_append done _)).trans hdone)
    exact fun done c => hall _ done c rfl
  · intro hearly done hdone
    obtain ⟨s,used,hrun,hused,hring⟩ := ring_run hsize hvalid hdone
      fun done' c h => hearly done' c (h.trans hdone)
    exact ⟨3,s,used,hrun,hused,hring.taken,hring.count⟩

/-- A core enqueues a task and dequeues it. -/
def enqueueDequeue : List (Call 1) := [.enqueue solo ⟨1,0,0,0⟩,.dequeue solo]

/-- What comes before the last call of a prefix of the two calls. -/
theorem enqueueDequeue_prefix {done : List (Call 1)} {call : Call 1}
    (h : done++[call]<+:enqueueDequeue) : (done=[] ∧ call=.enqueue solo ⟨1,0,0,0⟩) ∨
      (done=[.enqueue solo ⟨1,0,0,0⟩] ∧ call=.dequeue 0) := by
  unfold enqueueDequeue at h
  cases done with
  | nil =>
    rw [List.nil_append,List.cons_prefix_cons] at h
    exact .inl ⟨rfl,h.1⟩
  | cons first rest =>
    cases rest with
    | nil =>
      rw [List.singleton_append,List.cons_prefix_cons,List.cons_prefix_cons] at h
      exact .inr ⟨by rw [h.1],h.2.1⟩
    | cons second rest =>
      have hlen := h.length_le
      simp only [List.length_append,List.length_cons,List.length_nil] at hlen
      omega

/-- They find the queue neither empty nor full. -/
theorem enqueueDequeue_valid {size : ℕ} (hsize : 0 < size) : Valid size enqueueDequeue where
  room done c tdesc h := by
    rcases enqueueDequeue_prefix h with ⟨rfl,-⟩|⟨-,hcall⟩
    · exact (Nat.zero_add size).symm ▸ hsize
    · cases hcall
  task done c h := by
    rcases enqueueDequeue_prefix h with ⟨-,hcall⟩|⟨rfl,-⟩
    · cases hcall
    · decide

/-- In a ring of two places the task is returned. -/
theorem bounded_ring_two : Served 2 enqueueDequeue :=
  (bounded_ring_iff (by decide) (enqueueDequeue_valid (by decide))).2
    (fun done c h => by
      rcases enqueueDequeue_prefix h with ⟨-,hcall⟩|⟨rfl,-⟩
      · cases hcall
      · decide) _ (List.prefix_refl _)

/-- In a ring of one place `TaskQueue_Dequeue` does not return, since the only enqueue has wrapped
the tail around. -/
theorem bounded_ring_one : Valid 1 enqueueDequeue ∧ ¬Served 1 enqueueDequeue := by
  have hvalid : Valid 1 enqueueDequeue := enqueueDequeue_valid (by decide)
  have hearly : Early 1 [(.enqueue solo ⟨1,0,0,0⟩ : Call 1)] := by
    intro done c h
    rcases enqueueDequeue_prefix (h.trans (List.prefix_append _ [Call.dequeue solo])) with
      ⟨-,hcall⟩|⟨rfl,-⟩
    · cases hcall
    · exact absurd h.length_le (show ¬2≤1 by decide)
  have hstart : [.enqueue solo ⟨1,0,0,0⟩]++[.dequeue solo]<+:enqueueDequeue := List.prefix_refl _
  exact ⟨hvalid,late_dequeue (by decide) hvalid hstart hearly (by decide)⟩

end RigelTarget.X86BoundedRing
