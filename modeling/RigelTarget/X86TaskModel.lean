import RigelTarget.TicketDispenser
import Mathlib.Algebra.BigOperators.Group.Finset.Piecewise
import Mathlib.Data.Fintype.BigOperators
import Mathlib.Tactic.Common

/-!
# The x86 task model

Every access to the queue is made under `GLOBAL_GTQ_mutex`, so one step is one critical
section of one core. `TaskQueue_Dequeue` draws a head index in a first section and then
repeats a second one, in which it redeems its index for a task, joins the barrier, or
returns `TQ_RET_SYNC`. The core that completes the barrier sets the global sense and
resets both indices. A core that is released by the barrier keeps the index it drew
before it, until it takes the mutex again.
-/

namespace RigelTarget.X86TaskModel

/-- `TQ_TaskDesc`: two words of the client, and the range of iterations of the task. -/
structure TaskDesc where
  /-- `v1`. -/
  v1 : ℤ
  /-- `v2`. -/
  v2 : ℤ
  /-- `begin`. -/
  first : ℤ
  /-- `end`. -/
  last : ℤ
  deriving DecidableEq

/-- The next critical section of a core. Nothing is shared outside of them, so a core is told by
where it is between two sections. -/
inductive Pc where
  /-- Outside the task queue. -/
  | ready
  /-- `TaskQueue_Enqueue` of a descriptor. -/
  | enqueue (tdesc : TaskDesc)
  /-- `TaskQueue_Loop` at iteration `start`. -/
  | loop (start totIters itersPerTask : ℤ) (tdesc : TaskDesc)
  /-- `TaskQueue_Dequeue`: the reservation. -/
  | reserve
  /-- `TaskQueue_Dequeue`: the loop. -/
  | redeem (headIdx : ℕ) (didWaitcount : Bool)
  deriving DecidableEq

/-- A core: its next critical section and its word of `GLOBAL_localsense`, which it flips when it
leaves a barrier. -/
structure Core where
  /-- The next critical section. -/
  pc : Pc
  /-- `GLOBAL_localsense`. -/
  sense : Bool
  deriving DecidableEq

/-- What a core outside the task queue does next. While it is in a call the choice has no effect. -/
inductive Choice where
  /-- Nothing. -/
  | stay
  /-- `TaskQueue_Enqueue`. -/
  | enqueue (tdesc : TaskDesc)
  /-- `TaskQueue_Loop`. -/
  | loop (totIters itersPerTask : ℤ) (tdesc : TaskDesc)
  /-- `TaskQueue_Dequeue`. -/
  | dequeue
  deriving DecidableEq

/-- Visible events: what enters the queue, what the calls return, and the declarations of the
barrier. -/
inductive Event (N : ℕ) where
  /-- A descriptor was put into the queue. -/
  | enqueued (c : Fin N) (tdesc : TaskDesc)
  /-- `TaskQueue_Dequeue` returned `TQ_RET_SUCCESS` with a descriptor. -/
  | success (c : Fin N) (tdesc : TaskDesc)
  /-- `TaskQueue_Dequeue` returned `TQ_RET_SYNC`. -/
  | sync (c : Fin N)
  /-- The barrier was declared. -/
  | declared (c : Fin N)
  deriving DecidableEq

/-- The task queue, the barrier and the `N` cores, with the events so far. -/
structure QState (N : ℕ) where
  /-- `GLOBAL_tq_count`. -/
  count : ℕ
  /-- `GLOBAL_tq_head_index`. -/
  head : ℕ
  /-- `GLOBAL_tq_tail_index`. -/
  tail : ℕ
  /-- `GLOBAL_wait_count`. -/
  wait : ℤ
  /-- `GLOBAL_globalsense`. -/
  sense : Bool
  /-- `GLOBAL_taskqueue_data`. -/
  data : ℕ → TaskDesc
  /-- The cores. -/
  core : Fin N → Core
  /-- An assertion has failed and the process is gone. -/
  aborted : Bool
  /-- Visible events, the latest at the head. -/
  trace : List (Event N)

section Steps

variable {N : ℕ} (size : ℕ) (s : QState N) (c : Fin N)

/-- The state with another local state of core `c`. -/
def QState.put (k : Core) : QState N := { s with core := Function.update s.core c k }

/-- One round of `TaskQueue_Enqueue`: a full queue is tried again, otherwise the descriptor is
stored at the tail, which may wrap around. -/
def enqueueStep (tdesc : TaskDesc) (next : Pc) : QState N :=
  if size≠s.count then
    { s with
      data := Function.update s.data s.tail tdesc
      tail := (s.tail+1)%size
      count := s.count+1
      core := Function.update s.core c ⟨next,(s.core c).sense⟩
      trace := .enqueued c tdesc::s.trace }
  else s

/-- The reservation of `TaskQueue_Dequeue`: it draws the head index, whether or not there is a task
for it. -/
def reserveStep : QState N :=
  { s with
    head := if size < s.head+1 then (s.head+1)%size else s.head+1
    core := Function.update s.core c ⟨.redeem s.head false,(s.core c).sense⟩ }

/-- A core redeems its index: the descriptor there is returned and the count of tasks goes down. A
core that had joined the barrier leaves it, and asserts that the count of waiting cores is not
negative. -/
def takeStep (headIdx : ℕ) (did : Bool) : QState N :=
  if did=true then
    if s.wait-1<0 then
      { s with
        count := s.count-1
        wait := s.wait-1
        core := Function.update s.core c ⟨.redeem headIdx did,!(s.core c).sense⟩
        aborted := true }
    else
      { s with
        count := s.count-1
        wait := s.wait-1
        core := Function.update s.core c ⟨.ready,!(s.core c).sense⟩
        trace := .success c (s.data headIdx)::s.trace }
  else
    { s with
      count := s.count-1
      core := Function.update s.core c ⟨.ready,(s.core c).sense⟩
      trace := .success c (s.data headIdx)::s.trace }

/-- `TaskQueue_Dequeue` joins the barrier and declares it when every core has joined. The
declaration resets the indices, with the senses as the only sign to the others. -/
def joinStep (headIdx : ℕ) : QState N :=
  if (N : ℤ)=s.wait+1 then
    { s with
      sense := !(s.core c).sense
      wait := 0
      tail := 0
      head := 0
      core := Function.update s.core c ⟨.redeem headIdx true,!(s.core c).sense⟩
      trace := .declared c::s.trace }
  else
    { s with
      wait := s.wait+1
      core := Function.update s.core c ⟨.redeem headIdx true,!(s.core c).sense⟩ }

/-- One round of the loop of `TaskQueue_Dequeue`. The task count is tested before the sense, so a
core that the barrier has released may still take a task by its old index. -/
def dequeueStep (headIdx : ℕ) (did : Bool) : QState N :=
  if 0 < s.count then if headIdx < s.tail then takeStep s c headIdx did else s
  else if did=false then joinStep s c headIdx
  else if s.sense=(s.core c).sense then
    { s with
      core := Function.update s.core c ⟨.ready,(s.core c).sense⟩
      trace := .sync c::s.trace }
  else s

/-- The first critical section of a call. -/
def callPc : Choice → Pc
  | .stay => .ready
  | .enqueue tdesc => .enqueue tdesc
  | .loop totIters itersPerTask tdesc => .loop 0 totIters itersPerTask tdesc
  | .dequeue => .reserve

/-- One critical section of core `c`, or a call if it is outside. A section is one step because it
holds `GLOBAL_GTQ_mutex` from its first access to its last. -/
def step (choice : Choice) : QState N :=
  if s.aborted=true then s
  else match (s.core c).pc with
    | .ready => s.put c ⟨callPc choice,(s.core c).sense⟩
    | .enqueue tdesc => enqueueStep size s c tdesc .ready
    | .loop start totIters itersPerTask tdesc =>
      if start<totIters then
        enqueueStep size s c
          { tdesc with first := start, last := min (start+itersPerTask) totIters }
          (.loop (min (start+itersPerTask) totIters) totIters itersPerTask tdesc)
      else s.put c ⟨.ready,(s.core c).sense⟩
    | .reserve => reserveStep size s c
    | .redeem headIdx did => dequeueStep s c headIdx did

end Steps

/-- The state after `X86_TASK_MODEL_INIT` and `TaskQueue_Init`, with every core outside and no task
in the array. -/
def initial (N : ℕ) : QState N where
  count := 0
  head := 0
  tail := 0
  wait := 0
  sense := false
  data := fun _ => ⟨0,0,0,0⟩
  core := fun _ => ⟨.ready,false⟩
  aborted := false
  trace := []

/-- A turn: a core and what it does if it is outside. -/
abbrev QTurn (N : ℕ) := Fin N×Choice

/-- States reached by turns that meet a condition on the state before them. -/
inductive Reachable {N : ℕ} (size : ℕ) (allowed : QState N → QTurn N → Prop) : QState N → Prop where
  /-- The start is reached. -/
  | init : Reachable size allowed (initial N)
  /-- An allowed turn leads from a reached state to a reached state. -/
  | move {s : QState N} (turn : QTurn N) : Reachable size allowed s → allowed s turn →
      Reachable size allowed (step size s turn.1 turn.2)

/-- The state after a schedule. -/
def run {N : ℕ} (size : ℕ) (s : QState N) : List (QTurn N) → QState N
  | [] => s
  | turn::turns => run size (step size s turn.1 turn.2) turns

/-- Whether all turns of a schedule meet a decidable condition. -/
def allows {N : ℕ} (size : ℕ) (allowed : QState N → QTurn N → Prop)
    [∀ s turn, Decidable (allowed s turn)] (s : QState N) : List (QTurn N) → Bool
  | [] => true
  | turn::turns =>
    decide (allowed s turn) && allows size allowed (step size s turn.1 turn.2) turns

/-- A schedule whose turns were checked reaches its last state. -/
theorem Reachable.of_allows {N size : ℕ} {allowed : QState N → QTurn N → Prop}
    [∀ s turn, Decidable (allowed s turn)] {s : QState N} (hs : Reachable size allowed s)
    {turns : List (QTurn N)} (h : allows size allowed s turns=true) :
    Reachable size allowed (run size s turns) := by
  induction turns generalizing s with
  | nil => exact hs
  | cons turn turns ih =>
    simp only [allows,Bool.and_eq_true,decide_eq_true_eq] at h
    exact ih (.move turn hs h.1) h.2

/-- The descriptor that a turn of a core puts into the queue, with the bounds that the loop has
computed for it. -/
def offered : Pc → Option TaskDesc
  | .enqueue tdesc => some tdesc
  | .loop start totIters itersPerTask tdesc =>
    if start<totIters then
      some { tdesc with first := start, last := min (start+itersPerTask) totIters }
    else none
  | _ => none

/-- `did_waitcount` of a core in `TaskQueue_Dequeue`. -/
def Core.did (k : Core) : Bool :=
  match k.pc with
  | .redeem _ did => did
  | _ => false

/-- The core has joined the barrier and waits for it. -/
def Core.waits (sense : Bool) (k : Core) : Bool := k.did && decide (k.sense≠sense)

/-- The core has joined a barrier that was declared since. -/
def Core.released (sense : Bool) (k : Core) : Bool := k.did && decide (k.sense=sense)

/-- The core is inside `TaskQueue_Dequeue`. -/
def Core.inside (k : Core) : Bool :=
  match k.pc with
  | .redeem _ _ => true
  | _ => false

/-- `max_size` exceeds the tasks of the phase and the cores. This is the room that the claims give
to the queue. -/
def Roomy {N : ℕ} (size : ℕ) (s : QState N) (turn : QTurn N) : Prop :=
  (offered (s.core turn.1).pc).isSome=true → s.tail+1+N < size

/-- A core that was released by the barrier does not find a task below its old index. Where this
fails, the index of the last phase meets a task of the next one. -/
def Settled {N : ℕ} (s : QState N) (turn : QTurn N) : Prop :=
  ∀ headIdx, (s.core turn.1).pc=.redeem headIdx true → (s.core turn.1).sense=s.sense →
    0 < s.count → ¬headIdx < s.tail

instance {N : ℕ} (size : ℕ) (s : QState N) (turn : QTurn N) : Decidable (Roomy size s turn) :=
  inferInstanceAs (Decidable (_ → _))

/-- The index that a core holds after it has joined the barrier. -/
def Core.joinedIndex (k : Core) : Option ℕ :=
  match k.pc with
  | .redeem headIdx true => some headIdx
  | _ => none

/-- The index of a core that has joined the barrier. -/
theorem Core.joinedIndex_eq {k : Core} {headIdx : ℕ} :
    k.joinedIndex=some headIdx ↔ k.pc=.redeem headIdx true := by
  obtain ⟨pc,b⟩ := k
  cases pc with
  | redeem i did =>
    cases did with
    | true => exact ⟨fun h => by cases h; rfl,fun h => by cases h; rfl⟩
    | false => exact ⟨(fun h => by cases h),(fun h => by cases h)⟩
  | _ => exact ⟨(fun h => by cases h),(fun h => by cases h)⟩

instance {N : ℕ} (s : QState N) (turn : QTurn N) : Decidable (Settled s turn) :=
  decidable_of_iff (∀ headIdx∈(s.core turn.1).joinedIndex, (s.core turn.1).sense=s.sense →
      0 < s.count → ¬headIdx < s.tail)
    ⟨fun h headIdx hpc => h headIdx (Core.joinedIndex_eq.2 hpc),
      fun h headIdx hj => h headIdx (Core.joinedIndex_eq.1 hj)⟩

end RigelTarget.X86TaskModel
