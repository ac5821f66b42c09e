import RigelTarget.TaskQueueSteps
import Mathlib.Data.List.Count

/-!
# What a turn of the task queue changes

A turn moves one thread by a listed step, writes at most one word, of the own
cluster or of no cluster, and adds at most one event to the trace. Events are
counted along the trace: returns of `TQ_RET_SYNC` per thread, passed barriers per
cluster, decided barriers and returned groups.
-/

namespace RigelTarget.TaskQueueFrame

open SharedMemory TaskQueueModel TaskQueueProgram TaskQueueSteps

variable {n m : ℕ} {cfg : Config}

section Step

variable (cfg : Config) (s : QState n m) (turn : QTurn n m)

/-- The result of the access of this turn. -/
def res : ℕ :=
  result s turn.thread turn.lose (access cfg turn.thread (s.pc turn.thread))

/-- The event of this turn. -/
def event : Option (Event n m) :=
  emit turn.thread (s.pc turn.thread) turn.choice (res cfg s turn)

/-- The write of this turn. -/
def wrote : Wr n :=
  written s turn.thread turn.lose (access cfg turn.thread (s.pc turn.thread))

/-- The local state of the moving thread after the turn. -/
theorem pc_self : (step (program n m cfg) s turn).pc turn.thread=
    next cfg turn.thread (s.pc turn.thread) turn.choice (res cfg s turn) :=
  step_pc_self ..

/-- The other threads stay where they are. -/
theorem pc_other {u : Thread n m} (h : u≠turn.thread) :
    (step (program n m cfg) s turn).pc u=s.pc u :=
  step_pc_other _ _ _ h

/-- The words change by the write of the turn. -/
theorem word_step : (step (program n m cfg) s turn).word=
    applyWrite s.word (wrote cfg s turn) := rfl

/-- The trace grows by the event of the turn. -/
theorem trace_step :
    (step (program n m cfg) s turn).trace=(event cfg s turn).toList++s.trace := by
  simp only [step,program,event,res]
  cases emit turn.thread (s.pc turn.thread) turn.choice
      (result s turn.thread turn.lose (access cfg turn.thread (s.pc turn.thread))) with
  | none => rfl
  | some e => rfl

/-- Every turn from a state with fresh links is a listed step. -/
theorem trans_step (fresh : LinkFresh reserve s) :
    Trans cfg s.word turn.thread (s.pc turn.thread).sense (s.pc turn.thread).enqueueSense
      (s.pc turn.thread).pc (wrote cfg s turn) (event cfg s turn)
      ((step (program n m cfg) s turn).pc turn.thread).pc := by
  rw [pc_self]
  exact trans_sound (fresh turn.thread)

/-- A turn of another cluster leaves the words of a cluster alone. -/
theorem word_other_cluster (fresh : LinkFresh reserve s) {x : Loc n} {c : Fin n}
    (hx : x.cluster=some c) (hc : turn.thread.1≠c) :
    (step (program n m cfg) s turn).word x=s.word x := by
  rw [word_step]
  refine applyWrite_keep fun v hw => ?_
  have ht := trans_step cfg s turn fresh
  rw [hw] at ht
  rcases ht.cluster with he|he
  · rw [hx] at he
    cases he
  · rw [hx] at he
    exact hc (Option.some.inj he).symm

/-- A thread of another cluster than the moving one stays where it is. -/
theorem pc_other_cluster {u : Thread n m} (hu : turn.thread.1≠u.1) :
    (step (program n m cfg) s turn).pc u=s.pc u :=
  pc_other _ _ _ fun he => hu (by rw [he])

end Step

/-- Links are fresh in every reached state. -/
theorem linkFresh_reachable {allowed : QState n m → QTurn n m → Prop} {s : QState n m}
    (hs : Reachable (program n m cfg) (initial n m) allowed s) : LinkFresh reserve s := by
  refine Reachable.invariant ?_ ?_ hs
  · intro t x v h
    cases h
  · intro s turn _ _ h
    exact linkFresh_step reserving turn h

/-- Returns of `TQ_RET_SYNC` to a thread. -/
def isSync (t : Thread n m) : Event n m → Bool
  | .sync u => u==t
  | _ => false

/-- Barriers passed by a cluster. -/
def isPass (c : Fin n) : Event n m → Bool
  | .pass u => u.1==c
  | _ => false

/-- Decided barriers. -/
def isDecide : Event n m → Bool
  | .decide _ => true
  | _ => false

/-- Returns of a group index by `global_swtq_cluster_dequeue`. -/
def isGroup (i : ℕ) : Event n m → Bool
  | .group _ j _ => j==i
  | _ => false

/-- Increments of the tail index. -/
def isPublish : Event n m → Bool
  | .publish _ _ _ => true
  | _ => false

/-- Publications of a group index. -/
def isPublishOf (i : ℕ) : Event n m → Bool
  | .publish _ j _ => j==i
  | _ => false

/-- Number of barriers that a thread has left, as told by its returns of `TQ_RET_SYNC`. -/
def syncs (s : QState n m) (t : Thread n m) : ℕ := s.trace.countP (isSync t)

/-- Number of barriers that a cluster has passed, as told by the flips of its own sense. -/
def passes (s : QState n m) (c : Fin n) : ℕ := s.trace.countP (isPass c)

/-- Number of decided barriers, as told by the flips of the global sense. -/
def decides (s : QState n m) : ℕ := s.trace.countP isDecide

/-- How often a group index was returned by `global_swtq_cluster_dequeue` to any cluster. -/
def returns (s : QState n m) (i : ℕ) : ℕ := s.trace.countP (isGroup i)

/-- How often a group index was published by an increment of the tail index. -/
def published (s : QState n m) (i : ℕ) : ℕ := s.trace.countP (isPublishOf i)

/-- One if the event of a step is of a kind. -/
def shown (e : Option (Event n m)) (p : Event n m → Bool) : ℕ := if e.any p=true then 1 else 0

/-- No event is of no kind. -/
@[simp] theorem shown_none (p : Event n m → Bool) : shown none p=0 := rfl

/-- An event is counted if it is of the kind. -/
@[simp] theorem shown_some (e : Event n m) (p : Event n m → Bool) :
    shown (some e) p=if p e=true then 1 else 0 := rfl

/-- An event other than a return of `TQ_RET_SYNC`. -/
theorem workEvent_ne_sync {t u : Thread n m} {pc : Pc} {choice : Choice} {r : ℕ} :
    workEvent t pc choice r≠some (.sync u) := by
  unfold workEvent
  split
  case h_7 =>
    unfold barEvent
    split <;> simp
  all_goals simp

/-- The thread that shows an event. A turn shows at most one, of its own thread. -/
def actor : Event n m → Thread n m
  | .parCall t => t
  | .body t => t
  | .seqReturn t _ => t
  | .fill t _ _ => t
  | .publish t _ _ => t
  | .group t _ _ => t
  | .insert t _ => t
  | .pop t _ => t
  | .success t _ _ => t
  | .decide t => t
  | .pass t => t
  | .sync t => t

/-- The thread of a turn shows its event. -/
theorem event_actor {s : QState n m} {turn : QTurn n m} {e : Event n m}
    (h : event cfg s turn=some e) : actor e=turn.thread := by
  unfold event emit at h
  split at h
  · cases h
    rfl
  · unfold workEvent at h
    split at h
    case h_7 =>
      unfold barEvent at h
      split at h <;> cases h <;> rfl
    case h_2 =>
      split at h <;> cases h
      rfl
    case h_4 =>
      split at h <;> cases h
      rfl
    all_goals cases h
    all_goals rfl

/-- The private sense is flipped by the return of `TQ_RET_SYNC` and by nothing else. -/
theorem sense_step (cfg : Config) (s : QState n m) (turn : QTurn n m) :
    ((step (program n m cfg) s turn).pc turn.thread).sense=
      if shown (event cfg s turn) (isSync turn.thread)=1 then
        flipSense (s.pc turn.thread).sense else (s.pc turn.thread).sense := by
  rw [pc_self]
  simp only [next,event,emit]
  split
  · simp [isSync]
  · rw [if_neg]
    cases hw : workEvent turn.thread (s.pc turn.thread).pc turn.choice (res cfg s turn) with
    | none => simp
    | some e =>
      cases e with
      | sync u => exact absurd hw workEvent_ne_sync
      | _ => simp [isSync]

/-- The count of a kind grows by the event of the turn. -/
theorem countP_step (cfg : Config) (s : QState n m) (turn : QTurn n m) (p : Event n m → Bool) :
    (step (program n m cfg) s turn).trace.countP p=
      s.trace.countP p+shown (event cfg s turn) p := by
  rw [trace_step,List.countP_append,Nat.add_comm]
  congr 1
  cases event cfg s turn with
  | none => rfl
  | some e => simp [List.countP_cons]

end RigelTarget.TaskQueueFrame
