import RigelTarget.TaskQueueLocks
import RigelTarget.IntrusiveList
import Mathlib.Data.Fintype.Sum
import Mathlib.Data.Fintype.Prod

/-!
# The local task queues as lists

`CLUSTER_taskqueue_head` and the `next` words are an intrusive list per cluster,
changed by two insertions and two pops. A descriptor is queued in one cluster, in
the hands of one thread, or free. Threads store into descriptors that they hold or
that they begin to hold with this store; as long as only free descriptors are taken
that way, every list is the chain of what was inserted and not yet unlinked, and
the words copied for a task are the words it had when it was unlinked.
-/

namespace RigelTarget.TaskQueueLists

open SharedMemory TaskQueueModel TaskQueueProgram TaskQueueSteps TaskQueueFrame TaskQueueLocks
  IntrusiveList

variable {n m : ℕ} {cfg : Config}

/-- The successor words. -/
def nextOf (word : Loc n → ℕ) (p : ℕ) : ℕ := word (.desc p .next)

/-- The words of a descriptor that a dequeue copies. -/
def descWords (word : Loc n → ℕ) (p : ℕ) : List ℕ :=
  [word (.desc p .v1),word (.desc p .v2),word (.desc p .v3),word (.desc p .v4)]

/-- The descriptors of a group that are written or being written, up to the one whose first word is
stored. -/
def filling (ptr : ℕ → ℕ) (k : ℕ) : Field → List ℕ
  | .v1 => (List.range k).map ptr
  | _ => (List.range (k+1)).map ptr

/-- The descriptors of a fetched group that a thread has walked. They are in no queue until the
insertion is done. -/
def fetchHand : Pc → List ℕ
  | .fetch _ (.walk _ passed p) => passed++[p]
  | .fetch _ (.acqIns _ passed p _) => passed++[p]
  | .fetch _ (.insHead _ passed p) => passed++[p]
  | .fetch _ (.insNext _ passed p _) => passed++[p]
  | .fetch _ (.insSet _ passed p) => passed++[p]
  | _ => []

/-- The descriptors that an enqueue or a fast dequeue holds: an enqueue from the first store to a
descriptor until the group is published or linked, a dequeue from the unlink until it has copied the
words. -/
def workHand : Pc → List ℕ
  | .fast (.relPop _ p) => [p]
  | .fast (.copy p _) => [p]
  | .par _ (.fill w k f) => filling w.ptr k f
  | .par _ (.acq w _) => w.nodes
  | .par _ (.head w) => w.nodes
  | .par _ (.insHead w) => w.nodes
  | .par _ (.insNext w _) => w.nodes
  | .par _ (.insSet w) => w.nodes
  | .par _ (.relGlobal w _) => w.nodes
  | .par _ (.lock w) => w.nodes
  | .par _ (.loadTail w) => w.nodes
  | .par _ (.storeTask w _ _) => w.nodes
  | .par _ (.storeNull w) => w.nodes
  | .par _ (.incTail w) => w.nodes
  | .seq _ (.fill idx _ k f) => filling (seqPtr idx) k f
  | .seq _ (.storeTask idx _ k) => (List.range (k+1)).map (seqPtr idx)
  | .seq _ (.storeNull idx groups) => seqNodes idx groups
  | .seq _ (.incTail idx groups) => seqNodes idx groups
  | _ => []

/-- The descriptors in the hands of a thread. They are in no local queue, and no other thread stores
into them. -/
def hand : Pc → List ℕ
  | .fetch pf p => fetchHand (.fetch pf p)
  | pc => workHand pc

/-- The descriptor that a step begins to write. -/
def rewrites : Pc → Option ℕ
  | .par _ (.fill w k .v1) => some (w.ptr k)
  | .seq _ (.fill idx _ k .v1) => some (seqPtr idx k)
  | _ => none

/-- The descriptor that a step reaches in a fetched group. -/
def grabs (word : Loc n → ℕ) : Pc → Option ℕ
  | .fetch _ (.slot _ idx) => some (word (.task idx 0))
  | .fetch _ (.walk _ _ p) => if nextOf word p=0 then none else some (nextOf word p)
  | _ => none

/-- The descriptor that a step takes into the hands of its thread: one that an enqueue begins to
write, or one that a fetch reaches along the links of its group. -/
def takes (word : Loc n → ℕ) (pc : Pc) : Option ℕ := (rewrites pc).or (grabs word pc)

/-- The tasks in the local queue of a cluster, by the events so far: lists are inserted in front,
and the first task is unlinked. -/
def queueOf (c : Fin n) : List (Event n m) → List ℕ
  | [] => []
  | .insert t nodes::es => if t.1=c then nodes++queueOf c es else queueOf c es
  | .pop t _::es => if t.1=c then (queueOf c es).tail else queueOf c es
  | _::es => queueOf c es

/-- The tasks inserted into the local queue of a cluster. -/
def insertedOf (c : Fin n) : List (Event n m) → List ℕ
  | [] => []
  | .insert t nodes::es => if t.1=c then nodes++insertedOf c es else insertedOf c es
  | _::es => insertedOf c es

/-- The tasks unlinked from the local queue of a cluster. -/
def poppedOf (c : Fin n) : List (Event n m) → List ℕ
  | [] => []
  | .pop t p::es => if t.1=c then p::poppedOf c es else poppedOf c es
  | _::es => poppedOf c es

/-- The local queue of a cluster. -/
def queue (s : QState n m) (c : Fin n) : List ℕ := queueOf c s.trace

/-- Where descriptors are: in the queue of a cluster or in the hands of a thread. A published group
is at neither place until a fetch walks it. -/
def place (s : QState n m) : Fin n ⊕ Thread n m → List ℕ
  | .inl c => queue s c
  | .inr t => hand (s.pc t).pc

/-- The groups still to be enqueued are not empty. -/
def GroupsOk (groups : List (List (ℕ×ℕ))) : Prop := ∀ g, g∈groups → g≠[]

/-- Counters of an enqueue are inside its current group. The stores of the assembly rely on this,
and so does every list of its descriptors. -/
def WorkOk : Pc → Prop
  | .par _ (.pool groups) => GroupsOk groups
  | .par _ (.fill w k _) => GroupsOk w.groups ∧ k<w.current.length
  | .par _ (.acq w _) => GroupsOk w.groups ∧ w.current≠[]
  | .par _ (.head w) => GroupsOk w.groups ∧ w.current≠[]
  | .par _ (.insHead w) => GroupsOk w.groups ∧ w.current≠[]
  | .par _ (.insNext w _) => GroupsOk w.groups ∧ w.current≠[]
  | .par _ (.insSet w) => GroupsOk w.groups ∧ w.current≠[]
  | .par _ (.relLocal w _) => GroupsOk w.groups
  | .par _ (.relGlobal w _) => GroupsOk w.groups ∧ w.current≠[]
  | .par _ (.lock w) => GroupsOk w.groups ∧ w.current≠[]
  | .par _ (.loadTail w) => GroupsOk w.groups ∧ w.current≠[]
  | .par _ (.storeTask w _ _) => GroupsOk w.groups ∧ w.current≠[]
  | .par _ (.storeNull w) => GroupsOk w.groups ∧ w.current≠[]
  | .par _ (.incTail w) => GroupsOk w.groups ∧ w.current≠[]
  | .par _ (.unlockEnqueue w) => GroupsOk w.groups
  | .seq _ (.fill _ groups k _) => GroupsOk groups ∧ k<(seqCurrent groups).length
  | .seq _ (.storeTask _ groups k) => GroupsOk groups ∧ k<(seqCurrent groups).length
  | .seq _ (.storeNull _ groups) => GroupsOk groups ∧ seqCurrent groups≠[]
  | .seq _ (.incTail _ groups) => GroupsOk groups ∧ seqCurrent groups≠[]
  | _ => True

/-- What holds of every group that the inner loop fills holds of the groups of stage 1. The
induction is on the fuel of stage 1. -/
theorem stageOne_groups {P : List (ℕ×ℕ) → Prop} {per stop fuel start : ℕ}
    {groups : List (List (ℕ×ℕ))} (hfill : ∀ start, start < stop →
      P (LoopPartition.fillGroup per stop LoopPartition.taskGroupSize start).1)
    (h : LoopPartition.stageOne per stop fuel start=some groups) : ∀ g∈groups, P g := by
  induction fuel generalizing start groups with
  | zero =>
    simp only [LoopPartition.stageOne] at h
    split at h
    · cases h
    · cases h
      exact fun g hg => by cases hg
  | succ fuel ih =>
    simp only [LoopPartition.stageOne] at h
    split at h
    · rename_i hlt
      obtain ⟨rest,hrest,rfl⟩ := Option.map_eq_some_iff.mp h
      intro g hg
      rcases List.mem_cons.mp hg with rfl|hg
      · exact hfill start hlt
      · exact ih hrest g hg
    · cases h
      exact fun g hg => by cases hg

/-- It holds of the groups of a parallel enqueue. -/
theorem parGroups_groups {P : List (ℕ×ℕ) → Prop} {c : Fin n} {args : Args}
    {groups : List (List (ℕ×ℕ))} (hfill : ∀ stop start, start < stop →
      P (LoopPartition.fillGroup args.itersPerTask stop LoopPartition.taskGroupSize start).1)
    (h : parGroups cfg c args=some groups) : ∀ g∈groups, P g := by
  unfold parGroups at h
  split at h
  · cases h
  · cases h
    unfold LoopPartition.enqueueBody
    dsimp only
    split
    · exact fun g hg => by cases hg
    · cases hs : LoopPartition.stageOne args.itersPerTask _ _ _ with
      | none => exact fun g hg => by cases hg
      | some groups => exact stageOne_groups (hfill _) hs

/-- It holds of the groups of a sequential enqueue. -/
theorem seqGroups_groups {P : List (ℕ×ℕ) → Prop} {args : Args}
    (hfill : ∀ stop start, start < stop →
      P (LoopPartition.fillGroup args.itersPerTask stop LoopPartition.taskGroupSize start).1) :
    ∀ g∈seqGroups args, P g := by
  unfold seqGroups
  cases hs : LoopPartition.stageOne args.itersPerTask args.totIters args.totIters 0 with
  | none => exact fun g hg => by cases hg
  | some groups => exact stageOne_groups (hfill _) hs

/-- The inner loop fills a group with a task if an iteration remains. -/
theorem fillGroup_nonempty (per stop start : ℕ) (hlt : start < stop) :
    (LoopPartition.fillGroup per stop LoopPartition.taskGroupSize start).1≠[] := by
  simp [LoopPartition.fillGroup,hlt]

/-- The groups of a parallel enqueue have tasks. -/
theorem parGroups_nonempty {c : Fin n} {args : Args} {groups : List (List (ℕ×ℕ))}
    (h : parGroups cfg c args=some groups) : GroupsOk groups :=
  parGroups_groups (fillGroup_nonempty args.itersPerTask) h

/-- The groups of a sequential enqueue have tasks. -/
theorem seqGroups_nonempty (args : Args) : GroupsOk (seqGroups args) :=
  seqGroups_groups (fillGroup_nonempty args.itersPerTask)

/-- A first group that is there is one of the groups. -/
theorem GroupsOk.head {groups : List (List (ℕ×ℕ))} (h : GroupsOk groups) (hne : groups≠[]) :
    groups.headD []≠[] := by
  cases groups with
  | nil => exact absurd rfl hne
  | cons g groups => exact h g List.mem_cons_self

/-- The groups after the first one. -/
theorem GroupsOk.tail {groups : List (List (ℕ×ℕ))} (h : GroupsOk groups) :
    GroupsOk groups.tail := fun g hg => h g (List.mem_of_mem_tail hg)

/-- The next group of a parallel enqueue starts with its first task. -/
theorem workOk_parGroup {args : Args} {w : Work} (h : GroupsOk w.groups) :
    WorkOk (.par args (parGroup w)) := by
  unfold parGroup
  split
  · trivial
  · rename_i hne
    exact ⟨h,List.length_pos_iff.mpr (h.head hne)⟩

/-- The next group of a sequential enqueue starts with its first task. -/
theorem workOk_seqGroup {args : Args} {idx : ℕ} {groups : List (List (ℕ×ℕ))} (h : GroupsOk groups) :
    WorkOk (.seq args (seqGroup idx groups)) := by
  unfold seqGroup
  split
  · trivial
  · rename_i hne
    exact ⟨h,List.length_pos_iff.mpr (h.head hne)⟩

/-- Every step keeps the counters of the enqueues. A new group starts at its first task. -/
theorem trans_workOk {word : Loc n → ℕ} {t : Thread n m} {sense esense : ℕ} {pc q : Pc} {w : Wr n}
    {e : Option (Event n m)} (h : Trans cfg word t sense esense pc w e q) (hok : WorkOk pc) :
    WorkOk q := by
  cases h with
  | fast h => cases h <;> trivial
  | slow h => cases h <;> trivial
  | fetch h => cases h <;> trivial
  | par h =>
    cases h with
    | body v groups hg => exact parGroups_nonempty hg
    | pool groups => exact workOk_parGroup hok
    | fill => exact hok
    | fillNext u k hlt => exact ⟨hok.1,hlt⟩
    | fillLast u k _ =>
      exact ⟨hok.1,fun he => by
        have := hok.2
        rw [he] at this
        exact absurd this (Nat.not_lt_zero k)⟩
    | relLocalDone => exact workOk_parGroup (GroupsOk.tail hok)
    | unlockEnqueue u => exact workOk_parGroup (GroupsOk.tail hok)
    | insSet u => exact hok.1
    | incTail u => exact hok.1
    | _ => trivial
  | seq h =>
    cases h with
    | loadTail => exact workOk_seqGroup (seqGroups_nonempty _)
    | fill => exact hok
    | fillNext => exact hok
    | storeTask idx groups k hlt => exact ⟨hok.1,hlt⟩
    | storeLast idx groups k _ =>
      exact ⟨hok.1,fun he => by
        have := hok.2
        rw [he] at this
        exact absurd this (Nat.not_lt_zero k)⟩
    | storeNull => exact hok
    | incTail idx groups => exact workOk_seqGroup (GroupsOk.tail hok.1)
    | _ => trivial
  | _ => trivial

/-- Whether an event changes a local queue. -/
def isListEvent : Event n m → Bool
  | .insert _ _ => true
  | .pop _ _ => true
  | _ => false

/-- What a step does with the descriptors in the hands of its thread: hands before, the
descriptor taken, the event, hands after. -/
inductive HandMove (t : Thread n m) : List ℕ → Option ℕ → Option (Event n m) → List ℕ → Prop where
  /-- Nothing changes. -/
  | keep {l : List ℕ} {e : Option (Event n m)} : e.any isListEvent=false → HandMove t l none e l
  /-- One descriptor is taken. -/
  | take {l : List ℕ} {p : ℕ} {e : Option (Event n m)} : e.any isListEvent=false →
      HandMove t l (some p) e (l++[p])
  /-- All descriptors are given up. -/
  | drop {l : List ℕ} {e : Option (Event n m)} : e.any isListEvent=false → HandMove t l none e []
  /-- All descriptors are inserted into the local queue. -/
  | insert {l : List ℕ} : HandMove t l none (some (.insert t l)) []
  /-- The first task of the local queue is unlinked into the hands. -/
  | popFast (p : ℕ) : HandMove t [] none (some (.pop t p)) [p]
  /-- The first task of the local queue is unlinked after its words were copied. -/
  | popSlow (p : ℕ) : HandMove t [] none (some (.pop t p)) []

/-- The descriptors of a group that is being written, when one more is begun. -/
theorem filling_succ (ptr : ℕ → ℕ) (k : ℕ) :
    (List.range (k+1)).map ptr=filling ptr k .v1++[ptr k] := by
  rw [List.range_succ,List.map_append]
  rfl

/-- A group is completely written with its last task. -/
theorem filling_last {l : List (ℕ×ℕ)} {ptr : ℕ → ℕ} {k : ℕ} (hlt : k<l.length)
    (hlast : ¬k+1<l.length) :
    (List.range (k+1)).map ptr=(List.range l.length).map ptr := by
  rw [show k+1=l.length by omega]

section Hands

variable {word : Loc n → ℕ} {t : Thread n m} {sense esense : ℕ} {pc q : Pc} {w : Wr n}
  {e : Option (Event n m)}

/-- The next group starts with empty hands. -/
theorem hand_parGroup (args : Args) (u : Work) : hand (.par args (parGroup u))=[] := by
  unfold parGroup
  split <;> rfl

/-- The next group starts with empty hands. -/
theorem hand_seqGroup (args : Args) (idx : ℕ) (groups : List (List (ℕ×ℕ))) :
    hand (.seq args (seqGroup idx groups))=[] := by
  unfold seqGroup
  split <;> rfl

/-- The end of an iteration of the barrier loop has empty hands. -/
theorem hand_barBranch (pf h : ℕ) (k : Bool) (tail : ℕ) :
    hand (.fetch pf (barBranch (n := n) h k tail))=[] := by
  rcases barBranch_cases (n := n) h k tail with he|he|he
  · rw [he]; rfl
  · rw [he]; rfl
  · rw [he]; rfl

/-- The walk takes the next task unless it is at the last one. -/
theorem takes_walk (pf first : ℕ) (passed : List ℕ) (p : ℕ) :
    takes word (.fetch pf (.walk first passed p))=
      if nextOf word p=0 then none else some (nextOf word p) := rfl

/-- Every step moves descriptors in one of the listed ways: it takes one, links or publishes what it
holds, unlinks the head of the queue, or lets go of a copied task. -/
theorem trans_hand (h : Trans cfg word t sense esense pc w e q) (hok : WorkOk pc) :
    HandMove t (hand pc) (takes word pc) e (hand q) := by
  cases h with
  | fast h =>
    cases h with
    | unlink k p v => exact .popFast p
    | finish p got _ => exact .drop rfl
    | _ => exact .keep rfl
  | slow h =>
    cases h with
    | unlink p got v => exact .popSlow p
    | _ => exact .keep rfl
  | fetch h =>
    cases h with
    | bar hb =>
      cases hb with
      | tailCounted => rw [hand_barBranch]; exact .keep rfl
      | notPending => rw [hand_barBranch]; exact .keep rfl
      | incWc => rw [hand_barBranch]; exact .keep rfl
      | _ => exact .keep rfl
    | slot i idx => exact .take rfl
    | last first passed p hz =>
      rw [takes_walk,if_pos (show nextOf word p=0 from hz)]
      exact .keep rfl
    | walk first passed p hz =>
      rw [takes_walk,if_neg (show nextOf word p≠0 from hz)]
      exact .take rfl
    | insSet first passed p => exact .insert
    | _ => exact .keep rfl
  | par h =>
    cases h with
    | pool groups => rw [hand_parGroup]; exact .keep rfl
    | fill u k f f' hf =>
      cases f with
      | v1 =>
        cases hf
        show HandMove t (filling u.ptr k .v1) (some (u.ptr k)) none ((List.range (k+1)).map u.ptr)
        rw [filling_succ]
        exact .take rfl
      | v2 => cases hf; exact .keep rfl
      | v3 => cases hf; exact .keep rfl
      | v4 => cases hf; exact .keep rfl
      | next => cases hf
    | fillNext u k hlt => exact .keep rfl
    | fillLast u k hlast =>
      have hl : hand (.par ‹_› (.fill u k .next))=u.nodes := filling_last hok.2 hlast
      rw [hl]
      exact .keep rfl
    | insSet u => exact .insert
    | relLocalDone => rw [hand_parGroup]; exact .keep rfl
    | incTail u => exact .drop rfl
    | unlockEnqueue u => rw [hand_parGroup]; exact .keep rfl
    | _ => exact .keep rfl
  | seq h =>
    cases h with
    | loadTail => rw [hand_seqGroup]; exact .keep rfl
    | fill idx groups k f f' hf =>
      cases f with
      | v1 =>
        cases hf
        show HandMove t (filling (seqPtr idx) k .v1) (some (seqPtr idx k)) none
          ((List.range (k+1)).map (seqPtr idx))
        rw [filling_succ]
        exact .take rfl
      | v2 => cases hf; exact .keep rfl
      | v3 => cases hf; exact .keep rfl
      | v4 => cases hf; exact .keep rfl
      | next => cases hf
    | fillNext idx groups k => exact .keep rfl
    | storeLast idx groups k hlast =>
      have hl : hand (.seq ‹_› (.storeTask idx groups k))=seqNodes idx groups :=
        filling_last hok.2 hlast
      rw [hl]
      exact .keep rfl
    | incTail idx groups => rw [hand_seqGroup]; exact .drop rfl
    | _ => exact .keep rfl
  | _ => exact .keep rfl

/-- A thread stores into descriptors that it holds or takes. So the stores of others leave its tasks
alone. -/
theorem trans_desc {p v : ℕ} {f : Field}
    (h : Trans cfg word t sense esense pc (some (.desc p f,v)) e q) (hok : WorkOk pc) :
    p∈hand pc ∨ takes word pc=some p := by
  have hlast : ∀ {l : List (ℕ×ℕ)} (ptr : ℕ → ℕ), l≠[] →
      ptr (l.length-1)∈(List.range l.length).map ptr := by
    intro l ptr hl
    refine List.mem_map.mpr ⟨_,List.mem_range.mpr ?_,rfl⟩
    have := List.length_pos_iff.mpr hl
    omega
  have hself : ∀ (ptr : ℕ → ℕ) (k : ℕ), ptr k∈(List.range (k+1)).map ptr := fun ptr k =>
    List.mem_map.mpr ⟨k,List.mem_range.mpr (Nat.lt_succ_self k),rfl⟩
  cases h.writes with
  | fetchLink pf first passed => exact .inl (List.mem_append_right _ List.mem_cons_self)
  | parFill args u k f q =>
    cases f with
    | v1 => exact .inr rfl
    | _ => exact .inl (hself u.ptr k)
  | parLink args u => exact .inl (hlast u.ptr hok.2)
  | parNull args u => exact .inl (hlast u.ptr hok.2)
  | seqFill args idx groups k f q =>
    cases f with
    | v1 => exact .inr rfl
    | _ => exact .inl (hself (seqPtr idx) k)
  | seqNull args idx groups => exact .inl (hlast (seqPtr idx) hok.2)

end Hands

/-- Registers of a thread and the links between the descriptors in its hands. While the thread owns
the lock of the local queue, this includes what it has read of the head. -/
def HandOk (word : Loc n → ℕ) (c : Fin n) : Pc → Prop
  | .fast (.headAgain _) => word (.taskqueueHead c)≠0
  | .fast (.next _ p) => word (.taskqueueHead c)=p ∧ p≠0
  | .fast (.setHead _ p v) => word (.taskqueueHead c)=p ∧ p≠0 ∧ v=nextOf word p
  | .fast (.copy p got) => got.length≤3 ∧ got=(descWords word p).take got.length
  | .slow .headAgain => word (.taskqueueHead c)≠0
  | .slow (.copy p got) => word (.taskqueueHead c)=p ∧ p≠0 ∧ got.length≤3 ∧
      got=(descWords word p).take got.length
  | .slow (.next p got) => word (.taskqueueHead c)=p ∧ p≠0 ∧ got=descWords word p
  | .slow (.setHead p got v) => word (.taskqueueHead c)=p ∧ p≠0 ∧ got=descWords word p ∧
      v=nextOf word p
  | .fetch _ (.walk first passed p) => Seg (nextOf word) first passed p ∧ p≠0
  | .fetch _ (.acqIns first passed p _) => Seg (nextOf word) first passed p ∧ p≠0
  | .fetch _ (.insHead first passed p) => Seg (nextOf word) first passed p ∧ p≠0
  | .fetch _ (.insNext first passed p v) => Seg (nextOf word) first passed p ∧ p≠0 ∧
      v=word (.taskqueueHead c)
  | .fetch _ (.insSet first passed p) => Seg (nextOf word) first (passed++[p])
      (word (.taskqueueHead c))
  | .par _ (.fill w k _) => Seg (nextOf word) (w.ptr 0) ((List.range k).map w.ptr) (w.ptr k)
  | .par _ (.acq w _) => Seg (nextOf word) (w.ptr 0)
      ((List.range (w.current.length-1)).map w.ptr) (w.ptr (w.current.length-1))
  | .par _ (.head w) => Seg (nextOf word) (w.ptr 0)
      ((List.range (w.current.length-1)).map w.ptr) (w.ptr (w.current.length-1))
  | .par _ (.insHead w) => Seg (nextOf word) (w.ptr 0)
      ((List.range (w.current.length-1)).map w.ptr) (w.ptr (w.current.length-1))
  | .par _ (.insNext w v) => Seg (nextOf word) (w.ptr 0)
      ((List.range (w.current.length-1)).map w.ptr) (w.ptr (w.current.length-1)) ∧
      v=word (.taskqueueHead c)
  | .par _ (.insSet w) => Seg (nextOf word) (w.ptr 0) w.nodes (word (.taskqueueHead c))
  | _ => True

/-- The local states whose registers speak about the local queue own its lock. So what a thread
knows is not changed by the writes of the others. -/
theorem handOk_congr {word word' : Loc n → ℕ} {c : Fin n} {pc : Pc}
    (hhead : (ltqPhase pc).owns=true → word' (.taskqueueHead c)=word (.taskqueueHead c))
    (hdesc : ∀ p f, p∈hand pc → word' (.desc p f)=word (.desc p f))
    (hfront : ∀ f, (ltqPhase pc).owns=true → word (.taskqueueHead c)≠0 →
      word' (.desc (word (.taskqueueHead c)) f)=word (.desc (word (.taskqueueHead c)) f))
    (h : HandOk word c pc) : HandOk word' c pc := by
  have hwords : ∀ p, (∀ f, word' (.desc p f)=word (.desc p f)) →
      descWords word' p=descWords word p ∧ nextOf word' p=nextOf word p := by
    intro p hp
    simp only [descWords,nextOf,hp,and_self]
  have hseg : ∀ {a b : ℕ} {l : List ℕ}, (∀ p, p∈l → p∈hand pc) → Seg (nextOf word) a l b →
      Seg (nextOf word') a l b :=
    fun hl hs => hs.congr fun p hp => (hwords p fun f => hdesc p f (hl p hp)).2
  have hrange : ∀ {u : Work} {k l : ℕ}, k≤l → ∀ p, p∈(List.range k).map u.ptr →
      p∈(List.range l).map u.ptr := by
    intro u k l hkl p hp
    obtain ⟨j,hj,rfl⟩ := List.mem_map.mp hp
    exact List.mem_map.mpr ⟨j,List.mem_range.mpr (by
      have := List.mem_range.mp hj
      omega),rfl⟩
  cases pc with
  | fast p =>
    cases p with
    | headAgain k =>
      have hh := hhead rfl
      simp only [HandOk] at h ⊢
      rw [hh]
      exact h
    | next k p =>
      have hh := hhead rfl
      simp only [HandOk] at h ⊢
      rw [hh]
      exact h
    | setHead k p v =>
      have hh := hhead rfl
      simp only [HandOk] at h ⊢
      obtain ⟨rfl,h0,hv⟩ := h
      rw [hh,(hwords _ fun f => hfront f rfl h0).2]
      exact ⟨rfl,h0,hv⟩
    | copy p got =>
      simp only [HandOk] at h ⊢
      rw [(hwords p fun f => hdesc p f List.mem_cons_self).1]
      exact h
    | _ => trivial
  | slow p =>
    cases p with
    | headAgain =>
      have hh := hhead rfl
      simp only [HandOk] at h ⊢
      rw [hh]
      exact h
    | copy p got =>
      have hh := hhead rfl
      simp only [HandOk] at h ⊢
      obtain ⟨rfl,h0,hv⟩ := h
      rw [hh,(hwords _ fun f => hfront f rfl h0).1]
      exact ⟨rfl,h0,hv⟩
    | next p got =>
      have hh := hhead rfl
      simp only [HandOk] at h ⊢
      obtain ⟨rfl,h0,hv⟩ := h
      rw [hh,(hwords _ fun f => hfront f rfl h0).1]
      exact ⟨rfl,h0,hv⟩
    | setHead p got v =>
      have hh := hhead rfl
      simp only [HandOk] at h ⊢
      obtain ⟨rfl,h0,hv⟩ := h
      rw [hh,(hwords _ fun f => hfront f rfl h0).1,(hwords _ fun f => hfront f rfl h0).2]
      exact ⟨rfl,h0,hv⟩
    | _ => trivial
  | fetch pf p =>
    cases p with
    | walk first passed p => exact ⟨hseg (fun p hp => List.mem_append_left _ hp) h.1,h.2⟩
    | acqIns first passed p a => exact ⟨hseg (fun p hp => List.mem_append_left _ hp) h.1,h.2⟩
    | insHead first passed p => exact ⟨hseg (fun p hp => List.mem_append_left _ hp) h.1,h.2⟩
    | insNext first passed p v =>
      have hh := hhead rfl
      exact ⟨hseg (fun p hp => List.mem_append_left _ hp) h.1,h.2.1,by rw [hh]; exact h.2.2⟩
    | insSet first passed p =>
      have hh := hhead rfl
      simp only [HandOk] at h ⊢
      rw [hh]
      exact hseg (fun p hp => hp) h
    | _ => trivial
  | par args p =>
    cases p with
    | fill u k f =>
      refine hseg (fun p hp => ?_) h
      cases f with
      | v1 => exact hp
      | _ => exact hrange (Nat.le_succ k) p hp
    | acq u a => exact hseg (hrange (Nat.sub_le _ _)) h
    | head u => exact hseg (hrange (Nat.sub_le _ _)) h
    | insHead u => exact hseg (hrange (Nat.sub_le _ _)) h
    | insNext u v =>
      have hh := hhead rfl
      exact ⟨hseg (hrange (Nat.sub_le _ _)) h.1,by rw [hh]; exact h.2⟩
    | insSet u =>
      have hh := hhead rfl
      simp only [HandOk] at h ⊢
      rw [hh]
      exact hseg (fun p hp => hp) h
    | _ => trivial
  | _ => trivial

/-- One more word of a descriptor is copied. -/
theorem copy_succ {word : Loc n → ℕ} {p : ℕ} {got : List ℕ} (hle : got.length≤3)
    (h : got=(descWords word p).take got.length) :
    got++[word (.desc p (wordField got.length))]=(descWords word p).take (got.length+1) := by
  generalize hk : got.length=k at hle h
  rw [h]
  match k,hle with
  | 0,_ => rfl
  | 1,_ => rfl
  | 2,_ => rfl
  | 3,_ => rfl

/-- The fourth word completes the copy. -/
theorem copy_last {word : Loc n → ℕ} {p : ℕ} {got : List ℕ} (hle : got.length≤3)
    (hge : ¬got.length<3) (h : got=(descWords word p).take got.length) :
    got++[word (.desc p (wordField got.length))]=descWords word p := by
  rw [copy_succ hle h,show got.length+1=4 by omega]
  rfl

section Registers

variable {word : Loc n → ℕ} {t : Thread n m} {sense esense : ℕ} {pc q : Pc} {w : Wr n}
  {e : Option (Event n m)}

/-- A step that stores neither into a descriptor nor into the head of the queue keeps what
is known about registers. -/
theorem handOk_quiet {c : Fin n} (hdesc : ∀ p f v, w≠some (.desc p f,v))
    (hhead : ∀ v, w≠some (.taskqueueHead c,v)) (h : HandOk word c q) :
    HandOk (applyWrite word w) c q :=
  handOk_congr (fun _ => applyWrite_keep hhead) (fun p f _ => applyWrite_keep (hdesc p f))
    (fun f _ _ => applyWrite_keep (hdesc _ f)) h

/-- A store into a word other than `next` keeps the links. -/
theorem seg_field {f : Field} (hf : f≠.next) {p v a b : ℕ} {l : List ℕ}
    (h : Seg (nextOf word) a l b) :
    Seg (nextOf (applyWrite word (some (.desc p f,v)))) a l b :=
  h.congr fun q _ => applyWrite_keep fun v he => by
    cases he
    exact hf rfl

/-- A store into `next` of another descriptor keeps the links. -/
theorem seg_next {p v a b : ℕ} {l : List ℕ} (hp : p∉l) (h : Seg (nextOf word) a l b) :
    Seg (nextOf (applyWrite word (some (.desc p .next,v)))) a l b :=
  h.congr fun q hq => applyWrite_keep fun v he => by
    cases he
    exact hp hq

/-- The pointers of a group are distinct. -/
theorem ptr_notMem (u : Work) (k : ℕ) : u.ptr k∉(List.range k).map u.ptr := by
  intro h
  obtain ⟨j,hj,he⟩ := List.mem_map.mp h
  have := List.mem_range.mp hj
  unfold Work.ptr at he
  omega

/-- The last task and those before it make the group. -/
theorem nodes_snoc {u : Work} (h : u.current≠[]) :
    u.nodes=(List.range (u.current.length-1)).map u.ptr++[u.ptr (u.current.length-1)] := by
  have hpos := List.length_pos_iff.mpr h
  unfold Work.nodes
  rw [show u.current.length=u.current.length-1+1 by omega,List.range_succ,List.map_append]
  simp only [List.map_cons,List.map_nil,Nat.add_sub_cancel]

/-- The end of an iteration of the barrier loop knows nothing about the local queue. -/
theorem handOk_barBranch {pf h τ : ℕ} {k : Bool} {c : Fin n} :
    HandOk word c (.fetch pf (barBranch (n := n) h k τ)) := by
  obtain ⟨b,hb⟩ := barBranch_bar (n := n) h k τ
  rw [hb]
  trivial

/-- The next group of a parallel enqueue starts with an empty list. -/
theorem handOk_parGroup {args : Args} {u : Work} {c : Fin n} :
    HandOk word c (.par args (parGroup u)) := by
  unfold parGroup
  split
  · trivial
  · rfl

/-- The next group of a sequential enqueue starts with an empty list. -/
theorem handOk_seqGroup {args : Args} {idx : ℕ} {groups : List (List (ℕ×ℕ))} {c : Fin n} :
    HandOk word c (.seq args (seqGroup idx groups)) := by
  unfold seqGroup
  split
  · trivial
  · trivial

/-- A complete task of a group is followed by the next one. -/
theorem fill_link {u : Work} {k : ℕ}
    (h : Seg (nextOf word) (u.ptr 0) ((List.range k).map u.ptr) (u.ptr k)) :
    Seg (nextOf (applyWrite word (some (.desc (u.ptr k) .next,u.ptr k+1)))) (u.ptr 0)
      ((List.range (k+1)).map u.ptr) (u.ptr (k+1)) := by
  rw [List.range_succ,List.map_append]
  exact (seg_next (ptr_notMem u k) h).snoc (Nat.succ_ne_zero _) (by
    unfold nextOf
    rw [applyWrite_self]
    rfl)

/-- Every step of the fast path keeps what is known about its registers. The ticket lock keeps
others from the queue meanwhile. -/
theorem fast_handOk {p : FastPc} (h : FastTrans word t p w e q) (hok : HandOk word t.1 (.fast p)) :
    HandOk (applyWrite word w) t.1 q := by
  cases h with
  | acq ha =>
    exact handOk_quiet (fun _ _ _ he => by rw [he] at ha; cases ha.write)
      (fun _ he => by rw [he] at ha; cases ha.write) trivial
  | grant ha =>
    exact handOk_quiet (fun _ _ _ he => by rw [he] at ha; cases ha.write)
      (fun _ he => by rw [he] at ha; cases ha.write) trivial
  | empty k hz => trivial
  | found k hz => exact hz
  | relEmpty k => trivial
  | headAgain k => exact ⟨rfl,hok⟩
  | next k p => exact ⟨hok.1,hok.2,rfl⟩
  | unlink k p v => trivial
  | relPop k p => exact ⟨Nat.zero_le 3,rfl⟩
  | copy p got hlt =>
    refine ⟨?_,?_⟩
    · rw [List.length_append,List.length_singleton]
      omega
    · have := copy_succ hok.1 hok.2
      rw [List.length_append,List.length_singleton]
      exact this
  | finish p got hlt => trivial

/-- Every step of the slow path keeps what is known about its registers. -/
theorem slow_handOk {p : SlowPc} (h : SlowTrans word t sense p w e q)
    (hok : HandOk word t.1 (.slow p)) : HandOk (applyWrite word w) t.1 q := by
  cases h with
  | found hz => exact hz
  | headAgain => exact ⟨rfl,hok,Nat.zero_le 3,rfl⟩
  | copy p got hlt =>
    refine ⟨hok.1,hok.2.1,?_,?_⟩
    · rw [List.length_append,List.length_singleton]
      omega
    · have := copy_succ hok.2.2.1 hok.2.2.2
      rw [List.length_append,List.length_singleton]
      exact this
  | copyDone p got hlt => exact ⟨hok.1,hok.2.1,copy_last hok.2.2.1 hlt hok.2.2.2⟩
  | next p got => exact ⟨hok.1,hok.2.1,hok.2.2,rfl⟩
  | _ => trivial

/-- Every step of a fetch keeps what is known about its registers. The walk goes on from the last
task that it has passed. -/
theorem fetch_handOk {pf : ℕ} {p : FetchPc} (h : FetchTrans cfg word t sense pf p w e q)
    (hok : HandOk word t.1 (.fetch pf p)) (hnodup : (hand (.fetch pf p)).Nodup)
    (htake : ∀ r, takes word (.fetch pf p)=some r → r≠0) : HandOk (applyWrite word w) t.1 q := by
  cases h with
  | slot i idx => exact ⟨rfl,htake _ rfl⟩
  | last first passed p hz => exact hok
  | walk first passed p hz => exact ⟨hok.1.snoc hok.2 rfl,hz⟩
  | acq ha =>
    exact handOk_quiet (fun _ _ _ he => by rw [he] at ha; cases ha.write)
      (fun _ he => by rw [he] at ha; cases ha.write) hok
  | grant ha =>
    exact handOk_quiet (fun _ _ _ he => by rw [he] at ha; cases ha.write)
      (fun _ he => by rw [he] at ha; cases ha.write) hok
  | insHead first passed p => exact ⟨hok.1,hok.2,rfl⟩
  | insNext first passed p v =>
    have hp : p∉passed := fun hp => (List.nodup_append.mp hnodup).2.2 p hp p List.mem_cons_self rfl
    have hv := hok.2.2
    show Seg _ first (passed++[p]) _
    rw [applyWrite_keep (fun _ he => by cases he)]
    exact (seg_next hp hok.1).snoc hok.2.1 (by
      unfold nextOf
      rw [applyWrite_self,hv])
  | bar hb =>
    cases hb with
    | tailCounted => exact handOk_barBranch
    | notPending hl => exact handOk_barBranch
    | incWc τ s => exact handOk_barBranch
    | backSt τ v => trivial
    | _ => trivial
  | _ => trivial

/-- Every step of a parallel enqueue keeps what is known about its registers, through the groups
that it inserts or publishes. -/
theorem par_handOk {args : Args} {p : ParPc} (h : ParTrans cfg word t esense args p w e q)
    (hok : HandOk word t.1 (.par args p)) (hwork : WorkOk (.par args p)) :
    HandOk (applyWrite word w) t.1 q := by
  cases h with
  | pool groups => exact handOk_parGroup
  | fill u k f f' hf =>
    cases f with
    | next => cases hf
    | _ => exact seg_field (fun he => by cases he) hok
  | fillNext u k hlt => exact fill_link hok
  | fillLast u k hlast =>
    have hk : u.current.length-1=k := by
      have := hwork.2
      omega
    show Seg _ (u.ptr 0) ((List.range (u.current.length-1)).map u.ptr) (u.ptr (u.current.length-1))
    rw [hk]
    exact seg_next (ptr_notMem u k) hok
  | acq ha =>
    exact handOk_quiet (fun _ _ _ he => by rw [he] at ha; cases ha.write)
      (fun _ he => by rw [he] at ha; cases ha.write) hok
  | grant ha =>
    exact handOk_quiet (fun _ _ _ he => by rw [he] at ha; cases ha.write)
      (fun _ he => by rw [he] at ha; cases ha.write) hok
  | empty u hz => exact hok
  | insertLocal u hz hl => exact hok
  | insHead u => exact ⟨hok,rfl⟩
  | insNext u v =>
    have hv := hok.2
    show Seg _ (u.ptr 0) u.nodes _
    rw [applyWrite_keep (fun _ he => by cases he),nodes_snoc hwork.2]
    exact (seg_next (ptr_notMem u _) hok.1).snoc (Nat.succ_ne_zero _) (by
      unfold nextOf
      rw [applyWrite_self,hv])
  | relLocalDone hl => exact handOk_parGroup
  | unlockEnqueue u => exact handOk_parGroup
  | _ => trivial

/-- Every step keeps what is known about the registers of its thread. -/
theorem trans_handOk (h : Trans cfg word t sense esense pc w e q) (hok : HandOk word t.1 pc)
    (hwork : WorkOk pc) (hnodup : (hand pc).Nodup) (htake : ∀ r, takes word pc=some r → r≠0) :
    HandOk (applyWrite word w) t.1 q := by
  cases h with
  | fast h => exact fast_handOk h hok
  | slow h => exact slow_handOk h hok
  | fetch h => exact fetch_handOk h hok hnodup htake
  | par h => exact par_handOk h hok hwork
  | seq h =>
    cases h with
    | loadTail => exact handOk_seqGroup
    | incTail idx groups => exact handOk_seqGroup
    | _ => trivial
  | _ => trivial

/-- What a step does to the local queue of its cluster, by its write and its event: the store into
the head is the only write that changes the queue. -/
inductive QueueMove (word : Loc n → ℕ) (t : Thread n m) (pc : Pc) (w : Wr n)
    (e : Option (Event n m)) : Prop where
  /-- No head is written. -/
  | keep : (∀ c v, w≠some (.taskqueueHead c,v)) → e.any isListEvent=false →
      QueueMove word t pc w e
  /-- The list in the hands is put in front. -/
  | insert (first : ℕ) : w=some (.taskqueueHead t.1,first) → e=some (.insert t (hand pc)) →
      (ltqPhase pc).owns=true → Seg (nextOf word) first (hand pc) (word (.taskqueueHead t.1)) →
      QueueMove word t pc w e
  /-- The first task is unlinked. -/
  | pop (p : ℕ) : w=some (.taskqueueHead t.1,nextOf word p) → e=some (.pop t p) →
      (ltqPhase pc).owns=true → word (.taskqueueHead t.1)=p → p≠0 → QueueMove word t pc w e

/-- A local queue changes with its head. -/
theorem trans_listEvent (h : Trans cfg word t sense esense pc w e q)
    (he : e.any isListEvent=true) : ∃ v, w=some (.taskqueueHead t.1,v) := by
  cases h with
  | fast h => cases h <;> first | exact ⟨_,rfl⟩ | cases he
  | slow h => cases h <;> first | exact ⟨_,rfl⟩ | cases he
  | fetch h =>
    cases h with
    | bar hb => cases hb <;> cases he
    | insSet first passed p => exact ⟨_,rfl⟩
    | _ => cases he
  | par h => cases h <;> first | exact ⟨_,rfl⟩ | cases he
  | seq h => cases h <;> cases he
  | _ => cases he

/-- Every step changes the local queue in one of the listed ways: by a pop, by an insertion, or not
at all. -/
theorem trans_queue (h : Trans cfg word t sense esense pc w e q) (hok : HandOk word t.1 pc) :
    QueueMove word t pc w e := by
  by_cases hw : ∃ c v, w=some (.taskqueueHead c,v)
  · obtain ⟨c,v,rfl⟩ := hw
    cases h.writes with
    | fastUnlink k p v =>
      obtain ⟨hp,h0,hv⟩ := hok
      cases h with
      | fast h => cases h; exact .pop p (by rw [hv]) rfl rfl hp h0
    | slowUnlink p got v =>
      obtain ⟨hp,h0,-,hv⟩ := hok
      cases h with
      | slow h => cases h; exact .pop p (by rw [hv]) rfl rfl hp h0
    | fetchInsert pf first passed p =>
      cases h with
      | fetch h => cases h; exact .insert _ rfl rfl rfl hok
    | parInsert args u =>
      cases h with
      | par h => cases h; exact .insert _ rfl rfl rfl hok
  · refine .keep (fun c v he => hw ⟨c,v,he⟩) ?_
    cases he : e.any isListEvent with
    | false => rfl
    | true =>
      obtain ⟨v,hv⟩ := trans_listEvent h he
      exact absurd ⟨_,v,hv⟩ hw

end Registers

/-- The descriptor that a turn takes is a free one. This is what the callers of the queue must see
to, since the enqueues do not test for room. -/
def Disciplined (s : QState n m) (turn : QTurn n m) : Prop :=
  ∀ p, takes s.word (s.pc turn.thread).pc=some p → p≠0 ∧ ∀ x, p∉place s x

/-- Discipline can be checked. -/
instance (s : QState n m) (turn : QTurn n m) : Decidable (Disciplined s turn) :=
  match h : takes s.word (s.pc turn.thread).pc with
  | none => .isTrue fun p hp => by
    rw [h] at hp
    cases hp
  | some p => decidable_of_iff (p≠0 ∧ ∀ x, p∉place s x) ⟨fun hf q hq => by
    rw [h] at hq
    cases hq
    exact hf,fun hf => hf p h⟩

/-- The lists of the task queue: each local queue is the chain from its head word, its nodes are
distinct and in no other queue or hand, and every task is queued from its insertion to its
unlinking. -/
structure ListInv (s : QState n m) : Prop where
  /-- A descriptor is queued in one cluster or in the hands of one thread. -/
  owned : Owned (place s)
  /-- The head of a cluster starts the chain of its queue. -/
  chain : ∀ c, Seg (nextOf s.word) (s.word (.taskqueueHead c)) (queue s c) 0
  /-- What threads know about links and words. -/
  hands : ∀ t, HandOk s.word t.1 (s.pc t).pc
  /-- Counters of enqueues. -/
  work : ∀ t, WorkOk (s.pc t).pc
  /-- Tasks are queued from their insertion to their unlinking. -/
  ledger : ∀ c p, (insertedOf c s.trace).count p=
    (queue s c).count p+(poppedOf c s.trace).count p

/-- The lists before the first call. -/
theorem listInv_initial : ListInv (initial n m) where
  owned := ⟨fun x => by cases x <;> exact List.nodup_nil,fun x y p hx => by cases x <;> cases hx⟩
  chain _ := rfl
  hands _ := trivial
  work _ := trivial
  ledger _ _ := rfl

section Step

variable {s : QState n m} {turn : QTurn n m}

/-- A turn stores into a descriptor that its thread holds or that is free. -/
theorem ListInv.desc_of_wrote (h : ListInv s) (fresh : LinkFresh reserve s)
    (hd : Disciplined s turn) {p v : ℕ} {f : Field} (hw : wrote cfg s turn=some (.desc p f,v))
    {x : Fin n ⊕ Thread n m} (hp : p∈place s x) : x=.inr turn.thread := by
  have ht := trans_step cfg s turn fresh
  rw [hw] at ht
  rcases trans_desc ht (h.work _) with hin|htake
  · exact h.owned.apart x (.inr turn.thread) p hp hin
  · exact absurd hp ((hd p htake).2 x)

/-- Descriptors elsewhere keep their words. -/
theorem ListInv.desc_keep (h : ListInv s) (fresh : LinkFresh reserve s) (hd : Disciplined s turn)
    {p : ℕ} {x : Fin n ⊕ Thread n m} (hp : p∈place s x) (hx : x≠.inr turn.thread) (f : Field) :
    (step (program n m cfg) s turn).word (.desc p f)=s.word (.desc p f) := by
  rw [word_step]
  exact applyWrite_keep fun v hw => hx (h.desc_of_wrote fresh hd hw hp)

/-- An event that is neither an insertion nor a pop leaves the books of the queues alone. -/
theorem books_quiet {e : Option (Event n m)} (he : e.any isListEvent=false) (c : Fin n)
    (es : List (Event n m)) : queueOf c (e.toList++es)=queueOf c es ∧
      insertedOf c (e.toList++es)=insertedOf c es ∧ poppedOf c (e.toList++es)=poppedOf c es := by
  cases e with
  | none => exact ⟨rfl,rfl,rfl⟩
  | some e =>
    cases e with
    | insert t nodes => cases he
    | pop t p => cases he
    | _ => exact ⟨rfl,rfl,rfl⟩

/-- A turn of another cluster leaves the books of a cluster alone. -/
theorem books_other (cfg : Config) (turn : QTurn n m) (h : ListInv s)
    (fresh : LinkFresh reserve s) {c : Fin n}
    (hc : c≠turn.thread.1) : queue (step (program n m cfg) s turn) c=queue s c ∧
      insertedOf c (step (program n m cfg) s turn).trace=insertedOf c s.trace ∧
      poppedOf c (step (program n m cfg) s turn).trace=poppedOf c s.trace := by
  unfold queue
  rw [trace_step]
  cases trans_queue (trans_step cfg s turn fresh) (h.hands turn.thread) with
  | keep _ he => exact books_quiet he c s.trace
  | insert first _ he => rw [he]; exact ⟨if_neg hc.symm,if_neg hc.symm,rfl⟩
  | pop p _ he => rw [he]; exact ⟨if_neg hc.symm,rfl,if_neg hc.symm⟩

/-- A turn changes the hands of its thread and the queue of its cluster. All other places stay. -/
theorem place_step (h : ListInv s) (fresh : LinkFresh reserve s) :
    place (step (program n m cfg) s turn)=
      Function.update (Function.update (place s) (.inr turn.thread)
        (hand ((step (program n m cfg) s turn).pc turn.thread).pc)) (.inl turn.thread.1)
        (queue (step (program n m cfg) s turn) turn.thread.1) := by
  funext x
  cases x with
  | inl c =>
    by_cases hc : c=turn.thread.1
    · rw [hc,Function.update_self]
      rfl
    · rw [Function.update_of_ne (fun he => hc (Sum.inl.inj he)),
        Function.update_of_ne (fun he => by cases he)]
      exact (books_other cfg turn h fresh hc).1
  | inr t =>
    rw [Function.update_of_ne (fun he => by cases he)]
    by_cases ht : t=turn.thread
    · rw [ht,Function.update_self]
      rfl
    · rw [Function.update_of_ne (fun he => ht (Sum.inr.inj he))]
      exact congrArg (fun l => hand l.pc) (pc_other cfg s turn ht)

/-- The queue of a cluster is a place. -/
theorem update_queue (s : QState n m) (c : Fin n) (t : Thread n m) (l : List ℕ) :
    Function.update (Function.update (place s) (.inr t) l) (.inl c) (queue s c)=
      Function.update (place s) (.inr t) l := by
  refine Function.update_eq_self_iff.mpr ?_
  rw [Function.update_of_ne (fun he => by cases he)]
  rfl

/-- A pop unlinks the first task of the queue. The rest stays linked from the next word of that
task. -/
theorem queue_pop (h : ListInv s) (fresh : LinkFresh reserve s) {t : Thread n m} {p : ℕ}
    (he : event cfg s turn=some (.pop t p)) :
    queue s turn.thread.1=p::queue (step (program n m cfg) s turn) turn.thread.1 ∧
      Seg (nextOf s.word) (nextOf s.word p)
        (queue (step (program n m cfg) s turn) turn.thread.1) 0 := by
  cases trans_queue (trans_step cfg s turn fresh) (h.hands turn.thread) with
  | keep _ hq =>
    rw [he] at hq
    cases hq
  | insert first _ hi =>
    rw [he] at hi
    cases hi
  | pop q _ hpop _ hhead h0 =>
    have hq : queue (step (program n m cfg) s turn) turn.thread.1=(queue s turn.thread.1).tail := by
      unfold queue
      rw [trace_step,hpop]
      exact if_pos rfl
    rw [he] at hpop
    cases hpop
    obtain ⟨k,hk,hseg⟩ := (h.chain turn.thread.1).cons_of_ne (by rw [hhead]; exact h0)
    rw [hhead] at hk hseg
    rw [hq,hk]
    exact ⟨rfl,hseg⟩

/-- A turn keeps every descriptor in one place. An exchange between the hands of the thread and its
queue is enough, together with the one descriptor that it may take. -/
theorem owned_step (h : ListInv s) (fresh : LinkFresh reserve s) (hd : Disciplined s turn) :
    Owned (place (step (program n m cfg) s turn)) := by
  have ht := trans_step cfg s turn fresh
  have hhand := trans_hand ht (h.work _)
  have hqueue := trans_queue ht (h.hands turn.thread)
  have hown := h.owned.nodup (.inr turn.thread)
  rw [place_step h fresh]
  have hquiet : (event cfg s turn).any isListEvent=false →
      queue (step (program n m cfg) s turn) turn.thread.1=queue s turn.thread.1 := by
    intro he
    unfold queue
    rw [trace_step]
    exact (books_quiet he _ s.trace).1
  generalize hev : event cfg s turn=e at hhand hqueue hquiet
  generalize htk : takes s.word (s.pc turn.thread).pc=o at hhand
  generalize hl : hand (s.pc turn.thread).pc=l at hhand
  generalize hand ((step (program n m cfg) s turn).pc turn.thread).pc=l' at hhand ⊢
  have hplace : place s (.inr turn.thread)=l := hl
  rw [hplace] at hown
  cases hhand with
  | keep he =>
    rw [hquiet he,update_queue]
    exact h.owned.change hown fun p hp => .inl (by rw [hplace]; exact hp)
  | take he =>
    rename_i p
    rw [hquiet he,update_queue]
    obtain ⟨-,hfree⟩ := hd p htk
    refine h.owned.change (List.nodup_append.mpr ⟨hown,List.nodup_singleton p,?_⟩) ?_
    · intro a ha b hb hab
      rw [List.mem_singleton.mp hb] at hab
      exact hfree (.inr turn.thread) (by rw [hplace,←hab]; exact ha)
    · intro a ha
      rcases List.mem_append.mp ha with ha|ha
      · exact .inl (by rw [hplace]; exact ha)
      · rw [List.mem_singleton.mp ha]
        exact .inr hfree
  | drop he =>
    rw [hquiet he,update_queue]
    exact h.owned.change List.nodup_nil fun p hp => by cases hp
  | insert =>
    have hq : queue (step (program n m cfg) s turn) turn.thread.1=l++queue s turn.thread.1 := by
      unfold queue
      rw [trace_step,hev]
      exact if_pos rfl
    rw [hq]
    refine h.owned.exchange (fun he => by cases he) ?_ ?_ <;> rw [List.nil_append]
    · refine List.nodup_append.mpr ⟨hown,h.owned.nodup (.inl turn.thread.1),?_⟩
      intro a ha b hb hab
      have := h.owned.apart (.inr turn.thread) (.inl turn.thread.1) a (by rw [hplace]; exact ha)
        (by rw [hab]; exact hb)
      cases this
    · intro p hp
      rcases List.mem_append.mp hp with hp|hp
      · exact .inl (by rw [hplace]; exact hp)
      · exact .inr hp
  | popFast p =>
    obtain ⟨hq,hk⟩ := queue_pop h fresh hev
    refine h.owned.exchange (fun he => by cases he) ?_ ?_
    · rw [List.singleton_append,←hq]
      exact h.owned.nodup (.inl turn.thread.1)
    · intro a ha
      rw [List.singleton_append,←hq] at ha
      exact .inr ha
  | popSlow p =>
    obtain ⟨hq,hk⟩ := queue_pop h fresh hev
    have hnodup := h.owned.nodup (.inl turn.thread.1)
    refine h.owned.exchange (fun he => by cases he) ?_ ?_
    · change (queue s turn.thread.1).Nodup at hnodup
      rw [hq] at hnodup
      exact hnodup.of_cons
    · intro a ha
      refine .inr (show a∈queue s turn.thread.1 from ?_)
      rw [hq]
      exact List.mem_cons_of_mem p ha

/-- A turn keeps every chain: a store into a `next` word goes to a descriptor in the hands of the
thread, and so not into a queue. -/
theorem chain_step (h : ListInv s) (fresh : LinkFresh reserve s) (hd : Disciplined s turn)
    (c : Fin n) : Seg (nextOf (step (program n m cfg) s turn).word)
      ((step (program n m cfg) s turn).word (.taskqueueHead c))
      (queue (step (program n m cfg) s turn) c) 0 := by
  have hlinks : ∀ {a : ℕ} {l : List ℕ}, (∀ p, p∈l → ∃ c, p∈queue s c) →
      Seg (nextOf s.word) a l 0 → Seg (nextOf (step (program n m cfg) s turn).word) a l 0 :=
    fun hl hs => hs.congr fun p hp => by
      obtain ⟨c,hc⟩ := hl p hp
      exact h.desc_keep fresh hd (x := .inl c) hc (fun he => by cases he) .next
  by_cases hc : c=turn.thread.1
  · subst hc
    have hs := h.chain turn.thread.1
    cases trans_queue (trans_step cfg s turn fresh) (h.hands turn.thread) with
    | keep hw he =>
      have hq : queue (step (program n m cfg) s turn) turn.thread.1=queue s turn.thread.1 := by
        unfold queue
        rw [trace_step]
        exact (books_quiet he _ s.trace).1
      rw [hq,word_step,applyWrite_keep (hw _)]
      exact hlinks (fun p hp => ⟨_,hp⟩) hs
    | insert first hw he howns hseg =>
      have hq : queue (step (program n m cfg) s turn) turn.thread.1=
          hand (s.pc turn.thread).pc++queue s turn.thread.1 := by
        unfold queue
        rw [trace_step,he]
        exact if_pos rfl
      have hnext : nextOf (step (program n m cfg) s turn).word=nextOf s.word := by
        funext p
        unfold nextOf
        rw [word_step,hw]
        exact applyWrite_keep fun v he => by cases he
      rw [hq,hnext,word_step,hw,applyWrite_self]
      exact hseg.append hs
    | pop p hw he howns hp h0 =>
      obtain ⟨hq,hk⟩ := queue_pop h fresh he
      have hhead : (step (program n m cfg) s turn).word (.taskqueueHead turn.thread.1)=
          nextOf s.word p := by
        rw [word_step,hw,applyWrite_self]
      rw [hhead]
      exact hlinks (fun a ha => ⟨turn.thread.1,by rw [hq]; exact List.mem_cons_of_mem p ha⟩) hk
  · rw [(books_other cfg turn h fresh hc).1,word_other_cluster cfg s turn fresh rfl (Ne.symm hc)]
    exact hlinks (fun p hp => ⟨c,hp⟩) (h.chain c)

/-- A turn keeps what every thread knows, of itself by its own step and of the others since their
descriptors and their locks are not touched. -/
theorem hands_step (h : ListInv s) (fresh : LinkFresh reserve s) (hltq : LtqInv s)
    (hd : Disciplined s turn) (t : Thread n m) :
    HandOk (step (program n m cfg) s turn).word t.1 ((step (program n m cfg) s turn).pc t).pc := by
  have ht := trans_step cfg s turn fresh
  by_cases htt : t=turn.thread
  · subst htt
    exact trans_handOk ht (h.hands _) (h.work _) (h.owned.nodup (.inr turn.thread))
      fun r hr => (hd r hr).1
  · rw [pc_other cfg s turn htt]
    refine handOk_congr (fun howns => ?_) (fun p f hp => ?_) (fun f howns h0 => ?_) (h.hands t)
    · rw [word_step]
      refine applyWrite_keep fun v hw => htt ?_
      cases trans_queue ht (h.hands turn.thread) with
      | keep hk _ => exact absurd hw (hk _ _)
      | insert first hw' he howns' _ =>
        rw [hw'] at hw
        have hc : turn.thread.1=t.1 := by injection hw with hw; injection hw with hw; injection hw
        exact hltq.exclusive hc.symm howns howns'
      | pop p hw' he howns' _ _ =>
        rw [hw'] at hw
        have hc : turn.thread.1=t.1 := by injection hw with hw; injection hw with hw; injection hw
        exact hltq.exclusive hc.symm howns howns'
    · exact h.desc_keep fresh hd (x := .inr t) hp (fun he => htt (Sum.inr.inj he)) f
    · obtain ⟨k,hk,-⟩ := (h.chain t.1).cons_of_ne h0
      refine h.desc_keep fresh hd (x := .inl t.1) ?_ (fun he => by cases he) f
      show _∈queue s t.1
      rw [hk]
      exact List.mem_cons_self

/-- A turn keeps the books: a list is entered when it is inserted and a task struck off when it is
unlinked. -/
theorem ledger_step (h : ListInv s) (fresh : LinkFresh reserve s) (c : Fin n) (p : ℕ) :
    (insertedOf c (step (program n m cfg) s turn).trace).count p=
      (queue (step (program n m cfg) s turn) c).count p+
        (poppedOf c (step (program n m cfg) s turn).trace).count p := by
  have hl := h.ledger c p
  by_cases hc : c=turn.thread.1
  · subst hc
    cases trans_queue (trans_step cfg s turn fresh) (h.hands turn.thread) with
    | keep hw he =>
      obtain ⟨h1,h2,h3⟩ := books_quiet he turn.thread.1 s.trace
      unfold queue at hl ⊢
      rw [trace_step,h1,h2,h3]
      exact hl
    | insert first hw he howns hseg =>
      have h1 : insertedOf turn.thread.1 (step (program n m cfg) s turn).trace=
          hand (s.pc turn.thread).pc++insertedOf turn.thread.1 s.trace := by
        rw [trace_step,he]
        exact if_pos rfl
      have h2 : queue (step (program n m cfg) s turn) turn.thread.1=
          hand (s.pc turn.thread).pc++queue s turn.thread.1 := by
        unfold queue
        rw [trace_step,he]
        exact if_pos rfl
      have h3 : poppedOf turn.thread.1 (step (program n m cfg) s turn).trace=
          poppedOf turn.thread.1 s.trace := by
        rw [trace_step,he]
        rfl
      rw [h1,h2,h3,List.count_append,List.count_append]
      omega
    | pop q hw he howns hq h0 =>
      obtain ⟨hk,-⟩ := queue_pop h fresh he
      have h1 : insertedOf turn.thread.1 (step (program n m cfg) s turn).trace=
          insertedOf turn.thread.1 s.trace := by
        rw [trace_step,he]
        rfl
      have h3 : poppedOf turn.thread.1 (step (program n m cfg) s turn).trace=
          q::poppedOf turn.thread.1 s.trace := by
        rw [trace_step,he]
        exact if_pos rfl
      rw [hk] at hl
      rw [h1,h3]
      simp only [List.count_cons] at hl ⊢
      omega
  · obtain ⟨h1,h2,h3⟩ := books_other cfg turn h fresh hc
    rw [h1,h2,h3]
    exact hl

/-- A disciplined turn keeps the lists. -/
theorem listInv_step (h : ListInv s) (fresh : LinkFresh reserve s) (hltq : LtqInv s)
    (hd : Disciplined s turn) : ListInv (step (program n m cfg) s turn) where
  owned := owned_step h fresh hd
  chain := chain_step h fresh hd
  hands := hands_step h fresh hltq hd
  work := step_pc_forall (Q := fun _ (l : Local) => WorkOk l.pc) _ _ _
    (trans_workOk (trans_step cfg s turn fresh) (h.work _)) fun t _ => h.work t
  ledger := ledger_step h fresh

end Step

/-- The lists are right in every state of a disciplined run. -/
theorem listInv_reachable (hm : m<wordSize) {allowed : QState n m → QTurn n m → Prop}
    (hallowed : ∀ s turn, allowed s turn → Disciplined s turn) {s : QState n m}
    (hs : Reachable (program n m cfg) (initial n m) allowed s) : ListInv s := by
  refine Reachable.invariant listInv_initial ?_ hs
  intro s turn hs ha h
  exact listInv_step h (linkFresh_reachable hs) (ltqInv_reachable hm hs) (hallowed s turn ha)

/-- The task that a thread has unlinked and not yet returned, while its words are copied and the
lock is released. -/
def delivering : Pc → Option ℕ
  | .fast (.relPop _ p) => some p
  | .fast (.copy p _) => some p
  | .slow (.dec p _ _) => some p
  | .slow (.relPop p _ _) => some p
  | _ => none

/-- The tasks that a thread has unlinked, the latest first. -/
def poppedBy (t : Thread n m) : List (Event n m) → List ℕ
  | [] => []
  | .pop u p::es => if u=t then p::poppedBy t es else poppedBy t es
  | _::es => poppedBy t es

/-- The tasks that were returned to a thread, the latest first. -/
def deliveredBy (t : Thread n m) : List (Event n m) → List ℕ
  | [] => []
  | .success u p _::es => if u=t then p::deliveredBy t es else deliveredBy t es
  | _::es => deliveredBy t es

/-- Whether an event starts or ends a delivery. -/
def isDelivery : Event n m → Bool
  | .pop _ _ => true
  | .success _ _ _ => true
  | _ => false

/-- Return of a task to a thread. -/
def isSuccess (t : Thread n m) : Event n m → Bool
  | .success u _ _ => u==t
  | _ => false

/-- The thread returns these words for task `p`: they are in its registers, or in the
descriptor in its hands. -/
def Carries (word : Loc n → ℕ) (p : ℕ) (words : List ℕ) : Pc → Prop
  | .fast (.relPop _ q) => q=p ∧ descWords word p=words
  | .fast (.copy q _) => q=p ∧ descWords word p=words
  | .slow (.dec q got _) => q=p ∧ got=words
  | .slow (.relPop q got _) => q=p ∧ got=words
  | _ => False

section Delivery

variable {word : Loc n → ℕ} {t : Thread n m} {sense esense : ℕ} {pc q : Pc} {w : Wr n}
  {e : Option (Event n m)} {p : ℕ} {words : List ℕ}

/-- What a thread carries depends on the descriptor in its hands. -/
theorem Carries.congr {word' : Loc n → ℕ} (h : Carries word p words pc)
    (hdesc : ∀ r f, r∈hand pc → word' (.desc r f)=word (.desc r f)) :
    Carries word' p words pc := by
  have hwords : ∀ r, r∈hand pc → descWords word' r=descWords word r := by
    intro r hr
    simp only [descWords,hdesc r _ hr]
  cases pc with
  | fast p' =>
    cases p' with
    | relPop k r =>
      obtain ⟨rfl,hd⟩ := h
      exact ⟨rfl,(hwords r List.mem_cons_self).trans hd⟩
    | copy r got =>
      obtain ⟨rfl,hd⟩ := h
      exact ⟨rfl,(hwords r List.mem_cons_self).trans hd⟩
    | _ => exact h
  | slow p' => cases p' <;> exact h
  | _ => exact h

/-- A pop starts a delivery of the words of its task. -/
theorem trans_pop (h : Trans cfg word t sense esense pc w (some (.pop t p)) q)
    (hok : HandOk word t.1 pc) : Carries (applyWrite word w) p (descWords word p) q := by
  cases h with
  | fast h =>
    cases h with
    | unlink k p v => exact ⟨rfl,rfl⟩
  | slow h =>
    cases h with
    | unlink p got v => exact ⟨rfl,hok.2.2.1⟩
  | fetch h =>
    cases h with
    | bar hb => cases hb
  | par h => cases h
  | seq h => cases h

/-- A delivery goes on until the words are returned: the registers hold the words that the
descriptor had at the unlinking. -/
theorem trans_carries (h : Trans cfg word t sense esense pc w e q)
    (hc : Carries word p words pc) (hok : HandOk word t.1 pc) :
    (e=none ∧ Carries (applyWrite word w) p words q) ∨ e=some (.success t p words) := by
  cases h with
  | fast h =>
    cases h with
    | relPop k r => exact .inl ⟨rfl,hc⟩
    | copy r got hlt => exact .inl ⟨rfl,hc⟩
    | finish r got hlt =>
      obtain ⟨rfl,hd⟩ := hc
      rw [copy_last hok.1 hlt hok.2,hd]
      exact .inr rfl
    | _ => cases hc
  | slow h =>
    cases h with
    | dec hu => exact .inl ⟨rfl,hc⟩
    | decDone hu => exact .inl ⟨rfl,hc⟩
    | relPop hl => exact .inl ⟨rfl,hc⟩
    | finish hl =>
      obtain ⟨rfl,rfl⟩ := hc
      exact .inr rfl
    | _ => cases hc
  | _ => cases hc

/-- Other events leave the deliveries alone. -/
theorem delivery_quiet (he : e.any isDelivery=false) (u : Thread n m) (es : List (Event n m)) :
    poppedBy u (e.toList++es)=poppedBy u es ∧ deliveredBy u (e.toList++es)=deliveredBy u es := by
  cases e with
  | none => exact ⟨rfl,rfl⟩
  | some e =>
    cases e with
    | pop t p => cases he
    | success t p words => cases he
    | _ => exact ⟨rfl,rfl⟩

/-- A fetch delivers nothing. -/
theorem delivering_fetch (pf : ℕ) (p : FetchPc) : delivering (.fetch pf p)=none := rfl

/-- A step starts a delivery, ends one or does neither. A delivery is a task between its unlinking
and its return. -/
theorem trans_delivering (h : Trans cfg word t sense esense pc w e q) :
    (delivering q=delivering pc ∧ e.any isDelivery=false) ∨
    (∃ p, e=some (.pop t p) ∧ delivering pc=none ∧ delivering q=some p) ∨
    ∃ p words, e=some (.success t p words) ∧ delivering pc=some p ∧ delivering q=none := by
  cases h with
  | fast h =>
    cases h with
    | unlink k p v => exact .inr (.inl ⟨p,rfl,rfl,rfl⟩)
    | finish p got _ => exact .inr (.inr ⟨p,_,rfl,rfl,rfl⟩)
    | _ => exact .inl ⟨rfl,rfl⟩
  | slow h =>
    cases h with
    | unlink p got v => exact .inr (.inl ⟨p,rfl,rfl,rfl⟩)
    | finish hl => exact .inr (.inr ⟨_,_,rfl,rfl,rfl⟩)
    | _ => exact .inl ⟨rfl,rfl⟩
  | fetch h =>
    cases h with
    | bar hb =>
      refine .inl ⟨by rw [delivering_fetch,delivering_fetch],?_⟩
      cases hb <;> rfl
    | _ => exact .inl ⟨rfl,rfl⟩
  | par h => cases h <;> exact .inl ⟨rfl,rfl⟩
  | seq h => cases h <;> exact .inl ⟨rfl,rfl⟩
  | _ => exact .inl ⟨rfl,rfl⟩

end Delivery

/-- A thread returns the tasks that it unlinks, in order and each before the next. No task is
returned that was not unlinked. -/
theorem poppedBy_reachable {allowed : QState n m → QTurn n m → Prop} {s : QState n m}
    (hs : Reachable (program n m cfg) (initial n m) allowed s) (t : Thread n m) :
    poppedBy t s.trace=(delivering (s.pc t).pc).toList++deliveredBy t s.trace := by
  induction hs with
  | init => rfl
  | @move s turn hs _ h =>
    rw [trace_step]
    rcases trans_delivering (trans_step cfg s turn (linkFresh_reachable hs)) with
      ⟨hq,he⟩|⟨p,he,hpc,hq⟩|⟨p,words,he,hpc,hq⟩
    · rw [(delivery_quiet he t s.trace).1,(delivery_quiet he t s.trace).2,h]
      by_cases ht : t=turn.thread
      · rw [ht,hq]
      · rw [pc_other cfg s turn ht]
    · simp only [he,Option.toList_some,List.singleton_append,poppedBy,deliveredBy]
      by_cases ht : t=turn.thread
      · rw [ht,hpc] at h
        rw [ht,hq,if_pos rfl,h]
        rfl
      · rw [pc_other cfg s turn ht,if_neg (Ne.symm ht),h]
    · simp only [he,Option.toList_some,List.singleton_append,poppedBy,deliveredBy]
      by_cases ht : t=turn.thread
      · rw [ht,hpc] at h
        rw [ht,hq,if_pos rfl,h]
        rfl
      · rw [pc_other cfg s turn ht,if_neg (Ne.symm ht),h]

/-- Disciplined turns until a task is returned to a thread. -/
def UntilReturn (cfg : Config) (t : Thread n m) (s : QState n m) (turn : QTurn n m) : Prop :=
  Disciplined s turn ∧ (event cfg s turn).any (isSuccess t)=false

/-- Between the unlinking of a task and its return the thread carries its words, whatever happens to
the descriptor meanwhile. -/
theorem carries_reachable (hm : m<wordSize) {s s' : QState n m} {turn : QTurn n m}
    {t : Thread n m} {p : ℕ} (hs : Reachable (program n m cfg) (initial n m) Disciplined s)
    (hd : Disciplined s turn) (he : event cfg s turn=some (.pop t p))
    (hs' : Reachable (program n m cfg) (step (program n m cfg) s turn) (UntilReturn cfg t) s') :
    Carries s'.word p (descWords s.word p) (s'.pc t).pc := by
  have hfrom : ∀ {u : QState n m}, Reachable (program n m cfg) (step (program n m cfg) s turn)
      (UntilReturn cfg t) u → Reachable (program n m cfg) (initial n m) Disciplined u :=
    fun hu => Reachable.trans (fun _ _ h => h.1) (.move turn hs hd) hu
  induction hs' with
  | init =>
    have hthread : t=turn.thread := event_actor he
    have ht := trans_step cfg s turn (linkFresh_reachable hs)
    rw [he,hthread] at ht
    rw [hthread,word_step]
    exact trans_pop ht ((listInv_reachable hm (fun _ _ h => h) hs).hands turn.thread)
  | @move u next hu hnext hc =>
    have hlist := listInv_reachable hm (fun _ _ h => h) (hfrom hu)
    have fresh := linkFresh_reachable (hfrom hu)
    by_cases hthread : t=next.thread
    · have ht := trans_step cfg u next fresh
      rw [word_step]
      rw [hthread] at hc ⊢
      rcases trans_carries ht hc (hlist.hands next.thread) with ⟨-,hc'⟩|hsucc
      · exact hc'
      · have hno := hnext.2
        rw [hsucc,hthread] at hno
        simp [isSuccess] at hno
    · rw [pc_other cfg u next hthread]
      exact hc.congr fun r f hr => hlist.desc_keep fresh hnext.1 (x := .inr t) hr
        (fun hx => hthread (Sum.inr.inj hx)) f

/-- In every state of a run whose turns take free descriptors only, the local queue of every
cluster is a chain without repetition that ends in `NULL` and holds what was inserted and not
yet unlinked; a thread returns the tasks that it unlinks in order, and every unlinked task is
the first of its queue and is returned with the words it had then. -/
theorem local_queue_representation (hm : m<wordSize) {s : QState n m}
    (hs : Reachable (program n m cfg) (initial n m) Disciplined s) :
    (∀ c, Seg (nextOf s.word) (s.word (.taskqueueHead c)) (queue s c) 0 ∧ (queue s c).Nodup ∧
      ∀ p, (insertedOf c s.trace).count p=(queue s c).count p+(poppedOf c s.trace).count p) ∧
    (∀ t, poppedBy t s.trace=(delivering (s.pc t).pc).toList++deliveredBy t s.trace) ∧
    ∀ turn t p, Disciplined s turn → event cfg s turn=some (.pop t p) →
      queue s t.1=p::queue (step (program n m cfg) s turn) t.1 ∧
      ∀ s', Reachable (program n m cfg) (step (program n m cfg) s turn) (UntilReturn cfg t) s' →
        ∀ next e, next.thread=t → event cfg s' next=some e →
          e=.success t p (descWords s.word p) := by
  have hlist := listInv_reachable hm (fun _ _ h => h) hs
  refine ⟨fun c => ⟨hlist.chain c,hlist.owned.nodup (.inl c),hlist.ledger c⟩,
    poppedBy_reachable hs,?_⟩
  intro turn t p hd he
  have hthread : t=turn.thread := event_actor he
  refine ⟨?_,?_⟩
  · rw [hthread]
    exact (queue_pop hlist (linkFresh_reachable hs) he).1
  · rintro s' hs' next e rfl hnext
    have hc := carries_reachable hm hs hd he hs'
    have hs'' := Reachable.trans (fun _ _ h => h.1) (.move turn hs hd) hs'
    rcases trans_carries (trans_step cfg s' next (linkFresh_reachable hs'')) hc
      ((listInv_reachable hm (fun _ _ h => h) hs'').hands next.thread) with ⟨hnone,-⟩|hsucc
    · rw [hnext] at hnone
      cases hnone
    · rw [hnext] at hsucc
      exact Option.some.inj hsucc

/-- A thread enqueues a task into its local queue and dequeues it up to the unlinking. -/
def enqueueThenPop : List (QTurn 1 1) :=
  alone solo (.loopParallel singleTask)::List.replicate 21 (alone solo .stay)++
    alone solo .dequeue::List.replicate 6 (alone solo .stay)

/-- The enqueued task is the queue, and its unlinking leads to the return of its words. The run is
that of one thread. -/
theorem local_queue_representation_pop :
    queue (run (program 1 1 oneGroup) (initial 1 1) enqueueThenPop) 0=[1] ∧
    ∀ s', Reachable (program 1 1 oneGroup)
        (step (program 1 1 oneGroup) (run (program 1 1 oneGroup) (initial 1 1) enqueueThenPop)
          (alone 0 .stay)) (UntilReturn oneGroup (0,0)) s' →
      ∀ next e, next.thread=(0,0) → event oneGroup s' next=some e →
        e=.success (0,0) 1 [7,8,0,1] := by
  have hs : Reachable (program 1 1 oneGroup) (initial 1 1) Disciplined
      (run (program 1 1 oneGroup) (initial 1 1) enqueueThenPop) :=
    .of_allows .init (by decide +kernel)
  refine ⟨by decide +kernel,?_⟩
  have hwords : descWords (run (program 1 1 oneGroup) (initial 1 1) enqueueThenPop).word 1=
      [7,8,0,1] := by decide +kernel
  rw [←hwords]
  exact ((local_queue_representation (by decide) hs).2.2 (alone 0 .stay) (0,0) 1
    (by decide +kernel) (by decide +kernel)).2

end RigelTarget.TaskQueueLists
