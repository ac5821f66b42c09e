import RigelTarget.Custody
import RigelTarget.TaskQueueRoom
import RigelTarget.TaskQueuePrefetch

/-!
# The way of a task through the queue

A task is written by an enqueue, goes through a local queue or through a published
group, a fetch and a local queue, and is returned by a dequeue. The events of a run
are the books of this way. As long as every enqueue finds room for what it draws, a
parallel one publishes below the end of the index, and clusters are found waiting on
empty queues only, the books are sound in every interleaving: dequeues return exactly
the words that enqueues wrote, each task once, and nothing is left when the barrier
is decided.
-/

namespace RigelTarget.TaskQueueDelivery

open SharedMemory TaskQueueModel TaskQueueProgram TaskQueueSteps TaskQueueFrame TaskQueueLocks
  TaskQueueBarrier TaskQueueSafety TaskQueueLists TaskQueueRoom TaskQueuePrefetch IntrusiveList
  Custody

variable {n m : ℕ} {cfg : Config}

/-- Where a task is on its way: in the hands of a thread, in a published group, or in the local
queue of a cluster. -/
inductive Spot (n m : ℕ) where
  /-- In the local queue of a cluster. -/
  | queue (c : Fin n)
  /-- In the hands of a thread. -/
  | thread (t : Thread n m)
  /-- In a published group that was not returned. -/
  | group (i : ℕ)
  deriving DecidableEq

/-- The words of a task. -/
def taskWords (d : Desc) : List ℕ := [d.v1,d.v2,d.v3,d.v4]

/-- The books of the tasks, by the events so far: written tasks enter the hands of their thread, are
passed on by publications, fetches, insertions and unlinkings, and leave by the return of their
words. -/
def books : List (Event n m) → Books (Spot n m) (List ℕ)
  | [] => .empty []
  | .fill t p d::es => (books es).enter (.thread t) p (taskWords d)
  | .insert t nodes::es =>
    (books es).pass (.thread t) (.queue t.1) [] (nodes++(books es).place (.queue t.1))
  | .pop t p::es =>
    (books es).pass (.thread t) (.queue t.1) [p] ((books es).place (.queue t.1)).tail
  | .success t p words::es => (books es).leave (.thread t) p words
  | .publish t i nodes::es => (books es).pass (.thread t) (.group i) [] nodes
  | .group t i _::es =>
    (books es).pass (.thread t) (.group i) ((books es).place (.group i)) []
  | _::es => books es

/-- The words of the tasks that enqueues wrote, the latest first. A task is written when its
descriptor is complete. -/
def written : List (Event n m) → List (List ℕ)
  | [] => []
  | .fill _ _ d::es => taskWords d::written es
  | _::es => written es

/-- The words that dequeues returned, the latest first. They are those in the registers of the
dequeue, wherever they were copied from. -/
def returned : List (Event n m) → List (List ℕ)
  | [] => []
  | .success _ _ words::es => words::returned es
  | _::es => returned es

/-- Whether an event is in the books. These are the events that write a task, move one or return
one. -/
def isBooked : Event n m → Bool
  | .fill _ _ _ => true
  | .insert _ _ => true
  | .pop _ _ => true
  | .success _ _ _ => true
  | .publish _ _ _ => true
  | .group _ _ _ => true
  | _ => false

section Reading

variable (es : List (Event n m))

/-- The tasks in the books are those that were written and not yet returned. -/
theorem books_items : (books es).items=undelivered es := by
  induction es with
  | nil => rfl
  | cons e es ih =>
    cases e with
    | fill t p d => exact congrArg (p::·) ih
    | success t p words => exact congrArg (List.filter (·≠p)) ih
    | _ => exact ih

/-- The books have the local queues: the list of a queue is the one that its events tell. -/
theorem books_queue (c : Fin n) : (books es).place (.queue c)=queueOf c es := by
  induction es with
  | nil => rfl
  | cons e es ih =>
    cases e with
    | fill t p d => exact ih
    | success t p words => exact ih
    | publish t i nodes => exact ih
    | group t i first => exact ih
    | insert t nodes =>
      simp only [books,queueOf]
      split
      · rename_i hc
        rw [←hc] at ih ⊢
        rw [pass_second,ih]
      · rename_i hc
        rw [pass_other (fun he => by cases he) fun he => hc (Spot.queue.inj he).symm,ih]
    | pop t p =>
      simp only [books,queueOf]
      split
      · rename_i hc
        rw [←hc] at ih ⊢
        rw [pass_second,ih]
      · rename_i hc
        rw [pass_other (fun he => by cases he) fun he => hc (Spot.queue.inj he).symm,ih]
    | _ => exact ih

/-- What entered the books was written. -/
theorem books_entered : (books es).entered=written es := by
  induction es with
  | nil => rfl
  | cons e es ih =>
    cases e with
    | fill t p d => exact congrArg (taskWords d::·) ih
    | _ => exact ih

/-- What left the books was returned. -/
theorem books_left : (books es).left=returned es := by
  induction es with
  | nil => rfl
  | cons e es ih =>
    cases e with
    | success t p words => exact congrArg (words::·) ih
    | _ => exact ih

end Reading

section Entries

variable {es : List (Event n m)} {e : Option (Event n m)} {t : Thread n m} {l l' : List ℕ}

/-- Other events leave the books alone. -/
theorem books_quiet (h : e.any isBooked=false) : books (e.toList++es)=books es := by
  cases e with
  | none => rfl
  | some e => cases e <;> first | rfl | cases h

/-- What an event does with the tasks in the hands of its thread: it adds a written task, hands
tasks on, takes those of a group, or returns one. -/
inductive HeldMove (t : Thread n m) : List ℕ → Option (Event n m) → List ℕ → Prop where
  /-- Nothing. -/
  | keep {l : List ℕ} {e : Option (Event n m)} : e.any isBooked=false → HeldMove t l e l
  /-- A task is written. -/
  | fill {l : List ℕ} (p : ℕ) (d : Desc) : HeldMove t l (some (.fill t p d)) (l++[p])
  /-- All tasks go to the local queue. -/
  | insert {l : List ℕ} : HeldMove t l (some (.insert t l)) []
  /-- The first task of the local queue is taken. -/
  | pop (p : ℕ) : HeldMove t [] (some (.pop t p)) [p]
  /-- The task is returned. -/
  | success (p : ℕ) (words : List ℕ) : HeldMove t [p] (some (.success t p words)) []
  /-- All tasks are published. -/
  | publish (i : ℕ) {l : List ℕ} : HeldMove t l (some (.publish t i l)) []
  /-- A published group is taken. -/
  | group {l : List ℕ} (i first : ℕ) : HeldMove t [] (some (.group t i first)) l

/-- What an event needs, by the books before it: a written descriptor has no task, and what is
handed on or returned is where the event takes it from. -/
def Proper (es : List (Event n m)) : List ℕ → Option (Event n m) → Prop
  | _, some (.fill _ p _) => p∉undelivered es
  | _, some (.pop t p) => ∃ k, queueOf t.1 es=p::k
  | _, some (.success _ p words) => words=(books es).note p
  | _, some (.publish _ i _) => (books es).place (.group i)=[]
  | l, some (.group _ i _) => (books es).place (.group i)=l
  | _, _ => True

/-- A proper event keeps the books sound and gives its thread the listed tasks. It is the custody of
the library at the places of the queue. -/
theorem sound_step (h : Sound (books es)) (hmove : HeldMove t l e l')
    (hl : (books es).place (.thread t)=l) (hproper : Proper es l' e) :
    Sound (books (e.toList++es)) ∧ (books (e.toList++es)).place (.thread t)=l' := by
  have hspot : ∀ c : Fin n, (Spot.thread t : Spot n m)≠.queue c := fun c he => by cases he
  have hspot' : ∀ i, (Spot.thread t : Spot n m)≠.group i := fun i he => by cases he
  cases hmove with
  | keep he =>
    rw [books_quiet he]
    exact ⟨h,hl⟩
  | fill p d =>
    refine ⟨h.enter (by rw [books_items]; exact hproper),?_⟩
    rw [←hl]
    exact Function.update_self ..
  | insert =>
    refine ⟨h.pass (hspot t.1) ?_,pass_first (hspot t.1)⟩
    rw [hl]
    exact List.Perm.refl _
  | pop p =>
    obtain ⟨k,hk⟩ := hproper
    have hqueue : (books es).place (.queue t.1)=p::k := by rw [books_queue,hk]
    refine ⟨h.pass (hspot t.1) ?_,pass_first (hspot t.1)⟩
    show ([p]++((books es).place (.queue t.1)).tail).Perm _
    rw [hl,hqueue]
    exact List.Perm.refl _
  | success p words =>
    have hwords : words=(books es).note p := hproper
    refine ⟨?_,Function.update_self ..⟩
    rw [hwords]
    exact h.leave hl
  | publish i =>
    have hnone : (books es).place (.group i)=[] := hproper
    refine ⟨h.pass (hspot' i) ?_,pass_first (hspot' i)⟩
    rw [hl,hnone,List.nil_append,List.append_nil]
  | group i first =>
    have hgroup : (books es).place (.group i)=l' := hproper
    refine ⟨h.pass (hspot' i) ?_,(pass_first (hspot' i)).trans hgroup⟩
    show ((books es).place (.group i)++[]).Perm _
    rw [hl,List.nil_append,List.append_nil]

/-- The hands of the other threads stay. -/
theorem books_other {u : Thread n m} (h : ∀ e', e=some e' → actor e'≠u) :
    (books (e.toList++es)).place (.thread u)=(books es).place (.thread u) := by
  cases e with
  | none => rfl
  | some e =>
    have hu : (Spot.thread u : Spot n m)≠.thread (actor e) := fun he =>
      h e rfl (Spot.thread.inj he).symm
    cases e with
    | fill t p d => exact enter_other hu
    | success t p words => exact leave_other hu
    | insert t nodes => exact pass_other hu fun he => by cases he
    | pop t p => exact pass_other hu fun he => by cases he
    | publish t i nodes => exact pass_other hu fun he => by cases he
    | group t i first => exact pass_other hu fun he => by cases he
    | _ => rfl

/-- A group changes by its publication and its return. Between these it is in the global queue. -/
theorem books_group {i : ℕ} (hpublish : ∀ t nodes, e≠some (.publish t i nodes))
    (hgroup : ∀ t first, e≠some (.group t i first)) :
    (books (e.toList++es)).place (.group i)=(books es).place (.group i) := by
  have hspot : ∀ t, (Spot.group i : Spot n m)≠.thread t := fun t he => by cases he
  cases e with
  | none => rfl
  | some e =>
    cases e with
    | publish t j nodes =>
      refine pass_other (fun he => by cases he) fun he => ?_
      rw [Spot.group.inj he] at hpublish
      exact hpublish t nodes rfl
    | group t j first =>
      refine pass_other (fun he => by cases he) fun he => ?_
      rw [Spot.group.inj he] at hgroup
      exact hgroup t first rfl
    | fill t p d => exact enter_other (hspot t)
    | success t p words => exact leave_other (hspot t)
    | insert t nodes => exact pass_other (fun he => by cases he) fun he => by cases he
    | pop t p => exact pass_other (fun he => by cases he) fun he => by cases he
    | _ => rfl

/-- A note changes when a task is written over it. -/
theorem note_keep {p : ℕ} (h : ∀ t d, e≠some (.fill t p d)) :
    (books (e.toList++es)).note p=(books es).note p := by
  cases e with
  | none => rfl
  | some e =>
    cases e with
    | fill t q d =>
      refine Function.update_of_ne ?_ ..
      rintro rfl
      exact h t d rfl
    | _ => rfl

end Entries

/-- The tasks in the hands of a thread, by where it is. Between two events they do not change. -/
def held : Pc → List ℕ
  | .slow (.dec p _ _) => [p]
  | .slow (.relPop p _ _) => [p]
  | .par _ (.fill w k _) => (List.range k).map w.ptr
  | .seq _ (.fill idx _ k _) => (List.range k).map (seqPtr idx)
  | pc => hand pc

/-- The tasks that the books give a thread are those in its hands; while it walks a group, the
rest of the group is linked behind. -/
def Mine (word : Loc n → ℕ) (l : List ℕ) : Pc → Prop
  | .fetch _ (.walk _ passed p) =>
    ∃ rest, l=passed++p::rest ∧ Seg (nextOf word) (nextOf word p) rest 0
  | pc => l=held pc

/-- A thread in the slow path carries the words of its task. -/
def Carried (note : ℕ → List ℕ) : Pc → Prop
  | .slow (.dec p got _) => got=note p
  | .slow (.relPop p got _) => got=note p
  | _ => True

/-- The fields of a descriptor before `f` are stored. -/
def Fields (word : Loc n → ℕ) (p : ℕ) (d : Desc) (f : Field) : Prop :=
  (descWords word p).take f.index=(taskWords d).take f.index

/-- What an enqueue has stored of the task that it writes: the fields before the one it is at have
the words of the task. -/
def Stored (word : Loc n → ℕ) : Pc → Prop
  | .par args (.fill w k f) => Fields word (w.ptr k) (taskDesc args (w.current.getD k (0,0))) f
  | .seq args (.fill idx groups k f) =>
    Fields word (seqPtr idx k) (taskDesc args ((seqCurrent groups).getD k (0,0))) f
  | _ => True

/-- The first `k` tasks of a group lead to the next one. -/
def Chained (word : Loc n → ℕ) (ptr : ℕ → ℕ) (k : ℕ) : Prop :=
  Seg (nextOf word) (ptr 0) ((List.range k).map ptr) (ptr k)

/-- The slot of the tail index has the first task of a group. -/
def Slotted (word : Loc n → ℕ) (ptr : ℕ → ℕ) : Prop :=
  word (.task (word .tailIndex%groupSlots) 0)=ptr 0

/-- What an enqueue has linked of the group that it is going to publish: from the slot of the tail
its tasks follow each other up to `NULL`. -/
def Linked (word : Loc n → ℕ) : Pc → Prop
  | .par _ (.relGlobal w _) => Chained word w.ptr (w.current.length-1)
  | .par _ (.lock w) => Chained word w.ptr (w.current.length-1)
  | .par _ (.loadTail w) => Chained word w.ptr (w.current.length-1)
  | .par _ (.storeTask w τ i) => Chained word w.ptr (w.current.length-1) ∧
      τ=word .tailIndex ∧ τ<groupSlots ∧ (0 < i → Slotted word w.ptr)
  | .par _ (.storeNull w) => Chained word w.ptr (w.current.length-1) ∧ Slotted word w.ptr
  | .par _ (.incTail w) => Seg (nextOf word) (w.ptr 0) w.nodes 0 ∧ Slotted word w.ptr
  | .seq _ (.fill idx _ k _) =>
    Chained word (seqPtr idx) k ∧ (0<k → Slotted word (seqPtr idx))
  | .seq _ (.storeTask idx _ k) => Chained word (seqPtr idx) k ∧
      nextOf word (seqPtr idx k)=seqPtr idx k+1 ∧ (0<k → Slotted word (seqPtr idx))
  | .seq _ (.storeNull idx groups) =>
    Chained word (seqPtr idx) ((seqCurrent groups).length-1) ∧ Slotted word (seqPtr idx)
  | .seq _ (.incTail idx groups) =>
    Seg (nextOf word) (seqPtr idx 0) (seqNodes idx groups) 0 ∧ Slotted word (seqPtr idx)
  | _ => True

/-- The parallel enqueue is about to read the tail index. -/
def readsTail : Pc → Bool
  | .par _ (.loadTail _) => true
  | _ => false

section Hands

variable {word : Loc n → ℕ} {t : Thread n m} {sense esense : ℕ} {pc q : Pc} {w : Wr n}
  {e : Option (Event n m)} {l : List ℕ} {group : ℕ → List ℕ}

/-- The next group of a parallel enqueue starts with empty hands. -/
theorem mine_parGroup {args : Args} {u : Work} : Mine word [] (.par args (parGroup u)) := by
  unfold parGroup
  split <;> rfl

/-- The next group of a sequential enqueue starts with empty hands. -/
theorem mine_seqGroup {args : Args} {idx : ℕ} {groups : List (List (ℕ×ℕ))} :
    Mine word [] (.seq args (seqGroup idx groups)) := by
  unfold seqGroup
  split <;> rfl

/-- The end of an iteration of the barrier loop has empty hands. -/
theorem mine_barBranch {pf i τ : ℕ} {k : Bool} :
    Mine word [] (.fetch pf (barBranch (n := n) i k τ)) := by
  rcases barBranch_cases (n := n) i k τ with he|he|he
  · rw [he]; rfl
  · rw [he]; rfl
  · rw [he]; rfl

/-- A step hands tasks on by its event, and the hands after it are those of its thread. -/
def Hands (t : Thread n m) (group : ℕ → List ℕ) (word : Loc n → ℕ) (l : List ℕ)
    (e : Option (Event n m)) (q : Pc) : Prop :=
  ∃ l', HeldMove t l e l' ∧ Mine word l' q ∧ ∀ u i first, e=some (.group u i first) → group i=l'

/-- A step without an entry in the books. -/
theorem Hands.quiet (he : e.any isBooked=false) (hq : Mine word l q) :
    Hands t group word l e q :=
  ⟨l,.keep he,hq,fun u i first hg => by rw [hg] at he; cases he⟩

/-- The fast path takes a task and returns it. -/
theorem fast_mine {p : FastPc} (h : FastTrans word t p w e q) (hl : l=held (.fast p)) :
    Hands t group (applyWrite word w) l e q := by
  cases h with
  | unlink k p v =>
    subst hl
    exact ⟨_,.pop p,rfl,fun _ _ _ he => by cases he⟩
  | finish p got _ =>
    subst hl
    exact ⟨_,.success p _,rfl,fun _ _ _ he => by cases he⟩
  | _ => exact .quiet rfl hl

/-- The slow path takes a task and returns it. -/
theorem slow_mine {p : SlowPc} (h : SlowTrans word t sense p w e q) (hl : l=held (.slow p)) :
    Hands t group (applyWrite word w) l e q := by
  cases h with
  | unlink p got v =>
    subst hl
    exact ⟨_,.pop p,rfl,fun _ _ _ he => by cases he⟩
  | finish hr =>
    subst hl
    exact ⟨_,.success _ _,rfl,fun _ _ _ he => by cases he⟩
  | _ => exact .quiet rfl hl

/-- A fetch takes a published group, walks it and inserts it. What it walks is the chain from the
slot, and that is the group. -/
theorem fetch_mine {pf : ℕ} {p : FetchPc} (h : FetchTrans cfg word t sense pf p w e q)
    (hslot : ∀ i idx, p=.slot i idx → group i≠[] ∧
      Seg (nextOf word) (word (.task idx 0)) (group i) 0)
    (hl : Mine word l (.fetch pf p)) : Hands t group (applyWrite word w) l e q := by
  cases h with
  | bar hb =>
    obtain rfl : l=[] := hl
    cases hb with
    | tailCounted hk => exact .quiet rfl mine_barBranch
    | notPending hr => exact .quiet rfl mine_barBranch
    | incWc τ s => exact .quiet rfl mine_barBranch
    | _ => exact .quiet rfl rfl
  | slot i idx =>
    obtain ⟨hne,hseg⟩ := hslot i idx rfl
    obtain rfl : l=[] := hl
    refine ⟨group i,.group i _,?_,fun _ _ _ he => by cases he; rfl⟩
    cases hg : group i with
    | nil => exact absurd hg hne
    | cons p rest =>
      rw [hg] at hseg
      obtain ⟨hp,-,hrest⟩ := hseg
      exact ⟨rest,by rw [hp]; rfl,by rw [hp]; exact hrest⟩
  | last first passed p hz =>
    obtain ⟨rest,rfl,hseg⟩ := hl
    rw [show nextOf word p=0 from hz] at hseg
    rw [hseg.eq_nil]
    exact .quiet rfl rfl
  | walk first passed p hz =>
    obtain ⟨rest,rfl,hseg⟩ := hl
    obtain ⟨rest',rfl,hseg'⟩ := hseg.cons_of_ne hz
    exact .quiet rfl ⟨rest',by rw [List.append_assoc]; rfl,hseg'⟩
  | insSet first passed p =>
    obtain rfl : l=passed++[p] := hl
    exact ⟨[],.insert,rfl,fun _ _ _ he => by cases he⟩
  | _ => exact .quiet rfl hl

/-- A parallel enqueue writes tasks and inserts or publishes them. Until then they are its own. -/
theorem par_mine {args : Args} {p : ParPc} (h : ParTrans cfg word t esense args p w e q)
    (hok : WorkOk (.par args p)) (hl : l=held (.par args p)) :
    Hands t group (applyWrite word w) l e q := by
  cases h with
  | pool groups => subst hl; exact .quiet rfl mine_parGroup
  | fillNext u k hlt =>
    subst hl
    refine ⟨_,.fill _ _,?_,fun _ _ _ he => by cases he⟩
    show _=(List.range (k+1)).map u.ptr
    rw [List.range_succ,List.map_append]
    rfl
  | fillLast u k hlast =>
    subst hl
    refine ⟨_,.fill _ _,?_,fun _ _ _ he => by cases he⟩
    show _=(List.range u.current.length).map u.ptr
    have hgroup : (List.range (k+1)).map u.ptr=(List.range u.current.length).map u.ptr :=
      filling_last hok.2 hlast
    rw [←hgroup,List.range_succ,List.map_append]
    rfl
  | insSet u => subst hl; exact ⟨[],.insert,rfl,fun _ _ _ he => by cases he⟩
  | relLocalDone hr => subst hl; exact .quiet rfl mine_parGroup
  | incTail u => subst hl; exact ⟨[],.publish _,rfl,fun _ _ _ he => by cases he⟩
  | unlockEnqueue u => subst hl; exact .quiet rfl mine_parGroup
  | _ => exact .quiet rfl hl

/-- A sequential enqueue writes tasks and publishes them, one group after the other. -/
theorem seq_mine {args : Args} {p : SeqPc} (h : SeqTrans word t args p w e q)
    (hok : WorkOk (.seq args p)) (hl : l=held (.seq args p)) :
    Hands t group (applyWrite word w) l e q := by
  cases h with
  | loadTail => subst hl; exact .quiet rfl mine_seqGroup
  | fillNext idx groups k =>
    subst hl
    refine ⟨_,.fill _ _,?_,fun _ _ _ he => by cases he⟩
    show _=(List.range (k+1)).map (seqPtr idx)
    rw [List.range_succ,List.map_append]
    rfl
  | storeLast idx groups k hlast =>
    refine .quiet rfl ?_
    show l=(List.range (seqCurrent groups).length).map (seqPtr idx)
    have hgroup : (List.range (k+1)).map (seqPtr idx)=
      (List.range (seqCurrent groups).length).map (seqPtr idx) := filling_last hok.2 hlast
    rw [←hgroup]
    exact hl
  | incTail idx groups =>
    subst hl
    exact ⟨[],.publish _,mine_seqGroup,fun _ _ _ he => by cases he⟩
  | unlock => exact .quiet rfl hl
  | _ => exact .quiet rfl hl

/-- Every step hands tasks on by its event. -/
theorem trans_mine (h : Trans cfg word t sense esense pc w e q) (hok : WorkOk pc)
    (hslot : ∀ pf i idx, pc=.fetch pf (.slot i idx) → group i≠[] ∧
      Seg (nextOf word) (word (.task idx 0)) (group i) 0)
    (hl : Mine word l pc) : Hands t group (applyWrite word w) l e q := by
  cases h with
  | fast h => exact fast_mine h hl
  | slow h => exact slow_mine h hl
  | fetch h => exact fetch_mine h (fun i idx hp => hslot _ i idx (by rw [hp])) hl
  | par h => exact par_mine h hok hl
  | seq h => exact seq_mine h hok hl
  | _ => exact .quiet rfl hl

/-- What a thread has in its hands, whatever it does. -/
theorem Mine.held_subset (h : Mine word l pc) {p : ℕ} (hp : p∈held pc) : p∈l := by
  by_cases hwalk : ∃ pf first passed r, pc=.fetch pf (.walk first passed r)
  · obtain ⟨pf,first,passed,r,rfl⟩ := hwalk
    obtain ⟨rest,rfl,-⟩ := h
    rcases List.mem_append.1 hp with hp|hp
    · exact List.mem_append_left _ hp
    · rw [List.mem_singleton.1 hp]
      exact List.mem_append_right _ List.mem_cons_self
  · unfold Mine at h
    split at h
    · exact absurd ⟨_,_,_,_,rfl⟩ hwalk
    · rw [h]
      exact hp

end Hands

section Stores

variable {word word' : Loc n → ℕ} {t : Thread n m} {sense esense : ℕ} {pc q : Pc} {w : Wr n}
  {e : Option (Event n m)} {p v : ℕ} {f f' : Field} {d : Desc}

/-- A thread stores into descriptors that it has drawn, or links a task in its hands. -/
theorem trans_store (h : Trans cfg word t sense esense pc (some (.desc p f,v)) e q)
    (hok : WorkOk pc) : p∈reserved pc ∨ (f=.next ∧ p∈held pc) := by
  cases h.writes with
  | fetchLink pf first passed => exact .inr ⟨rfl,List.mem_append_right _ List.mem_cons_self⟩
  | parFill args u k f q => exact .inl (mem_drop_range hok.2 _)
  | parLink args u => exact .inr ⟨rfl,last_mem_range hok.2⟩
  | parNull args u => exact .inr ⟨rfl,last_mem_range hok.2⟩
  | seqFill args idx groups k f q => exact .inl (mem_drop_range hok.2 _)
  | seqNull args idx groups => exact .inr ⟨rfl,last_mem_range hok.2⟩

/-- Task pointers are stored into the slots ahead, those that the enqueue was checked for at the
load of the tail index. -/
theorem trans_task {x i : ℕ} (h : Trans cfg word t sense esense pc (some (.task x i,v)) e q)
    (hok : WorkOk pc) (hseq : SeqOk word pc) : x∈slotsAhead pc := by
  cases h.writes with
  | parTask args u τ i =>
    show (if i=0 then _ else _)∈if i=0 then _ else _
    split
    · exact List.mem_cons_self
    · exact List.mem_cons_self
  | seqTask args idx groups k =>
    have hne : seqCurrent groups≠[] := fun he => by
      have := hok.2
      rw [he] at this
      exact Nat.not_lt_zero k this
    have hk : k < 8 := by
      have hlt := hok.2
      have hlen : (seqCurrent groups).length≤8 := by
        cases groups with
        | nil => exact absurd rfl hne
        | cons g gs => exact hseq.short g List.mem_cons_self
      omega
    have hslot : (idx+k)%globalTqSize/8=idx/8 := by
      rw [hseq.index]
      exact slot_task hk
    rw [hslot]
    exact slot_mem_seqSlots hne

/-- The store of a field: the fields before it stay, and it is stored now itself. -/
theorem Fields.store (h : Fields word p d f) (hf : fieldAfter f=some f') :
    Fields (applyWrite word (some (.desc p f,fieldValue d p f))) p d f' := by
  unfold Fields descWords taskWords at h ⊢
  have hother : ∀ f'', f''≠f →
      applyWrite word (some (.desc p f,fieldValue d p f)) (.desc p f'')=word (.desc p f'') :=
    fun f'' hne => applyWrite_keep fun v he => by
      cases he
      exact hne rfl
  cases f with
  | next => cases hf
  | v1 =>
    cases hf
    simp only [Field.index,List.take_succ_cons,List.take_zero,applyWrite_self]
    rfl
  | v2 =>
    cases hf
    simp only [Field.index,List.take_succ_cons,List.take_zero,List.cons.injEq] at h ⊢
    rw [hother .v1 (by decide),applyWrite_self]
    exact ⟨h.1,rfl,trivial⟩
  | v3 =>
    cases hf
    simp only [Field.index,List.take_succ_cons,List.take_zero,List.cons.injEq] at h ⊢
    rw [hother .v1 (by decide),hother .v2 (by decide),applyWrite_self]
    exact ⟨h.1,h.2.1,rfl,trivial⟩
  | v4 =>
    cases hf
    simp only [Field.index,List.take_succ_cons,List.take_zero,List.cons.injEq] at h ⊢
    rw [hother .v1 (by decide),hother .v2 (by decide),hother .v3 (by decide),applyWrite_self]
    exact ⟨h.1,h.2.1,h.2.2.1,rfl,trivial⟩

/-- The words of a task depend on the fields before `next`. -/
theorem descWords_congr (h : ∀ f, f≠.next → word' (.desc p f)=word (.desc p f)) :
    descWords word' p=descWords word p := by
  unfold descWords
  rw [h .v1 (by decide),h .v2 (by decide),h .v3 (by decide),h .v4 (by decide)]

/-- The stored fields depend on the words of the descriptor. -/
theorem Fields.congr (h : Fields word p d f)
    (hdesc : ∀ f', f'≠.next → word' (.desc p f')=word (.desc p f')) : Fields word' p d f := by
  unfold Fields at h ⊢
  rw [descWords_congr hdesc]
  exact h

/-- What is stored of a task depends on the descriptors that its enqueue has drawn. -/
theorem stored_congr (hok : WorkOk pc)
    (hdesc : ∀ r∈reserved pc, ∀ f, f≠.next → word' (.desc r f)=word (.desc r f))
    (h : Stored word pc) : Stored word' pc := by
  cases pc with
  | par args p =>
    cases p with
    | fill u k f => exact Fields.congr h (hdesc _ (mem_drop_range hok.2 _))
    | _ => trivial
  | seq args p =>
    cases p with
    | fill idx groups k f => exact Fields.congr h (hdesc _ (mem_drop_range hok.2 _))
    | _ => trivial
  | _ => trivial

/-- The next group of a parallel enqueue starts with its first field. -/
theorem stored_parGroup {args : Args} {u : Work} : Stored word (.par args (parGroup u)) := by
  unfold parGroup
  split
  · trivial
  · rfl

/-- The next group of a sequential enqueue starts with its first field. -/
theorem stored_seqGroup {args : Args} {idx : ℕ} {groups : List (List (ℕ×ℕ))} :
    Stored word (.seq args (seqGroup idx groups)) := by
  unfold seqGroup
  split
  · trivial
  · rfl

/-- Every step keeps what its enqueue has stored. The fields of the tasks at hand are stored in the
order of the source. -/
theorem trans_stored (h : Trans cfg word t sense esense pc w e q) (hs : Stored word pc) :
    Stored (applyWrite word w) q := by
  cases h with
  | fast h => cases h <;> trivial
  | slow h => cases h <;> trivial
  | fetch h => cases h <;> trivial
  | par h =>
    cases h with
    | pool groups => exact stored_parGroup
    | fill u k f f' hf => exact Fields.store hs hf
    | fillNext u k hlt => exact (rfl : List.take 0 _=List.take 0 _)
    | relLocalDone hr => exact stored_parGroup
    | unlockEnqueue u => exact stored_parGroup
    | _ => trivial
  | seq h =>
    cases h with
    | loadTail => exact stored_seqGroup
    | fill idx groups k f f' hf => exact Fields.store hs hf
    | storeTask idx groups k hlt => exact (rfl : List.take 0 _=List.take 0 _)
    | incTail idx groups => exact stored_seqGroup
    | _ => trivial
  | _ => trivial

/-- A completed task has the words of its descriptor. All of its fields are stored by then. -/
theorem trans_fill {u : Thread n m} (h : Trans cfg word t sense esense pc w (some (.fill u p d)) q)
    (hs : Stored word pc) : descWords (applyWrite word w) p=taskWords d := by
  have hkeep : ∀ {r v : ℕ}, descWords (applyWrite word (some (.desc r .next,v))) p=
      descWords word p := fun {r v} => descWords_congr fun f hf => applyWrite_keep fun v he => by
    cases he
    exact hf rfl
  cases h with
  | fast h => cases h
  | slow h => cases h
  | fetch h =>
    cases h with
    | bar hb => cases hb
  | par h =>
    cases h with
    | fillNext u k hlt => exact hkeep.trans hs
    | fillLast u k hlast => exact hkeep.trans hs
  | seq h =>
    cases h with
    | fillNext idx groups k => exact hkeep.trans hs

/-- A descriptor is completed by the enqueue that has drawn it. -/
theorem filled_of_fill {u : Thread n m} : p∈filled (some (.fill u p d) : Option (Event n m)) :=
  List.mem_cons_self

end Stores

section Links

variable {word word' : Loc n → ℕ} {t : Thread n m} {sense esense : ℕ} {pc q : Pc} {w : Wr n}
  {e : Option (Event n m)} {ptr : ℕ → ℕ} {k l : ℕ}

/-- A chain of tasks depends on their successors. -/
theorem Chained.congr (h : Chained word ptr k)
    (hn : ∀ p∈(List.range k).map ptr, nextOf word' p=nextOf word p) : Chained word' ptr k :=
  Seg.congr h hn

/-- A store elsewhere than into a `next` word keeps the chains. -/
theorem nextOf_keep (hw : ∀ p v, w≠some (.desc p .next,v)) (p : ℕ) :
    nextOf (applyWrite word w) p=nextOf word p := applyWrite_keep (hw p)

/-- The slot of the tail index depends on two words. -/
theorem Slotted.keep (h : Slotted word ptr) (htail : ∀ v, w≠some (.tailIndex,v))
    (htask : ∀ x v, w≠some (.task x 0,v)) : Slotted (applyWrite word w) ptr := by
  unfold Slotted at h ⊢
  rw [applyWrite_keep htail,applyWrite_keep (htask _)]
  exact h

/-- The slot of the tail index gets the first task of a group. -/
theorem slotted_self {x : ℕ} (hx : x=word .tailIndex%groupSlots) :
    Slotted (applyWrite word (some (.task x 0,ptr 0))) ptr := by
  have htail : applyWrite word (some (.task x 0,ptr 0)) .tailIndex=word .tailIndex :=
    applyWrite_keep fun v he => by cases he
  unfold Slotted
  rw [htail,←hx]
  exact applyWrite_self

/-- Tasks of one group of a sequential enqueue are distinct. -/
theorem seqPtr_notMem {idx τ : ℕ} (hidx : idx=8*τ%globalTqSize) (hk : k < 8) :
    seqPtr idx k∉(List.range k).map (seqPtr idx) := by
  intro h
  obtain ⟨j,hj,he⟩ := List.mem_map.1 h
  have hj := List.mem_range.1 hj
  rw [hidx,seqPtr_index,seqPtr_index] at he
  have := (index_inj (j := 0) (Nat.two_pow_pos 15) (by omega) hk (Nat.succ.inj he)).2
  omega

/-- The descriptors of one group of a sequential enqueue are consecutive. -/
theorem seqPtr_succ {idx τ : ℕ} (hidx : idx=8*τ%globalTqSize) (hk : k+1 < 8) :
    seqPtr idx (k+1)=seqPtr idx k+1 := by
  subst hidx
  unfold seqPtr globalTqSize
  omega

/-- The current group of a sequential enqueue is short. -/
theorem seqCurrent_le {idx : ℕ} {groups : List (List (ℕ×ℕ))} (h : SeqWork word idx groups) :
    (seqCurrent groups).length≤8 := by
  cases groups with
  | nil => exact Nat.zero_le 8
  | cons g gs => exact h.short g List.mem_cons_self

/-- The `NULL` after the last task closes the list of the group. -/
theorem Chained.close (h : Chained word ptr (l-1)) (hl : 0 < l) (hpos : ptr (l-1)≠0)
    (hnot : ptr (l-1)∉(List.range (l-1)).map ptr) :
    Seg (nextOf (applyWrite word (some (.desc (ptr (l-1)) .next,0)))) (ptr 0)
      ((List.range l).map ptr) 0 := by
  have hsplit : (List.range l).map ptr=(List.range (l-1)).map ptr++[ptr (l-1)] := by
    rw [show l=l-1+1 by omega,List.range_succ,List.map_append,Nat.add_sub_cancel]
    rfl
  rw [hsplit]
  refine Seg.snoc (seg_next hnot h) hpos ?_
  unfold nextOf
  exact applyWrite_self

/-- The store of a task pointer of a sequential enqueue keeps or sets the slot of its group. -/
theorem seq_slotted {idx : ℕ} (hidx : idx=8*word .tailIndex%globalTqSize) (hk : k < 8)
    (h : 0 < k → Slotted word (seqPtr idx)) :
    Slotted (applyWrite word (some (.task ((idx+k)%globalTqSize/8) ((idx+k)%8),seqPtr idx k)))
      (seqPtr idx) := by
  have hpart : (idx+k)%8=k := by
    unfold globalTqSize at hidx
    omega
  rw [hpart]
  rcases Nat.eq_zero_or_pos k with rfl|hpos
  · have hslot : (idx+0)%globalTqSize/8=word .tailIndex%groupSlots := by
      rw [←slot_index,←hidx]
      unfold globalTqSize at hidx ⊢
      omega
    exact slotted_self hslot
  · exact (h hpos).keep (fun v he => by cases he) fun x v he => by
      cases he
      exact absurd hpos (Nat.lt_irrefl 0)

/-- The next group of a parallel enqueue has no links yet. -/
theorem linked_parGroup {args : Args} {u : Work} : Linked word (.par args (parGroup u)) := by
  unfold parGroup
  split <;> trivial

/-- The next group of a sequential enqueue has no links yet. -/
theorem linked_seqGroup {args : Args} {idx : ℕ} {groups : List (List (ℕ×ℕ))} :
    Linked word (.seq args (seqGroup idx groups)) := by
  unfold seqGroup
  split
  · trivial
  · exact ⟨rfl,fun h => absurd h (Nat.lt_irrefl 0)⟩

/-- The links of a group depend on its tasks and, with the enqueue lock held, on the slots. So the
writes of other threads do not break them. -/
theorem linked_congr (hdesc : ∀ p∈held pc, nextOf word' p=nextOf word p)
    (hlock : holdsEnqueue pc=true → word' .tailIndex=word .tailIndex ∧
      ∀ x, word' (.task x 0)=word (.task x 0)) (h : Linked word pc) : Linked word' pc := by
  have hrange : ∀ {ptr : ℕ → ℕ} {k l : ℕ}, k≤l → (∀ p∈(List.range l).map ptr, p∈held pc) →
      Chained word ptr k → Chained word' ptr k := fun hkl hl h => h.congr fun p hp => by
    obtain ⟨j,hj,rfl⟩ := List.mem_map.1 hp
    have hj := List.mem_range.1 hj
    exact hdesc _ (hl _ (List.mem_map_of_mem (List.mem_range.2 (by omega))))
  have hslot : ∀ {ptr : ℕ → ℕ}, holdsEnqueue pc=true → Slotted word ptr → Slotted word' ptr := by
    intro ptr hheld h
    unfold Slotted at h ⊢
    rw [(hlock hheld).1,(hlock hheld).2]
    exact h
  cases pc with
  | par args p =>
    cases p with
    | relGlobal u r => exact hrange (Nat.sub_le _ _) (fun _ hp => hp) h
    | lock u => exact hrange (Nat.sub_le _ _) (fun _ hp => hp) h
    | loadTail u => exact hrange (Nat.sub_le _ _) (fun _ hp => hp) h
    | storeTask u τ i =>
      exact ⟨hrange (Nat.sub_le _ _) (fun _ hp => hp) h.1,by rw [(hlock rfl).1]; exact h.2.1,
        h.2.2.1,fun hi => hslot rfl (h.2.2.2 hi)⟩
    | storeNull u => exact ⟨hrange (Nat.sub_le _ _) (fun _ hp => hp) h.1,hslot rfl h.2⟩
    | incTail u => exact ⟨h.1.congr hdesc,hslot rfl h.2⟩
    | _ => trivial
  | seq args p =>
    cases p with
    | fill idx groups k f =>
      exact ⟨hrange (Nat.le_refl k) (fun _ hp => hp) h.1,fun hk => hslot rfl (h.2 hk)⟩
    | storeTask idx groups k =>
      refine ⟨hrange (Nat.le_succ k) (fun _ hp => hp) h.1,?_,fun hk => hslot rfl (h.2.2 hk)⟩
      rw [hdesc _ (List.mem_map_of_mem (List.mem_range.2 (Nat.lt_succ_self k)))]
      exact h.2.1
    | storeNull idx groups =>
      exact ⟨hrange (Nat.sub_le _ _) (fun _ hp => hp) h.1,hslot rfl h.2⟩
    | incTail idx groups => exact ⟨h.1.congr hdesc,hslot rfl h.2⟩
    | _ => trivial
  | _ => trivial

/-- A step that stores into no `next` word, slot or tail index keeps the links. -/
theorem linked_quiet (hdesc : ∀ p v, w≠some (.desc p .next,v)) (htail : ∀ v, w≠some (.tailIndex,v))
    (htask : ∀ x v, w≠some (.task x 0,v)) (h : Linked word q) : Linked (applyWrite word w) q :=
  linked_congr (fun p _ => nextOf_keep hdesc p)
    (fun _ => ⟨applyWrite_keep htail,fun x => applyWrite_keep (htask x)⟩) h

/-- Every step of a parallel enqueue keeps what is linked of its group. The slot of the group is
below the end of the index, so its stores go to no descriptor. -/
theorem par_linked {args : Args} {p : ParPc} (h : ParTrans cfg word t esense args p w e q)
    (hl : Linked word (.par args p)) (hok : WorkOk (.par args p))
    (hhand : HandOk word t.1 (.par args p))
    (htail : readsTail (.par args p)=true → word .tailIndex<groupSlots) :
    Linked (applyWrite word w) q := by
  have hslot : ∀ {u : Work} {τ i : ℕ}, τ=word .tailIndex → τ<groupSlots →
      (0 < i → Slotted word u.ptr) →
      Slotted (applyWrite word (some (.task (if i=0 then τ%2^27 else 0) i,u.ptr i))) u.ptr := by
    intro u τ i hτ hlt h
    by_cases hi : i=0
    · subst hi
      have hslot : τ%2^27=word .tailIndex%groupSlots := by
        unfold groupSlots at hlt ⊢
        omega
      exact slotted_self hslot
    · exact (h (by omega)).keep (fun v he => by cases he) fun x v he => by
        cases he
        exact hi rfl
  have hchain : ∀ {u : Work} {τ i v : ℕ}, Chained word u.ptr (u.current.length-1) →
      Chained (applyWrite word (some (.task τ i,v))) u.ptr (u.current.length-1) :=
    fun h => h.congr fun r _ => nextOf_keep (fun _ _ he => by cases he) r
  cases h with
  | pool groups => exact linked_parGroup
  | insertGlobal u hz hl => exact hhand
  | relGlobal hr =>
    exact linked_congr (fun p _ => nextOf_keep (fun _ _ he => by rw [he] at hr; cases hr.write) p)
      (fun h => by cases h) hl
  | relGlobalDone hr =>
    exact linked_congr (fun p _ => nextOf_keep (fun _ _ he => by rw [he] at hr; cases hr.write) p)
      (fun h => by cases h) hl
  | lock u hfree =>
    exact linked_quiet (fun _ _ he => by cases he) (fun _ he => by cases he)
      (fun _ _ he => by cases he) hl
  | spin u htaken =>
    exact linked_quiet (fun _ _ he => by cases he) (fun _ he => by cases he)
      (fun _ _ he => by cases he) hl
  | loadTail u => exact ⟨hl,rfl,htail rfl,fun h => absurd h (Nat.lt_irrefl 0)⟩
  | storeTask u τ i hlt =>
    obtain ⟨hc,hτ,hsmall,hs⟩ := hl
    exact ⟨hchain hc,hτ.trans (applyWrite_keep fun _ he => by cases he).symm,hsmall,
      fun _ => hslot hτ hsmall hs⟩
  | storeLast u τ i hlast =>
    obtain ⟨hc,hτ,hsmall,hs⟩ := hl
    exact ⟨hchain hc,hslot hτ hsmall hs⟩
  | storeNull u =>
    obtain ⟨hc,hs⟩ := hl
    exact ⟨hc.close (List.length_pos_iff.2 hok.2) (Nat.succ_ne_zero _) (ptr_notMem u _),
      hs.keep (fun _ he => by cases he) fun _ _ he => by cases he⟩
  | relLocalDone hr => exact linked_parGroup
  | unlockEnqueue u => exact linked_parGroup
  | _ => trivial

/-- Every step of a sequential enqueue keeps what is linked of its group, task by task up to the
null of the last one. -/
theorem seq_linked {args : Args} {p : SeqPc} (h : SeqTrans word t args p w e q)
    (hl : Linked word (.seq args p)) (hok : WorkOk (.seq args p))
    (hseq : SeqOk word (.seq args p)) : Linked (applyWrite word w) q := by
  cases h with
  | loadTail => exact linked_seqGroup
  | fill idx groups k f f' hf =>
    have hne : f≠.next := fun he => by rw [he] at hf; cases hf
    exact linked_quiet (q := .seq args (.fill idx groups k f'))
      (fun _ _ he => by cases he; exact hne rfl) (fun _ he => by cases he)
      (fun _ _ he => by cases he) hl
  | fillNext idx groups k =>
    obtain ⟨hc,hs⟩ := hl
    have hk : k < 8 := lt_of_lt_of_le hok.2 (seqCurrent_le hseq)
    refine ⟨seg_next (seqPtr_notMem hseq.index hk) hc,?_,fun hk => ?_⟩
    · unfold nextOf
      exact applyWrite_self
    · exact (hs hk).keep (fun _ he => by cases he) fun _ _ he => by cases he
  | storeTask idx groups k hlt =>
    obtain ⟨hc,hnext,hs⟩ := hl
    have hk : k+1 < 8 := lt_of_lt_of_le hlt (seqCurrent_le hseq)
    refine ⟨?_,fun _ => seq_slotted hseq.index (by omega) hs⟩
    have hsucc : nextOf word (seqPtr idx k)=seqPtr idx (k+1) := by
      rw [hnext,seqPtr_succ hseq.index hk]
    have hchain : Chained word (seqPtr idx) (k+1) := by
      unfold Chained
      rw [List.range_succ,List.map_append]
      exact hc.snoc (Nat.succ_ne_zero _) hsucc
    exact hchain.congr fun r _ => nextOf_keep (fun _ _ he => by cases he) r
  | storeLast idx groups k hlast =>
    obtain ⟨hc,-,hs⟩ := hl
    have hk : (seqCurrent groups).length-1=k := by
      have := hok.2
      omega
    refine ⟨?_,seq_slotted hseq.index (lt_of_lt_of_le hok.2 (seqCurrent_le hseq)) hs⟩
    rw [hk]
    exact hc.congr fun r _ => nextOf_keep (fun _ _ he => by cases he) r
  | storeNull idx groups =>
    obtain ⟨hc,hs⟩ := hl
    have hpos := List.length_pos_iff.2 hok.2
    have hle := seqCurrent_le hseq
    exact ⟨hc.close hpos (Nat.succ_ne_zero _) (seqPtr_notMem hseq.index (by omega)),
      hs.keep (fun _ he => by cases he) fun _ _ he => by cases he⟩
  | incTail idx groups => exact linked_seqGroup
  | _ => trivial

/-- Every step keeps what its enqueue has linked. -/
theorem trans_linked (h : Trans cfg word t sense esense pc w e q) (hl : Linked word pc)
    (hok : WorkOk pc) (hhand : HandOk word t.1 pc) (hseq : SeqOk word pc)
    (htail : readsTail pc=true → word .tailIndex<groupSlots) : Linked (applyWrite word w) q := by
  cases h with
  | fast h => cases h <;> trivial
  | slow h => cases h <;> trivial
  | fetch h => cases h <;> trivial
  | par h => exact par_linked h hl hok hhand htail
  | seq h => exact seq_linked h hl hok hseq
  | _ => trivial

/-- A published group is linked from the slot of its index: a fetch of this index finds its tasks
and no others. -/
theorem trans_published {u : Thread n m} {i : ℕ} {nodes : List ℕ}
    (h : Trans cfg word t sense esense pc w (some (.publish u i nodes)) q) (hl : Linked word pc)
    (hok : WorkOk pc) : nodes≠[] ∧
      Seg (nextOf (applyWrite word w)) (applyWrite word w (.task (i%groupSlots) 0)) nodes 0 := by
  have hkeep : ∀ {v r : ℕ}, nextOf (applyWrite word (some (.tailIndex,v))) r=nextOf word r :=
    nextOf_keep (fun _ _ he => by cases he) _
  have hslot : ∀ {v x : ℕ}, applyWrite word (some (.tailIndex,v)) (.task x 0)=word (.task x 0) :=
    applyWrite_keep fun _ he => by cases he
  cases h with
  | fast h => cases h
  | slow h => cases h
  | fetch h =>
    cases h with
    | bar hb => cases hb
  | par h =>
    cases h with
    | incTail u =>
      obtain ⟨hc,hs⟩ := hl
      have hmem : u.ptr (u.current.length-1)∈u.nodes := last_mem_range hok.2
      refine ⟨List.ne_nil_of_mem hmem,?_⟩
      rw [hslot,show word (.task (word .tailIndex%groupSlots) 0)=u.ptr 0 from hs]
      exact hc.congr fun r _ => hkeep
  | seq h =>
    cases h with
    | incTail idx groups =>
      obtain ⟨hc,hs⟩ := hl
      have hmem : seqPtr idx ((seqCurrent groups).length-1)∈seqNodes idx groups :=
        last_mem_range hok.2
      refine ⟨List.ne_nil_of_mem hmem,?_⟩
      rw [hslot,show word (.task (word .tailIndex%groupSlots) 0)=seqPtr idx 0 from hs]
      exact hc.congr fun r _ => hkeep

end Links

/-- Every turn finds what the way of a task needs: the barrier's conditions, room for what is
drawn, and a tail index below the end of the index array when a parallel enqueue publishes. -/
structure Delivers (cfg : Config) (s : QState n m) (turn : QTurn n m) : Prop where
  /-- Clusters are found waiting on empty queues, and enqueues are apart. -/
  waits : WaitsEmpty cfg s turn
  /-- There is room. -/
  room : Room s turn
  /-- The slot that a parallel enqueue stores into is in the array. -/
  slot : readsTail (s.pc turn.thread).pc=true → s.word .tailIndex<groupSlots

instance (cfg : Config) (s : QState n m) (turn : QTurn n m) : Decidable (Delivers cfg s turn) :=
  decidable_of_iff (WaitsEmpty cfg s turn ∧ Room s turn ∧
      (readsTail (s.pc turn.thread).pc=true → s.word .tailIndex<groupSlots))
    ⟨fun h => ⟨h.1,h.2.1,h.2.2⟩,fun h => ⟨h.waits,h.room,h.slot⟩⟩

/-- Every turn finds what the way of a task needs, whenever enqueues are called: the tests of the
barrier are true of the present state, and the rest is as in `Delivers`. -/
structure Supplied (cfg : Config) (s : QState n m) (turn : QTurn n m) : Prop where
  /-- The barrier is decided on empty queues and on the present tail. -/
  barrier : BarrierOk cfg s turn
  /-- There is room. -/
  room : Room s turn
  /-- The slot that a parallel enqueue stores into is in the array. -/
  slot : readsTail (s.pc turn.thread).pc=true → s.word .tailIndex<groupSlots

instance (cfg : Config) (s : QState n m) (turn : QTurn n m) : Decidable (Supplied cfg s turn) :=
  decidable_of_iff ((findsTasks s turn=false ∧ findsStale s turn=false ∧
      ((event cfg s turn).any isPublish=true → s.word .tailIndex+1+globalTqSize<wordSize)) ∧
      Room s turn ∧ (readsTail (s.pc turn.thread).pc=true → s.word .tailIndex<groupSlots))
    ⟨fun h => ⟨⟨h.1.1,h.1.2.1,h.1.2.2⟩,h.2.1,h.2.2⟩,
      fun h => ⟨⟨h.barrier.empty,h.barrier.current,h.barrier.room⟩,h.room,h.slot⟩⟩

/-- A published group that was not returned is linked from its slot; the others have no tasks. This
is what a fetch finds. -/
structure GroupOk (s : QState n m) (i : ℕ) : Prop where
  /-- The tasks of a group on its way. -/
  live : i < s.word .tailIndex → returns s i=0 → (books s.trace).place (.group i)≠[] ∧
    Seg (nextOf s.word) (s.word (.task (i%groupSlots) 0)) ((books s.trace).place (.group i)) 0 ∧
    ∀ p∈(books s.trace).place (.group i), p∈slotTasks (i%groupSlots) s.trace
  /-- No other group has tasks. -/
  gone : (i < s.word .tailIndex → returns s i≠0) → (books s.trace).place (.group i)=[]

/-- The books are sound, and memory and registers agree with them: what is on its way has its words
in its descriptor or in the registers of its dequeue. -/
structure DeliveryInv (s : QState n m) : Prop where
  /-- Every task is at one place. -/
  sound : Sound (books s.trace)
  /-- The tasks of a thread are in its hands. -/
  mine : ∀ t, Mine s.word ((books s.trace).place (.thread t)) (s.pc t).pc
  /-- A descriptor has the words of its task. -/
  words : ∀ p∈undelivered s.trace, descWords s.word p=(books s.trace).note p
  /-- So have the registers of the slow path. -/
  carried : ∀ t, Carried (books s.trace).note (s.pc t).pc
  /-- What the enqueues have stored. -/
  stored : ∀ t, Stored s.word (s.pc t).pc
  /-- What the enqueues have linked. -/
  linked : ∀ t, Linked s.word (s.pc t).pc
  /-- The published groups. -/
  groups : ∀ i, GroupOk s i

/-- What holds in every state in which every task is on its way: the barrier, the lists, the room
and the books together. -/
structure QueueInv (s : QState n m) : Prop where
  /-- Both levels of the barrier. -/
  barrier : BarrierInv s
  /-- Publications count the tail index up. -/
  tail : TailInv s
  /-- The room of the enqueues. -/
  room : RoomInv s
  /-- The local queues. -/
  lists : ListInv s
  /-- The books. -/
  delivery : DeliveryInv s

section Places

variable {s : QState n m} {turn : QTurn n m}

/-- A thread that is at a slot has a ticket for a group on its way. -/
theorem slot_live (h : BarrierInv s) (gtq : GtqInv s) {t : Thread n m} {pf i idx : ℕ}
    (hpc : (s.pc t).pc=.fetch pf (.slot i idx)) :
    i < s.word .tailIndex ∧ idx=i%groupSlots ∧ returns s i=0 := by
  have hlead : lead s t.1=some (.slot i idx) := lead_eq gtq (by rw [hpc]; rfl)
  have hlo := h.between.leads t.1
  simp only [gview,hlead] at hlo
  obtain ⟨hp,-,hlt,hidx⟩ := hlo
  refine ⟨hlt,hidx,?_⟩
  by_contra hne
  obtain ⟨issued,ht,-⟩ := h.between.tickets
  refine (ht.spent i hne).2.2.2 t.1 ((held_eq hp).trans ?_)
  rw [hlead]
  rfl

/-- What a thread holds while it works is its own or drawn by it. The second part is not written
yet. -/
theorem held_of_hand {pc : Pc} {p : ℕ} (hok : WorkOk pc) (hp : p∈hand pc) :
    p∈held pc ∨ p∈reserved pc := by
  have hfill : ∀ {ptr : ℕ → ℕ} {k : ℕ} {f : Field} {l : List ℕ}, ptr k∈l → p∈filling ptr k f →
      p∈(List.range k).map ptr ∨ p∈l := by
    intro ptr k f l hmem hp
    have hsplit : p∈(List.range k).map ptr ∨ p=ptr k := by
      cases f with
      | v1 => exact .inl hp
      | _ =>
        have hp : p∈(List.range (k+1)).map ptr := hp
        rw [filling_succ] at hp
        exact (List.mem_append.1 hp).imp_right List.mem_singleton.1
    rcases hsplit with hp|rfl
    · exact .inl hp
    · exact .inr hmem
  cases pc with
  | par args p' =>
    cases p' with
    | fill u k f => exact hfill (mem_drop_range hok.2 _) hp
    | _ => exact .inl hp
  | seq args p' =>
    cases p' with
    | fill idx groups k f => exact hfill (mem_drop_range hok.2 _) hp
    | _ => exact .inl hp
  | slow p' => cases p' <;> cases hp
  | _ => exact .inl hp

/-- A queued or held descriptor is in the books, or drawn by the thread that holds it. -/
theorem QueueInv.booked (h : QueueInv s) {p : ℕ} :
    (∀ c, p∈place s (.inl c) → p∈(books s.trace).place (.queue c)) ∧
    ∀ t, p∈place s (.inr t) → p∈(books s.trace).place (.thread t) ∨ p∈reserved (s.pc t).pc := by
  refine ⟨fun c hp => by rw [books_queue]; exact hp,fun t hp => ?_⟩
  rcases held_of_hand (h.lists.work t) hp with hp|hp
  · exact .inl ((h.delivery.mine t).held_subset hp)
  · exact .inr hp

/-- A task in the books is written and not yet returned. -/
theorem DeliveryInv.listed (h : DeliveryInv s) {p : ℕ} {x : Spot n m}
    (hp : p∈(books s.trace).place x) : p∈undelivered s.trace := by
  rw [←books_items]
  exact h.sound.listed hp

/-- A task in the books was drawn by nobody. -/
theorem QueueInv.not_drawn (h : QueueInv s) {p : ℕ} {x : Spot n m}
    (hp : p∈(books s.trace).place x) (t : Thread n m) : p∉reserved (s.pc t).pc :=
  fun hr => h.room.drawn.free t p hr (h.delivery.listed hp)

/-- A task of a published group is in no queue and in no hands. -/
theorem QueueInv.unplaced (h : QueueInv s) {p i : ℕ} (hp : p∈(books s.trace).place (.group i))
    (y : Fin n ⊕ Thread n m) : p∉place s y := by
  intro hy
  cases y with
  | inl c => cases h.delivery.sound.owned.apart _ _ p hp (h.booked.1 c hy)
  | inr t =>
    rcases h.booked.2 t hy with hy|hy
    · cases h.delivery.sound.owned.apart _ _ p hp hy
    · exact h.not_drawn hp t hy

/-- The descriptor that a thread takes is a free one. So room for what is drawn is enough for the
discipline that the lists need. -/
theorem QueueInv.disciplined (h : QueueInv s) (gtq : GtqInv s) : Disciplined s turn := by
  intro p hp
  have hmine := h.delivery.mine turn.thread
  have hwork := h.lists.work turn.thread
  -- a descriptor that is drawn is in no place
  have hdrawn : p∈reserved (s.pc turn.thread).pc → p∉hand (s.pc turn.thread).pc →
      ∀ x, p∉place s x := by
    intro hr hhand x hx
    cases x with
    | inl c => exact h.not_drawn (h.booked.1 c hx) _ hr
    | inr t =>
      by_cases ht : t=turn.thread
      · rw [ht] at hx
        exact hhand hx
      · rcases h.booked.2 t hx with hx|hx
        · exact h.not_drawn hx _ hr
        · exact ht (h.room.drawn.owned.apart t turn.thread p hx hr)
  have hfree := h.room.drawn.free turn.thread
  have hmineList : ∀ r, r∈held (s.pc turn.thread).pc → r∈undelivered s.trace :=
    fun r hr => h.delivery.listed (hmine.held_subset hr)
  cases hpc : (s.pc turn.thread).pc with
  | par args p' =>
    rw [hpc] at hp hdrawn hwork hfree hmineList
    cases p' with
    | fill u k f =>
      cases f with
      | v1 =>
        cases hp
        have hr : u.ptr k∈reserved (.par args (.fill u k .v1)) := mem_drop_range hwork.2 _
        exact ⟨Nat.succ_ne_zero _,hdrawn hr fun hh => hfree _ hr (hmineList _ hh)⟩
      | _ => cases hp
    | _ => cases hp
  | seq args p' =>
    rw [hpc] at hp hdrawn hwork hfree hmineList
    cases p' with
    | fill idx groups k f =>
      cases f with
      | v1 =>
        cases hp
        have hr : seqPtr idx k∈reserved (.seq args (.fill idx groups k .v1)) :=
          mem_drop_range hwork.2 _
        exact ⟨Nat.succ_ne_zero _,hdrawn hr fun hh => hfree _ hr (hmineList _ hh)⟩
      | _ => cases hp
    | _ => cases hp
  | fetch pf p' =>
    rw [hpc] at hp
    cases p' with
    | slot i idx =>
      cases hp
      obtain ⟨hlt,hidx,hzero⟩ := slot_live h.barrier gtq hpc
      obtain ⟨hne,hseg,-⟩ := (h.delivery.groups i).live hlt hzero
      rw [hidx]
      cases hg : (books s.trace).place (.group i) with
      | nil => exact absurd hg hne
      | cons r rest =>
        rw [hg] at hseg
        obtain ⟨he,h0,-⟩ := hseg
        have hmem : r∈(books s.trace).place (.group i) := by
          rw [hg]
          exact List.mem_cons_self
        rw [he]
        exact ⟨h0,h.unplaced hmem⟩
    | walk first passed r =>
      rw [hpc] at hmine
      obtain ⟨rest,hl,hseg⟩ := hmine
      rw [takes_walk] at hp
      split at hp
      · cases hp
      · rename_i hz
        cases hp
        obtain ⟨rest',rfl,-⟩ := hseg.cons_of_ne hz
        have hmem : nextOf s.word r∈(books s.trace).place (.thread turn.thread) := by
          rw [hl]
          exact List.mem_append_right _ (List.mem_cons_of_mem _ List.mem_cons_self)
        refine ⟨hz,fun y hy => ?_⟩
        cases y with
        | inl c =>
          cases h.delivery.sound.owned.apart _ _ _ hmem (h.booked.1 c hy)
        | inr t =>
          rcases h.booked.2 t hy with hy'|hy'
          · -- the rest of the group is not yet in the hands
            have ht : turn.thread=t :=
              Spot.thread.inj (h.delivery.sound.owned.apart _ _ _ hmem hy')
            rw [←ht] at hy
            have hhand : nextOf s.word r∈passed++[r] := by
              have hy : nextOf s.word r∈hand (s.pc turn.thread).pc := hy
              rw [hpc] at hy
              exact hy
            have hnodup := h.delivery.sound.owned.nodup (.thread turn.thread)
            rw [hl,show passed++r::nextOf s.word r::rest'=
              (passed++[r])++nextOf s.word r::rest' by rw [List.append_assoc]; rfl] at hnodup
            exact (List.nodup_append.1 hnodup).2.2 _ hhand _ List.mem_cons_self rfl
          · exact h.not_drawn hmem t hy'
    | _ => cases hp
  | _ =>
    rw [hpc] at hp
    cases hp

end Places

section Frame

variable {s : QState n m} {turn : QTurn n m} {p : ℕ} {f : Field}

/-- A turn stores into drawn descriptors, or links a task in the hands of its thread. -/
theorem QueueInv.store (h : QueueInv s) (fresh : LinkFresh reserve s) {v : ℕ}
    (hw : wrote cfg s turn=some (.desc p f,v)) : p∈reserved (s.pc turn.thread).pc ∨
      (f=.next ∧ p∈(books s.trace).place (.thread turn.thread)) := by
  have ht := trans_step cfg s turn fresh
  rw [hw] at ht
  exact (trans_store ht (h.lists.work _)).imp_right fun ⟨hf,hp⟩ =>
    ⟨hf,(h.delivery.mine _).held_subset hp⟩

/-- Tasks that are not in the hands of the moving thread keep their descriptors. -/
theorem QueueInv.desc_elsewhere (h : QueueInv s) (fresh : LinkFresh reserve s) {x : Spot n m}
    (hp : p∈(books s.trace).place x) (hx : x≠.thread turn.thread) :
    (step (program n m cfg) s turn).word (.desc p f)=s.word (.desc p f) := by
  rw [word_step]
  refine applyWrite_keep fun v hw => ?_
  rcases h.store fresh hw with hr|⟨-,hm⟩
  · exact h.not_drawn hp _ hr
  · exact hx (h.delivery.sound.owned.apart _ _ _ hp hm)

/-- Tasks on their way keep their words. -/
theorem QueueInv.words_keep (h : QueueInv s) (fresh : LinkFresh reserve s)
    (hp : p∈undelivered s.trace) :
    descWords (step (program n m cfg) s turn).word p=descWords s.word p := by
  refine descWords_congr fun f hf => ?_
  rw [word_step]
  refine applyWrite_keep fun v hw => ?_
  rcases h.store fresh hw with hr|⟨he,-⟩
  · exact h.room.drawn.free _ p hr hp
  · exact hf he

/-- Descriptors that other threads have drawn keep their words. -/
theorem QueueInv.drawn_keep (h : QueueInv s) (fresh : LinkFresh reserve s) {u : Thread n m}
    (hu : u≠turn.thread) (hp : p∈reserved (s.pc u).pc) (hf : f≠.next) :
    (step (program n m cfg) s turn).word (.desc p f)=s.word (.desc p f) := by
  rw [word_step]
  refine applyWrite_keep fun v hw => ?_
  rcases h.store fresh hw with hr|⟨he,-⟩
  · exact hu (h.room.drawn.owned.apart _ _ p hp hr)
  · exact hf he

/-- Slots of tasks on their way keep their pointers. -/
theorem QueueInv.task_keep (h : QueueInv s) (fresh : LinkFresh reserve s) {x i : ℕ}
    (hx : slotTasks x s.trace≠[]) :
    (step (program n m cfg) s turn).word (.task x i)=s.word (.task x i) := by
  rw [word_step]
  refine applyWrite_keep fun v hw => hx ?_
  have ht := trans_step cfg s turn fresh
  rw [hw] at ht
  exact (h.room.slots _ x (trans_task ht (h.lists.work _) (h.room.index _))).2

/-- Tail index and slots stay while another thread holds the enqueue lock. -/
theorem QueueInv.locked_keep (h : QueueInv s) (fresh : LinkFresh reserve s) {u : Thread n m}
    (hu : u≠turn.thread) (hheld : holdsEnqueue (s.pc u).pc=true) :
    (step (program n m cfg) s turn).word .tailIndex=s.word .tailIndex ∧
      ∀ x, (step (program n m cfg) s turn).word (.task x 0)=s.word (.task x 0) := by
  have ht := trans_step cfg s turn fresh
  refine ⟨?_,fun x => ?_⟩
  · rw [word_step]
    refine applyWrite_keep fun v hw => hu ?_
    rw [hw] at ht
    exact h.room.lock.unique _ _ hheld (holdsEnqueue_of_tail ht)
  · rw [word_step]
    refine applyWrite_keep fun v hw => hu ?_
    rw [hw] at ht
    exact h.room.lock.unique _ _ hheld
      (holdsEnqueue_of_slots (trans_task ht (h.lists.work _) (h.room.index _)))

end Frame

section Passing

variable {word : Loc n → ℕ} {t : Thread n m} {sense esense : ℕ} {pc q : Pc} {w : Wr n}
  {e : Option (Event n m)} {note : ℕ → List ℕ}

/-- A task is returned with the words of its note, which were written when it was enqueued. -/
theorem trans_success {u : Thread n m} {p : ℕ} {words : List ℕ}
    (h : Trans cfg word t sense esense pc w (some (.success u p words)) q)
    (hhand : HandOk word t.1 pc) (hc : Carried note pc)
    (hwords : ∀ r∈held pc, descWords word r=note r) : words=note p := by
  cases h with
  | fast h =>
    cases h with
    | finish p got hlt =>
      rw [copy_last hhand.1 hlt hhand.2]
      exact hwords p List.mem_cons_self
  | slow h =>
    cases h with
    | finish hr => exact hc
  | fetch h =>
    cases h with
    | bar hb => cases hb
  | par h => cases h
  | seq h => cases h

/-- The slow path carries the words of the task that it unlinks. -/
theorem trans_carried (h : Trans cfg word t sense esense pc w e q) (hhand : HandOk word t.1 pc)
    (hc : Carried note pc)
    (hfront : ∀ p got v, pc=.slow (.setHead p got v) → descWords word p=note p)
    {note' : ℕ → List ℕ} (hnote : ∀ p, (∀ u d, e≠some (.fill u p d)) → note' p=note p) :
    Carried note' q := by
  cases h with
  | fast h => cases h <;> trivial
  | slow h =>
    cases h with
    | unlink p got v =>
      show got=note' p
      exact hhand.2.2.1.trans ((hfront p got v rfl).trans (hnote p fun _ _ he => by cases he).symm)
    | dec hu => exact Eq.trans hc (hnote _ fun _ _ he => by cases he).symm
    | decDone hu => exact Eq.trans hc (hnote _ fun _ _ he => by cases he).symm
    | relPop hr => exact Eq.trans hc (hnote _ fun _ _ he => by cases he).symm
    | _ => trivial
  | fetch h => cases h <;> trivial
  | par h => cases h <;> trivial
  | seq h => cases h <;> trivial
  | _ => trivial

/-- The words that a thread carries are those of a task in its hands. -/
theorem carried_congr {note' : ℕ → List ℕ} (hc : Carried note pc)
    (hnote : ∀ p∈held pc, note' p=note p) : Carried note' pc := by
  cases pc with
  | slow p =>
    cases p with
    | dec p got u => exact Eq.trans hc (hnote p List.mem_cons_self).symm
    | relPop p got r => exact Eq.trans hc (hnote p List.mem_cons_self).symm
    | _ => trivial
  | _ => trivial

/-- The rest of a group that a thread walks depends on the links of its tasks. -/
theorem mine_congr {word' : Loc n → ℕ} {l : List ℕ} (h : Mine word l pc)
    (hn : ∀ p∈l, nextOf word' p=nextOf word p) : Mine word' l pc := by
  cases pc with
  | fetch pf p =>
    cases p with
    | walk first passed p =>
      obtain ⟨rest,rfl,hseg⟩ := h
      refine ⟨rest,rfl,?_⟩
      rw [hn p (List.mem_append_right _ List.mem_cons_self)]
      exact hseg.congr fun r hr =>
        hn r (List.mem_append_right _ (List.mem_cons_of_mem _ hr))
    | _ => exact h
  | _ => exact h

/-- A task stays at its slot until it is returned. -/
theorem slotTasks_keep {es : List (Event n m)} {x p : ℕ} (h : p∈slotTasks x es)
    (hs : ∀ u words, e≠some (.success u p words)) : p∈slotTasks x (e.toList++es) := by
  cases e with
  | none => exact h
  | some e =>
    cases e with
    | publish u i nodes =>
      show p∈if i%groupSlots=x then nodes++slotTasks x es else slotTasks x es
      split
      · exact List.mem_append_right _ h
      · exact h
    | success u r words =>
      refine List.mem_filter.2 ⟨h,decide_eq_true ?_⟩
      rintro rfl
      exact hs u words rfl
    | _ => exact h

/-- Only a thread that has the task in its hands returns it. -/
theorem HeldMove.of_success {l l' : List ℕ} {u : Thread n m} {p : ℕ} {words : List ℕ}
    (h : HeldMove t l e l') (he : e=some (.success u p words)) : l=[p] := by
  cases h with
  | keep hq => rw [he] at hq; cases hq
  | success p words => cases he; rfl
  | _ => cases he

end Passing

section Step

variable {s : QState n m} {turn : QTurn n m}

variable (cfg turn) in
/-- The moving thread hands its tasks on by the event of the turn. -/
theorem QueueInv.hands (h : QueueInv s) (fresh : LinkFresh reserve s) (gtq : GtqInv s) :
    Hands turn.thread (fun i => (books s.trace).place (.group i))
      (step (program n m cfg) s turn).word ((books s.trace).place (.thread turn.thread))
      (event cfg s turn) ((step (program n m cfg) s turn).pc turn.thread).pc := by
  rw [word_step]
  refine trans_mine (trans_step cfg s turn fresh) (h.lists.work _) ?_ (h.delivery.mine _)
  intro pf i idx hpc
  obtain ⟨hlt,rfl,hzero⟩ := slot_live h.barrier gtq hpc
  obtain ⟨hne,hseg,-⟩ := (h.delivery.groups i).live hlt hzero
  exact ⟨hne,hseg⟩

/-- The words in the hands of a thread are those of the notes. -/
theorem QueueInv.held_words (h : QueueInv s) (t : Thread n m) :
    ∀ r∈held (s.pc t).pc, descWords s.word r=(books s.trace).note r := fun r hr =>
  h.delivery.words r (h.delivery.listed ((h.delivery.mine t).held_subset hr))

/-- The event of a turn is proper. This connects the steps of the code to the books, which know
nothing of memory. -/
theorem QueueInv.proper (h : QueueInv s) (fresh : LinkFresh reserve s) (hroom : Room s turn)
    {l : List ℕ} (hgroup : ∀ u i first, event cfg s turn=some (.group u i first) →
      (books s.trace).place (.group i)=l) : Proper s.trace l (event cfg s turn) := by
  have ht := trans_step cfg s turn fresh
  cases he : event cfg s turn with
  | none => trivial
  | some e =>
    rw [he] at ht
    cases e with
    | fill u p d =>
      have hmem : p∈reserved (s.pc turn.thread).pc++draws s.word (s.pc turn.thread).pc := by
        rw [trans_reserved ht (h.lists.work _)]
        exact List.mem_append_left _ filled_of_fill
      show p∉undelivered s.trace
      rcases List.mem_append.1 hmem with hp|hp
      · exact h.room.drawn.free _ p hp
      · exact (hroom.descs p hp).2.1
    | pop u p =>
      obtain rfl : u=turn.thread := event_actor he
      exact ⟨_,(queue_pop h.lists fresh he).1⟩
    | success u p words =>
      exact trans_success ht (h.lists.hands _) (h.delivery.carried _) (h.held_words _)
    | publish u i nodes =>
      obtain ⟨rfl,-⟩ := trans_publish ht
      exact (h.delivery.groups _).gone fun hlt => absurd hlt (Nat.lt_irrefl _)
    | group u i first => exact hgroup u i first he
    | _ => trivial

/-- A group that neither was published nor returned by the turn stays on its way. -/
theorem QueueInv.group_keep (h : QueueInv s) (fresh : LinkFresh reserve s) (gtq : GtqInv s) {i : ℕ}
    (hplace : (books (step (program n m cfg) s turn).trace).place (.group i)=
      (books s.trace).place (.group i)) (hlt : i < s.word .tailIndex) (hzero : returns s i=0) :
    (books (step (program n m cfg) s turn).trace).place (.group i)≠[] ∧
    Seg (nextOf (step (program n m cfg) s turn).word)
      ((step (program n m cfg) s turn).word (.task (i%groupSlots) 0))
      ((books (step (program n m cfg) s turn).trace).place (.group i)) 0 ∧
    ∀ p∈(books (step (program n m cfg) s turn).trace).place (.group i),
      p∈slotTasks (i%groupSlots) (step (program n m cfg) s turn).trace := by
  obtain ⟨hne,hseg,hslot⟩ := (h.delivery.groups i).live hlt hzero
  obtain ⟨l',hmove,-,-⟩ := h.hands cfg turn fresh gtq
  rw [hplace]
  refine ⟨hne,?_,fun p hp => ?_⟩
  · obtain ⟨p,hp⟩ := List.exists_mem_of_ne_nil _ hne
    rw [h.task_keep fresh (List.ne_nil_of_mem (hslot p hp))]
    exact hseg.congr fun r hr => h.desc_elsewhere fresh hr fun he => by cases he
  · rw [trace_step]
    refine slotTasks_keep (hslot p hp) fun u words he => ?_
    have hmine := hmove.of_success he
    cases h.delivery.sound.owned.apart (.group i) (.thread turn.thread) p hp
      (by rw [hmine]; exact List.mem_cons_self)

/-- A turn keeps what is known of the groups: stores go to drawn descriptors and free slots, and so
not to a group on its way. -/
theorem QueueInv.groups_step (h : QueueInv s) (fresh : LinkFresh reserve s) (gtq : GtqInv s)
    (htail : (event cfg s turn).any isPublish=true → s.word .tailIndex+1+globalTqSize<wordSize)
    (i : ℕ) : GroupOk (step (program n m cfg) s turn) i := by
  have ht := trans_step cfg s turn fresh
  have hreturns : returns (step (program n m cfg) s turn) i=
      returns s i+shown (event cfg s turn) (isGroup i) := countP_step ..
  have hquiet : (∀ u j nodes, event cfg s turn≠some (.publish u j nodes)) →
      (step (program n m cfg) s turn).word .tailIndex=s.word .tailIndex := by
    intro hno
    rw [word_step]
    refine applyWrite_keep fun v hw => ?_
    rw [hw] at ht
    obtain ⟨nodes,he⟩ := trans_tail ht
    exact hno _ _ _ he
  by_cases hpub : ∃ u j nodes, event cfg s turn=some (.publish u j nodes)
  · obtain ⟨u,j,nodes,he⟩ := hpub
    rw [he] at ht
    obtain ⟨rfl,hw⟩ := trans_publish ht
    have hroom := htail (by rw [he]; rfl)
    have hnext : (step (program n m cfg) s turn).word .tailIndex=s.word .tailIndex+1 := by
      rw [word_step,hw,applyWrite_self,Nat.mod_eq_of_lt (by omega)]
    have hsame : returns (step (program n m cfg) s turn) i=returns s i := by
      rw [hreturns,he]
      rfl
    by_cases hi : i=s.word .tailIndex
    · subst hi
      obtain ⟨hne,hseg⟩ := trans_published ht (h.delivery.linked _) (h.lists.work _)
      have hnodes : (books (step (program n m cfg) s turn).trace).place
          (.group (s.word .tailIndex))=nodes := by
        rw [trace_step,he]
        exact pass_second
      refine ⟨fun _ _ => ?_,fun hgone => ?_⟩
      · rw [hnodes]
        refine ⟨hne,by rw [word_step]; exact hseg,fun p hp => ?_⟩
        rw [trace_step,he]
        show p∈if _ then nodes++_ else _
        rw [if_pos rfl]
        exact List.mem_append_left _ hp
      · -- the index of the tail was not returned yet
        have hlt := (returns_le_one h.barrier (s.word .tailIndex)).2
          (by rw [←hsame]; exact hgone (by omega))
        omega
    · have hplace : (books (step (program n m cfg) s turn).trace).place (.group i)=
          (books s.trace).place (.group i) := by
        rw [trace_step,he]
        exact books_group (e := some _) (fun u' nodes' h' => by cases h'; exact hi rfl)
          fun u' first h' => by cases h'
      refine ⟨fun hlt hzero => ?_,fun hgone => ?_⟩
      · exact h.group_keep fresh gtq hplace (by omega) (by omega)
      · rw [hplace]
        exact (h.delivery.groups i).gone fun hlt => by
          rw [←hsame]
          exact hgone (by omega)
  · have hpub' : ∀ u j nodes, event cfg s turn≠some (.publish u j nodes) :=
      fun u j nodes he => hpub ⟨u,j,nodes,he⟩
    have hword := hquiet hpub'
    by_cases hgroup : ∃ u first, event cfg s turn=some (.group u i first)
    · obtain ⟨u,first,he⟩ := hgroup
      have hone : returns (step (program n m cfg) s turn) i≠0 := by
        rw [hreturns,he]
        simp [isGroup]
      refine ⟨fun _ hzero => absurd hzero hone,fun _ => ?_⟩
      rw [trace_step,he]
      exact pass_second
    · have hplace : (books (step (program n m cfg) s turn).trace).place (.group i)=
          (books s.trace).place (.group i) := by
        rw [trace_step]
        exact books_group (fun u nodes => hpub' u i nodes) fun u first he => hgroup ⟨u,first,he⟩
      have hsame : returns (step (program n m cfg) s turn) i=returns s i := by
        rw [hreturns]
        refine Nat.add_eq_left.2 ?_
        cases he : event cfg s turn with
        | none => rfl
        | some e =>
          cases e with
          | group u j first =>
            have hj : j≠i := fun hj => hgroup ⟨u,first,by rw [he,hj]⟩
            simp [isGroup,hj]
          | _ => rfl
      refine ⟨fun hlt hzero => ?_,fun hgone => ?_⟩
      · exact h.group_keep fresh gtq hplace (by rw [←hword]; exact hlt)
          (by rw [←hsame]; exact hzero)
      · rw [hplace]
        exact (h.delivery.groups i).gone fun hlt => by
          rw [←hsame]
          exact hgone (by rw [hword]; exact hlt)

end Step

section Run

variable {s : QState n m} {turn : QTurn n m}

variable (cfg) in
/-- The books stay sound. -/
theorem QueueInv.sound_step (h : QueueInv s) (fresh : LinkFresh reserve s) (gtq : GtqInv s)
    (hroom : Room s turn) : Sound (books (step (program n m cfg) s turn).trace) ∧
      Mine (step (program n m cfg) s turn).word
        ((books (step (program n m cfg) s turn).trace).place (.thread turn.thread))
        ((step (program n m cfg) s turn).pc turn.thread).pc := by
  obtain ⟨l',hmove,hmine,hgroup⟩ := h.hands cfg turn fresh gtq
  obtain ⟨hsound,hplace⟩ := TaskQueueDelivery.sound_step h.delivery.sound hmove rfl
    (h.proper fresh hroom hgroup)
  rw [trace_step]
  exact ⟨hsound,by rw [hplace]; exact hmine⟩

/-- A note of a task on its way stays. -/
theorem QueueInv.note_keep (h : QueueInv s) (fresh : LinkFresh reserve s) (hroom : Room s turn)
    {p : ℕ} (hp : p∈undelivered s.trace) :
    (books (step (program n m cfg) s turn).trace).note p=(books s.trace).note p := by
  rw [trace_step]
  refine TaskQueueDelivery.note_keep fun u d he => ?_
  have hfresh : Proper s.trace [] (event cfg s turn) := by
    rw [he]
    have ht := trans_step cfg s turn fresh
    rw [he] at ht
    have hmem : p∈reserved (s.pc turn.thread).pc++draws s.word (s.pc turn.thread).pc := by
      rw [trans_reserved ht (h.lists.work _)]
      exact List.mem_append_left _ filled_of_fill
    rcases List.mem_append.1 hmem with hr|hr
    · exact h.room.drawn.free _ p hr
    · exact (hroom.descs p hr).2.1
  rw [he] at hfresh
  exact hfresh hp

/-- A turn keeps memory and registers in agreement with the books: descriptors have the words of
their notes, and slots link their groups. -/
theorem QueueInv.delivery_step (h : QueueInv s) (fresh : LinkFresh reserve s) (gtq : GtqInv s)
    (ok : Supplied cfg s turn) : DeliveryInv (step (program n m cfg) s turn) := by
  have ht := trans_step cfg s turn fresh
  obtain ⟨hsound,hmine⟩ := h.sound_step cfg fresh gtq ok.room
  have hother : ∀ u, u≠turn.thread →
      (books (step (program n m cfg) s turn).trace).place (.thread u)=
        (books s.trace).place (.thread u) := by
    intro u hu
    rw [trace_step]
    exact books_other fun e he hact => hu (by rw [←hact]; exact event_actor he)
  have hlinks : ∀ u, u≠turn.thread → ∀ p∈(books s.trace).place (.thread u),
      nextOf (step (program n m cfg) s turn).word p=nextOf s.word p := fun u hu p hp =>
    h.desc_elsewhere fresh hp fun he => hu (Spot.thread.inj he)
  refine ⟨hsound,fun u => ?_,fun p hp => ?_,fun u => ?_,fun u => ?_,fun u => ?_,
    h.groups_step fresh gtq ok.barrier.room⟩
  · by_cases hu : u=turn.thread
    · rw [hu]
      exact hmine
    · rw [pc_other cfg s turn hu,hother u hu]
      exact mine_congr (h.delivery.mine u) (hlinks u hu)
  · rw [trace_step] at hp
    by_cases hfill : ∃ u d, event cfg s turn=some (.fill u p d)
    · obtain ⟨u,d,he⟩ := hfill
      rw [he] at ht
      rw [word_step,trans_fill ht (h.delivery.stored _),trace_step,he]
      exact enter_note.symm
    · have hold : p∈undelivered s.trace := by
        rcases mem_undelivered hp with hf|hold
        · cases he : event cfg s turn with
          | none =>
            rw [he] at hf
            cases hf
          | some e =>
            rw [he] at hf
            cases e with
            | fill u r d =>
              rw [List.mem_singleton.1 hf] at hfill
              exact absurd ⟨u,d,he⟩ hfill
            | _ => cases hf
        · exact hold
      rw [h.words_keep fresh hold,h.note_keep fresh ok.room hold]
      exact h.delivery.words p hold
  · by_cases hu : u=turn.thread
    · rw [hu,trace_step]
      refine trans_carried ht (h.lists.hands _) (h.delivery.carried _) (fun p got v hpc => ?_)
        fun p he => TaskQueueDelivery.note_keep he
      -- the task in front of the queue is on its way
      refine h.delivery.words p (h.delivery.listed (x := .queue turn.thread.1) ?_)
      have hhand := h.lists.hands turn.thread
      rw [hpc] at hhand
      obtain ⟨hhead,h0,-⟩ := hhand
      obtain ⟨k,hk,-⟩ := (h.lists.chain turn.thread.1).cons_of_ne (by rw [hhead]; exact h0)
      rw [books_queue,show queueOf turn.thread.1 s.trace=_ from hk,hhead]
      exact List.mem_cons_self
    · rw [pc_other cfg s turn hu]
      refine carried_congr (h.delivery.carried u) fun p hp => h.note_keep fresh ok.room ?_
      exact h.delivery.listed ((h.delivery.mine u).held_subset hp)
  · by_cases hu : u=turn.thread
    · rw [hu,word_step]
      exact trans_stored ht (h.delivery.stored _)
    · rw [pc_other cfg s turn hu]
      exact stored_congr (h.lists.work u) (fun r hr f hf => h.drawn_keep fresh hu hr hf)
        (h.delivery.stored u)
  · by_cases hu : u=turn.thread
    · rw [hu,word_step]
      exact trans_linked ht (h.delivery.linked _) (h.lists.work _) (h.lists.hands _)
        (h.room.index _) ok.slot
    · rw [pc_other cfg s turn hu]
      exact linked_congr (fun p hp => hlinks u hu p ((h.delivery.mine u).held_subset hp))
        (fun hheld => h.locked_keep fresh hu hheld) (h.delivery.linked u)

/-- Nothing is on its way before the first call. -/
theorem queueInv_initial : QueueInv (initial n m) where
  barrier := prefetchInv_initial.barrier
  tail := prefetchInv_initial.tail
  room := roomInv_initial
  lists := listInv_initial
  delivery :=
    { sound := sound_empty
      mine _ := rfl
      words _ hp := by cases hp
      carried _ := trivial
      stored _ := trivial
      linked _ := trivial
      groups _ := ⟨fun hlt => absurd hlt (Nat.not_lt_zero _),fun _ => rfl⟩ }

/-- Every task is on its way in every state of a run whose turns find what it needs. -/
theorem queueInv_reachable (hn : n<globalTqSize) (hm : m<wordSize)
    (hs : Reachable (program n m cfg) (initial n m) (Supplied cfg) s) : QueueInv s := by
  refine Reachable.invariant queueInv_initial ?_ hs
  intro s turn hs ok h
  have fresh := linkFresh_reachable hs
  have gtq := gtqInv_reachable hs
  have ltq := ltqInv_reachable hm hs
  exact ⟨barrierInv_step hm hn fresh gtq ltq ok.barrier h.barrier,tailInv_step fresh ok.barrier.room
    h.tail,roomInv_step fresh ok.room h.room,listInv_step h.lists fresh ltq (h.disciplined gtq),
    h.delivery_step fresh gtq ok⟩

/-- Where enqueues are apart, the test of the waiting counter is about the present tail. -/
theorem supplied_of_delivers (hn : n<globalTqSize) (hm : m<wordSize)
    (hs : Reachable (program n m cfg) (initial n m) (Delivers cfg) s) :
    PrefetchInv s ∧ Reachable (program n m cfg) (initial n m) (Supplied cfg) s := by
  induction hs with
  | init => exact ⟨prefetchInv_initial,.init⟩
  | move turn hs ok ih =>
    obtain ⟨h,hsupplied⟩ := ih
    have gtq := gtqInv_reachable hs
    exact ⟨prefetchInv_step hn hm (linkFresh_reachable hs) gtq (ltqInv_reachable hm hs) h ok.waits,
      .move turn hsupplied ⟨⟨ok.waits.empty,h.last.findsStale h.barrier gtq,ok.waits.room⟩,ok.room,
        ok.slot⟩⟩

/-- A thread with no task in its hands and none to return has none in the books. -/
theorem mine_idle {word : Loc n → ℕ} {l : List ℕ} {pc : Pc} (h : Mine word l pc)
    (hin : inDequeue pc=true) (hhand : hand pc=[]) (hnone : delivering pc=none) : l=[] := by
  cases pc with
  | slow p =>
    cases p with
    | dec p got u => cases hnone
    | relPop p got r => cases hnone
    | _ => exact h
  | fetch pf p =>
    cases p with
    | walk first passed p => exact absurd hhand (List.append_ne_nil_of_right_ne_nil _ (by simp))
    | _ => exact h.trans hhand
  | fast p => exact h.trans hhand
  | _ => cases hin

/-- When the barrier is decided, no task is on its way. -/
theorem QueueInv.settled (h : QueueInv s) (fresh : LinkFresh reserve s) (gtq : GtqInv s)
    {t : Thread n m} (he : event cfg s turn=some (.decide t)) (x : Spot n m) :
    (books s.trace).place x=[] := by
  obtain ⟨hreturned,hempty,-⟩ := decide_safe h.barrier fresh gtq he
  obtain ⟨-,hall⟩ := all_counted h.barrier fresh gtq he
  cases x with
  | queue c =>
    have hseg := h.lists.chain c
    rw [hempty c] at hseg
    rw [books_queue]
    exact hseg.eq_nil
  | thread u =>
    obtain ⟨hwait,-⟩ := (calm_of_counted_fetch h.barrier (hall u.1).2).2 u.2
    obtain ⟨hin,hhand,hnone⟩ := idle_of_waiting hwait
    exact mine_idle (h.delivery.mine u) hin hhand hnone
  | group i => exact (h.delivery.groups i).gone fun hlt => by rw [hreturned i hlt]; decide

/-- A thread that decides the barrier finds all written tasks returned. -/
theorem QueueInv.all_returned (h : QueueInv s) (fresh : LinkFresh reserve s) (gtq : GtqInv s)
    {t : Thread n m} (he : event cfg s turn=some (.decide t)) :
    (written s.trace).Perm (returned s.trace) := by
  have hledger := h.delivery.sound.settled (h.settled fresh gtq he)
  rwa [books_entered,books_left] at hledger

/-- Whenever a barrier was decided, all tasks written before were returned before. It speaks of
every moment of the past, and so also of barriers that some threads have not left yet. -/
def SettledBarriers (es : List (Event n m)) : Prop :=
  ∀ t before, Event.decide t::before <:+ es → (written before).Perm (returned before)

/-- An event keeps the barriers settled if it decides none or all written tasks are returned. -/
theorem SettledBarriers.append {es : List (Event n m)} {e : Option (Event n m)}
    (h : SettledBarriers es)
    (hdecide : ∀ t, e=some (.decide t) → (written es).Perm (returned es)) :
    SettledBarriers (e.toList++es) := by
  cases e with
  | none => exact h
  | some e =>
    intro t before hsuffix
    rcases List.suffix_cons_iff.1 hsuffix with heq|hold
    · obtain ⟨rfl,rfl⟩ := List.cons.inj heq
      exact hdecide t rfl
    · exact h t before hold

/-- All barriers of a run whose turns find what the way of a task needs are settled. -/
theorem settledBarriers_reachable (hn : n<globalTqSize) (hm : m<wordSize)
    (hs : Reachable (program n m cfg) (initial n m) (Supplied cfg) s) :
    SettledBarriers s.trace := by
  refine Reachable.invariant (I := fun s => SettledBarriers s.trace) ?_ ?_ hs
  · intro t before hsuffix
    cases List.suffix_nil.1 hsuffix
  · intro s turn hs ok h
    have hq := queueInv_reachable hn hm hs
    rw [trace_step]
    exact h.append fun t he => hq.all_returned (linkFresh_reachable hs) (gtqInv_reachable hs) he

/-- The time of event number `k` of a kind. -/
theorem exists_event {E : Type} {kind : E → Bool} {es : List E} {k : ℕ}
    (h : k < es.countP kind) :
    ∃ e before, e::before <:+ es ∧ kind e=true ∧ before.countP kind=k := by
  induction es with
  | nil => exact absurd h (Nat.not_lt_zero k)
  | cons e es ih =>
    by_cases hlt : k < es.countP kind
    · obtain ⟨e',before,hsuffix,hkind,hcount⟩ := ih hlt
      exact ⟨e',before,hsuffix.trans (List.suffix_cons e es),hkind,hcount⟩
    · rw [List.countP_cons] at h
      have hkind : kind e=true := by
        by_contra hno
        rw [if_neg hno] at h
        exact hlt h
      rw [if_pos hkind] at h
      exact ⟨e,es,List.suffix_rfl,hkind,by omega⟩

/-- Any number of groups per fetch, in every run whose turns find what the way of a task needs.
When a dequeue returns `TQ_RET_SYNC`, the barrier that it passes was decided, all tasks that
enqueues had written until then were returned, each as often as it was written, and every other
thread waits for this barrier or has left it. When a barrier is decided, exactly the written
tasks and the published groups were returned, no descriptor belongs to a task, every local queue
is empty and has given back what was inserted into it, and every thread waits in its dequeue
with no task in its hands and has returned every task that it unlinked: no task crosses into
the next phase. -/
theorem barrier_any_prefetch (hn : n<2^18) (hm : m<2^32)
    (hs : Reachable (program n m cfg) (initial n m) (Delivers cfg) s) (turn : QTurn n m) :
    (∀ t, event cfg s turn=some (.sync t) →
      (∃ u before, Event.decide u::before <:+ s.trace ∧ before.countP isDecide=syncs s t ∧
        (written before).Perm (returned before)) ∧
      ∀ u, (inDequeue (s.pc u).pc=true ∧ syncs s u=syncs s t) ∨ syncs s t < syncs s u) ∧
    ∀ t, event cfg s turn=some (.decide t) →
      (written s.trace).Perm (returned s.trace) ∧ undelivered s.trace=[] ∧
      (∀ i, returns s i=published s i) ∧ (∀ c, s.word (.taskqueueHead c)=0) ∧
      (∀ c p, (insertedOf c s.trace).count p=(poppedOf c s.trace).count p) ∧
      ∀ u, inDequeue (s.pc u).pc=true ∧ hand (s.pc u).pc=[] ∧
        poppedBy u s.trace=deliveredBy u s.trace := by
  have hsupplied := (supplied_of_delivers hn hm hs).2
  have h := queueInv_reachable hn hm hsupplied
  have barrier := h.barrier
  have fresh := linkFresh_reachable hs
  have gtq := gtqInv_reachable hs
  refine ⟨fun t he => ?_,fun t he => ?_⟩
  · obtain ⟨hdecided,hothers⟩ := sync_safe barrier fresh gtq (ltqInv_reachable hm hs) he
    refine ⟨?_,hothers⟩
    obtain ⟨e,before,hsuffix,hkind,hcount⟩ := exists_event hdecided
    cases e with
    | decide u =>
      exact ⟨u,before,hsuffix,hcount,settledBarriers_reachable hn hm hsupplied u before hsuffix⟩
    | _ => cases hkind
  · obtain ⟨hreturned,hempty,-⟩ := decide_safe barrier fresh gtq he
    obtain ⟨-,hall⟩ := all_counted barrier fresh gtq he
    refine ⟨h.all_returned fresh gtq he,?_,returns_eq_published barrier h.tail hreturned,
      hempty,fun c p => ?_,fun u => ?_⟩
    · rw [←books_items]
      exact h.delivery.sound.no_items (h.settled fresh gtq he)
    · have hseg := h.lists.chain c
      rw [hempty c] at hseg
      rw [h.lists.ledger c p,hseg.eq_nil,List.count_nil,Nat.zero_add]
    · obtain ⟨hwait,-⟩ := (calm_of_counted_fetch barrier (hall u.1).2).2 u.2
      obtain ⟨hin,hhand,hnone⟩ := idle_of_waiting hwait
      have hpop := poppedBy_reachable hs u
      rw [hnone] at hpop
      exact ⟨hin,hhand,hpop⟩

end Run

/-- Of two threads of a cluster the first enqueues a task, fetches its group into the local
queue and asks for a second group, so that it blocks in the barrier; the second returns the task
and dequeues again until it is counted. Then the first goes on for `k` turns. -/
def fetchedAhead (k : ℕ) : List (QTurn 1 2) :=
  alone left (.loopSequential singleTask)::List.replicate 11 (alone left .stay)++
    alone left .dequeue::List.replicate 35 (alone left .stay)++
    alone right .dequeue::List.replicate 12 (alone right .stay)++
    alone right .dequeue::List.replicate 7 (alone right .stay)++
    List.replicate k (alone left .stay)

/-- The first thread decides the barrier on an empty local queue. -/
theorem fetchedAhead_decide :
    allows (program 1 2 twoGroups) (Delivers twoGroups) (initial 1 2) (fetchedAhead 17)=true ∧
    event twoGroups (run (program 1 2 twoGroups) (initial 1 2) (fetchedAhead 17))
      (alone left .stay)=some (.decide (solo,left)) ∧
    written (run (program 1 2 twoGroups) (initial 1 2) (fetchedAhead 17)).trace=[[7,8,0,1]] := by
  decide +kernel

/-- Later it returns `TQ_RET_SYNC`. -/
theorem fetchedAhead_sync :
    allows (program 1 2 twoGroups) (Delivers twoGroups) (initial 1 2) (fetchedAhead 21)=true ∧
    event twoGroups (run (program 1 2 twoGroups) (initial 1 2) (fetchedAhead 21))
      (alone left .stay)=some (.sync (solo,left)) := by
  decide +kernel

/-- With two groups per fetch the task was returned when the barrier is decided, and all tasks
before this barrier when `TQ_RET_SYNC` is returned for it. -/
theorem barrier_any_prefetch_ahead :
    returned (run (program 1 2 twoGroups) (initial 1 2) (fetchedAhead 17)).trace=[[7,8,0,1]] ∧
    ∃ u before, Event.decide u::before <:+
      (run (program 1 2 twoGroups) (initial 1 2) (fetchedAhead 21)).trace ∧
      (written before).Perm (returned before) := by
  obtain ⟨hallowed,hdecide,hwritten⟩ := fetchedAhead_decide
  obtain ⟨hallowed',hsync⟩ := fetchedAhead_sync
  refine ⟨?_,?_⟩
  · have hperm := ((barrier_any_prefetch (by decide) (by decide) (.of_allows .init hallowed)
      (alone left .stay)).2 _ hdecide).1
    rw [hwritten] at hperm
    exact List.perm_singleton.1 hperm.symm
  · obtain ⟨⟨u,before,hsuffix,-,hperm⟩,-⟩ := (barrier_any_prefetch (by decide) (by decide)
      (.of_allows .init hallowed') (alone left .stay)).1 _ hsync
    exact ⟨u,before,hsuffix,hperm⟩

end RigelTarget.TaskQueueDelivery
