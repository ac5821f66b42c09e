import RigelTarget.TaskQueueLists

/-!
# Room for the tasks of an enqueue

The parallel enqueue draws descriptors from the pool at `GLOBAL_tq_head_data`, the
sequential one at eight times the tail index, both in one array and without a test.
A descriptor belongs to a task from the time it is written until a dequeue returns
it; a slot of the index belongs to the tasks published through it. Only the sequential
enqueue reduces what it draws to the size of the arrays: the pool may hand out
descriptors past the end of `GLOBAL_taskqueue_data`, and from index 2^15 on the parallel
enqueue stores past the end of `GLOBAL_taskqueue_index`, where the descriptors were
allocated. When everything that a call draws is in its array and free at the time it is
drawn, and no other call in progress has drawn it, no enqueue stores past an array and
nothing that belongs to a task is stored over, in every interleaving.
-/

namespace RigelTarget.TaskQueueRoom

open SharedMemory TaskQueueModel TaskQueueProgram TaskQueueSteps TaskQueueFrame TaskQueueLists
  IntrusiveList

variable {n m : ℕ} {cfg : Config}

/-- The descriptors of the tasks that were written and not yet returned by a dequeue. A descriptor
belongs to its task from the store that completes it to the return of its words. -/
def undelivered : List (Event n m) → List ℕ
  | [] => []
  | .fill _ p _::es => p::undelivered es
  | .success _ p _::es => (undelivered es).filter (·≠p)
  | _::es => undelivered es

/-- The tasks published at an index of slot `q` and not yet returned by a dequeue. A store into the
slot while there are such tasks would lose their group. -/
def slotTasks (q : ℕ) : List (Event n m) → List ℕ
  | [] => []
  | .publish _ i nodes::es => if i%groupSlots=q then nodes++slotTasks q es else slotTasks q es
  | .success _ p _::es => (slotTasks q es).filter (·≠p)
  | _::es => slotTasks q es

/-- The descriptors of the groups of a parallel enqueue from `offset` on. -/
def parPtrs (offset : ℕ) : List (List (ℕ×ℕ)) → List ℕ
  | [] => []
  | g::gs => (List.range g.length).map (fun k => offset+k+1)++parPtrs (offset+8) gs

/-- The descriptors of the groups of a sequential enqueue from `idx` on. -/
def seqPtrs (idx : ℕ) : List (List (ℕ×ℕ)) → List ℕ
  | [] => []
  | g::gs => (List.range g.length).map (seqPtr idx)++seqPtrs ((idx+8)%globalTqSize) gs

/-- The slots of the groups of a sequential enqueue from `idx` on. -/
def seqSlots (idx : ℕ) : List (List (ℕ×ℕ)) → List ℕ
  | [] => []
  | _::gs => idx/8::seqSlots ((idx+8)%globalTqSize) gs

/-- The work of a parallel enqueue whose current group is written: it is being published or linked,
or the lock is being released after it. -/
def filledWork : ParPc → Option Work
  | .acq w _ => some w
  | .head w => some w
  | .insHead w => some w
  | .insNext w _ => some w
  | .insSet w => some w
  | .relLocal w _ => some w
  | .relGlobal w _ => some w
  | .lock w => some w
  | .loadTail w => some w
  | .storeTask w _ _ => some w
  | .storeNull w => some w
  | .incTail w => some w
  | .unlockEnqueue w => some w
  | _ => none

/-- The descriptors that an enqueue has drawn and not yet written: the rest of the current group and
all groups that follow it. They belong to no task, no other call may draw them, and a descriptor
leaves this list by the store that completes it. -/
def reserved : Pc → List ℕ
  | .par _ (.fill w k _) => w.nodes.drop k++parPtrs (w.offset+8) w.groups.tail
  | .par _ p => match filledWork p with
    | some w => parPtrs (w.offset+8) w.groups.tail
    | none => []
  | .seq _ (.fill idx groups k _) =>
    (seqNodes idx groups).drop k++seqPtrs ((idx+8)%globalTqSize) groups.tail
  | .seq _ (.storeTask idx groups k) =>
    (seqNodes idx groups).drop (k+1)++seqPtrs ((idx+8)%globalTqSize) groups.tail
  | .seq _ (.storeNull idx groups) => seqPtrs ((idx+8)%globalTqSize) groups.tail
  | .seq _ (.incTail idx groups) => seqPtrs ((idx+8)%globalTqSize) groups.tail
  | _ => []

/-- The descriptors that a step draws: `TQ_DESC_POOL_GET`, or the load of the tail index by
the sequential enqueue. -/
def draws (word : Loc n → ℕ) : Pc → List ℕ
  | .par _ (.pool groups) => parPtrs (word .headData%globalTqSize) groups
  | .seq args .loadTail => seqPtrs (8*word .tailIndex%globalTqSize) (seqGroups args)
  | _ => []

/-- The slots that an enqueue is going to store into before it reads the tail index again. For a
parallel enqueue these are the slot of the tail that it has read, and slot 0 for the pointers of the
second and later tasks. -/
def slotsAhead : Pc → List ℕ
  | .par _ (.storeTask w τ i) =>
    if i=0 then τ%2^27::(if 1 < w.current.length then [0] else []) else [0]
  | .seq _ (.fill idx groups _ _) => seqSlots idx groups
  | .seq _ (.storeTask idx groups _) => seqSlots idx groups
  | .seq _ (.storeNull idx groups) => seqSlots idx groups
  | .seq _ (.incTail idx groups) => seqSlots idx groups
  | _ => []

/-- The slots that a step draws: the load of the tail index by either enqueue. This is the time at
which there must be room in the index. -/
def drawsSlots (word : Loc n → ℕ) : Pc → List ℕ
  | .par args (.loadTail w) => slotsAhead (.par args (.storeTask w (word .tailIndex) 0))
  | .seq args .loadTail => seqSlots (8*word .tailIndex%globalTqSize) (seqGroups args)
  | _ => []

/-- The number of groups that a step of the sequential enqueue is about to write. -/
def drawsGroups : Pc → ℕ
  | .seq args .loadTail => (seqGroups args).length
  | _ => 0

/-- There is room for what a turn draws: descriptors and slots are in their arrays, no task
that is not yet delivered has one of them, and no other call has drawn the descriptors. -/
structure Room (s : QState n m) (turn : QTurn n m) : Prop where
  /-- A sequential enqueue has no more groups than there are slots. -/
  groups : drawsGroups (s.pc turn.thread).pc≤groupSlots
  /-- The descriptors are in `GLOBAL_taskqueue_data`, belong to no task, and no call in
  progress has drawn them. -/
  descs : ∀ p∈draws s.word (s.pc turn.thread).pc,
    p≤globalTqSize ∧ p∉undelivered s.trace ∧ ∀ t, p∉reserved (s.pc t).pc
  /-- The slots are in `GLOBAL_taskqueue_index` and belong to no task. -/
  slots : ∀ q∈drawsSlots s.word (s.pc turn.thread).pc, q<groupSlots ∧ slotTasks q s.trace=[]

instance (s : QState n m) (turn : QTurn n m) : Decidable (Room s turn) :=
  decidable_of_iff (drawsGroups (s.pc turn.thread).pc≤groupSlots ∧
      (∀ p∈draws s.word (s.pc turn.thread).pc,
        p≤globalTqSize ∧ p∉undelivered s.trace ∧ ∀ t, p∉reserved (s.pc t).pc) ∧
      ∀ q∈drawsSlots s.word (s.pc turn.thread).pc, q<groupSlots ∧ slotTasks q s.trace=[])
    ⟨fun h => ⟨h.1,h.2.1,h.2.2⟩,fun h => ⟨h.groups,h.descs,h.slots⟩⟩

/-- Whether a thread is inside an enqueue. -/
def enqueues : Pc → Bool
  | .par _ _ => true
  | .seq _ _ => true
  | _ => false

/-- Whether an access stores over what belongs to a task, apart from the tasks `own`, or past
the end of the descriptors or of the index. The descriptors were allocated behind the index, so
a store past its end goes into one of them. -/
def storesOver (trace : List (Event n m)) (own : List ℕ) : Access (Loc n) → Bool
  | .store (.desc p _) _ =>
    decide (globalTqSize < p) || decide (p∈undelivered trace) && decide (p∉own)
  | .store (.task q _) _ => decide (groupSlots≤q) || decide (slotTasks q trace≠[])
  | _ => false

/-- A turn of an enqueue stores into a descriptor or a slot of a task that is not yet
delivered, other than the group that this call is writing, or outside the two arrays. -/
def overwrites (cfg : Config) (s : QState n m) (turn : QTurn n m) : Bool :=
  enqueues (s.pc turn.thread).pc && storesOver s.trace (hand (s.pc turn.thread).pc)
    (access cfg turn.thread (s.pc turn.thread))

/-- Whether a step completes a descriptor. -/
def filled : Option (Event n m) → List ℕ
  | some (.fill _ p _) => [p]
  | _ => []

/-- The next group of a parallel enqueue is the first of those that remain. -/
theorem reserved_parGroup (args : Args) (w : Work) :
    reserved (.par args (parGroup w))=parPtrs w.offset w.groups := by
  unfold parGroup
  split
  · rename_i h
    rw [h]
    rfl
  · rename_i h
    obtain ⟨groups,offset,left⟩ := w
    cases groups with
    | nil => exact absurd rfl h
    | cons g gs => rfl

/-- The next group of a sequential enqueue is the first of those that remain. -/
theorem reserved_seqGroup (args : Args) (idx : ℕ) (groups : List (List (ℕ×ℕ))) :
    reserved (.seq args (seqGroup idx groups))=seqPtrs idx groups := by
  unfold seqGroup
  split
  · rename_i h
    rw [h]
    rfl
  · rename_i h
    cases groups with
    | nil => exact absurd rfl h
    | cons g gs => rfl

/-- The tasks of a group from task `k` on. -/
theorem drop_range_map {ptr : ℕ → ℕ} {k l : ℕ} (h : k < l) :
    ((List.range l).map ptr).drop k=ptr k::((List.range l).map ptr).drop (k+1) := by
  have hlen : k<((List.range l).map ptr).length := by
    rw [List.length_map,List.length_range]
    exact h
  rw [List.drop_eq_getElem_cons hlen,List.getElem_map,List.getElem_range]

/-- After its last task nothing of a group remains. -/
theorem drop_range_last {ptr : ℕ → ℕ} {k l : ℕ} (h : ¬k+1 < l) :
    ((List.range l).map ptr).drop (k+1)=[] := by
  refine List.drop_eq_nil_of_le ?_
  rw [List.length_map,List.length_range]
  omega

/-- What an enqueue has drawn is what it has drawn before, without the completed descriptor; the
draw itself brings in the descriptors of all its groups. -/
theorem trans_reserved {word : Loc n → ℕ} {t : Thread n m} {sense esense : ℕ} {pc q : Pc} {w : Wr n}
    {e : Option (Event n m)} (h : Trans cfg word t sense esense pc w e q) (hok : WorkOk pc) :
    reserved pc++draws word pc=filled e++reserved q := by
  cases h with
  | fast h => cases h <;> rfl
  | slow h => cases h <;> rfl
  | fetch h =>
    cases h with
    | bar hb => cases hb <;> rfl
    | _ => rfl
  | par h =>
    cases h with
    | pool groups =>
      rw [reserved_parGroup]
      rfl
    | fillNext u k hlt =>
      show (u.nodes.drop k++_)++[]=[u.ptr k]++(u.nodes.drop (k+1)++_)
      rw [List.append_nil,Work.nodes,drop_range_map hok.2]
      rfl
    | fillLast u k hlast =>
      show (u.nodes.drop k++_)++[]=[u.ptr k]++_
      rw [List.append_nil,Work.nodes,drop_range_map hok.2,drop_range_last hlast]
      rfl
    | relLocalDone hl =>
      rw [reserved_parGroup]
      exact List.append_nil _
    | unlockEnqueue u =>
      rw [reserved_parGroup]
      exact List.append_nil _
    | _ => exact List.append_nil _
  | seq h =>
    cases h with
    | loadTail => exact (reserved_seqGroup ..).symm
    | fillNext idx groups k =>
      show ((seqNodes idx groups).drop k++_)++[]=
        [seqPtr idx k]++((seqNodes idx groups).drop (k+1)++_)
      rw [List.append_nil,seqNodes,drop_range_map hok.2]
      rfl
    | storeLast idx groups k hlast =>
      show ((seqNodes idx groups).drop (k+1)++_)++[]=_
      rw [List.append_nil,seqNodes,drop_range_last hlast]
      rfl
    | incTail idx groups =>
      rw [reserved_seqGroup]
      exact List.append_nil _
    | _ => exact List.append_nil _
  | _ => rfl

/-- No group has more than eight tasks. -/
def Short (groups : List (List (ℕ×ℕ))) : Prop := ∀ g∈groups, g.length≤8

/-- One pass of the inner loop writes at most as many tasks as there is room for. -/
theorem fillGroup_length (per stop room start : ℕ) :
    (LoopPartition.fillGroup per stop room start).1.length ≤ room := by
  induction room generalizing start with
  | zero => exact Nat.zero_le 0
  | succ room ih =>
    simp only [LoopPartition.fillGroup]
    split
    · exact Nat.succ_le_succ (ih _)
    · exact Nat.zero_le _

/-- The groups of a parallel enqueue are short. -/
theorem parGroups_short {c : Fin n} {args : Args} {groups : List (List (ℕ×ℕ))}
    (h : parGroups cfg c args=some groups) : Short groups :=
  parGroups_groups (fun stop start _ => fillGroup_length args.itersPerTask stop _ start) h

/-- The groups of a sequential enqueue are short. -/
theorem seqGroups_short (args : Args) : Short (seqGroups args) :=
  seqGroups_groups fun stop start _ => fillGroup_length args.itersPerTask stop _ start

/-- The descriptors of a parallel enqueue lie behind its offset. -/
theorem lt_of_mem_parPtrs {offset p : ℕ} {groups : List (List (ℕ×ℕ))}
    (h : p∈parPtrs offset groups) : offset < p := by
  induction groups generalizing offset with
  | nil => cases h
  | cons g gs ih =>
    rcases List.mem_append.mp h with h|h
    · obtain ⟨k,-,rfl⟩ := List.mem_map.mp h
      omega
    · have := ih h
      omega

/-- The descriptors of a parallel enqueue are distinct. -/
theorem parPtrs_nodup {offset : ℕ} {groups : List (List (ℕ×ℕ))} (h : Short groups) :
    (parPtrs offset groups).Nodup := by
  induction groups generalizing offset with
  | nil => exact List.nodup_nil
  | cons g gs ih =>
    refine List.nodup_append.mpr ⟨?_,ih fun g hg => h g (List.mem_cons_of_mem _ hg),?_⟩
    · refine List.nodup_range.map fun a b hab => ?_
      have : offset+a+1=offset+b+1 := hab
      omega
    · intro p hp q hq he
      obtain ⟨k,hk,rfl⟩ := List.mem_map.mp hp
      have := List.mem_range.mp hk
      have := h g List.mem_cons_self
      have := lt_of_mem_parPtrs hq
      omega

/-- The first descriptor of the group at the next index. -/
theorem next_index (τ : ℕ) : (8*τ%globalTqSize+8)%globalTqSize=8*(τ+1)%globalTqSize := by
  unfold globalTqSize
  omega

/-- Task `k` of the group at index `τ`. -/
theorem seqPtr_index (τ k : ℕ) : seqPtr (8*τ%globalTqSize) k=(8*τ+k)%globalTqSize+1 := by
  unfold seqPtr globalTqSize
  omega

/-- Tasks of groups less than a round apart are equal in the same group only. -/
theorem index_inj {τ j k k' : ℕ} (hj : j<groupSlots) (hk : k < 8) (hk' : k' < 8)
    (h : (8*τ+k)%globalTqSize=(8*(τ+j)+k')%globalTqSize) : j=0 ∧ k=k' := by
  unfold globalTqSize at h
  unfold groupSlots at hj
  omega

/-- A descriptor of a sequential enqueue is task `k` of group `j`. -/
theorem mem_seqPtrs {τ p : ℕ} {groups : List (List (ℕ×ℕ))} (h : Short groups)
    (hp : p∈seqPtrs (8*τ%globalTqSize) groups) :
    ∃ j k, j<groups.length ∧ k < 8 ∧ p=(8*(τ+j)+k)%globalTqSize+1 := by
  induction groups generalizing τ with
  | nil => cases hp
  | cons g gs ih =>
    rcases List.mem_append.mp hp with hp|hp
    · obtain ⟨k,hk,rfl⟩ := List.mem_map.mp hp
      have hk := List.mem_range.mp hk
      have hg := h g List.mem_cons_self
      exact ⟨0,k,Nat.succ_pos _,by omega,seqPtr_index τ k⟩
    · rw [next_index] at hp
      obtain ⟨j,k,hj,hk,rfl⟩ := ih (fun g hg => h g (List.mem_cons_of_mem _ hg)) hp
      exact ⟨j+1,k,Nat.succ_lt_succ hj,hk,by rw [Nat.add_assoc,Nat.add_comm 1 j]⟩

/-- The descriptors of a sequential enqueue that fits the array are distinct, although they may go
around its end. -/
theorem seqPtrs_nodup {τ : ℕ} {groups : List (List (ℕ×ℕ))} (h : Short groups)
    (hlen : groups.length≤groupSlots) : (seqPtrs (8*τ%globalTqSize) groups).Nodup := by
  induction groups generalizing τ with
  | nil => exact List.nodup_nil
  | cons g gs ih =>
    have hg := h g List.mem_cons_self
    have hgs : Short gs := fun g hg => h g (List.mem_cons_of_mem _ hg)
    rw [List.length_cons] at hlen
    unfold seqPtrs
    rw [next_index]
    refine List.nodup_append.mpr ⟨?_,ih hgs (by omega),?_⟩
    · refine List.Nodup.map_on ?_ List.nodup_range
      intro a ha b hb hab
      have ha := List.mem_range.mp ha
      have hb := List.mem_range.mp hb
      rw [seqPtr_index,seqPtr_index] at hab
      exact (index_inj (j := 0) (Nat.two_pow_pos 15) (by omega) (by omega) (Nat.succ.inj hab)).2
    · intro p hp q hq hpq
      obtain ⟨k,hk,rfl⟩ := List.mem_map.mp hp
      have hk := List.mem_range.mp hk
      obtain ⟨j,k',hj,hk',rfl⟩ := mem_seqPtrs hgs hq
      rw [seqPtr_index,Nat.add_assoc,Nat.add_comm 1 j] at hpq
      have := (index_inj (by omega) (by omega) hk' (Nat.succ.inj hpq)).1
      omega

/-- The slot of the group at index `τ`. -/
theorem slot_index (τ : ℕ) : 8*τ%globalTqSize/8=τ%groupSlots := by
  unfold globalTqSize groupSlots
  omega

/-- A slot of a sequential enqueue is that of group `j`. -/
theorem mem_seqSlots {τ q : ℕ} {groups : List (List (ℕ×ℕ))}
    (hq : q∈seqSlots (8*τ%globalTqSize) groups) : ∃ j < groups.length, q=(τ+j)%groupSlots := by
  induction groups generalizing τ with
  | nil => cases hq
  | cons g gs ih =>
    rcases List.mem_cons.mp hq with rfl|hq
    · exact ⟨0,Nat.succ_pos _,slot_index τ⟩
    · rw [next_index] at hq
      obtain ⟨j,hj,rfl⟩ := ih hq
      exact ⟨j+1,Nat.succ_lt_succ hj,by rw [Nat.add_assoc,Nat.add_comm 1 j]⟩

/-- The slots of groups less than a round ahead are other slots. -/
theorem slot_ne {τ j : ℕ} (hj : j+1<groupSlots) : (τ+1+j)%groupSlots≠τ%groupSlots := by
  unfold groupSlots at hj ⊢
  omega

section Descriptors

variable {s : QState n m}

/-- What the calls in progress have drawn is distinct, and none of it belongs to a task. Calls of
different threads may be in progress at the same time. -/
structure Drawn (s : QState n m) : Prop where
  /-- No descriptor was drawn twice. -/
  owned : Owned fun t => reserved (s.pc t).pc
  /-- A descriptor that was drawn belongs to no task. -/
  free : ∀ t, ∀ p∈reserved (s.pc t).pc, p∉undelivered s.trace

/-- The groups of a parallel enqueue that is about to draw are short. -/
def PoolShort : Pc → Prop
  | .par _ (.pool groups) => Short groups
  | _ => True

/-- The next group of a parallel enqueue does not draw. -/
theorem poolShort_parGroup (args : Args) (w : Work) : PoolShort (.par args (parGroup w)) := by
  unfold parGroup
  split <;> trivial

/-- Every step keeps the groups short. -/
theorem trans_poolShort {word : Loc n → ℕ} {t : Thread n m} {sense esense : ℕ} {pc q : Pc}
    {w : Wr n} {e : Option (Event n m)} (h : Trans cfg word t sense esense pc w e q) :
    PoolShort q := by
  cases h with
  | fast h => cases h <;> trivial
  | slow h => cases h <;> trivial
  | fetch h => cases h <;> trivial
  | par h =>
    cases h with
    | body v groups hg => exact parGroups_short hg
    | pool groups => exact poolShort_parGroup ..
    | relLocalDone hl => exact poolShort_parGroup ..
    | unlockEnqueue u => exact poolShort_parGroup ..
    | _ => trivial
  | seq h => cases h <;> trivial
  | _ => trivial

/-- What a step draws is distinct if it draws no more groups than there are slots. -/
theorem draws_nodup {word : Loc n → ℕ} {pc : Pc} (h : PoolShort pc)
    (hroom : drawsGroups pc≤groupSlots) : (draws word pc).Nodup := by
  cases pc with
  | par args p =>
    cases p with
    | pool groups => exact parPtrs_nodup h
    | _ => exact List.nodup_nil
  | seq args p =>
    cases p with
    | loadTail => exact seqPtrs_nodup (seqGroups_short args) hroom
    | _ => exact List.nodup_nil
  | _ => exact List.nodup_nil

/-- Only a completed descriptor begins to belong to a task. -/
theorem mem_undelivered {e : Option (Event n m)} {es : List (Event n m)} {p : ℕ}
    (h : p∈undelivered (e.toList++es)) : p∈filled e ∨ p∈undelivered es := by
  cases e with
  | none => exact .inr h
  | some e =>
    cases e with
    | fill t q d =>
      rcases List.mem_cons.mp h with rfl|h
      · exact .inl List.mem_cons_self
      · exact .inr h
    | success t q words => exact .inr (List.mem_filter.mp h).1
    | _ => exact .inr h

/-- A turn that finds room keeps what is drawn distinct and free. Only a draw adds descriptors, and
these are the ones that room is about. -/
theorem drawn_step {turn : QTurn n m} (fresh : LinkFresh reserve s)
    (hwork : WorkOk (s.pc turn.thread).pc) (hshort : PoolShort (s.pc turn.thread).pc)
    (hroom : Room s turn) (h : Drawn s) : Drawn (step (program n m cfg) s turn) := by
  have ht := trans_step cfg s turn fresh
  have heq := trans_reserved ht hwork
  have hall : (reserved (s.pc turn.thread).pc++draws s.word (s.pc turn.thread).pc).Nodup :=
    List.nodup_append.mpr ⟨h.owned.nodup turn.thread,draws_nodup hshort hroom.groups,
      fun p hp q hq he => (hroom.descs q hq).2.2 turn.thread (he ▸ hp)⟩
  have hmem : ∀ p, p∈filled (event cfg s turn)++
      reserved ((step (program n m cfg) s turn).pc turn.thread).pc →
      p∉undelivered s.trace ∧ ∀ u≠turn.thread, p∉reserved (s.pc u).pc := by
    intro p hp
    rw [←heq] at hp
    rcases List.mem_append.mp hp with hp|hp
    · exact ⟨h.free _ p hp,fun u hu hq => hu (h.owned.apart _ _ p hq hp)⟩
    · exact ⟨(hroom.descs p hp).2.1,fun u _ => (hroom.descs p hp).2.2 u⟩
  rw [heq] at hall
  obtain ⟨-,hnodup,hapart⟩ := List.nodup_append.mp hall
  have hpc : (fun t => reserved ((step (program n m cfg) s turn).pc t).pc)=
      Function.update (fun t => reserved (s.pc t).pc) turn.thread
        (reserved ((step (program n m cfg) s turn).pc turn.thread).pc) :=
    step_pc_map _ _ _ fun l : Local => reserved l.pc
  constructor
  · rw [hpc]
    refine h.owned.change hnodup fun p hp => ?_
    by_cases hown : p∈reserved (s.pc turn.thread).pc
    · exact .inl hown
    · refine .inr fun u hq => ?_
      by_cases hu : u=turn.thread
      · exact hown (hu ▸ hq)
      · exact (hmem p (List.mem_append_right _ hp)).2 u hu hq
  · intro u p hp hun
    rw [trace_step] at hun
    by_cases hu : u=turn.thread
    · rw [hu] at hp
      rcases mem_undelivered hun with hf|hun
      · exact hapart p hf p hp rfl
      · exact (hmem p (List.mem_append_right _ hp)).1 hun
    · rw [pc_other _ _ _ hu] at hp
      rcases mem_undelivered hun with hf|hun
      · exact (hmem p (List.mem_append_left _ hf)).2 u hu hp
      · exact h.free u p hp hun

end Descriptors

/-- The work of a parallel enqueue that has drawn its descriptors. -/
def parWork : ParPc → Option Work
  | .fill w _ _ => some w
  | p => filledWork p

/-- The descriptors that a parallel enqueue has drawn for its remaining groups are in the
array. -/
def Inside : Pc → Prop
  | .par _ p => ∀ w∈parWork p, ∀ q∈parPtrs w.offset w.groups, q≤globalTqSize
  | _ => True

section Arrays

variable {word : Loc n → ℕ} {t : Thread n m} {sense esense : ℕ} {pc q : Pc} {w : Wr n}
  {e : Option (Event n m)}

/-- The descriptors of the later groups are among those of all groups. -/
theorem mem_parPtrs_rest {u : Work} {p : ℕ} (h : p∈parPtrs u.rest.offset u.rest.groups) :
    p∈parPtrs u.offset u.groups := by
  obtain ⟨groups,offset,left⟩ := u
  cases groups with
  | nil => cases h
  | cons g gs => exact List.mem_append_right _ h

/-- The next group of a parallel enqueue is one of those that it has drawn. -/
theorem inside_parGroup {args : Args} {u : Work}
    (h : ∀ p∈parPtrs u.offset u.groups, p≤globalTqSize) : Inside (.par args (parGroup u)) := by
  unfold parGroup
  split
  · intro v hv
    cases hv
  · intro v hv
    cases hv
    exact h

/-- Every step that finds room keeps the drawn descriptors in the array: a parallel enqueue computes
them from its base without a modulus. -/
theorem trans_inside (h : Trans cfg word t sense esense pc w e q)
    (hroom : ∀ p∈draws word pc, p≤globalTqSize) (hok : Inside pc) : Inside q := by
  cases h with
  | fast h => cases h <;> trivial
  | slow h => cases h <;> trivial
  | fetch h => cases h <;> trivial
  | par h =>
    cases h with
    | pool groups => exact inside_parGroup hroom
    | relLocalDone hl => exact inside_parGroup fun p hp => hok _ rfl p (mem_parPtrs_rest hp)
    | unlockEnqueue u => exact inside_parGroup fun p hp => hok _ rfl p (mem_parPtrs_rest hp)
    | insertLocal u hhead hmode =>
      intro v hv
      cases hv
      exact hok u rfl
    | busy hk => trivial
    | unlock => trivial
    | _ => exact hok
  | seq h => cases h <;> trivial
  | parCall =>
    intro v hv
    cases hv
  | _ => trivial

/-- A task of the current group is among the descriptors that were drawn. -/
theorem ptr_mem_parPtrs {u : Work} {k : ℕ} (h : k<u.current.length) :
    u.ptr k∈parPtrs u.offset u.groups := by
  obtain ⟨groups,offset,left⟩ := u
  cases groups with
  | nil => exact absurd h (Nat.not_lt_zero k)
  | cons g gs =>
    exact List.mem_append_left _ (List.mem_map_of_mem (List.mem_range.mpr h))

/-- So is the last one. -/
theorem last_mem_parPtrs {u : Work} (h : u.current≠[]) :
    u.ptr (u.current.length-1)∈parPtrs u.offset u.groups := by
  have := List.length_pos_iff.mpr h
  exact ptr_mem_parPtrs (by omega)

/-- The sequential enqueue reduces its descriptors to the array. -/
theorem seqPtr_le (idx k : ℕ) : seqPtr idx k≤globalTqSize := by
  unfold seqPtr globalTqSize
  omega

end Arrays

/-- The local states that hold `GLOBAL_tq_enqueue_lock`: a sequential enqueue from the lock to the
unlock, and a parallel one while it publishes a group. -/
def holdsEnqueue : Pc → Bool
  | .par _ (.loadTail _) => true
  | .par _ (.storeTask _ _ _) => true
  | .par _ (.storeNull _) => true
  | .par _ (.incTail _) => true
  | .par _ (.unlockEnqueue _) => true
  | .seq _ .lock => false
  | .seq _ _ => true
  | _ => false

section EnqueueLock

variable {word : Loc n → ℕ} {t : Thread n m} {sense esense : ℕ} {pc q : Pc} {w : Wr n}
  {e : Option (Event n m)} {v : ℕ} {s : QState n m}

/-- The next group of a parallel enqueue starts without the lock. -/
theorem holdsEnqueue_parGroup (args : Args) (u : Work) :
    holdsEnqueue (.par args (parGroup u))=false := by
  unfold parGroup
  split <;> rfl

/-- The next group of a sequential enqueue keeps the lock. -/
theorem holdsEnqueue_seqGroup (args : Args) (idx : ℕ) (groups : List (List (ℕ×ℕ))) :
    holdsEnqueue (.seq args (seqGroup idx groups))=true := by
  unfold seqGroup
  split <;> rfl

/-- The lock is written by the take of the free lock, by a spin and by the release. A spin stores
the one that is there already. -/
theorem trans_enqueueLock (h : Trans cfg word t sense esense pc (some (.enqueueLock,v)) e q) :
    (v=1 ∧ holdsEnqueue pc=false ∧ (holdsEnqueue q=true ↔ word .enqueueLock=0)) ∨
      (v=0 ∧ holdsEnqueue pc=true ∧ holdsEnqueue q=false) := by
  cases h with
  | fast h =>
    cases h with
    | acq ha => cases ha.write
    | grant ha => cases ha.write
  | slow h =>
    cases h with
    | inc hu => cases hu
    | incDone hu => cases hu
    | acq ha => cases ha.write
    | grant ha => cases ha.write
    | relSync hl => cases hl
    | relSyncDone hl => cases hl
    | dec hu => cases hu
    | decDone hu => cases hu
    | relPop hl => cases hl
    | finish hl => cases hl
    | relNull hl => cases hl
    | relNullDone hl => cases hl
    | trying hk => cases hk
    | locked hk => cases hk
    | busy hk => cases hk
  | fetch h =>
    cases h with
    | bar hb =>
      cases hb with
      | acq ha => cases ha.write
      | grant ha => cases ha.write
      | rel hl => cases hl
      | pending hl => cases hl
      | notPending hl => cases hl
    | acq ha => cases ha.write
    | grant ha => cases ha.write
    | rel hl => cases hl
    | more hl => cases hl
    | enough hl => cases hl
  | par h =>
    cases h with
    | trying hk => cases hk
    | locked hk => cases hk
    | busy hk => cases hk
    | acq ha => cases ha.write
    | grant ha => cases ha.write
    | relLocal hl => cases hl
    | relLocalDone hl => cases hl
    | relGlobal hl => cases hl
    | relGlobalDone hl => cases hl
    | lock u hfree => exact .inl ⟨rfl,rfl,iff_of_true rfl hfree⟩
    | spin u htaken => exact .inl ⟨rfl,rfl,iff_of_false Bool.false_ne_true htaken⟩
    | unlockEnqueue u => exact .inr ⟨rfl,rfl,holdsEnqueue_parGroup ..⟩
  | seq h =>
    cases h with
    | lock hfree => exact .inl ⟨rfl,rfl,iff_of_true rfl hfree⟩
    | spin htaken => exact .inl ⟨rfl,rfl,iff_of_false Bool.false_ne_true htaken⟩
    | unlock => exact .inr ⟨rfl,rfl,rfl⟩

/-- A step that does not write the lock neither takes nor releases it. -/
theorem trans_holdsEnqueue (h : Trans cfg word t sense esense pc w e q)
    (hw : ∀ v, w≠some (.enqueueLock,v)) : holdsEnqueue q=holdsEnqueue pc := by
  cases h with
  | fast h => cases h <;> rfl
  | slow h => cases h <;> rfl
  | fetch h => cases h <;> rfl
  | par h =>
    cases h with
    | pool groups => exact holdsEnqueue_parGroup ..
    | relLocalDone hl => exact holdsEnqueue_parGroup ..
    | lock u hfree => exact absurd rfl (hw 1)
    | unlockEnqueue u => exact absurd rfl (hw 0)
    | _ => rfl
  | seq h =>
    cases h with
    | lock hfree => exact absurd rfl (hw 1)
    | loadTail => exact holdsEnqueue_seqGroup ..
    | incTail idx groups => exact holdsEnqueue_seqGroup ..
    | unlock => exact absurd rfl (hw 0)
    | _ => rfl
  | _ => rfl

/-- The lock word is set while a thread holds the lock, and at most one does. So tail indices are
read and incremented by one thread at a time. -/
structure EnqueueInv (s : QState n m) : Prop where
  /-- A held lock is not free. -/
  taken : ∀ t, holdsEnqueue (s.pc t).pc=true → s.word .enqueueLock≠0
  /-- Two holders are the same thread. -/
  unique : ∀ t u, holdsEnqueue (s.pc t).pc=true → holdsEnqueue (s.pc u).pc=true → t=u

/-- One turn keeps the exclusion: the lock word is not zero while a thread is between its acquire
and its release. -/
theorem enqueueInv_step {turn : QTurn n m} (fresh : LinkFresh reserve s) (h : EnqueueInv s) :
    EnqueueInv (step (program n m cfg) s turn) := by
  have ht := trans_step cfg s turn fresh
  by_cases hw : ∃ v, wrote cfg s turn=some (.enqueueLock,v)
  · obtain ⟨v,hw⟩ := hw
    have hword : (step (program n m cfg) s turn).word .enqueueLock=v := by
      rw [word_step,hw]
      exact applyWrite_self
    rw [hw] at ht
    rcases trans_enqueueLock ht with ⟨rfl,hpc,hfree⟩|⟨rfl,hpc,hq⟩
    · -- a thread that takes the lock found it free, so nobody held it
      have hsole : ∀ u, holdsEnqueue ((step (program n m cfg) s turn).pc turn.thread).pc=true →
          holdsEnqueue ((step (program n m cfg) s turn).pc u).pc=true → u=turn.thread := by
        intro u hself hu
        by_contra hne
        rw [pc_other _ _ _ hne] at hu
        exact h.taken u hu (hfree.1 hself)
      refine ⟨fun u _ => by rw [hword]; exact Nat.one_ne_zero,fun u u' hu hu' => ?_⟩
      by_cases h1 : u=turn.thread
      · rw [h1] at hu ⊢
        exact (hsole u' hu hu').symm
      · by_cases h2 : u'=turn.thread
        · rw [h2] at hu' ⊢
          exact hsole u hu' hu
        · rw [pc_other _ _ _ h1] at hu
          rw [pc_other _ _ _ h2] at hu'
          exact h.unique u u' hu hu'
    · have hnone : ∀ u, holdsEnqueue ((step (program n m cfg) s turn).pc u).pc=false := by
        intro u
        by_cases hu : u=turn.thread
        · rw [hu]
          exact hq
        · rw [pc_other _ _ _ hu]
          by_contra hheld
          exact hu (h.unique u turn.thread (Bool.eq_true_of_not_eq_false hheld) hpc)
      refine ⟨fun u hu => ?_,fun u u' hu hu' => ?_⟩
      · rw [hnone u] at hu
        cases hu
      · rw [hnone u] at hu
        cases hu
  · have hkeep : ∀ u, holdsEnqueue ((step (program n m cfg) s turn).pc u).pc=
        holdsEnqueue (s.pc u).pc := by
      intro u
      by_cases hu : u=turn.thread
      · rw [hu]
        exact trans_holdsEnqueue ht fun v he => hw ⟨v,he⟩
      · rw [pc_other _ _ _ hu]
    have hword : (step (program n m cfg) s turn).word .enqueueLock=s.word .enqueueLock := by
      rw [word_step]
      exact applyWrite_keep fun v he => hw ⟨v,he⟩
    refine ⟨fun u hu => ?_,fun u u' hu hu' => ?_⟩
    · rw [hkeep] at hu
      rw [hword]
      exact h.taken u hu
    · rw [hkeep] at hu hu'
      exact h.unique u u' hu hu'

end EnqueueLock

/-- The groups of a sequential enqueue that holds the lock start at the tail index, since no other
thread publishes while it holds the lock. -/
structure SeqWork (word : Loc n → ℕ) (idx : ℕ) (groups : List (List (ℕ×ℕ))) : Prop where
  /-- The current group is that of the tail index. -/
  index : idx=8*word .tailIndex%globalTqSize
  /-- There are no more groups than slots. -/
  count : groups.length≤groupSlots
  /-- The groups are short. -/
  short : Short groups

/-- What a sequential enqueue knows about its groups. -/
def SeqOk (word : Loc n → ℕ) : Pc → Prop
  | .seq _ (.fill idx groups _ _) => SeqWork word idx groups
  | .seq _ (.storeTask idx groups _) => SeqWork word idx groups
  | .seq _ (.storeNull idx groups) => SeqWork word idx groups
  | .seq _ (.incTail idx groups) => SeqWork word idx groups
  | _ => True

section Slots

variable {word : Loc n → ℕ} {t : Thread n m} {sense esense : ℕ} {pc q : Pc} {w : Wr n}
  {e : Option (Event n m)} {v : ℕ}

/-- The tail index is written by a holder of the lock. -/
theorem holdsEnqueue_of_tail (h : Trans cfg word t sense esense pc (some (.tailIndex,v)) e q) :
    holdsEnqueue pc=true := by
  cases h.writes <;> rfl

/-- Groups are published by a holder of the lock, at the tail index. -/
theorem holdsEnqueue_of_publish {u : Thread n m} {i : ℕ} {nodes : List ℕ}
    (h : Trans cfg word t sense esense pc w (some (.publish u i nodes)) q) :
    holdsEnqueue pc=true ∧ i=word .tailIndex := by
  cases h with
  | fast h => cases h
  | slow h => cases h
  | fetch h =>
    cases h with
    | bar hb => cases hb
  | par h =>
    cases h with
    | incTail u => exact ⟨rfl,rfl⟩
  | seq h =>
    cases h with
    | incTail idx groups => exact ⟨rfl,rfl⟩

/-- Only a holder of the lock is going to store into slots. -/
theorem holdsEnqueue_of_slots {x : ℕ} (h : x∈slotsAhead pc) : holdsEnqueue pc=true := by
  cases pc with
  | par args p =>
    cases p with
    | storeTask u τ i => rfl
    | _ => cases h
  | seq args p =>
    cases p with
    | lock => cases h
    | _ => rfl
  | _ => cases h

/-- What a sequential enqueue knows depends on the tail index while it holds the lock. -/
theorem seqOk_congr {word' : Loc n → ℕ}
    (htail : holdsEnqueue pc=true → word' .tailIndex=word .tailIndex) (h : SeqOk word pc) :
    SeqOk word' pc := by
  have hwork : ∀ {idx : ℕ} {groups : List (List (ℕ×ℕ))}, holdsEnqueue pc=true →
      SeqWork word idx groups → SeqWork word' idx groups := fun hh h =>
    ⟨by rw [htail hh]; exact h.index,h.count,h.short⟩
  cases pc with
  | seq args p =>
    cases p with
    | fill idx groups k f => exact hwork rfl h
    | storeTask idx groups k => exact hwork rfl h
    | storeNull idx groups => exact hwork rfl h
    | incTail idx groups => exact hwork rfl h
    | _ => trivial
  | _ => trivial

/-- The next group of a sequential enqueue is the first of those that remain. -/
theorem seqOk_seqGroup {args : Args} {idx : ℕ} {groups : List (List (ℕ×ℕ))}
    (h : SeqWork word idx groups) : SeqOk word (.seq args (seqGroup idx groups)) := by
  unfold seqGroup
  split
  · trivial
  · exact h

/-- The groups after the one that was published start at the new tail index. -/
theorem SeqWork.tail {idx : ℕ} {groups : List (List (ℕ×ℕ))} (h : SeqWork word idx groups) :
    SeqWork (applyWrite word (some (.tailIndex,(word .tailIndex+1)%wordSize)))
      ((idx+8)%globalTqSize) groups.tail := by
  refine ⟨?_,?_,fun g hg => h.short g (List.mem_of_mem_tail hg)⟩
  · rw [applyWrite_self,h.index]
    unfold globalTqSize wordSize
    omega
  · have := h.count
    rw [List.length_tail]
    omega

/-- Every step keeps what its sequential enqueue knows. The tail is its own until the release of the
enqueue lock. -/
theorem trans_seqOk (h : Trans cfg word t sense esense pc w e q)
    (hroom : drawsGroups pc≤groupSlots) (hok : SeqOk word pc) : SeqOk (applyWrite word w) q := by
  have hkeep : ∀ {x : Loc n} {v : ℕ}, x≠.tailIndex → ∀ {pc : Pc}, SeqOk word pc →
      SeqOk (applyWrite word (some (x,v))) pc := fun hx _ h =>
    seqOk_congr (fun _ => applyWrite_keep fun v he => hx (Prod.mk.inj (Option.some.inj he)).1) h
  cases h with
  | fast h => cases h <;> trivial
  | slow h => cases h <;> trivial
  | fetch h => cases h <;> trivial
  | par h =>
    cases h with
    | pool groups =>
      unfold parGroup
      split <;> trivial
    | relLocalDone hl =>
      unfold parGroup
      split <;> trivial
    | unlockEnqueue u =>
      unfold parGroup
      split <;> trivial
    | _ => trivial
  | seq h =>
    cases h with
    | loadTail => exact seqOk_seqGroup ⟨rfl,hroom,seqGroups_short _⟩
    | fill idx groups k f f' hf => exact hkeep (fun he => by cases he) hok
    | fillNext idx groups k => exact hkeep (fun he => by cases he) hok
    | storeTask idx groups k hlt => exact hkeep (fun he => by cases he) hok
    | storeLast idx groups k hlast => exact hkeep (fun he => by cases he) hok
    | storeNull idx groups => exact hkeep (fun he => by cases he) hok
    | incTail idx groups => exact seqOk_seqGroup (SeqWork.tail hok)
    | _ => trivial
  | _ => trivial

/-- The next group of a parallel enqueue has no slots yet. -/
theorem slotsAhead_parGroup (args : Args) (u : Work) : slotsAhead (.par args (parGroup u))=[] := by
  unfold parGroup
  split <;> rfl

/-- The slots of a sequential enqueue are those of the groups that remain. -/
theorem slotsAhead_seqGroup (args : Args) (idx : ℕ) (groups : List (List (ℕ×ℕ))) :
    slotsAhead (.seq args (seqGroup idx groups))=seqSlots idx groups := by
  unfold seqGroup
  split
  · rename_i h
    rw [h]
    rfl
  · rfl

/-- The slots after the one that was published are other slots. -/
theorem SeqWork.slots {idx x : ℕ} {groups : List (List (ℕ×ℕ))} (h : SeqWork word idx groups)
    (hx : x∈seqSlots ((idx+8)%globalTqSize) groups.tail) :
    x∈seqSlots idx groups ∧ word .tailIndex%groupSlots≠x := by
  cases groups with
  | nil => cases hx
  | cons g gs =>
    refine ⟨List.mem_cons_of_mem _ hx,?_⟩
    have hcount := h.count
    rw [List.length_cons] at hcount
    rw [h.index,next_index] at hx
    obtain ⟨j,hj,rfl⟩ := mem_seqSlots hx
    have hj : j<gs.length := hj
    exact (slot_ne (by omega)).symm

/-- What an enqueue is going to store into was ahead before the step or is drawn by it, and
the step publishes no group there. -/
theorem trans_slotsAhead {x : ℕ} (h : Trans cfg word t sense esense pc w e q)
    (hok : SeqOk word pc) (hx : x∈slotsAhead q) :
    (x∈slotsAhead pc ∨ x∈drawsSlots word pc) ∧
      ∀ u i nodes, e=some (.publish u i nodes) → i%groupSlots≠x := by
  cases h with
  | fast h => cases h <;> cases hx
  | slow h => cases h <;> cases hx
  | fetch h => cases h <;> cases hx
  | par h =>
    cases h with
    | pool groups => rw [slotsAhead_parGroup] at hx; cases hx
    | relLocalDone hl => rw [slotsAhead_parGroup] at hx; cases hx
    | unlockEnqueue u => rw [slotsAhead_parGroup] at hx; cases hx
    | loadTail u => exact ⟨.inr hx,fun _ _ _ he => by cases he⟩
    | storeTask u τ i hlt =>
      refine ⟨.inl ?_,fun _ _ _ he => by cases he⟩
      -- the tasks after the first one all go to slot 0
      have hzero : x∈[0] := hx
      show x∈if i=0 then τ%2^27::(if 1 < u.current.length then [0] else []) else [0]
      split
      · rw [if_pos (by omega)]
        exact List.mem_cons_of_mem _ hzero
      · exact hzero
    | _ => cases hx
  | seq h =>
    cases h with
    | loadTail =>
      rw [slotsAhead_seqGroup] at hx
      exact ⟨.inr hx,fun _ _ _ he => by cases he⟩
    | incTail idx groups =>
      rw [slotsAhead_seqGroup] at hx
      obtain ⟨hmem,hne⟩ := SeqWork.slots hok hx
      exact ⟨.inl hmem,fun _ _ _ he => by cases he; exact hne⟩
    | lock hfree => cases hx
    | spin htaken => cases hx
    | unlock => cases hx
    | _ => exact ⟨.inl hx,fun _ _ _ he => by cases he⟩
  | _ => cases hx

/-- A slot begins to belong to a task when a group is published through it. -/
theorem slotTasks_append {es : List (Event n m)} {x : ℕ} (h : slotTasks x es=[])
    (hpub : ∀ u i nodes, e=some (.publish u i nodes) → i%groupSlots≠x) :
    slotTasks x (e.toList++es)=[] := by
  cases e with
  | none => exact h
  | some e =>
    cases e with
    | publish u i nodes =>
      show (if i%groupSlots=x then _ else _)=_
      rw [if_neg (hpub u i nodes rfl)]
      exact h
    | success u p words =>
      show (slotTasks x es).filter _=_
      rw [h]
      rfl
    | _ => exact h

end Slots

/-- What every turn that finds room keeps. From it follows that no store of an enqueue hits a
task. -/
structure RoomInv (s : QState n m) : Prop where
  /-- Counters of the enqueues are inside their groups. -/
  work : ∀ t, WorkOk (s.pc t).pc
  /-- The groups that are about to be drawn are short. -/
  short : ∀ t, PoolShort (s.pc t).pc
  /-- What was drawn is distinct and free. -/
  drawn : Drawn s
  /-- The enqueue lock excludes. -/
  lock : EnqueueInv s
  /-- A sequential enqueue is at the tail index. -/
  index : ∀ t, SeqOk s.word (s.pc t).pc
  /-- The slots that are to be stored into are in the array and belong to no task. -/
  slots : ∀ t, ∀ q∈slotsAhead (s.pc t).pc, q<groupSlots ∧ slotTasks q s.trace=[]
  /-- What the parallel enqueues have drawn is in the array. -/
  inside : ∀ t, Inside (s.pc t).pc

section Runs

variable {s : QState n m} {turn : QTurn n m}

/-- One turn that finds room keeps the invariant, whichever threads are in an enqueue at the
time. -/
theorem roomInv_step (fresh : LinkFresh reserve s) (hroom : Room s turn) (h : RoomInv s) :
    RoomInv (step (program n m cfg) s turn) := by
  have ht := trans_step cfg s turn fresh
  refine ⟨?_,?_,drawn_step fresh (h.work _) (h.short _) hroom h.drawn,
    enqueueInv_step fresh h.lock,fun u => ?_,fun u q hq => ?_,?_⟩
  · exact step_pc_forall (Q := fun _ (l : Local) => WorkOk l.pc) _ _ _ (trans_workOk ht (h.work _))
      fun u _ => h.work u
  · exact step_pc_forall (Q := fun _ (l : Local) => PoolShort l.pc) _ _ _ (trans_poolShort ht)
      fun u _ => h.short u
  · by_cases hu : u=turn.thread
    · rw [hu,word_step]
      exact trans_seqOk ht hroom.groups (h.index _)
    · rw [pc_other _ _ _ hu,word_step]
      refine seqOk_congr (fun hheld => applyWrite_keep fun v hw => ?_) (h.index u)
      rw [hw] at ht
      exact hu (h.lock.unique _ _ hheld (holdsEnqueue_of_tail ht))
  · rw [trace_step]
    by_cases hu : u=turn.thread
    · rw [hu] at hq
      obtain ⟨hmem,hpub⟩ := trans_slotsAhead ht (h.index _) hq
      have hold : q<groupSlots ∧ slotTasks q s.trace=[] := by
        rcases hmem with hmem|hmem
        · exact h.slots _ q hmem
        · exact hroom.slots q hmem
      exact ⟨hold.1,slotTasks_append hold.2 hpub⟩
    · rw [pc_other _ _ _ hu] at hq
      obtain ⟨hlt,hnone⟩ := h.slots u q hq
      refine ⟨hlt,slotTasks_append hnone fun v i nodes he => ?_⟩
      rw [he] at ht
      exact absurd (h.lock.unique _ _ (holdsEnqueue_of_slots hq) (holdsEnqueue_of_publish ht).1) hu
  · exact step_pc_forall (Q := fun _ (l : Local) => Inside l.pc) _ _ _
      (trans_inside ht (fun p hp => (hroom.descs p hp).1) (h.inside _)) fun u _ => h.inside u

/-- The invariant holds before the first call. -/
theorem roomInv_initial : RoomInv (initial n m) where
  work _ := trivial
  short _ := trivial
  drawn := ⟨⟨fun _ => List.nodup_nil,fun _ _ _ hp => by cases hp⟩,fun _ _ hp => by cases hp⟩
  lock := ⟨fun _ h => absurd h Bool.false_ne_true,fun _ _ h => absurd h Bool.false_ne_true⟩
  index _ := trivial
  slots _ _ hq := by cases hq
  inside _ := trivial

/-- The invariant holds in every run whose turns all find room. -/
theorem roomInv_reachable (hs : Reachable (program n m cfg) (initial n m) Room s) : RoomInv s := by
  refine Reachable.invariant roomInv_initial ?_ hs
  intro s turn hs hroom h
  exact roomInv_step (linkFresh_reachable hs) hroom h

end Runs

section Stores

variable {trace : List (Event n m)} {pc : Pc}

/-- The task that is being written is the first one that remains. -/
theorem mem_drop_range {ptr : ℕ → ℕ} {k l : ℕ} (h : k < l) (rest : List ℕ) :
    ptr k∈((List.range l).map ptr).drop k++rest := by
  rw [drop_range_map h]
  exact List.mem_cons_self

/-- The last task of a group is one of it. -/
theorem last_mem_range {ptr : ℕ → ℕ} {l : List (ℕ×ℕ)} (h : l≠[]) :
    ptr (l.length-1)∈(List.range l.length).map ptr := by
  have := List.length_pos_iff.mpr h
  exact List.mem_map_of_mem (List.mem_range.mpr (by omega))

/-- A store into a descriptor of the array that belongs to no task, or to the own group. -/
theorem storesOver_desc {own : List ℕ} {p v : ℕ} {f : Field} (hin : p≤globalTqSize)
    (h : p∉undelivered trace ∨ p∈own) :
    storesOver trace own (.store (.desc p f : Loc n) v)=false := by
  show (decide (globalTqSize < p) || decide (p∈undelivered trace) && decide (p∉own))=false
  rw [decide_eq_false (Nat.not_lt.mpr hin),Bool.false_or]
  rcases h with h|h
  · rw [decide_eq_false h]
    rfl
  · rw [decide_eq_false (not_not_intro h),Bool.and_false]

/-- A store into a slot of the array that belongs to no task. -/
theorem storesOver_task {own : List ℕ} {q i v : ℕ} (h : q<groupSlots ∧ slotTasks q trace=[]) :
    storesOver trace own (.store (.task q i : Loc n) v)=false := by
  show (decide (groupSlots≤q) || decide (slotTasks q trace≠[]))=false
  rw [decide_eq_false (Nat.not_le.mpr h.1),decide_eq_false (not_not_intro h.2)]
  rfl

/-- All tasks of a group have one slot. -/
theorem slot_task {τ k : ℕ} (hk : k < 8) :
    (8*τ%globalTqSize+k)%globalTqSize/8=8*τ%globalTqSize/8 := by
  unfold globalTqSize
  omega

/-- The slot of the current group is the first of those ahead. -/
theorem slot_mem_seqSlots {idx : ℕ} {groups : List (List (ℕ×ℕ))} (h : seqCurrent groups≠[]) :
    idx/8∈seqSlots idx groups := by
  cases groups with
  | nil => exact absurd rfl h
  | cons g gs => exact List.mem_cons_self

/-- A parallel enqueue whose descriptors and slots are in the arrays and free stores over no
task. -/
theorem par_storesOver {c : Fin n} {args : Args} {p : ParPc} (hwork : WorkOk (.par args p))
    (hinside : Inside (.par args p))
    (hfree : ∀ p'∈reserved (.par args p), p'∉undelivered trace)
    (hslots : ∀ q∈slotsAhead (.par args p), q<groupSlots ∧ slotTasks q trace=[]) :
    storesOver trace (hand (.par args p)) (parAccess cfg c args p)=false := by
  cases p with
  | tryGtq k => cases k <;> rfl
  | acq w a => cases a <;> rfl
  | relLocal w l => cases l <;> rfl
  | relGlobal w l => cases l <;> rfl
  | fill w k f =>
    exact storesOver_desc (hinside w rfl _ (ptr_mem_parPtrs hwork.2))
      (.inl (hfree _ (mem_drop_range hwork.2 _)))
  | insNext w v =>
    exact storesOver_desc (hinside w rfl _ (last_mem_parPtrs hwork.2))
      (.inr (last_mem_range hwork.2))
  | storeNull w =>
    exact storesOver_desc (hinside w rfl _ (last_mem_parPtrs hwork.2))
      (.inr (last_mem_range hwork.2))
  | storeTask w τ i =>
    refine storesOver_task (hslots _ ?_)
    show (if i=0 then _ else _)∈if i=0 then _ else _
    split
    · exact List.mem_cons_self
    · exact List.mem_cons_self
  | _ => rfl

/-- A sequential enqueue whose descriptors and slots are free stores over no task, apart from the
group that it is writing itself. -/
theorem seq_storesOver {word : Loc n → ℕ} {args : Args} {p : SeqPc} (hwork : WorkOk (.seq args p))
    (hseq : SeqOk word (.seq args p))
    (hfree : ∀ p'∈reserved (.seq args p), p'∉undelivered trace)
    (hslots : ∀ q∈slotsAhead (.seq args p), q<groupSlots ∧ slotTasks q trace=[]) :
    storesOver trace (hand (.seq args p)) (seqAccess args p : Access (Loc n))=false := by
  cases p with
  | fill idx groups k f =>
    exact storesOver_desc (seqPtr_le idx k) (.inl (hfree _ (mem_drop_range hwork.2 _)))
  | storeNull idx groups =>
    exact storesOver_desc (seqPtr_le idx _) (.inr (last_mem_range hwork.2))
  | storeTask idx groups k =>
    have hne : seqCurrent groups≠[] := fun he => by
      have := hwork.2
      rw [he] at this
      exact Nat.not_lt_zero k this
    have hk : k < 8 := by
      have hlt := hwork.2
      have hlen : (seqCurrent groups).length≤8 := by
        cases groups with
        | nil => exact absurd rfl hne
        | cons g gs => exact hseq.short g List.mem_cons_self
      omega
    have hslot : (idx+k)%globalTqSize/8=idx/8 := by
      rw [hseq.index]
      exact slot_task hk
    refine storesOver_task (hslots _ ?_)
    rw [hslot]
    exact slot_mem_seqSlots hne
  | _ => rfl

end Stores

section Overwriting

variable {s : QState n m}

/-- In every run in which each enqueue finds room for what it draws, no enqueue stores over a
descriptor or a slot of a task that was enqueued earlier and is not yet delivered, and none
stores past the end of the descriptors or of the index. -/
theorem no_silent_overwrite (hs : Reachable (program n m cfg) (initial n m) Room s)
    (turn : QTurn n m) : overwrites cfg s turn=false := by
  have h := roomInv_reachable hs
  have hwork := h.work turn.thread
  have hseq := h.index turn.thread
  have hfree := h.drawn.free turn.thread
  have hslots := h.slots turn.thread
  have hinside := h.inside turn.thread
  unfold overwrites access
  cases hpc : (s.pc turn.thread).pc with
  | par args p =>
    rw [hpc] at hwork hfree hslots hinside
    exact par_storesOver hwork hinside hfree hslots
  | seq args p =>
    rw [hpc] at hwork hseq hfree hslots
    exact seq_storesOver hwork hseq hfree hslots
  | _ => rfl

end Overwriting

/-- A second task, with other words. -/
def otherTask : Args := {singleTask with tdesc := ⟨9,10,0,0⟩}

/-- A single thread enqueues a task in parallel mode; it goes to the local queue in the first
descriptor. -/
def queued : List (QTurn 1 1) :=
  alone solo (.loopParallel singleTask)::List.replicate 21 (alone solo .stay)

/-- The task is dequeued and a sequential enqueue begins to write its own. -/
def returnedFirst : List (QTurn 1 1) :=
  queued++alone solo .dequeue::List.replicate 12 (alone solo .stay)++
    alone solo (.loopSequential otherTask)::List.replicate 2 (alone solo .stay)

/-- After the delivery there is room, and the first descriptor is used again. The store of the
second task overwrites nothing. -/
theorem no_silent_overwrite_reuse :
    access oneGroup (solo,solo)
      ((run (program 1 1 oneGroup) (initial 1 1) returnedFirst).pc (solo,solo))=
        .store (.desc 1 .v1) 9 ∧
      overwrites oneGroup (run (program 1 1 oneGroup) (initial 1 1) returnedFirst)
        (alone solo .stay)=false :=
  ⟨by rfl,no_silent_overwrite (.of_allows .init (by decide +kernel)) (alone solo .stay)⟩

/-- Without the delivery the sequential enqueue draws the same descriptor. -/
def queuedAgain (k : ℕ) : List (QTurn 1 1) :=
  queued++alone solo (.loopSequential otherTask)::List.replicate k (alone solo .stay)

/-- The sequential enqueue stores over the task in the local queue and returns
`TQ_RET_SUCCESS`. -/
theorem enqueue_replaces_task :
    overwrites oneGroup (run (program 1 1 oneGroup) (initial 1 1) (queuedAgain 2))
        (alone solo .stay)=true ∧
      event oneGroup (run (program 1 1 oneGroup) (initial 1 1) (queuedAgain 10))
        (alone solo .stay)=some (.seqReturn (solo,solo) otherTask) ∧
      (run (program 1 1 oneGroup) (initial 1 1) (queuedAgain 2)).word (.desc 1 .v1)=7 ∧
      (run (program 1 1 oneGroup) (initial 1 1) (queuedAgain 10)).word (.desc 1 .v1)=9 := by
  decide +kernel

end RigelTarget.TaskQueueRoom
