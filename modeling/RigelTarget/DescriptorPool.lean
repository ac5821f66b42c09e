import RigelTarget.LoopPartition

/-!
# Reservations in the descriptor pool

`TQ_DESC_POOL_GET` advances `GLOBAL_tq_head_data` by the descriptors of a share and reduces the
old value modulo the size of the pool. Stage 1 of `SW_TaskQueue_Loop_PARALLEL` then writes the
descriptors of its groups at consecutive offsets from that base, without a further reduction.
Two reservations that fit the pool together with those between them never share an index. An
index is outside the pool exactly when a reservation writes past the end of the pool.
-/

namespace RigelTarget.DescriptorPool

open LoopPartition

/-- `__DEFAULT_GLOBAL_TQ_SIZE`. -/
abbrev poolSize : ℕ := 2^18

/-- A call of `SW_TaskQueue_Loop_PARALLEL` that reserves descriptors, in one cluster of a machine
with `2^shift` clusters. The products that bound the share may wrap around. -/
structure Call where
  /-- `GLOBAL_numclusters_SHIFT`. -/
  shift : ℕ
  /-- `tot_iters`. -/
  totIters : ℕ
  /-- `iters_per_task`. -/
  itersPerTask : ℕ
  /-- `cluster_num`. -/
  cluster : ℕ
  /-- The total is an `int`. -/
  tot_lt : totIters<2^31
  /-- At least one iteration per task. -/
  per_pos : 0 < itersPerTask
  /-- The chunk is an `int`. -/
  per_lt : itersPerTask<2^31
  /-- At least one group is reserved. -/
  count_pos : 0<perClusterTaskGroups shift totIters itersPerTask
  /-- The share starts inside the loop: a cluster whose share starts behind it returns before
  `TQ_DESC_POOL_GET`. -/
  starts : perClusterIter shift totIters itersPerTask cluster<totIters

/-- The task groups that a call reserves descriptors for. The last of them may have fewer tasks than
it has descriptors. -/
def Call.count (c : Call) : ℕ := perClusterTaskGroups c.shift c.totIters c.itersPerTask

/-- The task groups that stage 1 writes, with the bounds of their tasks. -/
def Call.groups (c : Call) : List (List (ℕ×ℕ)) :=
  (enqueueBody c.shift c.totIters c.itersPerTask c.cluster).getD []

/-- `per_cluster_iter_start`. -/
def Call.first (c : Call) : ℕ := perClusterIter c.shift c.totIters c.itersPerTask c.cluster

/-- `per_cluster_iter_end`, cut off at the end of the loop. -/
def Call.last (c : Call) : ℕ :=
  min c.totIters (perClusterIter c.shift c.totIters c.itersPerTask (c.cluster+1))

/-- The descriptors that a share needs: its iterations divided by those of a task, rounded up, and
none when its end has wrapped around to before its start. -/
def Call.descriptors (c : Call) : ℕ := (c.last-c.first+(c.itersPerTask-1))/c.itersPerTask

/-- The tasks that stage 1 writes. -/
def Call.tasks (c : Call) : List (ℕ×ℕ) := clusterTasks c.shift c.totIters c.itersPerTask c.cluster

/-- `GLOBAL_tq_head_data` after `TQ_DESC_POOL_GET`. The counter itself is not reduced to the size of
the pool, and wraps around at 2^32. -/
def poolGet (headData : ℕ) (c : Call) : ℕ := (headData+c.count*taskGroupSize%2^32)%2^32

/-- `GLOBAL_tq_head_data` after a sequence of reservations. -/
def headAfter : ℕ → List Call → ℕ
  | headData, [] => headData
  | headData, c::calls => headAfter (poolGet headData c) calls

/-- `tq_base_offset` of a reservation: the old value of the counter, reduced to the size of the
pool. -/
def baseOffset (headData : ℕ) : ℕ := headData%poolSize

/-- `tq_base_offset + tq_group_offset + iter` for all groups and tasks of stage 1. There is no
modulus here. -/
def stageOneIndices (base : ℕ) : ℕ → List (List (ℕ×ℕ)) → List ℕ
  | _, [] => []
  | groupOffset, group::groups =>
    (List.range group.length).map (fun iter => ((base+groupOffset)%2^32+iter)%2^32)++
      stageOneIndices base ((groupOffset+taskGroupSize)%2^32) groups

/-- The descriptor indices that a call writes. -/
def Call.written (c : Call) (headData : ℕ) : List ℕ :=
  stageOneIndices (baseOffset headData) 0 c.groups

/-- The descriptors reserved by a sequence of calls. -/
def reserved (calls : List Call) : ℕ := (calls.map fun c => taskGroupSize*c.count).sum

/-- What the pool promises: indices are inside it, and reservations that fit it together with
those between them are apart. -/
structure PoolSafe (calls : List Call) : Prop where
  /-- Every index is inside the pool. -/
  inside : ∀ before c after, calls=before++c::after →
    ∀ x∈c.written (headAfter 0 before), x < poolSize
  /-- Two reservations are apart. -/
  apart : ∀ before c between d after, calls=before++c::(between++d::after) →
    reserved (c::(between++[d]))≤poolSize → ∀ x∈c.written (headAfter 0 before),
      x∉d.written (headAfter 0 (before++c::between))

/-- All groups but the last are full, so the offsets of groups by eight leave no gap. -/
def Packed : List (List (ℕ×ℕ)) → Prop
  | [] => True
  | group::groups => (groups=[] ∨ group.length=taskGroupSize) ∧ Packed groups

/-- A pass of the inner loop fills its group unless it reaches the end of the share. -/
theorem fillGroup_full (per stop room start : ℕ) :
    (fillGroup per stop room start).1.length=room ∨
      stop≤(fillGroup per stop room start).2 := by
  induction room generalizing start with
  | zero => exact .inl rfl
  | succ room ih =>
    rw [fillGroup]
    by_cases hlt : start < stop
    · rw [if_pos hlt]
      dsimp only
      rcases ih (if stop<(start+per)%2^32 then stop else (start+per)%2^32) with hfull|hend
      · exact .inl (by rw [List.length_cons,hfull])
      · exact .inr hend
    · rw [if_neg hlt]
      exact .inr (Nat.le_of_not_lt hlt)

/-- Stage 1 stops at the end of the share. -/
theorem stageOne_done {per stop start : ℕ} (fuel : ℕ) (h : stop ≤ start) :
    stageOne per stop fuel start=some [] := by
  have hlt : ¬start < stop := Nat.not_lt.2 h
  cases fuel with
  | zero => exact if_neg hlt
  | succ fuel => exact if_neg hlt

/-- The groups of stage 1 are packed. -/
theorem stageOne_packed {per stop fuel start : ℕ} {groups : List (List (ℕ×ℕ))}
    (h : stageOne per stop fuel start=some groups) : Packed groups := by
  induction fuel generalizing start groups with
  | zero =>
    rw [stageOne] at h
    split at h
    · cases h
    · cases h
      trivial
  | succ fuel ih =>
    rw [stageOne] at h
    split at h
    · obtain ⟨rest,hrest,rfl⟩ := Option.map_eq_some_iff.mp h
      refine ⟨?_,ih hrest⟩
      rcases fillGroup_full per stop taskGroupSize start with hfull|hend
      · exact .inr hfull
      · rw [stageOne_done fuel hend] at hrest
        cases hrest
        exact .inl rfl
    · cases h
      trivial

/-- Packed groups are written at consecutive indices, as long as no sum reaches 2^32. The index is
not reduced modulo the pool again. -/
theorem stageOneIndices_eq {base groupOffset : ℕ} {groups : List (List (ℕ×ℕ))}
    (hpacked : Packed groups) (hlt : base+groupOffset+groups.flatten.length<2^32-8) :
    stageOneIndices base groupOffset groups=
      (List.range groups.flatten.length).map (base+groupOffset+·) := by
  induction groups generalizing groupOffset with
  | nil => rfl
  | cons group groups ih =>
    obtain ⟨hfull,hrest⟩ := hpacked
    rw [List.flatten_cons,List.length_append] at hlt ⊢
    have hfirst : (List.range group.length).map
        (fun iter => ((base+groupOffset)%2^32+iter)%2^32)=
        (List.range group.length).map (base+groupOffset+·) := by
      refine List.map_congr_left fun iter hiter => ?_
      have hi := List.mem_range.1 hiter
      omega
    rw [stageOneIndices,hfirst]
    rcases hfull with rfl|hfull
    · rw [List.flatten_nil,List.length_nil,Nat.add_zero]
      exact List.append_nil _
    · have hoff : (groupOffset+taskGroupSize)%2^32=groupOffset+group.length := by
        rw [hfull]
        exact Nat.mod_eq_of_lt (by omega)
      rw [hoff,ih hrest (by omega),List.range_add,List.map_append,List.map_map]
      congr 1
      refine List.map_congr_left fun i _ => ?_
      show base+(groupOffset+group.length)+i=base+groupOffset+(group.length+i)
      omega

/-- The groups of a call are packed. -/
theorem Call.groups_packed (c : Call) : Packed c.groups := by
  unfold groups enqueueBody
  dsimp only
  split
  · trivial
  · cases hs : stageOne c.itersPerTask _ _ _ with
    | none => trivial
    | some groups => exact stageOne_packed hs

/-- Stage 1 writes as many descriptors as the share needs, which is the number that the call has
drawn. -/
theorem Call.tasks_length (c : Call) : c.tasks.length=c.descriptors := by
  have hpos := c.per_pos
  have htot := c.tot_lt
  have hper := c.per_lt
  have hwork : ¬c.totIters ≤ c.first := Nat.not_le.2 c.starts
  have hclamp : (if c.totIters < perClusterIter c.shift c.totIters c.itersPerTask (c.cluster+1)
      then c.totIters else perClusterIter c.shift c.totIters c.itersPerTask (c.cluster+1))=
      c.last := by
    unfold last
    split <;> omega
  have hlast : c.last ≤ c.totIters := Nat.min_le_left _ _
  have htasks : c.tasks=((stageOne c.itersPerTask c.last c.last c.first).getD []).flatten := by
    unfold tasks clusterTasks enqueueBody
    dsimp only
    rw [if_neg (show ¬c.totIters ≤ perClusterIter c.shift c.totIters c.itersPerTask c.cluster
      from hwork),hclamp]
    rfl
  unfold descriptors
  rw [htasks]
  by_cases hnone : c.last ≤ c.first
  · rw [stageOne_done _ hnone,Nat.sub_eq_zero_of_le hnone]
    exact (Nat.div_eq_of_lt (by omega)).symm
  · obtain ⟨groups,hg,ht,hk,hl⟩ := stageOne_spec hpos (by omega : c.last+c.itersPerTask<2^32)
      c.last (by omega : c.first ≤ c.last) (by omega)
    rw [hg,Option.getD_some]
    have hreach := ht.le_length hk
    refine (Nat.div_eq_of_lt_le ?_ ?_).symm
    · omega
    · rw [Nat.add_mul,Nat.one_mul]
      omega

/-- A share needs no more descriptors than are reserved for it, whether or not the products of its
bounds wrap, and no more than there are iterations. -/
theorem Call.descriptors_le (c : Call) : c.descriptors≤taskGroupSize*c.count ∧
    c.descriptors ≤ c.totIters := by
  have hpos := c.per_pos
  have hstop : c.last ≤ c.first+taskGroupSize*c.count*c.itersPerTask := by
    have hnext : c.count*(c.cluster+1)*c.itersPerTask*taskGroupSize=
        c.count*c.cluster*c.itersPerTask*taskGroupSize+
          taskGroupSize*c.count*c.itersPerTask := by ring
    refine (Nat.min_le_right _ _).trans ?_
    show (c.count*(c.cluster+1)*c.itersPerTask*taskGroupSize)%2^32≤
      (c.count*c.cluster*c.itersPerTask*taskGroupSize)%2^32+_
    rw [hnext,Nat.add_mod,←Nat.mod_add_mod,Nat.mod_mod]
    refine le_trans (Nat.mod_le _ _) ?_
    gcongr
    exact Nat.mod_le _ _
  have hshort : c.last-c.first ≤ c.totIters := (Nat.sub_le _ _).trans (Nat.min_le_left _ _)
  constructor
  · refine Nat.lt_succ_iff.1 (Nat.div_lt_of_lt_mul ?_)
    have hmul : c.itersPerTask*(taskGroupSize*c.count+1)=
        taskGroupSize*c.count*c.itersPerTask+c.itersPerTask := by ring
    rw [Nat.succ_eq_add_one,hmul]
    omega
  · refine Nat.lt_succ_iff.1 (Nat.div_lt_of_lt_mul ?_)
    have hmul : c.totIters ≤ c.itersPerTask*c.totIters := Nat.le_mul_of_pos_left _ hpos
    rw [Nat.succ_eq_add_one,Nat.mul_add,Nat.mul_one]
    omega

/-- A call writes consecutive indices from its base on. -/
theorem Call.written_eq (c : Call) (headData : ℕ) :
    c.written headData=(List.range c.descriptors).map (baseOffset headData+·) := by
  have hbase : baseOffset headData<2^18 := Nat.mod_lt _ (Nat.two_pow_pos 18)
  have hdescs := c.descriptors_le.2
  have htot := c.tot_lt
  have hlen : c.groups.flatten.length=c.descriptors := c.tasks_length
  have h : stageOneIndices (baseOffset headData) 0 c.groups=
      (List.range c.groups.flatten.length).map (baseOffset headData+0+·) :=
    stageOneIndices_eq c.groups_packed (by rw [hlen]; omega)
  rw [hlen] at h
  exact h

/-- The base of the next reservation, from all descriptors reserved so far. -/
theorem baseOffset_headAfter (headData : ℕ) (calls : List Call) :
    baseOffset (headAfter headData calls)=(headData+reserved calls)%poolSize := by
  induction calls generalizing headData with
  | nil => rfl
  | cons c calls ih =>
    rw [headAfter,ih]
    have hsum : reserved (c::calls)=taskGroupSize*c.count+reserved calls := List.sum_cons
    rw [hsum]
    unfold poolGet taskGroupSize poolSize
    generalize c.count=k
    generalize reserved calls=r
    omega

/-- Reservations of consecutive sequences. -/
theorem reserved_append (calls calls' : List Call) :
    reserved (calls++calls')=reserved calls+reserved calls' := by
  unfold reserved
  rw [List.map_append,List.sum_append]

/-- Reservations that fit the pool together with those between them are apart, wherever the pool
and the counter wrap. -/
theorem written_apart (before between : List Call) (c d : Call)
    (hfit : reserved (c::(between++[d]))≤poolSize) : ∀ x∈c.written (headAfter 0 before),
      x∉d.written (headAfter 0 (before++c::between)) := by
  have hc := c.descriptors_le.1
  have hd := d.descriptors_le.1
  have htotal : reserved (c::(between++[d]))=
      taskGroupSize*c.count+reserved between+taskGroupSize*d.count := by
    have hone : reserved [d]=taskGroupSize*d.count := List.sum_singleton
    have hcons : reserved (c::(between++[d]))=
        taskGroupSize*c.count+reserved (between++[d]) := List.sum_cons
    rw [hcons,reserved_append,hone,Nat.add_assoc]
  have hbetween : reserved (before++c::between)=
      reserved before+(taskGroupSize*c.count+reserved between) := by
    have hcons : reserved (c::between)=taskGroupSize*c.count+reserved between := List.sum_cons
    rw [reserved_append,hcons]
  rw [htotal] at hfit
  rw [c.written_eq,d.written_eq,baseOffset_headAfter,baseOffset_headAfter,hbetween]
  generalize reserved before=r
  generalize reserved between=b at hfit
  generalize taskGroupSize*c.count=k at hc hfit
  generalize taskGroupSize*d.count=l at hd hfit
  intro x hx hx'
  obtain ⟨i,hi,rfl⟩ := List.mem_map.1 hx
  obtain ⟨j,hj,hij⟩ := List.mem_map.1 hx'
  rw [List.mem_range] at hi hj
  unfold poolSize at hfit hij
  omega

/-- For every sequence of reservations by any clusters in any order: all indices are inside the
pool and reservations are apart exactly when every call finds the descriptors of its share between
its base and the end of the pool. -/
theorem pool_safe_iff (calls : List Call) : PoolSafe calls ↔ ∀ before c after,
    calls=before++c::after → baseOffset (headAfter 0 before)+c.descriptors≤poolSize := by
  constructor
  · intro h before c after he
    by_cases hnone : c.descriptors=0
    · rw [hnone]
      exact le_of_lt (Nat.mod_lt _ (Nat.two_pow_pos 18))
    · -- the last descriptor that is written
      have hlast := h.inside before c after he
        (baseOffset (headAfter 0 before)+(c.descriptors-1)) (by
          rw [c.written_eq]
          exact List.mem_map.2 ⟨c.descriptors-1,List.mem_range.2 (by omega),rfl⟩)
      omega
  · intro h
    refine ⟨?_,fun before c between d after _ hfit => written_apart before between c d hfit⟩
    intro before c after he x hx
    have hfit := h before c after he
    rw [c.written_eq] at hx
    obtain ⟨i,hi,rfl⟩ := List.mem_map.1 hx
    rw [List.mem_range] at hi
    omega

/-- One cluster enqueues a loop of one task per iteration. -/
def loopCall (totIters : ℕ) (h : totIters<2^31) (hc : 0<perClusterTaskGroups 0 totIters 1)
    (hs : perClusterIter 0 totIters 1 0<totIters) : Call :=
  ⟨0,totIters,1,0,h,Nat.one_pos,Nat.one_lt_two_pow (Nat.succ_ne_zero 30),hc,hs⟩

/-- A loop whose descriptors end eight before the end of the pool. -/
def longLoop : Call := loopCall (2^18-8) (by decide) (by decide) (by decide)

/-- A loop of two groups, of which the second finds no place before the end of the pool. -/
def shortLoop : Call := loopCall 16 (by decide) (by decide) (by decide)

/-- After the long loop, the second group of the short one is written past the end of the
pool. -/
theorem reservation_leaves_pool :
    poolSize∈shortLoop.written (headAfter 0 [longLoop]) ∧ ¬PoolSafe [longLoop,shortLoop] := by
  have hbase : baseOffset (headAfter 0 [longLoop])=poolSize-8 := by decide
  have hlen : shortLoop.descriptors=16 := by decide
  have hmem : poolSize∈shortLoop.written (headAfter 0 [longLoop]) := by
    rw [shortLoop.written_eq,hbase,hlen]
    exact List.mem_map.2 ⟨8,by decide,by decide⟩
  exact ⟨hmem,fun h => lt_irrefl _ (h.inside [longLoop] shortLoop [] rfl poolSize hmem)⟩

end RigelTarget.DescriptorPool
