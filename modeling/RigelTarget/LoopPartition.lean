import RigelTarget.IntervalTiling
import Mathlib.Data.Nat.ModEq
import Mathlib.Tactic.Ring
import Mathlib.Tactic.Linarith

/-!
# The iteration space of `SW_TaskQueue_Loop_PARALLEL`

Each cluster computes its share of the iteration space from the total, the
iterations per task and the cluster shift, then cuts it into task descriptors,
eight to a group. All arithmetic is that of the 32-bit source types. The number
of tasks is rounded down while groups and shares are rounded up, so the shares
reach the end of the loop unless the rounded-down task count already fills every
share exactly. Where the descriptors are stored is a separate concern.
-/

namespace RigelTarget.LoopPartition

open IntervalTiling

/-- `__DEFAULT_TASK_GROUP_SIZE`. -/
abbrev taskGroupSize : ℕ := 8

/-- The value of a 32-bit `int` that holds `z`, by its remainder between the least and the greatest
one. -/
def asInt (z : ℤ) : ℤ := (z+2^31)%2^32-2^31

/-- The value of a 32-bit `unsigned int` that holds `z`. -/
def asUnsigned (z : ℤ) : ℕ := (z%2^32).toNat

/-- The `switch` over `iters_per_task`, whose special cases are shifts. All of them round down. -/
def totTasks (totIters itersPerTask : ℕ) : ℕ :=
  match itersPerTask with
  | 1 => totIters
  | 2 => totIters>>>1
  | 4 => totIters>>>2
  | 8 => totIters>>>3
  | _ => totIters/itersPerTask

/-- `(tot_tasks + __DEFAULT_TASK_GROUP_SIZE - 1) / __DEFAULT_TASK_GROUP_SIZE`,
computed as `int` and stored as `unsigned int`. -/
def taskGroupsTotal (totIters itersPerTask : ℕ) : ℕ :=
  asUnsigned ((asInt (totTasks totIters itersPerTask+taskGroupSize-1)).tdiv taskGroupSize)

/-- `(task_groups_total + GLOBAL_numclusters - 1) >> GLOBAL_numclusters_SHIFT`
on a machine with `2^shift` clusters. -/
def perClusterTaskGroups (shift totIters itersPerTask : ℕ) : ℕ :=
  ((taskGroupsTotal totIters itersPerTask+2^shift-1)%2^32)>>>shift

/-- `per_cluster_task_groups * cluster * iters_per_task * 8` in 32 bits. The
share of a cluster runs from its own product to that of the next cluster. -/
def perClusterIter (shift totIters itersPerTask cluster : ℕ) : ℕ :=
  (perClusterTaskGroups shift totIters itersPerTask*cluster*itersPerTask*taskGroupSize)%2^32

/-- One pass of the inner loop of stage 1: at most `room` tasks from `start`.
Returns the task bounds and the advanced start. -/
def fillGroup (itersPerTask stop : ℕ) : ℕ → ℕ → List (ℕ×ℕ)×ℕ
  | 0, start => ([],start)
  | room+1, start =>
    if start < stop then
      let advanced := (start+itersPerTask)%2^32
      let moved := if stop<advanced then stop else advanced
      let rest := fillGroup itersPerTask stop room moved
      ((start,moved)::rest.1,rest.2)
    else ([],start)

/-- The outer loop of stage 1, one group per pass; `none` when the fuel does
not suffice. -/
def stageOne (itersPerTask stop : ℕ) : ℕ → ℕ → Option (List (List (ℕ×ℕ)))
  | 0, start => if start < stop then none else some []
  | fuel+1, start =>
    if start < stop then
      let group := fillGroup itersPerTask stop taskGroupSize start
      (stageOne itersPerTask stop fuel group.2).map (group.1::·)
    else some []

/-- The task groups of one cluster: nothing when its share starts past the end,
otherwise stage 1 up to the clamped end of the share. -/
def enqueueBody (shift totIters itersPerTask cluster : ℕ) : Option (List (List (ℕ×ℕ))) :=
  let start := perClusterIter shift totIters itersPerTask cluster
  let stop := perClusterIter shift totIters itersPerTask (cluster+1)
  if totIters ≤ start then some []
  else
    let stop := if totIters < stop then totIters else stop
    stageOne itersPerTask stop stop start

/-- All task bounds of one cluster, in the order they are written. -/
def clusterTasks (shift totIters itersPerTask cluster : ℕ) : List (ℕ×ℕ) :=
  ((enqueueBody shift totIters itersPerTask cluster).getD []).flatten

/-- The task bounds of all clusters. -/
def allTasks (shift totIters itersPerTask : ℕ) : List (ℕ×ℕ) :=
  (List.range (2^shift)).flatMap (clusterTasks shift totIters itersPerTask)

/-- The largest of the products, that of the end of the last share, fits 32 bits. The others are
smaller. -/
def NoProductOverflow (shift totIters itersPerTask : ℕ) : Prop :=
  perClusterTaskGroups shift totIters itersPerTask*2^shift*itersPerTask*taskGroupSize<2^32

instance (shift totIters itersPerTask : ℕ) :
    Decidable (NoProductOverflow shift totIters itersPerTask) :=
  inferInstanceAs (Decidable (_<_))

/-- What the loop enqueue is for: every cluster finishes, tasks are short,
nonempty and disjoint, together they are the iteration space, and no cluster
writes more descriptors than it reserved. -/
structure CoversIterations (shift totIters itersPerTask : ℕ) : Prop where
  /-- Stage 1 of every cluster ends. -/
  finishes : ∀ c<2^shift, (enqueueBody shift totIters itersPerTask c).isSome=true
  /-- Every task has between one and `iters_per_task` iterations. -/
  length : ∀ k∈allTasks shift totIters itersPerTask, k.1<k.2 ∧ k.2-k.1 ≤ itersPerTask
  /-- Tasks of the same or of different clusters are disjoint. -/
  disjoint : (allTasks shift totIters itersPerTask).Pairwise fun k l => k.2≤l.1 ∨ l.2≤k.1
  /-- Exactly the iterations below `tot_iters` belong to a task. -/
  union : ∀ i, (∃ k∈allTasks shift totIters itersPerTask, k.1 ≤ i ∧ i<k.2) ↔ i<totIters
  /-- At most as many descriptors as `TQ_DESC_POOL_GET` reserved. -/
  reserved : ∀ c<2^shift, (clusterTasks shift totIters itersPerTask c).length≤
    taskGroupSize*perClusterTaskGroups shift totIters itersPerTask

/-- The shifts of the `switch` are the division they replace. -/
theorem totTasks_eq (totIters itersPerTask : ℕ) :
    totTasks totIters itersPerTask=totIters/itersPerTask := by
  unfold totTasks
  split
  · exact (Nat.div_one _).symm
  · exact Nat.shiftRight_eq_div_pow _ 1
  · exact Nat.shiftRight_eq_div_pow _ 2
  · exact Nat.shiftRight_eq_div_pow _ 3
  · rfl

/-- Without overflow of the sum the group count is rounded up. -/
theorem taskGroupsTotal_eq {totIters itersPerTask : ℕ}
    (h : totTasks totIters itersPerTask+7<2^31) :
    taskGroupsTotal totIters itersPerTask=(totTasks totIters itersPerTask+7)/8 := by
  unfold taskGroupsTotal asUnsigned asInt taskGroupSize
  generalize totTasks totIters itersPerTask=t at h ⊢
  have hs : (((t : ℤ)+((8 : ℕ) : ℤ)-1+2^31)%2^32-2^31)=((t+7 : ℕ) : ℤ) := by
    push_cast
    omega
  rw [hs,←Int.ofNat_tdiv]
  omega

/-- An overflow of the sum leaves a huge unsigned group count. -/
theorem taskGroupsTotal_overflow {totIters itersPerTask : ℕ}
    (hlt : totTasks totIters itersPerTask<2^31)
    (h : 2^31≤totTasks totIters itersPerTask+7) :
    2^32-2^28≤taskGroupsTotal totIters itersPerTask ∧
      taskGroupsTotal totIters itersPerTask≤2^32-2^28+1 := by
  unfold taskGroupsTotal asUnsigned asInt taskGroupSize
  generalize totTasks totIters itersPerTask=t at h hlt ⊢
  have hs : (((t : ℤ)+((8 : ℕ) : ℤ)-1+2^31)%2^32-2^31)= -((2^32-(t+7) : ℕ) : ℤ) := by
    push_cast
    omega
  rw [hs,Int.neg_tdiv,←Int.ofNat_tdiv]
  omega

/-- Both roundings together divide the task count by the descriptors of one
round of groups over all clusters, rounded up. -/
theorem perClusterTaskGroups_eq {shift totIters itersPerTask : ℕ} (hs : shift≤30)
    (h : totTasks totIters itersPerTask+7<2^31) :
    perClusterTaskGroups shift totIters itersPerTask=
      (totTasks totIters itersPerTask+(8*2^shift-1))/(8*2^shift) := by
  unfold perClusterTaskGroups
  rw [taskGroupsTotal_eq h]
  have hp : 2^shift≤2^30 := Nat.pow_le_pow_right (by decide) hs
  have hpos : 0<2^shift := Nat.two_pow_pos shift
  rw [Nat.shiftRight_eq_div_pow]
  generalize totTasks totIters itersPerTask=t at h ⊢
  generalize 2^shift=n at hp hpos ⊢
  have hsum : (t+7)/8+n-1=(t+(8*n-1))/8 := by omega
  have hlt : (t+(8*n-1))/8<2^32 := by omega
  rw [hsum,Nat.mod_eq_of_lt hlt,Nat.div_div_eq_div_mul]

/-- Without overflow every product is the exact share bound. -/
theorem perClusterIter_eq {shift totIters itersPerTask c : ℕ}
    (h : NoProductOverflow shift totIters itersPerTask) (hc : c≤2^shift) :
    perClusterIter shift totIters itersPerTask c=
      perClusterTaskGroups shift totIters itersPerTask*c*itersPerTask*taskGroupSize := by
  unfold perClusterIter
  refine Nat.mod_eq_of_lt (lt_of_le_of_lt ?_ h)
  gcongr

/-- One pass of the inner loop tiles up to where it stops, with full tasks
unless it reached the end of the share. -/
theorem fillGroup_spec {itersPerTask stop : ℕ} (hpos : 0 < itersPerTask)
    (hstop : stop+itersPerTask<2^32) (room : ℕ) {start : ℕ} (hstart : start ≤ stop) :
    let group := fillGroup itersPerTask stop room start
    Tiles group.2 start group.1 ∧ group.2 ≤ stop ∧
      (∀ k∈group.1, k.2-k.1 ≤ itersPerTask) ∧
      (group.2=stop ∧ group.1.length*itersPerTask < stop-start+itersPerTask ∨
        group.2=start+room*itersPerTask ∧ group.1.length=room) := by
  induction room generalizing start with
  | zero =>
    simp only [fillGroup]
    refine ⟨rfl,hstart,?_,.inr ⟨by omega,rfl⟩⟩
    intro k hk
    cases hk
  | succ room ih =>
    simp only [fillGroup]
    by_cases hlt : start < stop
    · rw [if_pos hlt,Nat.mod_eq_of_lt (by omega : start+itersPerTask<2^32)]
      dsimp only
      by_cases hover : stop < start+itersPerTask
      · rw [if_pos hover]
        obtain ⟨ht,hle,hk,hend⟩ := ih (le_refl stop)
        -- the clamped task is the last one: the rest starts at the end
        have hend' : (fillGroup itersPerTask stop room stop).2=stop := by
          have := ht.le
          omega
        have hempty : (fillGroup itersPerTask stop room stop).1=[] := by
          rcases hl : (fillGroup itersPerTask stop room stop).1 with _|⟨k,ks⟩
          · rfl
          · rw [hl] at ht
            have h1 := ht.2.1
            have h2 := ht.2.2.le
            omega
        rw [hempty,hend']
        refine ⟨⟨rfl,hlt,rfl⟩,le_refl _,?_,.inl ⟨rfl,?_⟩⟩
        · intro k hk
          rw [List.mem_singleton] at hk
          subst hk
          dsimp only
          omega
        · rw [List.length_singleton]
          omega
      · rw [if_neg hover]
        obtain ⟨ht,hle,hk,hend⟩ := ih (by omega : start+itersPerTask ≤ stop)
        refine ⟨⟨rfl,by dsimp only; omega,ht⟩,hle,?_,?_⟩
        · intro k hm
          rcases List.mem_cons.mp hm with rfl|hm
          · dsimp only
            omega
          · exact hk k hm
        · rw [List.length_cons]
          rcases hend with ⟨h1,h2⟩|⟨h1,h2⟩
          · refine .inl ⟨h1,?_⟩
            rw [Nat.add_mul]
            omega
          · refine .inr ⟨?_,by rw [h2]⟩
            rw [h1,Nat.add_mul]
            omega
    · rw [if_neg hlt]
      have he : start=stop := by omega
      subst he
      refine ⟨rfl,le_refl _,?_,.inl ⟨rfl,?_⟩⟩
      · intro k hk
        cases hk
      · rw [List.length_nil]
        omega

/-- Stage 1 ends with as much fuel as iterations remain; its tasks tile the
share and all but the last are full. -/
theorem stageOne_spec {itersPerTask stop : ℕ} (hpos : 0 < itersPerTask)
    (hstop : stop+itersPerTask<2^32) (fuel : ℕ) {start : ℕ} (hstart : start ≤ stop)
    (hfuel : stop-start≤fuel) :
    ∃ groups, stageOne itersPerTask stop fuel start=some groups ∧
      Tiles stop start groups.flatten ∧ (∀ k∈groups.flatten, k.2-k.1 ≤ itersPerTask) ∧
      groups.flatten.length*itersPerTask < stop-start+itersPerTask := by
  induction fuel generalizing start with
  | zero =>
    have he : start=stop := by omega
    subst he
    refine ⟨[],by simp [stageOne],rfl,?_,?_⟩
    · intro k hk
      cases hk
    · rw [List.flatten_nil,List.length_nil]
      omega
  | succ fuel ih =>
    simp only [stageOne]
    by_cases hlt : start < stop
    · rw [if_pos hlt]
      obtain ⟨ht,hle,hk,hend⟩ := fillGroup_spec hpos hstop taskGroupSize hstart
      have hmore : start<(fillGroup itersPerTask stop taskGroupSize start).2 := by
        rcases hend with ⟨h1,_⟩|⟨h1,_⟩
        · omega
        · have : 0<taskGroupSize*itersPerTask := Nat.mul_pos (by decide) hpos
          omega
      obtain ⟨groups,hg,hgt,hgk,hgl⟩ := ih hle (by omega)
      refine ⟨_::groups,by rw [hg]; rfl,?_,?_,?_⟩
      · rw [List.flatten_cons]
        exact ht.append hgt
      · intro k hm
        rw [List.flatten_cons,List.mem_append] at hm
        rcases hm with hm|hm
        · exact hk k hm
        · exact hgk k hm
      · rw [List.flatten_cons,List.length_append,Nat.add_mul]
        rcases hend with ⟨h1,h2⟩|⟨h1,h2⟩
        · rw [h1] at hgt hgl
          rcases hl : groups.flatten with _|⟨k,ks⟩
          · rw [List.length_nil]
            omega
          · rw [hl] at hgt
            have h3 := hgt.2.1
            have h4 := hgt.2.2.le
            omega
        · rw [h2]
          omega
    · rw [if_neg hlt]
      have he : start=stop := by omega
      subst he
      refine ⟨[],rfl,rfl,?_,?_⟩
      · intro k hk
        cases hk
      · rw [List.flatten_nil,List.length_nil]
        omega

/-- The bounds between the shares, clamped to the iteration space. -/
def shareBound (shift totIters itersPerTask c : ℕ) : ℕ :=
  min totIters (perClusterTaskGroups shift totIters itersPerTask*c*itersPerTask*taskGroupSize)

/-- One cluster finishes, tiles its clamped share with short tasks and stays
within its reservation. -/
theorem enqueueBody_spec {shift totIters itersPerTask c : ℕ} (htot : totIters<2^31)
    (hpos : 0 < itersPerTask) (hiters : itersPerTask<2^31)
    (h : NoProductOverflow shift totIters itersPerTask) (hc : c<2^shift) :
    (enqueueBody shift totIters itersPerTask c).isSome=true ∧
      Tiles (shareBound shift totIters itersPerTask (c+1))
        (shareBound shift totIters itersPerTask c) (clusterTasks shift totIters itersPerTask c) ∧
      (∀ k∈clusterTasks shift totIters itersPerTask c, k.2-k.1 ≤ itersPerTask) ∧
      (clusterTasks shift totIters itersPerTask c).length≤
        taskGroupSize*perClusterTaskGroups shift totIters itersPerTask := by
  have hnext : perClusterTaskGroups shift totIters itersPerTask*(c+1)*itersPerTask*taskGroupSize=
      perClusterTaskGroups shift totIters itersPerTask*c*itersPerTask*taskGroupSize+
        taskGroupSize*perClusterTaskGroups shift totIters itersPerTask*itersPerTask := by ring
  have hfirst := perClusterIter_eq h hc.le
  have hlast := perClusterIter_eq h hc
  unfold clusterTasks enqueueBody shareBound
  dsimp only
  rw [hfirst,hlast]
  generalize perClusterTaskGroups shift totIters itersPerTask*c*itersPerTask*taskGroupSize=start
    at hnext ⊢
  generalize perClusterTaskGroups shift totIters itersPerTask*(c+1)*itersPerTask*taskGroupSize=
    stop at hnext ⊢
  by_cases hwork : totIters ≤ start
  · rw [if_pos hwork]
    refine ⟨rfl,?_,?_,?_⟩
    · change min totIters start=min totIters stop
      omega
    · intro k hk
      cases hk
    · exact Nat.zero_le _
  · rw [if_neg hwork]
    have hclamp : (if totIters < stop then totIters else stop)=min totIters stop := by
      split <;> omega
    rw [hclamp]
    obtain ⟨groups,hg,ht,hk,hl⟩ := stageOne_spec hpos
      (by omega : min totIters stop+itersPerTask<2^32) (min totIters stop)
      (by omega : start ≤ min totIters stop) (by omega)
    rw [hg,Option.getD_some]
    refine ⟨rfl,?_,hk,?_⟩
    · rw [show min totIters start=start by omega]
      exact ht
    · have hbound : groups.flatten.length*itersPerTask<
          (taskGroupSize*perClusterTaskGroups shift totIters itersPerTask+1)*itersPerTask := by
        rw [Nat.add_mul,Nat.one_mul]
        omega
      exact Nat.lt_succ_iff.mp (Nat.lt_of_mul_lt_mul_right hbound)

/-- All clusters together tile the iteration space up to the last share. -/
theorem allTasks_tiles {shift totIters itersPerTask : ℕ} (htot : totIters<2^31)
    (hpos : 0 < itersPerTask) (hiters : itersPerTask<2^31)
    (h : NoProductOverflow shift totIters itersPerTask) :
    Tiles (shareBound shift totIters itersPerTask (2^shift)) 0
      (allTasks shift totIters itersPerTask) := by
  have hzero : shareBound shift totIters itersPerTask 0=0 := by simp [shareBound]
  have ht : Tiles (shareBound shift totIters itersPerTask (2^shift))
      (shareBound shift totIters itersPerTask 0) (allTasks shift totIters itersPerTask) :=
    Tiles.flatMap_range fun c hc => (enqueueBody_spec htot hpos hiters h hc).2.1
  rwa [hzero] at ht

/-- The loop is covered exactly when the last share reaches its end, since the shares follow each
other without gaps. -/
theorem coversIterations_iff_share {shift totIters itersPerTask : ℕ} (htot : totIters<2^31)
    (hpos : 0 < itersPerTask) (hiters : itersPerTask<2^31)
    (h : NoProductOverflow shift totIters itersPerTask) :
    CoversIterations shift totIters itersPerTask ↔
      totIters≤perClusterTaskGroups shift totIters itersPerTask*2^shift*itersPerTask*
        taskGroupSize := by
  have ht := allTasks_tiles htot hpos hiters h
  constructor
  · intro hcov
    by_contra hlt
    have hlast := (hcov.union (totIters-1)).mpr (by omega)
    have := ((ht.mem_iff _).mp hlast).2
    unfold shareBound at this
    omega
  · intro hle
    have hend : shareBound shift totIters itersPerTask (2^shift)=totIters := by
      unfold shareBound
      omega
    rw [hend] at ht
    refine ⟨fun c hc => (enqueueBody_spec htot hpos hiters h hc).1,?_,?_,?_,
      fun c hc => (enqueueBody_spec htot hpos hiters h hc).2.2.2⟩
    · intro k hk
      refine ⟨ht.nonempty hk,?_⟩
      obtain ⟨c,hc,hk⟩ := List.mem_flatMap.mp hk
      exact (enqueueBody_spec htot hpos hiters h (List.mem_range.mp hc)).2.2.1 k hk
    · exact ht.pairwise.imp fun hkl => .inl hkl
    · intro i
      rw [ht.mem_iff i]
      omega

/-- Rounding up to whole rounds of groups reaches the end of the loop unless the
rounded-down task count is such a multiple and iterations remain. -/
theorem rounds_reach_iff (totIters : ℕ) {itersPerTask round : ℕ} (hpos : 0 < itersPerTask)
    (hround : 0 < round) :
    totIters≤(totIters/itersPerTask+(round-1))/round*round*itersPerTask ↔
      (round∣totIters/itersPerTask → itersPerTask∣totIters) := by
  have hdiv := Nat.div_add_mod totIters itersPerTask
  have hmod := Nat.mod_lt totIters hpos
  generalize totIters/itersPerTask=t at hdiv ⊢
  by_cases hd : round∣t
  · obtain ⟨q,rfl⟩ := hd
    have hq : (round*q+(round-1))/round=q := by
      rw [Nat.mul_add_div hround,Nat.div_eq_of_lt (by omega),Nat.add_zero]
    rw [hq,Nat.mul_comm q round]
    constructor
    · intro hle _
      refine Nat.dvd_of_mod_eq_zero ?_
      have hcomm := Nat.mul_comm itersPerTask (round*q)
      omega
    · intro hdvd
      have hz := Nat.mod_eq_zero_of_dvd (hdvd ⟨q,rfl⟩)
      have hcomm := Nat.mul_comm itersPerTask (round*q)
      omega
  · have hup : t+1≤(t+(round-1))/round*round := by
      have h1 := Nat.div_add_mod (t+(round-1)) round
      have h2 := Nat.mod_lt (t+(round-1)) hround
      have h3 := Nat.mul_comm round ((t+(round-1))/round)
      by_contra hlt
      refine hd ⟨(t+(round-1))/round,?_⟩
      omega
    refine ⟨fun _ hdvd => absurd hdvd hd,fun _ => ?_⟩
    have hmul := Nat.mul_le_mul_right itersPerTask hup
    rw [Nat.add_mul,Nat.one_mul,Nat.mul_comm t itersPerTask] at hmul
    omega

/-- If the task count plus seven overflows `int` and yet no product overflows,
no cluster gets any group. -/
theorem perClusterTaskGroups_overflow {shift totIters itersPerTask : ℕ} (hs : shift≤30)
    (hpos : 0 < itersPerTask) (h : NoProductOverflow shift totIters itersPerTask)
    (hlt : totTasks totIters itersPerTask<2^31)
    (hover : 2^31≤totTasks totIters itersPerTask+7) :
    perClusterTaskGroups shift totIters itersPerTask=0 := by
  obtain ⟨hlo,hhi⟩ := taskGroupsTotal_overflow hlt hover
  have hp : 2^shift≤2^30 := Nat.pow_le_pow_right (by decide) hs
  have hpow : 0<2^shift := Nat.two_pow_pos shift
  have hprod : perClusterTaskGroups shift totIters itersPerTask*2^shift*8<2^32 := by
    refine lt_of_le_of_lt ?_ h
    have hle := Nat.mul_le_mul_left
      (perClusterTaskGroups shift totIters itersPerTask*2^shift) hpos
    exact Nat.mul_le_mul_right 8 (by simpa using hle)
  unfold perClusterTaskGroups at hprod ⊢
  rw [Nat.shiftRight_eq_div_pow] at hprod ⊢
  generalize taskGroupsTotal totIters itersPerTask=g at *
  generalize 2^shift=n at *
  have hdiv := Nat.div_add_mod ((g+n-1)%2^32) n
  have hmod := Nat.mod_lt ((g+n-1)%2^32) hpow
  have hcomm := Nat.mul_comm n ((g+n-1)%2^32/n)
  by_cases hwrap : g+n-1<2^32
  · rw [Nat.mod_eq_of_lt hwrap] at *
    omega
  · have hsmall : (g+n-1)%2^32<n := by omega
    exact Nat.div_eq_of_lt hsmall

/-- On `2^shift` clusters, where no product overflows, the loop enqueue covers
the iteration space exactly when the task count can be rounded up in an `int`
and the rounded-down task count is not a multiple of the eight tasks of one
group on every cluster, or nothing was lost by rounding it down. -/
theorem loop_parallel_covers_iff {shift totIters itersPerTask : ℕ} (hs : shift≤30)
    (htot : totIters<2^31) (hpos : 0 < itersPerTask) (hiters : itersPerTask<2^31)
    (h : NoProductOverflow shift totIters itersPerTask) :
    CoversIterations shift totIters itersPerTask ↔
      totIters/itersPerTask+7<2^31 ∧
        (8*2^shift∣totIters/itersPerTask → itersPerTask∣totIters) := by
  rw [coversIterations_iff_share htot hpos hiters h]
  by_cases hover : totTasks totIters itersPerTask+7<2^31
  · rw [perClusterTaskGroups_eq hs hover,totTasks_eq]
    rw [totTasks_eq] at hover
    have hreach := rounds_reach_iff totIters hpos
      (Nat.mul_pos (by decide) (Nat.two_pow_pos shift) : 0<8*2^shift)
    have hcomm : (totIters/itersPerTask+(8*2^shift-1))/(8*2^shift)*2^shift*itersPerTask*
        taskGroupSize=(totIters/itersPerTask+(8*2^shift-1))/(8*2^shift)*(8*2^shift)*
          itersPerTask := by ring
    rw [hcomm,hreach]
    exact ⟨fun hd => ⟨hover,hd⟩,fun hd => hd.2⟩
  · have hlt : totTasks totIters itersPerTask<2^31 := by
      rw [totTasks_eq]
      exact lt_of_le_of_lt (Nat.div_le_self _ _) htot
    rw [perClusterTaskGroups_overflow hs hpos h hlt (by omega)]
    rw [totTasks_eq] at hover hlt
    have hlarge : totIters/itersPerTask≤totIters := Nat.div_le_self _ _
    constructor
    · intro hle
      omega
    · intro hd
      exact absurd hd.1 hover

/-- One hundred iterations in tasks of three on four clusters are covered. -/
theorem loop_parallel_covers_hundred :
    NoProductOverflow 2 100 3 ∧ CoversIterations 2 100 3 :=
  ⟨by decide,(loop_parallel_covers_iff (by decide) (by decide) (by decide) (by decide)
    (by decide)).mpr (by decide)⟩

/-- Seventeen iterations in tasks of two on one cluster: no product overflows,
and the last iteration belongs to no task. -/
theorem loop_parallel_loses_iteration :
    NoProductOverflow 0 17 2 ∧ ¬CoversIterations 0 17 2 := by
  refine ⟨by decide,?_⟩
  intro hcov
  have hlast := (hcov.union 16).mpr (by decide)
  revert hlast
  decide

end RigelTarget.LoopPartition
