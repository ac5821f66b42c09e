import Mathlib.Data.Finset.Card
import Mathlib.Data.Fintype.Prod
import Mathlib.Tactic.Common

/-!
# A two-level combining barrier

Members of clusters arrive one by one. The last arrival of a cluster counts the
cluster, and the last cluster to be counted wakes everybody, which starts the next
episode with nobody arrived. The invariant ties the number of arrivals of each cluster
and the number of counted clusters to the stages of the members. It says that a waker
has everybody else waiting, and that the members cannot all be waiting.
-/

namespace RigelTarget.CombiningBarrier

/-- How far a member is in the current episode: it has not arrived, it waits or has still to count
its cluster, or it wakes the others as the last of all. -/
inductive Stage where
  /-- It has not arrived. -/
  | away
  /-- It has arrived and has nothing left to do. -/
  | waiting
  /-- It arrived last in its cluster and has to count the cluster. -/
  | counting
  /-- It counted the last cluster and has to wake everybody. -/
  | waking
  deriving DecidableEq

variable {C J : Type} [Fintype C] [Fintype J]

/-- The members of a cluster that have arrived. The count of the cluster is their number. -/
def arrived (stage : C×J → Stage) (c : C) : Finset J :=
  Finset.univ.filter fun j => stage (c,j)≠.away

/-- The clusters in which all have arrived and nobody has to count. The global count is their
number. -/
def complete (stage : C×J → Stage) : Finset C :=
  Finset.univ.filter fun c => (∀ j, stage (c,j)≠.away) ∧ ∀ j, stage (c,j)≠.counting

/-- Arrivals and counted clusters follow from the stages: the last member of a cluster counts it,
and the last cluster's member wakes the others. -/
structure Inv (stage : C×J → Stage) (arrivals : C → ℕ) (counted : ℕ) : Prop where
  /-- The arrivals of each cluster. -/
  arrivals : ∀ c, arrivals c=(arrived stage c).card
  /-- The counted clusters. -/
  counted : counted=(complete stage).card
  /-- A cluster that is about to be counted has everybody. -/
  counting : ∀ c j, stage (c,j)=.counting → ∀ k, stage (c,k)≠.away
  /-- One member counts its cluster. -/
  single : ∀ c j k, stage (c,j)=.counting → stage (c,k)=.counting → j=k
  /-- Everybody is woken when all clusters are counted. -/
  waking : complete stage=Finset.univ ↔ ∃ t, stage t=.waking
  /-- One member wakes. -/
  unique : ∀ t u, stage t=.waking → stage u=.waking → t=u

variable {stage : C×J → Stage} {arrivals : C → ℕ} {counted : ℕ}

omit [Fintype C] in
/-- A member that has arrived. -/
theorem mem_arrived {c : C} {j : J} : j∈arrived stage c ↔ stage (c,j)≠.away := by
  simp only [arrived,Finset.mem_filter,Finset.mem_univ,true_and]

/-- A cluster that is complete. -/
theorem mem_complete {c : C} : c∈complete stage ↔
    (∀ j, stage (c,j)≠.away) ∧ ∀ j, stage (c,j)≠.counting := by
  simp only [complete,Finset.mem_filter,Finset.mem_univ,true_and]

/-- Between episodes nobody has arrived, so that the counts may start again from nothing. This is
where a barrier is used again. -/
theorem Inv.idle [Nonempty C] [Nonempty J] (h : ∀ t, stage t=.away) :
    Inv stage (fun _ => 0) 0 := by
  have hcomplete : complete stage=∅ := by
    refine Finset.filter_eq_empty_iff.mpr fun c _ hc => ?_
    obtain ⟨j⟩ := (inferInstance : Nonempty J)
    exact hc.1 j (h (c,j))
  refine ⟨?_,?_,?_,?_,?_,?_⟩
  · intro c
    have hnone : arrived stage c=∅ := Finset.filter_eq_empty_iff.mpr fun j _ hj => hj (h (c,j))
    rw [hnone,Finset.card_empty]
  · rw [hcomplete,Finset.card_empty]
  · intro c j hj
    rw [h (c,j)] at hj
    cases hj
  · intro c j k hj
    rw [h (c,j)] at hj
    cases hj
  · rw [hcomplete]
    refine ⟨fun he => ?_,?_⟩
    · obtain ⟨c⟩ := (inferInstance : Nonempty C)
      have hc := Finset.mem_univ c
      rw [←he] at hc
      exact absurd hc (Finset.notMem_empty c)
    · rintro ⟨t,ht⟩
      rw [h t] at ht
      cases ht
  · intro t u ht
    rw [h t] at ht
    cases ht

/-- Whether all members of a cluster have arrived shows in the number of arrivals. -/
theorem Inv.full_iff [DecidableEq J] (h : Inv stage arrivals counted) (c : C) :
    arrivals c=Fintype.card J ↔ ∀ j, stage (c,j)≠.away := by
  rw [h.arrivals c,Finset.card_eq_iff_eq_univ,Finset.eq_univ_iff_forall]
  exact forall_congr' fun j => mem_arrived

/-- Whether all clusters are counted shows in their number. -/
theorem Inv.counted_iff (h : Inv stage arrivals counted) :
    counted=Fintype.card C ↔ ∃ t, stage t=.waking := by
  rw [h.counted,Finset.card_eq_iff_eq_univ]
  exact h.waking

/-- The waker has everybody else waiting. -/
theorem Inv.others_wait (h : Inv stage arrivals counted) {t : C×J} (ht : stage t=.waking) {u : C×J}
    (hu : u≠t) : stage u=.waiting := by
  obtain ⟨c,j⟩ := u
  have hall := h.waking.2 ⟨t,ht⟩
  have hc : c∈complete stage := by
    rw [hall]
    exact Finset.mem_univ c
  obtain ⟨haway,hcount⟩ := mem_complete.1 hc
  cases hs : stage (c,j) with
  | away => exact absurd hs (haway j)
  | waiting => rfl
  | counting => exact absurd hs (hcount j)
  | waking => exact absurd (h.unique _ _ hs ht) hu

/-- The members are not all waiting. -/
theorem Inv.not_all_waiting (h : Inv stage arrivals counted) : ¬∀ t, stage t=.waiting := by
  intro hall
  have hcomplete : complete stage=Finset.univ := by
    refine Finset.eq_univ_iff_forall.mpr fun c => mem_complete.2 ⟨?_,?_⟩
    · intro j
      rw [hall (c,j)]
      exact fun h => by cases h
    · intro j
      rw [hall (c,j)]
      exact fun h => by cases h
  obtain ⟨t,ht⟩ := h.waking.1 hcomplete
  rw [hall t] at ht
  cases ht

/-- The waker and everybody who waits have arrived, so every cluster is full. -/
theorem Inv.full_of_waking [DecidableEq J] (h : Inv stage arrivals counted) {t : C×J}
    (ht : stage t=.waking)
    (c : C) : arrivals c=Fintype.card J := by
  refine (h.full_iff c).2 fun j hj => ?_
  have hne : (c,j)≠t := by
    intro he
    rw [he,ht] at hj
    cases hj
  rw [h.others_wait ht hne] at hj
  cases hj

/-- A member that has not arrived leaves room among the arrivals. -/
theorem Inv.room [DecidableEq J] (h : Inv stage arrivals counted) {c : C} {j : J}
    (ha : stage (c,j)=.away) :
    arrivals c<Fintype.card J := by
  have hle : arrivals c≤Fintype.card J := by
    rw [h.arrivals c]
    exact Finset.card_le_univ _
  have hne : arrivals c≠Fintype.card J := fun he => (h.full_iff c).1 he j ha
  omega

/-- A cluster that is not counted yet leaves room among the counted ones. -/
theorem Inv.room_counted (h : Inv stage arrivals counted) {c : C} {j : J}
    (hc : stage (c,j)=.counting) : counted<Fintype.card C := by
  rw [h.counted]
  refine Finset.card_lt_univ_of_notMem (x := c) ?_
  intro hmem
  exact (mem_complete.1 hmem).2 j hc

/-- The stage of a member after its arrival. -/
def arrivedStage (J : Type) [Fintype J] (arrivals : ℕ) : Stage :=
  if arrivals=Fintype.card J then .counting else .waiting

/-- The stage of a member after it counted its cluster. -/
def countedStage (C : Type) [Fintype C] (counted : ℕ) : Stage :=
  if counted=Fintype.card C then .waking else .waiting

/-- The stage after an arrival is not away and not waking. -/
theorem arrivedStage_ne (k : ℕ) : arrivedStage J k≠.away ∧ arrivedStage J k≠.waking := by
  unfold arrivedStage
  split
  · exact ⟨(fun h => by cases h),(fun h => by cases h)⟩
  · exact ⟨(fun h => by cases h),(fun h => by cases h)⟩

variable [DecidableEq C] [DecidableEq J]

/-- A member arrives. It waits unless it is the last of its cluster, which then has to be
counted. -/
theorem Inv.arrive (h : Inv stage arrivals counted) {c : C} {j : J} (ha : stage (c,j)=.away) :
    Inv (Function.update stage (c,j) (arrivedStage J (arrivals c+1)))
      (Function.update arrivals c (arrivals c+1)) counted := by
  obtain ⟨hnotaway,hnotwaking⟩ := arrivedStage_ne (J := J) (arrivals c+1)
  have hself : Function.update stage (c,j) (arrivedStage J (arrivals c+1)) (c,j)=
      arrivedStage J (arrivals c+1) := Function.update_self ..
  have hother : ∀ t, t≠(c,j) →
      Function.update stage (c,j) (arrivedStage J (arrivals c+1)) t=stage t :=
    fun t ht => Function.update_of_ne ht _ _
  -- the cluster becomes full exactly when the new stage is counting
  have hfull : (∀ k, k≠j → stage (c,k)≠.away) ↔ arrivals c+1=Fintype.card J := by
    have hcard : (arrived stage c).card+1=(insert j (arrived stage c)).card := by
      rw [Finset.card_insert_of_notMem]
      rw [mem_arrived]
      exact fun h => h ha
    rw [h.arrivals c,hcard,Finset.card_eq_iff_eq_univ,Finset.eq_univ_iff_forall]
    refine ⟨fun hall k => ?_,fun hall k hk => ?_⟩
    · by_cases hkj : k=j
      · rw [hkj]
        exact Finset.mem_insert_self ..
      · exact Finset.mem_insert_of_mem (mem_arrived.2 (hall k hkj))
    · rcases Finset.mem_insert.1 (hall k) with hkj|hmem
      · exact absurd hkj hk
      · exact mem_arrived.1 hmem
  have hnone : ∀ k, stage (c,k)≠.counting := fun k hk => h.counting c k hk j ha
  generalize hnew : arrivedStage J (arrivals c+1)=new at hself hother hnotaway hnotwaking
  generalize hstage : Function.update stage (c,j) new=stage' at hself hother
  have haway : ∀ k, stage' (c,k)≠.away ↔ k=j ∨ stage (c,k)≠.away := by
    intro k
    by_cases hk : k=j
    · rw [hk,hself]
      exact ⟨fun _ => .inl rfl,fun _ => hnotaway⟩
    · rw [hother (c,k) (fun he => hk (Prod.mk.inj he).2)]
      exact ⟨.inr,fun h => h.resolve_left hk⟩
  have hcomplete : complete stage'=complete stage := by
    ext d
    rw [mem_complete,mem_complete]
    by_cases hd : d=c
    · subst hd
      refine ⟨fun hc => ?_,fun hc => absurd ha (hc.1 j)⟩
      -- a full cluster has its last arrival counting
      have hlast := hfull.1 fun k hk => ((haway k).1 (hc.1 k)).resolve_left hk
      have hcount : stage' (d,j)=.counting := by
        rw [hself,←hnew,arrivedStage,if_pos hlast]
      exact absurd hcount (hc.2 j)
    · have hsame : ∀ k, stage' (d,k)=stage (d,k) := fun k =>
        hother (d,k) (fun he => hd (Prod.mk.inj he).1)
      simp only [hsame]
  refine ⟨?_,?_,?_,?_,?_,?_⟩
  · intro d
    by_cases hd : d=c
    · subst hd
      have hset : arrived stage' d=insert j (arrived stage d) := by
        ext k
        rw [mem_arrived,Finset.mem_insert,mem_arrived]
        exact haway k
      rw [Function.update_self,hset,Finset.card_insert_of_notMem,h.arrivals d]
      rw [mem_arrived]
      exact fun h => h ha
    · have hset : arrived stage' d=arrived stage d := by
        ext k
        rw [mem_arrived,mem_arrived,hother (d,k) (fun he => hd (Prod.mk.inj he).1)]
      rw [Function.update_of_ne hd,hset]
      exact h.arrivals d
  · rw [hcomplete]
    exact h.counted
  · intro d k hk l
    by_cases hd : d=c
    · subst hd
      have hkj : k=j := by
        by_contra hne
        rw [hother (d,k) (fun he => hne (Prod.mk.inj he).2)] at hk
        exact hnone k hk
      rw [hkj,hself,←hnew,arrivedStage] at hk
      have hlast : arrivals d+1=Fintype.card J := by
        by_contra hne
        rw [if_neg hne] at hk
        cases hk
      by_cases hl : l=j
      · rw [hl,hself]
        exact hnotaway
      · rw [hother (d,l) (fun he => hl (Prod.mk.inj he).2)]
        exact hfull.2 hlast l hl
    · rw [hother (d,k) (fun he => hd (Prod.mk.inj he).1)] at hk
      rw [hother (d,l) (fun he => hd (Prod.mk.inj he).1)]
      exact h.counting d k hk l
  · intro d k l hk hl
    by_cases hd : d=c
    · subst hd
      have honly : ∀ i, stage' (d,i)=.counting → i=j := by
        intro i hi
        by_contra hne
        rw [hother (d,i) (fun he => hne (Prod.mk.inj he).2)] at hi
        exact hnone i hi
      rw [honly k hk,honly l hl]
    · rw [hother (d,k) (fun he => hd (Prod.mk.inj he).1)] at hk
      rw [hother (d,l) (fun he => hd (Prod.mk.inj he).1)] at hl
      exact h.single d k l hk hl
  · rw [hcomplete,h.waking]
    refine exists_congr fun t => ?_
    by_cases ht : t=(c,j)
    · rw [ht,hself,ha]
      exact ⟨(fun h => by cases h),fun h => absurd h hnotwaking⟩
    · rw [hother t ht]
  · intro t u ht hu
    have hold : ∀ v, stage' v=.waking → stage v=.waking := by
      intro v hv
      by_cases hvc : v=(c,j)
      · rw [hvc,hself] at hv
        exact absurd hv hnotwaking
      · rw [hother v hvc] at hv
        exact hv
    exact h.unique t u (hold t ht) (hold u hu)

/-- A member counts its cluster. It waits unless its cluster is the last one, and then it wakes the
others. -/
theorem Inv.count (h : Inv stage arrivals counted) {c : C} {j : J} (hc : stage (c,j)=.counting) :
    Inv (Function.update stage (c,j) (countedStage C (counted+1))) arrivals (counted+1) := by
  have hself : Function.update stage (c,j) (countedStage C (counted+1)) (c,j)=
      countedStage C (counted+1) := Function.update_self ..
  have hother : ∀ t, t≠(c,j) →
      Function.update stage (c,j) (countedStage C (counted+1)) t=stage t :=
    fun t ht => Function.update_of_ne ht _ _
  have hnew : countedStage C (counted+1)≠.away ∧ countedStage C (counted+1)≠.counting := by
    unfold countedStage
    split
    · exact ⟨(fun h => by cases h),(fun h => by cases h)⟩
    · exact ⟨(fun h => by cases h),(fun h => by cases h)⟩
  have hnowake : ∀ t, stage t≠.waking := by
    intro t ht
    have hroom := h.room_counted hc
    have hfull := h.counted_iff.2 ⟨t,ht⟩
    omega
  have hwake : countedStage C (counted+1)=.waking ↔ counted+1=Fintype.card C := by
    unfold countedStage
    split
    · exact ⟨fun _ => ‹_›,fun _ => rfl⟩
    · exact ⟨(fun h => by cases h),fun he => absurd he ‹_›⟩
  generalize countedStage C (counted+1)=new at hself hother hnew hwake
  generalize Function.update stage (c,j) new=stage' at hself hother
  have haway : ∀ t, stage' t≠.away ↔ stage t≠.away := by
    intro t
    by_cases ht : t=(c,j)
    · rw [ht,hself,hc]
      exact ⟨(fun _ h => by cases h),fun _ => hnew.1⟩
    · rw [hother t ht]
  have hcounting : ∀ t, stage' t=.counting → stage t=.counting ∧ t≠(c,j) := by
    intro t ht
    by_cases he : t=(c,j)
    · rw [he,hself] at ht
      exact absurd ht hnew.2
    · rw [hother t he] at ht
      exact ⟨ht,he⟩
  have hset : complete stage'=insert c (complete stage) := by
    ext d
    rw [mem_complete,Finset.mem_insert,mem_complete]
    simp only [haway]
    by_cases hd : d=c
    · subst hd
      refine ⟨fun _ => .inl rfl,fun _ => ⟨h.counting d j hc,?_⟩⟩
      intro k hk
      obtain ⟨hold,hne⟩ := hcounting (d,k) hk
      exact hne (by rw [h.single d k j hold hc])
    · have hsame : ∀ k, stage' (d,k)=stage (d,k) := fun k =>
        hother (d,k) (fun he => hd (Prod.mk.inj he).1)
      simp only [hsame,hd,false_or]
  have hcard : (complete stage').card=counted+1 := by
    rw [hset,Finset.card_insert_of_notMem,h.counted]
    exact fun hmem => (mem_complete.1 hmem).2 j hc
  have honly : ∀ t, stage' t=.waking → t=(c,j) := by
    intro t ht
    by_contra he
    rw [hother t he] at ht
    exact hnowake t ht
  refine ⟨?_,hcard.symm,?_,?_,?_,?_⟩
  · intro d
    have hsame : arrived stage' d=arrived stage d := by
      ext k
      rw [mem_arrived,mem_arrived,haway]
    rw [hsame]
    exact h.arrivals d
  · intro d k hk l
    rw [haway]
    exact h.counting d k (hcounting _ hk).1 l
  · intro d k l hk hl
    exact h.single d k l (hcounting _ hk).1 (hcounting _ hl).1
  · rw [←Finset.card_eq_iff_eq_univ,hcard,←hwake]
    refine ⟨fun hn => ⟨(c,j),by rw [hself,hn]⟩,?_⟩
    rintro ⟨t,ht⟩
    rw [honly t ht,hself] at ht
    exact ht
  · intro t u ht hu
    rw [honly t ht,honly u hu]

end RigelTarget.CombiningBarrier
