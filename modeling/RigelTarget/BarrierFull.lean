import RigelTarget.BarrierMT

/-!
# The full-chip barrier of single-threaded cores

`RigelBarrier_EnterFull` is the barrier of `BarrierMT` with the mask `0x0007` written into the
test of the local count, where the multithreaded version reads the size of the cluster. With
eight cores in a cluster the two are the same program. With fewer cores nobody completes the
local count, and all cores spin after one call each; with more, the first eight cores of every
cluster complete the barrier while the others have not called.
-/

namespace RigelTarget.BarrierFull

open SharedMemory RigelAtomics BarrierMT

/-- The cores whose local count `andi $26, $26, 0x0007` finds complete, whatever the number of cores
of a cluster really is. -/
abbrev maskedCores : ℕ := 8

/-- `RigelBarrier_EnterFull` on `n` clusters of `m` cores. It is the barrier with the mask in place
of the number of threads. -/
def program (n m : ℕ) : Program (Thread n m) (Loc n) Local Bool Unit where
  access t l := BarrierMT.access t l
  next _ l call r := BarrierMT.next n maskedCores l call r
  emit _ _ _ _ := none

/-- With eight cores in a cluster it is the program of the multithreaded barrier. -/
theorem program_eight (n : ℕ) : program n 8=BarrierMT.program n 8 := rfl

/-- What a reusable barrier promises of a state: no core has returned from more calls than any
core has begun, and some core that spins can return unless some core does not spin. -/
def Safe {n m : ℕ} (s : BState n m) : Prop :=
  (∀ t u, (s.pc t).returned≤(s.pc u).begun) ∧
  ¬∀ t, (s.pc t).pc=.spin ∧ s.word .globalReduceDone≠(s.pc t).sense

/-- With eight cores in a cluster and a power of two of clusters, every state of every run is
safe. -/
theorem safe_of_eight {b n : ℕ} (hb : b≤32) (hn : n=2^b) {s : BState n 8}
    (hs : Reachable (program n 8) (initial n 8) (fun _ _ => True) s) : Safe s := by
  rw [program_eight] at hs
  have hn0 : 0<n := by
    rw [hn]
    exact Nat.two_pow_pos b
  obtain ⟨E,arrivals,counted,h⟩ : ∃ E arrivals counted, BarInv E arrivals counted s := by
    refine Reachable.invariant (I := fun s => ∃ E arrivals counted, BarInv E arrivals counted s)
      ⟨0,_,0,barInv_initial hn0 (by decide)⟩ ?_ hs
    rintro s turn - - ⟨E,arrivals,counted,h⟩
    exact barInv_step (a := 3) (by decide) hb rfl hn h
  refine ⟨?_,h.not_stuck⟩
  intro t u
  have ht := h.episode t
  have hu := h.episode u
  omega

section Entered

variable {n m : ℕ}

/-- The cores of a set that are in a cluster. -/
def count (S : Finset (Thread n m)) (c : Fin n) : ℕ := (S.filter fun t => t.1=c).card

/-- The clusters whose local count the mask finds complete. -/
def full (S : Finset (Thread n m)) : ℕ :=
  (Finset.univ.filter fun c => count S c=maskedCores).card

/-- The cores of a set have called once and spin, and the others have not called. From such states
the runs of a proof are put together, core by core. -/
structure Entered (S : Finset (Thread n m)) (s : BState n m) : Prop where
  /-- Cores that have called. -/
  spins : ∀ t, t∈S → s.pc t=⟨.spin,0,1,0⟩
  /-- Cores that have not. -/
  waits : ∀ t, t∉S → s.pc t=⟨.outside,0,0,0⟩
  /-- The local counts. -/
  locals : ∀ c, s.word (.localComplete c)=count S c
  /-- The global count. -/
  counts : s.word .globalCompete=full S
  /-- Nobody was woken. -/
  done : s.word .globalReduceDone=1

/-- Nobody has called. -/
theorem entered_empty : Entered ∅ (initial n m) := by
  refine ⟨fun t ht => absurd ht (Finset.notMem_empty t),fun _ _ => rfl,fun c => ?_,?_,rfl⟩
  · show 0=count (∅ : Finset (Thread n m)) c
    rfl
  · show 0=full (∅ : Finset (Thread n m))
    unfold full
    rw [eq_comm,Finset.card_eq_zero,Finset.filter_eq_empty_iff]
    intro c _ hc
    cases hc

/-- One more core in its cluster. -/
theorem count_insert {S : Finset (Thread n m)} {t : Thread n m} (ht : t∉S) (c : Fin n) :
    count (insert t S) c=if c=t.1 then count S c+1 else count S c := by
  unfold count
  rw [Finset.filter_insert]
  by_cases hc : c=t.1
  · rw [if_pos hc.symm,if_pos hc,Finset.card_insert_of_notMem]
    intro hmem
    exact ht (Finset.mem_filter.1 hmem).1
  · rw [if_neg (fun he => hc he.symm),if_neg hc]

/-- One more complete cluster, if the core completes its own. A cluster is complete at eight cores,
whatever number it has. -/
theorem full_insert {S : Finset (Thread n m)} {t : Thread n m} (ht : t∉S)
    (hlt : count S t.1 < maskedCores) :
    full (insert t S)=if count S t.1+1=maskedCores then full S+1 else full S := by
  have hold : t.1∉Finset.univ.filter fun c => count S c=maskedCores := by
    intro hmem
    have hc := (Finset.mem_filter.1 hmem).2
    omega
  have hmem : ∀ c, count (insert t S) c=maskedCores ↔
      (c=t.1 ∧ count S t.1+1=maskedCores) ∨ c≠t.1 ∧ count S c=maskedCores := by
    intro c
    rw [count_insert ht]
    by_cases hc : c=t.1
    · rw [if_pos hc,hc]
      simp
    · rw [if_neg hc]
      simp [hc]
  unfold full
  by_cases hcomplete : count S t.1+1=maskedCores
  · rw [if_pos hcomplete,←Finset.card_insert_of_notMem hold]
    congr 1
    ext c
    rw [Finset.mem_filter,hmem c,Finset.mem_insert,Finset.mem_filter]
    by_cases hc : c=t.1
    · simp [hc,hcomplete]
    · simp [hc]
  · rw [if_neg hcomplete]
    congr 1
    ext c
    rw [Finset.mem_filter,hmem c,Finset.mem_filter]
    by_cases hc : c=t.1
    · subst hc
      simp only [Finset.mem_univ,true_and,hcomplete,and_false,ne_eq,not_true_eq_false,false_and,
        or_self,false_iff]
      omega
    · simp [hc]

/-- A turn of a core that calls whenever it can, and whose links hold. -/
def turnOf (t : Thread n m) : BTurn n m := ⟨t,true,false⟩

/-- Three turns of a core outside: the call and the increment of the local count. -/
theorem arrive_run {s : BState n m} {t : Thread n m} (hpc : s.pc t=⟨.outside,0,0,0⟩)
    (hlt : s.word (.localComplete t.1)+1<2^32) :
    (run (program n m) s [turnOf t,turnOf t,turnOf t]).pc=Function.update s.pc t
      ⟨afterLocal maskedCores (s.word (.localComplete t.1)+1),0,1,0⟩ ∧
    (run (program n m) s [turnOf t,turnOf t,turnOf t]).word=Function.update s.word
      (.localComplete t.1) (s.word (.localComplete t.1)+1) := by
  have hinc : incWord (s.word (.localComplete t.1))=s.word (.localComplete t.1)+1 :=
    Nat.mod_eq_of_lt hlt
  simp [run,step,program,turnOf,access,next,result,written,applyWrite_some,relink,holdsLink,hpc,
    hinc]

/-- The turn of a core that completed its cluster: the increment of the global count. -/
theorem count_run {s : BState n m} {t : Thread n m} (hpc : s.pc t=⟨.globalInc,0,1,0⟩)
    (hlt : s.word .globalCompete+1<2^32) :
    (run (program n m) s [turnOf t]).pc=Function.update s.pc t
      ⟨afterGlobal n (s.word .globalCompete+1),0,1,0⟩ ∧
    (run (program n m) s [turnOf t]).word=Function.update s.word .globalCompete
      (s.word .globalCompete+1) := by
  have hinc : incWord (s.word .globalCompete)=s.word .globalCompete+1 := Nat.mod_eq_of_lt hlt
  simp [run,step,program,turnOf,access,next,result,written,applyWrite_some,hpc,hinc,atomicInc]

/-- The turns of a core that completed all clusters: it wakes everybody and returns. -/
theorem wake_run {s : BState n m} {t : Thread n m} (hpc : s.pc t=⟨.wakeup,0,1,0⟩) :
    (run (program n m) s [turnOf t,turnOf t]).pc=Function.update s.pc t ⟨.outside,1,1,1⟩ := by
  simp [run,step,program,turnOf,access,next,result,written,applyWrite_some,hpc]

/-- A run continues a reached state. -/
theorem reach_run {s : BState n m}
    (hs : Reachable (program n m) (initial n m) (fun _ _ => True) s) (turns : List (BTurn n m)) :
    Reachable (program n m) (initial n m) (fun _ _ => True) (run (program n m) s turns) :=
  hs.of_run turns fun _ _ _ _ => trivial

/-- The mask of a power of two finds a count that is not above it complete. -/
theorem masked_iff {a k : ℕ} (h0 : 0<k) (hk : k≤2^a) : k&&&(2^a-1)=0 ↔ k=2^a := by
  rw [Nat.and_two_pow_sub_one_eq_mod]
  constructor
  · intro h
    by_contra hne
    rw [Nat.mod_eq_of_lt (by omega)] at h
    omega
  · intro h
    rw [h,Nat.mod_self]

/-- The branch after the local count. -/
theorem afterLocal_eq {k : ℕ} (hk : k < maskedCores) :
    afterLocal maskedCores (k+1)=if k+1=maskedCores then .globalInc else .spin := by
  have hmask : (k+1)&&&(maskedCores-1)=0 ↔ k+1=maskedCores :=
    masked_iff (a := 3) (Nat.succ_pos k) hk
  unfold afterLocal
  by_cases hlast : k+1=maskedCores
  · rw [if_pos hlast,if_pos (hmask.2 hlast)]
  · rw [if_neg hlast,if_neg (fun hz => hlast (hmask.1 hz))]

/-- The branch after the global count. -/
theorem afterGlobal_eq {b k : ℕ} (hn : n=2^b) (hk : k<n) :
    afterGlobal n (k+1)=if k+1=n then .wakeup else .spin := by
  have hmask := masked_iff (a := b) (Nat.succ_pos k) (by rw [←hn]; exact hk)
  rw [←hn] at hmask
  unfold afterGlobal
  by_cases hlast : k+1=n
  · rw [if_pos hlast,if_pos (hmask.2 hlast)]
  · rw [if_neg hlast,if_neg (fun hz => hlast (hmask.1 hz))]

/-- What the words say after the cores of `insert t S` have arrived. -/
theorem locals_insert {S : Finset (Thread n m)} {s : BState n m} (h : Entered S s)
    {t : Thread n m} (ht : t∉S) (c : Fin n) : Function.update s.word (.localComplete t.1)
      (s.word (.localComplete t.1)+1) (.localComplete c)=count (insert t S) c := by
  rw [count_insert ht]
  by_cases hc : c=t.1
  · rw [if_pos hc,hc,Function.update_self,h.locals]
  · rw [if_neg hc,Function.update_of_ne (fun he => hc (by cases he; rfl)),h.locals]

/-- One more core calls and spins, as long as it does not complete all clusters. This needs no
assumption on the mask. -/
theorem enter {b : ℕ} (hn : n=2^b) (hb : b<32) {S : Finset (Thread n m)} {s : BState n m}
    (h : Entered S s) (hs : Reachable (program n m) (initial n m) (fun _ _ => True) s)
    {t : Thread n m} (ht : t∉S) (hcount : count S t.1 < maskedCores)
    (hfull : full (insert t S)<n) : ∃ s', Entered (insert t S) s' ∧
      Reachable (program n m) (initial n m) (fun _ _ => True) s' := by
  have hn32 : n<2^32 := by
    rw [hn]
    exact Nat.pow_lt_pow_right (by decide) hb
  have hlocal := h.locals t.1
  obtain ⟨hpc,hword⟩ := arrive_run (h.waits t ht) (by unfold maskedCores at hcount; omega)
  have hreach := reach_run hs [turnOf t,turnOf t,turnOf t]
  generalize run (program n m) s [turnOf t,turnOf t,turnOf t]=s₁ at hpc hword hreach
  rw [hlocal,afterLocal_eq hcount] at hpc
  rw [full_insert ht hcount] at hfull
  have hwaits : ∀ u, u∉insert t S → u≠t ∧ u∉S := fun u hu =>
    ⟨fun he => hu (by rw [he]; exact Finset.mem_insert_self t S),
      fun hmem => hu (Finset.mem_insert_of_mem hmem)⟩
  by_cases hlast : count S t.1+1=maskedCores
  · rw [if_pos hlast] at hpc hfull
    have hglobal : s₁.word .globalCompete=full S := by
      rw [hword,Function.update_of_ne (by intro he; cases he),h.counts]
    have hpct : s₁.pc t=⟨.globalInc,0,1,0⟩ := by rw [hpc,Function.update_self]
    obtain ⟨hpc',hword'⟩ := count_run hpct (by omega)
    have hreach' := reach_run hreach [turnOf t]
    generalize run (program n m) s₁ [turnOf t]=s₂ at hpc' hword' hreach'
    rw [hglobal,afterGlobal_eq hn (by omega),if_neg (by omega),hpc,Function.update_idem] at hpc'
    refine ⟨s₂,⟨?_,?_,?_,?_,?_⟩,hreach'⟩
    · intro u hu
      rw [hpc']
      by_cases hut : u=t
      · rw [hut,Function.update_self]
      · rw [Function.update_of_ne hut]
        exact h.spins u (Finset.mem_of_mem_insert_of_ne hu hut)
    · intro u hu
      obtain ⟨hut,huS⟩ := hwaits u hu
      rw [hpc',Function.update_of_ne hut]
      exact h.waits u huS
    · intro c
      rw [hword',Function.update_of_ne (by intro he; cases he),hword]
      exact locals_insert h ht c
    · rw [hword',Function.update_self,hglobal,full_insert ht hcount,if_pos hlast]
    · rw [hword',Function.update_of_ne (by intro he; cases he),hword,
        Function.update_of_ne (by intro he; cases he)]
      exact h.done
  · rw [if_neg hlast] at hpc hfull
    refine ⟨s₁,⟨?_,?_,?_,?_,?_⟩,hreach⟩
    · intro u hu
      rw [hpc]
      by_cases hut : u=t
      · rw [hut,Function.update_self]
      · rw [Function.update_of_ne hut]
        exact h.spins u (Finset.mem_of_mem_insert_of_ne hu hut)
    · intro u hu
      obtain ⟨hut,huS⟩ := hwaits u hu
      rw [hpc,Function.update_of_ne hut]
      exact h.waits u huS
    · intro c
      rw [hword]
      exact locals_insert h ht c
    · rw [hword,Function.update_of_ne (by intro he; cases he),full_insert ht hcount,
        if_neg hlast]
      exact h.counts
    · rw [hword,Function.update_of_ne (by intro he; cases he)]
      exact h.done

/-- Fewer cores in a cluster. -/
theorem count_mono {S T : Finset (Thread n m)} (h : S⊆T) (c : Fin n) : count S c ≤ count T c :=
  Finset.card_le_card (Finset.filter_subset_filter _ h)

/-- The cores of a set can all call and spin, if no cluster has more than eight of them and
some cluster has fewer. -/
theorem enter_all {b : ℕ} (hn : n=2^b) (hb : b<32) {T : Finset (Thread n m)}
    (hcount : ∀ c, count T c ≤ maskedCores) {d : Fin n} (hd : count T d < maskedCores) :
    ∃ s, Entered T s ∧ Reachable (program n m) (initial n m) (fun _ _ => True) s := by
  have hpart : ∀ S : Finset (Thread n m), S⊆T → ∃ s, Entered S s ∧
      Reachable (program n m) (initial n m) (fun _ _ => True) s := by
    intro S
    induction S using Finset.induction_on with
    | empty => exact fun _ => ⟨initial n m,entered_empty,.init⟩
    | insert t S ht ih =>
      intro hsub
      obtain ⟨s,h,hs⟩ := ih fun u hu => hsub (Finset.mem_insert_of_mem hu)
      refine enter hn hb h hs ht ?_ ?_
      · have hle := le_trans (count_mono hsub t.1) (hcount t.1)
        rw [count_insert ht,if_pos rfl] at hle
        exact hle
      · -- the cluster with fewer cores is not complete
        have hnot : d∉Finset.univ.filter fun c => count (insert t S) c=maskedCores := by
          intro hmem
          have hle := count_mono hsub d
          rw [(Finset.mem_filter.1 hmem).2] at hle
          omega
        have hlt := Finset.card_lt_univ_of_notMem hnot
        rw [Fintype.card_fin] at hlt
        exact hlt
  exact hpart T fun _ hu => hu

/-- The first cores of every cluster. -/
def firstCores (n m k : ℕ) : Finset (Thread n m) := Finset.univ.filter fun t => t.2.val<k

/-- Their number in a cluster. -/
theorem count_firstCores {k : ℕ} (hk : k ≤ m) (c : Fin n) : count (firstCores n m k) c=k := by
  have hset : (firstCores n m k).filter (fun t => t.1=c)=
      (Finset.univ : Finset (Fin k)).image fun j => (c,Fin.castLE hk j) := by
    ext t
    obtain ⟨d,j⟩ := t
    simp only [firstCores,Finset.mem_filter,Finset.mem_univ,true_and,Finset.mem_image,
      Prod.mk.injEq]
    constructor
    · rintro ⟨hj,rfl⟩
      exact ⟨⟨j.val,hj⟩,rfl,rfl⟩
    · rintro ⟨i,rfl,rfl⟩
      exact ⟨i.isLt,rfl⟩
  unfold count
  rw [hset,Finset.card_image_of_injective,Finset.card_univ,Fintype.card_fin]
  intro i j hij
  exact Fin.castLE_injective hk (Prod.mk.inj hij).2

/-- With fewer than eight cores in a cluster, all cores can spin with none able to return. -/
theorem unsafe_of_few {b : ℕ} (hn : n=2^b) (hb : b<32) (hm : m<8) :
    ∃ s, Reachable (program n m) (initial n m) (fun _ _ => True) s ∧ ¬Safe s := by
  have hn0 : 0<n := by
    rw [hn]
    exact Nat.two_pow_pos b
  obtain ⟨s,h,hs⟩ := enter_all (T := firstCores n m m) hn hb
    (fun c => by rw [count_firstCores le_rfl]; exact le_of_lt hm) (d := ⟨0,hn0⟩)
    (by rw [count_firstCores le_rfl]; exact hm)
  refine ⟨s,hs,fun hsafe => hsafe.2 fun t => ?_⟩
  have ht : t∈firstCores n m m := Finset.mem_filter.2 ⟨Finset.mem_univ t,t.2.isLt⟩
  rw [h.spins t ht,h.done]
  exact ⟨rfl,by decide⟩

/-- A core that completes its cluster and all clusters wakes everybody and returns, without a test
that the others have called. -/
theorem complete_returns {b : ℕ} (hn : n=2^b) (hb : b<32) {S : Finset (Thread n m)}
    {s : BState n m} (h : Entered S s)
    (hs : Reachable (program n m) (initial n m) (fun _ _ => True) s) {t : Thread n m} (ht : t∉S)
    (hcount : count S t.1+1=maskedCores) (hfull : full S+1=n) : ∃ s',
      Reachable (program n m) (initial n m) (fun _ _ => True) s' ∧
        s'.pc=Function.update s.pc t ⟨.outside,1,1,1⟩ := by
  have hn32 : n<2^32 := by
    rw [hn]
    exact Nat.pow_lt_pow_right (by decide) hb
  have hlocal := h.locals t.1
  have hlt : count S t.1 < maskedCores := by omega
  obtain ⟨hpc₁,hword₁⟩ := arrive_run (h.waits t ht) (by unfold maskedCores at hlt; omega)
  have hreach₁ := reach_run hs [turnOf t,turnOf t,turnOf t]
  generalize run (program n m) s [turnOf t,turnOf t,turnOf t]=s₁ at hpc₁ hword₁ hreach₁
  rw [hlocal,afterLocal_eq hlt,if_pos hcount] at hpc₁
  have hglobal : s₁.word .globalCompete=full S := by
    rw [hword₁,Function.update_of_ne (by intro he; cases he),h.counts]
  obtain ⟨hpc₂,-⟩ := count_run (s := s₁) (t := t) (by rw [hpc₁,Function.update_self]) (by omega)
  have hreach₂ := reach_run hreach₁ [turnOf t]
  generalize run (program n m) s₁ [turnOf t]=s₂ at hpc₂ hreach₂
  rw [hglobal,afterGlobal_eq hn (by omega),if_pos hfull,hpc₁,Function.update_idem] at hpc₂
  have hpc₃ := wake_run (s := s₂) (t := t) (by rw [hpc₂,Function.update_self])
  rw [hpc₂,Function.update_idem] at hpc₃
  exact ⟨_,reach_run hreach₂ [turnOf t,turnOf t],hpc₃⟩

/-- With more than eight cores in a cluster, a core can return before another one has called: eight
calls complete the local count. -/
theorem unsafe_of_many {b : ℕ} (hn : n=2^b) (hb : b<32) (hm : 8 < m) :
    ∃ s, Reachable (program n m) (initial n m) (fun _ _ => True) s ∧ ¬Safe s := by
  have hn0 : 0<n := by
    rw [hn]
    exact Nat.two_pow_pos b
  have hm8 : maskedCores ≤ m := le_of_lt hm
  let last : Thread n m := (⟨0,hn0⟩,⟨0,by omega⟩)
  let idle : Thread n m := (⟨0,hn0⟩,⟨8,hm⟩)
  have hmem : last∈firstCores n m maskedCores :=
    Finset.mem_filter.2 ⟨Finset.mem_univ _,show 0 < maskedCores by decide⟩
  have hnot : last∉(firstCores n m maskedCores).erase last := Finset.notMem_erase _ _
  have hback := Finset.insert_erase hmem
  have hsub := Finset.erase_subset last (firstCores n m maskedCores)
  have hseven : count ((firstCores n m maskedCores).erase last) last.1+1=maskedCores := by
    have hc := count_insert hnot last.1
    rw [hback,count_firstCores hm8,if_pos rfl] at hc
    exact hc.symm
  have hall : full ((firstCores n m maskedCores).erase last)+1=n := by
    have hf := full_insert hnot (by omega)
    rw [hback,if_pos hseven] at hf
    rw [←hf]
    unfold full
    rw [Finset.filter_true_of_mem fun c _ => count_firstCores hm8 c,Finset.card_univ,
      Fintype.card_fin]
  obtain ⟨s,h,hs⟩ := enter_all hn hb (fun c => le_of_le_of_eq (count_mono hsub c)
    (count_firstCores hm8 c)) (d := last.1) (by omega)
  obtain ⟨s',hs',hpc⟩ := complete_returns hn hb h hs hnot hseven hall
  refine ⟨s',hs',fun hsafe => ?_⟩
  have hne : idle≠last := by
    intro he
    have hv := congrArg (fun t : Thread n m => t.2.val) he
    cases hv
  have hidle : idle∉(firstCores n m maskedCores).erase last := by
    intro hin
    have hlt := (Finset.mem_filter.1 (hsub hin)).2
    exact lt_irrefl 8 hlt
  have hle := hsafe.1 last idle
  rw [hpc,Function.update_self,Function.update_of_ne hne,h.waits idle hidle] at hle
  exact absurd hle (by decide)

end Entered

/-- For every number of cores in a cluster and every power-of-two number of clusters, the
barrier is reusable on every schedule exactly on clusters of eight cores. -/
theorem enterFull_reusable_iff {b n m : ℕ} (hb : b<32) (hn : n=2^b) :
    (∀ s, Reachable (program n m) (initial n m) (fun _ _ => True) s → Safe s) ↔ m=8 := by
  constructor
  · intro hsafe
    by_contra hne
    rcases lt_or_gt_of_ne hne with hfew|hmany
    · obtain ⟨s,hs,hbad⟩ := unsafe_of_few hn hb hfew
      exact hbad (hsafe s hs)
    · obtain ⟨s,hs,hbad⟩ := unsafe_of_many hn hb hmany
      exact hbad (hsafe s hs)
  · rintro rfl s hs
    exact safe_of_eight (le_of_lt hb) hn hs

/-- The eight cores of one cluster call once. -/
def eightCall : List (BTurn 1 8) :=
  (List.finRange 8).flatMap fun j => List.replicate 3 (turnOf (0,j))

/-- The barrier of eight cores is safe at the end of the run in which all of them call it. -/
theorem enterFull_reusable_iff_eight : Safe (run (program 1 8) (initial 1 8) eightCall) :=
  (enterFull_reusable_iff (b := 0) (by decide) rfl).2 rfl _ (.of_allows .init (by decide +kernel))

/-- Two cores of one cluster call once. -/
def bothCall : List (BTurn 1 2) :=
  [turnOf (solo,left),turnOf (solo,left),turnOf (solo,left),turnOf (solo,right),
    turnOf (solo,right),turnOf (solo,right)]

/-- Both spin on a sense that nobody will store: two calls do not complete a local count of
eight. -/
theorem enterFull_all_spin :
    Reachable (program 1 2) (initial 1 2) (fun _ _ => True)
      (run (program 1 2) (initial 1 2) bothCall) ∧
    ((∀ t, ((run (program 1 2) (initial 1 2) bothCall).pc t).pc=.spin ∧
      (run (program 1 2) (initial 1 2) bothCall).word .globalReduceDone≠
        ((run (program 1 2) (initial 1 2) bothCall).pc t).sense)) ∧
    ¬Safe (run (program 1 2) (initial 1 2) bothCall) := by
  have hspin : ∀ t, ((run (program 1 2) (initial 1 2) bothCall).pc t).pc=.spin ∧
      (run (program 1 2) (initial 1 2) bothCall).word .globalReduceDone≠
        ((run (program 1 2) (initial 1 2) bothCall).pc t).sense := by
    decide +kernel
  exact ⟨.of_allows .init (by decide +kernel),hspin,fun hsafe => hsafe.2 hspin⟩

end RigelTarget.BarrierFull
