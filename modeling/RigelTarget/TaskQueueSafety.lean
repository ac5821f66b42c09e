import RigelTarget.TaskQueueBarrier

/-!
# Safety of the barrier of the task queue

With one group per fetch the local queue is empty whenever a cluster waits in the
barrier. In bulk-synchronous use every enqueue holds `CLUSTER_gtq_lock`, so a
ticket that is one per cluster ahead of the tail rules out every enqueue, and the
tail that the last ticket read is the current one. A sequential enqueue takes no
such lock: there the tail must be current when all clusters are found counted.
-/

namespace RigelTarget.TaskQueueSafety

open SharedMemory TaskQueueModel TaskQueueProgram TaskQueueSteps TaskQueueFrame TaskQueueLocks
  TaskQueueCluster TaskQueueBarrier

variable {n m : ℕ} {cfg : Config}

/-- The local states of a fetch between the test of the local queue and the insertion. The fetch was
made because the queue was empty. -/
def early : FetchPc → Bool
  | .sense => false
  | .head => false
  | .relIns _ => false
  | .unlock => false
  | .unlockSync => false
  | _ => true

/-- With one group per fetch the local queue is empty until the insertion: the holder of
`CLUSTER_gtq_lock` is the only one who could link tasks. -/
def FetchInv (s : QState n m) : Prop :=
  ∀ t pf p, (s.pc t).pc=.fetch pf p → pf=1 ∧ (early p=true → s.word (.taskqueueHead t.1)=0)

section Steps

variable {word : Loc n → ℕ} {t : Thread n m} {sense esense : ℕ} {pc q : Pc} {w : Wr n}
  {e : Option (Event n m)}

/-- With one group per fetch, every fetch is the first one and inserts into a queue that was
empty. -/
theorem trans_fetch (hfetch : cfg.fetch=1) (h : Trans cfg word t sense esense pc w e q)
    (hpf : ∀ pf p, pc=.fetch pf p → pf=1) {pf : ℕ} {p : FetchPc} (hq : q=.fetch pf p) :
    pf=1 ∧ (early p=true → (∃ p', pc=.fetch 1 p' ∧ early p'=true) ∨
      word (.taskqueueHead t.1)=0) := by
  cases h with
  | fast h => cases h <;> cases hq
  | slow h =>
    cases h with
    | locked => cases hq; exact ⟨rfl,fun h => by cases h⟩
    | _ => cases hq
  | fetch h =>
    cases hpf _ _ rfl
    cases h with
    | more _ hlt => omega
    | unlock => cases hq
    | unlockSync => cases hq
    | empty he => cases hq; exact ⟨rfl,fun _ => .inr he⟩
    | insSet => cases hq; exact ⟨rfl,fun h => by cases h⟩
    | senseSame => cases hq; exact ⟨rfl,fun h => by cases h⟩
    | senseSync => cases hq; exact ⟨rfl,fun h => by cases h⟩
    | filled => cases hq; exact ⟨rfl,fun h => by cases h⟩
    | rel => cases hq; exact ⟨rfl,fun h => by cases h⟩
    | enough => cases hq; exact ⟨rfl,fun h => by cases h⟩
    | _ => cases hq; exact ⟨rfl,fun _ => .inl ⟨_,rfl,rfl⟩⟩
  | par h => cases h <;> cases hq
  | seq h => cases h <;> cases hq
  | _ => cases hq

/-- The local queue is not changed by a step that stays before the insertion. -/
theorem trans_early {pf : ℕ} {p : FetchPc} {v : ℕ}
    (h : Trans cfg word t sense esense pc (some (.taskqueueHead t.1,v)) e (.fetch pf p)) :
    early p=false := by
  cases h.writes
  rfl

end Steps

/-- One turn keeps the local queues of fetching clusters empty. A round has one fetch only, so
nothing is inserted before its test. -/
theorem fetchInv_step (hfetch : cfg.fetch=1) {s : QState n m} (fresh : LinkFresh reserve s)
    (gtq : GtqInv s) (hcluster : ∀ c, ClusterInv (view s c)) (h : FetchInv s) (turn : QTurn n m) :
    FetchInv (step (program n m cfg) s turn) := by
  have ht := trans_step cfg s turn fresh
  intro t pf p hpc
  by_cases htt : t=turn.thread
  · subst htt
    obtain ⟨hpf,hearly⟩ := trans_fetch hfetch ht (fun pf p he => (h _ pf p he).1) hpc
    refine ⟨hpf,fun hp => ?_⟩
    rw [word_step,applyWrite_keep]
    · rcases hearly hp with ⟨p',hp',he⟩|hzero
      · exact (h _ 1 p' hp').2 he
      · exact hzero
    · intro v hw
      rw [hw,hpc] at ht
      rw [trans_early ht] at hp
      cases hp
  · rw [pc_other _ _ _ htt] at hpc
    obtain ⟨hpf,hearly⟩ := h t pf p hpc
    refine ⟨hpf,fun hp => ?_⟩
    rw [word_step,applyWrite_keep]
    · exact hearly hp
    · -- another thread changes the queue after it saw it nonempty, or holding the lock
      intro v hw
      rw [hw] at ht
      obtain ⟨hc,-,hmid|hheld,-⟩ := trans_head ht
      · exact (hcluster turn.thread.1).midPop turn.thread.2 hmid (by
          rw [←hc]
          exact hearly hp)
      · exact htt (gtq.unique t turn.thread hc (by rw [hpc]; rfl) hheld)

/-- A decision is shown by the store of the global sense. -/
theorem trans_decide {word : Loc n → ℕ} {t u : Thread n m} {sense esense : ℕ} {pc q : Pc}
    {w : Wr n} (h : Trans cfg word t sense esense pc w (some (.decide u)) q) :
    ∃ pf i k τ v, pc=.fetch pf (.bar i k (.flip τ v)) := by
  cases h with
  | fast h => cases h
  | slow h => cases h
  | fetch h =>
    cases h with
    | bar hb =>
      cases hb with
      | flip τ v => exact ⟨_,_,_,τ,v,rfl⟩
  | par h => cases h
  | seq h => cases h

/-- A cluster is about to back out of the barrier with a valid ticket, or has done so and goes on to
its slot. -/
def backingOut : Pc → Bool
  | .fetch _ (.bar _ _ (.reSense _)) => true
  | .fetch _ (.bar _ _ (.reCsense _ _)) => true
  | .fetch _ (.bar _ _ (.decSel _)) => true
  | .fetch _ (.bar _ _ (.decWc _ _)) => true
  | .fetch _ (.bar _ _ (.backLd _)) => true
  | .fetch _ (.bar _ _ (.backSt _ _)) => true
  | .fetch _ (.slot _ _) => true
  | _ => false

/-- The calls of `SW_TaskQueue_Dequeue`. -/
def inDequeue : Pc → Bool
  | .fast _ => true
  | .slow _ => true
  | .fetch _ _ => true
  | _ => false

section Safety

variable {s : QState n m} {turn : QTurn n m}

/-- A thread backing out holds a valid ticket: the tail it has read is at most the present one, and
its ticket is below that. -/
theorem valid_of_backingOut (h : BarrierInv s) (gtq : GtqInv s) {t : Thread n m}
    (hb : backingOut (s.pc t).pc=true) :
    ∃ i, ticket (lead s t.1)=some i ∧ i < s.word .tailIndex := by
  cases hp : fetchOf (s.pc t).pc with
  | none =>
    generalize (s.pc t).pc=pc at hb hp
    cases pc with
    | fetch => cases hp
    | _ => cases hb
  | some p =>
    have hlead := lead_eq gtq hp
    have hlo := h.between.leads t.1
    simp only [gview,hlead] at hlo
    rw [hlead]
    generalize (s.pc t).pc=pc at hb hp
    cases pc with
    | fetch pf p' =>
      cases Option.some.inj hp
      cases p with
      | bar i k b =>
        have hbar := hlo.2.2
        refine ⟨i,rfl,?_⟩
        cases b with
        | reSense τ => simp only [BarOk] at hbar; omega
        | reCsense τ g => simp only [BarOk] at hbar; omega
        | decSel τ => simp only [BarOk] at hbar; omega
        | decWc τ v => simp only [BarOk] at hbar; omega
        | backLd τ => simp only [BarOk] at hbar; omega
        | backSt τ v => simp only [BarOk] at hbar; omega
        | _ => cases hb
      | slot i idx => exact ⟨i,rfl,hlo.2.2.1⟩
      | _ => cases hb
    | _ => cases hb

/-- At a decision every cluster is counted. -/
theorem all_counted (h : BarrierInv s) (fresh : LinkFresh reserve s) (gtq : GtqInv s)
    {t : Thread n m} (he : event cfg s turn=some (.decide t)) :
    deciding (lead s turn.thread.1)=true ∧
      ∀ c, passes s c=decides s ∧ countedIn (lead s c)=true := by
  have ht := trans_step cfg s turn fresh
  rw [he] at ht
  obtain ⟨pf,i,k,τ,v,hpc⟩ := trans_decide ht
  have hlead : lead s turn.thread.1=_ := lead_eq gtq (by rw [hpc]; rfl)
  have hd : deciding (lead s turn.thread.1)=true := by rw [hlead]; rfl
  refine ⟨hd,fun c => ?_⟩
  have hmem : c∈(gview s).arrived := by
    rw [h.between.decider turn.thread.1 hd]
    exact Finset.mem_univ c
  exact mem_arrived.mp hmem

/-- The cluster of a counted fetch has an empty local queue, one of its threads has counted it
and the others wait calmly for the barrier that the cluster has not yet passed. -/
theorem calm_of_counted_fetch (h : BarrierInv s) {c : Fin n} (hk : countedIn (lead s c)=true) :
    s.word (.taskqueueHead c)=0 ∧
      ∀ i, (committed (s.pc (c,i)).pc=true ∨ calm (s.pc (c,i)).pc=true) ∧
        syncs s (c,i)=passes s c := by
  cases hl : lead s c with
  | none =>
    rw [hl] at hk
    cases hk
  | some p =>
    obtain ⟨i,hi⟩ := lead_spec hl
    rw [hl] at hk
    have hpc : committed (s.pc (c,i)).pc=true := by
      generalize (s.pc (c,i)).pc=pc at hi
      cases pc with
      | fetch pf q =>
        cases Option.some.inj hi
        cases p with
        | bar a k b =>
          have hk' : k=true := hk
          rw [hk']
          rfl
        | _ => cases hk
      | _ => cases hi
    obtain ⟨hhead,hsync,hothers⟩ := (h.inside c).commit i hpc
    refine ⟨hhead,fun j => ?_⟩
    by_cases hj : j=i
    · rw [hj]
      exact ⟨.inl hpc,hsync⟩
    · obtain ⟨hcalm,hs⟩ := hothers j hj
      exact ⟨.inr hcalm,hs⟩

/-- All threads of the cluster of a counted fetch are in the dequeue of the barrier that the
cluster has not yet passed. -/
theorem waiting_of_counted (h : BarrierInv s) {c : Fin n} (hk : countedIn (lead s c)=true)
    (i : Fin m) : inDequeue (s.pc (c,i)).pc=true ∧ syncs s (c,i)=passes s c := by
  obtain ⟨hpc,hs⟩ := (calm_of_counted_fetch h hk).2 i
  refine ⟨?_,hs⟩
  generalize (s.pc (c,i)).pc=pc at hpc
  cases pc with
  | slow p => rfl
  | fetch pf p => rfl
  | _ => rcases hpc with hpc|hpc <;> cases hpc

/-- At a decision every published group was returned, every local queue is empty and no
cluster is backing out. -/
theorem decide_safe (h : BarrierInv s) (fresh : LinkFresh reserve s) (gtq : GtqInv s)
    {t : Thread n m} (he : event cfg s turn=some (.decide t)) :
    (∀ i, i < s.word .tailIndex → returns s i=1) ∧ (∀ c, s.word (.taskqueueHead c)=0) ∧
      ∀ u, backingOut (s.pc u).pc=false := by
  obtain ⟨hd,hall⟩ := all_counted h fresh gtq he
  refine ⟨fun i hi => h.between.all_returned hd hi,
    fun c => (calm_of_counted_fetch h (hall c).2).1,fun u => ?_⟩
  refine Bool.eq_false_of_not_eq_true fun hb => ?_
  obtain ⟨i,hi,hlt⟩ := valid_of_backingOut h gtq hb
  have hnone := h.between.not_deciding_of_valid (hall u.1).1 hi hlt turn.thread.1
  have hd' : deciding ((gview s).lead turn.thread.1)=true := hd
  rw [hnone] at hd'
  cases hd'

/-- A cluster that has not passed a decided barrier is counted. -/
theorem counted_of_behind (h : BarrierInv s) (c : Fin n) :
    passes s c=decides s ∨ (passes s c+1=decides s ∧ countedIn (lead s c)=true) := by
  have hlo := h.between.leads c
  by_cases hk : countedIn (lead s c)=true
  · cases hl : lead s c with
    | none =>
      rw [hl] at hk
      cases hk
    | some p =>
      rw [hl] at hk
      cases p with
      | bar i k b =>
        simp only [gview,hl] at hlo
        exact hlo.2.1.imp id fun hp => ⟨hp.1,hk⟩
      | _ => cases hk
  · exact .inl (hlo.current (Bool.eq_false_of_not_eq_true hk))

/-- A return of `TQ_RET_SYNC` leaves a decided barrier, which all threads have left or wait
for in their dequeue. -/
theorem sync_safe (h : BarrierInv s) (fresh : LinkFresh reserve s) (gtq : GtqInv s)
    (ltq : LtqInv s) {t : Thread n m} (he : event cfg s turn=some (.sync t)) :
    syncs s t<decides s ∧ ∀ u, (inDequeue (s.pc u).pc=true ∧ syncs s u=syncs s t) ∨
      syncs s t < syncs s u := by
  have ht := trans_step cfg s turn fresh
  rw [he] at ht
  obtain ⟨rfl,-⟩ := trans_sync ht
  have hlag : syncs s turn.thread+1=passes s turn.thread.1 :=
    ((moved_step cfg turn fresh gtq ltq).sync (h.inside turn.thread.1) he).1
  -- a cluster behind has no thread that lags
  have hcur : passes s turn.thread.1=decides s := by
    rcases counted_of_behind h turn.thread.1 with hp|⟨-,hk⟩
    · exact hp
    · have hs : syncs s turn.thread=passes s turn.thread.1 :=
        (waiting_of_counted h hk turn.thread.2).2
      omega
  refine ⟨by omega,fun u => ?_⟩
  rcases counted_of_behind h u.1 with hp|⟨hp,hk⟩
  · rcases (h.inside u.1).phase u.2 with hu|⟨hu,hmay⟩
    · have hu' : syncs s u=passes s u.1 := hu
      exact .inr (by omega)
    · have hu' : syncs s u+1=passes s u.1 := hu
      refine .inl ⟨?_,by omega⟩
      have hmay' : mayLag (s.pc u).pc=true := hmay
      generalize (s.pc u).pc=pc at hmay'
      cases pc with
      | slow => rfl
      | fetch => rfl
      | _ => cases hmay'
  · obtain ⟨hin,hs⟩ := waiting_of_counted h hk u.2
    have hs' : syncs s u=passes s u.1 := hs
    exact .inl ⟨hin,by omega⟩

/-- Every group was returned at most once, and only after it was published. -/
theorem returns_le_one (h : BarrierInv s) (i : ℕ) :
    returns s i≤1 ∧ (returns s i≠0 → i < s.word .tailIndex) := by
  obtain ⟨issued,ht,-⟩ := h.between.tickets
  by_cases hi : returns s i=0
  · exact ⟨by omega,fun h => absurd hi h⟩
  · obtain ⟨h1,h2,-⟩ := ht.spent i hi
    exact ⟨le_of_eq h1,fun _ => h2⟩

end Safety

/-- The tail that an iteration of the barrier loop has read and still uses. It is current unless a
group was published since the load. -/
def seen : BarPc → Option ℕ
  | .acqTest τ _ => some τ
  | .test τ => some τ
  | .relTest τ _ _ => some τ
  | .incSel τ => some τ
  | .incWc τ _ => some τ
  | .wcSel τ => some τ
  | .wcLd τ _ => some τ
  | _ => none

/-- A cluster that saw its ticket as the last one saw the current tail and is not behind. This is
why the barrier is never decided with a stale tail when all enqueues come before the first dequeue
or under `CLUSTER_gtq_lock`. -/
def LastTail (s : QState n m) : Prop :=
  ∀ c i k b τ, lead s c=some (.bar i k b) → seen b=some τ → i+1=τ+n →
    s.word .tailIndex=τ ∧ passes s c=decides s

/-- The tail in use comes from the load of this iteration. A step that loads it shows nothing and
stores no tail. -/
theorem trans_seen {word : Loc n → ℕ} {t : Thread n m} {sense pf : ℕ} {p : FetchPc} {w : Wr n}
    {e : Option (Event n m)} {q : Pc} (h : FetchTrans cfg word t sense pf p w e q) {i τ : ℕ}
    {k : Bool} {b : BarPc} (hq : fetchOf q=some (.bar i k b)) (hb : seen b=some τ) :
    (∃ k' b', p=.bar i k' b' ∧ (seen b'=some τ ∨ (b'=.tail ∧ τ=word .tailIndex))) ∧
      (∀ v, w≠some (.tailIndex,v)) ∧ shown e isDecide=0 ∧ shown e (isPass t.1)=0 := by
  cases h with
  | bar h =>
    have hbar : ∀ {j τ' : ℕ} {k' : Bool}, some (barBranch (n := n) j k' τ')=some (.bar i k b) →
        j=i ∧ τ'=τ := by
      intro j τ' k' he
      rcases barBranch_cases (n := n) j k' τ' with hc|hc|hc
      · rw [hc] at he
        cases he
        cases hb
      · rw [hc] at he
        cases he
        cases hb
        exact ⟨rfl,rfl⟩
      · rw [hc] at he
        cases he
        cases hb
    cases h with
    | tailCounted hk =>
      obtain ⟨rfl,rfl⟩ := hbar hq
      exact ⟨⟨_,_,rfl,.inr ⟨rfl,rfl⟩⟩,(fun v hw => by cases hw),rfl,rfl⟩
    | notPending hl =>
      obtain ⟨rfl,rfl⟩ := hbar hq
      exact ⟨⟨_,_,rfl,.inl rfl⟩,(fun v hw => by rw [hw] at hl; cases hl.write),rfl,rfl⟩
    | incWc τ' s =>
      obtain ⟨rfl,rfl⟩ := hbar hq
      exact ⟨⟨_,_,rfl,.inl rfl⟩,(fun v hw => by cases hw),rfl,rfl⟩
    | tail hk =>
      cases hq
      cases hb
      exact ⟨⟨_,_,rfl,.inr ⟨rfl,rfl⟩⟩,(fun v hw => by cases hw),rfl,rfl⟩
    | acq ha =>
      cases hq
      exact ⟨⟨_,_,rfl,.inl hb⟩,(fun v hw => by rw [hw] at ha; cases ha.write),rfl,rfl⟩
    | grant ha =>
      cases hq
      exact ⟨⟨_,_,rfl,.inl hb⟩,(fun v hw => by rw [hw] at ha; cases ha.write),rfl,rfl⟩
    | rel hl =>
      cases hq
      exact ⟨⟨_,_,rfl,.inl hb⟩,(fun v hw => by rw [hw] at hl; cases hl.write),rfl,rfl⟩
    | pending hl =>
      cases hq
      exact ⟨⟨_,_,rfl,.inl hb⟩,(fun v hw => by rw [hw] at hl; cases hl.write),rfl,rfl⟩
    | test => cases hq; exact ⟨⟨_,_,rfl,.inl hb⟩,(fun v hw => by cases hw),rfl,rfl⟩
    | incSel => cases hq; exact ⟨⟨_,_,rfl,.inl hb⟩,(fun v hw => by cases hw),rfl,rfl⟩
    | wcSel => cases hq; exact ⟨⟨_,_,rfl,.inl hb⟩,(fun v hw => by cases hw),rfl,rfl⟩
    | passSt => cases hq
    | backSt => cases hq
    | _ => cases hq; cases hb
  | enterSt => cases hq; cases hb
  | _ => cases hq

section BulkSynchronous

variable {s : QState n m} {turn : QTurn n m}

/-- Calls of `SW_TaskQueue_Loop_SEQUENTIAL`. -/
def isSequential : Choice → Bool
  | .loopSequential _ => true
  | _ => false

/-- No thread is in the sequential enqueue. -/
def NoSeq (s : QState n m) : Prop := ∀ t args p, (s.pc t).pc≠.seq args p

/-- No thread dequeues while one is in the sequential enqueue. -/
def SeqApart (s : QState n m) : Prop :=
  ∀ t args p, (s.pc t).pc=.seq args p → ∀ u, inDequeue (s.pc u).pc=false

/-- A fetch is a part of the dequeue. -/
theorem inDequeue_of_fetch {pc : Pc} {p : FetchPc} (h : fetchOf pc=some p) : inDequeue pc=true := by
  cases pc with
  | fetch pf q => rfl
  | _ => cases h

/-- The sequential enqueue is entered from outside. -/
theorem trans_seq {word : Loc n → ℕ} {t : Thread n m} {sense esense : ℕ} {pc : Pc} {w : Wr n}
    {e : Option (Event n m)} {args : Args} {p : SeqPc}
    (h : Trans cfg word t sense esense pc w e (.seq args p)) :
    pc=.outside ∨ ∃ p', pc=.seq args p' := by
  cases h with
  | fast h => cases h
  | slow h => cases h
  | fetch h => cases h
  | par h => cases h
  | seq h => cases h <;> exact .inr ⟨_,rfl⟩
  | seqCall => exact .inl rfl

/-- Without a call of the sequential enqueue no thread is in it. It is entered from outside only. -/
theorem noSeq_step (hcall : isSequential turn.choice=false)
    (fresh : LinkFresh reserve s) (h : NoSeq s) : NoSeq (step (program n m cfg) s turn) := by
  have ht := trans_step cfg s turn fresh
  intro t args p hpc
  by_cases htt : t=turn.thread
  · subst htt
    by_cases hout : (s.pc turn.thread).pc=.outside
    · rw [pc_self] at hpc
      simp only [next,nextPc,hout] at hpc
      cases hc : turn.choice with
      | loopSequential args' =>
        rw [hc] at hcall
        cases hcall
      | _ =>
        rw [hc] at hpc
        cases hpc
    · rw [hpc] at ht
      obtain ho|⟨p',hp'⟩ := trans_seq ht
      · exact hout ho
      · exact h _ _ _ hp'
  · rw [pc_other _ _ _ htt] at hpc
    exact h t args p hpc

/-- Without sequential enqueues the tail is written by a holder of `CLUSTER_gtq_lock`
outside the dequeue. -/
theorem holdsGtq_of_publish {word : Loc n → ℕ} {t : Thread n m} {sense esense : ℕ} {pc q : Pc}
    {e : Option (Event n m)} {v : ℕ}
    (h : Trans cfg word t sense esense pc (some (.tailIndex,v)) e q)
    (hseq : ∀ args p, pc≠.seq args p) : holdsGtq pc=true ∧ fetchOf pc=none ∧ fetchOf q=none := by
  cases h.writes with
  | parTail => exact ⟨rfl,rfl,rfl⟩
  | seqTail => exact absurd rfl (hseq _ _)

/-- The ticket of a cluster that is not behind is held. -/
theorem held_eq {c : Fin n} (hp : passes s c=decides s) : (gview s).held c=ticket (lead s c) :=
  if_pos hp

/-- The last ticket rules out a cluster without one. -/
theorem no_idle_cluster (h : BarrierInv s) {c d : Fin n} {i : ℕ} (hp : passes s c=decides s)
    (hc : ticket (lead s c)=some i) (hi : i+1=s.word .tailIndex+n) : ticket (lead s d)≠none := by
  obtain ⟨issued,ht,-⟩ := h.between.tickets
  have hlt := ht.below c i ((held_eq hp).trans hc)
  obtain ⟨j,hj,-⟩ := ht.held_ahead (by
    rw [Fintype.card_fin]
    exact hi ▸ hlt) d
  unfold GView.held at hj
  split at hj
  · intro hnone
    exact Option.some_ne_none j (hj.symm.trans hnone)
  · cases hj

/-- One turn keeps the tail of the last ticket: a thread that publishes holds `CLUSTER_gtq_lock` of
its cluster, which then has no ticket, so no other ticket is the last one. -/
theorem lastTail_step (h : BarrierInv s) (fresh : LinkFresh reserve s) (gtq : GtqInv s)
    (hseq : SeqApart s) (hl : LastTail s) : LastTail (step (program n m cfg) s turn) := by
  have ht := trans_step cfg s turn fresh
  have hm := gmoved_step cfg fresh turn
  intro c i k b τ hlead hb hlast
  by_cases hmove : c=turn.thread.1 ∧ fetchOf (s.pc turn.thread).pc≠none
  · obtain ⟨rfl,hin⟩ := hmove
    rw [lead_step fresh gtq turn hin] at hlead
    obtain ⟨p,hp⟩ := Option.ne_none_iff_exists'.mp hin
    have hlead' := lead_eq gtq hp
    generalize hpc : (s.pc turn.thread).pc=pc at hp ht
    cases pc with
    | fetch pf p' =>
      cases Option.some.inj hp
      cases ht with
      | fetch hf =>
        obtain ⟨⟨k',b',rfl,hsrc⟩,hw,hd,hpass⟩ := trans_seen hf hlead hb
        have htail : (step (program n m cfg) s turn).word .tailIndex=s.word .tailIndex := by
          rw [word_step,applyWrite_keep hw]
        have hdec : decides (step (program n m cfg) s turn)=decides s := by
          have := hm.decides
          rw [hd] at this
          exact this
        have hpas : passes (step (program n m cfg) s turn) turn.thread.1=
            passes s turn.thread.1 := by
          have := hm.passes_self
          rw [hpass] at this
          exact this
        rw [htail,hdec,hpas]
        rcases hsrc with hsrc|⟨rfl,rfl⟩
        · exact hl _ i k' b' τ hlead' hsrc hlast
        · refine ⟨rfl,?_⟩
          have hlo := h.between.leads turn.thread.1
          simp only [gview,hlead'] at hlo
          rcases hlo.2.1 with hp|⟨-,-,hp|hp⟩
          · exact hp
          · cases hp
          · omega
    | _ => cases hp
  · -- the cluster itself does not move
    have hsame : lead s c=some (.bar i k b) ∧
        passes (step (program n m cfg) s turn) c=passes s c := by
      by_cases hc : c=turn.thread.1
      · have hnone : fetchOf (s.pc turn.thread).pc=none := by
          by_contra hne
          exact hmove ⟨hc,hne⟩
        subst hc
        have hout : fetchOf ((step (program n m cfg) s turn).pc turn.thread).pc=none := by
          cases hq : fetchOf ((step (program n m cfg) s turn).pc turn.thread).pc with
          | none => rfl
          | some p =>
            obtain ⟨rfl,-,-⟩ := trans_enterFetch ht hnone hq
            rw [lead_eq (gtqInv_step fresh gtq turn) hq] at hlead
            cases hlead
        rw [lead_same turn hnone hout] at hlead
        refine ⟨hlead,?_⟩
        have := hm.passes_self
        rw [(trans_noBarrierEvent ht hnone turn.thread.1).2.1] at this
        exact this
      · exact ⟨(hm.lead_other c hc).symm.trans hlead,hm.passes_other c hc⟩
    obtain ⟨hleads,hpasses⟩ := hsame
    obtain ⟨htail,hp⟩ := hl c i k b τ hleads hb hlast
    have htick : ticket (lead s c)=some i := by rw [hleads]; rfl
    have htail' : (step (program n m cfg) s turn).word .tailIndex=s.word .tailIndex := by
      rw [word_step,applyWrite_keep]
      intro v hw
      rw [hw] at ht
      have hnoseq : ∀ args p, (s.pc turn.thread).pc≠.seq args p := by
        intro args p hpc
        obtain ⟨j,hj⟩ := lead_spec hleads
        have hout := hseq turn.thread args p hpc (c,j)
        rw [inDequeue_of_fetch hj] at hout
        cases hout
      obtain ⟨hheld,hnone,-⟩ := holdsGtq_of_publish ht hnoseq
      refine no_idle_cluster h hp htick (by omega) (d := turn.thread.1) ?_
      rw [lead_none fun j => ?_]
      · rfl
      · cases hj : fetchOf (s.pc (turn.thread.1,j)).pc with
        | none => rfl
        | some p =>
          have hj' := gtq.unique (turn.thread.1,j) turn.thread rfl (holdsGtq_of_fetch hj) hheld
          rw [hj',hnone] at hj
          cases hj
    have hdec : decides (step (program n m cfg) s turn)=decides s := by
      cases he : event cfg s turn with
      | none =>
        have := hm.decides
        rw [he] at this
        exact this
      | some e =>
        cases e with
        | decide t =>
          obtain ⟨hd,-⟩ := all_counted h fresh gtq he
          obtain ⟨hpd,j,hj,hjlast⟩ := (h.between.leads turn.thread.1).last hd
          obtain ⟨issued,hi,-⟩ := h.between.tickets
          have hij : j=i := by
            have hjl : j+1=s.word .tailIndex+n := hjlast
            omega
          have hc : c=turn.thread.1 := by
            rw [hij] at hj
            exact hi.distinct c turn.thread.1 i ((held_eq hp).trans htick) ((held_eq hpd).trans hj)
          refine absurd ⟨hc,fun hnone => ?_⟩ hmove
          have := (trans_noBarrierEvent ht hnone turn.thread.1).1
          rw [he] at this
          cases this
        | _ =>
          have := hm.decides
          rw [he] at this
          exact this
    rw [htail',hdec,hpasses]
    exact ⟨htail,hp⟩

/-- Bulk-synchronous use: enqueues are parallel ones, and fewer than `2^31` groups are
published in total. -/
structure BulkSynchronous (cfg : Config) (s : QState n m) (turn : QTurn n m) : Prop where
  /-- `SW_TaskQueue_Loop_SEQUENTIAL` is not called. -/
  parallel : isSequential turn.choice=false
  /-- The tail index stays below `2^31`. -/
  few : (event cfg s turn).any isPublish=true → s.word .tailIndex+1<2^31

/-- Whether a turn is bulk-synchronous can be checked. -/
instance (cfg : Config) (s : QState n m) (turn : QTurn n m) :
    Decidable (BulkSynchronous cfg s turn) :=
  decidable_of_iff (isSequential turn.choice=false ∧
    ((event cfg s turn).any isPublish=true → s.word .tailIndex+1<2^31))
    ⟨fun h => ⟨h.1,h.2⟩,fun h => ⟨h.1,h.2⟩⟩

/-- What holds in every state of bulk-synchronous use with one group per fetch. It joins the
barrier, the local queues and the tail. -/
structure BulkInv (s : QState n m) : Prop where
  /-- Both levels of the barrier. -/
  barrier : BarrierInv s
  /-- The local queues of fetching clusters. -/
  fetch : FetchInv s
  /-- The tail of the last ticket. -/
  last : LastTail s
  /-- No sequential enqueue. -/
  noSeq : NoSeq s

/-- With one group per fetch all threads are found waiting on an empty queue only. -/
theorem FetchInv.findsTasks (h : FetchInv s) : findsTasks s turn=false := by
  unfold TaskQueueBarrier.findsTasks
  split
  · rename_i hpc
    have hempty := (h _ _ _ hpc).2 rfl
    simp [hempty]
  · rfl

/-- The last ticket finds all clusters counted on the current tail only. -/
theorem LastTail.findsStale (hl : LastTail s) (h : BarrierInv s) (gtq : GtqInv s) :
    findsStale s turn=false := by
  unfold TaskQueueBarrier.findsStale
  split
  · rename_i hpc
    have hlead : lead s turn.thread.1=_ := lead_eq gtq (by rw [hpc]; rfl)
    have hlo := h.between.leads turn.thread.1
    simp only [gview,hlead] at hlo
    have htail := (hl turn.thread.1 _ _ _ _ hlead rfl hlo.2.2.2.1).1
    simp [htail]
  · rfl

/-- Bulk-synchronous turns meet what the barrier needs. -/
theorem BulkInv.barrierOk (h : BulkInv s) (gtq : GtqInv s) (hturn : BulkSynchronous cfg s turn) :
    BarrierOk cfg s turn := by
  refine ⟨h.fetch.findsTasks,h.last.findsStale h.barrier gtq,fun he => ?_⟩
  have hfew := hturn.few he
  unfold globalTqSize wordSize
  omega

/-- Bulk-synchronous use keeps the invariant in every reached state. -/
theorem bulkInv_reachable (hn : n≤2^15) (hm : m<2^32) (hfetch : cfg.fetch=1)
    (hs : Reachable (program n m cfg) (initial n m) (BulkSynchronous cfg) s) : BulkInv s := by
  have hnt : n<globalTqSize := lt_of_le_of_lt hn (by decide)
  refine Reachable.invariant (I := BulkInv) ?_ ?_ hs
  · refine ⟨⟨clusterInv_initial,gInv_initial⟩,?_,?_,?_⟩
    · exact fun t pf p h => by cases h
    · intro c i k b τ h
      rw [lead_none fun j => rfl] at h
      cases h
    · exact fun t args p h => by cases h
  · intro s turn hs hturn h
    have fresh := linkFresh_reachable hs
    have gtq := gtqInv_reachable hs
    exact ⟨barrierInv_step hm hnt fresh gtq (ltqInv_reachable hm hs) (h.barrierOk gtq hturn)
      h.barrier,fetchInv_step hfetch fresh gtq h.barrier.inside h.fetch turn,
      lastTail_step h.barrier fresh gtq (fun t args p hp => absurd hp (h.noSeq t args p)) h.last,
      noSeq_step hturn.parallel fresh h.noSeq⟩

/-- The barrier of the software task queue in bulk-synchronous use, in every reachable state
of every interleaving: a dequeue returns `TQ_RET_SYNC` for barrier `syncs s t` only after
that barrier was decided, and only if every thread is inside the dequeue of the same phase or
has already left the barrier; and when a barrier is decided, every group index below the tail
was returned and every local queue is empty. -/
theorem bulk_synchronous_barrier (hn : n≤2^15) (hm : m<2^32) (hfetch : cfg.fetch=1)
    (hs : Reachable (program n m cfg) (initial n m) (BulkSynchronous cfg) s) (turn : QTurn n m) :
    (∀ t, event cfg s turn=some (.sync t) → syncs s t<decides s ∧
      ∀ u, (inDequeue (s.pc u).pc=true ∧ syncs s u=syncs s t) ∨ syncs s t < syncs s u) ∧
    ∀ t, event cfg s turn=some (.decide t) →
      (∀ i, i < s.word .tailIndex → 0 < returns s i) ∧ ∀ c, s.word (.taskqueueHead c)=0 := by
  have h := (bulkInv_reachable hn hm hfetch hs).barrier
  have fresh := linkFresh_reachable hs
  have gtq := gtqInv_reachable hs
  refine ⟨fun t he => sync_safe h fresh gtq (ltqInv_reachable hm hs) he,fun t he => ?_⟩
  obtain ⟨hreturned,hempty,-⟩ := decide_safe h fresh gtq he
  exact ⟨fun i hi => by rw [hreturned i hi]; exact one_pos,hempty⟩

end BulkSynchronous

/-- Of two threads of a cluster the first enqueues a task into the local queue and, as that has
one, a second task as a published group; the second thread returns the first task, the first one
fetches the group and returns its task, the second dequeues again until it is counted, and the
first dequeues for `k` more turns. -/
def groupRound (k : ℕ) : List (QTurn 1 2) :=
  alone left (.loopParallel singleTask)::List.replicate 21 (alone left .stay)++
    alone left (.loopParallel singleTask)::List.replicate 24 (alone left .stay)++
    alone right .dequeue::List.replicate 12 (alone right .stay)++
    alone left .dequeue::List.replicate 49 (alone left .stay)++
    alone right .dequeue::List.replicate 7 (alone right .stay)++
    alone left .dequeue::List.replicate k (alone left .stay)

/-- The first thread decides the barrier with one published group, and later returns
`TQ_RET_SYNC`. -/
theorem groupRound_run :
    (allows (program 1 2 oneGroup) (BulkSynchronous oneGroup) (initial 1 2) (groupRound 40)=true ∧
      event oneGroup (run (program 1 2 oneGroup) (initial 1 2) (groupRound 40)) (alone left .stay)=
        some (.decide (solo,left)) ∧
      (run (program 1 2 oneGroup) (initial 1 2) (groupRound 40)).word .tailIndex=1) ∧
    allows (program 1 2 oneGroup) (BulkSynchronous oneGroup) (initial 1 2) (groupRound 44)=true ∧
    event oneGroup (run (program 1 2 oneGroup) (initial 1 2) (groupRound 44)) (alone left .stay)=
      some (.sync (solo,left)) := by
  decide +kernel

/-- When the barrier is decided the published group was returned and the local queue is empty, and
the thread that returns `TQ_RET_SYNC` does so for a decided barrier. -/
theorem bulk_synchronous_barrier_group :
    0 < returns (run (program 1 2 oneGroup) (initial 1 2) (groupRound 40)) 0 ∧
    (run (program 1 2 oneGroup) (initial 1 2) (groupRound 40)).word (.taskqueueHead solo)=0 ∧
    syncs (run (program 1 2 oneGroup) (initial 1 2) (groupRound 44)) (solo,left)<
      decides (run (program 1 2 oneGroup) (initial 1 2) (groupRound 44)) := by
  obtain ⟨⟨hallowed,hdecide,htail⟩,hallowed',hsync⟩ := groupRound_run
  obtain ⟨hreturned,hempty⟩ := (bulk_synchronous_barrier (by decide) (by decide) rfl
    (.of_allows .init hallowed) (alone left .stay)).2 _ hdecide
  exact ⟨hreturned 0 (by rw [htail]; decide),hempty solo,
    ((bulk_synchronous_barrier (by decide) (by decide) rfl (.of_allows .init hallowed')
      (alone left .stay)).1 _ hsync).1⟩

section Publication

variable {s : QState n m} {turn : QTurn n m}

/-- A publication is the increment of the tail index. -/
theorem trans_publish {word : Loc n → ℕ} {t u : Thread n m} {sense esense : ℕ} {pc q : Pc}
    {w : Wr n} {i : ℕ} {nodes : List ℕ}
    (h : Trans cfg word t sense esense pc w (some (.publish u i nodes)) q) :
    i=word .tailIndex ∧ w=some (.tailIndex,(word .tailIndex+1)%wordSize) := by
  cases h with
  | fast h => cases h
  | slow h => cases h
  | fetch h =>
    cases h with
    | bar hb => cases hb
  | par h =>
    cases h with
    | incTail => exact ⟨rfl,rfl⟩
  | seq h =>
    cases h with
    | incTail => exact ⟨rfl,rfl⟩

/-- The tail index is written by publications only. -/
theorem trans_tail {word : Loc n → ℕ} {t : Thread n m} {sense esense : ℕ} {pc q : Pc}
    {e : Option (Event n m)} {v : ℕ}
    (h : Trans cfg word t sense esense pc (some (.tailIndex,v)) e q) :
    ∃ nodes, e=some (.publish t (word .tailIndex) nodes) := by
  refine (trans_barrierLoc h ?_ rfl).2.2.2.2
  cases h.writes <;> rfl

/-- Publications count the tail index up: group `i` was published once if `i` is below the tail, and
otherwise not at all. -/
def TailInv (s : QState n m) : Prop :=
  ∀ i, published s i=if i < s.word .tailIndex then 1 else 0

/-- One turn that does not wrap the tail index around keeps the count: a publication is of the group
at the tail, and is the first of it. -/
theorem tailInv_step (fresh : LinkFresh reserve s)
    (hroom : (event cfg s turn).any isPublish=true → s.word .tailIndex+1+globalTqSize<wordSize)
    (h : TailInv s) : TailInv (step (program n m cfg) s turn) := by
  have ht := trans_step cfg s turn fresh
  intro i
  have hcount : published (step (program n m cfg) s turn) i=
      published s i+shown (event cfg s turn) (isPublishOf i) := countP_step ..
  rw [hcount,h i,word_step]
  by_cases hp : (event cfg s turn).any isPublish=true
  · cases he : event cfg s turn with
    | none =>
      rw [he] at hp
      cases hp
    | some e =>
      cases e with
      | publish u j nodes =>
        have hlt := hroom hp
        rw [he] at ht
        obtain ⟨rfl,hw⟩ := trans_publish ht
        rw [hw,applyWrite_self,Nat.mod_eq_of_lt (by omega)]
        by_cases hi : s.word .tailIndex=i
        · simp [isPublishOf,hi]
        · simp only [shown_some,isPublishOf,beq_iff_eq,hi,if_false,Nat.add_zero]
          split <;> split <;> omega
      | _ =>
        rw [he] at hp
        cases hp
  · have hnone : shown (event cfg s turn) (isPublishOf i)=0 := by
      cases he : event cfg s turn with
      | none => rfl
      | some e =>
        cases e with
        | publish => exact absurd (by rw [he]; rfl) hp
        | _ => rfl
    rw [hnone,applyWrite_keep]
    · rfl
    · intro v hw
      rw [hw] at ht
      obtain ⟨nodes,he⟩ := trans_tail ht
      exact hp (by rw [he]; rfl)

/-- When every index below the tail was returned, exactly the published groups were. -/
theorem returns_eq_published (h : BarrierInv s) (htail : TailInv s)
    (hall : ∀ i, i < s.word .tailIndex → returns s i=1) (i : ℕ) : returns s i=published s i := by
  rw [htail i]
  split
  · exact hall i ‹_›
  · rename_i hi
    by_contra hne
    exact hi ((returns_le_one h i).2 hne)

/-- The turns that find all clusters counted do so on the current tail, and the tail index
stays away from its wraparound. -/
structure CurrentTail (cfg : Config) (s : QState n m) (turn : QTurn n m) : Prop where
  /-- The tail that was read is current when all clusters are found counted. -/
  current : findsStale s turn=false
  /-- The tail index stays more than a queue size below its wraparound. -/
  room : (event cfg s turn).any isPublish=true → s.word .tailIndex+1+globalTqSize<wordSize

/-- Whether a turn uses the current tail can be checked. -/
instance (cfg : Config) (s : QState n m) (turn : QTurn n m) : Decidable (CurrentTail cfg s turn) :=
  decidable_of_iff (findsStale s turn=false ∧
    ((event cfg s turn).any isPublish=true → s.word .tailIndex+1+globalTqSize<wordSize))
    ⟨fun h => ⟨h.1,h.2⟩,fun h => ⟨h.1,h.2⟩⟩

/-- With one group per fetch and current tails the barrier is in order, whoever enqueues. -/
theorem currentTail_reachable (hn : n<globalTqSize) (hm : m<wordSize) (hfetch : cfg.fetch=1)
    (hs : Reachable (program n m cfg) (initial n m) (CurrentTail cfg) s) :
    (BarrierInv s ∧ FetchInv s) ∧ TailInv s := by
  refine Reachable.invariant (I := fun s => (BarrierInv s ∧ FetchInv s) ∧ TailInv s) ?_ ?_ hs
  · refine ⟨⟨⟨clusterInv_initial,gInv_initial⟩,fun t pf p h => by cases h⟩,fun i => ?_⟩
    exact (if_neg (Nat.not_lt_zero i)).symm
  · intro s turn hs hturn h
    have fresh := linkFresh_reachable hs
    have gtq := gtqInv_reachable hs
    obtain ⟨⟨hb,hf⟩,ht⟩ := h
    exact ⟨⟨barrierInv_step hm hn fresh gtq (ltqInv_reachable hm hs)
      ⟨hf.findsTasks,hturn.current,hturn.room⟩ hb,fetchInv_step hfetch fresh gtq hb.inside hf turn⟩,
      tailInv_step fresh hturn.room ht⟩

/-- Enqueues of any thread at any time, with one group per fetch, in every run whose turns use
the current tail: every group index is published and returned at most once, and only
published ones are returned; and when the global sense is flipped, every published group was
returned exactly once and no cluster is backing out of the barrier. -/
theorem published_groups_returned (hn : n<2^18) (hm : m<2^32) (hfetch : cfg.fetch=1)
    (hs : Reachable (program n m cfg) (initial n m) (CurrentTail cfg) s) (turn : QTurn n m) :
    (∀ i, returns s i≤published s i ∧ published s i≤1) ∧
    ∀ t, event cfg s turn=some (.decide t) →
      (∀ i, returns s i=published s i) ∧ ∀ u, backingOut (s.pc u).pc=false := by
  obtain ⟨⟨h,-⟩,htail⟩ := currentTail_reachable hn hm hfetch hs
  have hle : ∀ i, returns s i≤published s i ∧ published s i≤1 := by
    intro i
    obtain ⟨h1,h2⟩ := returns_le_one h i
    rw [htail i]
    split
    · exact ⟨h1,le_rfl⟩
    · refine ⟨?_,by omega⟩
      by_contra hne
      exact absurd (h2 (by omega)) ‹_›
  refine ⟨hle,fun t he => ?_⟩
  obtain ⟨hreturned,-,hback⟩ := decide_safe h (linkFresh_reachable hs) (gtqInv_reachable hs) he
  exact ⟨returns_eq_published h htail hreturned,hback⟩

end Publication

/-- Thread 0 publishes a group, fetches it and returns its task; thread 1 dequeues until it is
counted, and thread 0 dequeues until it comes to decide the barrier. -/
def enqueueThenBarrier : List (QTurn 1 2) :=
  alone left (.loopSequential singleTask)::List.replicate 11 (alone left .stay)++
    alone left .dequeue::List.replicate 49 (alone left .stay)++
    alone right .dequeue::List.replicate 7 (alone right .stay)++
    alone left .dequeue::List.replicate 40 (alone left .stay)

/-- When the barrier is decided the published group was returned once. Two threads of a cluster
share the run, and one of them decides. -/
theorem published_groups_returned_decided :
    published (run (program 1 2 oneGroup) (initial 1 2) enqueueThenBarrier) 0=1 ∧
    returns (run (program 1 2 oneGroup) (initial 1 2) enqueueThenBarrier) 0=1 := by
  have hp : published (run (program 1 2 oneGroup) (initial 1 2) enqueueThenBarrier) 0=1 := by
    decide +kernel
  have hdecide : event oneGroup (run (program 1 2 oneGroup) (initial 1 2) enqueueThenBarrier)
      (alone left .stay)=some (.decide (solo,left)) := by decide +kernel
  have hs : Reachable (program 1 2 oneGroup) (initial 1 2) (CurrentTail oneGroup)
      (run (program 1 2 oneGroup) (initial 1 2) enqueueThenBarrier) :=
    .of_allows .init (by decide +kernel)
  have h := (published_groups_returned (by decide) (by decide) rfl hs (alone left .stay)).2 _
    hdecide
  exact ⟨hp,(h.1 0).trans hp⟩

/-- Thread 1 enters the barrier and reads the tail; thread 0 publishes a group and waits in
its dequeue; thread 1 finds all threads and then all clusters counted. -/
def staleTail : List (QTurn 1 2) :=
  alone right .dequeue::List.replicate 26 (alone right .stay)++
    alone left (.loopSequential singleTask)::List.replicate 11 (alone left .stay)++
    alone left .dequeue::List.replicate 7 (alone left .stay)++
    List.replicate 14 (alone right .stay)

/-- The barrier is decided while the published group 0 was not returned: the tail was read before
the group was published. -/
theorem stale_tail_skips_group :
    (event oneGroup (run (program 1 2 oneGroup) (initial 1 2) staleTail)
      (alone 1 .stay)).any isDecide=true ∧
    published (run (program 1 2 oneGroup) (initial 1 2) staleTail) 0=1 ∧
    returns (run (program 1 2 oneGroup) (initial 1 2) staleTail) 0=0 := by
  decide +kernel

end RigelTarget.TaskQueueSafety
