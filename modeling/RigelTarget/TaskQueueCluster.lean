import RigelTarget.TaskQueueLocks
import Mathlib.Data.Fintype.Card
import Mathlib.Data.Finset.Card

/-!
# The barrier inside a cluster

A thread of the slow path counts itself in `CLUSTER_core_waitcount`, and the holder
of `CLUSTER_gtq_lock` takes the cluster into the global barrier when it sees all
threads counted. From that test until the cluster passes or backs out, every other
thread goes around its waiting loop on an empty local queue. A thread may lag one
barrier behind its cluster; then it only finds its way to the return of
`TQ_RET_SYNC`. The invariant needs three facts of the turns: the test succeeds on an
empty queue only, and a cluster leaves the barrier only as a counted one.
-/

namespace RigelTarget.TaskQueueCluster

open SharedMemory TaskQueueModel TaskQueueProgram TaskQueueSteps TaskQueueFrame TaskQueueLocks

variable {n m : ℕ} {cfg : Config}

/-- The local states counted in `CLUSTER_core_waitcount`: from the increment at the entry of the
slow path to the decrement that follows the unlink of a task, or to the return of `TQ_RET_SYNC`. -/
def counted : Pc → Bool
  | .slow (.inc _) => false
  | .slow (.relPop _ _ _) => false
  | .slow _ => true
  | .fetch _ _ => true
  | _ => false

/-- The waiting loop of a thread that neither takes a task nor holds `CLUSTER_gtq_lock`. A calm
thread has no task and will find none until another thread links one. -/
def calm : Pc → Bool
  | .slow .sense => true
  | .slow (.acq _) => true
  | .slow .senseLocked => true
  | .slow .head => true
  | .slow (.relNull _) => true
  | .slow (.tryGtq _) => true
  | _ => false

/-- The local states on the way to the return of `TQ_RET_SYNC`. -/
def leaving : Pc → Bool
  | .slow (.relSync _) => true
  | .fetch _ .unlockSync => true
  | _ => false

/-- The local states in which a thread may be one barrier behind its cluster: it waits, and will
return `TQ_RET_SYNC` at its next test of the sense. -/
def mayLag (pc : Pc) : Bool :=
  calm pc || leaving pc || match pc with
    | .fetch _ .sense => true
    | _ => false

/-- The local states between the test of a nonempty local queue and its unlink. The thread owns the
lock of the queue, so the queue stays nonempty. -/
def midPop : Pc → Bool
  | .fast (.headAgain _) => true
  | .fast (.next _ _) => true
  | .fast (.setHead _ _ _) => true
  | .slow .headAgain => true
  | .slow (.copy _ _) => true
  | .slow (.next _ _) => true
  | .slow (.setHead _ _ _) => true
  | _ => false

/-- The local states of the barrier loop after the test that found all threads waiting. -/
def committedBar : BarPc → Bool
  | .relTest _ true _ => true
  | .incSel _ => true
  | .incWc _ _ => true
  | _ => false

/-- The holder of `CLUSTER_gtq_lock` has found all threads of the cluster waiting. From then on none
of them can take a task before the barrier. -/
def committed : Pc → Bool
  | .fetch _ (.bar _ k b) => k || committedBar b
  | _ => false

/-- The wait count is reset and the threads are not yet released. -/
def zeroed : Pc → Bool
  | .fetch _ (.bar _ _ .passLd) => true
  | .fetch _ (.bar _ _ (.passSt _)) => true
  | _ => false

/-- The cluster leaves the barrier: its wait count is reset and its sense is about to be flipped. -/
def passPc : Pc → Bool
  | .fetch _ (.bar _ _ .passW) => true
  | pc => zeroed pc

/-- The end of an iteration of the barrier loop is committed if the cluster is counted. -/
@[simp] theorem committed_barBranch (pf h : ℕ) (k : Bool) (tail : ℕ) :
    committed (.fetch pf (barBranch (n := n) h k tail))=k := by
  rcases barBranch_cases (n := n) h k tail with he|he|he
  · rw [he]; exact Bool.or_false k
  · rw [he]; exact Bool.or_false k
  · rw [he]; exact Bool.or_false k

/-- The end of an iteration of the barrier loop does not leave the barrier. -/
@[simp] theorem passPc_barBranch (pf h : ℕ) (k : Bool) (tail : ℕ) :
    passPc (.fetch pf (barBranch (n := n) h k tail))=false := by
  rcases barBranch_cases (n := n) h k tail with he|he|he
  · rw [he]; rfl
  · rw [he]; rfl
  · rw [he]; rfl

/-- The end of an iteration of the barrier loop is not on the way to the return. -/
@[simp] theorem leaving_barBranch (pf h : ℕ) (k : Bool) (tail : ℕ) :
    leaving (.fetch pf (barBranch (n := n) h k tail))=false := by
  rcases barBranch_cases (n := n) h k tail with he|he|he
  · rw [he]; rfl
  · rw [he]; rfl
  · rw [he]; rfl

/-- Resetting is leaving. -/
theorem passPc_of_zeroed {pc : Pc} (h : zeroed pc=true) : passPc pc=true := by
  unfold passPc
  split
  · rfl
  · exact h

/-- A calm thread may lag. -/
theorem mayLag_of_calm {pc : Pc} (h : calm pc=true) : mayLag pc=true := by
  unfold mayLag
  rw [h]
  rfl

/-- A calm thread is not leaving. -/
theorem leaving_of_calm {pc : Pc} (h : calm pc=true) : leaving pc=false := by
  cases pc with
  | slow p => cases p <;> first | rfl | cases h
  | _ => cases h

/-- A committed thread is in the barrier. -/
theorem bar_of_committed {pc : Pc} (h : committed pc=true) :
    ∃ pf i k b, pc=.fetch pf (.bar i k b) := by
  cases pc with
  | fetch pf p =>
    cases p with
    | bar i k b => exact ⟨pf,i,k,b,rfl⟩
    | _ => cases h
  | _ => cases h

/-- A committed thread holds `CLUSTER_gtq_lock`. -/
theorem holdsGtq_of_committed {pc : Pc} (h : committed pc=true) : holdsGtq pc=true := by
  cases pc with
  | fetch pf p => rfl
  | _ => cases h

/-- A thread between test and unlink owns the lock of the local queue. -/
theorem owns_of_midPop {pc : Pc} (h : midPop pc=true) : (ltqPhase pc).owns=true := by
  cases pc with
  | fast p => cases p <;> first | rfl | cases h
  | slow p => cases p <;> first | rfl | cases h
  | _ => cases h

section Steps

variable {word : Loc n → ℕ} {t : Thread n m} {sense esense : ℕ} {pc q : Pc} {w : Wr n}
  {e : Option (Event n m)} {c : Fin n} {v : ℕ}

/-- A pass is shown by the store of the flipped sense. -/
theorem trans_pass {u : Thread n m} (h : Trans cfg word t sense esense pc w (some (.pass u)) q) :
    u=t ∧ ∃ pf i k v, pc=.fetch pf (.bar i k (.passSt v)) := by
  cases h with
  | fast h => cases h
  | slow h => cases h
  | fetch h =>
    cases h with
    | bar hb =>
      cases hb with
      | passSt v => exact ⟨rfl,_,_,_,v,rfl⟩
  | par h => cases h
  | seq h => cases h

/-- The store of the flipped sense is on the way to the return. -/
theorem trans_passSt {pf i : ℕ} {k : Bool}
    (h : Trans cfg word t sense esense (.fetch pf (.bar i k (.passSt v))) w e q) :
    w=some (.percoreSense t.1,flipSense v) ∧ e=some (.pass t) ∧ q=.fetch pf .unlockSync := by
  cases h with
  | fetch h =>
    cases h with
    | bar hb =>
      cases hb with
      | passSt => exact ⟨rfl,rfl,rfl⟩

/-- `CLUSTER_percore_sense` is written by the pass only. -/
theorem trans_percore (h : Trans cfg word t sense esense pc (some (.percoreSense c,v)) e q) :
    e=some (.pass t) := by
  cases h.writes with
  | pass pf i k v => exact (trans_passSt h).2.1

/-- `TQ_RET_SYNC` is returned after a look at the sense, or from the way out. -/
theorem trans_sync {u : Thread n m} (h : Trans cfg word t sense esense pc w (some (.sync u)) q) :
    u=t ∧ q=.outside ∧ mayLag pc=true ∧
      ((pc=.slow .sense ∧ word (.percoreSense t.1)≠sense) ∨ leaving pc=true) := by
  cases h with
  | fast h => cases h
  | slow h =>
    cases h with
    | senseSync hne => exact ⟨rfl,rfl,rfl,.inl ⟨rfl,hne⟩⟩
    | relSyncDone hl => exact ⟨rfl,rfl,rfl,.inr rfl⟩
  | fetch h =>
    cases h with
    | bar hb => cases hb
    | unlockSync => exact ⟨rfl,rfl,rfl,.inr rfl⟩
  | par h => cases h
  | seq h => cases h

/-- A lagging thread stays on its way to the return of `TQ_RET_SYNC`: the sense has changed behind
it, so it cannot find a task or join the next barrier. -/
theorem trans_mayLag (h : Trans cfg word t sense esense pc w e q) (hlag : mayLag pc=true)
    (hsense : word (.percoreSense t.1)≠sense) (hhead : pc=.slow .head → word (.taskqueueHead t.1)=0)
    (hsync : e≠some (.sync t)) : mayLag q=true := by
  cases h with
  | slow h =>
    cases h with
    | senseSame hs => exact absurd hs hsense
    | lockedSame hs => exact absurd hs hsense
    | found hf => exact absurd (hhead rfl) hf
    | senseSync => exact absurd rfl hsync
    | relSyncDone => exact absurd rfl hsync
    | inc => cases hlag
    | incDone => cases hlag
    | headAgain => cases hlag
    | copy => cases hlag
    | copyDone => cases hlag
    | next => cases hlag
    | unlink => cases hlag
    | dec => cases hlag
    | decDone => cases hlag
    | relPop => cases hlag
    | finish => cases hlag
    | _ => rfl
  | fetch h =>
    cases h with
    | senseSame hs => exact absurd hs hsense
    | senseSync => rfl
    | unlockSync => exact absurd rfl hsync
    | _ => cases hlag
  | _ => cases hlag

/-- A thread takes the way out after it saw a passed barrier, or by passing it. There is no other
way to it. -/
theorem trans_leaving (h : Trans cfg word t sense esense pc w e q) (hq : leaving q=true) :
    leaving pc=true ∨ word (.percoreSense t.1)≠sense ∨ e=some (.pass t) := by
  cases h with
  | fast h => cases h <;> cases hq
  | slow h =>
    cases h with
    | lockedSync hne => exact .inr (.inl hne)
    | relSync => exact .inl rfl
    | _ => cases hq
  | fetch h =>
    cases h with
    | senseSync hne => exact .inr (.inl hne)
    | bar hb =>
      cases hb with
      | passSt v => exact .inr (.inr rfl)
      | tailCounted => rw [leaving_barBranch] at hq; cases hq
      | notPending => rw [leaving_barBranch] at hq; cases hq
      | incWc => rw [leaving_barBranch] at hq; cases hq
      | _ => cases hq
    | _ => cases hq
  | par h => cases h <;> cases hq
  | seq h => cases h <;> cases hq
  | _ => cases hq

/-- The local queue is changed by its lock's owner: a thread that saw it nonempty, or a
holder of `CLUSTER_gtq_lock`. -/
theorem trans_head (h : Trans cfg word t sense esense pc (some (.taskqueueHead c,v)) e q) :
    c=t.1 ∧ (ltqPhase pc).owns=true ∧ (midPop pc=true ∨ holdsGtq pc=true) ∧
      midPop q=false ∧ ∀ pf i k b, pc≠.fetch pf (.bar i k b) := by
  cases h.writes with
  | fastUnlink => exact ⟨rfl,rfl,.inl rfl,rfl,fun _ _ _ _ h => by cases h⟩
  | slowUnlink => exact ⟨rfl,rfl,.inl rfl,rfl,fun _ _ _ _ h => by cases h⟩
  | fetchInsert => exact ⟨rfl,rfl,.inr rfl,rfl,fun _ _ _ _ h => by cases h⟩
  | parInsert => exact ⟨rfl,rfl,.inr rfl,rfl,fun _ _ _ _ h => by cases h⟩

/-- The test of the head under the lock follows an equal sense. -/
theorem trans_slowHead (h : Trans cfg word t sense esense pc w e (.slow .head)) :
    word (.percoreSense t.1)=sense := by
  cases h with
  | fast h => cases h
  | slow h =>
    cases h with
    | lockedSame hs => exact hs
  | fetch h => cases h
  | par h => cases h
  | seq h => cases h

/-- A thread is between test and unlink after it saw a nonempty queue. -/
theorem trans_midPop (h : Trans cfg word t sense esense pc w e q) (hq : midPop q=true) :
    midPop pc=true ∨ word (.taskqueueHead t.1)≠0 := by
  cases h with
  | fast h =>
    cases h with
    | found k hf => exact .inr hf
    | headAgain => exact .inl rfl
    | next => exact .inl rfl
    | _ => cases hq
  | slow h =>
    cases h with
    | found hf => exact .inr hf
    | headAgain => exact .inl rfl
    | copy => exact .inl rfl
    | copyDone => exact .inl rfl
    | next => exact .inl rfl
    | _ => cases hq
  | fetch h => cases h <;> cases hq
  | par h => cases h <;> cases hq
  | seq h => cases h <;> cases hq
  | _ => cases hq

/-- Without a write of the wait count or a return of `TQ_RET_SYNC` a thread stays counted
or uncounted. -/
theorem trans_counted (h : Trans cfg word t sense esense pc w e q)
    (hw : ∀ v, w≠some (.coreWaitcount t.1,v)) (hsync : e≠some (.sync t)) :
    counted q=counted pc := by
  cases h with
  | fast h => cases h <;> rfl
  | slow h =>
    cases h with
    | incDone hu => cases hu; exact absurd rfl (hw _)
    | decDone hu => cases hu; exact absurd rfl (hw _)
    | senseSync => exact absurd rfl hsync
    | relSyncDone => exact absurd rfl hsync
    | _ => rfl
  | fetch h =>
    cases h with
    | unlockSync => exact absurd rfl hsync
    | _ => rfl
  | par h => cases h <;> rfl
  | seq h => cases h <;> rfl
  | _ => rfl

/-- The threads of the cluster are found waiting by the test of the wait count, and stay found until
the cluster has passed the barrier or backed out. -/
theorem trans_committed (h : Trans cfg word t sense esense pc w e q) (hq : committed q=true) :
    committed pc=true ∨
      ∃ pf i k τ, pc=.fetch pf (.bar i k (.test τ)) ∧ word (.coreWaitcount t.1)=m := by
  cases h with
  | fast h => cases h <;> cases hq
  | slow h => cases h <;> cases hq
  | fetch h =>
    cases h with
    | bar hb =>
      cases hb with
      | test τ =>
        simp only [committed,Bool.or_eq_true] at hq ⊢
        rcases hq with hk|hq
        · exact .inl (.inl hk)
        · refine .inr ⟨_,_,_,τ,rfl,?_⟩
          by_contra hne
          rw [decide_eq_false fun he => hne he.symm] at hq
          cases hq
      | incWc => exact .inl (Bool.or_true _)
      | pending => exact .inl (Bool.or_true _)
      | tailCounted hk =>
        rw [committed_barBranch] at hq
        exact .inl (by rw [hq]; rfl)
      | notPending =>
        rw [committed_barBranch] at hq
        exact .inl (by rw [hq]; rfl)
      | @rel _ pending => cases pending <;> exact .inl hq
      | decWc => cases hq
      | passSt => cases hq
      | backSt => cases hq
      | _ => exact .inl hq
    | _ => cases hq
  | par h => cases h <;> cases hq
  | seq h => cases h <;> cases hq
  | _ => cases hq

/-- A cluster leaves the barrier after it saw the barrier decided, or by deciding it. A register
holds the sense that it saw. -/
theorem trans_passPc (h : Trans cfg word t sense esense pc w e q) (hq : passPc q=true) :
    ∃ pf i k b b', pc=.fetch pf (.bar i k b) ∧ q=.fetch pf (.bar i k b') ∧
      (passPc pc=true ∨ b=.csense (word (.perclusterSense t.1)) ∨ ∃ τ v, b=.flip τ v) := by
  cases h with
  | fast h => cases h <;> cases hq
  | slow h => cases h <;> cases hq
  | fetch h =>
    cases h with
    | bar hb =>
      cases hb with
      | decided g hg => exact ⟨_,_,_,_,_,rfl,rfl,.inr (.inl (by rw [hg]))⟩
      | flip τ v => exact ⟨_,_,_,_,_,rfl,rfl,.inr (.inr ⟨τ,v,rfl⟩)⟩
      | passW => exact ⟨_,_,_,_,_,rfl,rfl,.inl rfl⟩
      | passLd => exact ⟨_,_,_,_,_,rfl,rfl,.inl rfl⟩
      | tailCounted => rw [passPc_barBranch] at hq; cases hq
      | notPending => rw [passPc_barBranch] at hq; cases hq
      | incWc => rw [passPc_barBranch] at hq; cases hq
      | _ => cases hq
    | _ => cases hq
  | par h => cases h <;> cases hq
  | seq h => cases h <;> cases hq
  | _ => cases hq

/-- The wait count is zero from its reset on, until the pass. -/
theorem trans_zeroed (h : Trans cfg word t sense esense pc w e q) (hq : zeroed q=true) :
    zeroed pc=true ∨ w=some (.coreWaitcount t.1,0) := by
  cases h with
  | fast h => cases h <;> cases hq
  | slow h => cases h <;> cases hq
  | fetch h =>
    cases h with
    | bar hb =>
      cases hb with
      | passW => exact .inr rfl
      | passLd => exact .inl rfl
      | tailCounted => have := passPc_of_zeroed hq; rw [passPc_barBranch] at this; cases this
      | notPending => have := passPc_of_zeroed hq; rw [passPc_barBranch] at this; cases this
      | incWc => have := passPc_of_zeroed hq; rw [passPc_barBranch] at this; cases this
      | _ => cases hq
    | _ => cases hq
  | par h => cases h <;> cases hq
  | seq h => cases h <;> cases hq
  | _ => cases hq

/-- Between the reset of the wait count and the pass nothing else is done. -/
theorem trans_of_zeroed (h : Trans cfg word t sense esense pc w e q) (hpc : zeroed pc=true) :
    (zeroed q=true ∧ w=none) ∨ e=some (.pass t) := by
  cases h with
  | fetch h =>
    cases h with
    | bar hb =>
      cases hb with
      | passLd => exact .inl ⟨rfl,rfl⟩
      | passSt => exact .inr rfl
      | _ => cases hpc
    | _ => cases hpc
  | _ => cases hpc

/-- The register of the pass is the sense of the threads, loaded by the step before, which stores
nothing. -/
theorem trans_passReg (h : Trans cfg word t sense esense pc w e q) {pf i : ℕ} {k : Bool}
    (hq : q=.fetch pf (.bar i k (.passSt v))) :
    w=none ∧ v=word (.percoreSense t.1) := by
  have hpass : passPc q=true := by rw [hq]; rfl
  cases h with
  | fast h => cases h <;> cases hpass
  | slow h => cases h <;> cases hpass
  | fetch h =>
    cases h with
    | bar hb =>
      cases hb with
      | passLd => cases hq; exact ⟨rfl,rfl⟩
      | decided => cases hq
      | flip => cases hq
      | passW => cases hq
      | tailCounted => rw [passPc_barBranch] at hpass; cases hpass
      | notPending => rw [passPc_barBranch] at hpass; cases hpass
      | incWc => rw [passPc_barBranch] at hpass; cases hpass
      | _ => cases hpass
    | _ => cases hpass
  | par h => cases h <;> cases hpass
  | seq h => cases h <;> cases hpass
  | _ => cases hpass

/-- On an empty local queue with the lock taken, a calm thread that saw no passed barrier
stays calm and touches the ticket lock only. -/
theorem trans_calm (h : Trans cfg word t sense esense pc w e q) (hcalm : calm pc=true)
    (hsense : word (.percoreSense t.1)=sense) (hhead : word (.taskqueueHead t.1)=0)
    (hgtq : word (.gtqLock t.1)≠0) :
    calm q=true ∧ e=none ∧ ∀ x v, w=some (x,v) → x=.ticketCount t.1 ∨ x=.ticketPoll t.1 := by
  cases h with
  | slow h =>
    cases h with
    | senseSync hne => exact absurd hsense hne
    | lockedSync hne => exact absurd hsense hne
    | found hne => exact absurd hhead hne
    | senseSame => exact ⟨rfl,rfl,fun _ _ hw => by cases hw⟩
    | lockedSame => exact ⟨rfl,rfl,fun _ _ hw => by cases hw⟩
    | empty => exact ⟨rfl,rfl,fun _ _ hw => by cases hw⟩
    | acq ha => exact ⟨rfl,rfl,fun x v hw => by rw [hw] at ha; exact .inl ha.write⟩
    | grant ha => exact ⟨rfl,rfl,fun x v hw => by rw [hw] at ha; exact .inl ha.write⟩
    | relNull hl => exact ⟨rfl,rfl,fun x v hw => by rw [hw] at hl; exact .inr hl.write⟩
    | relNullDone hl => exact ⟨rfl,rfl,fun x v hw => by rw [hw] at hl; exact .inr hl.write⟩
    | trying hk => cases hk <;> exact ⟨rfl,rfl,fun _ _ hw => by cases hw⟩
    | locked hk => cases hk; contradiction
    | busy hk => cases hk; exact ⟨rfl,rfl,fun _ _ hw => by cases hw⟩
    | _ => cases hcalm
  | _ => cases hcalm

/-- The wait count is changed by the increment and the decrement of its threads and by
the reset of a leaving cluster. -/
theorem trans_wait (h : Trans cfg word t sense esense pc w e q)
    (hw : w=some (.coreWaitcount c,v)) :
    c=t.1 ∧ (∀ u, e≠some (.sync u)) ∧
      ((counted pc=false ∧ counted q=true ∧ mayLag pc=false ∧ calm pc=false ∧ zeroed pc=false ∧
          v=(word (.coreWaitcount c)+1)%wordSize) ∨
        (counted pc=true ∧ counted q=false ∧ mayLag pc=false ∧ calm pc=false ∧ zeroed pc=false ∧
          v=decWord (word (.coreWaitcount c))) ∨
        (zeroed q=true ∧ calm pc=false)) := by
  subst hw
  have hsync : ∀ u, e≠some (.sync u) := by
    rintro u rfl
    obtain ⟨-,rfl,-⟩ := trans_sync h
    cases h.writes
  cases h.writes with
  | waitInc => exact ⟨rfl,hsync,.inl ⟨rfl,rfl,rfl,rfl,rfl,rfl⟩⟩
  | waitDec => exact ⟨rfl,hsync,.inr (.inl ⟨rfl,rfl,rfl,rfl,rfl,rfl⟩)⟩
  | waitReset => exact ⟨rfl,hsync,.inr (.inr ⟨rfl,rfl⟩)⟩

end Steps

/-- A counted thread that holds neither lock is calm. -/
theorem calm_of_counted {pc : Pc} (h : counted pc=true) (hgtq : holdsGtq pc=false)
    (hltq : (ltqPhase pc).owns=false) : calm pc=true := by
  cases pc with
  | slow p =>
    cases p with
    | relSync l => cases l <;> cases hltq
    | headAgain => cases hltq
    | copy => cases hltq
    | next => cases hltq
    | setHead => cases hltq
    | dec => cases hltq
    | inc => cases h
    | relPop => cases h
    | _ => rfl
  | fetch => cases hgtq
  | _ => cases h

/-- What the barrier inside a cluster is about: the words of the cluster and the local states of its
threads, without the rest of the machine. -/
structure View (m : ℕ) where
  /-- `CLUSTER_taskqueue_head`. -/
  head : ℕ
  /-- `CLUSTER_core_waitcount`. -/
  wait : ℕ
  /-- `CLUSTER_percore_sense`. -/
  percore : ℕ
  /-- Barriers passed by the cluster. -/
  passes : ℕ
  /-- Where the threads are. -/
  pc : Fin m → Pc
  /-- Private senses. -/
  sense : Fin m → ℕ
  /-- Barriers left by the threads. -/
  syncs : Fin m → ℕ

/-- The view of a cluster: its words, its passes, and for every thread its place, its sense and its
returns. -/
def view (s : QState n m) (c : Fin n) : View m where
  head := s.word (.taskqueueHead c)
  wait := s.word (.coreWaitcount c)
  percore := s.word (.percoreSense c)
  passes := passes s c
  pc i := (s.pc (c,i)).pc
  sense i := (s.pc (c,i)).sense
  syncs i := syncs s (c,i)

/-- The threads that the wait count counts: those in a counted state that have not fallen behind the
cluster. -/
def View.active (x : View m) : Finset (Fin m) :=
  Finset.univ.filter fun i => counted (x.pc i)=true ∧ x.syncs i=x.passes

/-- The invariant of the barrier inside a cluster. Senses are the parities of the barriers, a thread
is at most one barrier behind its cluster, and once all threads were found waiting they wait on an
empty queue. -/
structure ClusterInv (x : View m) : Prop where
  /-- The sense of the cluster is the parity of its barriers. -/
  percore : x.percore=x.passes%2
  /-- A private sense is the parity of the thread's barriers. -/
  sense : ∀ i, x.sense i=x.syncs i%2
  /-- A thread is at most one barrier behind, and then only waits to return. -/
  phase : ∀ i, x.syncs i=x.passes ∨ (x.syncs i+1=x.passes ∧ mayLag (x.pc i)=true)
  /-- A thread on the way out is one barrier behind. -/
  must : ∀ i, leaving (x.pc i)=true → x.syncs i+1=x.passes
  /-- A thread that lags at the test of the queue finds it empty. -/
  lagHead : ∀ i, x.pc i=.slow .head → x.syncs i+1=x.passes → x.head=0
  /-- The queue is not empty until the unlink. -/
  midPop : ∀ i, midPop (x.pc i)=true → x.head≠0
  /-- The wait count counts the waiting threads of this barrier. -/
  wait : (∀ i, zeroed (x.pc i)=false) → x.wait=x.active.card
  /-- A leaving cluster has reset its wait count. -/
  zero : ∀ i, zeroed (x.pc i)=true → x.wait=0
  /-- Once all threads were found waiting, they wait on an empty queue. -/
  commit : ∀ i, committed (x.pc i)=true → x.head=0 ∧ x.syncs i=x.passes ∧
    ∀ j, j≠i → calm (x.pc j)=true ∧ x.syncs j=x.passes
  /-- The register of the pass holds the sense. -/
  passReg : ∀ i pf h k v, x.pc i=.fetch pf (.bar h k (.passSt v)) → v=x.percore
  /-- A cluster that leaves was counted. -/
  passed : ∀ i, passPc (x.pc i)=true → committed (x.pc i)=true

/-- What the barrier of a cluster needs of a turn: the test of the wait count, and that the barrier
between the clusters decides only when the cluster was counted. -/
structure ClusterOk (s : QState n m) (turn : QTurn n m) : Prop where
  /-- The threads are found waiting on an empty queue only. -/
  test : ∀ pf h k τ, (s.pc turn.thread).pc=.fetch pf (.bar h k (.test τ)) →
    s.word (.coreWaitcount turn.thread.1)=m → s.word (.taskqueueHead turn.thread.1)=0
  /-- A cluster finds the barrier decided only as a counted one. -/
  decided : ∀ pf h k, (s.pc turn.thread).pc=
    .fetch pf (.bar h k (.csense (s.word (.perclusterSense turn.thread.1)))) → k=true
  /-- A cluster decides the barrier only as a counted one. -/
  flip : ∀ pf h k τ v, (s.pc turn.thread).pc=.fetch pf (.bar h k (.flip τ v)) → k=true

/-- Sense words are bits; a flipped bit is the next parity. -/
theorem flipSense_mod (k : ℕ) : flipSense (k%2)=(k+1)%2 := by
  unfold flipSense
  split <;> omega

section Turn

variable {s : QState n m} {turn : QTurn n m}

/-- A turn of another cluster does not change the view. So the invariant is proved for the cluster
that moves only. -/
theorem view_other (cfg : Config) (turn : QTurn n m) (fresh : LinkFresh reserve s) {c : Fin n}
    (hc : turn.thread.1≠c) :
    view (step (program n m cfg) s turn) c=view s c := by
  have ht := trans_step cfg s turn fresh
  have hpass : shown (event cfg s turn) (isPass c)=0 := by
    cases he : event cfg s turn with
    | none => rfl
    | some e =>
      cases e with
      | pass u =>
        rw [he] at ht
        obtain ⟨rfl,-⟩ := trans_pass ht
        simp [isPass,hc]
      | _ => rfl
  have hsync : ∀ i, shown (event cfg s turn) (isSync (c,i))=0 := by
    intro i
    cases he : event cfg s turn with
    | none => rfl
    | some e =>
      cases e with
      | sync u =>
        rw [he] at ht
        obtain ⟨rfl,-⟩ := trans_sync ht
        have hne : turn.thread≠(c,i) := fun h => hc (by rw [h])
        simp [isSync,hne]
      | _ => rfl
  simp only [view,View.mk.injEq,passes,syncs,countP_step,hpass,hsync,Nat.add_zero,true_and,
    and_true]
  refine ⟨?_,?_,?_,?_,?_⟩
  · exact word_other_cluster cfg s turn fresh rfl hc
  · exact word_other_cluster cfg s turn fresh rfl hc
  · exact word_other_cluster cfg s turn fresh rfl hc
  · funext i
    rw [pc_other_cluster cfg s turn (u := (c,i)) hc]
  · funext i
    rw [pc_other_cluster cfg s turn (u := (c,i)) hc]

end Turn

/-- Thread `i` moves from view `x` to view `y` by a listed step of a state whose locks
exclude. -/
structure Moved (cfg : Config) (c : Fin n) (word : Loc n → ℕ) (x y : View m) (i : Fin m)
    (w : Wr n) (e : Option (Event n m)) : Prop where
  /-- The step. -/
  trans : ∃ esense, Trans cfg word (c,i) (x.sense i) esense (x.pc i) w e (y.pc i)
  /-- The view before is of these words. -/
  before : word (.taskqueueHead c)=x.head ∧ word (.coreWaitcount c)=x.wait ∧
    word (.percoreSense c)=x.percore
  /-- The view after has the write. -/
  after : y.head=applyWrite word w (.taskqueueHead c) ∧
    y.wait=applyWrite word w (.coreWaitcount c) ∧ y.percore=applyWrite word w (.percoreSense c)
  /-- The other threads stay. -/
  others : ∀ j, j≠i → y.pc j=x.pc j
  /-- Passed and left barriers are counted; the private sense is flipped with the return. -/
  events : (e=some (.pass (c,i)) ∧ y.passes=x.passes+1 ∧ y.syncs=x.syncs ∧ y.sense=x.sense) ∨
    (e=some (.sync (c,i)) ∧ y.passes=x.passes ∧ y.syncs=Function.update x.syncs i (x.syncs i+1) ∧
      y.sense=Function.update x.sense i (flipSense (x.sense i))) ∨
    (e≠some (.pass (c,i)) ∧ e≠some (.sync (c,i)) ∧ y.passes=x.passes ∧ y.syncs=x.syncs ∧
      y.sense=x.sense)
  /-- The holder of `CLUSTER_gtq_lock` is unique. -/
  gtq : ∀ j k, holdsGtq (x.pc j)=true → holdsGtq (x.pc k)=true → j=k
  /-- A held `CLUSTER_gtq_lock` is not free. -/
  taken : ∀ j, holdsGtq (x.pc j)=true → word (.gtqLock c)≠0
  /-- The owner of the local queue lock is unique. -/
  ltq : ∀ j k, (ltqPhase (x.pc j)).owns=true → (ltqPhase (x.pc k)).owns=true → j=k

/-- A turn moves its thread in the view of its cluster. The lemmas after this one are about moves
and never about steps of the program. -/
theorem moved_step (cfg : Config) (turn : QTurn n m) {s : QState n m}
    (fresh : LinkFresh reserve s) (gtq : GtqInv s) (ltq : LtqInv s) :
    Moved cfg turn.thread.1 s.word (view s turn.thread.1)
      (view (step (program n m cfg) s turn) turn.thread.1) turn.thread.2 (wrote cfg s turn)
      (event cfg s turn) := by
  have ht := trans_step cfg s turn fresh
  have hne : ∀ j, j≠turn.thread.2 → (turn.thread.1,j)≠turn.thread :=
    fun j hj he => hj (by rw [←he])
  have hsense : shown (event cfg s turn) (isSync turn.thread)=0 → (fun j =>
      ((step (program n m cfg) s turn).pc (turn.thread.1,j)).sense)=
      fun j => (s.pc (turn.thread.1,j)).sense := by
    intro h
    funext j
    by_cases hj : j=turn.thread.2
    · subst hj
      refine (sense_step cfg s turn).trans ?_
      rw [h]
      rfl
    · rw [pc_other _ _ _ (hne j hj)]
  refine ⟨⟨_,ht⟩,⟨rfl,rfl,rfl⟩,⟨rfl,rfl,rfl⟩,?_,?_,?_,?_,?_⟩
  · intro j hj
    simp only [view,pc_other _ _ _ (hne j hj)]
  · simp only [view,passes,syncs,countP_step]
    cases he : event cfg s turn with
    | none =>
      rw [he] at hsense
      exact .inr (.inr ⟨by simp,by simp,by simp,by simp,hsense rfl⟩)
    | some e =>
      rw [he] at hsense
      cases e with
      | pass u =>
        rw [he] at ht
        obtain ⟨rfl,-⟩ := trans_pass ht
        exact .inl ⟨rfl,by simp [isPass],by simp [isSync],hsense rfl⟩
      | sync u =>
        rw [he] at ht
        obtain ⟨rfl,-⟩ := trans_sync ht
        refine .inr (.inl ⟨rfl,by simp [isPass],?_,?_⟩)
        · funext j
          by_cases hj : j=turn.thread.2
          · subst hj
            simp [isSync]
          · rw [Function.update_of_ne hj]
            have := (hne j hj).symm
            simp [isSync,this]
        · funext j
          by_cases hj : j=turn.thread.2
          · subst hj
            rw [Function.update_self]
            refine (sense_step cfg s turn).trans ?_
            simp [he,isSync]
          · rw [Function.update_of_ne hj,pc_other _ _ _ (hne j hj)]
      | _ => exact .inr (.inr ⟨by simp,by simp,by simp [isPass],by simp [isSync],hsense rfl⟩)
  · intro j k hj hk
    exact congrArg Prod.snd (gtq.unique (turn.thread.1,j) (turn.thread.1,k) rfl hj hk)
  · intro j hj
    rw [gtq.taken (turn.thread.1,j) hj]
    exact one_ne_zero
  · intro j k hj hk
    exact congrArg Prod.snd (ltq.exclusive (t := (turn.thread.1,j)) (u := (turn.thread.1,k))
      rfl hj hk)

section Fields

variable {c : Fin n} {word : Loc n → ℕ} {x y : View m} {i : Fin m} {w : Wr n}
  {e : Option (Event n m)}

/-- Unequal parities: the thread lags. -/
theorem ClusterInv.lags (h : ClusterInv x) {j : Fin m} (hne : x.percore≠x.sense j) :
    x.syncs j+1=x.passes ∧ mayLag (x.pc j)=true := by
  rcases h.phase j with he|he
  · rw [h.percore,h.sense,he] at hne
    exact absurd rfl hne
  · exact he

/-- Unequal counts: the parities are unequal. -/
theorem ClusterInv.percore_ne (h : ClusterInv x) {j : Fin m} (hlag : x.syncs j+1=x.passes) :
    x.percore≠x.sense j := by
  rw [h.percore,h.sense]
  omega

/-- The cluster's sense changes with the pass only. -/
theorem Moved.percore_keep (hm : Moved cfg c word x y i w e) (he : e≠some (.pass (c,i))) :
    y.percore=x.percore := by
  obtain ⟨esense,ht⟩ := hm.trans
  rw [hm.after.2.2,←hm.before.2.2]
  refine applyWrite_keep fun v hw => he ?_
  rw [hw] at ht
  exact trans_percore ht

/-- At the pass: the cluster was committed, its threads have not left this barrier, and
the register holds its sense. -/
theorem Moved.pass (hm : Moved cfg c word x y i w e) (h : ClusterInv x)
    (he : e=some (.pass (c,i))) : committed (x.pc i)=true ∧ zeroed (x.pc i)=true ∧
      y.pc i≠.outside ∧ leaving (y.pc i)=true ∧ y.percore=flipSense x.percore ∧
      y.head=x.head ∧ y.wait=x.wait := by
  obtain ⟨esense,ht⟩ := hm.trans
  rw [he] at ht
  obtain ⟨-,pf,a,k,v,hp⟩ := trans_pass ht
  have hzero : zeroed (x.pc i)=true := by rw [hp]; rfl
  have hv := h.passReg i pf a k v hp
  rw [hp] at ht
  obtain ⟨rfl,-,hq⟩ := trans_passSt ht
  refine ⟨h.passed i (passPc_of_zeroed hzero),hzero,by rw [hq]; simp,by rw [hq]; rfl,?_,?_,?_⟩
  · rw [hm.after.2.2,applyWrite_self,hv]
  · rw [hm.after.1,applyWrite_keep (fun v hw => by cases hw),hm.before.1]
  · rw [hm.after.2.1,applyWrite_keep (fun v hw => by cases hw),hm.before.2.1]

/-- At the return of `TQ_RET_SYNC` the thread lags. -/
theorem Moved.sync (hm : Moved cfg c word x y i w e) (h : ClusterInv x)
    (he : e=some (.sync (c,i))) : x.syncs i+1=x.passes ∧ y.pc i=.outside := by
  obtain ⟨esense,ht⟩ := hm.trans
  rw [he] at ht
  obtain ⟨-,hq,-,⟨-,hne⟩|hleave⟩ := trans_sync ht
  · rw [hm.before.2.2] at hne
    exact ⟨(h.lags hne).1,hq⟩
  · exact ⟨h.must i hleave,hq⟩

/-- The local queue changes under the hands of the owner of its lock only. -/
theorem Moved.head_keep (hm : Moved cfg c word x y i w e) {j : Fin m} (hj : j≠i)
    (howns : (ltqPhase (x.pc j)).owns=true) : y.head=x.head := by
  obtain ⟨esense,ht⟩ := hm.trans
  rw [hm.after.1,←hm.before.1]
  refine applyWrite_keep fun v hw => hj ?_
  rw [hw] at ht
  exact hm.ltq j i howns (trans_head ht).2.1

/-- Beside a committed thread, the moving thread is calm and stays so. -/
theorem Moved.beside (hm : Moved cfg c word x y i w e) (h : ClusterInv x) {j : Fin m} (hj : j≠i)
    (hcommit : committed (x.pc j)=true) : calm (y.pc i)=true ∧ e=none ∧
      y.head=x.head ∧ y.wait=x.wait ∧ y.percore=x.percore := by
  obtain ⟨esense,ht⟩ := hm.trans
  obtain ⟨hhead,-,hothers⟩ := h.commit j hcommit
  obtain ⟨hcalm,hsync⟩ := hothers i hj.symm
  have hsense : word (.percoreSense c)=x.sense i := by
    rw [hm.before.2.2,h.percore,h.sense,hsync]
  obtain ⟨hq,he,hw⟩ := trans_calm ht hcalm hsense (hm.before.1.trans hhead)
    (hm.taken j (holdsGtq_of_committed hcommit))
  have hkeep : ∀ z : Loc n, z≠.ticketCount c → z≠.ticketPoll c → applyWrite word w z=word z := by
    intro z hz hz'
    refine applyWrite_keep fun v he => ?_
    rcases hw z v he with h|h
    · exact hz h
    · exact hz' h
  refine ⟨hq,he,?_,?_,?_⟩
  · rw [hm.after.1,hkeep _ (by simp) (by simp),hm.before.1]
  · rw [hm.after.2.1,hkeep _ (by simp) (by simp),hm.before.2.1]
  · rw [hm.after.2.2,hkeep _ (by simp) (by simp),hm.before.2.2]

/-- The parities stay. -/
theorem Moved.percore_after (hm : Moved cfg c word x y i w e) (h : ClusterInv x) :
    y.percore=y.passes%2 := by
  rcases hm.events with ⟨he,hp,-⟩|⟨he,hp,-⟩|⟨he,-,hp,-⟩
  · rw [(hm.pass h he).2.2.2.2.1,hp,h.percore,flipSense_mod]
  · rw [hm.percore_keep (by rw [he]; simp),hp,h.percore]
  · rw [hm.percore_keep he,hp,h.percore]

/-- The private parities stay. -/
theorem Moved.sense_after (hm : Moved cfg c word x y i w e) (h : ClusterInv x) (j : Fin m) :
    y.sense j=y.syncs j%2 := by
  rcases hm.events with ⟨-,-,hs,hy⟩|⟨-,-,hs,hy⟩|⟨-,-,-,hs,hy⟩
  · rw [hs,hy,h.sense]
  · rw [hs,hy]
    by_cases hj : j=i
    · rw [hj,Function.update_self,Function.update_self,h.sense,flipSense_mod]
    · rw [Function.update_of_ne hj,Function.update_of_ne hj,h.sense]
  · rw [hs,hy,h.sense]

/-- A thread stays at most one barrier behind: the cluster passes the next barrier only after all
threads have waited for it. -/
theorem Moved.phase_after (hm : Moved cfg c word x y i w e) (h : ClusterInv x) (j : Fin m) :
    y.syncs j=y.passes ∨ (y.syncs j+1=y.passes ∧ mayLag (y.pc j)=true) := by
  rcases hm.events with ⟨he,hp,hs,-⟩|⟨he,hp,hs,-⟩|⟨he,he',hp,hs,-⟩
  · obtain ⟨hcommit,-,-,hleave,-⟩ := hm.pass h he
    obtain ⟨-,hi,hothers⟩ := h.commit i hcommit
    rw [hp,hs]
    by_cases hj : j=i
    · subst hj
      exact .inr ⟨by rw [hi],by unfold mayLag; rw [hleave]; simp⟩
    · obtain ⟨hcalm,hsync⟩ := hothers j hj
      rw [hm.others j hj]
      exact .inr ⟨by rw [hsync],mayLag_of_calm hcalm⟩
  · rw [hp,hs]
    by_cases hj : j=i
    · subst hj
      rw [Function.update_self]
      exact .inl (hm.sync h he).1
    · rw [Function.update_of_ne hj,hm.others j hj]
      exact h.phase j
  · rw [hp,hs]
    by_cases hj : j=i
    · subst hj
      refine (h.phase j).imp id fun hlag => ⟨hlag.1,?_⟩
      obtain ⟨esense,ht⟩ := hm.trans
      refine trans_mayLag ht hlag.2 ?_ (fun hq => ?_) he'
      · rw [hm.before.2.2]
        exact h.percore_ne hlag.1
      · rw [hm.before.1]
        exact h.lagHead j hq hlag.1
    · rw [hm.others j hj]
      exact h.phase j

/-- A thread on the way out stays one barrier behind, until its return counts that barrier. -/
theorem Moved.must_after (hm : Moved cfg c word x y i w e) (h : ClusterInv x) (j : Fin m)
    (hleave : leaving (y.pc j)=true) : y.syncs j+1=y.passes := by
  by_cases hj : j=i
  · subst hj
    obtain ⟨esense,ht⟩ := hm.trans
    rcases hm.events with ⟨he,hp,hs,-⟩|⟨he,hp,hs,-⟩|⟨he,he',hp,hs,-⟩
    · rw [hp,hs,(h.commit j (hm.pass h he).1).2.1]
    · rw [(hm.sync h he).2] at hleave
      cases hleave
    · rw [hp,hs]
      rcases trans_leaving ht hleave with hl|hne|hpass
      · exact h.must j hl
      · rw [hm.before.2.2] at hne
        exact (h.lags hne).1
      · exact absurd hpass he
  · rw [hm.others j hj] at hleave
    rcases hm.events with ⟨he,hp,hs,-⟩|⟨he,hp,hs,-⟩|⟨he,he',hp,hs,-⟩
    · have hcalm := ((h.commit i (hm.pass h he).1).2.2 j hj).1
      rw [leaving_of_calm hcalm] at hleave
      cases hleave
    · rw [hp,hs,Function.update_of_ne hj]
      exact h.must j hleave
    · rw [hp,hs]
      exact h.must j hleave

/-- A thread that lags at the test of the queue still finds it empty. Nobody can insert before it
has returned. -/
theorem Moved.lagHead_after (hm : Moved cfg c word x y i w e) (h : ClusterInv x) (j : Fin m)
    (hpc : y.pc j=.slow .head) (hlag : y.syncs j+1=y.passes) : y.head=0 := by
  by_cases hj : j=i
  · subst hj
    obtain ⟨esense,ht⟩ := hm.trans
    rw [hpc] at ht
    have heq := trans_slowHead ht
    rw [hm.before.2.2,h.percore,h.sense] at heq
    rcases hm.events with ⟨he,hp,hs,-⟩|⟨he,hp,hs,-⟩|⟨he,he',hp,hs,-⟩
    · have hleave := (hm.pass h he).2.2.2.1
      rw [hpc] at hleave
      cases hleave
    · rw [(hm.sync h he).2] at hpc
      cases hpc
    · rw [hp,hs] at hlag
      omega
  · rw [hm.others j hj] at hpc
    have howns : (ltqPhase (x.pc j)).owns=true := by rw [hpc]; rfl
    rw [hm.head_keep hj howns]
    rcases hm.events with ⟨he,hp,hs,-⟩|⟨he,hp,hs,-⟩|⟨he,he',hp,hs,-⟩
    · exact (h.commit i (hm.pass h he).1).1
    · rw [hp,hs,Function.update_of_ne hj] at hlag
      exact h.lagHead j hpc hlag
    · rw [hp,hs] at hlag
      exact h.lagHead j hpc hlag

/-- The queue stays nonempty until the unlink. -/
theorem Moved.midPop_after (hm : Moved cfg c word x y i w e) (h : ClusterInv x) (j : Fin m)
    (hmid : midPop (y.pc j)=true) : y.head≠0 := by
  by_cases hj : j=i
  · subst hj
    obtain ⟨esense,ht⟩ := hm.trans
    have hkeep : y.head=x.head := by
      rw [hm.after.1,←hm.before.1]
      refine applyWrite_keep fun v hw => ?_
      rw [hw] at ht
      rw [(trans_head ht).2.2.2.1] at hmid
      cases hmid
    rw [hkeep]
    rcases trans_midPop ht hmid with hpc|hne
    · exact h.midPop j hpc
    · rw [hm.before.1] at hne
      exact hne
  · rw [hm.others j hj] at hmid
    rw [hm.head_keep hj (owns_of_midPop hmid)]
    exact h.midPop j hmid

/-- A cluster that leaves stays counted: whoever passes the barrier was counted in it. -/
theorem Moved.passed_after (hm : Moved cfg c word x y i w e) (h : ClusterInv x)
    (hk : ∀ pf a k b, x.pc i=.fetch pf (.bar a k b) →
      (b=.csense (word (.perclusterSense c)) ∨ ∃ τ v, b=.flip τ v) → k=true) (j : Fin m)
    (hpass : passPc (y.pc j)=true) : committed (y.pc j)=true := by
  by_cases hj : j=i
  · subst hj
    obtain ⟨esense,ht⟩ := hm.trans
    obtain ⟨pf,a,k,b,b',hpc,hq,hfrom⟩ := trans_passPc ht hpass
    have hcounted : k=true := by
      rcases hfrom with hp|hb
      · have hcommit := h.passed j hp
        rw [hpc] at hp hcommit
        simp only [committed,Bool.or_eq_true] at hcommit
        refine hcommit.resolve_right fun hb => ?_
        cases b with
        | passW => cases hb
        | passLd => cases hb
        | passSt => cases hb
        | _ => cases hp
      · exact hk pf a k b hpc hb
    rw [hq,hcounted]
    rfl
  · rw [hm.others j hj] at hpass ⊢
    exact h.passed j hpass

/-- A leaving cluster keeps its wait count reset. -/
theorem Moved.zero_after (hm : Moved cfg c word x y i w e) (h : ClusterInv x) (j : Fin m)
    (hzero : zeroed (y.pc j)=true) : y.wait=0 := by
  by_cases hj : j=i
  · subst hj
    obtain ⟨esense,ht⟩ := hm.trans
    rcases trans_zeroed ht hzero with hpc|hw
    · rcases trans_of_zeroed ht hpc with ⟨-,hw⟩|he
      · rw [hm.after.2.1,hw]
        exact hm.before.2.1.trans (h.zero j hpc)
      · rw [(hm.pass h he).2.2.2.2.2.2]
        exact h.zero j hpc
    · rw [hm.after.2.1,hw,applyWrite_self]
  · rw [hm.others j hj] at hzero
    rw [(hm.beside h hj (h.passed j (passPc_of_zeroed hzero))).2.2.2.1]
    exact h.zero j hzero

/-- The register of the pass still holds the sense. -/
theorem Moved.passReg_after (hm : Moved cfg c word x y i w e) (h : ClusterInv x) (j : Fin m)
    (pf a : ℕ) (k : Bool) (v : ℕ) (hpc : y.pc j=.fetch pf (.bar a k (.passSt v))) :
    v=y.percore := by
  by_cases hj : j=i
  · subst hj
    obtain ⟨esense,ht⟩ := hm.trans
    obtain ⟨hw,hv⟩ := trans_passReg ht hpc
    rw [hm.after.2.2,hw,hv]
    rfl
  · rw [hm.others j hj] at hpc
    have hpass : passPc (x.pc j)=true := by rw [hpc]; rfl
    rw [(hm.beside h hj (h.passed j hpass)).2.2.2.2]
    exact h.passReg j pf a k v hpc

/-- All threads are waiting once the wait count is their number. -/
theorem ClusterInv.all_active (h : ClusterInv x) (hzero : ∀ j, zeroed (x.pc j)=false)
    (hw : x.wait=m) (j : Fin m) : counted (x.pc j)=true ∧ x.syncs j=x.passes := by
  have hcard : x.active.card=Fintype.card (Fin m) := by
    rw [Fintype.card_fin,←h.wait hzero,hw]
  have hmem : j∈x.active := by
    rw [(Finset.card_eq_iff_eq_univ _).mp hcard]
    exact Finset.mem_univ j
  exact (Finset.mem_filter.mp hmem).2

/-- The test of the wait count under the lock of the local queue finds every other thread
calm. -/
theorem Moved.found_waiting (hm : Moved cfg c word x y i w e) (h : ClusterInv x) {pf a : ℕ}
    {k : Bool} {τ : ℕ} (hpc : x.pc i=.fetch pf (.bar a k (.test τ))) (hwait : x.wait=m) :
    x.syncs i=x.passes ∧ ∀ l, l≠i → calm (x.pc l)=true ∧ x.syncs l=x.passes := by
  have hgtq : holdsGtq (x.pc i)=true := by rw [hpc]; rfl
  have howns : (ltqPhase (x.pc i)).owns=true := by rw [hpc]; rfl
  have hzero : ∀ l, zeroed (x.pc l)=false := by
    intro l
    by_contra hne
    have hz := Bool.eq_true_of_not_eq_false hne
    have hli : l=i := hm.gtq l i (holdsGtq_of_committed (h.passed l (passPc_of_zeroed hz))) hgtq
    rw [hli,hpc] at hz
    cases hz
  refine ⟨(h.all_active hzero hwait i).2,fun l hl => ?_⟩
  obtain ⟨hcount,hsync⟩ := h.all_active hzero hwait l
  refine ⟨calm_of_counted hcount ?_ ?_,hsync⟩
  · exact Bool.eq_false_of_not_eq_true fun hg => hl (hm.gtq l i hg hgtq)
  · exact Bool.eq_false_of_not_eq_true fun ho => hl (hm.ltq l i ho howns)

/-- The threads that were found waiting keep waiting on an empty queue: a calm thread takes no task
from it, and only the holder of `CLUSTER_gtq_lock` could link one. -/
theorem Moved.commit_after (hm : Moved cfg c word x y i w e) (h : ClusterInv x)
    (htest : ∀ pf a k τ, x.pc i=.fetch pf (.bar a k (.test τ)) → x.wait=m → x.head=0)
    (j : Fin m) (hcommit : committed (y.pc j)=true) : y.head=0 ∧ y.syncs j=y.passes ∧
      ∀ l, l≠j → calm (y.pc l)=true ∧ y.syncs l=y.passes := by
  by_cases hj : j=i
  · subst hj
    obtain ⟨esense,ht⟩ := hm.trans
    -- no pass or return leads to a committed state
    have hquiet : y.passes=x.passes ∧ y.syncs=x.syncs := by
      rcases hm.events with ⟨he,-⟩|⟨he,-⟩|⟨-,-,hp,hs,-⟩
      · have hleave := (hm.pass h he).2.2.2.1
        generalize y.pc j=q at hcommit hleave
        cases q with
        | fetch pf p => cases p <;> first | cases hcommit | cases hleave
        | _ => cases hcommit
      · rw [(hm.sync h he).2] at hcommit
        cases hcommit
      · exact ⟨hp,hs⟩
    have hfrom := trans_committed ht hcommit
    rw [hm.before.2.1] at hfrom
    have hall : x.head=0 ∧ x.syncs j=x.passes ∧
        ∀ l, l≠j → calm (x.pc l)=true ∧ x.syncs l=x.passes := by
      rcases hfrom with hpc|⟨pf,a,k,τ,hpc,hwait⟩
      · exact h.commit j hpc
      · exact ⟨htest pf a k τ hpc hwait,hm.found_waiting h hpc hwait⟩
    have hhead : y.head=x.head := by
      rw [hm.after.1,←hm.before.1]
      refine applyWrite_keep fun v hw => ?_
      rw [hw] at ht
      have hnot := (trans_head ht).2.2.2.2
      rcases hfrom with hpc|⟨pf,a,k,τ,hpc,-⟩
      · obtain ⟨pf,a,k,b,hpc⟩ := bar_of_committed hpc
        exact hnot pf a k b hpc
      · exact hnot pf a k (.test τ) hpc
    rw [hhead,hquiet.1,hquiet.2]
    refine ⟨hall.1,hall.2.1,fun l hl => ?_⟩
    rw [hm.others l hl]
    exact hall.2.2 l hl
  · rw [hm.others j hj] at hcommit
    obtain ⟨hcalm,he,hhead,-,-⟩ := hm.beside h hj hcommit
    obtain ⟨hx,hs,ho⟩ := h.commit j hcommit
    have hquiet : y.passes=x.passes ∧ y.syncs=x.syncs := by
      rcases hm.events with ⟨he',-⟩|⟨he',-⟩|⟨-,-,hp,hs,-⟩
      · rw [he] at he'
        cases he'
      · rw [he] at he'
        cases he'
      · exact ⟨hp,hs⟩
    rw [hhead,hquiet.1,hquiet.2]
    refine ⟨hx,hs,fun l hl => ?_⟩
    by_cases hli : l=i
    · rw [hli]
      exact ⟨hcalm,(ho i (fun h => hj h.symm)).2⟩
    · rw [hm.others l hli]
      exact ho l hl

/-- One more thread is counted. -/
theorem card_active_succ {x y : View m} {i : Fin m}
    (hothers : ∀ j, j≠i → (j∈y.active ↔ j∈x.active)) (hnot : i∉x.active) (hmem : i∈y.active) :
    y.active.card=x.active.card+1 := by
  have hset : y.active=insert i x.active := by
    ext j
    rw [Finset.mem_insert]
    by_cases hj : j=i
    · rw [hj]
      exact ⟨fun _ => .inl rfl,fun _ => hmem⟩
    · rw [hothers j hj]
      exact ⟨.inr,fun h => h.resolve_left hj⟩
  rw [hset,Finset.card_insert_of_notMem hnot]

/-- The wait count stays the number of waiting threads, through increments, decrements and the reset
by which the cluster leaves the barrier. -/
theorem Moved.wait_after (hm : Moved cfg c word x y i w e) (h : ClusterInv x) (hlt : m<wordSize)
    (hzero : ∀ j, zeroed (y.pc j)=false) : y.wait=y.active.card := by
  obtain ⟨esense,ht⟩ := hm.trans
  have hkeep : (∀ v, w≠some (.coreWaitcount c,v)) → y.wait=x.wait := by
    intro hw
    rw [hm.after.2.1,applyWrite_keep hw,hm.before.2.1]
  have hbefore : e≠some (.pass (c,i)) → ∀ j, zeroed (x.pc j)=false := by
    intro he j
    by_contra hne
    have hz := Bool.eq_true_of_not_eq_false hne
    have hy := hzero j
    by_cases hj : j=i
    · rw [hj] at hz hy
      rcases trans_of_zeroed ht hz with ⟨hq,-⟩|hpass
      · rw [hy] at hq
        cases hq
      · exact he hpass
    · rw [hm.others j hj,hz] at hy
      cases hy
  rcases hm.events with ⟨he,hp,hs,-⟩|⟨he,hp,hs,-⟩|⟨he,he',hp,hs,-⟩
  · -- the pass leaves no thread of the new barrier waiting
    obtain ⟨hcommit,hz,-,-,-,-,hwait⟩ := hm.pass h he
    obtain ⟨-,hi,hothers⟩ := h.commit i hcommit
    have hempty : y.active=∅ := by
      refine Finset.filter_eq_empty_iff.mpr fun j _ hj => ?_
      rw [hp,hs] at hj
      by_cases hji : j=i
      · rw [hji] at hj
        omega
      · have := (hothers j hji).2
        omega
    rw [hwait,h.zero i hz,hempty,Finset.card_empty]
  · -- the returning thread was not waiting for this barrier
    obtain ⟨hlag,hq⟩ := hm.sync h he
    have hsame : y.active=x.active := by
      refine Finset.filter_congr fun j _ => ?_
      rw [hp,hs]
      by_cases hj : j=i
      · subst hj
        rw [hq,Function.update_self]
        constructor
        · rintro ⟨hc,-⟩
          cases hc
        · omega
      · rw [hm.others j hj,Function.update_of_ne hj]
    rw [hsame,←h.wait (hbefore (by rw [he]; simp))]
    exact hkeep fun v hw => (trans_wait ht hw).2.1 _ he
  · have hstart := h.wait (hbefore he)
    by_cases hw : ∃ v, w=some (.coreWaitcount c,v)
    · obtain ⟨v,hw⟩ := hw
      have hy : y.wait=v := by rw [hm.after.2.1,hw,applyWrite_self]
      have hx := hm.before.2.1
      have hothers : ∀ j, j≠i → (j∈y.active ↔ j∈x.active) := by
        intro j hj
        simp only [View.active,Finset.mem_filter,Finset.mem_univ,true_and,hp,hs,hm.others j hj]
      have hcur : mayLag (x.pc i)=false → x.syncs i=x.passes := by
        intro hlag
        refine (h.phase i).resolve_right fun hl => ?_
        rw [hl.2] at hlag
        cases hlag
      obtain ⟨-,-,⟨hpc,hq,hlag,-,-,hv⟩|⟨hpc,hq,hlag,-,-,hv⟩|⟨hz,-⟩⟩ := trans_wait ht hw
      · have hcard := card_active_succ hothers (fun hi => by simp [View.active,hpc] at hi)
          (by simp [View.active,hq,hp,hs,hcur hlag])
        have hle := Finset.card_le_univ y.active
        rw [Fintype.card_fin] at hle
        rw [hy,hv,hx,hstart,Nat.mod_eq_of_lt (by omega),hcard]
      · have hcard := card_active_succ (fun j hj => (hothers j hj).symm)
          (fun hi => by simp [View.active,hq] at hi) (by simp [View.active,hpc,hcur hlag])
        have hle := Finset.card_le_univ x.active
        rw [Fintype.card_fin] at hle
        rw [hy,hv,hx,hstart]
        unfold decWord wordSize at *
        omega
      · rw [hzero i] at hz
        cases hz
    · have hw' : ∀ v, w≠some (.coreWaitcount c,v) := fun v hv => hw ⟨v,hv⟩
      have hsame : y.active=x.active := by
        refine Finset.filter_congr fun j _ => ?_
        rw [hp,hs]
        by_cases hj : j=i
        · subst hj
          rw [trans_counted ht hw' he']
        · rw [hm.others j hj]
      rw [hsame,hkeep hw',hstart]

end Fields

/-- One turn keeps the barrier of every cluster. -/
theorem clusterInv_step (hm : m<wordSize) {s : QState n m} (fresh : LinkFresh reserve s)
    (gtq : GtqInv s) (ltq : LtqInv s) {turn : QTurn n m} (ok : ClusterOk s turn)
    (h : ∀ c, ClusterInv (view s c)) (c : Fin n) :
    ClusterInv (view (step (program n m cfg) s turn) c) := by
  by_cases hc : turn.thread.1=c
  · subst hc
    have hmoved := moved_step cfg turn fresh gtq ltq
    have hi := h turn.thread.1
    exact ⟨hmoved.percore_after hi,hmoved.sense_after hi,hmoved.phase_after hi,
      hmoved.must_after hi,hmoved.lagHead_after hi,hmoved.midPop_after hi,
      hmoved.wait_after hi hm,hmoved.zero_after hi,hmoved.commit_after hi ok.test,
      hmoved.passReg_after hi,hmoved.passed_after hi fun pf a k b hpc hb => by
        rcases hb with rfl|⟨τ,v,rfl⟩
        · exact ok.decided pf a k hpc
        · exact ok.flip pf a k τ v hpc⟩
  · rw [view_other cfg turn fresh hc]
    exact h c

/-- The barrier of every cluster starts with nobody inside. -/
theorem clusterInv_initial (c : Fin n) : ClusterInv (view (initial n m) c) := by
  constructor
  · rfl
  · exact fun _ => rfl
  · exact fun _ => .inl rfl
  · exact fun _ h => by cases h
  · exact fun _ h => by cases h
  · exact fun _ h => by cases h
  · intro _
    exact (Finset.card_eq_zero.mpr (Finset.filter_eq_empty_iff.mpr fun _ _ h => by cases h.1)).symm
  · exact fun _ h => by cases h
  · exact fun _ h => by cases h
  · exact fun _ _ _ _ _ h => by cases h
  · exact fun _ h => by cases h

end RigelTarget.TaskQueueCluster
