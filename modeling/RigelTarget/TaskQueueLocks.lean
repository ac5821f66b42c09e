import RigelTarget.TaskQueueFrame
import RigelTarget.TicketLock

/-!
# The locks of the task queue

`CLUSTER_gtq_lock` is taken by a try-lock in the slow dequeue and in the parallel
enqueue; the ticket lock of the local queue is taken in five places and released
in nine. Each step is one move of the abstract lock, so both exclusions hold in
every reached state, whatever the schedule.
-/

namespace RigelTarget.TaskQueueLocks

open SharedMemory TaskQueueModel TaskQueueProgram TaskQueueSteps TaskQueueFrame

variable {n m : ℕ} {cfg : Config}

/-- The local states that hold `CLUSTER_gtq_lock`: from the successful conditional store of the
try-lock or the slow path to the store that releases it. -/
def holdsGtq : Pc → Bool
  | .fetch _ _ => true
  | .par _ (.tryGtq _) => false
  | .par _ _ => true
  | _ => false

/-- The next group keeps the lock. -/
@[simp] theorem holdsGtq_parGroup (args : Args) (w : Work) :
    holdsGtq (.par args (parGroup w))=true := by
  unfold parGroup
  split <;> rfl

section Gtq

variable {word : Loc n → ℕ} {t : Thread n m} {sense esense : ℕ} {pc q : Pc} {w : Wr n}
  {e : Option (Event n m)} {c : Fin n} {v : ℕ}

/-- `CLUSTER_gtq_lock` is written by its thread's take of the free lock and by its release. -/
theorem trans_gtqLock (h : Trans cfg word t sense esense pc (some (.gtqLock c,v)) e q) :
    c=t.1 ∧ ((holdsGtq pc=false ∧ holdsGtq q=true ∧ v=1 ∧ word (.gtqLock c)=0) ∨
      (holdsGtq pc=true ∧ holdsGtq q=false ∧ v=0)) := by
  cases h.writes with
  | gtqSlow hfree => exact ⟨rfl,.inl ⟨rfl,rfl,rfl,hfree⟩⟩
  | gtqPar args hfree => exact ⟨rfl,.inl ⟨rfl,rfl,rfl,hfree⟩⟩
  | gtqUnlock => exact ⟨rfl,.inr ⟨rfl,rfl,rfl⟩⟩
  | gtqSync => exact ⟨rfl,.inr ⟨rfl,rfl,rfl⟩⟩
  | gtqParUnlock => exact ⟨rfl,.inr ⟨rfl,rfl,rfl⟩⟩

/-- A step that does not write `CLUSTER_gtq_lock` neither takes nor releases it. So the word tells
all that there is to know. -/
theorem trans_holdsGtq (h : Trans cfg word t sense esense pc w e q)
    (hw : ∀ v, w≠some (.gtqLock t.1,v)) : holdsGtq q=holdsGtq pc := by
  cases h with
  | fast h => cases h <;> rfl
  | slow h =>
    cases h with
    | locked hk => cases hk; exact absurd rfl (hw 1)
    | _ => rfl
  | fetch h =>
    cases h with
    | unlock => exact absurd rfl (hw 0)
    | unlockSync => exact absurd rfl (hw 0)
    | _ => rfl
  | par h =>
    cases h with
    | locked hk => cases hk; exact absurd rfl (hw 1)
    | unlock => exact absurd rfl (hw 0)
    | pool => exact holdsGtq_parGroup ..
    | relLocalDone => exact holdsGtq_parGroup ..
    | unlockEnqueue => exact holdsGtq_parGroup ..
    | _ => rfl
  | seq h => cases h <;> rfl
  | _ => rfl

end Gtq

/-- The lock word is set while a thread of the cluster holds it, and at most one does. This is the
exclusion that fetches and parallel enqueues rely on. -/
structure GtqInv (s : QState n m) : Prop where
  /-- A held lock is not free. -/
  taken : ∀ t, holdsGtq (s.pc t).pc=true → s.word (.gtqLock t.1)=1
  /-- Two holders of one cluster are the same thread. -/
  unique : ∀ t u, t.1=u.1 → holdsGtq (s.pc t).pc=true → holdsGtq (s.pc u).pc=true → t=u

/-- One turn keeps the exclusion: a thread takes the lock only by a conditional store over the zero
that it has loaded. -/
theorem gtqInv_step {s : QState n m} (fresh : LinkFresh reserve s) (h : GtqInv s)
    (turn : QTurn n m) : GtqInv (step (program n m cfg) s turn) := by
  have ht := trans_step cfg s turn fresh
  have hword := word_step cfg s turn
  by_cases hw : ∃ c v, wrote cfg s turn=some (.gtqLock c,v)
  · obtain ⟨c,v,hw⟩ := hw
    rw [hw] at ht hword
    obtain ⟨rfl,htake|hrelease⟩ := trans_gtqLock ht
    · obtain ⟨hpc,hq,rfl,hfree⟩ := htake
      -- nobody held the free lock
      have hnone : ∀ u : Thread n m, u.1=turn.thread.1 → holdsGtq (s.pc u).pc=false := by
        intro u hu
        by_contra hheld
        have := h.taken u (Bool.eq_true_of_not_eq_false hheld)
        rw [hu] at this
        omega
      have hothers : ∀ u : Thread n m, u.1=turn.thread.1 → u≠turn.thread →
          holdsGtq ((step (program n m cfg) s turn).pc u).pc=false := by
        intro u hu hne
        rw [pc_other _ _ _ hne]
        exact hnone u hu
      constructor
      · intro u hheld
        rw [hword]
        by_cases hu : u.1=turn.thread.1
        · rw [hu]
          exact applyWrite_self
        · rw [applyWrite_keep fun v he =>
            hu (Loc.gtqLock.inj (Prod.mk.inj (Option.some.inj he)).1).symm]
          rw [pc_other _ _ _ fun he => hu (by rw [he])] at hheld
          exact h.taken u hheld
      · intro u u' huu hu hu'
        by_cases hc : u.1=turn.thread.1
        · have h1 : u=turn.thread := by
            by_contra hne
            rw [hothers u hc hne] at hu
            cases hu
          have h2 : u'=turn.thread := by
            by_contra hne
            rw [hothers u' (huu.symm.trans hc) hne] at hu'
            cases hu'
          rw [h1,h2]
        · rw [pc_other _ _ _ fun he => hc (by rw [he])] at hu
          rw [pc_other _ _ _ fun he => hc (huu.trans (by rw [he]))] at hu'
          exact h.unique u u' huu hu hu'
    · obtain ⟨hpc,hq,rfl⟩ := hrelease
      have hnone : ∀ u : Thread n m, u.1=turn.thread.1 →
          holdsGtq ((step (program n m cfg) s turn).pc u).pc=false := by
        intro u hu
        by_cases hne : u=turn.thread
        · rw [hne]
          exact hq
        · rw [pc_other _ _ _ hne]
          by_contra hheld
          exact hne (h.unique u turn.thread hu (Bool.eq_true_of_not_eq_false hheld) hpc)
      constructor
      · intro u hheld
        have hu : u.1≠turn.thread.1 := by
          intro hu
          rw [hnone u hu] at hheld
          cases hheld
        rw [hword,applyWrite_keep fun v he =>
          hu (Loc.gtqLock.inj (Prod.mk.inj (Option.some.inj he)).1).symm]
        rw [pc_other _ _ _ fun he => hu (by rw [he])] at hheld
        exact h.taken u hheld
      · intro u u' huu hu hu'
        have hc : u.1≠turn.thread.1 := by
          intro hc
          rw [hnone u hc] at hu
          cases hu
        rw [pc_other _ _ _ fun he => hc (by rw [he])] at hu
        rw [pc_other _ _ _ fun he => hc (huu.trans (by rw [he]))] at hu'
        exact h.unique u u' huu hu hu'
  · have hkeep : ∀ u, holdsGtq ((step (program n m cfg) s turn).pc u).pc=
        holdsGtq (s.pc u).pc := by
      intro u
      by_cases hu : u=turn.thread
      · rw [hu]
        exact trans_holdsGtq ht fun v he => hw ⟨_,v,he⟩
      · rw [pc_other _ _ _ hu]
    constructor
    · intro u hu
      rw [hkeep] at hu
      rw [hword,applyWrite_keep fun v he => hw ⟨_,v,he⟩]
      exact h.taken u hu
    · intro u u' huu hu hu'
      rw [hkeep] at hu hu'
      exact h.unique u u' huu hu hu'

/-- In every reached state the holder of `CLUSTER_gtq_lock` is unique. -/
theorem gtqInv_reachable {allowed : QState n m → QTurn n m → Prop} {s : QState n m}
    (hs : Reachable (program n m cfg) (initial n m) allowed s) : GtqInv s := by
  refine Reachable.invariant ⟨fun t h => ?_,fun t u _ h => ?_⟩ ?_ hs
  · intro s turn hs _ h
    exact gtqInv_step (linkFresh_reachable hs) h turn
  · cases h
  · cases h

/-- The phase of the abstract ticket lock in an acquire. -/
def acqPhase : Acq → TicketLock.Phase
  | .poll k => .waiting k
  | _ => .outside

/-- The phase of the abstract ticket lock in a release. -/
def relPhase : Rel → TicketLock.Phase
  | .ld => .holding
  | .st v => .releasing v

/-- The phase of the abstract ticket lock in the fast path, which keeps its ticket in a register
until the release. -/
def fastPhase : FastPc → TicketLock.Phase
  | .acq a => acqPhase a
  | .head k => .holdingWith k
  | .relEmpty k => .holdingWith k
  | .headAgain k => .holdingWith k
  | .next k _ => .holdingWith k
  | .setHead k _ _ => .holdingWith k
  | .relPop k _ => .holdingWith k
  | .copy _ _ => .outside

/-- The phase of the abstract ticket lock in the slow path. It holds the lock from the test of the
senses to each of the three releases. -/
def slowPhase : SlowPc → TicketLock.Phase
  | .acq a => acqPhase a
  | .relSync l => relPhase l
  | .relPop _ _ l => relPhase l
  | .relNull l => relPhase l
  | .senseLocked => .holding
  | .head => .holding
  | .headAgain => .holding
  | .copy _ _ => .holding
  | .next _ _ => .holding
  | .setHead _ _ _ => .holding
  | .dec _ _ _ => .holding
  | _ => .outside

/-- The phase of the abstract ticket lock in a fetch. It takes the lock twice: for the test of the
wait count and for the insertion. -/
def fetchPhase : FetchPc → TicketLock.Phase
  | .bar _ _ (.acqTest _ a) => acqPhase a
  | .bar _ _ (.test _) => .holding
  | .bar _ _ (.relTest _ _ l) => relPhase l
  | .acqIns _ _ _ a => acqPhase a
  | .insHead _ _ _ => .holding
  | .insNext _ _ _ _ => .holding
  | .insSet _ _ _ => .holding
  | .relIns l => relPhase l
  | _ => .outside

/-- The phase of the abstract ticket lock in the parallel enqueue, which releases it in one place
after an insertion and in another before a publication. -/
def parPhase : ParPc → TicketLock.Phase
  | .acq _ a => acqPhase a
  | .head _ => .holding
  | .insHead _ => .holding
  | .insNext _ _ => .holding
  | .insSet _ => .holding
  | .relLocal _ l => relPhase l
  | .relGlobal _ l => relPhase l
  | _ => .outside

/-- The phase of a thread in the abstract ticket lock of its cluster, whichever function of the
queue it is in. -/
def ltqPhase : Pc → TicketLock.Phase
  | .fast p => fastPhase p
  | .slow p => slowPhase p
  | .fetch _ p => fetchPhase p
  | .par _ p => parPhase p
  | _ => .outside

/-- The end of an iteration of the barrier loop is outside the lock. -/
@[simp] theorem ltqPhase_barBranch (pf h : ℕ) (k : Bool) (tail : ℕ) :
    ltqPhase (.fetch pf (barBranch (n := n) h k tail))=.outside := by
  rcases barBranch_cases (n := n) h k tail with he|he|he
  · rw [he]; rfl
  · rw [he]; rfl
  · rw [he]; rfl

/-- The next group starts outside the lock. -/
@[simp] theorem ltqPhase_parGroup (args : Args) (w : Work) :
    ltqPhase (.par args (parGroup w))=.outside := by
  unfold parGroup
  split <;> rfl

section Ltq

variable {word : Loc n → ℕ} {t : Thread n m} {sense esense : ℕ} {pc q : Pc} {w : Wr n}
  {e : Option (Event n m)} {c : Fin n}

/-- The move of the abstract lock of a cluster, from the words before and the write. Writes to other
words change neither word of the lock. -/
abbrev LtqMove (word : Loc n → ℕ) (c : Fin n) (p : TicketLock.Phase) (w : Wr n)
    (q : TicketLock.Phase) : Prop :=
  TicketLock.Move wordSize (word (.ticketCount c)) (word (.ticketPoll c)) p
    (applyWrite word w (.ticketCount c)) (applyWrite word w (.ticketPoll c)) q

/-- A write to another word is no move. -/
theorem ltqMove_quiet {p : TicketLock.Phase} (hcount : ∀ v, w≠some (.ticketCount c,v))
    (hpoll : ∀ v, w≠some (.ticketPoll c,v)) : LtqMove word c p w p := by
  unfold LtqMove
  rw [applyWrite_keep hcount,applyWrite_keep hpoll]
  exact .quiet p

/-- A step of the acquire is a move. -/
theorem ltqMove_acq {a a' : Acq} (h : AcqTrans word c a w (some a')) :
    LtqMove word c (acqPhase a) w (acqPhase a') := by
  cases h with
  | load => exact .quiet _
  | reserve =>
    unfold LtqMove
    rw [applyWrite_self,applyWrite_keep fun v he => by cases he]
    exact .reserve
  | lost => exact .quiet _
  | wait k => exact .quiet _

/-- The granted acquire is a move to any owning phase that keeps its ticket. -/
theorem ltqMove_grant {a : Acq} (h : AcqTrans word c a w none) {p : TicketLock.Phase}
    (hp : p=.holding ∨ p=.holdingWith a.ticket) : LtqMove word c (acqPhase a) w p := by
  cases h with
  | grant => exact .grant hp

/-- A step of the release is a move. -/
theorem ltqMove_rel {l l' : Rel} (h : RelTrans word c l w (some l')) :
    LtqMove word c (relPhase l) w (relPhase l') := by
  cases h with
  | load => exact .load

/-- The end of the release is a move. -/
theorem ltqMove_relDone {l : Rel} (h : RelTrans word c l w none) :
    LtqMove word c (relPhase l) w .outside := by
  cases h with
  | store v =>
    unfold LtqMove
    rw [applyWrite_self,applyWrite_keep fun v he => by cases he]
    exact .releaseLoaded v

/-- The release of the fast path is a move. -/
theorem ltqMove_relWith (k : ℕ) :
    LtqMove word c (.holdingWith k) (some (.ticketPoll c,(k+1)%wordSize)) .outside := by
  unfold LtqMove
  rw [applyWrite_self,applyWrite_keep fun v he => by cases he]
  exact .releaseWith k

/-- An update of the wait count is no move. -/
theorem ltqMove_upd {f : ℕ → ℕ} {u : Upd} {o : Option Upd} {p : TicketLock.Phase}
    (h : UpdTrans word c f u w o) : LtqMove word c p w p := by
  cases h <;> exact ltqMove_quiet (fun _ he => by cases he) fun _ he => by cases he

/-- A step of the try-lock is no move. -/
theorem ltqMove_try {k : Try} {o : Try ⊕ Bool} {p : TicketLock.Phase}
    (h : TryTrans word c k w o) : LtqMove word c p w p := by
  cases h <;> exact ltqMove_quiet (fun _ he => by cases he) fun _ he => by cases he

/-- Every step of a thread is a move of the ticket lock of its cluster. So the queue uses the lock
as the abstract lock wants it used, and inherits its exclusion. -/
theorem trans_ltq (h : Trans cfg word t sense esense pc w e q) :
    LtqMove word t.1 (ltqPhase pc) w (ltqPhase q) := by
  have quiet : ∀ {p : TicketLock.Phase} {x : Loc n} {v : ℕ}, x≠.ticketCount t.1 →
      x≠.ticketPoll t.1 → LtqMove word t.1 p (some (x,v)) p := by
    intro p x v hc hp
    exact ltqMove_quiet (fun u he => hc (by cases he; rfl)) (fun u he => hp (by cases he; rfl))
  cases h with
  | fast h =>
    cases h with
    | acq ha => exact ltqMove_acq ha
    | grant ha => exact ltqMove_grant ha (.inr rfl)
    | relEmpty k => exact ltqMove_relWith k
    | relPop k p => exact ltqMove_relWith k
    | unlink => exact quiet (by simp) (by simp)
    | _ => exact .quiet _
  | slow h =>
    cases h with
    | inc hu => exact ltqMove_upd hu
    | incDone hu => exact ltqMove_upd hu
    | dec hu => exact ltqMove_upd hu
    | decDone hu => exact ltqMove_upd hu
    | acq ha => exact ltqMove_acq ha
    | grant ha => exact ltqMove_grant ha (.inl rfl)
    | relSync hl => exact ltqMove_rel hl
    | relSyncDone hl => exact ltqMove_relDone hl
    | relPop hl => exact ltqMove_rel hl
    | finish hl => exact ltqMove_relDone hl
    | relNull hl => exact ltqMove_rel hl
    | relNullDone hl => exact ltqMove_relDone hl
    | trying hk => exact ltqMove_try hk
    | locked hk => exact ltqMove_try hk
    | busy hk => exact ltqMove_try hk
    | unlink => exact quiet (by simp) (by simp)
    | _ => exact .quiet _
  | fetch h =>
    cases h with
    | bar hb =>
      cases hb with
      | acq ha => exact ltqMove_acq ha
      | grant ha => exact ltqMove_grant ha (.inl rfl)
      | rel hl => exact ltqMove_rel hl
      | pending hl => exact ltqMove_relDone hl
      | notPending hl =>
        rw [ltqPhase_barBranch]
        exact ltqMove_relDone hl
      | tailCounted =>
        rw [ltqPhase_barBranch]
        exact .quiet _
      | incWc =>
        rw [ltqPhase_barBranch]
        exact quiet (by simp [waitLoc]) (by simp [waitLoc])
      | decWc => exact quiet (by simp [waitLoc]) (by simp [waitLoc])
      | rstWc => exact quiet (by simp [waitLoc]) (by simp [waitLoc])
      | backSt => exact quiet (by simp) (by simp)
      | setHead => exact quiet (by simp) (by simp)
      | flip => exact quiet (by simp) (by simp)
      | passW => exact quiet (by simp) (by simp)
      | passSt => exact quiet (by simp) (by simp)
      | _ => exact .quiet _
    | acq ha => exact ltqMove_acq ha
    | grant ha => exact ltqMove_grant ha (.inl rfl)
    | rel hl => exact ltqMove_rel hl
    | more hl => exact ltqMove_relDone hl
    | enough hl => exact ltqMove_relDone hl
    | inc => exact quiet (by simp) (by simp)
    | enterSt => exact quiet (by simp) (by simp)
    | insNext => exact quiet (by simp) (by simp)
    | insSet => exact quiet (by simp) (by simp)
    | unlock => exact quiet (by simp) (by simp)
    | unlockSync => exact quiet (by simp) (by simp)
    | _ => exact .quiet _
  | par h =>
    cases h with
    | trying hk => exact ltqMove_try hk
    | locked hk => exact ltqMove_try hk
    | busy hk => exact ltqMove_try hk
    | acq ha => exact ltqMove_acq ha
    | grant ha => exact ltqMove_grant ha (.inl rfl)
    | relLocal hl => exact ltqMove_rel hl
    | relLocalDone hl =>
      rw [ltqPhase_parGroup]
      exact ltqMove_relDone hl
    | relGlobal hl => exact ltqMove_rel hl
    | relGlobalDone hl => exact ltqMove_relDone hl
    | pool =>
      rw [ltqPhase_parGroup]
      exact quiet (by simp) (by simp)
    | unlockEnqueue =>
      rw [ltqPhase_parGroup]
      exact quiet (by simp) (by simp)
    | done => exact .quiet _
    | start => exact .quiet _
    | togLd => exact .quiet _
    | empty => exact .quiet _
    | insertLocal => exact .quiet _
    | insertGlobal => exact .quiet _
    | insHead => exact .quiet _
    | loadTail => exact .quiet _
    | _ => exact quiet (by simp) (by simp)
  | seq h =>
    cases h with
    | loadTail => exact .quiet _
    | _ => exact quiet (by simp) (by simp)
  | _ => exact .quiet _

end Ltq

/-- The ticket lock of every cluster is explained by some queue of its threads. -/
def LtqInv (s : QState n m) : Prop :=
  ∀ c, ∃ queue, TicketLock.Inv wordSize queue (s.word (.ticketCount c))
    (s.word (.ticketPoll c)) (fun i : Fin m => ltqPhase (s.pc (c,i)).pc)

/-- One turn keeps every ticket lock. A turn of one cluster leaves the locks of the others alone. -/
theorem ltqInv_step (hm : m<wordSize) {s : QState n m} (fresh : LinkFresh reserve s)
    (h : LtqInv s) (turn : QTurn n m) : LtqInv (step (program n m cfg) s turn) := by
  intro c
  obtain ⟨queue,hq⟩ := h c
  have ht := trans_step cfg s turn fresh
  have hword := word_step cfg s turn
  by_cases hc : turn.thread.1=c
  · subst hc
    have hmove := trans_ltq ht
    obtain ⟨queue',hq'⟩ := hq.move (by rw [Fintype.card_fin]; exact hm)
      (t := turn.thread.2) hmove
    refine ⟨queue',?_⟩
    rw [hword]
    convert hq' using 1
    funext i
    by_cases hi : i=turn.thread.2
    · rw [hi,Function.update_self]
    · rw [Function.update_of_ne hi,pc_other _ _ _ fun he => hi (by rw [←he])]
  · refine ⟨queue,?_⟩
    rw [word_other_cluster cfg s turn fresh rfl hc,word_other_cluster cfg s turn fresh rfl hc]
    convert hq using 1
    funext i
    rw [pc_other _ _ _ fun he => hc (by rw [←he])]

/-- In every reached state every ticket lock has its queue. -/
theorem ltqInv_reachable (hm : m<wordSize) {allowed : QState n m → QTurn n m → Prop}
    {s : QState n m} (hs : Reachable (program n m cfg) (initial n m) allowed s) : LtqInv s := by
  refine Reachable.invariant (fun c => ?_) ?_ hs
  · exact ⟨[],TicketLock.Inv.initial (by decide)⟩
  · intro s turn hs _ h
    exact ltqInv_step hm (linkFresh_reachable hs) h turn

/-- At most one thread of a cluster is between acquire and release of the local queue lock. -/
theorem LtqInv.exclusive {s : QState n m} (h : LtqInv s) {t u : Thread n m} (htu : t.1=u.1)
    (ht : (ltqPhase (s.pc t).pc).owns=true) (hu : (ltqPhase (s.pc u).pc).owns=true) : t=u := by
  obtain ⟨c,i⟩ := t
  obtain ⟨c',j⟩ := u
  dsimp only at htu
  subst htu
  obtain ⟨queue,hq⟩ := h c
  have hij : i=j := hq.exclusive ht hu
  rw [hij]

end RigelTarget.TaskQueueLocks
