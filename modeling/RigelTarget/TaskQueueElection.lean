import RigelTarget.TaskQueuePrefetch
import RigelTarget.RoundElection

/-!
# The leader of a parallel enqueue

All threads of a cluster call `SW_TaskQueue_Loop_PARALLEL` once per phase. Whoever gets
`CLUSTER_gtq_lock` compares its private enqueue sense with that of the cluster, and the first
one of the phase executes the body. A thread that finds the lock taken returns at once. That
is harmless while the lock is held by another call of the enqueue; it may also be held by a
dequeue, which enqueues nothing.
-/

namespace RigelTarget.TaskQueueElection

open SharedMemory TaskQueueModel TaskQueueProgram TaskQueueSteps TaskQueueFrame TaskQueueLocks
  TaskQueueCluster TaskQueueBarrier TaskQueueSafety TaskQueueLists TaskQueuePrefetch

variable {n m : ℕ} {cfg : Config}

/-- Calls of `SW_TaskQueue_Loop_PARALLEL` by a thread. -/
def isParCall (t : Thread n m) : Event n m → Bool
  | .parCall u => u==t
  | _ => false

/-- Enqueue bodies executed by a cluster. -/
def isBody (c : Fin n) : Event n m → Bool
  | .body u => u.1==c
  | _ => false

/-- Number of calls of `SW_TaskQueue_Loop_PARALLEL` by a thread. -/
def parCalls (s : QState n m) (t : Thread n m) : ℕ := s.trace.countP (isParCall t)

/-- Number of enqueue bodies that a cluster has executed. -/
def bodies (s : QState n m) (c : Fin n) : ℕ := s.trace.countP (isBody c)

/-- The part of a thread in the election of its cluster: outside, in the try-lock, with the lock
before and after its test of the sense, or waiting in a dequeue. -/
def stageOf : Pc → RoundElection.Stage
  | .outside => .outside
  | .fast _ => .waiting
  | .slow _ => .waiting
  | .fetch _ _ => .waiting
  | .par _ (.tryGtq _) => .trying
  | .par _ .chk => .testing
  | .par _ .togLd => .taking
  | .par _ (.togSt _) => .taking
  | .par _ _ => .settled
  | .seq _ _ => .outside

/-- Events of the election. -/
def isElection : Event n m → Bool
  | .parCall _ => true
  | .body _ => true
  | _ => false

/-- The next group belongs to the body. -/
theorem stageOf_parGroup (args : Args) (w : Work) :
    stageOf (.par args (parGroup w))=.settled := by
  unfold parGroup
  split <;> rfl

/-- The steps of a thread as steps of the election. Steps that have no part in it leave its stage as
it is. -/
inductive StageMove (word : Loc n → ℕ) (t : Thread n m) (esense : ℕ) :
    Pc → Wr n → Option (Event n m) → Pc → Prop where
  /-- The stage stays. -/
  | same {pc q : Pc} {w : Wr n} {e : Option (Event n m)} : stageOf q=stageOf pc →
      e.any isElection=false → (∀ v, w≠some (.enqueueLoop t.1,v)) → StageMove word t esense pc w e q
  /-- The dequeue is called. -/
  | enter : StageMove word t esense .outside none none (.fast (.acq .ldl))
  /-- The dequeue returns. -/
  | leave {pc : Pc} {w : Wr n} {e : Option (Event n m)} : stageOf pc=.waiting →
      e.any isElection=false → (∀ v, w≠some (.enqueueLoop t.1,v)) →
      StageMove word t esense pc w e .outside
  /-- The parallel enqueue is called. -/
  | call (args : Args) : StageMove word t esense .outside none (some (.parCall t))
      (.par args (.tryGtq .ldl))
  /-- The lock is taken. -/
  | lock (args : Args) : StageMove word t esense (.par args (.tryGtq .stc))
      (some (.gtqLock t.1,1)) none (.par args .chk)
  /-- The lock is found taken. -/
  | busy (args : Args) : word (.gtqLock t.1)≠0 →
      StageMove word t esense (.par args (.tryGtq .ldl)) none none .outside
  /-- The body was executed before. -/
  | done (args : Args) : word (.enqueueLoop t.1)=esense →
      StageMove word t esense (.par args .chk) none none (.par args .unlock)
  /-- The body is to be executed. -/
  | start (args : Args) : word (.enqueueLoop t.1)≠esense →
      StageMove word t esense (.par args .chk) none none (.par args .togLd)
  /-- The sense is loaded. -/
  | load (args : Args) : StageMove word t esense (.par args .togLd) none none
      (.par args (.togSt (word (.enqueueLoop t.1))))
  /-- The body is entered. -/
  | body (args : Args) (v : ℕ) {q : Pc} : stageOf q=.settled →
      StageMove word t esense (.par args (.togSt v)) (some (.enqueueLoop t.1,flipSense v))
        (some (.body t)) q
  /-- The lock is released. -/
  | unlock (args : Args) : StageMove word t esense (.par args .unlock) (some (.gtqLock t.1,0)) none
      .outside

section Steps

variable {word : Loc n → ℕ} {t : Thread n m} {sense esense : ℕ} {pc q : Pc} {w : Wr n}
  {e : Option (Event n m)}

/-- The enqueue sense of the cluster is written by the body only. -/
theorem trans_loop {v : ℕ} {c : Fin n}
    (h : Trans cfg word t sense esense pc (some (.enqueueLoop c,v)) e q) :
    c=t.1 ∧ ∃ args v', pc=.par args (.togSt v') := by
  cases h.writes with
  | toggle args v' => exact ⟨rfl,args,v',rfl⟩

/-- The register of the flip is loaded by the step before it, and that step stores nothing. -/
theorem trans_togSt {args : Args} {v : ℕ} (h : Trans cfg word t sense esense pc w e q)
    (hq : q=.par args (.togSt v)) : v=word (.enqueueLoop t.1) ∧ w=none := by
  have hgroup : ∀ (args' : Args) (u : Work), Pc.par args' (parGroup u)≠.par args (.togSt v) := by
    intro args' u he
    have hs := stageOf_parGroup args' u
    rw [he] at hs
    cases hs
  cases h with
  | fast h => cases h <;> cases hq
  | slow h => cases h <;> cases hq
  | fetch h => cases h <;> cases hq
  | par h =>
    cases h with
    | togLd =>
      cases hq
      exact ⟨rfl,rfl⟩
    | pool groups => exact absurd hq (hgroup _ _)
    | relLocalDone => exact absurd hq (hgroup _ _)
    | unlockEnqueue => exact absurd hq (hgroup _ _)
    | _ => cases hq
  | seq h => cases h <;> cases hq
  | _ => cases hq

/-- Every step is a step of the election. From here on the proof is about rounds and members, and
accesses are not looked at again. -/
theorem trans_stage (h : Trans cfg word t sense esense pc w e q) :
    StageMove word t esense pc w e q := by
  have hloop : (∀ args v, pc≠.par args (.togSt v)) → ∀ v, w≠some (.enqueueLoop t.1,v) := by
    intro hpc v hw
    rw [hw] at h
    obtain ⟨-,args,v',hp⟩ := trans_loop h
    exact hpc args v' hp
  cases h with
  | stay => exact .same rfl rfl (hloop fun _ _ h => by cases h)
  | dequeue => exact .enter
  | parCall args => exact .call args
  | seqCall args => exact .same rfl rfl (hloop fun _ _ h => by cases h)
  | seqSkip args => exact .same rfl rfl (hloop fun _ _ h => by cases h)
  | fast h =>
    have hno := hloop fun _ _ h => by cases h
    cases h with
    | finish => exact .leave rfl rfl hno
    | _ => exact .same rfl rfl hno
  | slow h =>
    have hno := hloop fun _ _ h => by cases h
    cases h with
    | finish => exact .leave rfl rfl hno
    | senseSync => exact .leave rfl rfl hno
    | relSyncDone => exact .leave rfl rfl hno
    | _ => exact .same rfl rfl hno
  | fetch h =>
    have hno := hloop fun _ _ h => by cases h
    cases h with
    | unlockSync => exact .leave rfl rfl hno
    | bar hb =>
      refine .same rfl ?_ hno
      cases hb <;> rfl
    | _ => exact .same rfl rfl hno
  | par h =>
    cases h with
    | trying hk => exact .same rfl rfl (hloop fun _ _ h => by cases h)
    | locked hk =>
      cases hk
      exact .lock _
    | busy hk =>
      cases hk with
      | taken htaken => exact .busy _ htaken
    | done he => exact .done _ he
    | start he => exact .start _ he
    | togLd => exact .load _
    | body v groups hg => exact .body _ v rfl
    | bodyEmpty v hg => exact .body _ v rfl
    | pool groups => exact .same (stageOf_parGroup _ _) rfl (hloop fun _ _ h => by cases h)
    | relLocalDone => exact .same (stageOf_parGroup _ _) rfl (hloop fun _ _ h => by cases h)
    | unlockEnqueue => exact .same (stageOf_parGroup _ _) rfl (hloop fun _ _ h => by cases h)
    | unlock => exact .unlock _
    | _ => exact .same rfl rfl (hloop fun _ _ h => by cases h)
  | seq h =>
    have hno := hloop fun _ _ h => by cases h
    cases h <;> exact .same rfl rfl hno

end Steps

section Counts

variable {s : QState n m} {turn : QTurn n m}

/-- A kind of events that the moving thread does not show is not counted up. -/
theorem countP_other {kind : Event n m → Bool} (h : ∀ e, kind e=true → actor e≠turn.thread) :
    (step (program n m cfg) s turn).trace.countP kind=s.trace.countP kind := by
  rw [countP_step]
  cases he : event cfg s turn with
  | none => rfl
  | some e =>
    have hk : kind e≠true := fun hk => h e hk (event_actor he)
    rw [shown_some,if_neg hk]
    rfl

/-- A thread that does not move calls nothing. -/
theorem parCalls_other {u : Thread n m} (hu : u≠turn.thread) :
    parCalls (step (program n m cfg) s turn) u=parCalls s u := by
  refine countP_other fun e he => ?_
  cases e with
  | parCall t =>
    rw [eq_of_beq he]
    exact hu
  | _ => cases he

/-- A thread that does not move leaves no barrier. -/
theorem syncs_other {u : Thread n m} (hu : u≠turn.thread) :
    syncs (step (program n m cfg) s turn) u=syncs s u := by
  refine countP_other fun e he => ?_
  cases e with
  | sync t =>
    rw [eq_of_beq he]
    exact hu
  | _ => cases he

/-- A cluster that does not move executes no body. -/
theorem bodies_other {c : Fin n} (hc : c≠turn.thread.1) :
    bodies (step (program n m cfg) s turn) c=bodies s c := by
  refine countP_other fun e he ht => ?_
  cases e with
  | body t =>
    have hb : t.1=c := eq_of_beq he
    rw [←hb] at hc
    exact hc (congrArg Prod.fst ht)
  | _ => cases he

/-- A cluster that does not move passes no barrier. -/
theorem passes_other {c : Fin n} (hc : c≠turn.thread.1) :
    passes (step (program n m cfg) s turn) c=passes s c := by
  refine countP_other fun e he ht => ?_
  cases e with
  | pass t =>
    have hb : t.1=c := eq_of_beq he
    rw [←hb] at hc
    exact hc (congrArg Prod.fst ht)
  | _ => cases he

/-- Other events than those of the election are not counted in it. -/
theorem shown_quiet {e : Option (Event n m)} (he : e.any isElection=false) (u : Thread n m)
    (c : Fin n) : shown e (isParCall u)=0 ∧ shown e (isBody c)=0 := by
  cases e with
  | none => exact ⟨rfl,rfl⟩
  | some e =>
    cases e with
    | parCall t => cases he
    | body t => cases he
    | _ => exact ⟨rfl,rfl⟩

/-- Calls are counted along the turns. -/
theorem parCalls_step (cfg : Config) (s : QState n m) (turn : QTurn n m) (u : Thread n m) :
    parCalls (step (program n m cfg) s turn) u=
      parCalls s u+shown (event cfg s turn) (isParCall u) := countP_step ..

/-- Bodies are counted along the turns. -/
theorem bodies_step (cfg : Config) (s : QState n m) (turn : QTurn n m) (c : Fin n) :
    bodies (step (program n m cfg) s turn) c=
      bodies s c+shown (event cfg s turn) (isBody c) := countP_step ..

/-- The private enqueue sense is flipped when the try-lock ends, whether it has got the lock or
not. -/
theorem enqueueSense_step (cfg : Config) (s : QState n m) (turn : QTurn n m) :
    ((step (program n m cfg) s turn).pc turn.thread).enqueueSense=
      if stageOf (s.pc turn.thread).pc=.trying ∧
          stageOf ((step (program n m cfg) s turn).pc turn.thread).pc≠.trying then
        flipSense (s.pc turn.thread).enqueueSense else (s.pc turn.thread).enqueueSense := by
  rw [pc_self]
  simp only [next]
  generalize res cfg s turn=r
  cases hpc : (s.pc turn.thread).pc with
  | par args p =>
    cases p with
    | tryGtq k =>
      cases k with
      | ldl =>
        by_cases hr : r=0
        · simp [endsTry,nextPc,parNext,Try.next,hpc,hr,stageOf]
        · simp [endsTry,nextPc,parNext,Try.next,hpc,hr,stageOf]
      | stc =>
        by_cases hr : r=1
        · simp [endsTry,nextPc,parNext,Try.next,hpc,hr,stageOf]
        · simp [endsTry,nextPc,parNext,Try.next,hpc,hr,stageOf]
    | _ => simp [endsTry,hpc,stageOf]
  | _ => simp [endsTry,hpc,stageOf]

end Counts

/-- The election of a cluster as one of the rounds between its barriers: leads are bodies, and a
round ends when the cluster passes its barrier. -/
abbrev RoundOf (s : QState n m) (c : Fin n) : Prop :=
  RoundElection.Inv (fun i => stageOf (s.pc (c,i)).pc) (fun i => parCalls s (c,i))
    (fun i => syncs s (c,i)) (bodies s c) (passes s c)

/-- The senses and locks of the election: senses are parities of calls and bodies, and the lock has
at most one holder. -/
structure ElectInv (s : QState n m) : Prop where
  /-- The rounds of each cluster. -/
  round : ∀ c, RoundOf s c
  /-- A private enqueue sense is the parity of the ended tries. -/
  sense : ∀ t, (s.pc t).enqueueSense=
    (parCalls s t+if stageOf (s.pc t).pc=.trying then 1 else 0)%2
  /-- The enqueue sense of a cluster is the parity of its bodies. -/
  loop : ∀ c, s.word (.enqueueLoop c)=bodies s c%2
  /-- The register of the flip holds the sense. -/
  reg : ∀ t args v, (s.pc t).pc=.par args (.togSt v) → v=s.word (.enqueueLoop t.1)
  /-- A taken `CLUSTER_gtq_lock` has a holder. -/
  holder : ∀ c, s.word (.gtqLock c)≠0 → ∃ i, holdsGtq (s.pc (c,i)).pc=true

/-- No thread has called anything. -/
theorem electInv_initial : ElectInv (initial n m) where
  round _ := ⟨⟨Nat.le_refl 0,Nat.zero_le 1⟩,fun _ => .inr ⟨rfl,rfl⟩,(fun _ h => by cases h),
    (fun _ h => by cases h),(fun _ _ h => by cases h)⟩
  sense _ := rfl
  loop _ := rfl
  reg _ _ _ h := by cases h
  holder _ h := absurd rfl h

section Words

variable {s : QState n m} {turn : QTurn n m}

/-- A turn keeps the parity of the private enqueue senses: they count the tries of their thread that
have ended. -/
theorem sense_next (fresh : LinkFresh reserve s) {t : Thread n m}
    (hs : (s.pc t).enqueueSense=(parCalls s t+if stageOf (s.pc t).pc=.trying then 1 else 0)%2) :
    ((step (program n m cfg) s turn).pc t).enqueueSense=
      (parCalls (step (program n m cfg) s turn) t+
        if stageOf ((step (program n m cfg) s turn).pc t).pc=.trying then 1 else 0)%2 := by
  by_cases ht : t=turn.thread
  · subst ht
    have hm := trans_stage (trans_step cfg s turn fresh)
    rw [enqueueSense_step,parCalls_step]
    generalize ((step (program n m cfg) s turn).pc turn.thread).pc=q at hm ⊢
    generalize (s.pc turn.thread).pc=pc at hm hs ⊢
    generalize event cfg s turn=e at hm ⊢
    generalize wrote cfg s turn=w at hm
    cases hm with
    | same hstage he _ =>
      rw [hstage,if_neg (fun h => h.2 h.1),(shown_quiet he turn.thread turn.thread.1).1]
      exact hs
    | leave hwait he _ =>
      rw [hwait,if_neg (fun h => by cases h.1),(shown_quiet he turn.thread turn.thread.1).1]
      rw [hwait] at hs
      exact hs
    | enter => exact hs
    | call args =>
      rw [if_neg (fun h => by cases h.1)]
      have hone : shown (some (Event.parCall turn.thread)) (isParCall turn.thread)=1 := by
        simp [isParCall]
      rw [hone,hs]
      simp only [stageOf,reduceCtorEq,if_false,if_true]
      omega
    | lock args =>
      rw [if_pos ⟨rfl,fun h => by cases h⟩,hs,flipSense_mod]
      simp only [stageOf,reduceCtorEq,if_false,if_true,shown_none]
      omega
    | busy args _ =>
      rw [if_pos ⟨rfl,fun h => by cases h⟩,hs,flipSense_mod]
      simp only [stageOf,reduceCtorEq,if_false,if_true,shown_none]
      omega
    | done args _ => exact hs
    | start args _ => exact hs
    | load args => exact hs
    | body args v hq =>
      rw [hq]
      exact hs
    | unlock args => exact hs
  · rw [pc_other cfg s turn ht,parCalls_other ht]
    exact hs

/-- A turn keeps the parity of the enqueue senses of the clusters: they count the bodies that were
done. -/
theorem loop_next (h : ElectInv s) (fresh : LinkFresh reserve s) (c : Fin n) :
    (step (program n m cfg) s turn).word (.enqueueLoop c)=
      bodies (step (program n m cfg) s turn) c%2 := by
  by_cases hc : c=turn.thread.1
  · subst hc
    have hl := h.loop turn.thread.1
    have hr := h.reg turn.thread
    have hm := trans_stage (trans_step cfg s turn fresh)
    rw [word_step,bodies_step]
    generalize ((step (program n m cfg) s turn).pc turn.thread).pc=q at hm
    generalize (s.pc turn.thread).pc=pc at hm hr
    generalize event cfg s turn=e at hm ⊢
    generalize wrote cfg s turn=w at hm ⊢
    cases hm with
    | same _ he hw =>
      rw [applyWrite_keep hw,(shown_quiet he turn.thread turn.thread.1).2]
      exact hl
    | leave _ he hw =>
      rw [applyWrite_keep hw,(shown_quiet he turn.thread turn.thread.1).2]
      exact hl
    | body args v _ =>
      have hone : shown (some (Event.body turn.thread)) (isBody turn.thread.1)=1 := by
        simp [isBody]
      rw [applyWrite_self,hone,hr args v rfl,hl,flipSense_mod]
    | lock args =>
      rw [applyWrite_keep fun v he => by cases he]
      exact hl
    | unlock args =>
      rw [applyWrite_keep fun v he => by cases he]
      exact hl
    | _ => exact hl
  · rw [word_other_cluster cfg s turn fresh rfl (fun he => hc he.symm),bodies_other hc]
    exact h.loop c

/-- A turn keeps the registers of the flip. Between load and store nobody else flips the sense,
because the thread holds the lock. -/
theorem reg_next (h : ElectInv s) (fresh : LinkFresh reserve s) (gtq : GtqInv s) {t : Thread n m}
    {args : Args} {v : ℕ}
    (hp : ((step (program n m cfg) s turn).pc t).pc=.par args (.togSt v)) :
    v=(step (program n m cfg) s turn).word (.enqueueLoop t.1) := by
  have ht := trans_step cfg s turn fresh
  rw [word_step]
  by_cases htt : t=turn.thread
  · subst htt
    obtain ⟨hv,hw⟩ := trans_togSt ht hp
    rw [hw]
    exact hv
  · rw [pc_other cfg s turn htt] at hp
    rw [applyWrite_keep]
    · exact h.reg t args v hp
    · -- only the holder of the lock writes the sense of the cluster
      intro v' hw
      rw [hw] at ht
      obtain ⟨hc,args',u,hpc⟩ := trans_loop ht
      refine htt (gtq.unique t turn.thread hc ?_ ?_)
      · rw [hp]
        rfl
      · rw [hpc]
        rfl

/-- A turn keeps the holders of `CLUSTER_gtq_lock`. A lock that is not free is held by some thread
of the cluster. -/
theorem holder_next (h : ElectInv s) (fresh : LinkFresh reserve s) {c : Fin n}
    (hne : (step (program n m cfg) s turn).word (.gtqLock c)≠0) :
    ∃ i, holdsGtq ((step (program n m cfg) s turn).pc (c,i)).pc=true := by
  have ht := trans_step cfg s turn fresh
  rw [word_step] at hne
  by_cases hw : ∃ v, wrote cfg s turn=some (.gtqLock c,v)
  · obtain ⟨v,hw⟩ := hw
    rw [hw] at ht hne
    obtain ⟨rfl,⟨-,hq,-⟩|⟨-,-,hv⟩⟩ := trans_gtqLock ht
    · exact ⟨turn.thread.2,hq⟩
    · rw [applyWrite_self] at hne
      exact absurd hv hne
  · have hkeep : ∀ v, wrote cfg s turn≠some (.gtqLock c,v) := fun v he => hw ⟨v,he⟩
    rw [applyWrite_keep hkeep] at hne
    obtain ⟨i,hi⟩ := h.holder c hne
    refine ⟨i,?_⟩
    by_cases hthread : (c,i)=turn.thread
    · rw [hthread] at hi ⊢
      have hc : c=turn.thread.1 := congrArg Prod.fst hthread
      rw [hc] at hkeep
      rw [trans_holdsGtq ht hkeep]
      exact hi
    · rw [pc_other cfg s turn hthread]
      exact hi

end Words

/-- Calls of `SW_TaskQueue_Loop_PARALLEL`. -/
def isParallel : Choice → Bool
  | .loopParallel _ => true
  | _ => false

/-- All threads repeat: one call of `SW_TaskQueue_Loop_PARALLEL`, then `SW_TaskQueue_Dequeue`
until it returns `TQ_RET_SYNC`. -/
structure Rounds (cfg : Config) (s : QState n m) (turn : QTurn n m) : Prop where
  /-- `SW_TaskQueue_Loop_SEQUENTIAL` is not called. -/
  sequential : isSequential turn.choice=false
  /-- The parallel enqueue is called once per phase. -/
  enqueue : isOutside (s.pc turn.thread).pc=true → isParallel turn.choice=true →
    parCalls s turn.thread=syncs s turn.thread
  /-- The dequeue is called after it. -/
  dequeue : isOutside (s.pc turn.thread).pc=true → isDequeue turn.choice=true →
    parCalls s turn.thread=syncs s turn.thread+1
  /-- The tail index stays more than a queue size below its wraparound. -/
  room : (event cfg s turn).any isPublish=true → s.word .tailIndex+1+globalTqSize<wordSize

/-- The turn is a try of the parallel enqueue while a dequeue holds the lock. Such a try ends
without the body although nobody else executes it. -/
def findsDequeuer (s : QState n m) (turn : QTurn n m) : Bool :=
  match (s.pc turn.thread).pc with
  | .par _ (.tryGtq .ldl) => (lead s turn.thread.1).isSome
  | _ => false

/-- The threads repeat their rounds, and the parallel enqueue does not find `CLUSTER_gtq_lock`
held by a dequeue. -/
structure HolderEnqueues (cfg : Config) (s : QState n m) (turn : QTurn n m) : Prop extends
    Rounds cfg s turn where
  /-- The holder of a lock that is found taken is in the parallel enqueue. -/
  holder : findsDequeuer s turn=false

section Round

variable {s : QState n m} {turn : QTurn n m}

/-- A thread in the parallel enqueue has left all barriers of its cluster. -/
theorem current_of_par (hb : BarrierInv s) {t : Thread n m} {args : Args} {p : ParPc}
    (hp : (s.pc t).pc=.par args p) : syncs s t=passes s t.1 := by
  rcases (hb.inside t.1).phase t.2 with hs|⟨-,hlag⟩
  · exact hs
  · have hlag' : mayLag (s.pc t).pc=true := hlag
    rw [hp] at hlag'
    cases hlag'

/-- A thread in the parallel enqueue has called it in this phase. -/
theorem called_of_par (h : ElectInv s) {t : Thread n m} {args : Args} {p : ParPc}
    (hp : (s.pc t).pc=.par args p) : parCalls s t=syncs s t+1 := by
  rcases (h.round t.1).called t.2 with hc|⟨-,hs⟩
  · exact hc
  · have hs' : stageOf (s.pc t).pc=.outside := hs
    rw [hp] at hs'
    cases p <;> cases hs'

/-- A holder of the lock outside the dequeue is in the election. -/
theorem stage_of_holder {pc : Pc} (hg : holdsGtq pc=true) (hf : fetchOf pc=none) :
    stageOf pc=.settled ∨ (stageOf pc).isOpen=true := by
  cases pc with
  | fetch pf p => cases hf
  | par args p =>
    cases p with
    | tryGtq k => cases hg
    | chk => exact .inr rfl
    | togLd => exact .inr rfl
    | togSt v => exact .inr rfl
    | _ => exact .inl rfl
  | _ => cases hg

/-- A thread about to lead holds the lock. -/
theorem holds_of_taking {pc : Pc} (h : stageOf pc=.taking) : holdsGtq pc=true := by
  cases pc with
  | par args p =>
    cases p with
    | tryGtq k => cases h
    | _ => rfl
  | _ => cases h

/-- A thread in the dequeue waits for the end of the round. -/
theorem stage_of_dequeue {pc : Pc} (h : inDequeue pc=true) : stageOf pc=.waiting := by
  cases pc with
  | fast p => rfl
  | slow p => rfl
  | fetch pf p => rfl
  | _ => cases h

/-- The lock is found taken by a thread of the same election, which has not settled the round, as
long as no dequeue holds it. -/
theorem busy_open (h : ElectInv s) (ok : HolderEnqueues cfg s turn) {args : Args}
    (hp : (s.pc turn.thread).pc=.par args (.tryGtq .ldl))
    (hne : s.word (.gtqLock turn.thread.1)≠0) :
    bodies s turn.thread.1=passes s turn.thread.1+1 ∨
      ∃ j, j≠turn.thread.2 ∧ (stageOf (s.pc (turn.thread.1,j)).pc).isOpen=true := by
  obtain ⟨j,hj⟩ := h.holder turn.thread.1 hne
  have hlead : lead s turn.thread.1=none := by
    have hf := ok.holder
    unfold findsDequeuer at hf
    rw [hp] at hf
    change (lead s turn.thread.1).isSome=false at hf
    exact Option.isSome_eq_false_iff.mp hf |> Option.isNone_iff_eq_none.mp
  have hfetch : fetchOf (s.pc (turn.thread.1,j)).pc=none :=
    List.findSome?_eq_none_iff.mp hlead j (List.mem_finRange j)
  have hji : j≠turn.thread.2 := by
    rintro rfl
    have hj' : holdsGtq (s.pc turn.thread).pc=true := hj
    rw [hp] at hj'
    cases hj'
  rcases stage_of_holder hj hfetch with hs|ho
  · exact .inl ((h.round turn.thread.1).settled j hs)
  · exact .inr ⟨j,hji,ho⟩

/-- The test of the senses tells whether the body was executed in this phase. -/
theorem test_sense (h : ElectInv s) (hb : BarrierInv s) {args : Args}
    (hp : (s.pc turn.thread).pc=.par args .chk) :
    s.word (.enqueueLoop turn.thread.1)=(s.pc turn.thread).enqueueSense ↔
      bodies s turn.thread.1=passes s turn.thread.1+1 := by
  have hsense := h.sense turn.thread
  rw [hp] at hsense
  have hzero : (if stageOf (.par args .chk)=.trying then 1 else 0)=0 := rfl
  rw [hzero,called_of_par h hp,current_of_par hb hp] at hsense
  rw [hsense,h.loop]
  have hbound := (h.round turn.thread.1).bound
  omega

/-- The cluster passes its barrier: the round ends with its body, since all threads of the cluster
have ended their tries. -/
theorem round_pass (h : ElectInv s) (hb : BarrierInv s) (fresh : LinkFresh reserve s)
    (gtq : GtqInv s) (ltq : LtqInv s) (he : event cfg s turn=some (.pass turn.thread)) :
    RoundOf (step (program n m cfg) s turn) turn.thread.1 := by
  have hmoved := moved_step cfg turn fresh gtq ltq
  obtain ⟨hcommit,-,-,hleave,-⟩ := hmoved.pass (hb.inside turn.thread.1) he
  obtain ⟨-,hsync,hothers⟩ := (hb.inside turn.thread.1).commit turn.thread.2 hcommit
  have hall : ∀ j, stageOf (s.pc (turn.thread.1,j)).pc=.waiting ∧
      syncs s (turn.thread.1,j)=passes s turn.thread.1 := by
    intro j
    by_cases hj : j=turn.thread.2
    · rw [hj]
      exact ⟨stage_of_dequeue (idle_of_waiting (.inl hcommit)).1,hsync⟩
    · obtain ⟨hcalm,hs⟩ := hothers j hj
      exact ⟨stage_of_dequeue (idle_of_waiting (.inr hcalm)).1,hs⟩
  have hpass : passes (step (program n m cfg) s turn) turn.thread.1=
      passes s turn.thread.1+1 := by
    unfold passes
    rw [countP_step,he]
    simp [isPass]
  have hbody : bodies (step (program n m cfg) s turn) turn.thread.1=bodies s turn.thread.1 := by
    rw [bodies_step,he]
    rfl
  have hround := (h.round turn.thread.1).finish hall turn.thread.2
  unfold RoundOf
  rw [hpass,hbody]
  refine hround.same ?_ ?_ ?_
  · intro j
    by_cases hj : j=turn.thread.2
    · have hstage : stageOf ((step (program n m cfg) s turn).pc turn.thread).pc=.waiting := by
        have hleave' : leaving ((step (program n m cfg) s turn).pc turn.thread).pc=true := hleave
        generalize ((step (program n m cfg) s turn).pc turn.thread).pc=q at hleave'
        cases q with
        | slow p => rfl
        | fetch pf p => rfl
        | _ => cases hleave'
      rw [hj]
      exact hstage.trans (hall turn.thread.2).1.symm
    · rw [pc_other cfg s turn fun hu => hj (congrArg Prod.snd hu)]
  · intro j
    rw [parCalls_step,he]
    rfl
  · intro j
    unfold syncs
    rw [countP_step,he]
    rfl

/-- A thread leaves the barrier: it may call the next election, while other threads of its cluster
may still be on their way out. -/
theorem round_sync (h : ElectInv s) (hb : BarrierInv s) (fresh : LinkFresh reserve s)
    (gtq : GtqInv s) (ltq : LtqInv s) (he : event cfg s turn=some (.sync turn.thread)) :
    RoundOf (step (program n m cfg) s turn) turn.thread.1 := by
  have ht := trans_step cfg s turn fresh
  rw [he] at ht
  obtain ⟨hlag,-⟩ := (moved_step cfg turn fresh gtq ltq).sync (hb.inside turn.thread.1) he
  obtain ⟨-,hq,hmay,-⟩ := trans_sync ht
  have hwait : stageOf (s.pc turn.thread).pc=.waiting := by
    generalize (s.pc turn.thread).pc=pc at hmay
    cases pc with
    | slow p => rfl
    | fetch pf p => rfl
    | _ => cases hmay
  have hsync : syncs (step (program n m cfg) s turn) turn.thread=syncs s turn.thread+1 := by
    unfold syncs
    rw [countP_step,he]
    simp [isSync]
  have hcalls : parCalls (step (program n m cfg) s turn) turn.thread=parCalls s turn.thread := by
    rw [parCalls_step,he]
    rfl
  have hbody : bodies (step (program n m cfg) s turn) turn.thread.1=bodies s turn.thread.1 := by
    rw [bodies_step,he]
    rfl
  have hpass : passes (step (program n m cfg) s turn) turn.thread.1=passes s turn.thread.1 := by
    unfold passes
    rw [countP_step,he]
    rfl
  have hcalled : parCalls s turn.thread=syncs s turn.thread+1 := by
    rcases (h.round turn.thread.1).called turn.thread.2 with hc|⟨-,hs⟩
    · exact hc
    · have hs' : stageOf (s.pc turn.thread).pc=.outside := hs
      rw [hwait] at hs'
      cases hs'
  have hout : stageOf ((step (program n m cfg) s turn).pc turn.thread).pc=.outside := by
    rw [hq]
    rfl
  unfold RoundOf
  rw [hpass]
  refine (h.round turn.thread.1).move (i := turn.thread.2) ?_ (.inl hbody) ?_ ?_ ?_ ?_ ?_
  · intro j hj
    have hu : (turn.thread.1,j)≠turn.thread := fun hu => hj (congrArg Prod.snd hu)
    rw [pc_other cfg s turn hu]
    exact ⟨rfl,parCalls_other hu,syncs_other hu⟩
  · refine .inr ⟨?_,hout⟩
    show parCalls (step (program n m cfg) s turn) turn.thread=
      syncs (step (program n m cfg) s turn) turn.thread
    omega
  · intro htake
    exact absurd (hout.symm.trans htake) fun h => by cases h
  · intro hset
    exact absurd (hout.symm.trans hset) fun h => by cases h
  · intro hopen
    have hopen' : (stageOf (s.pc turn.thread).pc).isOpen=true := hopen
    rw [hwait] at hopen'
    cases hopen'
  · intro _ hc
    have hc' : parCalls (step (program n m cfg) s turn) turn.thread=
      syncs (step (program n m cfg) s turn) turn.thread+1 := hc
    omega

/-- A call that leads into the parallel enqueue is a call of it. -/
theorem isParallel_call {t : Thread n m} {choice : Choice} {args : Args} {p : ParPc}
    (h : callPc t choice=.par args p) : isParallel choice=true := by
  cases choice with
  | loopParallel args => rfl
  | loopSequential args =>
    simp only [callPc] at h
    split at h <;> cases h
  | _ => cases h

/-- A step within the round. Each way a thread may go on is a step of a member, so there is one case
for every way. -/
theorem round_within (h : ElectInv s) (hb : BarrierInv s) (fresh : LinkFresh reserve s)
    (gtq : GtqInv s) (ok : HolderEnqueues cfg s turn)
    (hpass : passes (step (program n m cfg) s turn) turn.thread.1=passes s turn.thread.1)
    (hsync : ∀ u, syncs (step (program n m cfg) s turn) u=syncs s u) :
    RoundOf (step (program n m cfg) s turn) turn.thread.1 := by
  have hround := h.round turn.thread.1
  have hm := trans_stage (trans_step cfg s turn fresh)
  have hcalls := parCalls_step cfg s turn turn.thread
  have hbody := bodies_step cfg s turn turn.thread.1
  have hstage : ∀ j, j≠turn.thread.2 →
      stageOf ((step (program n m cfg) s turn).pc (turn.thread.1,j)).pc=
        stageOf (s.pc (turn.thread.1,j)).pc := by
    intro j hj
    rw [pc_other cfg s turn fun hu => hj (congrArg Prod.snd hu)]
  have hother : ∀ j, j≠turn.thread.2 →
      stageOf ((step (program n m cfg) s turn).pc (turn.thread.1,j)).pc=
        stageOf (s.pc (turn.thread.1,j)).pc ∧
      parCalls (step (program n m cfg) s turn) (turn.thread.1,j)=parCalls s (turn.thread.1,j) ∧
      syncs (step (program n m cfg) s turn) (turn.thread.1,j)=syncs s (turn.thread.1,j) :=
    fun j hj => ⟨hstage j hj,parCalls_other fun hu => hj (congrArg Prod.snd hu),hsync _⟩
  have hkeep : parCalls (step (program n m cfg) s turn) turn.thread=parCalls s turn.thread →
      ∀ j, parCalls (step (program n m cfg) s turn) (turn.thread.1,j)=
        parCalls s (turn.thread.1,j) := by
    intro hc j
    by_cases hj : j=turn.thread.2
    · rw [hj]
      exact hc
    · exact (hother j hj).2.1
  have hsame : stageOf ((step (program n m cfg) s turn).pc turn.thread).pc=
      stageOf (s.pc turn.thread).pc →
      ∀ j, stageOf ((step (program n m cfg) s turn).pc (turn.thread.1,j)).pc=
        stageOf (s.pc (turn.thread.1,j)).pc := by
    intro hs j
    by_cases hj : j=turn.thread.2
    · rw [hj]
      exact hs
    · exact hstage j hj
  have hcalled : ∀ args p, (s.pc turn.thread).pc=.par args p →
      parCalls (step (program n m cfg) s turn) turn.thread=parCalls s turn.thread →
      parCalls (step (program n m cfg) s turn) turn.thread=
        syncs (step (program n m cfg) s turn) turn.thread+1 := by
    intro args p hp hc
    rw [hc,hsync]
    exact called_of_par h hp
  unfold RoundOf
  rw [hpass]
  generalize hq : ((step (program n m cfg) s turn).pc turn.thread).pc=q at hm
  generalize hp : (s.pc turn.thread).pc=pc at hm
  have hold : stageOf (s.pc turn.thread).pc=stageOf pc := congrArg stageOf hp
  have hnew : stageOf ((step (program n m cfg) s turn).pc turn.thread).pc=stageOf q :=
    congrArg stageOf hq
  generalize event cfg s turn=e at hm hcalls hbody
  generalize wrote cfg s turn=w at hm
  cases hm with
  | same hs he hw =>
    rw [(shown_quiet he turn.thread turn.thread.1).1] at hcalls
    rw [(shown_quiet he turn.thread turn.thread.1).2] at hbody
    rw [hbody]
    exact hround.same (hsame (by rw [hq,hp]; exact hs)) (hkeep hcalls) fun j => hsync _
  | load args =>
    rw [hbody]
    exact hround.same (hsame (by rw [hq,hp]; rfl)) (hkeep hcalls) fun j => hsync _
  | enter =>
    have hcallpc : ((step (program n m cfg) s turn).pc turn.thread).pc=
      callPc turn.thread turn.choice := pc_call hp
    have hcall : parCalls s turn.thread=syncs s turn.thread+1 := by
      refine ok.dequeue (by rw [hp]; rfl) (inDequeue_call (t := turn.thread) ?_)
      rw [←hcallpc,hq]
      rfl
    rw [hbody]
    exact hround.walk (i := turn.thread.2) hstage (hkeep hcalls) (fun j => hsync _)
      (fun hs => by cases hold.symm.trans hs) (congrArg _ hold) (.inr ⟨hnew,hcall⟩)
  | leave hwait he hw =>
    rw [(shown_quiet he turn.thread turn.thread.1).1] at hcalls
    rw [(shown_quiet he turn.thread turn.thread.1).2] at hbody
    rw [hwait] at hold
    rw [hbody]
    exact hround.walk (i := turn.thread.2) hstage (hkeep hcalls) (fun j => hsync _)
      (fun hs => by cases hold.symm.trans hs) (congrArg _ hold) (.inl hnew)
  | call args =>
    have hcallpc : ((step (program n m cfg) s turn).pc turn.thread).pc=
      callPc turn.thread turn.choice := pc_call hp
    have hcall : parCalls s turn.thread=syncs s turn.thread :=
      ok.enqueue (by rw [hp]; rfl) (isParallel_call (hcallpc.symm.trans hq))
    have hone : shown (some (Event.parCall turn.thread)) (isParCall turn.thread)=1 := by
      simp [isParCall]
    refine hround.move (i := turn.thread.2) hother (.inl hbody) (.inl ?_)
      (fun ht => by cases hnew.symm.trans ht) (fun hs => by cases hnew.symm.trans hs)
      (fun ho => by cases (congrArg _ hold).symm.trans ho) (fun _ _ hs => absurd hnew hs)
    show parCalls (step (program n m cfg) s turn) turn.thread=
      syncs (step (program n m cfg) s turn) turn.thread+1
    rw [hcalls,hone,hsync,hcall]
  | lock args =>
    refine hround.move (i := turn.thread.2) hother (.inl hbody) (.inl ?_)
      (fun ht => by cases hnew.symm.trans ht) (fun hs => by cases hnew.symm.trans hs)
      (fun ho => by cases (congrArg _ hold).symm.trans ho)
      (fun _ _ _ => .inr ⟨turn.thread.2,congrArg _ hnew⟩)
    exact hcalled args _ hp hcalls
  | busy args hne =>
    refine hround.move (i := turn.thread.2) hother (.inl hbody) (.inl ?_)
      (fun ht => by cases hnew.symm.trans ht) (fun hs => by cases hnew.symm.trans hs)
      (fun ho => by cases (congrArg _ hold).symm.trans ho) ?_
    · exact hcalled args _ hp hcalls
    · intro _ _ _
      rcases busy_open h ok hp hne with hlead|⟨j,hj,ho⟩
      · exact .inl (hbody.trans hlead)
      · exact .inr ⟨j,(congrArg _ (hstage j hj)).trans ho⟩
  | done args heq =>
    have hlead := (test_sense h hb hp).mp heq
    exact hround.move (i := turn.thread.2) hother (.inl hbody) (.inl (hcalled args _ hp hcalls))
      (fun ht => by cases hnew.symm.trans ht) (fun _ => hbody.trans hlead)
      (fun _ => .inl (hbody.trans hlead)) (fun _ _ _ => .inl (hbody.trans hlead))
  | start args hne =>
    have hlead : bodies s turn.thread.1=passes s turn.thread.1 := by
      have hno : bodies s turn.thread.1≠passes s turn.thread.1+1 := fun he =>
        hne ((test_sense h hb hp).mpr he)
      have hbound := hround.bound
      omega
    exact hround.move (i := turn.thread.2) hother (.inl hbody) (.inl (hcalled args _ hp hcalls))
      (fun _ => hbody.trans hlead) (fun hs => by cases hnew.symm.trans hs)
      (fun _ => .inr (congrArg _ hnew)) (fun _ _ _ => .inr ⟨turn.thread.2,congrArg _ hnew⟩)
  | body args v hs =>
    rw [hs] at hnew
    have hnone := hround.taking turn.thread.2 hold
    have hone : shown (some (Event.body turn.thread)) (isBody turn.thread.1)=1 := by
      simp [isBody]
    have hlead : bodies (step (program n m cfg) s turn) turn.thread.1=
        passes s turn.thread.1+1 := by
      rw [hbody,hone,hnone]
    refine hround.move (i := turn.thread.2) hother (.inr ⟨hnone,hlead,?_⟩)
      (.inl (hcalled args _ hp hcalls)) (fun ht => by cases hnew.symm.trans ht) (fun _ => hlead)
      (fun _ => .inl hlead) (fun _ _ _ => .inl hlead)
    intro j hj ht
    refine hj (congrArg Prod.snd (gtq.unique (turn.thread.1,j) turn.thread rfl
      (holds_of_taking ht) ?_))
    rw [hp]
    rfl
  | unlock args =>
    rw [hbody]
    exact hround.walk (i := turn.thread.2) hstage (hkeep hcalls) (fun j => hsync _)
      (fun hs => by cases hold.symm.trans hs) (congrArg _ hold) (.inl hnew)

/-- Every turn keeps the rounds of all clusters. A turn ends a round, begins one or is within
one. -/
theorem round_next (h : ElectInv s) (hb : BarrierInv s) (fresh : LinkFresh reserve s)
    (gtq : GtqInv s) (ltq : LtqInv s) (ok : HolderEnqueues cfg s turn) (c : Fin n) :
    RoundOf (step (program n m cfg) s turn) c := by
  by_cases hc : c=turn.thread.1
  · subst hc
    rcases (moved_step cfg turn fresh gtq ltq).events with ⟨he,-⟩|⟨he,-⟩|⟨-,-,hp,hsync,-⟩
    · exact round_pass h hb fresh gtq ltq he
    · exact round_sync h hb fresh gtq ltq he
    · refine round_within h hb fresh gtq ok hp fun u => ?_
      by_cases hu : u=turn.thread
      · rw [hu]
        exact congrFun hsync turn.thread.2
      · exact syncs_other hu
  · unfold RoundOf
    rw [bodies_other hc,passes_other hc]
    have hu : ∀ j, (c,j)≠turn.thread := fun j hu => hc (congrArg Prod.fst hu)
    refine (h.round c).same ?_ ?_ ?_
    · intro j
      rw [pc_other cfg s turn (hu j)]
    · intro j
      exact parCalls_other (hu j)
    · intro j
      exact syncs_other (hu j)

end Round

/-- The bodies that a cluster has executed in phase `k` of their threads, by the events. A phase of
a thread is told by its returns of `TQ_RET_SYNC` before it. -/
def phaseBodies (c : Fin n) (k : ℕ) : List (Event n m) → ℕ
  | [] => 0
  | .body t::es => (if t.1=c ∧ es.countP (isSync t)=k then 1 else 0)+phaseBodies c k es
  | _::es => phaseBodies c k es

/-- What holds in every state of the rounds: the barrier, the rounds of all clusters, and at most
one body in every phase. -/
structure PhaseInv (s : QState n m) : Prop where
  /-- The barrier and its tail. -/
  queue : PrefetchInv s
  /-- The local queues of fetching clusters. -/
  fetch : FetchInv s
  /-- No sequential enqueue. -/
  noSeq : NoSeq s
  /-- The elections. -/
  elect : ElectInv s
  /-- The bodies of a cluster are those of its first phases, one each. -/
  once : ∀ c k, phaseBodies c k s.trace=if k<bodies s c then 1 else 0

section Phases

variable {s : QState n m} {turn : QTurn n m}

/-- Rounds with one group per fetch meet what the barrier needs. -/
theorem PhaseInv.waitsEmpty (h : PhaseInv s) (ok : Rounds cfg s turn) : WaitsEmpty cfg s turn := by
  refine ⟨⟨?_,?_,ok.room⟩,h.fetch.findsTasks⟩
  · intro _ hseq
    rw [ok.sequential] at hseq
    cases hseq
  · intro _ _ u
    cases hp : (s.pc u).pc with
    | seq args p => exact absurd hp (h.noSeq u args p)
    | _ => rfl

/-- A body is the first one of its cluster in the phase of its thread. -/
theorem body_first (h : PhaseInv s) (fresh : LinkFresh reserve s) {t : Thread n m}
    (he : event cfg s turn=some (.body t)) : t=turn.thread ∧ bodies s t.1=syncs s t := by
  have ht : t=turn.thread := event_actor he
  refine ⟨ht,?_⟩
  rw [ht]
  have hm := trans_stage (trans_step cfg s turn fresh)
  rw [he] at hm
  generalize ((step (program n m cfg) s turn).pc turn.thread).pc=q at hm
  generalize hp : (s.pc turn.thread).pc=pc at hm
  generalize wrote cfg s turn=w at hm
  cases hm with
  | same _ hq => cases hq
  | leave _ hq => cases hq
  | body args v =>
    rw [current_of_par h.queue.barrier hp]
    refine (h.elect.round turn.thread.1).taking turn.thread.2 ?_
    show stageOf (s.pc turn.thread).pc=.taking
    rw [hp]
    rfl

/-- Every turn keeps the count of bodies per phase: one for each phase that has had its body, and
none for later ones. -/
theorem once_next (h : PhaseInv s) (fresh : LinkFresh reserve s) (c : Fin n) (k : ℕ) :
    phaseBodies c k (step (program n m cfg) s turn).trace=
      if k<bodies (step (program n m cfg) s turn) c then 1 else 0 := by
  have hk := h.once c k
  rw [bodies_step,trace_step]
  cases he : event cfg s turn with
  | none => exact hk
  | some e =>
    cases e with
    | body t =>
      obtain ⟨-,hfirst⟩ := body_first h fresh he
      show (if t.1=c ∧ syncs s t=k then 1 else 0)+phaseBodies c k s.trace=_
      rw [hk,shown_some,←hfirst]
      by_cases hc : t.1=c
      · have hb : isBody c (Event.body t)=true := by simp [isBody,hc]
        rw [if_pos hb,hc]
        by_cases hkb : bodies s c=k
        · rw [if_pos ⟨rfl,hkb⟩,if_neg (by omega),if_pos (by omega)]
        · rw [if_neg fun h => hkb h.2]
          split <;> split <;> omega
      · have hb : ¬isBody c (Event.body t)=true := by simp [isBody,hc]
        rw [if_neg fun h => hc h.1,if_neg hb,Nat.zero_add,Nat.add_zero]
    | _ => exact hk

/-- One turn of the rounds. -/
theorem phaseInv_step (hn : n<globalTqSize) (hm : m<wordSize) (hfetch : cfg.fetch=1)
    (fresh : LinkFresh reserve s) (gtq : GtqInv s) (ltq : LtqInv s) (h : PhaseInv s)
    (ok : HolderEnqueues cfg s turn) : PhaseInv (step (program n m cfg) s turn) where
  queue := prefetchInv_step hn hm fresh gtq ltq h.queue (h.waitsEmpty ok.toRounds)
  fetch := fetchInv_step hfetch fresh gtq h.queue.barrier.inside h.fetch turn
  noSeq := noSeq_step ok.sequential fresh h.noSeq
  elect := ⟨round_next h.elect h.queue.barrier fresh gtq ltq ok,
    fun t => sense_next fresh (h.elect.sense t),
    loop_next h.elect fresh,fun _ _ _ hp => reg_next h.elect fresh gtq hp,
    fun _ hne => holder_next h.elect fresh hne⟩
  once := once_next h fresh

/-- A decided phase has the body of every cluster. -/
theorem PhaseInv.led (h : PhaseInv s) {k : ℕ} (hk : k<decides s) (c : Fin n) : k<bodies s c := by
  have hbound := (h.elect.round c).bound
  rcases counted_of_behind h.queue.barrier c with hp|⟨hp,hcount⟩
  · omega
  · -- the cluster has not left the barrier: all its threads wait for it
    obtain ⟨p,hlead⟩ : ∃ p, lead s c=some p := by
      cases hl : lead s c with
      | none =>
        rw [hl] at hcount
        cases hcount
      | some p => exact ⟨p,rfl⟩
    obtain ⟨i,-⟩ := lead_spec hlead
    obtain ⟨-,hall⟩ := calm_of_counted_fetch h.queue.barrier hcount
    have hled := (h.elect.round c).led (fun j =>
      ⟨stage_of_dequeue (idle_of_waiting (hall j).1).1,(hall j).2⟩) i
    omega

/-- Threads that repeat a call of `SW_TaskQueue_Loop_PARALLEL` and dequeues until
`TQ_RET_SYNC`, in every run in which no try finds the lock held by a dequeue: no cluster
executes the enqueue body twice in a phase, and when a thread returns `TQ_RET_SYNC` for a phase,
every cluster has executed the body of that phase once. -/
theorem loop_parallel_body_once (hn : n<2^18) (hm : m<2^32) (hfetch : cfg.fetch=1)
    (hs : Reachable (program n m cfg) (initial n m) (HolderEnqueues cfg) s) :
    (∀ c k, phaseBodies c k s.trace≤1) ∧
    ∀ turn t, event cfg s turn=some (.sync t) → ∀ c, phaseBodies c (syncs s t) s.trace=1 := by
  have h : PhaseInv s := by
    refine Reachable.invariant (I := PhaseInv) ?_ ?_ hs
    · exact ⟨prefetchInv_initial,(fun t pf p h => by cases h),(fun t args p h => by cases h),
        electInv_initial,fun c k => rfl⟩
    · intro s turn hs ok h
      exact phaseInv_step hn hm hfetch (linkFresh_reachable hs) (gtqInv_reachable hs)
        (ltqInv_reachable hm hs) h ok
  refine ⟨?_,?_⟩
  · intro c k
    rw [h.once c k]
    split <;> omega
  · intro turn t he c
    obtain ⟨hlt,-⟩ := sync_safe h.queue.barrier (linkFresh_reachable hs) (gtqInv_reachable hs)
      (ltqInv_reachable hm hs) he
    rw [h.once c,if_pos (h.led hlt c)]

end Phases

instance (cfg : Config) (s : QState n m) (turn : QTurn n m) : Decidable (Rounds cfg s turn) :=
  decidable_of_iff (isSequential turn.choice=false ∧
    (isOutside (s.pc turn.thread).pc=true → isParallel turn.choice=true →
      parCalls s turn.thread=syncs s turn.thread) ∧
    (isOutside (s.pc turn.thread).pc=true → isDequeue turn.choice=true →
      parCalls s turn.thread=syncs s turn.thread+1) ∧
    ((event cfg s turn).any isPublish=true → s.word .tailIndex+1+globalTqSize<wordSize))
    ⟨fun h => ⟨h.1,h.2.1,h.2.2.1,h.2.2.2⟩,fun h => ⟨h.1,h.2,h.3,h.4⟩⟩

instance (cfg : Config) (s : QState n m) (turn : QTurn n m) :
    Decidable (HolderEnqueues cfg s turn) :=
  decidable_of_iff (Rounds cfg s turn ∧ findsDequeuer s turn=false)
    ⟨fun h => ⟨h.1,h.2⟩,fun h => ⟨h.1,h.2⟩⟩

/-- Arguments of a parallel enqueue without iterations. -/
def noTask : Args := ⟨0,1,⟨7,8,0,0⟩,by decide,Nat.one_pos,singleTask.per_lt⟩

/-- Both threads of a cluster call the parallel enqueue of a task; the second returns the task and
dequeues again until it is counted, and the first dequeues until it is about to return
`TQ_RET_SYNC`. -/
def oneRound : List (QTurn 1 2) :=
  alone left (.loopParallel singleTask)::List.replicate 21 (alone left .stay)++
    alone right (.loopParallel singleTask)::List.replicate 4 (alone right .stay)++
    alone right .dequeue::List.replicate 12 (alone right .stay)++
    alone right .dequeue::List.replicate 7 (alone right .stay)++
    alone left .dequeue::List.replicate 44 (alone left .stay)

/-- The first thread returns `TQ_RET_SYNC` for phase 0 after one body, and the task was
returned. -/
theorem loop_parallel_body_once_two :
    deliveredBy (solo,right) (run (program 1 2 oneGroup) (initial 1 2) oneRound).trace=[1] ∧
    event oneGroup (run (program 1 2 oneGroup) (initial 1 2) oneRound) (alone left .stay)=
      some (.sync (solo,left)) ∧
    phaseBodies solo (syncs (run (program 1 2 oneGroup) (initial 1 2) oneRound) (solo,left))
      (run (program 1 2 oneGroup) (initial 1 2) oneRound).trace=1 := by
  have hs : Reachable (program 1 2 oneGroup) (initial 1 2) (HolderEnqueues oneGroup)
      (run (program 1 2 oneGroup) (initial 1 2) oneRound) := .of_allows .init (by decide +kernel)
  have he : event oneGroup (run (program 1 2 oneGroup) (initial 1 2) oneRound)
      (alone left .stay)=some (.sync (solo,left)) := by decide +kernel
  have h := loop_parallel_body_once (by decide) (by decide) rfl hs
  exact ⟨by decide +kernel,he,h.2 (alone left .stay) (solo,left) he solo⟩

/-- Phase 0 up to the point where thread 0 has passed the barrier and still holds the lock. Thread 1
has left its dequeue meanwhile. -/
def lockKept : List (QTurn 1 2) :=
  alone left (.loopParallel noTask)::List.replicate 6 (alone left .stay)++
    alone right (.loopParallel noTask)::List.replicate 4 (alone right .stay)++
    alone left .dequeue::List.replicate 23 (alone left .stay)++
    alone right .dequeue::List.replicate 7 (alone right .stay)++
    List.replicate 21 (alone left .stay)

/-- Thread 1 returns, finds the lock taken in phase 1 and dequeues; thread 0 returns, thread 1
takes the lock for its fetch, thread 0 finds it taken and dequeues, and thread 1 passes the
barrier. -/
def bothRefused : List (QTurn 1 2) :=
  alone right .stay::alone right (.loopParallel noTask)::alone right .stay::
    alone right .dequeue::List.replicate 15 (alone right .stay)++
    alone left .stay::List.replicate 8 (alone right .stay)++
    alone left (.loopParallel noTask)::alone left .stay::
    alone left .dequeue::List.replicate 7 (alone left .stay)++
    List.replicate 21 (alone right .stay)

/-- In phase 1 both threads find the lock held by the dequeue of the other, so `TQ_RET_SYNC` is
returned for a phase in which the cluster has not executed the body. -/
theorem phase_without_body :
    Reachable (program 1 2 oneGroup) (initial 1 2) (Rounds oneGroup)
      (run (program 1 2 oneGroup) (initial 1 2) (lockKept++bothRefused)) ∧
    event oneGroup (run (program 1 2 oneGroup) (initial 1 2) (lockKept++bothRefused))
      (alone right .stay)=some (.sync (solo,right)) ∧
    phaseBodies solo (syncs (run (program 1 2 oneGroup) (initial 1 2) (lockKept++bothRefused))
      (solo,right)) (run (program 1 2 oneGroup) (initial 1 2) (lockKept++bothRefused)).trace=0 := by
  refine ⟨.of_allows .init (by decide +kernel),?_⟩
  decide +kernel

end RigelTarget.TaskQueueElection
