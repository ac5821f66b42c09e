import RigelTarget.TaskQueueProgram

/-!
# The steps of the task queue as relations

The relations of this module list, once, every step of every thread: the local
state before, the word written, the event shown and the local state after, with
the words that were read. A conditional store succeeds only on the value that was
loaded; `reserve` names that value, and `trans_sound` shows that with fresh links
every step of the program is listed. Later invariants are case analyses here.
-/

namespace RigelTarget.TaskQueueSteps

open SharedMemory TaskQueueModel TaskQueueProgram

variable {n m : ℕ} {cfg : Config}

/-- The word and value between a linked load and its conditional store. -/
def acqReserve (c : Fin n) : Acq → Option (Loc n×ℕ)
  | .stc v => some (.ticketCount c,v)
  | _ => none

/-- The free lock that the try-lock has seen. -/
def tryReserve (c : Fin n) : Try → Option (Loc n×ℕ)
  | .stc => some (.gtqLock c,0)
  | _ => none

/-- The wait count that an update has loaded. -/
def updReserve (c : Fin n) : Upd → Option (Loc n×ℕ)
  | .stc v => some (.coreWaitcount c,v)
  | _ => none

/-- The word and value that a thread expects to be unchanged at its conditional store, as told by
its registers. -/
def reserve (t : Thread n m) (l : Local) : Option (Loc n×ℕ) :=
  match l.pc with
  | .fast (.acq a) => acqReserve t.1 a
  | .slow (.inc u) => updReserve t.1 u
  | .slow (.acq a) => acqReserve t.1 a
  | .slow (.dec _ _ u) => updReserve t.1 u
  | .slow (.tryGtq k) => tryReserve t.1 k
  | .fetch _ (.bar _ _ (.acqTest _ a)) => acqReserve t.1 a
  | .fetch _ (.acqIns _ _ _ a) => acqReserve t.1 a
  | .par _ (.tryGtq k) => tryReserve t.1 k
  | .par _ (.acq _ a) => acqReserve t.1 a
  | _ => none

/-- An acquire reserves after its linked load only. -/
theorem acqReserve_next {c : Fin n} {a a' : Acq} {r : ℕ} {x : Loc n} {v : ℕ}
    (hn : a.next r=some a') (h : acqReserve c a'=some (x,v)) :
    a.access c=.loadLinked x ∧ r=v := by
  cases a with
  | ldl => cases hn; cases h; exact ⟨rfl,rfl⟩
  | stc k =>
    simp only [Acq.next] at hn
    split at hn <;> cases hn <;> cases h
  | poll k =>
    simp only [Acq.next] at hn
    split at hn <;> cases hn
    cases h

/-- A try-lock reserves after a linked load of the free lock only. -/
theorem tryReserve_next {c : Fin n} {a a' : Try} {r : ℕ} {x : Loc n} {v : ℕ}
    (hn : a.next r=.inl a') (h : tryReserve c a'=some (x,v)) :
    a.access c=.loadLinked x ∧ r=v := by
  cases a with
  | ldl =>
    simp only [Try.next] at hn
    split at hn <;> cases hn
    cases h
    exact ⟨rfl,‹_›⟩
  | stc =>
    simp only [Try.next] at hn
    split at hn <;> cases hn
    cases h

/-- An update reserves after its linked load only. -/
theorem updReserve_next {c : Fin n} {f : ℕ → ℕ} {a a' : Upd} {r : ℕ} {x : Loc n} {v : ℕ}
    (hn : a.next r=some a') (h : updReserve c a'=some (x,v)) :
    a.access c f=.loadLinked x ∧ r=v := by
  cases a with
  | ldl => cases hn; cases h; exact ⟨rfl,rfl⟩
  | stc k =>
    simp only [Upd.next] at hn
    split at hn <;> cases hn
    cases h

/-- The end of an iteration of the barrier loop backs out, looks at the waiting counter or
goes around. -/
theorem barBranch_cases (h : ℕ) (k : Bool) (tail : ℕ) :
    barBranch (n := n) h k tail=.bar h k (.reSense tail) ∨
      barBranch (n := n) h k tail=.bar h k (.wcSel tail) ∨
      barBranch (n := n) h k tail=.bar h k .gsense := by
  unfold barBranch
  dsimp only
  split
  · exact .inl rfl
  · split
    · exact .inr (.inl rfl)
    · exact .inr (.inr rfl)

/-- The end of an iteration stays in the barrier loop. -/
theorem barBranch_bar (h : ℕ) (k : Bool) (tail : ℕ) :
    ∃ b, barBranch (n := n) h k tail=.bar h k b := by
  rcases barBranch_cases (n := n) h k tail with he|he|he
  · exact ⟨_,he⟩
  · exact ⟨_,he⟩
  · exact ⟨_,he⟩

/-- The end of an iteration of the barrier loop reserves nothing. -/
theorem barBranch_reserve {t : Thread n m} {pf h : ℕ} {k : Bool} {tail a b : ℕ} :
    reserve t ⟨.fetch pf (barBranch (n := n) h k tail),a,b⟩=none := by
  rcases barBranch_cases (n := n) h k tail with he|he|he
  · rw [he]; rfl
  · rw [he]; rfl
  · rw [he]; rfl

/-- Only linked loads lead to conditional stores. With this the value in the register of a
successful conditional store is that of the word. -/
theorem reserving : Reserving (program n m cfg) reserve := by
  refine ⟨?_⟩
  rintro t ⟨pc,sense,enqueueSense⟩ choice r x v h
  simp only [program,next] at h
  cases pc with
  | outside =>
    cases choice with
    | loopSequential args =>
      simp only [nextPc,callPc] at h
      split at h <;> cases h
    | _ => cases h
  | fast p =>
    cases p with
    | acq a =>
      simp only [nextPc,fastNext] at h
      split at h
      · exact acqReserve_next ‹_› h
      · cases h
    | head k =>
      simp only [nextPc,fastNext] at h
      split at h <;> cases h
    | copy p got =>
      simp only [nextPc,fastNext] at h
      split at h <;> cases h
    | _ => cases h
  | slow p =>
    cases p with
    | inc u =>
      simp only [nextPc,slowNext] at h
      split at h
      · exact updReserve_next ‹_› h
      · cases h
    | acq a =>
      simp only [nextPc,slowNext] at h
      split at h
      · exact acqReserve_next ‹_› h
      · cases h
    | dec p got u =>
      simp only [nextPc,slowNext] at h
      split at h
      · exact updReserve_next ‹_› h
      · cases h
    | tryGtq k =>
      simp only [nextPc,slowNext] at h
      split at h
      · exact tryReserve_next ‹_› h
      · cases h
      · cases h
    | headAgain => cases h
    | next p got => cases h
    | setHead p got v => cases h
    | _ =>
      simp only [nextPc,slowNext] at h
      split at h <;> cases h
  | fetch pf p =>
    cases p with
    | bar i k b =>
      cases b with
      | acqTest tail a =>
        simp only [nextPc,fetchNext,barNext] at h
        split at h
        · exact acqReserve_next ‹_› h
        · cases h
      | tail =>
        simp only [nextPc,fetchNext,barNext] at h
        split at h
        · rw [barBranch_reserve] at h
          cases h
        · cases h
      | relTest tail pending l =>
        simp only [nextPc,fetchNext,barNext] at h
        split at h
        · cases h
        · split at h
          · cases h
          · rw [barBranch_reserve] at h
            cases h
      | incWc tail v =>
        simp only [nextPc,fetchNext,barNext,barBranch_reserve] at h
        cases h
      | csense g =>
        simp only [nextPc,fetchNext,barNext] at h
        split at h <;> cases h
      | reCsense tail g =>
        simp only [nextPc,fetchNext,barNext] at h
        split at h
        · cases h
        · split at h <;> cases h
      | wcLd tail v =>
        simp only [nextPc,fetchNext,barNext] at h
        split at h <;> cases h
      | _ => cases h
    | acqIns first passed p a =>
      simp only [nextPc,fetchNext] at h
      split at h
      · exact acqReserve_next ‹_› h
      · cases h
    | relIns l =>
      simp only [nextPc,fetchNext] at h
      split at h
      · cases h
      · split at h <;> cases h
    | sense =>
      simp only [nextPc,fetchNext] at h
      split at h <;> cases h
    | head =>
      simp only [nextPc,fetchNext] at h
      split at h <;> cases h
    | tail k =>
      simp only [nextPc,fetchNext] at h
      split at h <;> cases h
    | walk first passed p =>
      simp only [nextPc,fetchNext] at h
      split at h <;> cases h
    | _ => cases h
  | par args p =>
    cases p with
    | tryGtq k =>
      simp only [nextPc,parNext] at h
      split at h
      · exact tryReserve_next ‹_› h
      · cases h
      · cases h
    | acq w a =>
      simp only [nextPc,parNext] at h
      split at h
      · exact acqReserve_next ‹_› h
      · cases h
    | pool groups =>
      simp only [nextPc,parNext,parGroup] at h
      split at h <;> cases h
    | fill w k f =>
      simp only [nextPc,parNext] at h
      split at h
      · cases h
      · split at h <;> cases h
    | head w =>
      simp only [nextPc,parNext] at h
      split at h
      · cases h
      · split at h <;> cases h
    | relLocal w l =>
      simp only [nextPc,parNext,parGroup] at h
      split at h
      · cases h
      · split at h <;> cases h
    | unlockEnqueue w =>
      simp only [nextPc,parNext,parGroup] at h
      split at h <;> cases h
    | chk =>
      simp only [nextPc,parNext] at h
      split at h <;> cases h
    | togSt v =>
      simp only [nextPc,parNext] at h
      split at h <;> cases h
    | relGlobal w l =>
      simp only [nextPc,parNext] at h
      split at h <;> cases h
    | lock w =>
      simp only [nextPc,parNext] at h
      split at h <;> cases h
    | storeTask w tail i =>
      simp only [nextPc,parNext] at h
      split at h <;> cases h
    | _ => cases h
  | seq args p =>
    cases p with
    | lock =>
      simp only [nextPc,seqNext] at h
      split at h <;> cases h
    | loadTail =>
      simp only [nextPc,seqNext,seqGroup] at h
      split at h <;> cases h
    | fill idx groups k f =>
      simp only [nextPc,seqNext] at h
      split at h <;> cases h
    | storeTask idx groups k =>
      simp only [nextPc,seqNext] at h
      split at h <;> cases h
    | incTail idx groups =>
      simp only [nextPc,seqNext,seqGroup] at h
      split at h <;> cases h
    | _ => cases h

/-- A write of a step: the word and its new value. -/
abbrev Wr (n : ℕ) := Option (Loc n×ℕ)

/-- Steps of the acquire; the target is `none` when the lock is granted. A lost link starts it
over. -/
inductive AcqTrans (word : Loc n → ℕ) (c : Fin n) : Acq → Wr n → Option Acq → Prop where
  /-- `ldl`. -/
  | load : AcqTrans word c .ldl none (some (.stc (word (.ticketCount c))))
  /-- Successful `stc`. -/
  | reserve : AcqTrans word c (.stc (word (.ticketCount c)))
      (some (.ticketCount c,(word (.ticketCount c)+1)%wordSize))
      (some (.poll ((word (.ticketCount c)+1)%wordSize)))
  /-- Failed `stc`. -/
  | lost (v : ℕ) : AcqTrans word c (.stc v) none (some .ldl)
  /-- Another ticket is being served. -/
  | wait (k : ℕ) : AcqTrans word c (.poll k) none (some (.poll k))
  /-- The own ticket is being served. -/
  | grant : AcqTrans word c (.poll (word (.ticketPoll c))) none none

/-- Steps of the release; the target is `none` when it is done. -/
inductive RelTrans (word : Loc n → ℕ) (c : Fin n) : Rel → Wr n → Option Rel → Prop where
  /-- Load of the poll word. -/
  | load : RelTrans word c .ld none (some (.st (word (.ticketPoll c))))
  /-- Store of the next ticket. -/
  | store (v : ℕ) : RelTrans word c (.st v) (some (.ticketPoll c,(v+1)%wordSize)) none

/-- Steps of the try-lock, which gives up at once if the lock is not free. -/
inductive TryTrans (word : Loc n → ℕ) (c : Fin n) : Try → Wr n → Try ⊕ Bool → Prop where
  /-- `ldl` of the free lock. -/
  | load : word (.gtqLock c)=0 → TryTrans word c .ldl none (.inl .stc)
  /-- `ldl` of the taken lock. -/
  | taken : word (.gtqLock c)≠0 → TryTrans word c .ldl none (.inr false)
  /-- Successful `stc`. -/
  | lock : word (.gtqLock c)=0 → TryTrans word c .stc (some (.gtqLock c,1)) (.inr true)
  /-- Failed `stc`. -/
  | lost : TryTrans word c .stc none (.inl .ldl)

/-- Steps of an update of the wait count; the target is `none` when it is done. A lost link starts
it over. -/
inductive UpdTrans (word : Loc n → ℕ) (c : Fin n) (f : ℕ → ℕ) : Upd → Wr n → Option Upd → Prop where
  /-- `ldl`. -/
  | load : UpdTrans word c f .ldl none (some (.stc (word (.coreWaitcount c))))
  /-- Successful `stc`. -/
  | store : UpdTrans word c f (.stc (word (.coreWaitcount c)))
      (some (.coreWaitcount c,f (word (.coreWaitcount c)))) none
  /-- Failed `stc`. -/
  | lost (v : ℕ) : UpdTrans word c f (.stc v) none (some .ldl)

/-- Steps of the fast path. It either returns a task or goes on with the slow path. -/
inductive FastTrans (word : Loc n → ℕ) (t : Thread n m) :
    FastPc → Wr n → Option (Event n m) → Pc → Prop where
  /-- Acquire in progress. -/
  | acq {a a' : Acq} {w : Wr n} : AcqTrans word t.1 a w (some a') →
      FastTrans word t (.acq a) w none (.fast (.acq a'))
  /-- Lock granted. -/
  | grant {a : Acq} {w : Wr n} : AcqTrans word t.1 a w none →
      FastTrans word t (.acq a) w none (.fast (.head a.ticket))
  /-- The local queue is empty. -/
  | empty (k : ℕ) : word (.taskqueueHead t.1)=0 →
      FastTrans word t (.head k) none none (.fast (.relEmpty k))
  /-- The local queue has a task. -/
  | found (k : ℕ) : word (.taskqueueHead t.1)≠0 →
      FastTrans word t (.head k) none none (.fast (.headAgain k))
  /-- Release, then the slow path. -/
  | relEmpty (k : ℕ) : FastTrans word t (.relEmpty k)
      (some (.ticketPoll t.1,(k+1)%wordSize)) none (.slow (.inc .ldl))
  /-- Load of the head. -/
  | headAgain (k : ℕ) : FastTrans word t (.headAgain k) none none
      (.fast (.next k (word (.taskqueueHead t.1))))
  /-- Load of `next`. -/
  | next (k p : ℕ) : FastTrans word t (.next k p) none none
      (.fast (.setHead k p (word (.desc p .next))))
  /-- Unlink. -/
  | unlink (k p v : ℕ) : FastTrans word t (.setHead k p v) (some (.taskqueueHead t.1,v))
      (some (.pop t p)) (.fast (.relPop k p))
  /-- Release. -/
  | relPop (k p : ℕ) : FastTrans word t (.relPop k p)
      (some (.ticketPoll t.1,(k+1)%wordSize)) none (.fast (.copy p []))
  /-- Copy of one of the first words. -/
  | copy (p : ℕ) (got : List ℕ) : got.length<3 → FastTrans word t (.copy p got) none none
      (.fast (.copy p (got++[word (.desc p (wordField got.length))])))
  /-- Copy of the last word and return. -/
  | finish (p : ℕ) (got : List ℕ) : ¬got.length<3 → FastTrans word t (.copy p got) none
      (some (.success t p (got++[word (.desc p (wordField got.length))]))) .outside

/-- Steps of the slow path, one constructor for each way an access can come out. Each says what is
stored, what is shown and where the thread is next. -/
inductive SlowTrans (word : Loc n → ℕ) (t : Thread n m) (sense : ℕ) :
    SlowPc → Wr n → Option (Event n m) → Pc → Prop where
  /-- Increment in progress. -/
  | inc {u u' : Upd} {w : Wr n} : UpdTrans word t.1 (fun v => (v+1)%wordSize) u w (some u') →
      SlowTrans word t sense (.inc u) w none (.slow (.inc u'))
  /-- The thread is counted. -/
  | incDone {u : Upd} {w : Wr n} : UpdTrans word t.1 (fun v => (v+1)%wordSize) u w none →
      SlowTrans word t sense (.inc u) w none (.slow .sense)
  /-- No barrier was passed. -/
  | senseSame : word (.percoreSense t.1)=sense →
      SlowTrans word t sense .sense none none (.slow (.acq .ldl))
  /-- A barrier was passed: return. -/
  | senseSync : word (.percoreSense t.1)≠sense →
      SlowTrans word t sense .sense none (some (.sync t)) .outside
  /-- Acquire in progress. -/
  | acq {a a' : Acq} {w : Wr n} : AcqTrans word t.1 a w (some a') →
      SlowTrans word t sense (.acq a) w none (.slow (.acq a'))
  /-- Lock granted. -/
  | grant {a : Acq} {w : Wr n} : AcqTrans word t.1 a w none →
      SlowTrans word t sense (.acq a) w none (.slow .senseLocked)
  /-- No barrier was passed. -/
  | lockedSame : word (.percoreSense t.1)=sense →
      SlowTrans word t sense .senseLocked none none (.slow .head)
  /-- A barrier was passed. -/
  | lockedSync : word (.percoreSense t.1)≠sense →
      SlowTrans word t sense .senseLocked none none (.slow (.relSync .ld))
  /-- Release in progress. -/
  | relSync {l l' : Rel} {w : Wr n} : RelTrans word t.1 l w (some l') →
      SlowTrans word t sense (.relSync l) w none (.slow (.relSync l'))
  /-- Release and return. -/
  | relSyncDone {l : Rel} {w : Wr n} : RelTrans word t.1 l w none →
      SlowTrans word t sense (.relSync l) w (some (.sync t)) .outside
  /-- The local queue is empty. -/
  | empty : word (.taskqueueHead t.1)=0 →
      SlowTrans word t sense .head none none (.slow (.relNull .ld))
  /-- The local queue has a task. -/
  | found : word (.taskqueueHead t.1)≠0 →
      SlowTrans word t sense .head none none (.slow .headAgain)
  /-- Load of the head. -/
  | headAgain : SlowTrans word t sense .headAgain none none
      (.slow (.copy (word (.taskqueueHead t.1)) []))
  /-- Copy of one of the first words. -/
  | copy (p : ℕ) (got : List ℕ) : got.length<3 → SlowTrans word t sense (.copy p got) none none
      (.slow (.copy p (got++[word (.desc p (wordField got.length))])))
  /-- Copy of the last word. -/
  | copyDone (p : ℕ) (got : List ℕ) : ¬got.length<3 →
      SlowTrans word t sense (.copy p got) none none
        (.slow (.next p (got++[word (.desc p (wordField got.length))])))
  /-- Load of `next`. -/
  | next (p : ℕ) (got : List ℕ) : SlowTrans word t sense (.next p got) none none
      (.slow (.setHead p got (word (.desc p .next))))
  /-- Unlink. -/
  | unlink (p : ℕ) (got : List ℕ) (v : ℕ) : SlowTrans word t sense (.setHead p got v)
      (some (.taskqueueHead t.1,v)) (some (.pop t p)) (.slow (.dec p got .ldl))
  /-- Decrement in progress. -/
  | dec {p : ℕ} {got : List ℕ} {u u' : Upd} {w : Wr n} :
      UpdTrans word t.1 decWord u w (some u') →
      SlowTrans word t sense (.dec p got u) w none (.slow (.dec p got u'))
  /-- The thread is no longer counted. -/
  | decDone {p : ℕ} {got : List ℕ} {u : Upd} {w : Wr n} : UpdTrans word t.1 decWord u w none →
      SlowTrans word t sense (.dec p got u) w none (.slow (.relPop p got .ld))
  /-- Release in progress. -/
  | relPop {p : ℕ} {got : List ℕ} {l l' : Rel} {w : Wr n} : RelTrans word t.1 l w (some l') →
      SlowTrans word t sense (.relPop p got l) w none (.slow (.relPop p got l'))
  /-- Release and return. -/
  | finish {p : ℕ} {got : List ℕ} {l : Rel} {w : Wr n} : RelTrans word t.1 l w none →
      SlowTrans word t sense (.relPop p got l) w (some (.success t p got)) .outside
  /-- Release in progress. -/
  | relNull {l l' : Rel} {w : Wr n} : RelTrans word t.1 l w (some l') →
      SlowTrans word t sense (.relNull l) w none (.slow (.relNull l'))
  /-- Released. -/
  | relNullDone {l : Rel} {w : Wr n} : RelTrans word t.1 l w none →
      SlowTrans word t sense (.relNull l) w none (.slow (.tryGtq .ldl))
  /-- Try-lock in progress. -/
  | trying {k k' : Try} {w : Wr n} : TryTrans word t.1 k w (.inl k') →
      SlowTrans word t sense (.tryGtq k) w none (.slow (.tryGtq k'))
  /-- `CLUSTER_gtq_lock` taken. -/
  | locked {k : Try} {w : Wr n} : TryTrans word t.1 k w (.inr true) →
      SlowTrans word t sense (.tryGtq k) w none (.fetch 1 .sense)
  /-- Another thread holds `CLUSTER_gtq_lock`. -/
  | busy {k : Try} {w : Wr n} : TryTrans word t.1 k w (.inr false) →
      SlowTrans word t sense (.tryGtq k) w none (.slow .sense)

/-- Steps inside the barrier, with ticket `h`. The tail in a register is the one read earlier in the
same iteration, and may be old. -/
inductive BarTrans (word : Loc n → ℕ) (t : Thread n m) (h : ℕ) (k : Bool) :
    BarPc → Wr n → Option (Event n m) → FetchPc → Prop where
  /-- Load of the global sense. -/
  | gsense : BarTrans word t h k .gsense none none (.bar h k (.csense (word .globalSense)))
  /-- The barrier was decided. -/
  | decided (g : ℕ) : g=word (.perclusterSense t.1) →
      BarTrans word t h k (.csense g) none none (.bar h k .passW)
  /-- The barrier was not decided. -/
  | undecided (g : ℕ) : g≠word (.perclusterSense t.1) →
      BarTrans word t h k (.csense g) none none (.bar h k .tail)
  /-- Load of the tail by a counted cluster. -/
  | tailCounted : k=true →
      BarTrans word t h k .tail none none (barBranch (n := n) h k (word .tailIndex))
  /-- Load of the tail by a cluster that is not counted. -/
  | tail : k=false →
      BarTrans word t h k .tail none none (.bar h k (.acqTest (word .tailIndex) .ldl))
  /-- Acquire in progress. -/
  | acq {τ : ℕ} {a a' : Acq} {w : Wr n} : AcqTrans word t.1 a w (some a') →
      BarTrans word t h k (.acqTest τ a) w none (.bar h k (.acqTest τ a'))
  /-- Lock granted. -/
  | grant {τ : ℕ} {a : Acq} {w : Wr n} : AcqTrans word t.1 a w none →
      BarTrans word t h k (.acqTest τ a) w none (.bar h k (.test τ))
  /-- Test of the wait count. -/
  | test (τ : ℕ) : BarTrans word t h k (.test τ) none none
      (.bar h k (.relTest τ (decide (m=word (.coreWaitcount t.1))) .ld))
  /-- Release in progress. -/
  | rel {τ : ℕ} {q : Bool} {l l' : Rel} {w : Wr n} : RelTrans word t.1 l w (some l') →
      BarTrans word t h k (.relTest τ q l) w none (.bar h k (.relTest τ q l'))
  /-- Released; all threads of the cluster wait. -/
  | pending {τ : ℕ} {l : Rel} {w : Wr n} : RelTrans word t.1 l w none →
      BarTrans word t h k (.relTest τ true l) w none (.bar h k (.incSel τ))
  /-- Released; some thread of the cluster does not wait. -/
  | notPending {τ : ℕ} {l : Rel} {w : Wr n} : RelTrans word t.1 l w none →
      BarTrans word t h k (.relTest τ false l) w none (barBranch (n := n) h k τ)
  /-- Selection of the counter. -/
  | incSel (τ : ℕ) : BarTrans word t h k (.incSel τ) none none
      (.bar h k (.incWc τ (word (.perclusterSense t.1))))
  /-- The cluster is counted. -/
  | incWc (τ s : ℕ) : BarTrans word t h k (.incWc τ s)
      (some (waitLoc s,(word (waitLoc s)+1)%wordSize)) none (barBranch (n := n) h true τ)
  /-- Second load of the global sense. -/
  | reSense (τ : ℕ) : BarTrans word t h k (.reSense τ) none none
      (.bar h k (.reCsense τ (word .globalSense)))
  /-- The barrier was decided meanwhile. -/
  | reDecided (τ g : ℕ) : g=word (.perclusterSense t.1) →
      BarTrans word t h k (.reCsense τ g) none none (.bar h k .gsense)
  /-- Back out as a counted cluster. -/
  | reCounted (τ g : ℕ) : g≠word (.perclusterSense t.1) → k=true →
      BarTrans word t h k (.reCsense τ g) none none (.bar h k (.decSel τ))
  /-- Back out as a cluster that is not counted. -/
  | reFree (τ g : ℕ) : g≠word (.perclusterSense t.1) → k=false →
      BarTrans word t h k (.reCsense τ g) none none (.bar h k (.backLd τ))
  /-- Selection of the counter. -/
  | decSel (τ : ℕ) : BarTrans word t h k (.decSel τ) none none
      (.bar h k (.decWc τ (word (.perclusterSense t.1))))
  /-- The cluster is no longer counted. -/
  | decWc (τ s : ℕ) : BarTrans word t h k (.decWc τ s)
      (some (waitLoc s,decWord (word (waitLoc s)))) none (.bar h false (.backLd τ))
  /-- Load of the sense. -/
  | backLd (τ : ℕ) : BarTrans word t h k (.backLd τ) none none
      (.bar h k (.backSt τ (word (.perclusterSense t.1))))
  /-- Store of the sense flipped back. -/
  | backSt (τ v : ℕ) : BarTrans word t h k (.backSt τ v)
      (some (.perclusterSense t.1,flipSense v)) none
      (.slot h ((wrapIndices h τ).1%groupSlots))
  /-- Selection of the counter. -/
  | wcSel (τ : ℕ) : BarTrans word t h k (.wcSel τ) none none
      (.bar h k (.wcLd τ (word (.perclusterSense t.1))))
  /-- Every cluster is counted. -/
  | full (τ s : ℕ) : n=word (waitLoc s) →
      BarTrans word t h k (.wcLd τ s) none none (.bar h k (.setHead τ))
  /-- Some cluster is not counted. -/
  | notFull (τ s : ℕ) : n≠word (waitLoc s) →
      BarTrans word t h k (.wcLd τ s) none none (.bar h k .gsense)
  /-- Reset of the head index. -/
  | setHead (τ : ℕ) : BarTrans word t h k (.setHead τ) (some (.headIndex,τ)) none
      (.bar h k (.rstSel τ))
  /-- Selection of the opposing counter. -/
  | rstSel (τ : ℕ) : BarTrans word t h k (.rstSel τ) none none
      (.bar h k (.rstWc τ (word (.perclusterSense t.1))))
  /-- Reset of the opposing counter. -/
  | rstWc (τ s : ℕ) : BarTrans word t h k (.rstWc τ s) (some (waitLoc (flipSense s),0)) none
      (.bar h k (.flipLd τ))
  /-- Load of the sense. -/
  | flipLd (τ : ℕ) : BarTrans word t h k (.flipLd τ) none none
      (.bar h k (.flip τ (word (.perclusterSense t.1))))
  /-- The barrier is decided. -/
  | flip (τ v : ℕ) : BarTrans word t h k (.flip τ v) (some (.globalSense,v)) (some (.decide t))
      (.bar h k .passW)
  /-- Reset of the wait count. -/
  | passW : BarTrans word t h k .passW (some (.coreWaitcount t.1,0)) none (.bar h k .passLd)
  /-- Load of the sense of the threads. -/
  | passLd : BarTrans word t h k .passLd none none
      (.bar h k (.passSt (word (.percoreSense t.1))))
  /-- The cluster passes the barrier. -/
  | passSt (v : ℕ) : BarTrans word t h k (.passSt v) (some (.percoreSense t.1,flipSense v))
      (some (.pass t)) .unlockSync

/-- Steps with `CLUSTER_gtq_lock` held by the slow path, one constructor for each way an access can
come out. -/
inductive FetchTrans (cfg : Config) (word : Loc n → ℕ) (t : Thread n m) (sense pf : ℕ) :
    FetchPc → Wr n → Option (Event n m) → Pc → Prop where
  /-- No barrier was passed. -/
  | senseSame : word (.percoreSense t.1)=sense →
      FetchTrans cfg word t sense pf .sense none none (.fetch pf .head)
  /-- A barrier was passed. -/
  | senseSync : word (.percoreSense t.1)≠sense →
      FetchTrans cfg word t sense pf .sense none none (.fetch pf .unlockSync)
  /-- The local queue is still empty. -/
  | empty : word (.taskqueueHead t.1)=0 → 0 < cfg.fetch →
      FetchTrans cfg word t sense pf .head none none (.fetch pf .inc)
  /-- The local queue was filled, or nothing is to be fetched. -/
  | filled : ¬(word (.taskqueueHead t.1)=0 ∧ 0 < cfg.fetch) →
      FetchTrans cfg word t sense pf .head none none (.fetch pf .unlock)
  /-- A ticket of the global queue. -/
  | inc : FetchTrans cfg word t sense pf .inc
      (some (.headIndex,(word .headIndex+1)%wordSize)) none (.fetch pf (.tail (word .headIndex)))
  /-- The ticket is valid. -/
  | valid (h : ℕ) : (wrapIndices h (word .tailIndex)).1<(wrapIndices h (word .tailIndex)).2 →
      FetchTrans cfg word t sense pf (.tail h) none none (.fetch pf (.slot h (h%groupSlots)))
  /-- The queue looks empty. -/
  | beyond (h : ℕ) : ¬(wrapIndices h (word .tailIndex)).1<(wrapIndices h (word .tailIndex)).2 →
      FetchTrans cfg word t sense pf (.tail h) none none (.fetch pf (.enterLd h))
  /-- Load of the sense. -/
  | enterLd (h : ℕ) : FetchTrans cfg word t sense pf (.enterLd h) none none
      (.fetch pf (.enterSt h (word (.perclusterSense t.1))))
  /-- Entry to the barrier. -/
  | enterSt (h v : ℕ) : FetchTrans cfg word t sense pf (.enterSt h v)
      (some (.perclusterSense t.1,flipSense v)) none (.fetch pf (.bar h false .gsense))
  /-- Inside the barrier. -/
  | bar {h : ℕ} {k : Bool} {b : BarPc} {w : Wr n} {e : Option (Event n m)} {p : FetchPc} :
      BarTrans word t h k b w e p →
      FetchTrans cfg word t sense pf (.bar h k b) w e (.fetch pf p)
  /-- The group is returned. -/
  | slot (h idx : ℕ) : FetchTrans cfg word t sense pf (.slot h idx) none
      (some (.group t h (word (.task idx 0))))
      (.fetch pf (.walk (word (.task idx 0)) [] (word (.task idx 0))))
  /-- The last task of the group. -/
  | last (first : ℕ) (passed : List ℕ) (p : ℕ) : word (.desc p .next)=0 →
      FetchTrans cfg word t sense pf (.walk first passed p) none none
        (.fetch pf (.acqIns first passed p .ldl))
  /-- A further task of the group. -/
  | walk (first : ℕ) (passed : List ℕ) (p : ℕ) : word (.desc p .next)≠0 →
      FetchTrans cfg word t sense pf (.walk first passed p) none none
        (.fetch pf (.walk first (passed++[p]) (word (.desc p .next))))
  /-- Acquire in progress. -/
  | acq {first : ℕ} {passed : List ℕ} {p : ℕ} {a a' : Acq} {w : Wr n} :
      AcqTrans word t.1 a w (some a') →
      FetchTrans cfg word t sense pf (.acqIns first passed p a) w none
        (.fetch pf (.acqIns first passed p a'))
  /-- Lock granted. -/
  | grant {first : ℕ} {passed : List ℕ} {p : ℕ} {a : Acq} {w : Wr n} :
      AcqTrans word t.1 a w none →
      FetchTrans cfg word t sense pf (.acqIns first passed p a) w none
        (.fetch pf (.insHead first passed p))
  /-- Load of the head. -/
  | insHead (first : ℕ) (passed : List ℕ) (p : ℕ) :
      FetchTrans cfg word t sense pf (.insHead first passed p) none none
        (.fetch pf (.insNext first passed p (word (.taskqueueHead t.1))))
  /-- Link of the last task. -/
  | insNext (first : ℕ) (passed : List ℕ) (p v : ℕ) :
      FetchTrans cfg word t sense pf (.insNext first passed p v) (some (.desc p .next,v)) none
        (.fetch pf (.insSet first passed p))
  /-- The group becomes the head. -/
  | insSet (first : ℕ) (passed : List ℕ) (p : ℕ) :
      FetchTrans cfg word t sense pf (.insSet first passed p)
        (some (.taskqueueHead t.1,first)) (some (.insert t (passed++[p])))
        (.fetch pf (.relIns .ld))
  /-- Release in progress. -/
  | rel {l l' : Rel} {w : Wr n} : RelTrans word t.1 l w (some l') →
      FetchTrans cfg word t sense pf (.relIns l) w none (.fetch pf (.relIns l'))
  /-- Released; a further group is fetched. -/
  | more {l : Rel} {w : Wr n} : RelTrans word t.1 l w none → pf < cfg.fetch →
      FetchTrans cfg word t sense pf (.relIns l) w none (.fetch (pf+1) .inc)
  /-- Released; the last group was fetched. -/
  | enough {l : Rel} {w : Wr n} : RelTrans word t.1 l w none → ¬pf < cfg.fetch →
      FetchTrans cfg word t sense pf (.relIns l) w none (.fetch pf .unlock)
  /-- Release of `CLUSTER_gtq_lock`. -/
  | unlock : FetchTrans cfg word t sense pf .unlock (some (.gtqLock t.1,0)) none (.slow .sense)
  /-- Release of `CLUSTER_gtq_lock` and return. -/
  | unlockSync : FetchTrans cfg word t sense pf .unlockSync (some (.gtqLock t.1,0))
      (some (.sync t)) .outside

/-- Steps of the parallel enqueue, one constructor for each way an access can come out. Each says
what is stored, what is shown and where the thread is next. -/
inductive ParTrans (cfg : Config) (word : Loc n → ℕ) (t : Thread n m) (esense : ℕ) (args : Args) :
    ParPc → Wr n → Option (Event n m) → Pc → Prop where
  /-- Try-lock in progress. -/
  | trying {k k' : Try} {w : Wr n} : TryTrans word t.1 k w (.inl k') →
      ParTrans cfg word t esense args (.tryGtq k) w none (.par args (.tryGtq k'))
  /-- `CLUSTER_gtq_lock` taken. -/
  | locked {k : Try} {w : Wr n} : TryTrans word t.1 k w (.inr true) →
      ParTrans cfg word t esense args (.tryGtq k) w none (.par args .chk)
  /-- Another thread holds `CLUSTER_gtq_lock`: return. -/
  | busy {k : Try} {w : Wr n} : TryTrans word t.1 k w (.inr false) →
      ParTrans cfg word t esense args (.tryGtq k) w none .outside
  /-- The body was already executed. -/
  | done : word (.enqueueLoop t.1)=esense →
      ParTrans cfg word t esense args .chk none none (.par args .unlock)
  /-- The body is to be executed. -/
  | start : word (.enqueueLoop t.1)≠esense →
      ParTrans cfg word t esense args .chk none none (.par args .togLd)
  /-- Load of the enqueue sense. -/
  | togLd : ParTrans cfg word t esense args .togLd none none
      (.par args (.togSt (word (.enqueueLoop t.1))))
  /-- The body is entered. -/
  | body (v : ℕ) (groups : List (List (ℕ×ℕ))) : parGroups cfg t.1 args=some groups →
      ParTrans cfg word t esense args (.togSt v) (some (.enqueueLoop t.1,flipSense v))
        (some (.body t)) (.par args (.pool groups))
  /-- The body is entered and nothing is to be enqueued. -/
  | bodyEmpty (v : ℕ) : parGroups cfg t.1 args=none →
      ParTrans cfg word t esense args (.togSt v) (some (.enqueueLoop t.1,flipSense v))
        (some (.body t)) (.par args .unlock)
  /-- Reservation of descriptors. -/
  | pool (groups : List (List (ℕ×ℕ))) : ParTrans cfg word t esense args (.pool groups)
      (some (.headData,(word .headData+8*LoopPartition.perClusterTaskGroups cfg.shift
        args.totIters args.itersPerTask)%wordSize)) none
      (.par args (parGroup ⟨groups,word .headData%globalTqSize,cfg.localEnqueueCount⟩))
  /-- Store of a word of a task descriptor. -/
  | fill (w : Work) (k : ℕ) (f f' : Field) : fieldAfter f=some f' →
      ParTrans cfg word t esense args (.fill w k f) (some (.desc (w.ptr k) f,
        fieldValue (taskDesc args (w.current.getD k (0,0))) (w.ptr k) f)) none
        (.par args (.fill w k f'))
  /-- Store of the last word of a task descriptor. -/
  | fillNext (w : Work) (k : ℕ) : k+1<w.current.length →
      ParTrans cfg word t esense args (.fill w k .next) (some (.desc (w.ptr k) .next,w.ptr k+1))
        (some (.fill t (w.ptr k) (taskDesc args (w.current.getD k (0,0)))))
        (.par args (.fill w (k+1) .v1))
  /-- Store of the last word of the last task descriptor of the group. -/
  | fillLast (w : Work) (k : ℕ) : ¬k+1<w.current.length →
      ParTrans cfg word t esense args (.fill w k .next) (some (.desc (w.ptr k) .next,w.ptr k+1))
        (some (.fill t (w.ptr k) (taskDesc args (w.current.getD k (0,0)))))
        (.par args (.acq w .ldl))
  /-- Acquire in progress. -/
  | acq {u : Work} {a a' : Acq} {w : Wr n} : AcqTrans word t.1 a w (some a') →
      ParTrans cfg word t esense args (.acq u a) w none (.par args (.acq u a'))
  /-- Lock granted. -/
  | grant {u : Work} {a : Acq} {w : Wr n} : AcqTrans word t.1 a w none →
      ParTrans cfg word t esense args (.acq u a) w none (.par args (.head u))
  /-- The local queue is empty. -/
  | empty (u : Work) : word (.taskqueueHead t.1)=0 →
      ParTrans cfg word t esense args (.head u) none none (.par args (.insHead u))
  /-- Local insertion by count or mode. -/
  | insertLocal (u : Work) : word (.taskqueueHead t.1)≠0 → (0<u.left ∨ cfg.dataparMode=true) →
      ParTrans cfg word t esense args (.head u) none none
        (.par args (.insHead {u with left := u.left-1}))
  /-- Global enqueue. -/
  | insertGlobal (u : Work) : word (.taskqueueHead t.1)≠0 → ¬(0<u.left ∨ cfg.dataparMode=true) →
      ParTrans cfg word t esense args (.head u) none none (.par args (.relGlobal u .ld))
  /-- Load of the head. -/
  | insHead (u : Work) : ParTrans cfg word t esense args (.insHead u) none none
      (.par args (.insNext u (word (.taskqueueHead t.1))))
  /-- Link of the last task. -/
  | insNext (u : Work) (v : ℕ) : ParTrans cfg word t esense args (.insNext u v)
      (some (.desc (u.ptr (u.current.length-1)) .next,v)) none (.par args (.insSet u))
  /-- The group becomes the head. -/
  | insSet (u : Work) : ParTrans cfg word t esense args (.insSet u)
      (some (.taskqueueHead t.1,u.ptr 0)) (some (.insert t u.nodes)) (.par args (.relLocal u .ld))
  /-- Release in progress. -/
  | relLocal {u : Work} {l l' : Rel} {w : Wr n} : RelTrans word t.1 l w (some l') →
      ParTrans cfg word t esense args (.relLocal u l) w none (.par args (.relLocal u l'))
  /-- Released; the next group follows. -/
  | relLocalDone {u : Work} {l : Rel} {w : Wr n} : RelTrans word t.1 l w none →
      ParTrans cfg word t esense args (.relLocal u l) w none (.par args (parGroup u.rest))
  /-- Release in progress. -/
  | relGlobal {u : Work} {l l' : Rel} {w : Wr n} : RelTrans word t.1 l w (some l') →
      ParTrans cfg word t esense args (.relGlobal u l) w none (.par args (.relGlobal u l'))
  /-- Released. -/
  | relGlobalDone {u : Work} {l : Rel} {w : Wr n} : RelTrans word t.1 l w none →
      ParTrans cfg word t esense args (.relGlobal u l) w none (.par args (.lock u))
  /-- The enqueue lock was free. -/
  | lock (u : Work) : word .enqueueLock=0 → ParTrans cfg word t esense args (.lock u)
      (some (.enqueueLock,1)) none (.par args (.loadTail u))
  /-- The enqueue lock was taken. -/
  | spin (u : Work) : word .enqueueLock≠0 → ParTrans cfg word t esense args (.lock u)
      (some (.enqueueLock,1)) none (.par args (.lock u))
  /-- Load of the tail. -/
  | loadTail (u : Work) : ParTrans cfg word t esense args (.loadTail u) none none
      (.par args (.storeTask u (word .tailIndex) 0))
  /-- Store of a task pointer. -/
  | storeTask (u : Work) (τ i : ℕ) : i+1<u.current.length →
      ParTrans cfg word t esense args (.storeTask u τ i)
        (some (.task (if i=0 then τ%2^27 else 0) i,u.ptr i)) none
        (.par args (.storeTask u τ (i+1)))
  /-- Store of the last task pointer. -/
  | storeLast (u : Work) (τ i : ℕ) : ¬i+1<u.current.length →
      ParTrans cfg word t esense args (.storeTask u τ i)
        (some (.task (if i=0 then τ%2^27 else 0) i,u.ptr i)) none (.par args (.storeNull u))
  /-- The end of the task list. -/
  | storeNull (u : Work) : ParTrans cfg word t esense args (.storeNull u)
      (some (.desc (u.ptr (u.current.length-1)) .next,0)) none (.par args (.incTail u))
  /-- The group is published. -/
  | incTail (u : Work) : ParTrans cfg word t esense args (.incTail u)
      (some (.tailIndex,(word .tailIndex+1)%wordSize))
      (some (.publish t (word .tailIndex) u.nodes)) (.par args (.unlockEnqueue u))
  /-- Release of the enqueue lock; the next group follows. -/
  | unlockEnqueue (u : Work) : ParTrans cfg word t esense args (.unlockEnqueue u)
      (some (.enqueueLock,0)) none (.par args (parGroup u.rest))
  /-- Release of `CLUSTER_gtq_lock` and return. -/
  | unlock : ParTrans cfg word t esense args .unlock (some (.gtqLock t.1,0)) none .outside

/-- Steps of the sequential enqueue, one constructor for each way an access can come out. It takes
the enqueue lock first and releases it last. -/
inductive SeqTrans (word : Loc n → ℕ) (t : Thread n m) (args : Args) :
    SeqPc → Wr n → Option (Event n m) → Pc → Prop where
  /-- The enqueue lock was free. -/
  | lock : word .enqueueLock=0 → SeqTrans word t args .lock (some (.enqueueLock,1)) none
      (.seq args .loadTail)
  /-- The enqueue lock was taken. -/
  | spin : word .enqueueLock≠0 → SeqTrans word t args .lock (some (.enqueueLock,1)) none
      (.seq args .lock)
  /-- Load of the tail. -/
  | loadTail : SeqTrans word t args .loadTail none none
      (.seq args (seqGroup (8*word .tailIndex%globalTqSize) (seqGroups args)))
  /-- Store of a word of a task descriptor. -/
  | fill (idx : ℕ) (groups : List (List (ℕ×ℕ))) (k : ℕ) (f f' : Field) : fieldAfter f=some f' →
      SeqTrans word t args (.fill idx groups k f) (some (.desc (seqPtr idx k) f,
        fieldValue (taskDesc args ((seqCurrent groups).getD k (0,0))) (seqPtr idx k) f)) none
        (.seq args (.fill idx groups k f'))
  /-- Store of the last word of a task descriptor. -/
  | fillNext (idx : ℕ) (groups : List (List (ℕ×ℕ))) (k : ℕ) :
      SeqTrans word t args (.fill idx groups k .next)
        (some (.desc (seqPtr idx k) .next,seqPtr idx k+1))
        (some (.fill t (seqPtr idx k) (taskDesc args ((seqCurrent groups).getD k (0,0)))))
        (.seq args (.storeTask idx groups k))
  /-- Store of a task pointer. -/
  | storeTask (idx : ℕ) (groups : List (List (ℕ×ℕ))) (k : ℕ) : k+1<(seqCurrent groups).length →
      SeqTrans word t args (.storeTask idx groups k)
        (some (.task ((idx+k)%globalTqSize/8) ((idx+k)%8),seqPtr idx k)) none
        (.seq args (.fill idx groups (k+1) .v1))
  /-- Store of the last task pointer of the group. -/
  | storeLast (idx : ℕ) (groups : List (List (ℕ×ℕ))) (k : ℕ) : ¬k+1<(seqCurrent groups).length →
      SeqTrans word t args (.storeTask idx groups k)
        (some (.task ((idx+k)%globalTqSize/8) ((idx+k)%8),seqPtr idx k)) none
        (.seq args (.storeNull idx groups))
  /-- The end of the task list. -/
  | storeNull (idx : ℕ) (groups : List (List (ℕ×ℕ))) :
      SeqTrans word t args (.storeNull idx groups)
        (some (.desc (seqPtr idx ((seqCurrent groups).length-1)) .next,0)) none
        (.seq args (.incTail idx groups))
  /-- The group is published. -/
  | incTail (idx : ℕ) (groups : List (List (ℕ×ℕ))) :
      SeqTrans word t args (.incTail idx groups) (some (.tailIndex,(word .tailIndex+1)%wordSize))
        (some (.publish t (word .tailIndex) (seqNodes idx groups)))
        (.seq args (seqGroup ((idx+8)%globalTqSize) groups.tail))
  /-- Release of the enqueue lock and return. -/
  | unlock : SeqTrans word t args .unlock (some (.enqueueLock,0)) (some (.seqReturn t args))
      .outside

/-- Steps of a thread: the local state before, what is read and written, and the local state after.
Every later invariant is proved by cases on these steps and never looks into the functions again. -/
inductive Trans (cfg : Config) (word : Loc n → ℕ) (t : Thread n m) (sense esense : ℕ) :
    Pc → Wr n → Option (Event n m) → Pc → Prop where
  /-- Nothing is called. -/
  | stay : Trans cfg word t sense esense .outside none none .outside
  /-- Call of the dequeue. -/
  | dequeue : Trans cfg word t sense esense .outside none none (.fast (.acq .ldl))
  /-- Call of the parallel enqueue. -/
  | parCall (args : Args) : Trans cfg word t sense esense .outside none (some (.parCall t))
      (.par args (.tryGtq .ldl))
  /-- Call of the sequential enqueue by thread 0. -/
  | seqCall (args : Args) : isThreadZero t=true →
      Trans cfg word t sense esense .outside none none (.seq args .lock)
  /-- Call of the sequential enqueue by another thread. -/
  | seqSkip (args : Args) : isThreadZero t=false →
      Trans cfg word t sense esense .outside none (some (.seqReturn t args)) .outside
  /-- In the fast path. -/
  | fast {p : FastPc} {w : Wr n} {e : Option (Event n m)} {q : Pc} : FastTrans word t p w e q →
      Trans cfg word t sense esense (.fast p) w e q
  /-- In the slow path. -/
  | slow {p : SlowPc} {w : Wr n} {e : Option (Event n m)} {q : Pc} :
      SlowTrans word t sense p w e q → Trans cfg word t sense esense (.slow p) w e q
  /-- In a fetch. -/
  | fetch {pf : ℕ} {p : FetchPc} {w : Wr n} {e : Option (Event n m)} {q : Pc} :
      FetchTrans cfg word t sense pf p w e q → Trans cfg word t sense esense (.fetch pf p) w e q
  /-- In the parallel enqueue. -/
  | par {args : Args} {p : ParPc} {w : Wr n} {e : Option (Event n m)} {q : Pc} :
      ParTrans cfg word t esense args p w e q → Trans cfg word t sense esense (.par args p) w e q
  /-- In the sequential enqueue. -/
  | seq {args : Args} {p : SeqPc} {w : Wr n} {e : Option (Event n m)} {q : Pc} :
      SeqTrans word t args p w e q → Trans cfg word t sense esense (.seq args p) w e q

section Sound

variable {s : QState n m} {t : Thread n m} {lose : Bool} {r : ℕ}

/-- The acquire takes a listed step. -/
theorem acqTrans {c : Fin n} {a : Acq}
    (fresh : ∀ x v, acqReserve c a=some (x,v) → s.link t=some x → s.word x=v)
    (hr : r=result s t lose (a.access c)) :
    AcqTrans s.word c a (written s t lose (a.access c)) (a.next r) := by
  cases a with
  | ldl => subst hr; exact .load
  | stc v =>
    cases hlink : holdsLink s t lose (.ticketCount c) with
    | true =>
      simp only [Acq.access,written,result,hlink,if_true] at hr ⊢
      simp only [holdsLink,Bool.and_eq_true,decide_eq_true_eq] at hlink
      rw [←fresh _ v rfl hlink.2,hr]
      exact .reserve
    | false =>
      simp only [Acq.access,written,result,hlink,Bool.false_eq_true,if_false] at hr ⊢
      rw [hr]
      exact .lost v
  | poll k =>
    simp only [Acq.next]
    split
    · rename_i h
      have hpoll : k=s.word (.ticketPoll c) := h.symm.trans hr
      rw [hpoll]
      exact .grant
    · exact .wait k

/-- The release takes a listed step. -/
theorem relTrans {c : Fin n} {l : Rel} (hr : r=result s t lose (l.access c)) :
    RelTrans s.word c l (written s t lose (l.access c)) (l.next r) := by
  cases l with
  | ld => subst hr; exact .load
  | st v => exact .store v

/-- The try-lock takes a listed step. -/
theorem tryTrans {c : Fin n} {k : Try}
    (fresh : ∀ x v, tryReserve c k=some (x,v) → s.link t=some x → s.word x=v)
    (hr : r=result s t lose (k.access c)) :
    TryTrans s.word c k (written s t lose (k.access c)) (k.next r) := by
  cases k with
  | ldl =>
    simp only [Try.next]
    split <;> subst hr
    · exact .load ‹_›
    · exact .taken ‹_›
  | stc =>
    cases hlink : holdsLink s t lose (.gtqLock c) with
    | true =>
      simp only [Try.access,written,result,hlink,if_true] at hr ⊢
      simp only [holdsLink,Bool.and_eq_true,decide_eq_true_eq] at hlink
      rw [hr]
      exact .lock (fresh _ 0 rfl hlink.2)
    | false =>
      simp only [Try.access,written,result,hlink,Bool.false_eq_true,if_false] at hr ⊢
      rw [hr]
      exact .lost

/-- An update of the wait count takes a listed step. -/
theorem updTrans {c : Fin n} {f : ℕ → ℕ} {u : Upd}
    (fresh : ∀ x v, updReserve c u=some (x,v) → s.link t=some x → s.word x=v)
    (hr : r=result s t lose (u.access c f)) :
    UpdTrans s.word c f u (written s t lose (u.access c f)) (u.next r) := by
  cases u with
  | ldl => subst hr; exact .load
  | stc v =>
    cases hlink : holdsLink s t lose (.coreWaitcount c) with
    | true =>
      simp only [Upd.access,written,result,hlink,if_true] at hr ⊢
      simp only [holdsLink,Bool.and_eq_true,decide_eq_true_eq] at hlink
      rw [←fresh _ v rfl hlink.2,hr]
      exact .store
    | false =>
      simp only [Upd.access,written,result,hlink,Bool.false_eq_true,if_false] at hr ⊢
      rw [hr]
      exact .lost v

/-- The fast path takes a listed step. -/
theorem fastTrans {p : FastPc} {sense esense : ℕ} {choice : Choice}
    (fresh : ∀ x v, reserve t ⟨.fast p,sense,esense⟩=some (x,v) → s.link t=some x → s.word x=v)
    (hr : r=result s t lose (fastAccess t.1 p)) :
    FastTrans s.word t p (written s t lose (fastAccess t.1 p))
      (emit t ⟨.fast p,sense,esense⟩ choice r)
      (fastNext p r) := by
  cases p with
  | acq a =>
    have h := acqTrans fresh hr
    simp only [fastNext]
    split
    · rename_i hn
      rw [hn] at h
      exact .acq h
    · rename_i hn
      rw [hn] at h
      exact .grant h
  | head k =>
    simp only [fastNext]
    split <;> subst hr
    · exact .empty k ‹_›
    · exact .found k ‹_›
  | copy p got =>
    subst hr
    by_cases h : got.length<3
    · simp only [fastNext,emit,returnsSync,workEvent,Bool.false_eq_true,if_false,if_pos h]
      exact .copy p got h
    · simp only [fastNext,emit,returnsSync,workEvent,Bool.false_eq_true,if_false,if_neg h]
      exact .finish p got h
  | _ => subst hr; constructor

/-- The slow path takes a listed step. -/
theorem slowTrans {p : SlowPc} {sense esense : ℕ} {choice : Choice}
    (fresh : ∀ x v, reserve t ⟨.slow p,sense,esense⟩=some (x,v) → s.link t=some x → s.word x=v)
    (hr : r=result s t lose (slowAccess t.1 p)) :
    SlowTrans s.word t sense p (written s t lose (slowAccess t.1 p))
      (emit t ⟨.slow p,sense,esense⟩ choice r)
      (slowNext sense p r) := by
  cases p with
  | inc u =>
    have h := updTrans fresh hr
    simp only [slowNext]
    split
    · rename_i hn
      rw [hn] at h
      exact .inc h
    · rename_i hn
      rw [hn] at h
      exact .incDone h
  | sense =>
    by_cases h : r=sense
    · simp only [slowNext,emit,returnsSync,workEvent,h,bne_self_eq_false,Bool.false_eq_true,
        if_false,if_true]
      exact .senseSame (hr.symm.trans h)
    · simp only [slowNext,emit,returnsSync,bne_iff_ne.mpr h,if_true,if_neg h]
      exact .senseSync fun he => h (hr.trans he)
  | acq a =>
    have h := acqTrans fresh hr
    simp only [slowNext]
    split
    · rename_i hn
      rw [hn] at h
      exact .acq h
    · rename_i hn
      rw [hn] at h
      exact .grant h
  | senseLocked =>
    simp only [slowNext]
    split <;> subst hr
    · exact .lockedSame ‹_›
    · exact .lockedSync ‹_›
  | relSync l =>
    have h := relTrans hr
    cases l with
    | ld => exact .relSync h
    | st v => exact .relSyncDone h
  | head =>
    simp only [slowNext]
    split <;> subst hr
    · exact .empty ‹_›
    · exact .found ‹_›
  | copy p got =>
    simp only [slowNext]
    split <;> subst hr
    · exact .copy p got ‹_›
    · exact .copyDone p got ‹_›
  | dec p got u =>
    have h := updTrans fresh hr
    simp only [slowNext]
    split
    · rename_i hn
      rw [hn] at h
      exact .dec h
    · rename_i hn
      rw [hn] at h
      exact .decDone h
  | relPop p got l =>
    have h := relTrans hr
    cases l with
    | ld => exact .relPop h
    | st v => exact .finish h
  | relNull l =>
    have h := relTrans hr
    cases l with
    | ld => exact .relNull h
    | st v => exact .relNullDone h
  | tryGtq k =>
    have h := tryTrans fresh hr
    simp only [slowNext]
    split
    · rename_i hn
      rw [hn] at h
      exact .trying h
    · rename_i hn
      rw [hn] at h
      exact .locked h
    · rename_i hn
      rw [hn] at h
      exact .busy h
  | _ => subst hr; constructor

/-- The barrier loop takes a listed step. -/
theorem barTrans {pf h : ℕ} {k : Bool} {b : BarPc} {sense esense : ℕ}
    (fresh : ∀ x v, reserve t ⟨.fetch pf (.bar h k b),sense,esense⟩=some (x,v) →
      s.link t=some x → s.word x=v)
    (hr : r=result s t lose (barAccess t.1 b)) :
    BarTrans s.word t h k b (written s t lose (barAccess t.1 b)) (barEvent t b)
      (barNext (n := n) m h k b r) := by
  cases b with
  | csense g =>
    simp only [barNext]
    split <;> subst hr
    · exact .decided g ‹_›
    · exact .undecided g ‹_›
  | tail =>
    simp only [barNext]
    split <;> subst hr
    · exact .tailCounted ‹_›
    · exact .tail (Bool.eq_false_of_not_eq_true ‹_›)
  | acqTest τ a =>
    have ha := acqTrans fresh hr
    simp only [barNext]
    split
    · rename_i hn
      rw [hn] at ha
      exact .acq ha
    · rename_i hn
      rw [hn] at ha
      exact .grant ha
  | relTest τ q l =>
    have hl := relTrans hr
    cases l with
    | ld => exact .rel hl
    | st v =>
      cases q with
      | true => exact .pending hl
      | false =>
        simp only [barNext,Rel.next,Bool.false_eq_true,if_false]
        exact .notPending hl
  | reCsense τ g =>
    simp only [barNext]
    split <;> subst hr
    · exact .reDecided τ g ‹_›
    · split
      · exact .reCounted τ g ‹_› ‹_›
      · exact .reFree τ g ‹_› (Bool.eq_false_of_not_eq_true ‹_›)
  | wcLd τ v =>
    simp only [barNext]
    split <;> subst hr
    · exact .full τ v ‹_›
    · exact .notFull τ v ‹_›
  | _ => subst hr; constructor

/-- The fetch takes a listed step. -/
theorem fetchTrans {pf : ℕ} {p : FetchPc} {sense esense : ℕ} {choice : Choice}
    (fresh : ∀ x v, reserve t ⟨.fetch pf p,sense,esense⟩=some (x,v) → s.link t=some x →
      s.word x=v)
    (hr : r=result s t lose (fetchAccess t.1 p)) :
    FetchTrans cfg s.word t sense pf p (written s t lose (fetchAccess t.1 p))
      (emit t ⟨.fetch pf p,sense,esense⟩ choice r)
      (fetchNext (n := n) m cfg sense pf p r) := by
  cases p with
  | bar h k b => exact .bar (barTrans fresh hr)
  | sense =>
    simp only [fetchNext]
    split <;> subst hr
    · exact .senseSame ‹_›
    · exact .senseSync ‹_›
  | head =>
    simp only [fetchNext]
    split <;> subst hr
    · rename_i h
      exact .empty h.1 h.2
    · exact .filled ‹_›
  | tail h =>
    simp only [fetchNext]
    split <;> subst hr
    · exact .valid h ‹_›
    · exact .beyond h ‹_›
  | walk first passed p =>
    simp only [fetchNext]
    split <;> subst hr
    · exact .last first passed p ‹_›
    · exact .walk first passed p ‹_›
  | acqIns first passed p a =>
    have ha := acqTrans fresh hr
    simp only [fetchNext]
    split
    · rename_i hn
      rw [hn] at ha
      exact .acq ha
    · rename_i hn
      rw [hn] at ha
      exact .grant ha
  | relIns l =>
    have hl := relTrans hr
    cases l with
    | ld => exact .rel hl
    | st v =>
      simp only [fetchNext,Rel.next]
      split <;> subst hr
      · exact .more hl ‹_›
      · exact .enough hl ‹_›
  | _ => subst hr; constructor

/-- The parallel enqueue takes a listed step. -/
theorem parTrans {args : Args} {p : ParPc} {sense esense : ℕ} {choice : Choice}
    (fresh : ∀ x v, reserve t ⟨.par args p,sense,esense⟩=some (x,v) → s.link t=some x →
      s.word x=v)
    (hr : r=result s t lose (parAccess cfg t.1 args p)) :
    ParTrans cfg s.word t esense args p (written s t lose (parAccess cfg t.1 args p))
      (emit t ⟨.par args p,sense,esense⟩ choice r)
      (parNext cfg t.1 args esense p r) := by
  cases p with
  | tryGtq k =>
    have h := tryTrans fresh hr
    simp only [parNext]
    split
    · rename_i hn
      rw [hn] at h
      exact .trying h
    · rename_i hn
      rw [hn] at h
      exact .locked h
    · rename_i hn
      rw [hn] at h
      exact .busy h
  | chk =>
    simp only [parNext]
    split <;> subst hr
    · exact .done ‹_›
    · exact .start ‹_›
  | togSt v =>
    simp only [parNext]
    split <;> subst hr
    · exact .body v _ ‹_›
    · exact .bodyEmpty v ‹_›
  | fill w k f =>
    cases f with
    | next =>
      simp only [parNext,fieldAfter]
      split <;> subst hr
      · exact .fillNext w k ‹_›
      · exact .fillLast w k ‹_›
    | v1 => exact .fill w k .v1 .v2 rfl
    | v2 => exact .fill w k .v2 .v3 rfl
    | v3 => exact .fill w k .v3 .v4 rfl
    | v4 => exact .fill w k .v4 .next rfl
  | acq w a =>
    have ha := acqTrans fresh hr
    simp only [parNext]
    split
    · rename_i hn
      rw [hn] at ha
      exact .acq ha
    · rename_i hn
      rw [hn] at ha
      exact .grant ha
  | head w =>
    simp only [parNext]
    split <;> subst hr
    · exact .empty w ‹_›
    · split
      · exact .insertLocal w ‹_› ‹_›
      · exact .insertGlobal w ‹_› ‹_›
  | relLocal w l =>
    have hl := relTrans hr
    cases l with
    | ld => exact .relLocal hl
    | st v => exact .relLocalDone hl
  | relGlobal w l =>
    have hl := relTrans hr
    cases l with
    | ld => exact .relGlobal hl
    | st v => exact .relGlobalDone hl
  | lock w =>
    simp only [parNext]
    split <;> subst hr
    · exact .lock w ‹_›
    · exact .spin w ‹_›
  | storeTask w τ i =>
    simp only [parNext]
    split <;> subst hr
    · exact .storeTask w τ i ‹_›
    · exact .storeLast w τ i ‹_›
  | _ => subst hr; constructor

/-- The sequential enqueue takes a listed step. -/
theorem seqTrans {args : Args} {p : SeqPc} {sense esense : ℕ} {choice : Choice}
    (hr : r=result s t lose (seqAccess args p)) :
    SeqTrans s.word t args p (written s t lose (seqAccess args p))
      (emit t ⟨.seq args p,sense,esense⟩ choice r)
      (seqNext args p r) := by
  cases p with
  | lock =>
    simp only [seqNext]
    split <;> subst hr
    · exact .lock ‹_›
    · exact .spin ‹_›
  | fill idx groups k f =>
    cases f with
    | next => exact .fillNext idx groups k
    | v1 => exact .fill idx groups k .v1 .v2 rfl
    | v2 => exact .fill idx groups k .v2 .v3 rfl
    | v3 => exact .fill idx groups k .v3 .v4 rfl
    | v4 => exact .fill idx groups k .v4 .next rfl
  | storeTask idx groups k =>
    simp only [seqNext]
    split <;> subst hr
    · exact .storeTask idx groups k ‹_›
    · exact .storeLast idx groups k ‹_›
  | _ => subst hr; constructor

/-- Every step of a thread with a fresh link is listed. This is where the functions are unfolded;
what follows uses the list. -/
theorem trans_sound {l : Local} {choice : Choice}
    (fresh : ∀ x v, reserve t l=some (x,v) → s.link t=some x → s.word x=v) :
    Trans cfg s.word t l.sense l.enqueueSense l.pc (written s t lose (access cfg t l))
      (emit t l choice (result s t lose (access cfg t l)))
      (nextPc cfg t l choice (result s t lose (access cfg t l))) := by
  obtain ⟨pc,sense,esense⟩ := l
  cases pc with
  | outside =>
    cases choice with
    | stay => exact .stay
    | dequeue => exact .dequeue
    | loopParallel args => exact .parCall args
    | loopSequential args =>
      cases hz : isThreadZero t with
      | true =>
        simp only [nextPc,callPc,emit,returnsSync,workEvent,hz,if_true,Bool.false_eq_true,if_false]
        exact .seqCall args hz
      | false =>
        simp only [nextPc,callPc,emit,returnsSync,workEvent,hz,Bool.false_eq_true,if_false]
        exact .seqSkip args hz
  | fast p => exact .fast (fastTrans fresh rfl)
  | slow p => exact .slow (slowTrans fresh rfl)
  | fetch pf p => exact .fetch (fetchTrans fresh rfl)
  | par args p => exact .par (parTrans fresh rfl)
  | seq args p => exact .seq (seqTrans rfl)

end Sound

/-- The writes of the steps: local state before, word, value and local state after. The
words of the locks are listed without their local states. -/
inductive Writes (cfg : Config) (word : Loc n → ℕ) (t : Thread n m) :
    Pc → Loc n → ℕ → Pc → Prop where
  /-- Reservation of a ticket. -/
  | ticketCount (pc : Pc) (v : ℕ) (q : Pc) : Writes cfg word t pc (.ticketCount t.1) v q
  /-- Release of the local queue lock. -/
  | ticketPoll (pc : Pc) (v : ℕ) (q : Pc) : Writes cfg word t pc (.ticketPoll t.1) v q
  /-- `CLUSTER_gtq_lock` is taken by the slow path. -/
  | gtqSlow : word (.gtqLock t.1)=0 →
      Writes cfg word t (.slow (.tryGtq .stc)) (.gtqLock t.1) 1 (.fetch 1 .sense)
  /-- `CLUSTER_gtq_lock` is taken by the parallel enqueue. -/
  | gtqPar (args : Args) : word (.gtqLock t.1)=0 →
      Writes cfg word t (.par args (.tryGtq .stc)) (.gtqLock t.1) 1 (.par args .chk)
  /-- `CLUSTER_gtq_lock` is released by the slow path. -/
  | gtqUnlock (pf : ℕ) : Writes cfg word t (.fetch pf .unlock) (.gtqLock t.1) 0 (.slow .sense)
  /-- `CLUSTER_gtq_lock` is released by the return of `TQ_RET_SYNC`. -/
  | gtqSync (pf : ℕ) : Writes cfg word t (.fetch pf .unlockSync) (.gtqLock t.1) 0 .outside
  /-- `CLUSTER_gtq_lock` is released by the parallel enqueue. -/
  | gtqParUnlock (args : Args) : Writes cfg word t (.par args .unlock) (.gtqLock t.1) 0 .outside
  /-- `GLOBAL_tq_enqueue_lock` is exchanged. -/
  | enqueueLock (pc : Pc) (v : ℕ) (q : Pc) : Writes cfg word t pc .enqueueLock v q
  /-- The thread is counted. -/
  | waitInc : Writes cfg word t (.slow (.inc (.stc (word (.coreWaitcount t.1)))))
      (.coreWaitcount t.1) ((word (.coreWaitcount t.1)+1)%wordSize) (.slow .sense)
  /-- The thread is no longer counted. -/
  | waitDec (p : ℕ) (got : List ℕ) :
      Writes cfg word t (.slow (.dec p got (.stc (word (.coreWaitcount t.1)))))
        (.coreWaitcount t.1) (decWord (word (.coreWaitcount t.1))) (.slow (.relPop p got .ld))
  /-- The wait count is reset. -/
  | waitReset (pf h : ℕ) (k : Bool) : Writes cfg word t (.fetch pf (.bar h k .passW))
      (.coreWaitcount t.1) 0 (.fetch pf (.bar h k .passLd))
  /-- Unlink of the fast path. -/
  | fastUnlink (k p v : ℕ) : Writes cfg word t (.fast (.setHead k p v)) (.taskqueueHead t.1) v
      (.fast (.relPop k p))
  /-- Unlink of the slow path. -/
  | slowUnlink (p : ℕ) (got : List ℕ) (v : ℕ) : Writes cfg word t (.slow (.setHead p got v))
      (.taskqueueHead t.1) v (.slow (.dec p got .ldl))
  /-- Insertion of a fetched group. -/
  | fetchInsert (pf first : ℕ) (passed : List ℕ) (p : ℕ) :
      Writes cfg word t (.fetch pf (.insSet first passed p)) (.taskqueueHead t.1) first
        (.fetch pf (.relIns .ld))
  /-- Insertion of a group of the parallel enqueue. -/
  | parInsert (args : Args) (u : Work) : Writes cfg word t (.par args (.insSet u))
      (.taskqueueHead t.1) (u.ptr 0) (.par args (.relLocal u .ld))
  /-- A ticket of the global queue. -/
  | headInc (pf : ℕ) : Writes cfg word t (.fetch pf .inc) .headIndex
      ((word .headIndex+1)%wordSize) (.fetch pf (.tail (word .headIndex)))
  /-- Reset of the head index. -/
  | headReset (pf h : ℕ) (k : Bool) (τ : ℕ) : Writes cfg word t (.fetch pf (.bar h k (.setHead τ)))
      .headIndex τ (.fetch pf (.bar h k (.rstSel τ)))
  /-- Entry to the barrier. -/
  | enter (pf h v : ℕ) : Writes cfg word t (.fetch pf (.enterSt h v)) (.perclusterSense t.1)
      (flipSense v) (.fetch pf (.bar h false .gsense))
  /-- Back out of the barrier. -/
  | back (pf h : ℕ) (k : Bool) (τ v : ℕ) : Writes cfg word t (.fetch pf (.bar h k (.backSt τ v)))
      (.perclusterSense t.1) (flipSense v)
      (.fetch pf (.slot h ((wrapIndices h τ).1%groupSlots)))
  /-- The cluster is counted. -/
  | countInc (pf h : ℕ) (k : Bool) (τ s : ℕ) : Writes cfg word t (.fetch pf (.bar h k (.incWc τ s)))
      (waitLoc s) ((word (waitLoc s)+1)%wordSize) (.fetch pf (barBranch (n := n) h true τ))
  /-- The cluster is no longer counted. -/
  | countDec (pf h : ℕ) (k : Bool) (τ s : ℕ) : Writes cfg word t (.fetch pf (.bar h k (.decWc τ s)))
      (waitLoc s) (decWord (word (waitLoc s))) (.fetch pf (.bar h false (.backLd τ)))
  /-- The opposing counter is reset. -/
  | countReset (pf h : ℕ) (k : Bool) (τ s : ℕ) :
      Writes cfg word t (.fetch pf (.bar h k (.rstWc τ s))) (waitLoc (flipSense s)) 0
        (.fetch pf (.bar h k (.flipLd τ)))
  /-- The barrier is decided. -/
  | decide (pf h : ℕ) (k : Bool) (τ v : ℕ) : Writes cfg word t (.fetch pf (.bar h k (.flip τ v)))
      .globalSense v (.fetch pf (.bar h k .passW))
  /-- The cluster passes the barrier. -/
  | pass (pf h : ℕ) (k : Bool) (v : ℕ) : Writes cfg word t (.fetch pf (.bar h k (.passSt v)))
      (.percoreSense t.1) (flipSense v) (.fetch pf .unlockSync)
  /-- The enqueue sense of the cluster is flipped. -/
  | toggle (args : Args) (v : ℕ) (q : Pc) : Writes cfg word t (.par args (.togSt v))
      (.enqueueLoop t.1) (flipSense v) q
  /-- Descriptors are reserved. -/
  | pool (pc : Pc) (v : ℕ) (q : Pc) : Writes cfg word t pc .headData v q
  /-- Link of the last fetched task. -/
  | fetchLink (pf first : ℕ) (passed : List ℕ) (p v : ℕ) :
      Writes cfg word t (.fetch pf (.insNext first passed p v)) (.desc p .next) v
        (.fetch pf (.insSet first passed p))
  /-- A word of a descriptor of the parallel enqueue. -/
  | parFill (args : Args) (u : Work) (k : ℕ) (f : Field) (q : Pc) :
      Writes cfg word t (.par args (.fill u k f)) (.desc (u.ptr k) f)
        (fieldValue (taskDesc args (u.current.getD k (0,0))) (u.ptr k) f) q
  /-- Link of the last task of the parallel enqueue. -/
  | parLink (args : Args) (u : Work) (v : ℕ) : Writes cfg word t (.par args (.insNext u v))
      (.desc (u.ptr (u.current.length-1)) .next) v (.par args (.insSet u))
  /-- The end of a task list of the parallel enqueue. -/
  | parNull (args : Args) (u : Work) : Writes cfg word t (.par args (.storeNull u))
      (.desc (u.ptr (u.current.length-1)) .next) 0 (.par args (.incTail u))
  /-- A task pointer of the parallel enqueue. -/
  | parTask (args : Args) (u : Work) (τ i : ℕ) (q : Pc) :
      Writes cfg word t (.par args (.storeTask u τ i))
        (.task (if i=0 then τ%2^27 else 0) i) (u.ptr i) q
  /-- A group of the parallel enqueue is published. -/
  | parTail (args : Args) (u : Work) : Writes cfg word t (.par args (.incTail u)) .tailIndex
      ((word .tailIndex+1)%wordSize) (.par args (.unlockEnqueue u))
  /-- A word of a descriptor of the sequential enqueue. -/
  | seqFill (args : Args) (idx : ℕ) (groups : List (List (ℕ×ℕ))) (k : ℕ) (f : Field) (q : Pc) :
      Writes cfg word t (.seq args (.fill idx groups k f)) (.desc (seqPtr idx k) f)
        (fieldValue (taskDesc args ((seqCurrent groups).getD k (0,0))) (seqPtr idx k) f) q
  /-- The end of a task list of the sequential enqueue. -/
  | seqNull (args : Args) (idx : ℕ) (groups : List (List (ℕ×ℕ))) :
      Writes cfg word t (.seq args (.storeNull idx groups))
        (.desc (seqPtr idx ((seqCurrent groups).length-1)) .next) 0
        (.seq args (.incTail idx groups))
  /-- A task pointer of the sequential enqueue. -/
  | seqTask (args : Args) (idx : ℕ) (groups : List (List (ℕ×ℕ))) (k : ℕ) (q : Pc) :
      Writes cfg word t (.seq args (.storeTask idx groups k))
        (.task ((idx+k)%globalTqSize/8) ((idx+k)%8)) (seqPtr idx k) q
  /-- A group of the sequential enqueue is published. -/
  | seqTail (args : Args) (idx : ℕ) (groups : List (List (ℕ×ℕ))) :
      Writes cfg word t (.seq args (.incTail idx groups)) .tailIndex
        ((word .tailIndex+1)%wordSize)
        (.seq args (seqGroup ((idx+8)%globalTqSize) groups.tail))

section Writes

variable {word : Loc n → ℕ} {c : Fin n} {w : Wr n} {x : Loc n} {v : ℕ}

/-- The acquire writes the ticket count only. -/
theorem AcqTrans.write {a : Acq} {o : Option Acq} (h : AcqTrans word c a (some (x,v)) o) :
    x=.ticketCount c := by
  cases h
  rfl

/-- The release writes the poll word only. -/
theorem RelTrans.write {l : Rel} {o : Option Rel} (h : RelTrans word c l (some (x,v)) o) :
    x=.ticketPoll c := by
  cases h
  rfl

/-- Every write of a step is listed: which words a thread may change, and where it stands when it
does. -/
theorem Trans.writes {t : Thread n m} {sense esense : ℕ} {pc q : Pc} {e : Option (Event n m)}
    (h : Trans cfg word t sense esense pc (some (x,v)) e q) : Writes cfg word t pc x v q := by
  cases h with
  | fast h =>
    cases h with
    | acq ha => rw [ha.write]; constructor
    | grant ha => rw [ha.write]; constructor
    | _ => constructor
  | slow h =>
    cases h with
    | inc hu => cases hu
    | incDone hu => cases hu; constructor
    | acq ha => rw [ha.write]; constructor
    | grant ha => rw [ha.write]; constructor
    | relSync hl => rw [hl.write]; constructor
    | relSyncDone hl => rw [hl.write]; constructor
    | dec hu => cases hu
    | decDone hu => cases hu; constructor
    | relPop hl => rw [hl.write]; constructor
    | finish hl => rw [hl.write]; constructor
    | relNull hl => rw [hl.write]; constructor
    | relNullDone hl => rw [hl.write]; constructor
    | trying hk => cases hk
    | locked hk => cases hk; constructor; assumption
    | busy hk => cases hk
    | _ => constructor
  | fetch h =>
    cases h with
    | bar hb =>
      cases hb with
      | acq ha => rw [ha.write]; constructor
      | grant ha => rw [ha.write]; constructor
      | rel hl => rw [hl.write]; constructor
      | pending hl => rw [hl.write]; constructor
      | notPending hl => rw [hl.write]; constructor
      | _ => constructor
    | acq ha => rw [ha.write]; constructor
    | grant ha => rw [ha.write]; constructor
    | rel hl => rw [hl.write]; constructor
    | more hl => rw [hl.write]; constructor
    | enough hl => rw [hl.write]; constructor
    | _ => constructor
  | par h =>
    cases h with
    | trying hk => cases hk
    | locked hk => cases hk; constructor; assumption
    | busy hk => cases hk
    | acq ha => rw [ha.write]; constructor
    | grant ha => rw [ha.write]; constructor
    | relLocal hl => rw [hl.write]; constructor
    | relLocalDone hl => rw [hl.write]; constructor
    | relGlobal hl => rw [hl.write]; constructor
    | relGlobalDone hl => rw [hl.write]; constructor
    | fillNext u k => exact .parFill _ u k .next _
    | fillLast u k => exact .parFill _ u k .next _
    | _ => constructor
  | seq h =>
    cases h with
    | fillNext idx groups k => exact .seqFill _ idx groups k .next _
    | _ => constructor

/-- A thread writes words of its own cluster and words of no cluster. -/
theorem Trans.cluster {t : Thread n m} {sense esense : ℕ} {pc q : Pc} {e : Option (Event n m)}
    (h : Trans cfg word t sense esense pc (some (x,v)) e q) :
    x.cluster=none ∨ x.cluster=some t.1 := by
  cases h.writes <;> first | exact .inr rfl | exact .inl rfl

end Writes

end RigelTarget.TaskQueueSteps
