import RigelTarget.SharedMemory
import RigelTarget.TicketLock

/-!
# The ticket lock of one local task queue

`CLUSTER_ltq_ticket_count` and `CLUSTER_ltq_ticket_poll` of one cluster, with
every acquire and release sequence the task queue uses on them. The acquire
macro and the inline acquire of `SW_TaskQueue_Dequeue_FAST` are the same
instructions. Releases are a load, an add and a store, or a store of the own
ticket plus one. Any thread may pair any acquire with any release. All words
are 32 bits wide and wrap.
-/

namespace RigelTarget.LtqTicketLock

open SharedMemory

/-- Size of the ticket words. -/
abbrev wordSize : ℕ := 2^32

/-- The two words of the lock of one cluster: the count, which gives out tickets, and the poll word,
which tells the ticket being served. -/
inductive LockWord where
  /-- `CLUSTER_ltq_ticket_count[cluster_num].val`. -/
  | ticketCount
  /-- `CLUSTER_ltq_ticket_poll[cluster_num].val`. -/
  | ticketPoll
  deriving DecidableEq

/-- The acquire sequences in use: the macro `LOCAL_LOCK_ACQUIRE` and the copy of it in the assembly
of `SW_TaskQueue_Dequeue_FAST`. -/
inductive AcquireForm where
  /-- The macro `LOCAL_LOCK_ACQUIRE`. -/
  | localLockAcquire
  /-- The inline acquire of `SW_TaskQueue_Dequeue_FAST`. -/
  | dequeueFast
  deriving DecidableEq

/-- The release sequences in use: the macro `LOCAL_LOCK_RELEASE` and the ends of the assembly of the
dequeues, some of which compute the next ticket from their own. -/
inductive ReleaseForm where
  /-- The macro `LOCAL_LOCK_RELEASE`, an increment of the volatile poll word. -/
  | localLockRelease
  /-- `SW_TaskQueue_Dequeue_FAST` on an empty local queue: own ticket plus one. -/
  | fastEmpty
  /-- `SW_TaskQueue_Dequeue_FAST` after unlinking a task: own ticket plus one. -/
  | fastPop
  /-- The inline release of `SW_TaskQueue_Dequeue_SLOW`: load, add, store. -/
  | slowPop
  deriving DecidableEq

/-- Where a thread stands in an acquire or release, with its registers. A thread that holds the lock
is inside, with or without its ticket in a register. -/
inductive Pc where
  /-- Not using the lock. -/
  | outside
  /-- `ldl` of the count. -/
  | loadCount (form : AcquireForm)
  /-- `addiu` and `stc` of the count; on failure back to `ldl`. -/
  | condCount (form : AcquireForm) (loaded : ℕ)
  /-- `ldw` of the poll word, repeated until it equals the ticket. -/
  | pollTicket (form : AcquireForm) (ticket : ℕ)
  /-- Between acquire and release. -/
  | critical (ticket : ℕ)
  /-- The load of a load-add-store release. -/
  | loadPoll (form : ReleaseForm) (ticket : ℕ)
  /-- The store of a load-add-store release. -/
  | storePoll (form : ReleaseForm) (ticket loaded : ℕ)
  /-- The store of the own ticket plus one. -/
  | storeTicket (form : ReleaseForm) (ticket : ℕ)
  deriving DecidableEq

/-- What a client may start: an acquire outside, a release inside. The form says which sequence of
the source it is. -/
inductive Choice where
  /-- Stay. -/
  | stay
  /-- Start this acquire. -/
  | acquire (form : AcquireForm)
  /-- Start this release. -/
  | release (form : ReleaseForm)
  deriving Inhabited

/-- Reservations, grants and releases in the order they happen. A reservation is a successful
conditional store of the count. -/
inductive Event (ι : Type) where
  /-- The count was incremented by this thread. -/
  | reserve (t : ι)
  /-- The poll of this thread returned its ticket. -/
  | grant (t : ι)
  /-- This thread stored the next ticket to the poll word. -/
  | release (t : ι)

/-- The first instruction of a release. -/
def startRelease (ticket : ℕ) : ReleaseForm → Pc
  | .localLockRelease => .loadPoll .localLockRelease ticket
  | .fastEmpty => .storeTicket .fastEmpty ticket
  | .fastPop => .storeTicket .fastPop ticket
  | .slowPop => .loadPoll .slowPop ticket

/-- The access of each instruction of the acquire and release sequences. Only the reservation of a
ticket is linked. -/
def access : Pc → Access LockWord
  | .outside => .skip
  | .loadCount _ => .loadLinked .ticketCount
  | .condCount _ loaded => .storeCond .ticketCount ((loaded+1)%wordSize)
  | .pollTicket _ _ => .load .ticketPoll
  | .critical _ => .skip
  | .loadPoll _ _ => .load .ticketPoll
  | .storePoll _ _ loaded => .store .ticketPoll ((loaded+1)%wordSize)
  | .storeTicket _ ticket => .store .ticketPoll ((ticket+1)%wordSize)

/-- The instruction that follows, given the result of the access. A poll that reads another ticket
is repeated. -/
def next : Pc → Choice → ℕ → Pc
  | .outside, .acquire form, _ => .loadCount form
  | .outside, _, _ => .outside
  | .loadCount form, _, r => .condCount form r
  | .condCount form loaded, _, r =>
    if r=1 then .pollTicket form ((loaded+1)%wordSize) else .loadCount form
  | .pollTicket form ticket, _, r => if r=ticket then .critical ticket else .pollTicket form ticket
  | .critical ticket, .release form, _ => startRelease ticket form
  | .critical ticket, _, _ => .critical ticket
  | .loadPoll form ticket, _, r => .storePoll form ticket r
  | .storePoll _ _ _, _, _ => .outside
  | .storeTicket _ _, _, _ => .outside

section Lock

variable {ι : Type}

/-- The event of each instruction. -/
def emit (t : ι) : Pc → ℕ → Option (Event ι)
  | .condCount _ _, r => if r=1 then some (.reserve t) else none
  | .pollTicket _ ticket, r => if r=ticket then some (.grant t) else none
  | .storePoll _ _ _, _ => some (.release t)
  | .storeTicket _ _, _ => some (.release t)
  | _, _ => none

/-- The lock as a program of the shared memory, for any threads that take and release it by any of
the sequences. -/
def lockProgram (ι : Type) : Program ι LockWord Pc Choice (Event ι) where
  access _ p := access p
  next _ p c r := next p c r
  emit t p _ r := emit t p r

/-- The state left by `SW_TaskQueue_Init`: count 0 and poll 1, so that the first ticket, 1, is
served at once. -/
def initial (ι : Type) : State ι LockWord Pc (Event ι) where
  word x := match x with
    | .ticketCount => 0
    | .ticketPoll => 1
  link _ := none
  pc _ := .outside
  trace := []

/-- Threads between acquire and release, up to the store that releases. -/
def Pc.holds : Pc → Bool
  | .critical _ => true
  | .loadPoll _ _ => true
  | .storePoll _ _ _ => true
  | .storeTicket _ _ => true
  | _ => false

/-- Threads that reserved a ticket and were not granted the lock. -/
def Pc.waits : Pc → Bool
  | .pollTicket _ _ => true
  | _ => false

/-- The ticket in the registers of a waiting or holding thread. It is kept until the store that
releases. -/
def Pc.ticket? : Pc → Option ℕ
  | .pollTicket _ ticket => some ticket
  | .critical ticket => some ticket
  | .loadPoll _ ticket => some ticket
  | .storePoll _ ticket _ => some ticket
  | .storeTicket _ ticket => some ticket
  | _ => none

/-- Threads in the order in which they incremented the count. -/
def reservations : List (Event ι) → List ι
  | [] => []
  | .reserve t::trace => reservations trace++[t]
  | _::trace => reservations trace

/-- Threads in the order in which the lock was granted. -/
def grants : List (Event ι) → List ι
  | [] => []
  | .grant t::trace => grants trace++[t]
  | _::trace => grants trace

/-- The abstract queue: reserved and not yet released, in the order of the reservations. -/
def queueOf : List (Event ι) → List ι
  | [] => []
  | .reserve t::trace => queueOf trace++[t]
  | .grant _::trace => queueOf trace
  | .release _::trace => (queueOf trace).tail

/-- The phase of a thread in the abstract ticket lock. The two instructions of a release that only
read belong to the phase of the owner. -/
def phaseOf : Pc → TicketLock.Phase
  | .outside => .outside
  | .loadCount _ => .outside
  | .condCount _ _ => .outside
  | .pollTicket _ ticket => .waiting ticket
  | .critical ticket => .holdingWith ticket
  | .loadPoll _ ticket => .holdingWith ticket
  | .storePoll _ _ loaded => .releasing loaded
  | .storeTicket _ ticket => .holdingWith ticket

/-- Owning phases are exactly the holding local states. -/
theorem owns_phaseOf (p : Pc) : (phaseOf p).owns=p.holds := by
  cases p <;> rfl

/-- A holder still has its ticket in a register. -/
theorem ticket_of_holds {p : Pc} (h : p.holds=true) : ∃ k, p.ticket? =some k := by
  cases p with
  | critical ticket => exact ⟨ticket,rfl⟩
  | loadPoll form ticket => exact ⟨ticket,rfl⟩
  | storePoll form ticket loaded => exact ⟨ticket,rfl⟩
  | storeTicket form ticket => exact ⟨ticket,rfl⟩
  | _ => cases h

/-- The word and value reserved between `ldl` and `stc`. -/
def reserve (_ : ι) : Pc → Option (LockWord×ℕ)
  | .condCount _ loaded => some (.ticketCount,loaded)
  | _ => none

/-- Only `ldl` leads to the conditional store. -/
theorem reserving : Reserving (lockProgram ι) reserve := by
  refine ⟨?_⟩
  intro t p c r x v h
  cases p with
  | loadCount form =>
    simp only [lockProgram,next,reserve,Option.some.injEq,Prod.mk.injEq] at h
    obtain ⟨rfl,rfl⟩ := h
    exact ⟨rfl,rfl⟩
  | outside => cases c <;> cases h
  | critical ticket =>
    cases c with
    | release form => cases form <;> cases h
    | stay => cases h
    | acquire form => cases h
  | condCount form loaded =>
    simp only [lockProgram,next] at h
    split at h <;> cases h
  | pollTicket form ticket =>
    simp only [lockProgram,next] at h
    split at h <;> cases h
  | loadPoll form ticket => cases h
  | storePoll form ticket loaded => cases h
  | storeTicket form ticket => cases h

/-- Granted threads come first; the queue is the waiting threads, behind the
holder if there is one. -/
def GrantOrder (s : State ι LockWord Pc (Event ι)) : Prop :=
  ∃ waiting, reservations s.trace=grants s.trace++waiting ∧
    ((queueOf s.trace=waiting ∧ ∀ t, (s.pc t).holds=false) ∨
      ∃ t, (s.pc t).holds=true ∧ queueOf s.trace=t::waiting)

/-- Lock words, tickets and the queue agree; grants follow reservations: the threads that were
granted the lock are the first of those that have reserved it, in the same order. -/
structure LockInv (s : State ι LockWord Pc (Event ι)) : Prop where
  /-- The abstract queue explains both words and all tickets. -/
  ticket : TicketLock.Inv wordSize (queueOf s.trace) (s.word .ticketCount)
    (s.word .ticketPoll) (fun t => phaseOf (s.pc t))
  /-- A conditional store that will succeed sees the current count. -/
  fresh : LinkFresh reserve s
  /-- The registers of a holder keep the ticket being served. -/
  served : ∀ t k, (s.pc t).holds=true → (s.pc t).ticket? =some k → k=s.word .ticketPoll
  /-- Whoever is queued and not granted comes after all granted threads. -/
  order : GrantOrder s

/-- The initial lock is free and nothing has happened. -/
theorem lockInv_initial : LockInv (initial ι) where
  ticket := TicketLock.Inv.initial (by decide)
  fresh t x v h := by cases h
  served t k h := by cases h
  order := ⟨[],rfl,.inl ⟨rfl,fun _ => rfl⟩⟩

variable [DecidableEq ι]

/-- The abstract phases after one turn. -/
theorem phase_step (s : State ι LockWord Pc (Event ι)) (turn : Turn ι Choice) :
    (fun u => phaseOf ((step (lockProgram ι) s turn).pc u))=
      Function.update (fun u => phaseOf (s.pc u)) turn.thread
        (phaseOf ((step (lockProgram ι) s turn).pc turn.thread)) :=
  step_pc_map _ _ _ phaseOf

/-- A turn that keeps the phase of its thread keeps all phases. -/
theorem phase_step_same (s : State ι LockWord Pc (Event ι)) (turn : Turn ι Choice)
    (h : phaseOf ((step (lockProgram ι) s turn).pc turn.thread)=phaseOf (s.pc turn.thread)) :
    (fun u => phaseOf ((step (lockProgram ι) s turn).pc u))=fun u => phaseOf (s.pc u) := by
  rw [phase_step,h]
  exact Function.update_eq_self _ _

/-- A turn that changes neither words nor events nor what the thread shows of
the lock keeps the invariant. -/
theorem lockInv_quiet {s : State ι LockWord Pc (Event ι)} (h : LockInv s)
    (turn : Turn ι Choice)
    (hword : (step (lockProgram ι) s turn).word=s.word)
    (htrace : (step (lockProgram ι) s turn).trace=s.trace)
    (hphase : phaseOf ((step (lockProgram ι) s turn).pc turn.thread)=
      phaseOf (s.pc turn.thread))
    (hticket : ((step (lockProgram ι) s turn).pc turn.thread).ticket? =
      (s.pc turn.thread).ticket?) :
    LockInv (step (lockProgram ι) s turn) := by
  have hholds : ∀ t, ((step (lockProgram ι) s turn).pc t).holds=(s.pc t).holds := by
    intro t
    rw [←owns_phaseOf,←owns_phaseOf]
    exact congrArg TicketLock.Phase.owns (congrFun (phase_step_same s turn hphase) t)
  refine ⟨?_,linkFresh_step reserving turn h.fresh,?_,?_⟩
  · rw [htrace,hword,phase_step_same s turn hphase]
    exact h.ticket
  · intro t k ht hk
    rw [hholds] at ht
    rw [hword]
    by_cases hu : t=turn.thread
    · subst hu
      rw [hticket] at hk
      exact h.served _ k ht hk
    · rw [step_pc_other _ _ _ hu] at hk
      exact h.served t k ht hk
  · obtain ⟨waiting,hr,hq⟩ := h.order
    refine ⟨waiting,by rw [htrace]; exact hr,?_⟩
    rw [htrace]
    simpa only [hholds] using hq

/-- A successful `stc` puts its thread at the end of the queue. Its link was fresh, so the count it
stores is the successor of the one in memory. -/
theorem lockInv_reserve {s : State ι LockWord Pc (Event ι)} (h : LockInv s)
    (turn : Turn ι Choice) {form : AcquireForm} {loaded : ℕ}
    (hpc : s.pc turn.thread=.condCount form loaded)
    (hlink : holdsLink s turn.thread turn.lose .ticketCount=true) :
    LockInv (step (lockProgram ι) s turn) := by
  have hl : s.word .ticketCount=loaded := by
    refine h.fresh turn.thread .ticketCount loaded (by rw [hpc]; rfl) ?_
    simp only [holdsLink,Bool.and_eq_true,decide_eq_true_eq] at hlink
    exact hlink.2
  have hnext : (step (lockProgram ι) s turn).pc turn.thread=
      .pollTicket form ((loaded+1)%wordSize) := by
    rw [step_pc_self]
    simp only [lockProgram,hpc,access,result,hlink,if_true,next]
  have hout : phaseOf (s.pc turn.thread)=.outside := by rw [hpc]; rfl
  have htrace : (step (lockProgram ι) s turn).trace=.reserve turn.thread::s.trace := by
    simp only [step,lockProgram,hpc,access,result,hlink,if_true,emit]
  have hcount : (step (lockProgram ι) s turn).word .ticketCount=(loaded+1)%wordSize := by
    simp only [step_word,lockProgram,hpc,access,written,hlink,if_true,applyWrite_self]
  have hpoll : (step (lockProgram ι) s turn).word .ticketPoll=s.word .ticketPoll := by
    simp [step_word,lockProgram,hpc,access,written,hlink,applyWrite]
  have hholds : ∀ t, ((step (lockProgram ι) s turn).pc t).holds=(s.pc t).holds := by
    intro t
    by_cases hu : t=turn.thread
    · subst hu
      rw [hnext,hpc]
      rfl
    · rw [step_pc_other _ _ _ hu]
  refine ⟨?_,linkFresh_step reserving turn h.fresh,?_,?_⟩
  · rw [htrace,hcount,hpoll,phase_step,hnext,←hl]
    exact h.ticket.reserve hout
  · intro t k ht hk
    rw [hholds] at ht
    rw [hpoll]
    by_cases hu : t=turn.thread
    · subst hu
      rw [hpc] at ht
      cases ht
    · rw [step_pc_other _ _ _ hu] at hk
      exact h.served t k ht hk
  · obtain ⟨waiting,hr,hq⟩ := h.order
    refine ⟨waiting++[turn.thread],?_,?_⟩
    · rw [htrace]
      simp only [reservations,grants,hr,List.append_assoc]
    · rw [htrace]
      simp only [queueOf,hholds]
      rcases hq with ⟨hq,hnone⟩|⟨t,ht,hq⟩
      · exact .inl ⟨by rw [hq],hnone⟩
      · exact .inr ⟨t,ht,by rw [hq,List.cons_append]⟩

/-- A poll that returns the own ticket grants the lock to the front waiter: only the ticket at the
front is equal to the poll word. -/
theorem lockInv_grant [Fintype ι] (hcard : Fintype.card ι<wordSize)
    {s : State ι LockWord Pc (Event ι)} (h : LockInv s) (turn : Turn ι Choice)
    {form : AcquireForm} (hpc : s.pc turn.thread=.pollTicket form (s.word .ticketPoll)) :
    LockInv (step (lockProgram ι) s turn) := by
  have hphase : phaseOf (s.pc turn.thread)=.waiting (s.word .ticketPoll) := by rw [hpc]; rfl
  have hfront := h.ticket.front_of_served hcard hphase
  have hnext : (step (lockProgram ι) s turn).pc turn.thread=
      .critical (s.word .ticketPoll) := by
    rw [step_pc_self]
    simp only [lockProgram,hpc,access,result,if_true,next]
  have htrace : (step (lockProgram ι) s turn).trace=.grant turn.thread::s.trace := by
    simp only [step,lockProgram,hpc,access,result,if_true,emit]
  have hword : (step (lockProgram ι) s turn).word=s.word := by
    simp only [step_word,lockProgram,hpc,access,written,applyWrite_none]
  -- the front of the queue only waits, so nobody held the lock before
  have hnone : ∀ t, (s.pc t).holds=false := by
    intro t
    by_contra hown
    have ht := h.ticket.front t (by
      rw [owns_phaseOf]
      exact Bool.eq_true_of_not_eq_false hown)
    rw [hfront] at ht
    rw [←Option.some.inj ht,hpc] at hown
    exact hown rfl
  refine ⟨?_,linkFresh_step reserving turn h.fresh,?_,?_⟩
  · rw [htrace,hword,phase_step,hnext]
    exact h.ticket.grant hcard hphase (.inr rfl)
  · intro t k ht hk
    by_cases hu : t=turn.thread
    · subst hu
      rw [hnext] at hk
      rw [hword]
      exact (Option.some.inj hk).symm
    · rw [step_pc_other _ _ _ hu,hnone t] at ht
      cases ht
  · obtain ⟨waiting,hr,hq⟩ := h.order
    rcases hq with ⟨hq,_⟩|⟨t,ht,_⟩
    · obtain ⟨rest,hrest⟩ := List.head?_eq_some_iff.mp hfront
      refine ⟨rest,?_,.inr ⟨turn.thread,by rw [hnext]; rfl,?_⟩⟩
      · rw [htrace]
        simp only [reservations,grants]
        rw [hr,←hq,hrest,List.append_assoc,List.singleton_append]
      · rw [htrace]
        exact hrest
    · rw [hnone t] at ht
      cases ht

/-- The load of a release sees the ticket being served, which nobody else changes before the
store. -/
theorem lockInv_loadPoll {s : State ι LockWord Pc (Event ι)} (h : LockInv s)
    (turn : Turn ι Choice) {form : ReleaseForm} {ticket : ℕ}
    (hpc : s.pc turn.thread=.loadPoll form ticket) :
    LockInv (step (lockProgram ι) s turn) := by
  have hown : (phaseOf (s.pc turn.thread)).owns=true := by rw [hpc]; rfl
  have hnext : (step (lockProgram ι) s turn).pc turn.thread=
      .storePoll form ticket (s.word .ticketPoll) := by
    rw [step_pc_self]
    simp only [lockProgram,hpc,access,result,next]
  have htrace : (step (lockProgram ι) s turn).trace=s.trace := by
    simp only [step,lockProgram,hpc,emit]
  have hword : (step (lockProgram ι) s turn).word=s.word := by
    simp only [step_word,lockProgram,hpc,access,written,applyWrite_none]
  have hholds : ∀ t, ((step (lockProgram ι) s turn).pc t).holds=(s.pc t).holds := by
    intro t
    by_cases hu : t=turn.thread
    · subst hu
      rw [hnext,hpc]
      rfl
    · rw [step_pc_other _ _ _ hu]
  refine ⟨?_,linkFresh_step reserving turn h.fresh,?_,?_⟩
  · rw [htrace,hword,phase_step,hnext]
    exact h.ticket.own (h.ticket.front _ hown) (.inr (.inr rfl))
  · intro t k ht hk
    rw [hholds] at ht
    rw [hword]
    by_cases hu : t=turn.thread
    · subst hu
      rw [hnext] at hk
      exact h.served _ k ht (by rw [hpc]; exact hk)
    · rw [step_pc_other _ _ _ hu] at hk
      exact h.served t k ht hk
  · obtain ⟨waiting,hr,hq⟩ := h.order
    refine ⟨waiting,by rw [htrace]; exact hr,?_⟩
    rw [htrace]
    simpa only [hholds] using hq

/-- Either store of a release serves the next ticket, whether the value was computed from the poll
word or kept from the acquire. -/
theorem lockInv_release {s : State ι LockWord Pc (Event ι)} (h : LockInv s)
    (turn : Turn ι Choice) (hown : (s.pc turn.thread).holds=true)
    (haccess : access (s.pc turn.thread)=.store .ticketPoll ((s.word .ticketPoll+1)%wordSize))
    (hnext : (step (lockProgram ι) s turn).pc turn.thread=.outside)
    (htrace : (step (lockProgram ι) s turn).trace=.release turn.thread::s.trace) :
    LockInv (step (lockProgram ι) s turn) := by
  have hphase : (phaseOf (s.pc turn.thread)).owns=true := by rw [owns_phaseOf,hown]
  have hcount : (step (lockProgram ι) s turn).word .ticketCount=s.word .ticketCount := by
    simp [step_word,lockProgram,haccess,written,applyWrite_some]
  have hpoll : (step (lockProgram ι) s turn).word .ticketPoll=
      (s.word .ticketPoll+1)%wordSize := by
    simp only [step_word,lockProgram,haccess,written,applyWrite_some,Function.update_self]
  have hnone : ∀ t, ((step (lockProgram ι) s turn).pc t).holds=false := by
    intro t
    by_cases hu : t=turn.thread
    · subst hu
      rw [hnext]
      rfl
    · rw [step_pc_other _ _ _ hu]
      by_contra ht
      refine hu (h.ticket.exclusive ?_ hphase)
      rw [owns_phaseOf]
      exact Bool.eq_true_of_not_eq_false ht
  refine ⟨?_,linkFresh_step reserving turn h.fresh,?_,?_⟩
  · rw [htrace,hcount,hpoll,phase_step,hnext]
    exact h.ticket.release hphase
  · intro t k ht _
    rw [hnone t] at ht
    cases ht
  · obtain ⟨waiting,hr,hq⟩ := h.order
    have hf := h.ticket.front _ hphase
    rcases hq with ⟨_,hfree⟩|⟨t,_,hq⟩
    · rw [hfree] at hown
      cases hown
    · refine ⟨waiting,?_,.inl ⟨?_,hnone⟩⟩
      · rw [htrace]
        exact hr
      · rw [htrace]
        simp only [queueOf,hq,List.tail_cons]

/-- Every turn of every thread keeps the invariant, whatever acquire and release sequences the
threads use. -/
theorem lockInv_step [Fintype ι] (hcard : Fintype.card ι<wordSize)
    {s : State ι LockWord Pc (Event ι)} (h : LockInv s) (turn : Turn ι Choice) :
    LockInv (step (lockProgram ι) s turn) := by
  cases hpc : s.pc turn.thread with
  | outside =>
    cases hc : turn.choice <;> refine lockInv_quiet h turn ?_ ?_ ?_ ?_ <;>
      simp [step,lockProgram,hpc,hc,access,written,emit,next,phaseOf,Pc.ticket?]
  | loadCount form =>
    refine lockInv_quiet h turn ?_ ?_ ?_ ?_ <;>
      simp [step,lockProgram,hpc,access,written,emit,next,phaseOf,Pc.ticket?]
  | condCount form loaded =>
    cases hl : holdsLink s turn.thread turn.lose .ticketCount with
    | true => exact lockInv_reserve h turn hpc hl
    | false =>
      refine lockInv_quiet h turn ?_ ?_ ?_ ?_ <;>
        simp [step,lockProgram,hpc,access,written,result,hl,applyWrite,emit,next,phaseOf,
          Pc.ticket?]
  | pollTicket form ticket =>
    by_cases ht : s.word .ticketPoll=ticket
    · exact lockInv_grant hcard h turn (by rw [ht]; exact hpc)
    · refine lockInv_quiet h turn ?_ ?_ ?_ ?_ <;>
        simp [step,lockProgram,hpc,access,written,result,ht,applyWrite,emit,next]
  | critical ticket =>
    cases hc : turn.choice with
    | stay =>
      refine lockInv_quiet h turn ?_ ?_ ?_ ?_ <;>
        simp [step,lockProgram,hpc,hc,access,written,emit,next]
    | acquire form =>
      refine lockInv_quiet h turn ?_ ?_ ?_ ?_ <;>
        simp [step,lockProgram,hpc,hc,access,written,emit,next]
    | release form =>
      cases form <;> refine lockInv_quiet h turn ?_ ?_ ?_ ?_ <;>
        simp [step,lockProgram,hpc,hc,access,written,emit,next,startRelease,
          phaseOf,Pc.ticket?]
  | loadPoll form ticket => exact lockInv_loadPoll h turn hpc
  | storePoll form ticket loaded =>
    have hk : loaded=s.word .ticketPoll :=
      h.ticket.loaded turn.thread loaded (by rw [hpc]; rfl)
    refine lockInv_release h turn (by rw [hpc]; rfl) (by rw [hpc,←hk]; rfl) ?_ ?_ <;>
      simp [step,lockProgram,hpc,emit,next]
  | storeTicket form ticket =>
    have hk : ticket=s.word .ticketPoll :=
      h.ticket.kept turn.thread ticket (by rw [hpc]; rfl)
    refine lockInv_release h turn (by rw [hpc]; rfl) (by rw [hpc,←hk]; rfl) ?_ ?_ <;>
      simp [step,lockProgram,hpc,emit,next]

/-- The invariant holds in every state of every interleaving. -/
theorem lockInv_reachable [Fintype ι] (hcard : Fintype.card ι<wordSize)
    {allowed : State ι LockWord Pc (Event ι) → Turn ι Choice → Prop}
    {s : State ι LockWord Pc (Event ι)}
    (hs : Reachable (lockProgram ι) (initial ι) allowed s) : LockInv s :=
  hs.invariant lockInv_initial fun _ turn _ _ h => lockInv_step hcard h turn

/-- The thread whose next poll returns its own ticket. In every reached state it is the only one
that waits and can go on. -/
def CanProceed (s : State ι LockWord Pc (Event ι)) (t : ι) : Prop :=
  (s.pc t).waits=true ∧ ∀ c lose,
    ((step (lockProgram ι) s ⟨t,c,lose⟩).pc t).holds=true

/-- A waiter proceeds exactly when its ticket is being served. -/
theorem canProceed_iff (s : State ι LockWord Pc (Event ι)) (t : ι) :
    CanProceed s t ↔ phaseOf (s.pc t)=.waiting (s.word .ticketPoll) := by
  unfold CanProceed
  cases hpc : s.pc t with
  | pollTicket form ticket =>
    by_cases ht : s.word .ticketPoll=ticket
    · simp [step,lockProgram,hpc,access,result,next,ht,Pc.waits,Pc.holds,phaseOf]
    · have ht' : ticket≠s.word .ticketPoll := fun he => ht he.symm
      simp [step,lockProgram,hpc,access,result,next,ht,ht',Pc.waits,Pc.holds,phaseOf]
  | _ => simp [Pc.waits,phaseOf]

/-- The lock of a local task queue in every reachable state of every
interleaving, for any mix of its acquire and release sequences and any number
of increments of the 32-bit words: at most one thread is between acquire and
release; grants follow the order of the increments; the poll word is the ticket
of the holder or, without one, the ticket of the next thread to be granted,
queued or not; and if some thread waits while nobody holds the lock, exactly
one waiter can proceed. -/
theorem ltq_ticket_lock [Fintype ι] (hcard : Fintype.card ι<2^32)
    {s : State ι LockWord Pc (Event ι)}
    (hs : Reachable (lockProgram ι) (initial ι) (fun _ _ => True) s) :
    (∀ t u, (s.pc t).holds=true → (s.pc u).holds=true → t=u) ∧
    grants s.trace <+: reservations s.trace ∧
    (∀ t, (s.pc t).holds=true → (s.pc t).ticket? =some (s.word .ticketPoll)) ∧
    ((∀ t, (s.pc t).holds=false) → ∀ t rest,
      reservations s.trace=grants s.trace++t::rest →
      (s.pc t).ticket? =some (s.word .ticketPoll)) ∧
    (reservations s.trace=grants s.trace → (∀ t, (s.pc t).holds=false) →
      s.word .ticketPoll=(s.word .ticketCount+1)%2^32) ∧
    ((∃ t, (s.pc t).waits=true) → (∀ t, (s.pc t).holds=false) → ∃! t, CanProceed s t) := by
  have h := lockInv_reachable hcard hs
  obtain ⟨waiting,hr,hq⟩ := h.order
  have hqueue : (∀ t, (s.pc t).holds=false) → queueOf s.trace=waiting := by
    intro hnone
    rcases hq with ⟨hq,_⟩|⟨t,ht,_⟩
    · exact hq
    · rw [hnone t] at ht
      cases ht
  refine ⟨?_,?_,?_,?_,?_,?_⟩
  · intro t u ht hu
    refine h.ticket.exclusive ?_ ?_ <;> rw [owns_phaseOf] <;> assumption
  · rw [hr]
    exact List.prefix_append _ _
  · intro t ht
    obtain ⟨k,hk⟩ := ticket_of_holds ht
    rw [hk,h.served t k ht hk]
  · intro hnone t rest he
    have hw : waiting=t::rest := List.append_cancel_left (hr.symm.trans he)
    have hf : (queueOf s.trace).head? =some t := by rw [hqueue hnone,hw]; rfl
    have hp := h.ticket.served_of_front hf (by rw [owns_phaseOf]; exact hnone t)
    cases hpc : s.pc t <;> simp only [hpc,phaseOf] at hp <;> cases hp
    rfl
  · intro he hnone
    have hw : waiting=[] := List.append_cancel_left ((hr.symm.trans he).trans
      (List.append_nil _).symm)
    have hc := h.ticket.count_eq
    have hlt := h.ticket.poll_lt
    rw [hqueue hnone,hw,List.length_nil,Nat.add_zero] at hc
    rw [hc,Nat.mod_add_mod]
    have hsum : s.word .ticketPoll+(wordSize-1)+1=s.word .ticketPoll+wordSize := by
      simp only [wordSize]
      omega
    rw [hsum,Nat.add_mod_right,Nat.mod_eq_of_lt hlt]
  · rintro ⟨u,hu⟩ hnone
    have hmem : u∈queueOf s.trace := by
      refine (h.ticket.queued u).mpr ?_
      cases hpc : s.pc u <;> rw [hpc] at hu <;> cases hu
      exact fun hc => by cases hc
    obtain ⟨t,rest,hf⟩ := List.exists_cons_of_ne_nil (List.ne_nil_of_mem hmem)
    refine ⟨t,?_,?_⟩
    · exact (canProceed_iff s t).mpr (h.ticket.served_of_front (by rw [hf]; rfl)
        (by rw [owns_phaseOf]; exact hnone t))
    · intro v hv
      have hfv := h.ticket.front_of_served hcard ((canProceed_iff s v).mp hv)
      rw [hf] at hfv
      exact (Option.some.inj hfv).symm

/-- Thread 0 takes and releases the lock by one form each while thread 1 reserves. -/
def handover : List (Turn (Fin 3) Choice) :=
  [⟨0,.acquire .dequeueFast,false⟩,⟨0,.stay,false⟩,⟨0,.stay,false⟩,⟨0,.stay,false⟩,
    ⟨1,.acquire .localLockAcquire,false⟩,⟨1,.stay,false⟩,⟨1,.stay,false⟩,
    ⟨0,.release .localLockRelease,false⟩,⟨0,.stay,false⟩,⟨0,.stay,false⟩]

/-- After the handover only the waiting thread 1 can proceed. The third thread has reserved nothing
yet. -/
theorem ltq_ticket_lock_handover :
    Fintype.card (Fin 3)<2^32 ∧
    ∃! t, CanProceed (run (lockProgram (Fin 3)) (initial (Fin 3)) handover) t :=
  ⟨by decide,(ltq_ticket_lock (by decide)
    (Reachable.of_run .init handover fun _ _ _ _ => trivial)).2.2.2.2.2
      ⟨1,by decide⟩ (by decide)⟩

end Lock

end RigelTarget.LtqTicketLock
