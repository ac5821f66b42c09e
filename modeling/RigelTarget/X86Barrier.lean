import RigelTarget.SharedMemory
import RigelTarget.CombiningBarrier

/-!
# The barrier of the emulated cores

`rtmx86_enter_barrier` flips the sense of its core, counts the core under a mutex and spins
until the global sense is its own. The core that completes the count resets it and stores its
sense before it releases the mutex, so another core can return and enter again while the
count is being released and slow cores still spin. The cores are the members of a combining
barrier with one cluster: the reset of the count is the step that counts the cluster.
-/

namespace RigelTarget.X86Barrier

open SharedMemory CombiningBarrier

/-- Shared words of the barrier: the mutex, the count and the sense. The sense of a core is private
and part of its local state. -/
inductive Loc where
  /-- `rtmx86_barrier_count_mutex`: 1 while it is held. -/
  | mutex
  /-- `rtmx86_barrier_count`. -/
  | count
  /-- `rtmx86_barrier_global_sense`. -/
  | globalSense
  deriving DecidableEq

/-- The next access of a core. The increment of the count is a load and a store, and the comparison
loads it again. -/
inductive Pc where
  /-- Outside the barrier. -/
  | outside
  /-- `pthread_mutex_lock`, which waits while the mutex is held. -/
  | lock
  /-- Load of the count for its increment. -/
  | loadCount
  /-- Store of the loaded count plus one. -/
  | storeCount (v : ℕ)
  /-- Load of the count for the comparison with `CORES_TOTAL`; the core stored `v`. -/
  | test (v : ℕ)
  /-- Reset of the count. -/
  | reset
  /-- Store of the sense that wakes the other cores. -/
  | wake
  /-- `pthread_mutex_unlock`. -/
  | unlock
  /-- The spin loop on the global sense. -/
  | spin
  deriving DecidableEq

/-- A core: its next access, its word of `rtmx86_barrier_local_sense`, and its calls and
returns so far. -/
structure Local where
  /-- The next access. -/
  pc : Pc
  /-- `rtmx86_barrier_local_sense`, which no other core touches. -/
  sense : ℕ
  /-- Calls that have begun. -/
  begun : ℕ
  /-- Calls that have returned. -/
  returned : ℕ
  deriving DecidableEq

/-- The access of a core. -/
def access (l : Local) : Access Loc :=
  match l.pc with
  | .outside => .skip
  | .lock => .rmw .mutex fun _ => 1
  | .loadCount => .load .count
  | .storeCount v => .store .count (v+1)
  | .test _ => .load .count
  | .reset => .store .count 0
  | .wake => .store .globalSense l.sense
  | .unlock => .store .mutex 0
  | .spin => .load .globalSense

/-- The local state after an access. A core outside may begin a call, which flips its sense; the
others go through the mutex, and the last one to arrive stores the sense. -/
def next (coresTotal : ℕ) (l : Local) (call : Bool) (r : ℕ) : Local :=
  match l.pc with
  | .outside =>
    if call=true then ⟨.lock,if l.sense=0 then 1 else 0,l.begun+1,l.returned⟩ else l
  | .lock => if r=0 then { l with pc := .loadCount } else l
  | .loadCount => { l with pc := .storeCount r }
  | .storeCount v => { l with pc := .test (v+1) }
  | .test _ => { l with pc := if r=coresTotal then .reset else .unlock }
  | .reset => { l with pc := .wake }
  | .wake => { l with pc := .unlock }
  | .unlock => { l with pc := .spin }
  | .spin => if r=l.sense then { l with pc := .outside, returned := l.returned+1 } else l

/-- The emulated cores. -/
def program (coresTotal : ℕ) : Program (Fin coresTotal) Loc Local Bool Unit where
  access _ l := access l
  next _ l call r := next coresTotal l call r
  emit _ _ _ _ := none

/-- States of the cores and the barrier. -/
abbrev BState (coresTotal : ℕ) := State (Fin coresTotal) Loc Local Unit

/-- Turns of the cores. -/
abbrev BTurn (coresTotal : ℕ) := Turn (Fin coresTotal) Bool

/-- The state after `X86_TASK_MODEL_INIT`, with every core outside the barrier. -/
def initial (coresTotal : ℕ) : BState coresTotal :=
  ⟨fun _ => 0,fun _ => none,fun _ => ⟨.outside,0,0,0⟩,[]⟩

/-- The stage of a core in the episode after `E` completed ones. The emulated cores are one cluster
of a combining barrier. -/
def stage (n E : ℕ) (l : Local) : Stage :=
  match l.pc with
  | .test v => if v=n then .counting else .waiting
  | .reset => .counting
  | .wake => .waking
  | .unlock => if l.returned=E then .waiting else .away
  | .spin => if l.returned=E then .waiting else .away
  | _ => .away

/-- Whether a core holds the mutex. -/
def inside : Pc → Bool
  | .outside => false
  | .lock => false
  | .spin => false
  | _ => true

/-- The calls, the returns and the sense of a core after `E` completed episodes. -/
def RegOk (E : ℕ) (l : Local) : Prop :=
  l.sense=l.begun%2 ∧ match l.pc with
  | .outside => l.begun=E ∧ l.returned=E
  | .unlock => l.begun=l.returned+1 ∧ (l.returned=E ∨ l.returned+1=E)
  | .spin => l.begun=l.returned+1 ∧ (l.returned=E ∨ l.returned+1=E)
  | _ => l.begun=E+1 ∧ l.returned=E

/-- What the holder of the mutex knows about the count: it is in its register, and nobody else
stores into it. -/
def CountOk (count : ℕ) : Pc → Prop
  | .storeCount v => count=v
  | .test v => count=v
  | _ => True

/-- The barrier after `E` completed episodes: the mutex excludes, the count is the number of
arrivals, and the senses are the parities of the episodes. -/
structure BarInv {n : ℕ} (E arrivals counted : ℕ) (s : BState n) : Prop where
  /-- The cores are the members of a combining barrier with one cluster. -/
  barrier : Inv (C := Unit) (fun p : Unit×Fin n => stage n E (s.pc p.2)) (fun _ => arrivals)
    counted
  /-- The sense of the last completed episode. -/
  done : s.word .globalSense=E%2
  /-- The count of arrivals, until it is reset. -/
  count : s.word .count=if counted=0 then arrivals else 0
  /-- Calls, returns and senses. -/
  regs : ∀ t, RegOk E (s.pc t)
  /-- A free mutex has no holder. -/
  free : s.word .mutex=0 → ∀ t, inside (s.pc t).pc=false
  /-- The mutex has one holder. -/
  holder : ∀ t u, inside (s.pc t).pc=true → inside (s.pc u).pc=true → t=u
  /-- The count that the holder has read or stored. -/
  known : ∀ t, CountOk (s.word .count) (s.pc t).pc

/-- The barrier after its initialisation. -/
theorem barInv_initial {n : ℕ} (hn : 0<n) : BarInv 0 0 0 (initial n) := by
  have : Nonempty (Fin n) := ⟨⟨0,hn⟩⟩
  exact ⟨Inv.idle fun _ => rfl,rfl,rfl,fun _ => ⟨rfl,rfl,rfl⟩,fun _ _ => rfl,
    (fun _ _ h => by cases h),fun _ => trivial⟩

/-- A core outside the critical section knows nothing about the count. -/
theorem countOk_of_outside {v : ℕ} {pc : Pc} (h : inside pc=false) : CountOk v pc := by
  cases pc with
  | storeCount w => cases h
  | test w => cases h
  | _ => trivial

section Step

variable {n E arrivals counted : ℕ} {s : BState n} {turn : BTurn n}

/-- A turn changes the stage of its core only. -/
theorem stage_step : (fun p : Unit×Fin n => stage n E ((step (program n) s turn).pc p.2))=
    Function.update (fun p : Unit×Fin n => stage n E (s.pc p.2)) ((),turn.thread)
      (stage n E ((step (program n) s turn).pc turn.thread)) := by
  funext p
  obtain ⟨c,t⟩ := p
  by_cases ht : t=turn.thread
  · subst ht
    rw [Function.update_self]
  · rw [Function.update_of_ne (fun he => ht (Prod.mk.inj he).2)]
    show stage n E ((step (program n) s turn).pc t)=stage n E (s.pc t)
    rw [step_pc_other _ _ _ ht]

/-- The registers after a turn. -/
theorem BarInv.regs_step (h : BarInv E arrivals counted s)
    (hreg : RegOk E ((step (program n) s turn).pc turn.thread)) :
    ∀ t, RegOk E ((step (program n) s turn).pc t) :=
  step_pc_forall (Q := fun _ l => RegOk E l) _ _ _ hreg fun t _ => h.regs t

/-- The holder of the mutex is alone in the critical section. -/
theorem BarInv.alone (h : BarInv E arrivals counted s) {t u : Fin n}
    (ht : inside (s.pc t).pc=true) (hu : u≠t) : inside (s.pc u).pc=false := by
  cases hin : inside (s.pc u).pc with
  | false => rfl
  | true => exact absurd (h.holder u t hin ht) hu

/-- A held mutex is not free. -/
theorem BarInv.held (h : BarInv E arrivals counted s) {t : Fin n}
    (ht : inside (s.pc t).pc=true) : s.word .mutex≠0 := by
  intro h0
  rw [h.free h0 t] at ht
  cases ht

/-- The mutex after a turn: its core is the holder only if nobody else is, and the mutex is free
only if nobody holds it. -/
theorem BarInv.mutex_step (hin : inside ((step (program n) s turn).pc turn.thread).pc=true →
      ∀ u, u≠turn.thread → inside (s.pc u).pc=false)
    (hfree : (step (program n) s turn).word .mutex=0 →
      inside ((step (program n) s turn).pc turn.thread).pc=false ∧
        ∀ u, u≠turn.thread → inside (s.pc u).pc=false) (h : BarInv E arrivals counted s) :
    ((step (program n) s turn).word .mutex=0 →
      ∀ t, inside ((step (program n) s turn).pc t).pc=false) ∧
    ∀ t u, inside ((step (program n) s turn).pc t).pc=true →
      inside ((step (program n) s turn).pc u).pc=true → t=u := by
  have hother : ∀ u, u≠turn.thread → inside ((step (program n) s turn).pc u).pc=true →
      inside (s.pc u).pc=true := by
    intro u hu hi
    rw [step_pc_other _ _ _ hu] at hi
    exact hi
  refine ⟨?_,?_⟩
  · intro h0
    obtain ⟨hself,hrest⟩ := hfree h0
    exact step_pc_forall (Q := fun _ (l : Local) => inside l.pc=false) _ _ _ hself hrest
  · intro t u ht hu
    by_cases htt : t=turn.thread
    · by_cases huu : u=turn.thread
      · rw [htt,huu]
      · rw [htt] at ht
        have hf := hin ht u huu
        rw [hother u huu hu] at hf
        cases hf
    · by_cases huu : u=turn.thread
      · rw [huu] at hu
        have hf := hin hu t htt
        rw [hother t htt ht] at hf
        cases hf
      · exact h.holder t u (hother t htt ht) (hother u huu hu)

/-- A holder that keeps the mutex. -/
theorem BarInv.mutex_keep (h : BarInv E arrivals counted s)
    (hin : inside (s.pc turn.thread).pc=true)
    (hword : (step (program n) s turn).word .mutex=s.word .mutex) :
    ((step (program n) s turn).word .mutex=0 →
      ∀ t, inside ((step (program n) s turn).pc t).pc=false) ∧
    ∀ t u, inside ((step (program n) s turn).pc t).pc=true →
      inside ((step (program n) s turn).pc u).pc=true → t=u := by
  refine BarInv.mutex_step (fun _ u hu => h.alone hin hu) (fun h0 => ?_) h
  rw [hword] at h0
  exact absurd h0 (h.held hin)

/-- What cores know about the count after a turn that leaves the count alone, or whose core
holds the mutex. -/
theorem BarInv.known_step (h : BarInv E arrivals counted s)
    (hcount : inside (s.pc turn.thread).pc=true ∨
      (step (program n) s turn).word .count=s.word .count)
    (hself : CountOk ((step (program n) s turn).word .count)
      ((step (program n) s turn).pc turn.thread).pc) :
    ∀ t, CountOk ((step (program n) s turn).word .count) ((step (program n) s turn).pc t).pc := by
  intro t
  by_cases ht : t=turn.thread
  · rw [ht]
    exact hself
  · rw [step_pc_other _ _ _ ht]
    rcases hcount with hin|hsame
    · exact countOk_of_outside (h.alone hin ht)
    · rw [hsame]
      exact h.known t

/-- A turn that changes neither the count, nor the sense, nor the stage of its core. The registers
and the mutex are still to be shown. -/
theorem BarInv.quiet (h : BarInv E arrivals counted s)
    (hcount : (step (program n) s turn).word .count=s.word .count)
    (hsense : (step (program n) s turn).word .globalSense=s.word .globalSense)
    (hstage : stage n E ((step (program n) s turn).pc turn.thread)=stage n E (s.pc turn.thread))
    (hreg : RegOk E ((step (program n) s turn).pc turn.thread))
    (hmutex : ((step (program n) s turn).word .mutex=0 →
        ∀ t, inside ((step (program n) s turn).pc t).pc=false) ∧
      ∀ t u, inside ((step (program n) s turn).pc t).pc=true →
        inside ((step (program n) s turn).pc u).pc=true → t=u)
    (hknown : CountOk (s.word .count) ((step (program n) s turn).pc turn.thread).pc) :
    BarInv E arrivals counted (step (program n) s turn) := by
  refine ⟨?_,?_,?_,h.regs_step hreg,hmutex.1,hmutex.2,h.known_step (.inr hcount) ?_⟩
  · rw [stage_step,hstage]
    have hself := Function.update_eq_self ((),turn.thread)
      (fun p : Unit×Fin n => stage n E (s.pc p.2))
    rw [hself]
    exact h.barrier
  · rw [hsense]
    exact h.done
  · rw [hcount]
    exact h.count
  · rw [hcount]
    exact hknown

/-- While a core has not arrived the cluster is not counted. -/
theorem BarInv.counted_zero (h : BarInv E arrivals counted s) {t : Fin n}
    (ht : stage n E (s.pc t)=.away) : counted=0 := by
  rw [h.barrier.counted,Finset.card_eq_zero,Finset.eq_empty_iff_forall_notMem]
  intro c hc
  exact (mem_complete.1 hc).1 t ht

/-- The store of the incremented count is the arrival of its core. No other core is between its load
and its store, because both happen under the mutex. -/
theorem BarInv.arrive {v : ℕ} (h : BarInv E arrivals counted s)
    (hpc : (s.pc turn.thread).pc=.storeCount v) :
    BarInv E (arrivals+1) counted (step (program n) s turn) := by
  have hreg := h.regs turn.thread
  have hknown := h.known turn.thread
  cases hl : s.pc turn.thread with
  | mk pc sense begun returned =>
    rw [hl] at hpc hreg hknown
    change pc=.storeCount v at hpc
    subst hpc
    change s.word .count=v at hknown
    obtain ⟨hpc',hword,-⟩ := step_at (program n) s turn hl
    change (step (program n) s turn).pc turn.thread=⟨.test (v+1),sense,begun,returned⟩ at hpc'
    change (step (program n) s turn).word=applyWrite s.word (some (.count,v+1)) at hword
    have hin : inside (s.pc turn.thread).pc=true := by
      rw [hl]
      rfl
    have haway : stage n E (s.pc turn.thread)=.away := by
      rw [hl]
      rfl
    have hcounted := h.counted_zero haway
    have hv : v=arrivals := by
      rw [←hknown,h.count,if_pos hcounted]
    have hmutex := h.mutex_keep hin (by
      rw [hword,applyWrite_keep (fun v he => by cases he)])
    refine ⟨?_,?_,?_,h.regs_step ?_,hmutex.1,hmutex.2,h.known_step (.inl hin) ?_⟩
    · have hnew : stage n E ((step (program n) s turn).pc turn.thread)=
          arrivedStage (Fin n) (arrivals+1) := by
        rw [hpc',arrivedStage,Fintype.card_fin,←hv]
        rfl
      rw [stage_step,hnew]
      have hinv := h.barrier.arrive (c := ()) (j := turn.thread) haway
      have hconst : Function.update (fun _ : Unit => arrivals) () (arrivals+1)=
          fun _ => arrivals+1 := funext fun _ => rfl
      rw [hconst] at hinv
      exact hinv
    · rw [hword,applyWrite_keep (fun v he => by cases he)]
      exact h.done
    · rw [hword,applyWrite_self,if_pos hcounted,hv]
    · rw [hpc']
      exact hreg
    · rw [hword,applyWrite_self,hpc']
      rfl

/-- The reset of the count counts the cluster. The core that resets it is the last to arrive, and
nobody else is inside. -/
theorem BarInv.count_step (h : BarInv E arrivals counted s) (hpc : (s.pc turn.thread).pc=.reset) :
    BarInv E arrivals (counted+1) (step (program n) s turn) := by
  have hreg := h.regs turn.thread
  cases hl : s.pc turn.thread with
  | mk pc sense begun returned =>
    rw [hl] at hpc hreg
    change pc=.reset at hpc
    subst hpc
    obtain ⟨hpc',hword,-⟩ := step_at (program n) s turn hl
    change (step (program n) s turn).pc turn.thread=⟨.wake,sense,begun,returned⟩ at hpc'
    change (step (program n) s turn).word=applyWrite s.word (some (.count,0)) at hword
    have hin : inside (s.pc turn.thread).pc=true := by
      rw [hl]
      rfl
    have hcounting : stage n E (s.pc turn.thread)=.counting := by
      rw [hl]
      rfl
    have hroom := h.barrier.room_counted (c := ()) (j := turn.thread) hcounting
    rw [Fintype.card_unit] at hroom
    have hmutex := h.mutex_keep hin (by
      rw [hword,applyWrite_keep (fun v he => by cases he)])
    refine ⟨?_,?_,?_,h.regs_step ?_,hmutex.1,hmutex.2,h.known_step (.inl hin) ?_⟩
    · have hnew : stage n E ((step (program n) s turn).pc turn.thread)=
          countedStage Unit (counted+1) := by
        rw [hpc',countedStage,Fintype.card_unit,if_pos (by omega)]
        rfl
      rw [stage_step,hnew]
      exact h.barrier.count (c := ()) (j := turn.thread) hcounting
    · rw [hword,applyWrite_keep (fun v he => by cases he)]
      exact h.done
    · rw [hword,applyWrite_self,if_neg (Nat.succ_ne_zero counted)]
    · rw [hpc']
      exact hreg
    · rw [hpc']
      trivial

/-- A waiting core that is not in the critical section spins on the current episode. -/
theorem stage_waiting {l : Local} (h : stage n E l=.waiting) (hin : inside l.pc=false) :
    l.pc=.spin ∧ l.returned=E := by
  obtain ⟨pc,sense,begun,returned⟩ := l
  cases pc with
  | spin =>
    change (if returned=E then Stage.waiting else .away)=.waiting at h
    refine ⟨rfl,?_⟩
    by_contra hne
    rw [if_neg hne] at h
    cases h
  | outside => cases h
  | lock => cases h
  | _ => cases hin

/-- The store of the sense completes the episode, and the cores that spin are released by it.
Counting starts again in the next episode. -/
theorem BarInv.wake (h : BarInv E arrivals counted s) (hpc : (s.pc turn.thread).pc=.wake) :
    BarInv (E+1) 0 0 (step (program n) s turn) := by
  have hreg := h.regs turn.thread
  have : Nonempty (Fin n) := ⟨turn.thread⟩
  cases hl : s.pc turn.thread with
  | mk pc sense begun returned =>
    rw [hl] at hpc hreg
    change pc=.wake at hpc
    subst hpc
    obtain ⟨hpc',hword,-⟩ := step_at (program n) s turn hl
    change (step (program n) s turn).pc turn.thread=⟨.unlock,sense,begun,returned⟩ at hpc'
    change (step (program n) s turn).word=applyWrite s.word (some (.globalSense,sense)) at hword
    obtain ⟨hsense,hbegun,hret⟩ := hreg
    change sense=begun%2 at hsense
    change begun=E+1 at hbegun
    change returned=E at hret
    have hin : inside (s.pc turn.thread).pc=true := by
      rw [hl]
      rfl
    have hwaking : stage n E (s.pc turn.thread)=.waking := by
      rw [hl]
      rfl
    have hmutex := h.mutex_keep hin (by
      rw [hword,applyWrite_keep (fun v he => by cases he)])
    have hcounted := h.barrier.counted_iff.2 ⟨((),turn.thread),hwaking⟩
    rw [Fintype.card_unit] at hcounted
    -- the others spin on the episode that is complete
    have hspin : ∀ t, t≠turn.thread → (s.pc t).pc=.spin ∧ (s.pc t).returned=E := by
      intro t ht
      exact stage_waiting (h.barrier.others_wait (t := ((),turn.thread)) hwaking
        (u := ((),t)) (fun he => ht (Prod.mk.inj he).2)) (h.alone hin ht)
    refine ⟨Inv.idle ?_,?_,?_,?_,hmutex.1,hmutex.2,h.known_step (.inl hin) ?_⟩
    · rintro ⟨c,t⟩
      show stage n (E+1) ((step (program n) s turn).pc t)=.away
      by_cases ht : t=turn.thread
      · rw [ht,hpc']
        exact if_neg (show returned≠E+1 by omega)
      · obtain ⟨hp,hr⟩ := hspin t ht
        rw [step_pc_other _ _ _ ht]
        unfold stage
        rw [hp]
        exact if_neg (by omega)
    · rw [hword,applyWrite_self]
      omega
    · rw [hword,applyWrite_keep (fun v he => by cases he),h.count,if_neg (by omega),if_pos rfl]
    · intro t
      by_cases ht : t=turn.thread
      · rw [ht,hpc']
        exact ⟨hsense,by rw [hret]; exact hbegun,.inr (by rw [hret])⟩
      · obtain ⟨hp,hr⟩ := hspin t ht
        obtain ⟨hs,hreg⟩ := h.regs t
        rw [hp] at hreg
        rw [step_pc_other _ _ _ ht]
        refine ⟨hs,?_⟩
        rw [hp]
        exact ⟨hreg.1,.inr (by rw [hr])⟩
    · rw [hpc']
      trivial

/-- A core that was not in the critical section and does not enter it leaves the mutex. -/
theorem BarInv.mutex_stay (h : BarInv E arrivals counted s)
    (hout : inside ((step (program n) s turn).pc turn.thread).pc=false)
    (hword : (step (program n) s turn).word .mutex=s.word .mutex) :
    ((step (program n) s turn).word .mutex=0 →
      ∀ t, inside ((step (program n) s turn).pc t).pc=false) ∧
    ∀ t u, inside ((step (program n) s turn).pc t).pc=true →
      inside ((step (program n) s turn).pc u).pc=true → t=u := by
  refine BarInv.mutex_step (fun hin => ?_) (fun h0 => ⟨hout,fun u _ => ?_⟩) h
  · rw [hout] at hin
    cases hin
  · rw [hword] at h0
    exact h.free h0 u

/-- A core takes the mutex if it is free, and waits otherwise. No other core is inside when it is
free. -/
theorem BarInv.lock (h : BarInv E arrivals counted s) (hpc : (s.pc turn.thread).pc=.lock) :
    BarInv E arrivals counted (step (program n) s turn) := by
  have hreg := h.regs turn.thread
  cases hl : s.pc turn.thread with
  | mk pc sense begun returned =>
    rw [hl] at hpc hreg
    change pc=.lock at hpc
    subst hpc
    obtain ⟨hpc',hword,-⟩ := step_at (program n) s turn hl
    change (step (program n) s turn).pc turn.thread=(if s.word .mutex=0 then
      ⟨.loadCount,sense,begun,returned⟩ else ⟨.lock,sense,begun,returned⟩) at hpc'
    change (step (program n) s turn).word=applyWrite s.word (some (.mutex,1)) at hword
    have hheld : (step (program n) s turn).word .mutex=1 := by rw [hword,applyWrite_self]
    refine h.quiet ?_ ?_ ?_ ?_ (BarInv.mutex_step (fun hin => ?_) (fun h0 => ?_) h) ?_
    · rw [hword,applyWrite_keep (fun v he => by cases he)]
    · rw [hword,applyWrite_keep (fun v he => by cases he)]
    · rw [hpc',hl]
      split <;> rfl
    · rw [hpc']
      split
      · exact hreg
      · exact hreg
    · intro u _
      rw [hpc'] at hin
      by_cases h0 : s.word .mutex=0
      · exact h.free h0 u
      · rw [if_neg h0] at hin
        cases hin
    · rw [hheld] at h0
      cases h0
    · rw [hpc']
      split <;> trivial

/-- The comparison of the count with the number of cores. The count is what the core stored, since
it still holds the mutex. -/
theorem BarInv.test {v : ℕ} (h : BarInv E arrivals counted s)
    (hpc : (s.pc turn.thread).pc=.test v) :
    BarInv E arrivals counted (step (program n) s turn) := by
  have hreg := h.regs turn.thread
  have hknown := h.known turn.thread
  cases hl : s.pc turn.thread with
  | mk pc sense begun returned =>
    rw [hl] at hpc hreg hknown
    change pc=.test v at hpc
    subst hpc
    change s.word .count=v at hknown
    obtain ⟨hpc',hword,-⟩ := step_at (program n) s turn hl
    change (step (program n) s turn).pc turn.thread=
      ⟨if s.word .count=n then .reset else .unlock,sense,begun,returned⟩ at hpc'
    change (step (program n) s turn).word=s.word at hword
    rw [hknown] at hpc'
    obtain ⟨hsense,hbegun,hret⟩ := hreg
    change begun=E+1 at hbegun
    change returned=E at hret
    have hin : inside (s.pc turn.thread).pc=true := by
      rw [hl]
      rfl
    refine h.quiet (by rw [hword]) (by rw [hword]) ?_ ?_ (h.mutex_keep hin (by rw [hword])) ?_
    · rw [hpc',hl]
      by_cases hv : v=n
      · rw [if_pos hv]
        exact (if_pos hv).symm
      · rw [if_neg hv]
        exact (if_pos hret).trans (if_neg hv).symm
    · rw [hpc']
      split
      · exact ⟨hsense,hbegun,hret⟩
      · exact ⟨hsense,by rw [hret]; exact hbegun,.inl hret⟩
    · rw [hpc']
      split <;> trivial

/-- The release of the mutex. Its core goes on to the spin loop, also the one that has completed the
episode. -/
theorem BarInv.unlock (h : BarInv E arrivals counted s) (hpc : (s.pc turn.thread).pc=.unlock) :
    BarInv E arrivals counted (step (program n) s turn) := by
  have hreg := h.regs turn.thread
  cases hl : s.pc turn.thread with
  | mk pc sense begun returned =>
    rw [hl] at hpc hreg
    change pc=.unlock at hpc
    subst hpc
    obtain ⟨hpc',hword,-⟩ := step_at (program n) s turn hl
    change (step (program n) s turn).pc turn.thread=⟨.spin,sense,begun,returned⟩ at hpc'
    change (step (program n) s turn).word=applyWrite s.word (some (.mutex,0)) at hword
    have hin : inside (s.pc turn.thread).pc=true := by
      rw [hl]
      rfl
    refine h.quiet ?_ ?_ ?_ ?_ (BarInv.mutex_step (fun _ u hu => h.alone hin hu)
      (fun _ => ⟨?_,fun u hu => h.alone hin hu⟩) h) ?_
    · rw [hword,applyWrite_keep (fun v he => by cases he)]
    · rw [hword,applyWrite_keep (fun v he => by cases he)]
    · rw [hpc',hl]
      rfl
    · rw [hpc']
      exact hreg
    · rw [hpc']
      rfl
    · rw [hpc']
      trivial

/-- A core spins: it returns when its episode is complete. -/
theorem BarInv.spin (h : BarInv E arrivals counted s) (hpc : (s.pc turn.thread).pc=.spin) :
    BarInv E arrivals counted (step (program n) s turn) := by
  have hreg := h.regs turn.thread
  cases hl : s.pc turn.thread with
  | mk pc sense begun returned =>
    rw [hl] at hpc hreg
    change pc=.spin at hpc
    subst hpc
    obtain ⟨hpc',hword,-⟩ := step_at (program n) s turn hl
    change (step (program n) s turn).pc turn.thread=(if s.word .globalSense=sense then
      ⟨.outside,sense,begun,returned+1⟩ else ⟨.spin,sense,begun,returned⟩) at hpc'
    change (step (program n) s turn).word=s.word at hword
    obtain ⟨hsense,hbegun,hret⟩ := hreg
    change sense=begun%2 at hsense
    change begun=returned+1 at hbegun
    change returned=E ∨ returned+1=E at hret
    rw [h.done] at hpc'
    by_cases hdone : E%2=sense
    · have hold : returned+1=E := by omega
      rw [if_pos hdone] at hpc'
      refine h.quiet (by rw [hword]) (by rw [hword]) ?_ ?_
        (h.mutex_stay (by rw [hpc']; rfl) (by rw [hword])) ?_
      · rw [hpc',hl]
        exact (if_neg (show returned≠E by omega)).symm
      · rw [hpc']
        exact ⟨hsense,by rw [hbegun]; exact hold,hold⟩
      · rw [hpc']
        trivial
    · rw [if_neg hdone] at hpc'
      refine h.quiet (by rw [hword]) (by rw [hword]) (by rw [hpc',hl]) ?_
        (h.mutex_stay (by rw [hpc']; rfl) (by rw [hword])) ?_
      · rw [hpc']
        exact ⟨hsense,hbegun,hret⟩
      · rw [hpc']
        trivial

/-- Every turn keeps the barrier, possibly in the next episode, whichever cores call, spin or wait
for the mutex. -/
theorem barInv_step (h : BarInv E arrivals counted s) :
    ∃ E arrivals counted, BarInv E arrivals counted (step (program n) s turn) := by
  have hreg := h.regs turn.thread
  cases hl : s.pc turn.thread with
  | mk pc sense begun returned =>
    rw [hl] at hreg
    obtain ⟨hpc,hword,-⟩ := step_at (program n) s turn hl
    cases pc with
    | outside =>
      change (step (program n) s turn).word=s.word at hword
      change (step (program n) s turn).pc turn.thread=(if turn.choice=true then
        ⟨.lock,if sense=0 then 1 else 0,begun+1,returned⟩
        else ⟨.outside,sense,begun,returned⟩) at hpc
      obtain ⟨hsense,hbegun,hret⟩ := hreg
      change sense=begun%2 at hsense
      refine ⟨E,arrivals,counted,h.quiet (by rw [hword]) (by rw [hword]) ?_ ?_
        (h.mutex_stay ?_ (by rw [hword])) ?_⟩
      · rw [hpc,hl]
        split <;> rfl
      · rw [hpc]
        split
        · refine ⟨?_,congrArg (·+1) hbegun,hret⟩
          show (if sense=0 then 1 else 0)=(begun+1)%2
          split <;> omega
        · exact ⟨hsense,hbegun,hret⟩
      · rw [hpc]
        split <;> rfl
      · rw [hpc]
        split <;> trivial
    | lock => exact ⟨E,arrivals,counted,h.lock (by rw [hl])⟩
    | loadCount =>
      change (step (program n) s turn).word=s.word at hword
      change (step (program n) s turn).pc turn.thread=
        ⟨.storeCount (s.word .count),sense,begun,returned⟩ at hpc
      have hin : inside (s.pc turn.thread).pc=true := by
        rw [hl]
        rfl
      refine ⟨E,arrivals,counted,h.quiet (by rw [hword]) (by rw [hword]) ?_ ?_
        (h.mutex_keep hin (by rw [hword])) ?_⟩
      · rw [hpc,hl]
        rfl
      · rw [hpc]
        exact hreg
      · rw [hpc]
        rfl
    | storeCount v => exact ⟨E,arrivals+1,counted,h.arrive (by rw [hl])⟩
    | test v => exact ⟨E,arrivals,counted,h.test (by rw [hl])⟩
    | reset => exact ⟨E,arrivals,counted+1,h.count_step (by rw [hl])⟩
    | wake => exact ⟨E+1,0,0,h.wake (by rw [hl])⟩
    | unlock => exact ⟨E,arrivals,counted,h.unlock (by rw [hl])⟩
    | spin => exact ⟨E,arrivals,counted,h.spin (by rw [hl])⟩

/-- The calls and returns of every core are those of the current episode. So no core returns before
all have called. -/
theorem BarInv.episode (h : BarInv E arrivals counted s) (t : Fin n) :
    (s.pc t).returned≤E ∧ E≤(s.pc t).begun := by
  obtain ⟨-,hreg⟩ := h.regs t
  generalize s.pc t=l at hreg
  obtain ⟨pc,sense,begun,returned⟩ := l
  show returned≤E ∧ E≤begun
  cases pc with
  | outside =>
    obtain ⟨hb,hr⟩ := hreg
    change begun=E at hb
    change returned=E at hr
    omega
  | unlock =>
    obtain ⟨hb,hr⟩ := hreg
    change begun=returned+1 at hb
    change returned=E ∨ returned+1=E at hr
    omega
  | spin =>
    obtain ⟨hb,hr⟩ := hreg
    change begun=returned+1 at hb
    change returned=E ∨ returned+1=E at hr
    omega
  | _ =>
    obtain ⟨hb,hr⟩ := hreg
    change begun=E+1 at hb
    change returned=E at hr
    omega

/-- Not every core waits in the spin loop for the current episode. -/
theorem BarInv.not_all_spin (h : BarInv E arrivals counted s) :
    ¬∀ t, (s.pc t).pc=.spin ∧ (s.pc t).returned=E := by
  intro hall
  refine h.barrier.not_all_waiting fun p => ?_
  obtain ⟨hpc,hret⟩ := hall p.2
  unfold stage
  rw [hpc]
  exact if_pos hret

/-- Not every core spins on a sense that is not stored. -/
theorem BarInv.not_stuck (h : BarInv E arrivals counted s) :
    ¬∀ t, (s.pc t).pc=.spin ∧ s.word .globalSense≠(s.pc t).sense := by
  intro hall
  refine h.not_all_spin fun t => ?_
  obtain ⟨hpc,hsense⟩ := hall t
  obtain ⟨hs,hreg⟩ := h.regs t
  rw [hpc] at hreg
  rw [h.done,hs] at hsense
  obtain ⟨hbegun,hret⟩ := hreg
  exact ⟨hpc,by omega⟩

/-- With a free mutex the count is below the number of cores, so the comparison for equality does
not miss it. -/
theorem BarInv.count_lt (h : BarInv E arrivals counted s) (hn : 0<n) (hfree : s.word .mutex=0) :
    s.word .count<n := by
  rw [h.count]
  split
  · have hle : arrivals ≤ n := by
      have hcard := h.barrier.arrivals ()
      rw [hcard]
      exact le_of_le_of_eq (Finset.card_le_univ _) (Fintype.card_fin n)
    refine lt_of_le_of_ne hle fun he => h.not_all_spin fun t => ?_
    have hfull := (h.barrier.full_iff ()).1 (by rw [he,Fintype.card_fin]) t
    have hout := h.free hfree t
    have hstage : stage n E (s.pc t)≠.away := hfull
    refine stage_waiting (n := n) ?_ hout
    generalize s.pc t=l at hstage hout
    obtain ⟨pc,sense,begun,returned⟩ := l
    cases pc with
    | spin =>
      change (if returned=E then Stage.waiting else .away)≠.away at hstage
      show (if returned=E then Stage.waiting else .away)=.waiting
      by_cases hr : returned=E
      · rw [if_pos hr]
      · rw [if_neg hr] at hstage
        exact absurd rfl hstage
    | outside => exact absurd rfl hstage
    | lock => exact absurd rfl hstage
    | _ => cases hout
  · exact hn

end Step

/-- For every number of cores, in every state of every run: a core has not returned from more
calls than any core has begun, cores in the same call have the same sense, the count is below
the number of cores while nobody holds the mutex, and some core that spins can return unless
some core does not spin. -/
theorem rtmx86_barrier_reusable {n : ℕ} (hn : 0<n) {s : BState n}
    (hs : Reachable (program n) (initial n) (fun _ _ => True) s) :
    (∀ t u, (s.pc t).returned≤(s.pc u).begun) ∧
    (∀ t u, (s.pc t).begun=(s.pc u).begun → (s.pc t).sense=(s.pc u).sense) ∧
    (s.word .mutex=0 → s.word .count<n) ∧
    ¬∀ t, (s.pc t).pc=.spin ∧ s.word .globalSense≠(s.pc t).sense := by
  obtain ⟨E,arrivals,counted,h⟩ : ∃ E arrivals counted, BarInv E arrivals counted s := by
    refine Reachable.invariant (I := fun s => ∃ E arrivals counted, BarInv E arrivals counted s)
      ⟨0,0,0,barInv_initial hn⟩ ?_ hs
    rintro s turn - - ⟨E,arrivals,counted,h⟩
    exact barInv_step h
  refine ⟨?_,?_,h.count_lt hn,h.not_stuck⟩
  · intro t u
    exact le_trans (h.episode t).1 (h.episode u).2
  · intro t u hbegun
    rw [(h.regs t).1,(h.regs u).1,hbegun]

/-- A turn of one of two cores that calls whenever it can. -/
def turnOf (t : Fin 2) : BTurn 2 := ⟨t,true,false⟩

/-- Two cores: the second one completes the episode, and the first one has returned and begun
its next call before the second one has released the mutex. -/
def overtaking : List (BTurn 2) :=
  (List.replicate 6 (turnOf left))++(List.replicate 7 (turnOf right))++
    (List.replicate 2 (turnOf left))

/-- The first core has returned once and called twice while the mutex is held. -/
theorem rtmx86_barrier_reusable_overtaking :
    ((run (program 2) (initial 2) overtaking).pc left).returned=1 ∧
    ((run (program 2) (initial 2) overtaking).pc left).begun=2 ∧
    (run (program 2) (initial 2) overtaking).word .mutex=1 ∧
    ((run (program 2) (initial 2) overtaking).pc left).returned≤
      ((run (program 2) (initial 2) overtaking).pc right).begun := by
  have hs : Reachable (program 2) (initial 2) (fun _ _ => True)
      (run (program 2) (initial 2) overtaking) := .of_allows .init (by decide +kernel)
  have h := rtmx86_barrier_reusable Nat.two_pos hs
  exact ⟨by decide +kernel,by decide +kernel,by decide +kernel,h.1 _ _⟩

end RigelTarget.X86Barrier
