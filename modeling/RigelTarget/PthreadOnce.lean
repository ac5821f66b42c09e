import RigelTarget.RigelAtomics
import Mathlib.Data.Fintype.Basic

/-!
# `pthread_once`

A call compares and swaps the control word from 0 to 1 and runs `init_routine` if
it found 0; in both cases it then returns 0. The routine is any code of the
client: its run is a local state that the client leaves at a turn of its choice.
A caller that finds 1 does not wait for the routine, so a call that comes while
the routine runs can return before it has finished.
-/

namespace RigelTarget.PthreadOnce

open SharedMemory RigelAtomics

/-- Where a thread is: outside, before its `atom.cas`, in the routine that it has started, or before
its return. -/
inductive Pc where
  /-- Outside `pthread_once`. -/
  | outside
  /-- `compare_and_swap(once_control,0,1)`. -/
  | cas
  /-- In `init_routine`. -/
  | running
  /-- `return 0`. -/
  | returning
  deriving DecidableEq

/-- What the client does next. -/
inductive Choice where
  /-- Nothing, or one more step of `init_routine`. -/
  | stay
  /-- Call `pthread_once`. -/
  | call
  /-- The last step of `init_routine`. -/
  | finish
  deriving DecidableEq

/-- Visible events. -/
inductive Event (n : ℕ) where
  /-- `init_routine` was called. -/
  | started (t : Fin n)
  /-- `init_routine` returned. -/
  | finished (t : Fin n)
  /-- `pthread_once` returned. -/
  | returned (t : Fin n)
  deriving DecidableEq

/-- The accesses of a thread to the control word. -/
def access : Pc → Access Unit
  | .cas => compareAndSwap () 0 1
  | _ => .skip

/-- The local state after an access. A caller runs the routine if it found 0 and otherwise goes to
its return at once. -/
def next : Pc → Choice → ℕ → Pc
  | .outside, .call, _ => .cas
  | .outside, _, _ => .outside
  | .cas, _, r => if r=0 then .running else .returning
  | .running, .finish, _ => .returning
  | .running, _, _ => .running
  | .returning, _, _ => .outside

/-- The event of a step. -/
def emit {n : ℕ} (t : Fin n) : Pc → Choice → ℕ → Option (Event n)
  | .cas, _, r => if r=0 then some (.started t) else none
  | .running, .finish, _ => some (.finished t)
  | .returning, _, _ => some (.returned t)
  | _, _, _ => none

/-- Any number of threads that call `pthread_once` on one control word. -/
def program (n : ℕ) : Program (Fin n) Unit Pc Choice (Event n) where
  access _ p := access p
  next _ p choice r := next p choice r
  emit t p choice r := emit t p choice r

/-- States of the threads and the control word. -/
abbrev OState (n : ℕ) := State (Fin n) Unit Pc (Event n)

/-- Turns of the threads. -/
abbrev OTurn (n : ℕ) := Turn (Fin n) Choice

/-- `PTHREAD_ONCE_INIT`, with every thread outside. -/
def initial (n : ℕ) : OState n := ⟨fun _ => 0,fun _ => none,fun _ => .outside,[]⟩

/-- Starts of `init_routine`. -/
def isStarted {n : ℕ} : Event n → Bool
  | .started _ => true
  | _ => false

/-- Ends of `init_routine`. -/
def isFinished {n : ℕ} : Event n → Bool
  | .finished _ => true
  | _ => false

/-- How often `init_routine` was started. -/
def starts {n : ℕ} (s : OState n) : ℕ := s.trace.countP isStarted

/-- How often `init_routine` has finished. -/
def finishes {n : ℕ} (s : OState n) : ℕ := s.trace.countP isFinished

/-- No call compares and swaps while the routine runs. A call may have come already: it is enough
that it reaches its `atom.cas` before the routine starts or after it has finished. -/
def Undisturbed {n : ℕ} (s : OState n) (turn : OTurn n) : Prop :=
  s.pc turn.thread=.cas → ∀ u, s.pc u≠.running

instance {n : ℕ} (s : OState n) (turn : OTurn n) : Decidable (Undisturbed s turn) :=
  inferInstanceAs (Decidable (_ → _))

variable {n : ℕ}

/-- The control word, the routine and the callers. It holds in runs without a compare-and-swap while
the routine is running. -/
structure OnceInv (s : OState n) : Prop where
  /-- The control word tells whether the routine was started. -/
  control : s.word ()=starts s
  /-- The routine is started at most once. -/
  once : starts s≤1
  /-- The routine is running or finished once it was started. -/
  account : (∃ u, s.pc u=.running) ∧ starts s=1 ∧ finishes s=0 ∨
    (∀ u, s.pc u≠.running) ∧ finishes s=starts s
  /-- One thread runs the routine. -/
  single : ∀ t u, s.pc t=.running → s.pc u=.running → t=u
  /-- A caller that returns has seen the routine finished. -/
  seen : ∀ t, s.pc t=.returning → finishes s=1

/-- Before the first call. -/
theorem onceInv_initial : OnceInv (initial n) where
  control := rfl
  once := Nat.zero_le 1
  account := .inr ⟨(fun _ h => by cases h),rfl⟩
  single _ _ h := by cases h
  seen _ h := by cases h

/-- What one turn of thread `t` can do, as far as the invariant is concerned: start the routine,
come too late for it, finish it, or none of these. -/
inductive Moved (s s' : OState n) (t : Fin n) : Prop where
  /-- The thread goes on outside, enters a call, runs the routine on or returns. -/
  | quiet : s'.word ()=s.word () → starts s'=starts s → finishes s'=finishes s →
      (s'.pc t=.running → s.pc t=.running) → (s.pc t=.running → s'.pc t=.running) →
      s'.pc t≠.returning → Moved s s' t
  /-- The thread finds 0 and starts the routine. -/
  | start : s.pc t=.cas → s.word ()=0 → s'.word ()=1 → starts s'=starts s+1 →
      finishes s'=finishes s → s'.pc t=.running → Moved s s' t
  /-- The thread finds another value. -/
  | late : s.pc t=.cas → s.word ()≠0 → s'.word ()=s.word () → starts s'=starts s →
      finishes s'=finishes s → s'.pc t=.returning → Moved s s' t
  /-- The routine finishes. -/
  | finish : s.pc t=.running → s'.word ()=s.word () → starts s'=starts s →
      finishes s'=finishes s+1 → s'.pc t=.returning → Moved s s' t

/-- Every turn moves its thread in one of the listed ways. The invariant is proved for these and not
for accesses. -/
theorem moved_step (s : OState n) (turn : OTurn n) :
    Moved s (step (program n) s turn) turn.thread := by
  have hstart : starts (step (program n) s turn)=
      starts s+tally (shows (program n) s turn) isStarted := step_countP ..
  have hfinish : finishes (step (program n) s turn)=
      finishes s+tally (shows (program n) s turn) isFinished := step_countP ..
  cases hp : s.pc turn.thread with
  | outside =>
    obtain ⟨hpc,hword,he⟩ := step_at (program n) s turn hp
    rw [he] at hstart hfinish
    refine .quiet (congrFun hword ()) hstart hfinish ?_ (fun h => by rw [hp] at h; cases h) ?_
    · rw [hpc]
      cases turn.choice <;> exact fun h => by cases h
    · rw [hpc]
      cases turn.choice <;> exact fun h => by cases h
  | cas =>
    obtain ⟨hpc,hword,he⟩ := step_at (program n) s turn hp
    rw [he] at hstart hfinish
    have hw : (step (program n) s turn).word ()=casValue 0 1 (s.word ()) := by
      rw [hword]
      exact applyWrite_self
    simp only [program,access,next,emit,result,compareAndSwap] at hpc hstart hfinish
    by_cases hz : s.word ()=0
    · rw [if_pos hz] at hpc hstart hfinish
      refine .start hp hz ?_ hstart hfinish hpc
      rw [hw,casValue,if_pos hz]
    · rw [if_neg hz] at hpc hstart hfinish
      refine .late hp hz ?_ hstart hfinish hpc
      rw [hw,casValue,if_neg hz]
  | running =>
    obtain ⟨hpc,hword,he⟩ := step_at (program n) s turn hp
    rw [he] at hstart hfinish
    cases hc : turn.choice with
    | finish =>
      rw [hc] at hpc hstart hfinish
      exact .finish hp (congrFun hword ()) hstart hfinish hpc
    | stay =>
      rw [hc] at hpc hstart hfinish
      exact .quiet (congrFun hword ()) hstart hfinish (fun _ => hp) (fun _ => hpc)
        (fun h => by rw [hpc] at h; cases h)
    | call =>
      rw [hc] at hpc hstart hfinish
      exact .quiet (congrFun hword ()) hstart hfinish (fun _ => hp) (fun _ => hpc)
        (fun h => by rw [hpc] at h; cases h)
  | returning =>
    obtain ⟨hpc,hword,he⟩ := step_at (program n) s turn hp
    rw [he] at hstart hfinish
    exact .quiet (congrFun hword ()) hstart hfinish (fun h => by rw [hpc] at h; cases h)
      (fun h => by rw [hp] at h; cases h) (fun h => by rw [hpc] at h; cases h)

/-- An undisturbed turn keeps the invariant. The condition is used where a caller finds 1: the
routine has finished then. -/
theorem onceInv_step {s : OState n} {turn : OTurn n} (h : OnceInv s) (ok : Undisturbed s turn) :
    OnceInv (step (program n) s turn) := by
  have hother : ∀ u, u≠turn.thread → (step (program n) s turn).pc u=s.pc u := fun u hu =>
    step_pc_other (program n) s turn hu
  have hcontrol := h.control
  have honce := h.once
  cases moved_step s turn with
  | quiet hw hs hf hrun hkeep hret =>
    have hpc : ∀ u, (step (program n) s turn).pc u=.running ↔ s.pc u=.running := by
      intro u
      by_cases hu : u=turn.thread
      · subst hu
        exact ⟨hrun,hkeep⟩
      · rw [hother u hu]
    refine ⟨by rw [hw,hs]; exact hcontrol,by rw [hs]; exact honce,?_,?_,?_⟩
    · rw [hs,hf]
      simp only [ne_eq,hpc]
      exact h.account
    · intro t u ht hu
      exact h.single t u ((hpc t).mp ht) ((hpc u).mp hu)
    · intro t ht
      rw [hf]
      by_cases htt : t=turn.thread
      · rw [htt] at ht
        exact absurd ht hret
      · rw [hother t htt] at ht
        exact h.seen t ht
  | start hp hz hw hs hf hpc =>
    have hzero : starts s=0 := by rw [←hcontrol,hz]
    have hidle : (∀ u, s.pc u≠.running) ∧ finishes s=0 := by
      rcases h.account with ⟨-,h1,-⟩|⟨hno,hfin⟩
      · omega
      · exact ⟨hno,by omega⟩
    refine ⟨by rw [hw,hs,hzero],by rw [hs,hzero],.inl ⟨⟨_,hpc⟩,by rw [hs,hzero],?_⟩,?_,?_⟩
    · rw [hf]
      exact hidle.2
    · have honly : ∀ u, (step (program n) s turn).pc u=.running → u=turn.thread := by
        intro u hu
        by_contra hne
        rw [hother u hne] at hu
        exact hidle.1 u hu
      intro t u ht hu
      rw [honly t ht,honly u hu]
    · intro t ht
      by_cases htt : t=turn.thread
      · rw [htt,hpc] at ht
        cases ht
      · rw [hother t htt] at ht
        have := h.seen t ht
        omega
  | late hp hz hw hs hf hpc =>
    -- the caller found 1: by the condition the routine is not running, so it has finished
    have hidle : ∀ u, s.pc u≠.running := ok hp
    have hfin : finishes s=starts s := by
      rcases h.account with ⟨⟨u,hu⟩,-⟩|⟨-,hfin⟩
      · exact absurd hu (hidle u)
      · exact hfin
    have hone : starts s=1 := by omega
    have hidle' : ∀ u, (step (program n) s turn).pc u≠.running := by
      intro u
      by_cases hu : u=turn.thread
      · rw [hu,hpc]
        exact fun h => by cases h
      · rw [hother u hu]
        exact hidle u
    refine ⟨by rw [hw,hs]; exact hcontrol,by rw [hs]; exact honce,.inr ⟨hidle',?_⟩,?_,?_⟩
    · rw [hf,hs]
      exact hfin
    · exact fun t u ht => absurd ht (hidle' t)
    · intro t _
      rw [hf]
      omega
  | finish hp hw hs hf hpc =>
    have hstate : starts s=1 ∧ finishes s=0 := by
      rcases h.account with ⟨-,h1,h0⟩|⟨hno,-⟩
      · exact ⟨h1,h0⟩
      · exact absurd hp (hno _)
    have hidle' : ∀ u, (step (program n) s turn).pc u≠.running := by
      intro u
      by_cases hu : u=turn.thread
      · rw [hu,hpc]
        exact fun h => by cases h
      · rw [hother u hu]
        exact fun hr => hu (h.single u turn.thread hr hp)
    refine ⟨by rw [hw,hs]; exact hcontrol,by rw [hs]; exact honce,.inr ⟨hidle',?_⟩,?_,?_⟩
    · rw [hf,hs]
      omega
    · exact fun t u ht => absurd ht (hidle' t)
    · intro t _
      rw [hf]
      omega

/-- In an undisturbed run `init_routine` is started at most once, and every call, whether it
started the routine or not, returns after exactly one start and one end of it. -/
theorem pthread_once_undisturbed {s : OState n}
    (hs : Reachable (program n) (initial n) Undisturbed s) :
    starts s≤1 ∧ ∀ turn t, shows (program n) s turn=some (.returned t) →
      starts s=1 ∧ finishes s=1 := by
  have h := Reachable.invariant onceInv_initial (fun _ _ _ ok h => onceInv_step h ok) hs
  refine ⟨h.once,?_⟩
  intro turn t he
  have hp : s.pc turn.thread=.returning := by
    cases hp : s.pc turn.thread with
    | returning => rfl
    | outside =>
      rw [(step_at (program n) s turn hp).event] at he
      cases hc : turn.choice <;> rw [hc] at he <;> cases he
    | cas =>
      rw [(step_at (program n) s turn hp).event] at he
      simp only [program,emit] at he
      split at he <;> cases he
    | running =>
      rw [(step_at (program n) s turn hp).event] at he
      cases hc : turn.choice <;> rw [hc] at he <;> cases he
  have hfin := h.seen turn.thread hp
  rcases h.account with ⟨-,-,h0⟩|⟨-,hf⟩
  · omega
  · exact ⟨by omega,hfin⟩

/-- Thread 0 runs the routine and returns. Thread 1 has called meanwhile, but compares and swaps
only then; it finds 1 and is about to return. -/
def patientCaller : List (OTurn 2) :=
  [⟨left,.call,false⟩,⟨left,.stay,false⟩,⟨right,.call,false⟩,⟨left,.finish,false⟩,
    ⟨left,.stay,false⟩,⟨right,.stay,false⟩]

/-- The second caller did not start the routine, and its return comes after the end of it. -/
theorem pthread_once_second_caller :
    shows (program 2) (run (program 2) (initial 2) patientCaller) ⟨right,.stay,false⟩=
      some (.returned right) ∧
    starts (run (program 2) (initial 2) patientCaller)=1 ∧
    finishes (run (program 2) (initial 2) patientCaller)=1 := by
  have hs : Reachable (program 2) (initial 2) Undisturbed
      (run (program 2) (initial 2) patientCaller) := .of_allows .init (by decide)
  have hret : shows (program 2) (run (program 2) (initial 2) patientCaller) ⟨right,.stay,false⟩=
      some (.returned right) := by decide
  exact ⟨hret,(pthread_once_undisturbed hs).2 _ _ hret⟩

/-- Thread 0 runs the routine; thread 1 calls, finds 1 and is about to return. -/
def lateCaller : List (OTurn 2) :=
  [⟨left,.call,false⟩,⟨left,.stay,false⟩,⟨right,.call,false⟩,⟨right,.stay,false⟩]

/-- The second caller returns while the routine is still running: it was started once and has not
finished. -/
theorem pthread_once_returns_early :
    shows (program 2) (run (program 2) (initial 2) lateCaller) ⟨1,.stay,false⟩=
      some (.returned 1) ∧
    starts (run (program 2) (initial 2) lateCaller)=1 ∧
    finishes (run (program 2) (initial 2) lateCaller)=0 := by
  decide

end RigelTarget.PthreadOnce
