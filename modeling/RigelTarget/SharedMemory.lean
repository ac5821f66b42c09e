import Mathlib.Logic.Function.Basic
import Mathlib.Data.List.Count
import Mathlib.Tactic.Common

/-!
# Interleaved threads over a shared word memory

Threads run one access at a time over a memory of words. An access is a load,
a store, a linked load, a conditional store or one indivisible
read-modify-write. Every write to a word breaks the links held on it, and a
conditional store may also lose its link without a visible cause. A program
gives the access of each local state and the local state that follows its
result. Runs are arbitrary schedules; weak ordering and caches are separate
obligations of the programs that use this memory.
-/

namespace RigelTarget.SharedMemory

/-- One access of a thread to the shared words. It is one step of a schedule: no other thread comes
between the read and the write of an atomic access. -/
inductive Access (V : Type) where
  /-- No shared word is touched. -/
  | skip
  /-- Read one word. -/
  | load (x : V)
  /-- Write one word. -/
  | store (x : V) (v : ℕ)
  /-- Read one word and set the link of the thread to it. -/
  | loadLinked (x : V)
  /-- Write one word if the link to it is still held; the result is 1 or 0. -/
  | storeCond (x : V) (v : ℕ)
  /-- Replace one word by a function of itself; the result is the old word. -/
  | rmw (x : V) (f : ℕ → ℕ)

/-- A program over local states `P`, client choices `C` and visible events `E`. All three functions
see the local state before the access; `next` and `emit` also see what the access returned. -/
structure Program (T V P C E : Type) where
  /-- The access that a thread performs in a local state. -/
  access : T → P → Access V
  /-- The local state after the access returned its result. -/
  next : T → P → C → ℕ → P
  /-- The event, if any, that this step makes visible. -/
  emit : T → P → C → ℕ → Option E

/-- Shared words, links, local states and the events so far, latest first. A link remembers the word
that its thread has loaded last by `ldl` and not yet stored to. -/
structure State (T V P E : Type) where
  /-- Contents of the shared words. -/
  word : V → ℕ
  /-- The word to which each thread holds a link. -/
  link : T → Option V
  /-- Local state of each thread. -/
  pc : T → P
  /-- Visible events, the latest at the head. -/
  trace : List E

/-- One turn of a schedule: a thread, its client choice and whether its link is lost before the
access, as the hardware may decide at any time. -/
structure Turn (T C : Type) where
  /-- The thread that moves. -/
  thread : T
  /-- The client choice offered to the step. -/
  choice : C
  /-- Whether a conditional store loses its link at this turn. -/
  lose : Bool

section Accesses

variable {T V P C E : Type} [DecidableEq T] [DecidableEq V]

/-- Whether a conditional store to `x` by `t` succeeds: the link is still there, and it is to
`x`. -/
def holdsLink (s : State T V P E) (t : T) (lose : Bool) (x : V) : Bool :=
  !lose && decide (s.link t=some x)

/-- The value an access returns to its thread: the word for a load and the word before an atomic
access; a conditional store returns whether it has stored. -/
def result (s : State T V P E) (t : T) (lose : Bool) : Access V → ℕ
  | .skip => 0
  | .load x => s.word x
  | .store _ _ => 0
  | .loadLinked x => s.word x
  | .storeCond x _ => if holdsLink s t lose x=true then 1 else 0
  | .rmw x _ => s.word x

/-- The word an access writes, with its new value; none for a load or a conditional store without
its link. -/
def written (s : State T V P E) (t : T) (lose : Bool) : Access V → Option (V×ℕ)
  | .store x v => some (x,v)
  | .storeCond x v => if holdsLink s t lose x=true then some (x,v) else none
  | .rmw x f => some (x,f (s.word x))
  | _ => none

/-- The shared words after at most one write. The test is on the address only, so that words of a
finite run evaluate without the values of the others. -/
def applyWrite (word : V → ℕ) : Option (V×ℕ) → V → ℕ
  | none => word
  | some (x,v) => fun y => if y=x then v else word y

/-- Without a write the memory stays. -/
@[simp] theorem applyWrite_none {word : V → ℕ} : applyWrite word none=word := rfl

/-- The write as an update of the memory. -/
theorem applyWrite_some {word : V → ℕ} {x : V} {v : ℕ} :
    applyWrite word (some (x,v))=Function.update word x v := by
  funext y
  exact (Function.update_apply word x v y).symm

/-- A word that is not written keeps its value. -/
theorem applyWrite_keep {word : V → ℕ} {w : Option (V×ℕ)} {x : V} (h : ∀ v, w≠some (x,v)) :
    applyWrite word w x=word x := by
  cases w with
  | none => rfl
  | some p =>
    obtain ⟨y,v⟩ := p
    exact if_neg fun hx => h v (by rw [hx])

/-- The written word has the written value. -/
@[simp] theorem applyWrite_self {word : V → ℕ} {x : V} {v : ℕ} :
    applyWrite word (some (x,v)) x=v := if_pos rfl

/-- The links after an access: a write breaks every link to its word, a linked
load sets the link of its thread and a conditional store drops it. -/
def relink (s : State T V P E) (t : T) (lose : Bool) (a : Access V) : T → Option V :=
  let kept := fun u => match written s t lose a with
    | none => s.link u
    | some (x,_) => if s.link u=some x then none else s.link u
  match a with
  | .loadLinked x => Function.update kept t (some x)
  | .storeCond _ _ => Function.update kept t none
  | _ => kept

/-- A link was held before the access or is set by it: nothing but the linked load of a thread makes
a link. -/
theorem relink_eq_some {s : State T V P E} {t u : T} {lose : Bool} {a : Access V} {x : V}
    (h : relink s t lose a u=some x) : s.link u=some x ∨ a=.loadLinked x := by
  have hkept : (match written s t lose a with
      | none => s.link u
      | some (y,_) => if s.link u=some y then none else s.link u)=some x → s.link u=some x := by
    intro hw
    split at hw
    · exact hw
    · split at hw
      · cases hw
      · exact hw
  by_cases hu : u=t
  · subst hu
    cases a with
    | loadLinked y =>
      simp only [relink,Function.update_self,Option.some.injEq] at h
      exact .inr (by rw [h])
    | storeCond y v =>
      simp only [relink,Function.update_self] at h
      cases h
    | _ => exact .inl (hkept h)
  · refine .inl (hkept ?_)
    cases a with
    | loadLinked y =>
      simp only [relink,Function.update_of_ne hu] at h
      exact h
    | storeCond y v =>
      simp only [relink,Function.update_of_ne hu] at h
      exact h
    | _ => exact h

/-- One turn of one thread: its link may be lost, it makes the access of its local state, a write
breaks the links to its word, and the local state and the trace go on. -/
def step (prog : Program T V P C E) (s : State T V P E) (turn : Turn T C) : State T V P E :=
  let p := s.pc turn.thread
  let a := prog.access turn.thread p
  let r := result s turn.thread turn.lose a
  { word := applyWrite s.word (written s turn.thread turn.lose a)
    link := relink s turn.thread turn.lose a
    pc := Function.update s.pc turn.thread (prog.next turn.thread p turn.choice r)
    trace := match prog.emit turn.thread p turn.choice r with
      | none => s.trace
      | some e => e::s.trace }

/-- A finite schedule, earliest turn first. Every interleaving of the threads is such a list. -/
def run (prog : Program T V P C E) (s : State T V P E) : List (Turn T C) → State T V P E
  | [] => s
  | turn::turns => run prog (step prog s turn) turns

/-- States reached from `start` by turns that all meet a condition on the state
before them. -/
inductive Reachable (prog : Program T V P C E) (start : State T V P E)
    (allowed : State T V P E → Turn T C → Prop) : State T V P E → Prop where
  /-- The start is reached. -/
  | init : Reachable prog start allowed start
  /-- An allowed turn leads from a reached state to a reached state. -/
  | move {s : State T V P E} (turn : Turn T C) : Reachable prog start allowed s →
      allowed s turn → Reachable prog start allowed (step prog s turn)

/-- An invariant of the start that every allowed turn from a reached state keeps
holds in every reached state. The turn may use any fact about reached states. -/
theorem Reachable.invariant {prog : Program T V P C E} {start : State T V P E}
    {allowed : State T V P E → Turn T C → Prop} {I : State T V P E → Prop}
    (hstart : I start)
    (hstep : ∀ s turn, Reachable prog start allowed s → allowed s turn → I s →
      I (step prog s turn))
    {s : State T V P E} (hs : Reachable prog start allowed s) : I s := by
  induction hs with
  | init => exact hstart
  | move turn hs hallowed ih => exact hstep _ turn hs hallowed ih

/-- A run continues a run. -/
theorem Reachable.trans {prog : Program T V P C E} {start middle : State T V P E}
    {allowed stricter : State T V P E → Turn T C → Prop}
    (h : ∀ s turn, stricter s turn → allowed s turn)
    (hm : Reachable prog start allowed middle) {s : State T V P E}
    (hs : Reachable prog middle stricter s) : Reachable prog start allowed s := by
  induction hs with
  | init => exact hm
  | move turn hs hstricter ih => exact .move turn ih (h _ turn hstricter)

/-- A finite schedule whose turns are all allowed reaches its last state. -/
theorem Reachable.of_run {prog : Program T V P C E} {start : State T V P E}
    {allowed : State T V P E → Turn T C → Prop} {s : State T V P E}
    (hs : Reachable prog start allowed s) (turns : List (Turn T C))
    (hall : ∀ before turn after, turns=before++turn::after → allowed (run prog s before) turn) :
    Reachable prog start allowed (run prog s turns) := by
  induction turns generalizing s with
  | nil => exact hs
  | cons turn turns ih =>
    refine ih (.move turn hs (hall [] turn turns rfl)) ?_
    intro before u after he
    exact hall (turn::before) u after (by rw [he,List.cons_append])

/-- Whether all turns of a schedule meet a decidable condition, each in the state before it. -/
def allows (prog : Program T V P C E) (allowed : State T V P E → Turn T C → Prop)
    [∀ s turn, Decidable (allowed s turn)] (s : State T V P E) : List (Turn T C) → Bool
  | [] => true
  | turn::turns => decide (allowed s turn) && allows prog allowed (step prog s turn) turns

/-- A schedule whose turns were checked reaches its last state. -/
theorem Reachable.of_allows {prog : Program T V P C E} {start : State T V P E}
    {allowed : State T V P E → Turn T C → Prop} [∀ s turn, Decidable (allowed s turn)]
    {s : State T V P E} (hs : Reachable prog start allowed s) {turns : List (Turn T C)}
    (h : allows prog allowed s turns=true) : Reachable prog start allowed (run prog s turns) := by
  induction turns generalizing s with
  | nil => exact hs
  | cons turn turns ih =>
    simp only [allows,Bool.and_eq_true,decide_eq_true_eq] at h
    exact ih (.move turn hs h.1) h.2

section Projections

variable (prog : Program T V P C E) (s : State T V P E) (turn : Turn T C)

/-- The moving thread takes its next local state. -/
@[simp] theorem step_pc_self : (step prog s turn).pc turn.thread=
    prog.next turn.thread (s.pc turn.thread) turn.choice
      (result s turn.thread turn.lose (prog.access turn.thread (s.pc turn.thread))) := by
  simp only [step,Function.update_self]

/-- Every other thread keeps its local state. -/
theorem step_pc_other {u : T} (hu : u≠turn.thread) : (step prog s turn).pc u=s.pc u := by
  simp only [step,Function.update_of_ne hu]

/-- What holds of the local states of all threads holds after a turn, if the moving thread has it
again. -/
theorem step_pc_forall {Q : T → P → Prop}
    (hself : Q turn.thread ((step prog s turn).pc turn.thread))
    (hrest : ∀ u, u≠turn.thread → Q u (s.pc u)) (u : T) : Q u ((step prog s turn).pc u) := by
  by_cases hu : u=turn.thread
  · rw [hu]
    exact hself
  · rw [step_pc_other _ _ _ hu]
    exact hrest u hu

/-- What a part of a model sees of the local states changes at the moving thread only. -/
theorem step_pc_map {Q : Type} (view : P → Q) : (fun u => view ((step prog s turn).pc u))=
    Function.update (fun u => view (s.pc u)) turn.thread
      (view ((step prog s turn).pc turn.thread)) := by
  funext u
  by_cases hu : u=turn.thread
  · rw [hu,Function.update_self]
  · rw [Function.update_of_ne hu,step_pc_other _ _ _ hu]

/-- The shared words change by the one write of the access. -/
theorem step_word : (step prog s turn).word=
    applyWrite s.word (written s turn.thread turn.lose
      (prog.access turn.thread (s.pc turn.thread))) := rfl

/-- A word that the access does not write keeps its value. -/
theorem step_word_other {x : V}
    (hx : ∀ v, written s turn.thread turn.lose
      (prog.access turn.thread (s.pc turn.thread))≠some (x,v)) :
    (step prog s turn).word x=s.word x := by
  rw [step_word]
  cases hw : written s turn.thread turn.lose (prog.access turn.thread (s.pc turn.thread)) with
  | none => rfl
  | some w =>
    obtain ⟨y,v⟩ := w
    have hne : x≠y := by
      rintro rfl
      exact hx v hw
    exact if_neg hne

/-- The result of the access of a turn. -/
def outcome : ℕ :=
  result s turn.thread turn.lose (prog.access turn.thread (s.pc turn.thread))

/-- The event that a turn makes visible. -/
def shows : Option E := prog.emit turn.thread (s.pc turn.thread) turn.choice (outcome prog s turn)

/-- The trace grows by the event of the turn. -/
theorem step_trace : (step prog s turn).trace=(shows prog s turn).toList++s.trace := by
  simp only [step,shows,outcome]
  cases prog.emit turn.thread (s.pc turn.thread) turn.choice
      (result s turn.thread turn.lose (prog.access turn.thread (s.pc turn.thread))) with
  | none => rfl
  | some e => rfl

/-- One if the event of a turn is of a kind. -/
def tally (e : Option E) (kind : E → Bool) : ℕ := if e.any kind=true then 1 else 0

/-- The number of events of a kind grows by the event of the turn. -/
theorem step_countP (kind : E → Bool) : (step prog s turn).trace.countP kind=
    s.trace.countP kind+tally (shows prog s turn) kind := by
  rw [step_trace,List.countP_append,Nat.add_comm]
  congr 1
  cases shows prog s turn with
  | none => rfl
  | some e => simp [List.countP_cons,tally]

/-- A turn of a thread in a known local state: what it changes, as equations that a proof can
rewrite with. -/
structure StepAt (prog : Program T V P C E) (s : State T V P E) (turn : Turn T C) (p : P) :
    Prop where
  /-- The next local state. -/
  pc : (step prog s turn).pc turn.thread=prog.next turn.thread p turn.choice
    (result s turn.thread turn.lose (prog.access turn.thread p))
  /-- The words after the access. -/
  word : (step prog s turn).word=
    applyWrite s.word (written s turn.thread turn.lose (prog.access turn.thread p))
  /-- The event. -/
  event : shows prog s turn=prog.emit turn.thread p turn.choice
    (result s turn.thread turn.lose (prog.access turn.thread p))

/-- The local state of the moving thread decides the turn. -/
theorem step_at {p : P} (hp : s.pc turn.thread=p) : StepAt prog s turn p := by
  subst hp
  exact ⟨step_pc_self prog s turn,rfl,rfl⟩

end Projections

/-- A local state in which a linked load of `x` returned `v` and the
conditional store is still ahead. Such states are entered by that load only. -/
structure Reserving (prog : Program T V P C E) (reserve : T → P → Option (V×ℕ)) : Prop where
  /-- Only a linked load enters a reserving local state, with the loaded word. -/
  entered : ∀ t p c r x v, reserve t (prog.next t p c r)=some (x,v) →
    prog.access t p=.loadLinked x ∧ r=v

/-- A thread that still holds its link sees the word it loaded. So what a program does after `ldl`
may be told from the word at its conditional store. -/
def LinkFresh (reserve : T → P → Option (V×ℕ)) (s : State T V P E) : Prop :=
  ∀ t x v, reserve t (s.pc t)=some (x,v) → s.link t=some x → s.word x=v

/-- Links are fresh in every reached state, whatever the schedule: a write by another thread takes
the link away, and the thread itself loads again before it stores. -/
theorem linkFresh_step {prog : Program T V P C E} {reserve : T → P → Option (V×ℕ)}
    (hr : Reserving prog reserve) {s : State T V P E} (turn : Turn T C)
    (hs : LinkFresh reserve s) : LinkFresh reserve (step prog s turn) := by
  intro t x v hres hlink
  by_cases ht : t=turn.thread
  · subst ht
    rw [step_pc_self] at hres
    obtain ⟨ha,hv⟩ := hr.entered _ _ _ _ _ _ hres
    rw [ha] at hv
    rw [step_word,ha]
    exact hv
  · rw [step_pc_other _ _ _ ht] at hres
    -- the link of a thread that did not move survives only unwritten words
    have hold : s.link t=some x ∧ ∀ w, written s turn.thread turn.lose
        (prog.access turn.thread (s.pc turn.thread))≠some (x,w) := by
      simp only [step,relink] at hlink
      have hkept : (match written s turn.thread turn.lose
          (prog.access turn.thread (s.pc turn.thread)) with
          | none => s.link t
          | some (y,_) => if s.link t=some y then none else s.link t)=some x := by
        revert hlink
        cases prog.access turn.thread (s.pc turn.thread) <;>
          simp only [Function.update_of_ne ht,imp_self]
      revert hkept
      cases hw : written s turn.thread turn.lose
          (prog.access turn.thread (s.pc turn.thread)) with
      | none => exact fun h => ⟨h,fun w h' => by cases h'⟩
      | some w =>
        obtain ⟨y,u⟩ := w
        dsimp only
        split
        · intro h
          cases h
        · rename_i hne
          intro h
          refine ⟨h,?_⟩
          intro w' h'
          cases h'
          exact hne h
    rw [step_word_other _ _ _ hold.2]
    exact hs t x v hres hold.1

end Accesses

/-- The thread of a run with one thread. -/
def solo : Fin 1 := ⟨0,Nat.one_pos⟩

/-- The first thread of a run with two threads. -/
def left : Fin 2 := ⟨0,Nat.two_pos⟩

/-- The second thread of a run with two threads. -/
def right : Fin 2 := ⟨1,Nat.one_lt_two⟩

end RigelTarget.SharedMemory
