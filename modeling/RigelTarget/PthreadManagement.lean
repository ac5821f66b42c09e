import Mathlib.Algebra.Group.Nat.Defs
import RigelTarget.SharedMemory

/-!
# `pthread_create` and `pthread_join`

Every hardware thread but the first polls the function pointer of its entry of the table
`_pt`, runs the function it finds, stores the result and clears the pointer. A creation
scans the table for an entry without a function pointer and fills it, with the pointer
last; a join spins until the pointer is cleared and reads the result. Start routines are
any code of the client that may create and join in turn. What the functions are for is
told by the life of each entry, read off the visible events: a creation, its start, its end
and its join follow each other. The code keeps this order when no creation picks an entry
that another creation is filling, that is not joined yet, or that has no hardware thread.
-/

namespace RigelTarget.PthreadManagement

open SharedMemory

/-- Words of the table `_pt`: for every entry its thread number and that of the caller, the routine
with its argument, and the result. -/
inductive Loc where
  /-- `tid` of an entry. -/
  | tid (i : ℕ)
  /-- `callingtid`. -/
  | callingtid (i : ℕ)
  /-- `funcptr`. -/
  | funcptr (i : ℕ)
  /-- `funcarg`. -/
  | funcarg (i : ℕ)
  /-- `retval`. -/
  | retval (i : ℕ)
  deriving DecidableEq

/-- A call of `pthread_create` that has picked an entry, at one of its updates. Between the test of
the entry and the last update it looks free to other threads. -/
inductive Fill where
  /-- `RigelBroadcastUpdate(arg, _pt[i].funcarg)`. -/
  | arg
  /-- The load of the `tid` of the caller. -/
  | loadTid
  /-- The update of `callingtid`. -/
  | calling (tid : ℕ)
  /-- The update of `tid`. -/
  | tid
  /-- The update of `funcptr`. -/
  | func
  deriving DecidableEq

/-- The next access of a hardware thread: in `__rigel_premain`, in client code, or in one of the
calls. -/
inductive Pc where
  /-- `__rigel_premain`: the poll of the own `funcptr`. -/
  | poll
  /-- The load of `funcptr` for the call. -/
  | callFunc
  /-- The load of `funcarg` for the call. -/
  | callArg (f : ℕ)
  /-- The update of `retval`. -/
  | storeRet (v : ℕ)
  /-- The update of `funcptr` with `NULL`. -/
  | clear
  /-- In a start routine or in `main`, outside the functions. -/
  | client
  /-- `pthread_create`: the test of entry `i`. -/
  | scan (f a i : ℕ)
  /-- `pthread_create`: entry `i` is filled. -/
  | fill (f a i : ℕ) (u : Fill)
  /-- `pthread_join`: the spin loop. -/
  | joinSpin (i : ℕ)
  /-- `pthread_join`: the load of `retval`. -/
  | joinLoad (i : ℕ)
  deriving DecidableEq

/-- What client code does next, between two accesses of this library. Inside a call the choice has
no effect. -/
inductive Choice where
  /-- Nothing that is visible here. -/
  | stay
  /-- `pthread_create`. -/
  | create (f a : ℕ)
  /-- `pthread_join`. -/
  | join (i : ℕ)
  /-- The start routine returns. -/
  | done (v : ℕ)
  deriving DecidableEq

/-- Visible events: what the calls returned, and when start routines were called and returned. -/
inductive Event (N : ℕ) where
  /-- `pthread_create` returned 0 with thread `i`. -/
  | created (t : Fin N) (i f a : ℕ)
  /-- `pthread_create` returned `EAGAIN`. -/
  | refused (t : Fin N)
  /-- A start routine was called on hardware thread `t`. -/
  | started (t : Fin N) (f a : ℕ)
  /-- A start routine returned. -/
  | finished (t : Fin N) (v : ℕ)
  /-- `pthread_join` returned 0 and a value. -/
  | joined (t : Fin N) (i v : ℕ)
  /-- `pthread_join` returned `EDEADLK` or `ESRCH`. -/
  | unjoined (t : Fin N) (i : ℕ)
  deriving DecidableEq

section Steps

variable {N : ℕ} (M : ℕ)

/-- The access of a hardware thread, one word of the table in each case. `RigelBroadcastUpdate` is a
store. -/
def access (t : Fin N) : Pc → Access Loc
  | .poll => .load (.funcptr t)
  | .callFunc => .load (.funcptr t)
  | .callArg _ => .load (.funcarg t)
  | .storeRet v => .store (.retval t) v
  | .clear => .store (.funcptr t) 0
  | .client => .skip
  | .scan _ _ i => if i < M then .load (.funcptr i) else .skip
  | .fill _ a i .arg => .store (.funcarg i) a
  | .fill _ _ _ .loadTid => .load (.tid t)
  | .fill _ _ i (.calling tid) => .store (.callingtid i) tid
  | .fill _ _ i .tid => .store (.tid i) i
  | .fill f _ i .func => .store (.funcptr i) f
  | .joinSpin i => .load (.funcptr i)
  | .joinLoad i => .load (.retval i)

/-- The first access of what client code chooses. A join of the caller itself or of a number
that is no hardware thread returns at once, and `main` does not return to `__rigel_premain`. -/
def clientPc (t : Fin N) : Choice → Pc
  | .stay => .client
  | .create f a => .scan f a 0
  | .join i => if i=t ∨ N ≤ i then .client else .joinSpin i
  | .done v => if t.val=0 then .client else .storeRet v

/-- The update that follows another one: argument, caller, number of the entry, and the routine
last. -/
def nextFill (r : ℕ) : Fill → Fill
  | .arg => .loadTid
  | .loadTid => .calling r
  | .calling _ => .tid
  | .tid => .func
  | .func => .func

/-- The next access of a hardware thread. The scan of `pthread_create` goes on to the next entry
while it finds a routine. -/
def next (t : Fin N) (pc : Pc) (choice : Choice) (r : ℕ) : Pc :=
  match pc with
  | .poll => if r=0 then .poll else .callFunc
  | .callFunc => .callArg r
  | .callArg _ => .client
  | .storeRet _ => .clear
  | .clear => .poll
  | .client => clientPc t choice
  | .scan f a i => if i < M then if r=0 then .fill f a i .arg else .scan f a (i+1) else .client
  | .fill _ _ _ .func => .client
  | .fill f a i u => .fill f a i (nextFill r u)
  | .joinSpin i => if r=0 then .joinLoad i else .joinSpin i
  | .joinLoad _ => .client

/-- The event of a step. A call shows its return, and the last update of a creation is its
return. -/
def emit (t : Fin N) (pc : Pc) (choice : Choice) (r : ℕ) : Option (Event N) :=
  match pc with
  | .callArg f => some (.started t f r)
  | .client => match choice with
    | .join i => if i=t ∨ N ≤ i then some (.unjoined t i) else none
    | .done v => if t.val=0 then none else some (.finished t v)
    | _ => none
  | .scan _ _ i => if i < M then none else some (.refused t)
  | .fill f a i .func => some (.created t i f a)
  | .joinLoad i => some (.joined t i r)
  | _ => none

/-- `N` hardware threads and a table of `M` entries. -/
def program (N : ℕ) : Program (Fin N) Loc Pc Choice (Event N) where
  access t pc := access M t pc
  next t pc choice r := next M t pc choice r
  emit t pc choice r := emit M t pc choice r

end Steps

/-- States of the hardware threads and the table. -/
abbrev JState (N : ℕ) := State (Fin N) Loc Pc (Event N)

/-- Turns of the hardware threads. -/
abbrev JTurn (N : ℕ) := Turn (Fin N) Choice

/-- The table after `__rigel_premain` of the first thread. -/
def initWord : Loc → ℕ
  | .funcptr 0 => 2^32-1
  | _ => 0

/-- The first thread is in `main` and the others poll. -/
def initial (N : ℕ) : JState N :=
  ⟨initWord,fun _ => none,fun t => if t.val=0 then .client else .poll,[]⟩

/-- The life of an entry of the table, as its events tell it: idle, created, with its routine
running, and over until it is joined. -/
inductive Slot where
  /-- No creation, or the last one is joined. -/
  | idle
  /-- Created with a routine and an argument, and not started. -/
  | born (f a : ℕ)
  /-- The routine runs. -/
  | running (f a : ℕ)
  /-- The routine has returned a value. -/
  | ended (f a v : ℕ)
  deriving DecidableEq

/-- The life of entry `i` after an event: created, called, over, joined. Events of other entries
leave it as it is. -/
def advance {N : ℕ} (i : ℕ) (e : Event N) (σ : Slot) : Slot :=
  match e with
  | .created _ j f a => if j=i then .born f a else σ
  | .started t f a => if t.val=i then .running f a else σ
  | .finished t v => if t.val=i then
      match σ with
      | .running f a => .ended f a v
      | _ => σ
    else σ
  | .joined _ j _ => if j=i then .idle else σ
  | _ => σ

/-- The life of entry `i` after a trace, the latest event at its head. -/
def slot {N : ℕ} (i : ℕ) : List (Event N) → Slot
  | [] => .idle
  | e::es => advance i e (slot i es)

/-- An event that the life of its entry allows: a creation gets an entry whose last creation is
joined, a start runs the routine and the argument of the creation, once, and a join yields the
value of the routine. -/
def Legal {N : ℕ} (trace : List (Event N)) : Event N → Prop
  | .created _ i _ _ => slot i trace=.idle
  | .started t f a => slot t.val trace=.born f a
  | .finished t _ => ∃ f a, slot t.val trace=.running f a
  | .joined _ i v => ∃ f a, slot i trace=.ended f a v
  | .refused _ => True
  | .unjoined _ _ => False

/-- The entry that a thread fills. -/
def filling : Pc → Option ℕ
  | .fill _ _ i _ => some i
  | _ => none

/-- The entry that a thread joins. -/
def joining : Pc → Option ℕ
  | .joinSpin i => some i
  | .joinLoad i => some i
  | _ => none

/-- Client code passes routines that are not `NULL`, and joins a thread that was created, is not
joined or being joined, and is not the caller. -/
structure Client {N : ℕ} (s : JState N) (turn : JTurn N) : Prop where
  /-- Routines are not `NULL`. -/
  routine : s.pc turn.thread=.client → ∀ f a, turn.choice=.create f a → f≠0
  /-- A thread is joined once, by another thread. -/
  join : s.pc turn.thread=.client → ∀ i, turn.choice=.join i →
    slot i s.trace≠.idle ∧ i≠turn.thread ∧ ∀ u, joining (s.pc u)≠some i

/-- A creation that finds entry `i` without a function pointer may have it: it belongs to a
hardware thread, its last creation is joined, and no other creation fills it. -/
def Vacant {N : ℕ} (M : ℕ) (s : JState N) (turn : JTurn N) : Prop :=
  ∀ f a i, s.pc turn.thread=.scan f a i → i < M → s.word (.funcptr i)=0 →
    i < N ∧ slot i s.trace=.idle ∧ ∀ u, filling (s.pc u)≠some i

section Decide

variable {N : ℕ}

/-- The routine that a choice creates. -/
def Choice.routine : Choice → Option ℕ
  | .create f _ => some f
  | _ => none

/-- The thread that a choice joins. -/
def Choice.target : Choice → Option ℕ
  | .join i => some i
  | _ => none

/-- The entry that a creation tests. -/
def testing : Pc → Option ℕ
  | .scan _ _ i => some i
  | _ => none

/-- A choice with a routine is a creation. -/
theorem Choice.routine_eq {c : Choice} {f : ℕ} (h : f∈c.routine) : ∃ a, c=.create f a := by
  cases c with
  | create g a =>
    cases h
    exact ⟨a,rfl⟩
  | _ => cases h

/-- A choice with a target is a join. -/
theorem Choice.target_eq {c : Choice} {i : ℕ} (h : i∈c.target) : c=.join i := by
  cases c with
  | join j =>
    cases h
    rfl
  | _ => cases h

/-- A thread that tests an entry scans. -/
theorem testing_eq {p : Pc} {i : ℕ} (h : i∈testing p) : ∃ f a, p=.scan f a i := by
  cases p with
  | scan f a j =>
    cases h
    exact ⟨f,a,rfl⟩
  | _ => cases h

instance (s : JState N) (turn : JTurn N) : Decidable (Client s turn) :=
  decidable_of_iff ((s.pc turn.thread=.client → ∀ f∈turn.choice.routine, f≠0) ∧
      (s.pc turn.thread=.client → ∀ i∈turn.choice.target,
        slot i s.trace≠.idle ∧ i≠turn.thread ∧ ∀ u, joining (s.pc u)≠some i))
    ⟨fun h => ⟨fun hp f a hc => h.1 hp f (by rw [hc]; rfl),
        fun hp i hc => h.2 hp i (by rw [hc]; rfl)⟩,
      fun h => ⟨fun hp f hf => (Choice.routine_eq hf).elim fun a hc => h.routine hp f a hc,
        fun hp i hi => h.join hp i (Choice.target_eq hi)⟩⟩

instance (M : ℕ) (s : JState N) (turn : JTurn N) : Decidable (Vacant M s turn) :=
  decidable_of_iff (∀ i∈testing (s.pc turn.thread), i < M → s.word (.funcptr i)=0 →
      i < N ∧ slot i s.trace=.idle ∧ ∀ u, filling (s.pc u)≠some i)
    ⟨fun h f a i hp => h i (by rw [hp]; rfl),
      fun h i hi => (testing_eq hi).elim fun f hf => hf.elim fun a hp => h f a i hp⟩

end Decide

/-- In a start routine or in `main`, or in a call of this library from there. The other accesses are
those of `__rigel_premain`. -/
def inClient : Pc → Bool
  | .client => true
  | .scan _ _ _ => true
  | .fill _ _ _ _ => true
  | .joinSpin _ => true
  | .joinLoad _ => true
  | _ => false

/-- The local state of the hardware thread of an entry. -/
def worker {N : ℕ} (s : JState N) (i : ℕ) : Option Pc :=
  if h : i < N then some (s.pc ⟨i,h⟩) else none

/-- The words of an entry and its hardware thread, for each stage of its life. The stage tells which
words may be read and by whom. -/
def SlotOk (σ : Slot) (pc : Option Pc) (funcptr funcarg retval : ℕ) : Prop :=
  match σ with
  | .idle => funcptr=0 ∧ ∀ p, pc=some p → p=.poll
  | .born f a => f≠0 ∧ funcptr=f ∧ funcarg=a ∧
      (pc=some .poll ∨ pc=some .callFunc ∨ pc=some (.callArg f))
  | .running _ _ => funcptr≠0 ∧ ∃ p, pc=some p ∧ inClient p=true
  | .ended _ _ v => (pc=some (.storeRet v) ∧ funcptr≠0) ∨
      (pc=some .clear ∧ funcptr≠0 ∧ retval=v) ∨ (pc=some .poll ∧ funcptr=0 ∧ retval=v)

/-- Creations that fill an entry after its argument. -/
def argStored : Fill → Bool
  | .arg => false
  | _ => true

/-- The table, the hardware threads and the calls in progress: every entry is in one stage of its
life, with its words and its hardware thread. -/
structure JInv {N : ℕ} (s : JState N) : Prop where
  /-- The first entry is never free. -/
  main : s.word (.funcptr 0)≠0
  /-- The first entry is never created. -/
  zero : slot 0 s.trace=.idle
  /-- The first thread is in `main`. -/
  first : ∀ t : Fin N, t.val=0 → inClient (s.pc t)=true
  /-- The other entries. -/
  slots : ∀ i, 0 < i → SlotOk (slot i s.trace) (worker s i) (s.word (.funcptr i))
    (s.word (.funcarg i)) (s.word (.retval i))
  /-- A creation scans with a routine. -/
  scans : ∀ t f a i, s.pc t=.scan f a i → f≠0
  /-- A creation fills an idle entry of a hardware thread. -/
  fills : ∀ t f a i u, s.pc t=.fill f a i u → f≠0 ∧ 0 < i ∧ i < N ∧ slot i s.trace=.idle ∧
    (argStored u=true → s.word (.funcarg i)=a)
  /-- One creation fills an entry. -/
  alone : ∀ t u i, filling (s.pc t)=some i → filling (s.pc u)=some i → t=u
  /-- A join is about an entry that is not joined. -/
  joins : ∀ t i, joining (s.pc t)=some i → 0 < i ∧ slot i s.trace≠.idle
  /-- One thread joins an entry. -/
  sole : ∀ t u i, joining (s.pc t)=some i → joining (s.pc u)=some i → t=u
  /-- A join reads the value after the pointer was cleared. -/
  loads : ∀ t i, s.pc t=.joinLoad i → s.word (.funcptr i)=0

/-- Before the first creation every entry is idle, and all hardware threads but the first poll
theirs. -/
theorem jInv_initial (N : ℕ) : JInv (initial N) := by
  have hpc : ∀ t : Fin N, (initial N).pc t=.client ∨ (initial N).pc t=.poll := by
    intro t
    by_cases ht : t.val=0
    · exact .inl (if_pos ht)
    · exact .inr (if_neg ht)
  refine ⟨?_,rfl,?_,?_,?_,?_,?_,?_,?_,?_⟩
  · show 2^32-1≠0
    decide
  · intro t ht
    show inClient (if t.val=0 then .client else .poll)=true
    rw [if_pos ht]
    rfl
  · intro i hi
    obtain ⟨k,rfl⟩ : ∃ k, i=k+1 := ⟨i-1,by omega⟩
    refine ⟨rfl,?_⟩
    intro p hp
    unfold worker at hp
    split at hp
    · cases hp
      show (if k+1=0 then Pc.client else .poll)=.poll
      exact if_neg (Nat.succ_ne_zero k)
    · cases hp
  · intro t f a i h
    rcases hpc t with hp|hp <;> rw [hp] at h <;> cases h
  · intro t f a i u h
    rcases hpc t with hp|hp <;> rw [hp] at h <;> cases h
  · intro t u i h
    rcases hpc t with hp|hp <;> rw [hp] at h <;> cases h
  · intro t i h
    rcases hpc t with hp|hp <;> rw [hp] at h <;> cases h
  · intro t u i h
    rcases hpc t with hp|hp <;> rw [hp] at h <;> cases h
  · intro t i h
    rcases hpc t with hp|hp <;> rw [hp] at h <;> cases h

section Move

variable {N M : ℕ} {s s' : JState N} {t : Fin N}

/-- The hardware thread of the entry with its own number. -/
theorem worker_self (s : JState N) (t : Fin N) : worker s t=some (s.pc t) := by
  unfold worker
  rw [dif_pos t.isLt]

/-- The hardware threads of the other entries did not move. -/
theorem worker_other (hother : ∀ u, u≠t → s'.pc u=s.pc u) {i : ℕ} (hi : i≠t) :
    worker s' i=worker s i := by
  unfold worker
  split
  · rename_i h
    rw [hother ⟨i,h⟩ (fun he => hi (congrArg Fin.val he))]
  · rfl

/-- What the local state of thread `t` promises about its call, with the other threads as in `s`
and the entries as in `s'`. -/
def CallOk (s s' : JState N) (t : Fin N) : Pc → Prop
  | .scan f _ _ => f≠0
  | .fill f a i u => (f≠0 ∧ 0 < i ∧ i < N ∧ slot i s'.trace=.idle ∧
      (argStored u=true → s'.word (.funcarg i)=a)) ∧ ∀ v, v≠t → filling (s.pc v)≠some i
  | .joinSpin i => (0 < i ∧ slot i s'.trace≠.idle) ∧ ∀ v, v≠t → joining (s.pc v)≠some i
  | .joinLoad i => ((0 < i ∧ slot i s'.trace≠.idle) ∧ ∀ v, v≠t → joining (s.pc v)≠some i) ∧
      s'.word (.funcptr i)=0
  | _ => True

/-- Nobody else fills the entry that the call fills. -/
theorem CallOk.alone {p : Pc} (h : CallOk s s' t p) {i : ℕ} (hp : filling p=some i) :
    ∀ v, v≠t → filling (s.pc v)≠some i := by
  cases p with
  | fill f a j u =>
    cases hp
    exact h.2
  | _ => cases hp

/-- The entry that the call joins is not joined, and nobody else joins it. -/
theorem CallOk.join {p : Pc} (h : CallOk s s' t p) {i : ℕ} (hp : joining p=some i) :
    (0 < i ∧ slot i s'.trace≠.idle) ∧ ∀ v, v≠t → joining (s.pc v)≠some i := by
  cases p with
  | joinSpin j =>
    cases hp
    exact h
  | joinLoad j =>
    cases hp
    exact h.1
  | _ => cases hp

/-- A call that touches no entry keeps its promise. -/
theorem CallOk.congr {p : Pc} (h : CallOk s s t p) (hslot : ∀ i, slot i s'.trace=slot i s.trace)
    (hptr : ∀ i, s'.word (.funcptr i)=s.word (.funcptr i))
    (harg : ∀ i, s'.word (.funcarg i)=s.word (.funcarg i)) : CallOk s s' t p := by
  cases p with
  | fill f a i u =>
    obtain ⟨⟨hf,hi,hN,hidle,hstored⟩,halone⟩ := h
    exact ⟨⟨hf,hi,hN,(hslot i).trans hidle,fun hu => (harg i).trans (hstored hu)⟩,halone⟩
  | joinSpin i =>
    obtain ⟨⟨hi,hne⟩,hsole⟩ := h
    exact ⟨⟨hi,(hslot i).trans_ne hne⟩,hsole⟩
  | joinLoad i =>
    obtain ⟨⟨⟨hi,hne⟩,hsole⟩,hnull⟩ := h
    exact ⟨⟨⟨hi,(hslot i).trans_ne hne⟩,hsole⟩,(hptr i).trans hnull⟩
  | _ => exact h

/-- A turn of hardware thread `t`: the obligations for its own calls and for the entries. The other
threads keep what they know. -/
theorem JInv.move (h : JInv s) (hother : ∀ u, u≠t → s'.pc u=s.pc u)
    (hmain : s'.word (.funcptr 0)≠0) (hzero : slot 0 s'.trace=.idle)
    (hfirst : t.val=0 → inClient (s'.pc t)=true)
    (hslots : ∀ i, 0 < i → SlotOk (slot i s'.trace) (worker s' i) (s'.word (.funcptr i))
      (s'.word (.funcarg i)) (s'.word (.retval i)))
    (hidle : ∀ i u, u≠t → filling (s.pc u)=some i → slot i s.trace=.idle →
      slot i s'.trace=.idle ∧ s'.word (.funcarg i)=s.word (.funcarg i))
    (hbusy : ∀ i u, u≠t → joining (s.pc u)=some i → slot i s.trace≠.idle →
      slot i s'.trace≠.idle ∧ (s.word (.funcptr i)=0 → s'.word (.funcptr i)=0))
    (hcall : CallOk s s' t (s'.pc t)) : JInv s' := by
  refine ⟨hmain,hzero,?_,hslots,?_,?_,?_,?_,?_,?_⟩
  · intro u hu
    by_cases hut : u=t
    · rw [hut] at hu ⊢
      exact hfirst hu
    · rw [hother u hut]
      exact h.first u hu
  · intro u f a i hu
    by_cases hut : u=t
    · rw [hut] at hu
      rw [hu] at hcall
      exact hcall
    · rw [hother u hut] at hu
      exact h.scans u f a i hu
  · intro u f a i v hu
    by_cases hut : u=t
    · rw [hut] at hu
      rw [hu] at hcall
      exact hcall.1
    · rw [hother u hut] at hu
      obtain ⟨hf,hi0,hiN,hidl,harg⟩ := h.fills u f a i v hu
      obtain ⟨hidl',harg'⟩ := hidle i u hut (by rw [hu]; rfl) hidl
      rw [harg']
      exact ⟨hf,hi0,hiN,hidl',harg⟩
  · intro u v i hu hv
    by_cases hut : u=t
    · by_cases hvt : v=t
      · rw [hut,hvt]
      · rw [hut] at hu
        rw [hother v hvt] at hv
        exact absurd hv (hcall.alone hu v hvt)
    · rw [hother u hut] at hu
      by_cases hvt : v=t
      · rw [hvt] at hv
        exact absurd hu (hcall.alone hv u hut)
      · rw [hother v hvt] at hv
        exact h.alone u v i hu hv
  · intro u i hu
    by_cases hut : u=t
    · rw [hut] at hu
      exact (hcall.join hu).1
    · rw [hother u hut] at hu
      obtain ⟨hi0,hne⟩ := h.joins u i hu
      exact ⟨hi0,(hbusy i u hut hu hne).1⟩
  · intro u v i hu hv
    by_cases hut : u=t
    · by_cases hvt : v=t
      · rw [hut,hvt]
      · rw [hut] at hu
        rw [hother v hvt] at hv
        exact absurd hv ((hcall.join hu).2 v hvt)
    · rw [hother u hut] at hu
      by_cases hvt : v=t
      · rw [hvt] at hv
        exact absurd hu ((hcall.join hv).2 u hut)
      · rw [hother v hvt] at hv
        exact h.sole u v i hu hv
  · intro u i hu
    by_cases hut : u=t
    · rw [hut] at hu
      rw [hu] at hcall
      exact hcall.2
    · rw [hother u hut] at hu
      have hj : joining (s.pc u)=some i := by
        rw [hu]
        rfl
      obtain ⟨-,hne⟩ := h.joins u i hj
      exact (hbusy i u hut hj hne).2 (h.loads u i hu)

/-- The entry of a thread in a start routine is running. -/
theorem SlotOk.running_of_client {σ : Slot} {p : Pc} {x y z : ℕ} (h : SlotOk σ (some p) x y z)
    (hp : inClient p=true) : ∃ f a, σ=.running f a ∧ x≠0 := by
  cases σ with
  | idle =>
    rw [h.2 p rfl] at hp
    cases hp
  | born f a =>
    obtain ⟨-,-,-,hpc|hpc|hpc⟩ := h <;> cases hpc <;> cases hp
  | running f a => exact ⟨f,a,rfl,h.1⟩
  | ended f a v =>
    rcases h with ⟨hpc,-⟩|⟨hpc,-⟩|⟨hpc,-⟩ <;> cases hpc <;> cases hp

/-- The entries after a turn of client code that touches none of them. -/
theorem JInv.slots_client (h : JInv s) (hother : ∀ u, u≠t → s'.pc u=s.pc u)
    (hp : inClient (s.pc t)=true) (hp' : inClient (s'.pc t)=true) {i : ℕ} (hi : 0 < i)
    (hslot : slot i s'.trace=slot i s.trace)
    (hptr : s'.word (.funcptr i)=s.word (.funcptr i))
    (harg : slot i s.trace=.idle ∨ s'.word (.funcarg i)=s.word (.funcarg i))
    (hret : s'.word (.retval i)=s.word (.retval i)) :
    SlotOk (slot i s'.trace) (worker s' i) (s'.word (.funcptr i)) (s'.word (.funcarg i))
      (s'.word (.retval i)) := by
  have hold := h.slots i hi
  rw [hslot,hptr,hret]
  by_cases hit : i=t
  · rw [hit,worker_self] at hold ⊢
    obtain ⟨f,a,hrun,hne⟩ := hold.running_of_client hp
    rw [hrun]
    exact ⟨hne,_,rfl,hp'⟩
  · rw [worker_other hother hit]
    rcases harg with hidl|harg
    · rw [hidl] at hold ⊢
      exact hold
    · rw [harg]
      exact hold

/-- A turn of client code that touches no entry. -/
theorem JInv.quiet (h : JInv s) (hother : ∀ u, u≠t → s'.pc u=s.pc u)
    (hp : inClient (s.pc t)=true) (hp' : inClient (s'.pc t)=true)
    (hslot : ∀ i, slot i s'.trace=slot i s.trace)
    (hptr : ∀ i, s'.word (.funcptr i)=s.word (.funcptr i))
    (harg : ∀ i, s'.word (.funcarg i)=s.word (.funcarg i))
    (hret : ∀ i, s'.word (.retval i)=s.word (.retval i))
    (hcall : CallOk s s t (s'.pc t)) : JInv s' := by
  refine h.move hother (by rw [hptr]; exact h.main) (by rw [hslot]; exact h.zero) (fun _ => hp')
    ?_ ?_ ?_ (hcall.congr hslot hptr harg)
  · intro i hi
    exact h.slots_client hother hp hp' hi (hslot i) (hptr i) (.inr (harg i)) (hret i)
  · intro i u _ _ hidl
    rw [hslot]
    exact ⟨hidl,harg i⟩
  · intro i u _ _ hne
    rw [hslot,hptr]
    exact ⟨hne,id⟩

/-- An entry that is not idle belongs to a hardware thread other than the first, which runs
`main`. -/
theorem JInv.busy (h : JInv s) {i : ℕ} (hne : slot i s.trace≠.idle) : 0 < i ∧ i < N := by
  have hi : 0 < i := by
    by_contra h0
    have hz : i=0 := by omega
    rw [hz] at hne
    exact hne h.zero
  refine ⟨hi,?_⟩
  by_contra hN
  have hnone : worker s i=none := dif_neg hN
  have hok := h.slots i hi
  rw [hnone] at hok
  cases hσ : slot i s.trace with
  | idle => exact hne hσ
  | born f a =>
    rw [hσ] at hok
    obtain ⟨-,-,-,hpc|hpc|hpc⟩ := hok <;> cases hpc
  | running f a =>
    rw [hσ] at hok
    obtain ⟨-,p,hpc,-⟩ := hok
    cases hpc
  | ended f a v =>
    rw [hσ] at hok
    rcases hok with ⟨hpc,-⟩|⟨hpc,-⟩|⟨hpc,-⟩ <;> cases hpc

/-- A turn without an event keeps the life of every entry. -/
theorem slot_none {turn : JTurn N} (hshow : shows (program M N) s turn=none) (i : ℕ) :
    slot i (step (program M N) s turn).trace=slot i s.trace := by
  rw [step_trace,hshow]
  rfl

/-- A turn with an event advances the life of every entry. -/
theorem slot_some {turn : JTurn N} {e : Event N} (hshow : shows (program M N) s turn=some e)
    (i : ℕ) : slot i (step (program M N) s turn).trace=advance i e (slot i s.trace) := by
  rw [step_trace,hshow]
  rfl

end Move

section Turns

variable {N M : ℕ} {s : JState N} {turn : JTurn N}

/-- The threads that do not move. -/
theorem others (s : JState N) (turn : JTurn N) :
    ∀ u, u≠turn.thread → (step (program M N) s turn).pc u=s.pc u :=
  fun _ hu => step_pc_other (program M N) s turn hu

/-- A turn of client code that writes nothing and is not visible. -/
theorem JInv.silent (h : JInv s) (hp : inClient (s.pc turn.thread)=true)
    (hp' : inClient ((step (program M N) s turn).pc turn.thread)=true)
    (hevent : shows (program M N) s turn=none)
    (hword : (step (program M N) s turn).word=s.word)
    (hcall : CallOk s s turn.thread ((step (program M N) s turn).pc turn.thread)) :
    JInv (step (program M N) s turn) ∧
      ∀ e, shows (program M N) s turn=some e → Legal s.trace e := by
  refine ⟨?_,fun e he => by rw [hevent] at he; cases he⟩
  exact h.quiet (others s turn) hp hp' (slot_none hevent) (by simp only [hword,implies_true])
    (by simp only [hword,implies_true]) (by simp only [hword,implies_true]) hcall

/-- Client code chooses: it calls a function, returns from its start routine or does nothing of
interest here. Of the table nothing is changed. -/
theorem jInv_client (h : JInv s) (ok : Client s turn) (hp : s.pc turn.thread=.client) :
    JInv (step (program M N) s turn) ∧
      ∀ e, shows (program M N) s turn=some e → Legal s.trace e := by
  obtain ⟨hpc,hword,hevent⟩ := step_at (program M N) s turn hp
  have hother := others (M := M) s turn
  have hin : inClient (s.pc turn.thread)=true := by
    rw [hp]
    rfl
  change (step (program M N) s turn).pc turn.thread=clientPc turn.thread turn.choice at hpc
  change (step (program M N) s turn).word=s.word at hword
  cases hc : turn.choice with
  | stay =>
    rw [hc] at hpc hevent
    change (step (program M N) s turn).pc turn.thread=.client at hpc
    change shows (program M N) s turn=none at hevent
    refine h.silent hin (by rw [hpc]; rfl) hevent hword ?_
    rw [hpc]
    trivial
  | create f a =>
    rw [hc] at hpc hevent
    change (step (program M N) s turn).pc turn.thread=.scan f a 0 at hpc
    change shows (program M N) s turn=none at hevent
    refine h.silent hin (by rw [hpc]; rfl) hevent hword ?_
    rw [hpc]
    exact ok.routine hp f a hc
  | join i =>
    obtain ⟨hne,hself,hfree⟩ := ok.join hp i hc
    obtain ⟨hi,hN⟩ := h.busy hne
    have hgo : ¬(i=turn.thread ∨ N ≤ i) := by
      rintro (he|he)
      · exact hself he
      · omega
    rw [hc] at hpc hevent
    change (step (program M N) s turn).pc turn.thread=
      (if i=turn.thread ∨ N ≤ i then .client else .joinSpin i) at hpc
    change shows (program M N) s turn=
      (if i=turn.thread ∨ N ≤ i then some (.unjoined turn.thread i) else none) at hevent
    rw [if_neg hgo] at hpc hevent
    refine h.silent hin (by rw [hpc]; rfl) hevent hword ?_
    rw [hpc]
    exact ⟨⟨hi,hne⟩,fun u _ => hfree u⟩
  | done v =>
    rw [hc] at hpc hevent
    change (step (program M N) s turn).pc turn.thread=
      (if turn.thread.val=0 then .client else .storeRet v) at hpc
    change shows (program M N) s turn=
      (if turn.thread.val=0 then none else some (.finished turn.thread v)) at hevent
    by_cases hz : turn.thread.val=0
    · rw [if_pos hz] at hpc hevent
      refine h.silent hin (by rw [hpc]; rfl) hevent hword ?_
      rw [hpc]
      trivial
    · rw [if_neg hz] at hpc hevent
      have hslot := slot_some hevent
      have hown := h.slots turn.thread (Nat.pos_of_ne_zero hz)
      rw [worker_self] at hown
      obtain ⟨f,a,hrun,hptr⟩ := hown.running_of_client hin
      have hmine : slot turn.thread (step (program M N) s turn).trace=.ended f a v := by
        rw [hslot,hrun]
        exact if_pos rfl
      have hsame : ∀ i : ℕ, i≠turn.thread →
          slot i (step (program M N) s turn).trace=slot i s.trace := by
        intro i hi
        rw [hslot]
        exact if_neg (Ne.symm hi)
      refine ⟨?_,?_⟩
      · refine h.move hother (by rw [hword]; exact h.main) ?_ (fun h0 => absurd h0 hz) ?_ ?_ ?_
          ?_
        · rw [hsame 0 (fun h0 => hz h0.symm)]
          exact h.zero
        · intro i hi
          rw [hword]
          by_cases hit : i=turn.thread
          · rw [hit,hmine,worker_self,hpc]
            exact .inl ⟨rfl,hptr⟩
          · rw [hsame i hit,worker_other hother hit]
            exact h.slots i hi
        · intro i u _ _ hidl
          rw [hword]
          have hit : i≠turn.thread := by
            intro he
            rw [he,hrun] at hidl
            cases hidl
          rw [hsame i hit]
          exact ⟨hidl,rfl⟩
        · intro i u _ _ hne
          rw [hword]
          refine ⟨?_,id⟩
          by_cases hit : i=turn.thread
          · rw [hit,hmine]
            exact fun h => by cases h
          · rw [hsame i hit]
            exact hne
        · rw [hpc]
          trivial
      · intro e he
        rw [hevent] at he
        cases he
        exact ⟨f,a,hrun⟩

/-- A creation tests an entry. It picks the first whose routine is `NULL`, which is idle in the runs
that are allowed. -/
theorem jInv_scan (h : JInv s) (hvacant : Vacant M s turn) {f a i : ℕ}
    (hp : s.pc turn.thread=.scan f a i) :
    JInv (step (program M N) s turn) ∧
      ∀ e, shows (program M N) s turn=some e → Legal s.trace e := by
  obtain ⟨hpc,hword,hevent⟩ := step_at (program M N) s turn hp
  have hin : inClient (s.pc turn.thread)=true := by
    rw [hp]
    rfl
  have hf := h.scans turn.thread f a i hp
  change shows (program M N) s turn=(if i < M then none else some (.refused turn.thread))
    at hevent
  by_cases hM : i < M
  · rw [if_pos hM] at hevent
    have haccess : access M turn.thread (.scan f a i)=.load (.funcptr i) := if_pos hM
    change (step (program M N) s turn).pc turn.thread=
      next M turn.thread (.scan f a i) turn.choice
        (result s turn.thread turn.lose (access M turn.thread (.scan f a i))) at hpc
    change (step (program M N) s turn).word=
      applyWrite s.word (written s turn.thread turn.lose (access M turn.thread (.scan f a i)))
        at hword
    rw [haccess] at hpc hword
    change (step (program M N) s turn).word=s.word at hword
    change (step (program M N) s turn).pc turn.thread=(if i < M then
      if s.word (.funcptr i)=0 then .fill f a i .arg else .scan f a (i+1) else .client) at hpc
    rw [if_pos hM] at hpc
    by_cases hz : s.word (.funcptr i)=0
    · -- the entry is free, and the condition makes it ours
      obtain ⟨hN,hidle,hfree⟩ := hvacant f a i hp hM hz
      have hi : 0 < i := by
        by_contra h0
        have he : i=0 := by omega
        rw [he] at hz
        exact h.main hz
      rw [if_pos hz] at hpc
      refine h.silent hin (by rw [hpc]; rfl) hevent hword ?_
      rw [hpc]
      exact ⟨⟨hf,hi,hN,hidle,fun h => by cases h⟩,fun u _ => hfree u⟩
    · rw [if_neg hz] at hpc
      refine h.silent hin (by rw [hpc]; rfl) hevent hword ?_
      rw [hpc]
      exact hf
  · rw [if_neg hM] at hevent
    have haccess : access M turn.thread (.scan f a i)=.skip := if_neg hM
    change (step (program M N) s turn).word=
      applyWrite s.word (written s turn.thread turn.lose (access M turn.thread (.scan f a i)))
        at hword
    rw [haccess] at hword
    change (step (program M N) s turn).word=s.word at hword
    have hpc' : (step (program M N) s turn).pc turn.thread=.client := by
      rw [hpc]
      exact if_neg hM
    refine ⟨?_,?_⟩
    · refine h.quiet (others s turn) hin (by rw [hpc']; rfl) (slot_some hevent)
        (by simp only [hword,implies_true]) (by simp only [hword,implies_true])
        (by simp only [hword,implies_true]) ?_
      rw [hpc']
      trivial
    · intro e he
      rw [hevent] at he
      cases he
      trivial

/-- A creation fills its entry, the routine last, so that the hardware thread of the entry sees a
complete one. -/
theorem jInv_fill (h : JInv s) {f a i : ℕ} {u : Fill} (hp : s.pc turn.thread=.fill f a i u) :
    JInv (step (program M N) s turn) ∧
      ∀ e, shows (program M N) s turn=some e → Legal s.trace e := by
  obtain ⟨hpc,hword,hevent⟩ := step_at (program M N) s turn hp
  have hother := others (M := M) s turn
  have hin : inClient (s.pc turn.thread)=true := by
    rw [hp]
    rfl
  obtain ⟨hf,hi,hN,hidle,harg⟩ := h.fills turn.thread f a i u hp
  have hmine : filling (s.pc turn.thread)=some i := by
    rw [hp]
    rfl
  have halone : ∀ v, v≠turn.thread → filling (s.pc v)≠some i := fun v hv hfill =>
    hv (h.alone v turn.thread i hfill hmine)
  -- the updates of the caller's number and of the entry's number touch nothing that is read
  have hplain : u≠.arg → u≠.func → (∀ j, (step (program M N) s turn).word (.funcptr j)=
        s.word (.funcptr j)) → (∀ j, (step (program M N) s turn).word (.funcarg j)=
        s.word (.funcarg j)) → (∀ j, (step (program M N) s turn).word (.retval j)=
        s.word (.retval j)) → shows (program M N) s turn=none →
      (∃ u', (step (program M N) s turn).pc turn.thread=.fill f a i u') →
      JInv (step (program M N) s turn) ∧
        ∀ e, shows (program M N) s turn=some e → Legal s.trace e := by
    rintro hu - h1 h2 h3 hnone ⟨u',hpc'⟩
    refine ⟨?_,fun e he => by rw [hnone] at he; cases he⟩
    refine h.quiet hother hin (by rw [hpc']; rfl) (slot_none hnone) h1 h2 h3 ?_
    rw [hpc']
    refine ⟨⟨hf,hi,hN,hidle,fun _ => harg ?_⟩,halone⟩
    cases u with
    | arg => exact absurd rfl hu
    | _ => rfl
  cases u with
  | arg =>
    change (step (program M N) s turn).pc turn.thread=.fill f a i .loadTid at hpc
    change (step (program M N) s turn).word=applyWrite s.word (some (.funcarg i,a)) at hword
    change shows (program M N) s turn=none at hevent
    have hslot := slot_none hevent
    have hptr : ∀ j, (step (program M N) s turn).word (.funcptr j)=s.word (.funcptr j) := by
      intro j
      rw [hword]
      exact applyWrite_keep fun v he => by cases he
    have hret : ∀ j, (step (program M N) s turn).word (.retval j)=s.word (.retval j) := by
      intro j
      rw [hword]
      exact applyWrite_keep fun v he => by cases he
    have hkeep : ∀ j, j≠i →
        (step (program M N) s turn).word (.funcarg j)=s.word (.funcarg j) := by
      intro j hj
      rw [hword]
      exact applyWrite_keep fun v he => hj (by cases he; rfl)
    refine ⟨?_,fun e he => by rw [hevent] at he; cases he⟩
    refine h.move hother (by rw [hptr]; exact h.main) (by rw [hslot]; exact h.zero)
      (fun _ => by rw [hpc]; rfl) ?_ ?_ ?_ ?_
    · intro j hj
      refine h.slots_client hother hin (by rw [hpc]; rfl) hj (hslot j) (hptr j) ?_ (hret j)
      by_cases hji : j=i
      · rw [hji]
        exact .inl hidle
      · exact .inr (hkeep j hji)
    · intro j v hv hfill hidl
      rw [hslot]
      refine ⟨hidl,hkeep j ?_⟩
      rintro rfl
      exact halone v hv hfill
    · intro j v _ _ hne
      rw [hslot,hptr]
      exact ⟨hne,id⟩
    · rw [hpc]
      refine ⟨⟨hf,hi,hN,(hslot i).trans hidle,fun _ => ?_⟩,halone⟩
      rw [hword]
      exact applyWrite_self
  | loadTid =>
    change (step (program M N) s turn).word=s.word at hword
    exact hplain (fun h => by cases h) (fun h => by cases h) (by simp only [hword,implies_true])
      (by simp only [hword,implies_true]) (by simp only [hword,implies_true]) hevent ⟨_,hpc⟩
  | calling tid =>
    change (step (program M N) s turn).word=applyWrite s.word (some (.callingtid i,tid)) at hword
    exact hplain (fun h => by cases h) (fun h => by cases h)
      (fun j => by rw [hword]; exact applyWrite_keep fun v he => by cases he)
      (fun j => by rw [hword]; exact applyWrite_keep fun v he => by cases he)
      (fun j => by rw [hword]; exact applyWrite_keep fun v he => by cases he) hevent ⟨_,hpc⟩
  | tid =>
    change (step (program M N) s turn).word=applyWrite s.word (some (.tid i,i)) at hword
    exact hplain (fun h => by cases h) (fun h => by cases h)
      (fun j => by rw [hword]; exact applyWrite_keep fun v he => by cases he)
      (fun j => by rw [hword]; exact applyWrite_keep fun v he => by cases he)
      (fun j => by rw [hword]; exact applyWrite_keep fun v he => by cases he) hevent ⟨_,hpc⟩
  | func =>
    change (step (program M N) s turn).pc turn.thread=.client at hpc
    change (step (program M N) s turn).word=applyWrite s.word (some (.funcptr i,f)) at hword
    change shows (program M N) s turn=some (.created turn.thread i f a) at hevent
    have hslot := slot_some hevent
    have harg' : ∀ j, (step (program M N) s turn).word (.funcarg j)=s.word (.funcarg j) := by
      intro j
      rw [hword]
      exact applyWrite_keep fun v he => by cases he
    have hret : ∀ j, (step (program M N) s turn).word (.retval j)=s.word (.retval j) := by
      intro j
      rw [hword]
      exact applyWrite_keep fun v he => by cases he
    have hptr : ∀ j, j≠i →
        (step (program M N) s turn).word (.funcptr j)=s.word (.funcptr j) := by
      intro j hj
      rw [hword]
      exact applyWrite_keep fun v he => hj (by cases he; rfl)
    have hborn : slot i (step (program M N) s turn).trace=.born f a := by
      rw [hslot]
      exact if_pos rfl
    have hsame : ∀ j, j≠i → slot j (step (program M N) s turn).trace=slot j s.trace := by
      intro j hj
      rw [hslot]
      exact if_neg (Ne.symm hj)
    refine ⟨?_,?_⟩
    · refine h.move hother (by rw [hptr 0 (by omega)]; exact h.main)
        (by rw [hsame 0 (by omega)]; exact h.zero) (fun _ => by rw [hpc]; rfl) ?_ ?_ ?_ ?_
      · intro j hj
        by_cases hji : j=i
        · -- the worker of the entry still polls
          subst hji
          have hold := h.slots j hj
          rw [hidle] at hold
          have hwork : worker (step (program M N) s turn) j=some .poll := by
            have hself : turn.thread≠⟨j,hN⟩ := by
              intro he
              have hwk : worker s j=some (s.pc turn.thread) := by
                rw [he]
                exact dif_pos hN
              rw [hold.2 _ hwk] at hin
              cases hin
            rw [worker_other hother (fun he => hself (Fin.ext he.symm))]
            have hwk : worker s j=some (s.pc ⟨j,hN⟩) := dif_pos hN
            rw [hwk,hold.2 _ hwk]
          rw [hborn,hwork,hword,applyWrite_self,applyWrite_keep (fun v he => by cases he)]
          exact ⟨hf,rfl,harg rfl,.inl rfl⟩
        · exact h.slots_client hother hin (by rw [hpc]; rfl) hj (hsame j hji) (hptr j hji)
            (.inr (harg' j)) (hret j)
      · intro j v hv hfill hidl
        have hji : j≠i := by
          rintro rfl
          exact halone v hv hfill
        rw [hsame j hji]
        exact ⟨hidl,harg' j⟩
      · intro j v _ _ hne
        have hji : j≠i := by
          rintro rfl
          exact hne hidle
        rw [hsame j hji,hptr j hji]
        exact ⟨hne,id⟩
      · rw [hpc]
        trivial
    · intro e he
      rw [hevent] at he
      cases he
      exact hidle

/-- A join spins until the hardware thread of the entry has cleared the routine. -/
theorem jInv_joinSpin (h : JInv s) {i : ℕ} (hp : s.pc turn.thread=.joinSpin i) :
    JInv (step (program M N) s turn) ∧
      ∀ e, shows (program M N) s turn=some e → Legal s.trace e := by
  obtain ⟨hpc,hword,hevent⟩ := step_at (program M N) s turn hp
  have hin : inClient (s.pc turn.thread)=true := by
    rw [hp]
    rfl
  have hmine : joining (s.pc turn.thread)=some i := by
    rw [hp]
    rfl
  have hjoins := h.joins turn.thread i hmine
  have hsole : ∀ u, u≠turn.thread → joining (s.pc u)≠some i := fun u hu hj =>
    hu (h.sole u turn.thread i hj hmine)
  change (step (program M N) s turn).word=s.word at hword
  change shows (program M N) s turn=none at hevent
  change (step (program M N) s turn).pc turn.thread=
    (if s.word (.funcptr i)=0 then .joinLoad i else .joinSpin i) at hpc
  by_cases hz : s.word (.funcptr i)=0
  · rw [if_pos hz] at hpc
    refine h.silent hin (by rw [hpc]; rfl) hevent hword ?_
    rw [hpc]
    exact ⟨⟨hjoins,hsole⟩,hz⟩
  · rw [if_neg hz] at hpc
    refine h.silent hin (by rw [hpc]; rfl) hevent hword ?_
    rw [hpc]
    exact ⟨hjoins,hsole⟩

/-- An entry that is not idle and has no function pointer is over. -/
theorem SlotOk.ended_of_null {σ : Slot} {p : Option Pc} {y z : ℕ} (h : SlotOk σ p 0 y z)
    (hne : σ≠.idle) : ∃ f a, σ=.ended f a z ∧ p=some .poll := by
  cases σ with
  | idle => exact absurd rfl hne
  | born f a =>
    obtain ⟨hf,h0,-⟩ := h
    exact absurd h0.symm hf
  | running f a => exact absurd rfl h.1
  | ended f a v =>
    rcases h with ⟨-,h0⟩|⟨-,h0,-⟩|⟨hp,-,hv⟩
    · exact absurd rfl h0
    · exact absurd rfl h0
    · exact ⟨f,a,by rw [hv],hp⟩

/-- A join reads the value of the routine and returns. The entry is idle from then on and may be
picked again. -/
theorem jInv_joinLoad (h : JInv s) {i : ℕ} (hp : s.pc turn.thread=.joinLoad i) :
    JInv (step (program M N) s turn) ∧
      ∀ e, shows (program M N) s turn=some e → Legal s.trace e := by
  obtain ⟨hpc,hword,hevent⟩ := step_at (program M N) s turn hp
  have hother := others (M := M) s turn
  have hin : inClient (s.pc turn.thread)=true := by
    rw [hp]
    rfl
  have hmine : joining (s.pc turn.thread)=some i := by
    rw [hp]
    rfl
  obtain ⟨hi,hne⟩ := h.joins turn.thread i hmine
  have hnull := h.loads turn.thread i hp
  have hok := h.slots i hi
  rw [hnull] at hok
  obtain ⟨f,a,hended,hpoll⟩ := hok.ended_of_null hne
  change (step (program M N) s turn).word=s.word at hword
  change (step (program M N) s turn).pc turn.thread=.client at hpc
  change shows (program M N) s turn=some (.joined turn.thread i (s.word (.retval i))) at hevent
  have hslot := slot_some hevent
  have hidle : slot i (step (program M N) s turn).trace=.idle := by
    rw [hslot]
    exact if_pos rfl
  have hsame : ∀ j, j≠i → slot j (step (program M N) s turn).trace=slot j s.trace := by
    intro j hj
    rw [hslot]
    exact if_neg (Ne.symm hj)
  refine ⟨?_,?_⟩
  · refine h.move hother (by rw [hword]; exact h.main) (by rw [hsame 0 (by omega)]; exact h.zero)
      (fun _ => by rw [hpc]; rfl) ?_ ?_ ?_ ?_
    · intro j hj
      by_cases hji : j=i
      · subst hji
        have hself : j≠turn.thread := by
          intro he
          rw [he,worker_self] at hpoll
          rw [Option.some.inj hpoll] at hin
          cases hin
        rw [hidle,worker_other hother hself,hpoll,hword]
        exact ⟨hnull,fun p he => (Option.some.inj he).symm⟩
      · exact h.slots_client hother hin (by rw [hpc]; rfl) hj (hsame j hji) (by rw [hword])
          (.inr (by rw [hword])) (by rw [hword])
    · intro j v _ _ hidl
      rw [hword]
      have hji : j≠i := by
        rintro rfl
        exact hne hidl
      rw [hsame j hji]
      exact ⟨hidl,rfl⟩
    · intro j v hv hjoin hbusy
      rw [hword]
      have hji : j≠i := by
        rintro rfl
        exact hv (h.sole v turn.thread j hjoin hmine)
      rw [hsame j hji]
      exact ⟨hbusy,id⟩
    · rw [hpc]
      trivial
  · intro e he
    rw [hevent] at he
    cases he
    exact ⟨f,a,hended⟩

/-- A turn of a hardware thread in `__rigel_premain`: only its own entry can change. -/
theorem JInv.premain (h : JInv s) (hz : turn.thread.val≠0)
    (hpc : inClient ((step (program M N) s turn).pc turn.thread)=false ∨
      (step (program M N) s turn).pc turn.thread=.client)
    (hsame : ∀ i : ℕ, i≠turn.thread →
      slot i (step (program M N) s turn).trace=slot i s.trace ∧
      (step (program M N) s turn).word (.funcptr i)=s.word (.funcptr i) ∧
      (step (program M N) s turn).word (.retval i)=s.word (.retval i))
    (harg : ∀ i, (step (program M N) s turn).word (.funcarg i)=s.word (.funcarg i))
    (hbusy : slot turn.thread s.trace≠.idle → slot turn.thread (step (program M N) s turn).trace≠
      .idle ∧ (s.word (.funcptr turn.thread)=0 →
        (step (program M N) s turn).word (.funcptr turn.thread)=0))
    (hidle : slot turn.thread s.trace=.idle →
      slot turn.thread (step (program M N) s turn).trace=.idle)
    (hok : SlotOk (slot turn.thread (step (program M N) s turn).trace)
      (some ((step (program M N) s turn).pc turn.thread))
      ((step (program M N) s turn).word (.funcptr turn.thread))
      ((step (program M N) s turn).word (.funcarg turn.thread))
      ((step (program M N) s turn).word (.retval turn.thread))) :
    JInv (step (program M N) s turn) := by
  have hother := others (M := M) s turn
  have h0 : (0 : ℕ)≠turn.thread := fun he => hz he.symm
  have hcall : ∀ p, inClient p=false ∨ p=.client →
      CallOk s (step (program M N) s turn) turn.thread p := by
    intro p hp
    cases p with
    | scan f a i => rcases hp with hp|hp <;> cases hp
    | fill f a i u => rcases hp with hp|hp <;> cases hp
    | joinSpin i => rcases hp with hp|hp <;> cases hp
    | joinLoad i => rcases hp with hp|hp <;> cases hp
    | _ => trivial
  refine h.move hother (by rw [(hsame 0 h0).2.1]; exact h.main)
    (by rw [(hsame 0 h0).1]; exact h.zero) (fun he => absurd he hz) ?_ ?_ ?_ (hcall _ hpc)
  · intro i hi
    by_cases hit : i=turn.thread
    · rw [hit,worker_self]
      exact hok
    · obtain ⟨h1,h2,h3⟩ := hsame i hit
      rw [h1,h2,h3,harg,worker_other hother hit]
      exact h.slots i hi
  · intro i u _ _ hidl
    refine ⟨?_,harg i⟩
    by_cases hit : i=turn.thread
    · rw [hit] at hidl ⊢
      exact hidle hidl
    · rw [(hsame i hit).1]
      exact hidl
  · intro i u _ _ hne
    by_cases hit : i=turn.thread
    · rw [hit] at hne ⊢
      exact hbusy hne
    · obtain ⟨h1,h2,-⟩ := hsame i hit
      rw [h1,h2]
      exact ⟨hne,id⟩

/-- A thread in `__rigel_premain` is not the first one. -/
theorem JInv.not_first (h : JInv s) {t : Fin N} (hp : inClient (s.pc t)=false) : t.val≠0 := by
  intro h0
  rw [h.first t h0] at hp
  cases hp

/-- A hardware thread polls its entry until it finds a routine. -/
theorem jInv_poll (h : JInv s) (hp : s.pc turn.thread=.poll) :
    JInv (step (program M N) s turn) ∧
      ∀ e, shows (program M N) s turn=some e → Legal s.trace e := by
  obtain ⟨hpc,hword,hevent⟩ := step_at (program M N) s turn hp
  have hz := h.not_first (t := turn.thread) (by rw [hp]; rfl)
  have hok := h.slots turn.thread (Nat.pos_of_ne_zero hz)
  rw [worker_self,hp] at hok
  change (step (program M N) s turn).word=s.word at hword
  change shows (program M N) s turn=none at hevent
  change (step (program M N) s turn).pc turn.thread=
    (if s.word (.funcptr turn.thread)=0 then .poll else .callFunc) at hpc
  have hslot := slot_none hevent
  refine ⟨?_,fun e he => by rw [hevent] at he; cases he⟩
  refine h.premain hz ?_ (fun i _ => ⟨hslot i,by rw [hword],by rw [hword]⟩)
    (fun i => by rw [hword]) ?_ ?_ ?_
  · left
    rw [hpc]
    split <;> rfl
  · intro hne
    rw [hslot,hword]
    exact ⟨hne,id⟩
  · intro hidl
    rw [hslot]
    exact hidl
  · rw [hslot,hword,hpc]
    by_cases hnull : s.word (.funcptr turn.thread)=0
    · rw [if_pos hnull]
      exact hok
    · -- only a created entry has a pointer while its thread polls
      rw [if_neg hnull]
      cases hσ : slot turn.thread s.trace with
      | idle =>
        rw [hσ] at hok
        exact absurd hok.1 hnull
      | born f a =>
        rw [hσ] at hok
        exact ⟨hok.1,hok.2.1,hok.2.2.1,.inr (.inl rfl)⟩
      | running f a =>
        rw [hσ] at hok
        obtain ⟨-,p,he,hin⟩ := hok
        cases he
        cases hin
      | ended f a v =>
        rw [hσ] at hok
        rcases hok with ⟨he,-⟩|⟨he,-⟩|⟨-,h0,-⟩
        · cases he
        · cases he
        · exact absurd h0 hnull

/-- A thread that is about to call has a created entry. -/
theorem SlotOk.born_of_call {σ : Slot} {p : Pc} {x y z : ℕ} (h : SlotOk σ (some p) x y z)
    (hp : p=.callFunc ∨ ∃ f, p=.callArg f) : ∃ f a, σ=.born f a := by
  cases σ with
  | idle =>
    have he := h.2 p rfl
    rcases hp with hp|⟨f,hp⟩ <;> rw [hp] at he <;> cases he
  | born f a => exact ⟨f,a,rfl⟩
  | running f a =>
    obtain ⟨-,q,he,hin⟩ := h
    cases he
    rcases hp with hp|⟨f',hp⟩ <;> rw [hp] at hin <;> cases hin
  | ended f a v =>
    rcases h with ⟨he,-⟩|⟨he,-⟩|⟨he,-⟩ <;> cases he <;> rcases hp with hp|⟨f',hp⟩ <;> cases hp

/-- A hardware thread loads the routine. Nobody has changed it since the poll, because only a
creation of an idle entry would. -/
theorem jInv_callFunc (h : JInv s) (hp : s.pc turn.thread=.callFunc) :
    JInv (step (program M N) s turn) ∧
      ∀ e, shows (program M N) s turn=some e → Legal s.trace e := by
  obtain ⟨hpc,hword,hevent⟩ := step_at (program M N) s turn hp
  have hz := h.not_first (t := turn.thread) (by rw [hp]; rfl)
  have hok := h.slots turn.thread (Nat.pos_of_ne_zero hz)
  rw [worker_self,hp] at hok
  obtain ⟨f,a,hborn⟩ := hok.born_of_call (.inl rfl)
  rw [hborn] at hok
  obtain ⟨hf,hptr,harg,-⟩ := hok
  change (step (program M N) s turn).word=s.word at hword
  change shows (program M N) s turn=none at hevent
  change (step (program M N) s turn).pc turn.thread=.callArg (s.word (.funcptr turn.thread)) at hpc
  have hslot := slot_none hevent
  refine ⟨?_,fun e he => by rw [hevent] at he; cases he⟩
  refine h.premain hz (.inl (by rw [hpc]; rfl))
    (fun i _ => ⟨hslot i,by rw [hword],by rw [hword]⟩) (fun i => by rw [hword]) ?_ ?_ ?_
  · intro hne
    rw [hslot,hword]
    exact ⟨hne,id⟩
  · intro hidl
    rw [hslot]
    exact hidl
  · rw [hslot,hword,hpc,hborn,hptr]
    exact ⟨hf,rfl,harg,.inr (.inr rfl)⟩

/-- A hardware thread loads the argument and calls the routine. The argument was stored before the
routine, so it is the one of the creation. -/
theorem jInv_callArg (h : JInv s) {f : ℕ} (hp : s.pc turn.thread=.callArg f) :
    JInv (step (program M N) s turn) ∧
      ∀ e, shows (program M N) s turn=some e → Legal s.trace e := by
  obtain ⟨hpc,hword,hevent⟩ := step_at (program M N) s turn hp
  have hz := h.not_first (t := turn.thread) (by rw [hp]; rfl)
  have hok := h.slots turn.thread (Nat.pos_of_ne_zero hz)
  rw [worker_self,hp] at hok
  obtain ⟨f',a,hborn⟩ := hok.born_of_call (.inr ⟨f,rfl⟩)
  rw [hborn] at hok
  obtain ⟨hf,hptr,harg,he|he|he⟩ := hok
  · cases he
  · cases he
  cases he
  change (step (program M N) s turn).word=s.word at hword
  change shows (program M N) s turn=some (.started turn.thread f (s.word (.funcarg turn.thread)))
    at hevent
  change (step (program M N) s turn).pc turn.thread=.client at hpc
  rw [harg] at hevent
  have hslot := slot_some hevent
  have hrun : slot turn.thread (step (program M N) s turn).trace=.running f a := by
    rw [hslot]
    exact if_pos rfl
  refine ⟨?_,?_⟩
  · refine h.premain hz (.inr hpc) ?_ (fun i => by rw [hword]) ?_ ?_ ?_
    · intro i hi
      rw [hslot,hword]
      exact ⟨if_neg (Ne.symm hi),rfl,rfl⟩
    · intro _
      rw [hrun,hword]
      exact ⟨(fun h => by cases h),id⟩
    · intro hidl
      rw [hborn] at hidl
      cases hidl
    · rw [hrun,hword,hpc,hptr]
      exact ⟨hf,_,rfl,rfl⟩
  · intro e he
    rw [hevent] at he
    cases he
    exact hborn

/-- A hardware thread whose routine has returned. -/
theorem SlotOk.ended_of_end {σ : Slot} {p : Pc} {x y z : ℕ} (h : SlotOk σ (some p) x y z)
    (hp : p=.clear ∨ ∃ v, p=.storeRet v) : ∃ f a v, σ=.ended f a v := by
  cases σ with
  | idle =>
    have he := h.2 p rfl
    rcases hp with hp|⟨v,hp⟩ <;> rw [hp] at he <;> cases he
  | born f a =>
    obtain ⟨-,-,-,he|he|he⟩ := h <;> cases he <;> rcases hp with hp|⟨v,hp⟩ <;> cases hp
  | running f a =>
    obtain ⟨-,q,he,hin⟩ := h
    cases he
    rcases hp with hp|⟨v,hp⟩ <;> rw [hp] at hin <;> cases hin
  | ended f a v => exact ⟨f,a,v,rfl⟩

/-- A hardware thread stores the result, before the entry looks free. A join that returns later
reads this value. -/
theorem jInv_storeRet (h : JInv s) {v : ℕ} (hp : s.pc turn.thread=.storeRet v) :
    JInv (step (program M N) s turn) ∧
      ∀ e, shows (program M N) s turn=some e → Legal s.trace e := by
  obtain ⟨hpc,hword,hevent⟩ := step_at (program M N) s turn hp
  have hz := h.not_first (t := turn.thread) (by rw [hp]; rfl)
  have hok := h.slots turn.thread (Nat.pos_of_ne_zero hz)
  rw [worker_self,hp] at hok
  obtain ⟨f,a,v',hended⟩ := hok.ended_of_end (.inr ⟨v,rfl⟩)
  rw [hended] at hok
  rcases hok with ⟨he,hptr⟩|⟨he,-⟩|⟨he,-⟩
  · cases he
    change (step (program M N) s turn).word=applyWrite s.word (some (.retval turn.thread,v))
      at hword
    change shows (program M N) s turn=none at hevent
    change (step (program M N) s turn).pc turn.thread=.clear at hpc
    have hslot := slot_none hevent
    have hptr' : ∀ i, (step (program M N) s turn).word (.funcptr i)=s.word (.funcptr i) := by
      intro i
      rw [hword]
      exact applyWrite_keep fun w he => by cases he
    refine ⟨?_,fun e he => by rw [hevent] at he; cases he⟩
    refine h.premain hz (.inl (by rw [hpc]; rfl)) ?_ ?_ ?_ ?_ ?_
    · intro i hi
      refine ⟨hslot i,hptr' i,?_⟩
      rw [hword]
      exact applyWrite_keep fun w he => hi (by cases he; rfl)
    · intro i
      rw [hword]
      exact applyWrite_keep fun w he => by cases he
    · intro hne
      rw [hslot,hptr']
      exact ⟨hne,id⟩
    · intro hidl
      rw [hslot]
      exact hidl
    · rw [hslot,hptr',hpc,hended,hword,applyWrite_self]
      exact .inr (.inl ⟨rfl,hptr,rfl⟩)
  · cases he
  · cases he

/-- A hardware thread clears its entry, which releases the join that spins on it. -/
theorem jInv_clear (h : JInv s) (hp : s.pc turn.thread=.clear) :
    JInv (step (program M N) s turn) ∧
      ∀ e, shows (program M N) s turn=some e → Legal s.trace e := by
  obtain ⟨hpc,hword,hevent⟩ := step_at (program M N) s turn hp
  have hz := h.not_first (t := turn.thread) (by rw [hp]; rfl)
  have hok := h.slots turn.thread (Nat.pos_of_ne_zero hz)
  rw [worker_self,hp] at hok
  obtain ⟨f,a,v,hended⟩ := hok.ended_of_end (.inl rfl)
  rw [hended] at hok
  rcases hok with ⟨he,-⟩|⟨-,hptr,hret⟩|⟨he,-⟩
  · cases he
  · change (step (program M N) s turn).word=applyWrite s.word (some (.funcptr turn.thread,0))
      at hword
    change shows (program M N) s turn=none at hevent
    change (step (program M N) s turn).pc turn.thread=.poll at hpc
    have hslot := slot_none hevent
    have hret' : ∀ i, (step (program M N) s turn).word (.retval i)=s.word (.retval i) := by
      intro i
      rw [hword]
      exact applyWrite_keep fun w he => by cases he
    have hnull : (step (program M N) s turn).word (.funcptr turn.thread)=0 := by
      rw [hword]
      exact applyWrite_self
    refine ⟨?_,fun e he => by rw [hevent] at he; cases he⟩
    refine h.premain hz (.inl (by rw [hpc]; rfl)) ?_ ?_ ?_ ?_ ?_
    · intro i hi
      refine ⟨hslot i,?_,hret' i⟩
      rw [hword]
      exact applyWrite_keep fun w he => hi (by cases he; rfl)
    · intro i
      rw [hword]
      exact applyWrite_keep fun w he => by cases he
    · intro hne
      rw [hslot]
      exact ⟨hne,fun _ => hnull⟩
    · intro hidl
      rw [hslot]
      exact hidl
    · rw [hslot,hnull,hpc,hended,hret']
      exact .inr (.inr ⟨rfl,rfl,hret⟩)
  · cases he

/-- The turns under which every entry lives in order: a creation that tests an entry finds a routine
there or one that is free, and entries are joined once. -/
def Allowed (M : ℕ) (s : JState N) (turn : JTurn N) : Prop := Client s turn ∧ Vacant M s turn

/-- Every allowed turn keeps the table, and its event is legal. -/
theorem jInv_step (h : JInv s) (ok : Allowed M s turn) :
    JInv (step (program M N) s turn) ∧
      ∀ e, shows (program M N) s turn=some e → Legal s.trace e := by
  cases hp : s.pc turn.thread with
  | poll => exact jInv_poll h hp
  | callFunc => exact jInv_callFunc h hp
  | callArg f => exact jInv_callArg h hp
  | storeRet v => exact jInv_storeRet h hp
  | clear => exact jInv_clear h hp
  | client => exact jInv_client h ok.1 hp
  | scan f a i => exact jInv_scan h ok.2 hp
  | fill f a i u => exact jInv_fill h hp
  | joinSpin i => exact jInv_joinSpin h hp
  | joinLoad i => exact jInv_joinLoad h hp

/-- A created routine is called in the next turn of a thread that has loaded it. -/
theorem starts_callArg (h : JInv s) {t : Fin N} {f g a : ℕ} (hb : slot t s.trace=.born f a)
    (hp : s.pc t=.callArg g) :
    shows (program M N) s ⟨t,.stay,false⟩=some (.started t f a) := by
  have hz := h.not_first (t := t) (by rw [hp]; rfl)
  have hok := h.slots t (Nat.pos_of_ne_zero hz)
  rw [worker_self,hp,hb] at hok
  obtain ⟨-,-,harg,he|he|he⟩ := hok
  · cases he
  · cases he
  · cases he
    obtain ⟨-,-,hevent⟩ := step_at (program M N) s ⟨t,.stay,false⟩ hp
    rw [hevent,←harg]
    rfl

/-- A created routine is called within two turns of a thread that has seen its pointer. -/
theorem starts_callFunc (h : JInv s) {t : Fin N} {f a : ℕ} (hb : slot t s.trace=.born f a)
    (hp : s.pc t=.callFunc) :
    shows (program M N) (run (program M N) s (List.replicate 1 ⟨t,.stay,false⟩))
      ⟨t,.stay,false⟩=some (.started t f a) := by
  obtain ⟨hpc,-,hevent⟩ := step_at (program M N) s ⟨t,.stay,false⟩ hp
  have hnext : JInv (step (program M N) s ⟨t,.stay,false⟩) := (jInv_callFunc h hp).1
  have hslot := slot_none hevent
  refine starts_callArg hnext ?_ hpc
  rw [hslot]
  exact hb

/-- A created routine is called within three turns of its hardware thread, with its argument: it
polls its entry, loads the routine and loads the argument. -/
theorem JInv.starts (h : JInv s) {i f a : ℕ} (hb : slot i s.trace=.born f a) :
    ∃ t : Fin N, t.val=i ∧ ∃ k, k≤2 ∧
      shows (program M N) (run (program M N) s (List.replicate k ⟨t,.stay,false⟩))
        ⟨t,.stay,false⟩=some (.started t f a) := by
  obtain ⟨hi,hN⟩ := h.busy (i := i) (by rw [hb]; exact fun h => by cases h)
  obtain ⟨t,rfl⟩ : ∃ t : Fin N, t.val=i := ⟨⟨i,hN⟩,rfl⟩
  refine ⟨t,rfl,?_⟩
  have hok := h.slots t hi
  rw [worker_self,hb] at hok
  obtain ⟨hf,hptr,-,hp|hp|hp⟩ := hok
  · refine ⟨2,Nat.le_refl 2,?_⟩
    have hpoll := Option.some.inj hp
    obtain ⟨hpc,-,hevent⟩ := step_at (program M N) s ⟨t,.stay,false⟩ hpoll
    change (step (program M N) s ⟨t,.stay,false⟩).pc t=
      (if s.word (.funcptr t)=0 then .poll else .callFunc) at hpc
    rw [hptr,if_neg hf] at hpc
    have hnext : JInv (step (program M N) s ⟨t,.stay,false⟩) := (jInv_poll h hpoll).1
    have hslot := slot_none hevent
    refine starts_callFunc hnext ?_ hpc
    rw [hslot]
    exact hb
  · exact ⟨1,by decide,starts_callFunc h hb (Option.some.inj hp)⟩
  · exact ⟨0,Nat.zero_le 2,starts_callArg h hb (Option.some.inj hp)⟩

/-- A join that has seen the pointer cleared yields the value in its next turn, and one that
spins yields it in its second turn. -/
theorem JInv.yields (h : JInv s) {t : Fin N} {i f a v : ℕ} (hended : slot i s.trace=.ended f a v)
    (hjoin : joining (s.pc t)=some i) (hnull : s.word (.funcptr i)=0) :
    ∃ k, k≤1 ∧ shows (program M N) (run (program M N) s (List.replicate k ⟨t,.stay,false⟩))
      ⟨t,.stay,false⟩=some (.joined t i v) := by
  obtain ⟨hi,hne⟩ := h.joins t i hjoin
  have hok := h.slots i hi
  rw [hended,hnull] at hok
  have hret : s.word (.retval i)=v := by
    rcases hok with ⟨-,h0⟩|⟨-,h0,-⟩|⟨-,-,hv⟩
    · exact absurd rfl h0
    · exact absurd rfl h0
    · exact hv
  cases hp : s.pc t with
  | joinSpin j =>
    rw [hp] at hjoin
    cases hjoin
    obtain ⟨hpc,hword,-⟩ := step_at (program M N) s ⟨t,.stay,false⟩ hp
    change (step (program M N) s ⟨t,.stay,false⟩).pc t=
      (if s.word (.funcptr i)=0 then .joinLoad i else .joinSpin i) at hpc
    change (step (program M N) s ⟨t,.stay,false⟩).word=s.word at hword
    rw [if_pos hnull] at hpc
    refine ⟨1,Nat.le_refl 1,?_⟩
    obtain ⟨-,-,hevent⟩ := step_at (program M N) (step (program M N) s ⟨t,.stay,false⟩)
      ⟨t,.stay,false⟩ hpc
    change shows (program M N) (step (program M N) s ⟨t,.stay,false⟩) ⟨t,.stay,false⟩=_
    rw [hevent,←hret,←hword]
    rfl
  | joinLoad j =>
    rw [hp] at hjoin
    cases hjoin
    refine ⟨0,Nat.zero_le 1,?_⟩
    obtain ⟨-,-,hevent⟩ := step_at (program M N) s ⟨t,.stay,false⟩ hp
    change shows (program M N) s ⟨t,.stay,false⟩=_
    rw [hevent,←hret]
    rfl
  | _ =>
    rw [hp] at hjoin
    cases hjoin

/-- Within two turns the hardware thread of a routine that is over has cleared its pointer. Before
that it has stored the result. -/
theorem JInv.clears (h : JInv s) {i f a v : ℕ} (hended : slot i s.trace=.ended f a v) :
    ∃ w : Fin N, w.val=i ∧ ∃ j, j≤2 ∧ ∀ s', s'=run (program M N) s
        (List.replicate j ⟨w,.stay,false⟩) →
      JInv s' ∧ slot i s'.trace=.ended f a v ∧ s'.word (.funcptr i)=0 ∧
        ∀ u, u≠w → s'.pc u=s.pc u := by
  obtain ⟨hi,hN⟩ := h.busy (i := i) (by rw [hended]; exact fun h => by cases h)
  obtain ⟨w,rfl⟩ : ∃ w : Fin N, w.val=i := ⟨⟨i,hN⟩,rfl⟩
  refine ⟨w,rfl,?_⟩
  have hclear : ∀ s : JState N, JInv s → slot w s.trace=.ended f a v → s.pc w=.clear →
      JInv (step (program M N) s ⟨w,.stay,false⟩) ∧
      slot w (step (program M N) s ⟨w,.stay,false⟩).trace=.ended f a v ∧
      (step (program M N) s ⟨w,.stay,false⟩).word (.funcptr w)=0 := by
    intro s h hended hp
    obtain ⟨-,hword,hevent⟩ := step_at (program M N) s ⟨w,.stay,false⟩ hp
    have hnext : JInv (step (program M N) s ⟨w,.stay,false⟩) := (jInv_clear h hp).1
    refine ⟨hnext,?_,?_⟩
    · rw [slot_none hevent]
      exact hended
    · rw [hword]
      exact applyWrite_self
  have hok := h.slots w hi
  rw [worker_self,hended] at hok
  rcases hok with ⟨hp,-⟩|⟨hp,-,-⟩|⟨hp,hnull,-⟩
  · have hret := Option.some.inj hp
    obtain ⟨hpc,-,hevent⟩ := step_at (program M N) s ⟨w,.stay,false⟩ hret
    have hnext : JInv (step (program M N) s ⟨w,.stay,false⟩) := (jInv_storeRet h hret).1
    refine ⟨2,Nat.le_refl 2,?_⟩
    rintro s' rfl
    obtain ⟨h1,h2,h3⟩ := hclear _ hnext (by rw [slot_none hevent]; exact hended) hpc
    refine ⟨h1,h2,h3,?_⟩
    intro u hu
    exact (others _ ⟨w,.stay,false⟩ u hu).trans (others s ⟨w,.stay,false⟩ u hu)
  · refine ⟨1,by decide,?_⟩
    rintro s' rfl
    obtain ⟨h1,h2,h3⟩ := hclear s h hended (Option.some.inj hp)
    exact ⟨h1,h2,h3,others s ⟨w,.stay,false⟩⟩
  · refine ⟨0,Nat.zero_le 2,?_⟩
    rintro s' rfl
    exact ⟨h,hended,hnull,fun _ _ => rfl⟩

/-- Once a routine is over, its join yields the value within two turns of its hardware thread and
two turns of the joining thread. -/
theorem JInv.ends (h : JInv s) {t : Fin N} {i f a v : ℕ} (hended : slot i s.trace=.ended f a v)
    (hjoin : joining (s.pc t)=some i) :
    ∃ w : Fin N, w.val=i ∧ ∃ j, j≤2 ∧ ∃ k, k≤1 ∧
      shows (program M N) (run (program M N) (run (program M N) s
        (List.replicate j ⟨w,.stay,false⟩)) (List.replicate k ⟨t,.stay,false⟩))
        ⟨t,.stay,false⟩=some (.joined t i v) := by
  obtain ⟨w,hw,j,hj,hrun⟩ := h.clears (M := M) hended
  refine ⟨w,hw,j,hj,?_⟩
  obtain ⟨hinv,hended',hnull,hkeep⟩ := hrun _ rfl
  have htw : t≠w := by
    rintro rfl
    obtain ⟨hi,-⟩ := h.joins t i hjoin
    have hok := h.slots i hi
    rw [hended,←hw,worker_self] at hok
    rcases hok with ⟨hp,-⟩|⟨hp,-,-⟩|⟨hp,-,-⟩ <;> cases hp' : s.pc t <;>
      rw [hp'] at hp hjoin <;> cases hp <;> cases hjoin
  exact hinv.yields hended' (by rw [hkeep t htw]; exact hjoin) hnull

end Turns

instance {N : ℕ} (M : ℕ) (s : JState N) (turn : JTurn N) : Decidable (Allowed M s turn) :=
  inferInstanceAs (Decidable (Client s turn ∧ Vacant M s turn))

/-- Every run in which creations take vacant entries keeps the order of each life: an entry is
created only when its last creation is joined, the routine of a creation starts once with its
argument, on the hardware thread of the entry, and a join returns 0 and the value of that routine.
A created routine starts within three turns of its hardware thread, and the join of a routine that
is over returns within two turns of its hardware thread and two of the joining thread. -/
theorem create_join {N M : ℕ} {s : JState N}
    (hs : Reachable (program M N) (initial N) (Allowed M) s) :
    (∀ turn e, Allowed M s turn → shows (program M N) s turn=some e → Legal s.trace e) ∧
    (∀ i f a, slot i s.trace=.born f a → ∃ t : Fin N, t.val=i ∧ ∃ k, k≤2 ∧
      shows (program M N) (run (program M N) s (List.replicate k ⟨t,.stay,false⟩))
        ⟨t,.stay,false⟩=some (.started t f a)) ∧
    (∀ t i f a v, slot i s.trace=.ended f a v → joining (s.pc t)=some i →
      ∃ w : Fin N, w.val=i ∧ ∃ j, j≤2 ∧ ∃ k, k≤1 ∧
        shows (program M N) (run (program M N) (run (program M N) s
          (List.replicate j ⟨w,.stay,false⟩)) (List.replicate k ⟨t,.stay,false⟩))
          ⟨t,.stay,false⟩=some (.joined t i v)) := by
  have h : JInv s := Reachable.invariant (jInv_initial N)
    (fun _ _ _ ok h => (jInv_step h ok).1) hs
  refine ⟨?_,?_,?_⟩
  · intro turn e ok he
    exact (jInv_step h ok).2 e he
  · intro i f a hb
    exact h.starts hb
  · intro t i f a v hended hjoin
    exact h.ends hended hjoin

/-- The first thread creates routine 5 with argument 7 on entry 1 of a table of 8 entries. -/
def createFive : List (JTurn 2) :=
  [⟨left,.create 5 7,false⟩,⟨left,.stay,false⟩,⟨left,.stay,false⟩,⟨left,.stay,false⟩,
    ⟨left,.stay,false⟩,⟨left,.stay,false⟩,⟨left,.stay,false⟩,⟨left,.stay,false⟩]

/-- The routine runs on the second thread and returns 9. -/
def returnNine : List (JTurn 2) :=
  [⟨right,.stay,false⟩,⟨right,.stay,false⟩,⟨right,.stay,false⟩,⟨right,.done 9,false⟩]

/-- The first thread joins the second, whose routine has returned 9 and whose pointer is not
cleared yet; the join ends with 9. -/
theorem create_join_nine :
    slot 1 (run (program 8 2) (initial 2) (createFive++returnNine++[⟨left,.join 1,false⟩])).trace=
      .ended 5 7 9 ∧
    ∃ w : Fin 2, w.val=1 ∧ ∃ j, j≤2 ∧ ∃ k, k≤1 ∧
      shows (program 8 2) (run (program 8 2) (run (program 8 2) (run (program 8 2) (initial 2)
        (createFive++returnNine++[⟨left,.join 1,false⟩])) (List.replicate j ⟨w,.stay,false⟩))
        (List.replicate k ⟨left,.stay,false⟩)) ⟨left,.stay,false⟩=some (.joined left 1 9) := by
  have hs : Reachable (program 8 2) (initial 2) (Allowed 8) (run (program 8 2) (initial 2)
      (createFive++returnNine++[⟨left,.join 1,false⟩])) := .of_allows .init (by decide +kernel)
  have hended : slot 1 (run (program 8 2) (initial 2)
      (createFive++returnNine++[⟨left,.join 1,false⟩])).trace=.ended 5 7 9 := by decide +kernel
  exact ⟨hended,(create_join hs).2.2 left 1 5 7 9 hended (by decide +kernel)⟩

/-- The second thread clears its pointer and the first creates routine 6 before it joins. -/
def createAgain : List (JTurn 2) :=
  createFive++returnNine++[⟨right,.stay,false⟩,⟨right,.stay,false⟩,⟨left,.create 6 8,false⟩,
    ⟨left,.stay,false⟩,⟨left,.stay,false⟩,⟨left,.stay,false⟩,⟨left,.stay,false⟩,
    ⟨left,.stay,false⟩,⟨left,.stay,false⟩]

/-- The only thread creates routine 5. -/
def createAlone : List (JTurn 1) :=
  [⟨solo,.create 5 7,false⟩,⟨solo,.stay,false⟩,⟨solo,.stay,false⟩,⟨solo,.stay,false⟩,
    ⟨solo,.stay,false⟩,⟨solo,.stay,false⟩,⟨solo,.stay,false⟩]

/-- With two hardware threads the second creation returns thread 1 again although the first one
on it is not joined, and with one hardware thread a creation returns 0 with thread 1, that no
hardware thread runs. -/
theorem create_hands_out_taken_entries :
    (Reachable (program 8 2) (initial 2) Client (run (program 8 2) (initial 2) createAgain) ∧
      shows (program 8 2) (run (program 8 2) (initial 2) createAgain) ⟨left,.stay,false⟩=
        some (.created left 1 6 8) ∧
      slot 1 (run (program 8 2) (initial 2) createAgain).trace=.ended 5 7 9) ∧
    Reachable (program 8 1) (initial 1) Client (run (program 8 1) (initial 1) createAlone) ∧
      shows (program 8 1) (run (program 8 1) (initial 1) createAlone) ⟨solo,.stay,false⟩=
        some (.created solo 1 5 7) := by
  exact ⟨⟨.of_allows .init (by decide +kernel),by decide +kernel,by decide +kernel⟩,
    .of_allows .init (by decide +kernel),by decide +kernel⟩

end RigelTarget.PthreadManagement
