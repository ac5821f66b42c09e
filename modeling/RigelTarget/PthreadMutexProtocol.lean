import RigelTarget.PthreadMutex

/-!
# Ownership of the mutexes of libpthread

Calls that do not overlap are compared with a reference mutex that is an owner and a
depth. `exec` runs the accesses of one call without interruption and agrees with the
interleaved program when one thread moves. The error checking kind follows the
reference up to the first unlock, whose test of the owner is inverted. The recursive
kind follows it up to the first trylock, which reports an error when it succeeds and
takes the mutex of another thread, and as long as the depth fits the count.
-/

namespace RigelTarget.PthreadMutexProtocol

open SharedMemory RigelAtomics PthreadMutex

section Solo

variable {n : ℕ} (kind : Kind) (tid : Fin n → ℕ)

/-- The result of an access when no other thread moves: the word itself, since no link is lost. -/
def peek (word : Loc → ℕ) : Access Loc → ℕ
  | .load x => word x
  | .rmw x _ => word x
  | _ => 0

/-- The words after an access when no other thread moves. -/
def poke (word : Loc → ℕ) : Access Loc → Loc → ℕ
  | .store x v => Function.update word x v
  | .rmw x f => Function.update word x (f (word x))
  | _ => word

/-- The accesses of a call by thread `t`, at most `fuel` of them, without the interleaving. The
lemmas below connect it to the program. -/
def exec (t : Fin n) : ℕ → Pc → (Loc → ℕ) → Option (Code×(Loc → ℕ))
  | 0,_,_ => none
  | fuel+1,pc,word =>
    match flow kind tid t pc (peek word (access kind tid t pc)) with
    | .goto pc' => exec t fuel pc' (poke word (access kind tid t pc))
    | .ret code => some (code,poke word (access kind tid t pc))

/-- The turns of one call that is not interrupted: it makes at most four accesses. -/
def callTurns (t : Fin n) (call : Call) : List (MTurn n) :=
  ⟨t,some call,false⟩::List.replicate 4 ⟨t,none,false⟩

/-- No access of a mutex function uses a link. -/
theorem solo_access (s : MState n) (t : Fin n) (pc : Pc) :
    result s t false (access kind tid t pc)=peek s.word (access kind tid t pc) ∧
    applyWrite s.word (written s t false (access kind tid t pc))=
      poke s.word (access kind tid t pc) := by
  cases pc <;> exact ⟨rfl,by first | exact applyWrite_some | rfl⟩

/-- A thread outside that chooses nothing changes nothing but the links. So turns that are left of a
call may be spent. -/
theorem idle_run {t : Fin n} {s : MState n} (hpc : (s.pc t).pc=.outside) (k : ℕ) :
    (run (program kind tid) s (List.replicate k ⟨t,none,false⟩)).word=s.word ∧
    (run (program kind tid) s (List.replicate k ⟨t,none,false⟩)).trace=s.trace ∧
    (run (program kind tid) s (List.replicate k ⟨t,none,false⟩)).pc=s.pc := by
  induction k generalizing s with
  | zero => exact ⟨rfl,rfl,rfl⟩
  | succ k ih =>
    obtain ⟨depth,hl⟩ : ∃ depth, s.pc t=⟨.outside,depth⟩ := ⟨(s.pc t).depth,by rw [←hpc]⟩
    obtain ⟨hpc',hword,hevent⟩ := step_at (program kind tid) s ⟨t,none,false⟩ hl
    change (step (program kind tid) s ⟨t,none,false⟩).pc t=⟨.outside,depth⟩ at hpc'
    change (step (program kind tid) s ⟨t,none,false⟩).word=s.word at hword
    have htrace := step_trace (program kind tid) s ⟨t,none,false⟩
    rw [hevent] at htrace
    change (step (program kind tid) s ⟨t,none,false⟩).trace=s.trace at htrace
    have hsame : (step (program kind tid) s ⟨t,none,false⟩).pc=s.pc := by
      funext u
      by_cases hu : u=t
      · rw [hu,hpc',hl]
      · exact step_pc_other (program kind tid) s ⟨t,none,false⟩ hu
    rw [List.replicate_succ,run]
    have hrest := ih (s := step (program kind tid) s ⟨t,none,false⟩) (by rw [hpc'])
    rw [hword,htrace,hsame] at hrest
    exact hrest

variable {kind tid}

/-- The call of an access is the call of the access that follows it. So the event at the end names
the call that was chosen. -/
theorem callOf_flow {t : Fin n} {pc pc' : Pc} {r : ℕ} (hpc : pc≠.outside)
    (h : flow kind tid t pc r=.goto pc') : callOf pc'=callOf pc ∧ pc'≠.outside := by
  cases pc with
  | outside => exact absurd rfl hpc
  | cas b =>
    cases h
    split
    · exact ⟨rfl,fun h => by cases h⟩
    · exact ⟨rfl,fun h => by cases h⟩
  | casStore b => cases h
  | loadOwner b =>
    simp only [flow] at h
    split_ifs at h
    · cases h
      exact ⟨rfl,fun h => by cases h⟩
    · cases h
      exact ⟨rfl,fun h => by cases h⟩
  | inc b => cases h
  | swap b =>
    simp only [flow] at h
    split_ifs at h
    · cases h
      exact ⟨rfl,fun h => by cases h⟩
    · cases h
      exact ⟨rfl,fun h => by cases h⟩
  | storeOwner b => cases h
  | unlockLoad =>
    simp only [flow] at h
    split_ifs at h
    · cases h
      exact ⟨rfl,fun h => by cases h⟩
    · cases h
      exact ⟨rfl,fun h => by cases h⟩
  | loadCount =>
    cases h
    split
    · exact ⟨rfl,fun h => by cases h⟩
    · exact ⟨rfl,fun h => by cases h⟩
  | clearOwner =>
    cases h
    split
    · exact ⟨rfl,fun h => by cases h⟩
    · exact ⟨rfl,fun h => by cases h⟩
  | storeLock => cases h
  | dec => cases h

/-- The interleaved program executes a call when its thread moves alone. This joins the sequential
reference to the model of the code. -/
theorem exec_run {t : Fin n} (fuel : ℕ) {pc : Pc} {word' : Loc → ℕ} {code : Code} {s : MState n}
    (hl : (s.pc t).pc=pc) (hpc : pc≠.outside)
    (h : exec kind tid t fuel pc s.word=some (code,word')) :
    (run (program kind tid) s (List.replicate fuel ⟨t,none,false⟩)).word=word' ∧
    (run (program kind tid) s (List.replicate fuel ⟨t,none,false⟩)).trace=
      ⟨t,callOf pc,code⟩::s.trace ∧
    ((run (program kind tid) s (List.replicate fuel ⟨t,none,false⟩)).pc t).pc=.outside ∧
    ∀ u, u≠t → (run (program kind tid) s (List.replicate fuel ⟨t,none,false⟩)).pc u=s.pc u := by
  induction fuel generalizing pc s with
  | zero => cases h
  | succ fuel ih =>
    obtain ⟨depth,hlocal⟩ : ∃ depth, s.pc t=⟨pc,depth⟩ := ⟨(s.pc t).depth,by rw [←hl]⟩
    obtain ⟨hpc',hword,hevent⟩ := step_at (program kind tid) s ⟨t,none,false⟩ hlocal
    obtain ⟨hres,hwrite⟩ := solo_access kind tid s t pc
    have hother : ∀ u, u≠t → (step (program kind tid) s ⟨t,none,false⟩).pc u=s.pc u :=
      fun u hu => step_pc_other (program kind tid) s ⟨t,none,false⟩ hu
    have htrace := step_trace (program kind tid) s ⟨t,none,false⟩
    rw [hevent] at htrace
    change (step (program kind tid) s ⟨t,none,false⟩).pc t=next kind tid t ⟨pc,depth⟩ none
      (result s t false (access kind tid t pc)) at hpc'
    change (step (program kind tid) s ⟨t,none,false⟩).word=
      applyWrite s.word (written s t false (access kind tid t pc)) at hword
    change (step (program kind tid) s ⟨t,none,false⟩).trace=(emit kind tid t ⟨pc,depth⟩
      (result s t false (access kind tid t pc))).toList++s.trace at htrace
    rw [hres] at hpc' htrace
    rw [hwrite] at hword
    rw [List.replicate_succ,run]
    generalize step (program kind tid) s ⟨t,none,false⟩=s1 at hpc' hword htrace hother ⊢
    unfold exec at h
    unfold emit at htrace
    cases hflow : flow kind tid t pc (peek s.word (access kind tid t pc)) with
    | goto pc' =>
      simp only [hflow] at h htrace
      rw [next_goto pc' hpc hflow] at hpc'
      obtain ⟨hcall,hne⟩ := callOf_flow hpc hflow
      rw [←hword] at h
      obtain ⟨h1,h2,h3,h4⟩ := ih (s := s1) (by rw [hpc']) hne h
      rw [htrace,hcall] at h2
      refine ⟨h1,h2,h3,?_⟩
      intro u hu
      rw [h4 u hu,hother u hu]
    | ret code' =>
      simp only [hflow] at h htrace
      cases h
      rw [next_ret code hpc hflow] at hpc'
      obtain ⟨h1,h2,h3⟩ := idle_run kind tid (s := s1) (t := t) (by rw [hpc']) fuel
      rw [h1,h2,h3,htrace]
      exact ⟨hword,rfl,by rw [hpc'],hother⟩

/-- The first access of a call belongs to it. -/
theorem callOf_callPc (kind : Kind) (call : Call) :
    callOf (callPc kind call)=call ∧ callPc kind call≠.outside := by
  cases call <;> cases kind <;> exact ⟨rfl,fun h => by cases h⟩

/-- A call that is not interrupted returns the code of its accesses and leaves their words. So the
protocol may be read off the accesses of single calls. -/
theorem call_run {t : Fin n} {call : Call} {word' : Loc → ℕ} {code : Code} {s : MState n}
    (hout : ∀ u, (s.pc u).pc=.outside)
    (h : exec kind tid t 4 (callPc kind call) s.word=some (code,word')) :
    (run (program kind tid) s (callTurns t call)).word=word' ∧
    (run (program kind tid) s (callTurns t call)).trace=⟨t,call,code⟩::s.trace ∧
    ∀ u, ((run (program kind tid) s (callTurns t call)).pc u).pc=.outside := by
  obtain ⟨depth,hl⟩ : ∃ depth, s.pc t=⟨.outside,depth⟩ := ⟨(s.pc t).depth,by rw [←hout t]⟩
  obtain ⟨hpc,hword,hevent⟩ := step_at (program kind tid) s ⟨t,some call,false⟩ hl
  have htrace := step_trace (program kind tid) s ⟨t,some call,false⟩
  have hother : ∀ u, u≠t → (step (program kind tid) s ⟨t,some call,false⟩).pc u=s.pc u :=
    fun u hu => step_pc_other (program kind tid) s ⟨t,some call,false⟩ hu
  rw [hevent] at htrace
  change (step (program kind tid) s ⟨t,some call,false⟩).trace=s.trace at htrace
  change (step (program kind tid) s ⟨t,some call,false⟩).word=s.word at hword
  change (step (program kind tid) s ⟨t,some call,false⟩).pc t=⟨callPc kind call,depth⟩ at hpc
  rw [callTurns,run]
  generalize step (program kind tid) s ⟨t,some call,false⟩=s1 at hpc hword htrace hother ⊢
  obtain ⟨hcall,hne⟩ := callOf_callPc kind call
  rw [←hword] at h
  obtain ⟨h1,h2,h3,h4⟩ := exec_run 4 (s := s1) (by rw [hpc]) hne h
  rw [hcall,htrace] at h2
  refine ⟨h1,h2,?_⟩
  intro u
  by_cases hu : u=t
  · rw [hu]
    exact h3
  · rw [h4 u hu,hother u hu]
    exact hout u

end Solo

/-- The reference mutex: its owner and the depth to which it is held. It has no words of its own. -/
structure Ref (n : ℕ) where
  /-- The holder. -/
  owner : Option (Fin n)
  /-- The number of locks that are not unlocked. -/
  depth : ℕ
  deriving DecidableEq

section Reference

variable {n : ℕ} (kind : Kind) (tid : Fin n → ℕ)

/-- The reference after a lock or a trylock: a free mutex is taken, the owner of a recursive
mutex nests. -/
def refLock (ref : Ref n) (t : Fin n) : Ref n :=
  if ref.owner=none then ⟨some t,1⟩
  else if ref.owner=some t ∧ kind=.recursive then ⟨some t,ref.depth+1⟩ else ref

/-- The reference after an unlock: the owner gives up one level. -/
def refUnlock (ref : Ref n) (t : Fin n) : Ref n :=
  if ref.owner=some t then if ref.depth=1 then ⟨none,0⟩ else ⟨some t,ref.depth-1⟩ else ref

/-- The reference after a call: locks deepen it, unlocks of the owner give up a level, and other
calls leave it. -/
def refCall (ref : Ref n) (t : Fin n) : Call → Ref n
  | .lock => refLock kind ref t
  | .trylock => refLock kind ref t
  | .unlock => refUnlock ref t

/-- The codes that the reference allows for a call, given the type of the mutex and who holds it. A
try-lock of a mutex that another thread holds may return any code but success. -/
def Answer (ref : Ref n) (t : Fin n) (call : Call) (code : Code) : Prop :=
  match call with
  | .unlock => code=if ref.owner=some t then .ok else .eperm
  | .lock => code=if ref.owner=some t ∧ kind=.errorcheck then .edeadlk else .ok
  | .trylock =>
    if ref.owner=some t ∧ kind=.errorcheck then code=.edeadlk
    else code=.ok ↔ ref.owner=none ∨ ref.owner=some t

/-- The words show the reference, as far as the type of the mutex keeps words for it. Of a normal
mutex they show the owner only. -/
structure Represents (word : Loc → ℕ) (ref : Ref n) : Prop where
  /-- The owner is recorded. -/
  owned : ∀ t, ref.owner=some t → word .owner=tid t
  /-- Without an owner no thread is recorded. -/
  unowned : ref.owner=none → ∀ t, word .owner≠tid t
  /-- `__lock` of an error checking mutex is zero when it is free. -/
  lock : kind=.errorcheck → (word .lock=0 ↔ ref.owner=none)
  /-- `__count` of a recursive mutex is the depth. -/
  count : kind=.recursive → word .count=ref.depth

/-- A call between two states does what the reference does: its code is allowed, and the words show
the reference after the call. -/
structure Obeys (s s' : MState n) (ref : Ref n) (t : Fin n) (call : Call) : Prop where
  /-- It returns an allowed code. -/
  answer : ∃ code, s'.trace=⟨t,call,code⟩::s.trace ∧ Answer kind ref t call code
  /-- It leaves the mutex unchanged when the reference does not change. -/
  unchanged : refCall kind ref t call=ref → s'.word=s.word
  /-- The words show the new reference. -/
  represents : Represents kind tid s'.word (refCall kind ref t call)

/-- Every call of a sequence, run without interruption, does what the reference does. -/
def Follows (s : MState n) (ref : Ref n) : List (Fin n×Call) → Prop
  | [] => True
  | (t,call)::calls =>
    Obeys kind tid s (run (program kind tid) s (callTurns t call)) ref t call ∧
    Follows (run (program kind tid) s (callTurns t call)) (refCall kind ref t call) calls

/-- A lock is called only when it would not block. A sequence of calls without interruption could
not go on otherwise. -/
def Valid (ref : Ref n) : List (Fin n×Call) → Prop
  | [] => True
  | (t,call)::calls =>
    (call=.lock → ref.owner=none ∨ ref.owner=some t) ∧ Valid (refCall kind ref t call) calls

/-- The depth of the reference stays below a bound. -/
def Below (bound : ℕ) (ref : Ref n) : List (Fin n×Call) → Prop
  | [] => True
  | (t,call)::calls =>
    (refCall kind ref t call).depth<bound ∧ Below bound (refCall kind ref t call) calls

/-- The sequences on which the code does what the reference does: an error checking mutex is
never unlocked; a recursive one is never tried and nests below 2^32. -/
def Served (ref : Ref n) (calls : List (Fin n×Call)) : Prop :=
  match kind with
  | .errorcheck => ∀ c∈calls, c.2≠.unlock
  | _ => (∀ c∈calls, c.2≠.trylock) ∧ Below kind (2^32) ref calls

end Reference

section Calls

variable {n : ℕ} {tid : Fin n → ℕ} {t : Fin n} {word : Loc → ℕ} {call : Call}

/-- The owner of an error checking mutex is refused. -/
theorem errorcheck_own (hcall : call≠.unlock) (ho : word .owner=tid t) :
    exec .errorcheck tid t 4 (callPc .errorcheck call) word=some (.edeadlk,word) := by
  cases call with
  | unlock => exact absurd rfl hcall
  | lock => simp [callPc,exec,flow,access,peek,poke,ho]
  | trylock => simp [callPc,exec,flow,access,peek,poke,ho]

/-- A free error checking mutex is taken. -/
theorem errorcheck_take (hcall : call≠.unlock) (ho : word .owner≠tid t) (hz : word .lock=0) :
    exec .errorcheck tid t 4 (callPc .errorcheck call) word=
      some (.ok,Function.update (Function.update word .lock 1) .owner (tid t)) := by
  cases call with
  | unlock => exact absurd rfl hcall
  | lock => simp [callPc,exec,flow,access,peek,poke,ho,hz,exchange]
  | trylock => simp [callPc,exec,flow,access,peek,poke,ho,hz,exchange]

/-- A try on the error checking mutex of another thread. -/
theorem errorcheck_busy (ho : word .owner≠tid t) (h1 : word .lock=1) :
    exec .errorcheck tid t 4 (callPc .errorcheck .trylock) word=some (.ebusy,word) := by
  have hsame : Function.update word .lock 1=word := by
    rw [←h1]
    exact Function.update_eq_self _ _
  simp [callPc,exec,flow,access,peek,poke,ho,h1,exchange,hsame]

/-- The unlock of an error checking mutex refuses the owner and serves everybody else. -/
theorem errorcheck_unlock (tid : Fin n → ℕ) (t : Fin n) (word : Loc → ℕ) :
    ∃ word', exec .errorcheck tid t 4 (callPc .errorcheck .unlock) word=
    some (if word .owner=tid t then .eperm else .ok,word') := by
  by_cases ho : word .owner=tid t
  · exact ⟨word,by simp [callPc,exec,flow,access,peek,poke,ho]⟩
  · exact ⟨_,by simp [callPc,exec,flow,access,peek,poke,ho]; rfl⟩

/-- A free recursive mutex is taken through its count. -/
theorem recursive_take (hcall : call≠.unlock) (hz : word .count=0) :
    exec .recursive tid t 4 (callPc .recursive call) word=
      some (countCode (decide (call=.trylock)),
        Function.update (Function.update word .count 1) .owner (tid t)) := by
  cases call with
  | unlock => exact absurd rfl hcall
  | lock => simp [callPc,exec,flow,access,peek,poke,hz,compareAndSwap]
  | trylock => simp [callPc,exec,flow,access,peek,poke,hz,compareAndSwap]

/-- The owner of a recursive mutex nests. -/
theorem recursive_nest (hcall : call≠.unlock) (hz : word .count≠0) (ho : word .owner=tid t) :
    exec .recursive tid t 4 (callPc .recursive call) word=
      some (countCode (decide (call=.trylock)),
        Function.update word .count (incWord (word .count))) := by
  have hcas : casValue 0 1 (word .count)=word .count := casValue_of_ne hz
  cases call with
  | unlock => exact absurd rfl hcall
  | lock => simp [callPc,exec,flow,access,peek,poke,hz,ho,compareAndSwap,atomicInc,hcas]
  | trylock => simp [callPc,exec,flow,access,peek,poke,hz,ho,compareAndSwap,atomicInc,hcas]

/-- A try takes `__lock` of the recursive mutex of another thread. -/
theorem recursive_steal (hz : word .count≠0) (ho : word .owner≠tid t) (hl : word .lock=0) :
    ∃ word', exec .recursive tid t 4 (callPc .recursive .trylock) word=some (.ok,word') := by
  have hcas : casValue 0 1 (word .count)=word .count := casValue_of_ne hz
  exact ⟨_,by simp [callPc,exec,flow,access,peek,poke,hz,ho,hl,compareAndSwap,exchange,hcas]; rfl⟩

/-- A thread that is not recorded may not unlock a recursive mutex. -/
theorem recursive_refuse (ho : word .owner≠tid t) :
    exec .recursive tid t 4 (callPc .recursive .unlock) word=some (.eperm,word) := by
  simp [callPc,exec,flow,access,peek,poke,ho]

/-- The owner of a recursive mutex gives up a level, and its name with the last one. -/
theorem recursive_unlock (word : Loc → ℕ) (ho : word .owner=tid t) :
    exec .recursive tid t 4 (callPc .recursive .unlock) word=some (.ok,
      Function.update (if word .count=1 then Function.update word .owner minusOne else word)
        .count (decWord (word .count))) := by
  by_cases h1 : word .count=1
  · simp [callPc,exec,flow,access,peek,poke,ho,h1,atomicDec]
  · simp [callPc,exec,flow,access,peek,poke,ho,h1,atomicDec]

end Calls

section Protocol

variable {n : ℕ} {kind : Kind} {tid : Fin n → ℕ}

/-- A state between calls that followed the reference. With the words it says what the next call
will find in `__lock`. -/
structure Settled (kind : Kind) (tid : Fin n → ℕ) (s : MState n) (ref : Ref n) : Prop where
  /-- No call is running. -/
  outside : ∀ u, (s.pc u).pc=.outside
  /-- The words show the reference. -/
  represents : Represents kind tid s.word ref
  /-- `__lock` of a held error checking mutex is 1. -/
  held : kind=.errorcheck → ref.owner≠none → s.word .lock=1
  /-- `__lock` of a recursive mutex was never taken. -/
  never : kind=.recursive → s.word .lock=0
  /-- The mutex is owned to a positive depth. -/
  deep : ref.owner=none ↔ ref.depth=0
  /-- The depth is a word. -/
  bounded : ref.depth<2^32

/-- The mutex after its initialisation. -/
theorem settled_initial (hnobody : ∀ t, tid t≠minusOne) (hk : kind≠.normal) (before : Loc → ℕ) :
    Settled kind tid (initial n (initWord kind before)) ⟨none,0⟩ where
  outside _ := rfl
  represents := by
    have howner : initWord kind before .owner=minusOne := if_neg hk
    refine ⟨(fun t h => by cases h),?_,fun _ => ⟨fun _ => rfl,fun _ => rfl⟩,fun h => if_pos h⟩
    intro _ t
    show initWord kind before .owner≠tid t
    rw [howner]
    exact (hnobody t).symm
  held _ h := absurd rfl h
  never _ := rfl
  deep := ⟨fun _ => rfl,fun _ => rfl⟩
  bounded := Nat.two_pow_pos 32

variable {s : MState n} {ref : Ref n} {t : Fin n} {call : Call}

/-- Only the owner of the reference is recorded. -/
theorem Settled.recorded (h : Settled kind tid s ref) (hname : ∀ t u, tid t=tid u → t=u) :
    s.word .owner=tid t ↔ ref.owner=some t := by
  constructor
  · intro ho
    cases href : ref.owner with
    | none => exact absurd ho (h.represents.unowned href t)
    | some u =>
      have hu := h.represents.owned u href
      rw [hname t u (ho.symm.trans hu)]
  · exact h.represents.owned t

/-- What an uninterrupted call leaves, when the words and the code are those of the
reference. -/
theorem settled_call (h : Settled kind tid s ref) {code : Code} {word' : Loc → ℕ}
    (hexec : exec kind tid t 4 (callPc kind call) s.word=some (code,word'))
    (hanswer : Answer kind ref t call code) (hsame : refCall kind ref t call=ref → word'=s.word)
    (hrep : Represents kind tid word' (refCall kind ref t call))
    (hheld : kind=.errorcheck → (refCall kind ref t call).owner≠none → word' .lock=1)
    (hnever : kind=.recursive → word' .lock=0)
    (hdeep : (refCall kind ref t call).owner=none ↔ (refCall kind ref t call).depth=0)
    (hbounded : (refCall kind ref t call).depth<2^32) :
    Obeys kind tid s (run (program kind tid) s (callTurns t call)) ref t call ∧
    Settled kind tid (run (program kind tid) s (callTurns t call)) (refCall kind ref t call) := by
  obtain ⟨hword,htrace,hout⟩ := call_run h.outside hexec
  generalize run (program kind tid) s (callTurns t call)=s' at hword htrace hout ⊢
  subst hword
  exact ⟨⟨⟨code,htrace,hanswer⟩,hsame,hrep⟩,⟨hout,hrep,hheld,hnever,hdeep,hbounded⟩⟩

/-- A call that returns a code which the reference forbids. -/
theorem not_obeys (h : Settled kind tid s ref) {code : Code} {word' : Loc → ℕ}
    (hexec : exec kind tid t 4 (callPc kind call) s.word=some (code,word'))
    (hanswer : ¬Answer kind ref t call code) :
    ¬Obeys kind tid s (run (program kind tid) s (callTurns t call)) ref t call := by
  obtain ⟨-,htrace,-⟩ := call_run h.outside hexec
  intro hobeys
  obtain ⟨code',htrace',hcode⟩ := hobeys.answer
  rw [htrace] at htrace'
  cases htrace'
  exact hanswer hcode

/-- A lock or a trylock of an error checking mutex does what the reference does, by cases on who
holds it. -/
theorem errorcheck_obeys (hname : ∀ t u, tid t=tid u → t=u) (h : Settled .errorcheck tid s ref)
    (hcall : call≠.unlock) (hvalid : call=.lock → ref.owner=none ∨ ref.owner=some t) :
    Obeys .errorcheck tid s (run (program .errorcheck tid) s (callTurns t call)) ref t call ∧
    Settled .errorcheck tid (run (program .errorcheck tid) s (callTurns t call))
      (refCall .errorcheck ref t call) := by
  have href : refCall .errorcheck ref t call=if ref.owner=none then ⟨some t,1⟩ else ref := by
    cases call with
    | unlock => exact absurd rfl hcall
    | lock => simp [refCall,refLock]
    | trylock => simp [refCall,refLock]
  by_cases hfree : ref.owner=none
  · -- a free mutex is taken through `__lock`
    have ho : s.word .owner≠tid t := h.represents.unowned hfree t
    have hz : s.word .lock=0 := (h.represents.lock rfl).2 hfree
    rw [if_pos hfree] at href
    refine settled_call h (errorcheck_take hcall ho hz) ?_ ?_ ?_ ?_ ?_ ?_ ?_
    · cases call with
      | unlock => exact absurd rfl hcall
      | lock => simp [Answer,hfree]
      | trylock => simp [Answer,hfree]
    · intro hsame
      rw [href] at hsame
      rw [←hsame] at hfree
      cases hfree
    · rw [href]
      refine ⟨?_,(fun h => by cases h),?_,(fun h => by cases h)⟩
      · intro u hu
        cases hu
        exact Function.update_self ..
      · intro _
        refine ⟨fun h0 => ?_,(fun h => by cases h)⟩
        rw [Function.update_of_ne (fun h => by cases h),Function.update_self] at h0
        cases h0
    · intro _ _
      rw [Function.update_of_ne (fun h => by cases h),Function.update_self]
    · exact fun h => by cases h
    · rw [href]
      exact ⟨(fun h => by cases h),(fun h => by cases h)⟩
    · rw [href]
      show 1<2^32
      decide
  · rw [if_neg hfree] at href
    by_cases hown : ref.owner=some t
    · refine settled_call h (errorcheck_own hcall (h.represents.owned t hown)) ?_
        (fun _ => rfl) (by rw [href]; exact h.represents) (by rw [href]; exact h.held)
        (fun h => by cases h) (by rw [href]; exact h.deep) (by rw [href]; exact h.bounded)
      cases call with
      | unlock => exact absurd rfl hcall
      | lock => simp [Answer,hown]
      | trylock => simp [Answer,hown]
    · have ho : s.word .owner≠tid t := fun ho => hown ((h.recorded hname).1 ho)
      have htry : call=.trylock := by
        cases call with
        | unlock => exact absurd rfl hcall
        | lock => exact absurd (hvalid rfl) (fun h => h.elim hfree hown)
        | trylock => rfl
      subst htry
      refine settled_call h (errorcheck_busy ho (h.held rfl hfree)) ?_
        (fun _ => rfl) (by rw [href]; exact h.represents) (by rw [href]; exact h.held)
        (fun h => by cases h) (by rw [href]; exact h.deep) (by rw [href]; exact h.bounded)
      simp [Answer,hown,hfree]

/-- Every unlock of an error checking mutex departs from the reference. -/
theorem errorcheck_departs (hname : ∀ t u, tid t=tid u → t=u) (h : Settled .errorcheck tid s ref) :
    ¬Obeys .errorcheck tid s (run (program .errorcheck tid) s (callTurns t .unlock)) ref t
      .unlock := by
  obtain ⟨word',hexec⟩ := errorcheck_unlock tid t s.word
  refine not_obeys h hexec ?_
  by_cases hown : ref.owner=some t
  · rw [if_pos ((h.recorded hname).2 hown)]
    simp [Answer,hown]
  · rw [if_neg (fun ho => hown ((h.recorded hname).1 ho))]
    simp [Answer,hown]

/-- The count is zero exactly when the recursive mutex is free. -/
theorem Settled.count_zero (h : Settled .recursive tid s ref) :
    s.word .count=0 ↔ ref.owner=none := by
  rw [h.represents.count rfl]
  exact h.deep.symm

/-- A lock of a recursive mutex does what the reference does, up to the largest depth. The count is
a word and would wrap around beyond it. -/
theorem recursive_lock_obeys (h : Settled .recursive tid s ref)
    (hvalid : ref.owner=none ∨ ref.owner=some t)
    (hdepth : (refCall .recursive ref t .lock).depth<2^32) :
    Obeys .recursive tid s (run (program .recursive tid) s (callTurns t .lock)) ref t .lock ∧
    Settled .recursive tid (run (program .recursive tid) s (callTurns t .lock))
      (refCall .recursive ref t .lock) := by
  have hanswer : Answer .recursive ref t .lock (countCode (decide (Call.lock=.trylock))) := by
    simp [Answer,countCode]
  rcases hvalid with hfree|hown
  · have href : refCall .recursive ref t .lock=⟨some t,1⟩ := if_pos hfree
    have hz : s.word .count=0 := h.count_zero.2 hfree
    refine settled_call h (recursive_take (fun h => by cases h) hz) hanswer ?_ ?_
      (fun h => by cases h) ?_ ?_ hdepth
    · intro hsame
      rw [href] at hsame
      rw [←hsame] at hfree
      cases hfree
    · rw [href]
      refine ⟨?_,(fun h => by cases h),(fun h => by cases h),?_⟩
      · intro u hu
        cases hu
        exact Function.update_self ..
      · intro _
        rw [Function.update_of_ne (fun h => by cases h),Function.update_self]
    · intro _
      rw [Function.update_of_ne (fun h => by cases h),Function.update_of_ne (fun h => by cases h)]
      exact h.never rfl
    · rw [href]
      exact ⟨(fun h => by cases h),(fun h => by cases h)⟩
  · have hne : ref.owner≠none := by
      rw [hown]
      exact fun h => by cases h
    have href : refCall .recursive ref t .lock=⟨some t,ref.depth+1⟩ := by
      show refLock .recursive ref t=_
      unfold refLock
      rw [if_neg hne,if_pos ⟨hown,rfl⟩]
    have hz : s.word .count≠0 := fun hz => hne (h.count_zero.1 hz)
    have hc := h.represents.count rfl
    have hlt : ref.depth+1<2^32 := by
      rw [href] at hdepth
      exact hdepth
    have hinc : incWord (s.word .count)=ref.depth+1 := by
      rw [hc]
      exact incWord_eq (by unfold minusOne; omega)
    refine settled_call h (recursive_nest (fun h => by cases h) hz (h.represents.owned t hown))
      hanswer ?_ ?_ (fun h => by cases h) ?_ ?_ hdepth
    · intro hsame
      rw [href] at hsame
      have hd : ref.depth+1=ref.depth := congrArg Ref.depth hsame
      omega
    · rw [href]
      refine ⟨?_,(fun h => by cases h),(fun h => by cases h),?_⟩
      · intro u hu
        cases hu
        rw [Function.update_of_ne (fun h => by cases h)]
        exact h.represents.owned t hown
      · intro _
        rw [Function.update_self]
        exact hinc
    · intro _
      rw [Function.update_of_ne (fun h => by cases h)]
      exact h.never rfl
    · rw [href]
      exact ⟨(fun h => by cases h),(fun h => by cases h)⟩

/-- An unlock of a recursive mutex does what the reference does. Only the last one clears the
owner. -/
theorem recursive_unlock_obeys (hname : ∀ t u, tid t=tid u → t=u) (hnobody : ∀ t, tid t≠minusOne)
    (h : Settled .recursive tid s ref) :
    Obeys .recursive tid s (run (program .recursive tid) s (callTurns t .unlock)) ref t .unlock ∧
    Settled .recursive tid (run (program .recursive tid) s (callTurns t .unlock))
      (refCall .recursive ref t .unlock) := by
  by_cases hown : ref.owner=some t
  · have ho := h.represents.owned t hown
    have hc := h.represents.count rfl
    have hbound := h.bounded
    have hpos : 0 < ref.depth := by
      by_contra h0
      have hnone := h.deep.2 (by omega)
      rw [hown] at hnone
      cases hnone
    have hdec : decWord (s.word .count)=ref.depth-1 := by
      rw [hc]
      exact decWord_eq hpos hbound
    have hcount : ∀ word : Loc → ℕ,
        Function.update word .count (decWord (s.word .count)) .count=ref.depth-1 := by
      intro word
      rw [Function.update_self]
      exact hdec
    have hanswer : Answer .recursive ref t .unlock .ok := by simp [Answer,hown]
    have hunlock := recursive_unlock s.word ho
    have href : refCall .recursive ref t .unlock=
        if ref.depth=1 then ⟨none,0⟩ else ⟨some t,ref.depth-1⟩ := if_pos hown
    by_cases h1 : ref.depth=1
    · rw [hc,if_pos h1] at hunlock
      rw [if_pos h1] at href
      rw [hc] at hcount
      refine settled_call h hunlock hanswer ?_ ?_ (fun h => by cases h) ?_ ?_ ?_
      · intro hsame
        rw [href] at hsame
        rw [←hsame] at hown
        cases hown
      · rw [href]
        refine ⟨(fun _ h => by cases h),?_,(fun h => by cases h),?_⟩
        · intro _ u
          rw [Function.update_of_ne (fun h => by cases h),Function.update_self]
          exact (hnobody u).symm
        · intro _
          rw [hcount,h1]
      · intro _
        rw [Function.update_of_ne (fun h => by cases h),
          Function.update_of_ne (fun h => by cases h)]
        exact h.never rfl
      · rw [href]
        exact ⟨fun _ => rfl,fun _ => rfl⟩
      · rw [href]
        exact Nat.two_pow_pos 32
    · rw [hc,if_neg h1] at hunlock
      rw [if_neg h1] at href
      rw [hc] at hcount
      refine settled_call h hunlock hanswer ?_ ?_ (fun h => by cases h) ?_ ?_ ?_
      · intro hsame
        rw [href] at hsame
        have hd : ref.depth-1=ref.depth := congrArg Ref.depth hsame
        omega
      · rw [href]
        refine ⟨?_,(fun h => by cases h),(fun h => by cases h),fun _ => hcount _⟩
        intro u hu
        cases hu
        rw [Function.update_of_ne (fun h => by cases h)]
        exact ho
      · intro _
        rw [Function.update_of_ne (fun h => by cases h)]
        exact h.never rfl
      · rw [href]
        refine ⟨(fun h => by cases h),?_⟩
        intro h0
        change ref.depth-1=0 at h0
        omega
      · rw [href]
        show ref.depth-1<2^32
        omega
  · have href : refCall .recursive ref t .unlock=ref := if_neg hown
    have ho : s.word .owner≠tid t := fun ho => hown ((h.recorded hname).1 ho)
    refine settled_call h (recursive_refuse ho) ?_ (fun _ => rfl)
      (by rw [href]; exact h.represents) (fun h => by cases h) h.never
      (by rw [href]; exact h.deep) (by rw [href]; exact h.bounded)
    simp [Answer,hown]

/-- Every trylock of a recursive mutex departs from the reference. -/
theorem recursive_departs (hname : ∀ t u, tid t=tid u → t=u) (h : Settled .recursive tid s ref) :
    ¬Obeys .recursive tid s (run (program .recursive tid) s (callTurns t .trylock)) ref t
      .trylock := by
  by_cases hfree : ref.owner=none
  · refine not_obeys h (recursive_take (fun h => by cases h) (h.count_zero.2 hfree)) ?_
    simp [Answer,countCode,hfree]
  · have hz : s.word .count≠0 := fun hz => hfree (h.count_zero.1 hz)
    by_cases hown : ref.owner=some t
    · refine not_obeys h (recursive_nest (fun h => by cases h) hz
        (h.represents.owned t hown)) ?_
      simp [Answer,countCode,hown]
    · have ho : s.word .owner≠tid t := fun ho => hown ((h.recorded hname).1 ho)
      obtain ⟨word',hexec⟩ := recursive_steal hz ho (h.never rfl)
      refine not_obeys h hexec ?_
      simp [Answer,hfree,hown]

/-- The count cannot show a depth of 2^32: it is 0 again, and the mutex looks free. -/
theorem recursive_overflows (h : Settled .recursive tid s ref)
    (hvalid : ref.owner=none ∨ ref.owner=some t)
    (hdepth : 2^32≤(refCall .recursive ref t .lock).depth) :
    ¬Obeys .recursive tid s (run (program .recursive tid) s (callTurns t .lock)) ref t .lock := by
  intro hobeys
  have hcount := hobeys.represents.count rfl
  have hbound := h.bounded
  rcases hvalid with hfree|hown
  · have href : refCall .recursive ref t .lock=⟨some t,1⟩ := if_pos hfree
    rw [href] at hdepth
    change 2^32≤1 at hdepth
    omega
  · have hne : ref.owner≠none := by
      rw [hown]
      exact fun h => by cases h
    have hz : s.word .count≠0 := fun hz => hne (h.count_zero.1 hz)
    have hexec : exec .recursive tid t 4 (callPc .recursive .lock) s.word=_ :=
      recursive_nest (fun h => by cases h) hz (h.represents.owned t hown)
    obtain ⟨hword,-,-⟩ := call_run h.outside hexec
    rw [hword,Function.update_self] at hcount
    have hlt : incWord (s.word .count)<2^32 := Nat.mod_lt _ (Nat.two_pow_pos 32)
    omega

/-- From a state that followed the reference, the calls that still follow it. The induction is on
the calls, with a lemma for each kind of call that follows or departs. -/
theorem follows_iff (hname : ∀ t u, tid t=tid u → t=u) (hnobody : ∀ t, tid t≠minusOne)
    (hk : kind≠.normal) (calls : List (Fin n×Call)) (h : Settled kind tid s ref)
    (hvalid : Valid kind ref calls) :
    Follows kind tid s ref calls ↔ Served kind ref calls := by
  induction calls generalizing s ref with
  | nil =>
    refine ⟨fun _ => ?_,fun _ => trivial⟩
    cases kind with
    | normal => exact absurd rfl hk
    | errorcheck => exact fun c hc => absurd hc List.not_mem_nil
    | recursive => exact ⟨fun c hc => absurd hc List.not_mem_nil,trivial⟩
  | cons c calls ih =>
    obtain ⟨t,call⟩ := c
    obtain ⟨hlock,hrest⟩ := hvalid
    cases kind with
    | normal => exact absurd rfl hk
    | errorcheck =>
      by_cases hcall : call=.unlock
      · -- the first unlock is where the code leaves the reference
        subst hcall
        refine ⟨fun hf => absurd hf.1 (errorcheck_departs hname h),fun hs => ?_⟩
        exact absurd rfl (hs (t,.unlock) (List.mem_cons_self ..))
      · obtain ⟨hobeys,hsettled⟩ := errorcheck_obeys hname h hcall hlock
        have hih := ih hsettled hrest
        constructor
        · intro hf c hc
          rcases List.mem_cons.1 hc with rfl|hc
          · exact hcall
          · exact hih.1 hf.2 c hc
        · intro hs
          exact ⟨hobeys,hih.2 fun c hc => hs c (List.mem_cons_of_mem _ hc)⟩
    | recursive =>
      by_cases htry : call=.trylock
      · subst htry
        refine ⟨fun hf => absurd hf.1 (recursive_departs hname h),fun hs => ?_⟩
        exact absurd rfl (hs.1 (t,.trylock) (List.mem_cons_self ..))
      · by_cases hdepth : (refCall .recursive ref t call).depth<2^32
        · have hboth : Obeys .recursive tid s (run (program .recursive tid) s (callTurns t call))
              ref t call ∧ Settled .recursive tid
                (run (program .recursive tid) s (callTurns t call))
                (refCall .recursive ref t call) := by
            cases call with
            | lock => exact recursive_lock_obeys h (hlock rfl) hdepth
            | trylock => exact absurd rfl htry
            | unlock => exact recursive_unlock_obeys hname hnobody h
          obtain ⟨hobeys,hsettled⟩ := hboth
          have hih := ih hsettled hrest
          constructor
          · intro hf
            obtain ⟨hnever,hbelow⟩ := hih.1 hf.2
            refine ⟨?_,hdepth,hbelow⟩
            intro c hc
            rcases List.mem_cons.1 hc with rfl|hc
            · exact htry
            · exact hnever c hc
          · intro hs
            exact ⟨hobeys,hih.2 ⟨fun c hc => hs.1 c (List.mem_cons_of_mem _ hc),hs.2.2⟩⟩
        · -- only a lock can leave the depths that a word holds
          refine ⟨fun hf => ?_,fun hs => absurd hs.2.1 hdepth⟩
          cases call with
          | lock => exact absurd hf.1 (recursive_overflows h (hlock rfl) (Nat.le_of_not_lt hdepth))
          | trylock => exact absurd rfl htry
          | unlock =>
            have hless := (recursive_unlock_obeys (t := t) hname hnobody h).2.bounded
            exact absurd hless hdepth

/-- After `pthread_mutex_init` a sequence of calls that do not overlap follows the reference
exactly when it has no unlock, on an error checking mutex, and when it has no trylock and stays
below depth 2^32, on a recursive one. -/
theorem ownership_protocol (hname : ∀ t u, tid t=tid u → t=u) (hnobody : ∀ t, tid t≠minusOne)
    (hk : kind≠.normal) {a : Option ℕ} {before word : Loc → ℕ}
    (hinit : pthreadMutexInit a before=.ok (kind,word)) (calls : List (Fin n×Call))
    (hvalid : Valid kind ⟨none,0⟩ calls) :
    Follows kind tid (initial n word) ⟨none,0⟩ calls ↔ Served kind ⟨none,0⟩ calls := by
  have hword := pthreadMutexInit_word hinit
  rw [hword]
  exact follows_iff hname hnobody hk calls (settled_initial hnobody hk before) hvalid

/-- Thread 0 nests in a recursive mutex, thread 1 may not unlock it, and thread 1 locks it after
the last unlock. -/
theorem ownership_protocol_handover :
    Follows .recursive (fun t : Fin 2 => t.val) (initial 2 (initWord .recursive fun _ => 0))
      ⟨none,0⟩ [(left,.lock),(left,.lock),(right,.unlock),(left,.unlock),(left,.unlock),
        (right,.lock)] := by
  refine (ownership_protocol (fun t u h => Fin.ext h) (by decide) (by decide)
    (a := some (2^15+2)) rfl _ ?_).2 ⟨by decide,?_⟩
  · exact ⟨by decide,by decide,by decide,by decide,by decide,by decide,trivial⟩
  · exact ⟨by decide,by decide,by decide,by decide,by decide,by decide,trivial⟩

/-- Valid sequences that leave the reference: the owner's unlock of an error checking mutex
returns `-EPERM`, the unlock of another thread returns 0, and the trylock of a free recursive
mutex returns `-EINVAL`. -/
theorem ownership_protocol_departures :
    (Valid .errorcheck (⟨none,0⟩ : Ref 2) [(left,.lock),(left,.unlock)] ∧
      ¬Follows .errorcheck (fun t : Fin 2 => t.val)
        (initial 2 (initWord .errorcheck fun _ => 0)) ⟨none,0⟩ [(left,.lock),(left,.unlock)]) ∧
    (Valid .errorcheck (⟨none,0⟩ : Ref 2) [(left,.lock),(right,.unlock)] ∧
      ¬Follows .errorcheck (fun t : Fin 2 => t.val)
        (initial 2 (initWord .errorcheck fun _ => 0)) ⟨none,0⟩ [(left,.lock),(right,.unlock)]) ∧
    Valid .recursive (⟨none,0⟩ : Ref 2) [(left,.trylock)] ∧
      ¬Follows .recursive (fun t : Fin 2 => t.val)
        (initial 2 (initWord .recursive fun _ => 0)) ⟨none,0⟩ [(left,.trylock)] := by
  refine ⟨⟨⟨by decide,by decide,trivial⟩,?_⟩,⟨⟨by decide,by decide,trivial⟩,?_⟩,
    ⟨by decide,trivial⟩,?_⟩
  · intro h
    obtain ⟨code,htrace,hanswer⟩ := h.2.1.answer
    cases htrace
    cases hanswer
  · intro h
    obtain ⟨code,htrace,hanswer⟩ := h.2.1.answer
    cases htrace
    cases hanswer
  · intro h
    obtain ⟨code,htrace,hanswer⟩ := h.1.answer
    cases htrace
    simp [Answer,countCode] at hanswer

end Protocol

end RigelTarget.PthreadMutexProtocol
