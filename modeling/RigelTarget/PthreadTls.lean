import Mathlib.Data.Nat.Bitwise
import Mathlib.Logic.Function.Basic
import Mathlib.Tactic.Common

/-!
# Thread-specific data of libpthread

`pthread_tls` holds a bitmap of valid keys, a destructor and a value per key for every
thread. Memory is addressed by words from the start of that array, since a key is not
checked before it indexes the values. A deletion calls the destructor of its key while the
value is not `NULL`, four times at most; destructors are any code of the client and may
call all four functions. They are not `NULL` themselves, since a deletion calls them without
a test. What the functions are for is told by the calls that took effect: which keys are
live, and the last value stored under a key since its creation. The code agrees as long as
a creation finds `NULL` under the key it picks, stores use keys of the array, and the key
32, which passes the range check, is not deleted. Reads with any key do no harm.
-/

namespace RigelTarget.PthreadTls

/-- `__MAX_KEYS_PER_THREAD`. -/
abbrev maxKeysPerThread : ℕ := 32

/-- `PTHREAD_MAX_DESTRUCTOR_ITERATIONS`. -/
abbrev maxDestructorIterations : ℕ := 4

/-- Words of a `__pthread_tls_t`: `valid`, the destructors and the values. -/
abbrev tlsWords : ℕ := 65

/-- What the source leaves to the machine: the number of its hardware threads, and what a shift by
the width of a word gives. -/
structure Machine where
  /-- `__MAX_NUM_THREADS`. -/
  maxNumThreads : ℕ
  /-- `pthread_tls` is an object of the 32-bit address space. -/
  fits : tlsWords*maxNumThreads≤2^30
  /-- The word computed for `1U << 32`, which the language leaves undefined. -/
  wideShift : ℕ

/-- A hardware thread, which is what `RigelGetThreadNum` returns. -/
abbrev Thread (M : Machine) := Fin M.maxNumThreads

/-- The word of `valid`. -/
def validAt (t : ℕ) : ℕ := tlsWords*t%2^30

/-- The word of `destructors[key]`. -/
def destructorAt (t key : ℕ) : ℕ := (tlsWords*t+1+key)%2^30

/-- The word of `data[key]`, for any `key`. A key past the end of the array is a word of the table
of another thread, or behind the tables. -/
def dataAt (t key : ℕ) : ℕ := (tlsWords*t+33+key)%2^30

/-- A call of `pthread_key_delete` whose destructor runs. Destructors may delete keys themselves, so
a thread has a stack of them. -/
structure Frame where
  /-- `key`. -/
  key : ℕ
  /-- `tries`. -/
  tries : ℕ
  deriving DecidableEq

/-- Calls that took effect. -/
inductive Event (M : Machine) where
  /-- `pthread_key_create` returned this key. -/
  | created (t : Thread M) (key : ℕ)
  /-- `pthread_key_delete` made this key invalid. -/
  | deleted (t : Thread M) (key : ℕ)
  /-- `pthread_setspecific` stored this value. -/
  | stored (t : Thread M) (key val : ℕ)
  deriving DecidableEq

/-- Memory, the deletions in progress and the calls that took effect, latest first. -/
structure State (M : Machine) where
  /-- Words from the start of `pthread_tls`. -/
  mem : ℕ → ℕ
  /-- Deletions in progress in each thread, innermost first. -/
  frames : Thread M → List Frame
  /-- The calls that took effect, latest first. -/
  history : List (Event M)

/-- What a thread does: one of the four calls, or the end of the innermost destructor. A destructor
is all that its thread does between its call and its end. -/
inductive Call where
  /-- `pthread_key_create`, with a destructor that is not `NULL`. -/
  | create (destructor : ℕ)
  /-- `pthread_key_delete`. -/
  | delete (key : ℕ)
  /-- `pthread_getspecific`. -/
  | getspecific (key : ℕ)
  /-- `pthread_setspecific`. -/
  | setspecific (key val : ℕ)
  /-- The innermost destructor returns to its deletion. -/
  | destructorReturns
  deriving DecidableEq

/-- What a call comes back with. -/
inductive Result where
  /-- Zero, with the new key. -/
  | created (key : ℕ)
  /-- `-EAGAIN`. -/
  | again
  /-- Zero. -/
  | ok
  /-- `-EINVAL`. -/
  | invalid
  /-- The value of `pthread_getspecific`. -/
  | value (v : ℕ)
  /-- The deletion calls this destructor with this value first. -/
  | destructs (destructor val : ℕ)
  deriving DecidableEq

/-- `1U << key`. For the key 32, which passes the range check, the language leaves the value to the
machine. -/
def mask (wideShift key : ℕ) : ℕ := if key<32 then 2^key else wideShift

/-- The loop of `pthread_key_create` from key `i` on, with `room` keys left: the first key whose bit
is clear. -/
def freeKey (valid : ℕ) : ℕ → ℕ → Option ℕ
  | 0, _ => none
  | room+1, i => if valid&&&2^i=0 then some i else freeKey valid room (i+1)

section Calls

variable {M : Machine}

/-- `pthread_key_create`. It sets the bit of the key and its destructor; the value under the key
stays what it was. -/
def pthreadKeyCreate (s : State M) (t : Thread M) (destructor : ℕ) : State M×Result :=
  match freeKey (s.mem (validAt t)) maxKeysPerThread 0 with
  | none => (s,.again)
  | some i =>
    let mem := Function.update s.mem (validAt t) (s.mem (validAt t)|||2^i)
    ({ s with
        mem := Function.update mem (destructorAt t i) destructor
        history := .created t i::s.history },.created i)

/-- The loop over the destructor in `pthread_key_delete`, up to its next call. It ends when the
value is `NULL` or after four calls, with whatever value is left. -/
def destroy (s : State M) (t : Thread M) (key tries : ℕ) (outer : List Frame) : State M×Result :=
  if s.mem (dataAt t key)≠0 ∧ tries < maxDestructorIterations then
    ({ s with frames := Function.update s.frames t (⟨key,tries⟩::outer) },
      .destructs (s.mem (destructorAt t key)) (s.mem (dataAt t key)))
  else ({ s with frames := Function.update s.frames t outer },.ok)

/-- `pthread_key_delete`: the range check, the test of the bit, and then the loop over the
destructor with the bit already cleared. -/
def pthreadKeyDelete (s : State M) (t : Thread M) (key : ℕ) : State M×Result :=
  if maxKeysPerThread<key then (s,.invalid)
  else if s.mem (validAt t)&&&mask M.wideShift key=0 then (s,.invalid)
  else
    destroy { s with
        mem := Function.update s.mem (validAt t)
          (s.mem (validAt t)&&&((2^32-1)^^^mask M.wideShift key))
        history := .deleted t key::s.history } t key 0 (s.frames t)

/-- `pthread_getspecific`. -/
def pthreadGetspecific (s : State M) (t : Thread M) (key : ℕ) : ℕ := s.mem (dataAt t key)

/-- `pthread_setspecific`. -/
def pthreadSetspecific (s : State M) (t : Thread M) (key val : ℕ) : State M×Result :=
  ({ s with
      mem := Function.update s.mem (dataAt t key) val
      history := .stored t key val::s.history },.ok)

/-- One call of a thread. A destructor is client code and may make calls itself, so its return is a
call of its own. -/
def exec (s : State M) (t : Thread M) : Call → State M×Result
  | .create destructor => pthreadKeyCreate s t destructor
  | .delete key => pthreadKeyDelete s t key
  | .getspecific key => (s,.value (pthreadGetspecific s t key))
  | .setspecific key val => pthreadSetspecific s t key val
  | .destructorReturns => match s.frames t with
    | [] => (s,.ok)
    | f::outer => destroy s t f.key (f.tries+1) outer

/-- Calls of any threads, earliest first. -/
def run (s : State M) : List (Thread M×Call) → State M
  | [] => s
  | (t,call)::calls => run (exec s t call).1 calls

/-- The state before the first call: `pthread_tls` is zero. -/
def initial (M : Machine) : State M := ⟨fun _ => 0,fun _ => [],[]⟩

/-- Whether a key is live in a thread. -/
def live (t : Thread M) (key : ℕ) : List (Event M) → Bool
  | [] => false
  | .created u k::es => if u=t ∧ k=key then true else live t key es
  | .deleted u k::es => if u=t ∧ k=key then false else live t key es
  | .stored _ _ _::es => live t key es

/-- The last value a thread stored under a key since the key was created, `NULL` if none. This is
what a read should return. -/
def lastSet (t : Thread M) (key : ℕ) : List (Event M) → ℕ
  | [] => 0
  | .created u k::es => if u=t ∧ k=key then 0 else lastSet t key es
  | .deleted _ _::es => lastSet t key es
  | .stored u k v::es => if u=t ∧ k=key then v else lastSet t key es

/-- What thread-specific data promises about one call, told by the live keys and the stored values,
and not by the words of the code. -/
structure Lawful (s : State M) (t : Thread M) (call : Call) (r : State M×Result) : Prop where
  /-- Live keys are below 32. -/
  below : ∀ u key, live u key r.1.history=true → key<32
  /-- A creation returns a key that is not live, or all 32 keys are live. -/
  fresh : ∀ d, call=.create d → (∃ key, r.2=.created key ∧ key<32 ∧
    live t key s.history=false ∧ live t key r.1.history=true) ∨
    r.2=.again ∧ ∀ key<32, live t key s.history=true
  /-- A live key reads the last value stored under it since its creation. -/
  reads : ∀ key, call=.getspecific key → live t key s.history=true →
    r.2=.value (lastSet t key s.history)
  /-- A key that is not live is not deleted. -/
  refuses : ∀ key, call=.delete key → live t key s.history=false → r=(s,.invalid)
  /-- The other threads read what they read before. -/
  apart : ∀ u, u≠t → ∀ key<32, pthreadGetspecific r.1 u key=pthreadGetspecific s u key ∧
    live u key r.1.history=live u key s.history

/-- The calls for which the code keeps its promise: a creation that finds `NULL` under the key
it picks, a deletion of another key than 32, stores inside the array, and all reads. -/
def Sound (s : State M) (t : Thread M) : Call → Prop
  | .create _ => ∀ i, freeKey (s.mem (validAt t)) maxKeysPerThread 0=some i →
      s.mem (dataAt t i)=0
  | .delete key => key≠32
  | .getspecific _ => True
  | .setspecific key _ => key<32
  | .destructorReturns => True

/-- Soundness of a call can be checked. -/
instance (s : State M) (t : Thread M) : (call : Call) → Decidable (Sound s t call)
  | .create _ => match h : freeKey (s.mem (validAt t)) maxKeysPerThread 0 with
    | none => .isTrue fun i hi => by
      rw [h] at hi
      cases hi
    | some i => decidable_of_iff (s.mem (dataAt t i)=0) ⟨fun hz j hj => by
      rw [h] at hj
      cases hj
      exact hz,fun hz => hz i h⟩
  | .delete key => inferInstanceAs (Decidable (key≠32))
  | .getspecific _ => .isTrue trivial
  | .setspecific key _ => inferInstanceAs (Decidable (key<32))
  | .destructorReturns => .isTrue trivial

/-- States reached by calls that all meet a condition on the state before them. -/
inductive Reachable (allowed : State M → Thread M → Call → Prop) :
    State M → Prop where
  /-- Before the first call. -/
  | init : Reachable allowed (initial M)
  /-- After one more call of any thread. -/
  | call {s : State M} (t : Thread M) (c : Call) : Reachable allowed s → allowed s t c →
      Reachable allowed (exec s t c).1

/-- Whether all calls of a run meet a decidable condition. -/
def allows (allowed : State M → Thread M → Call → Prop)
    [∀ s t call, Decidable (allowed s t call)] (s : State M) : List (Thread M×Call) → Bool
  | [] => true
  | (t,call)::calls => decide (allowed s t call) && allows allowed (exec s t call).1 calls

/-- A run whose calls were checked reaches its last state. -/
theorem Reachable.of_allows {allowed : State M → Thread M → Call → Prop}
    [∀ s t call, Decidable (allowed s t call)] {s : State M} (hs : Reachable allowed s)
    {calls : List (Thread M×Call)} (h : allows allowed s calls=true) :
    Reachable allowed (run s calls) := by
  induction calls generalizing s with
  | nil => exact hs
  | cons c calls ih =>
    obtain ⟨t,call⟩ := c
    simp only [allows,Bool.and_eq_true,decide_eq_true_eq] at h
    exact ih (.call t call hs h.1) h.2

end Calls

/-- A word of the table of a thread. -/
theorem word_inside {M : Machine} (t : Thread M) {k : ℕ} (hk : k<tlsWords) :
    (tlsWords*t.val+k)%2^30=tlsWords*t.val+k := by
  have hfit := M.fits
  have ht := t.isLt
  unfold tlsWords at *
  omega

section Addresses

variable {M : Machine} (t u : Thread M) {k j : ℕ}

/-- The bitmap of a thread is at the start of its table. -/
theorem validAt_eq : validAt t=tlsWords*t.val := word_inside t (k := 0) (by decide)

/-- The values of a thread are at the end of its table. -/
theorem dataAt_eq (hk : k<32) : dataAt t k=tlsWords*t.val+33+k := by
  have h := word_inside t (k := 33+k) (by unfold tlsWords; omega)
  rw [←Nat.add_assoc] at h
  exact h

/-- The destructors of a thread are in the middle of its table. -/
theorem destructorAt_eq (hk : k<32) : destructorAt t k=tlsWords*t.val+1+k := by
  have h := word_inside t (k := 1+k) (by unfold tlsWords; omega)
  rw [←Nat.add_assoc] at h
  exact h

/-- Different threads have different bitmaps. -/
theorem validAt_inj (h : validAt t=validAt u) : t=u := by
  rw [validAt_eq,validAt_eq] at h
  unfold tlsWords at h
  exact Fin.ext (by omega)

/-- A bitmap is not a value. -/
theorem validAt_ne_dataAt (hk : k<32) : validAt t≠dataAt u k := by
  rw [validAt_eq,dataAt_eq u hk]
  unfold tlsWords
  omega

/-- A bitmap is not a destructor. -/
theorem validAt_ne_destructorAt (hk : k<32) : validAt t≠destructorAt u k := by
  rw [validAt_eq,destructorAt_eq u hk]
  unfold tlsWords
  omega

/-- A value is not a destructor. -/
theorem dataAt_ne_destructorAt (hk : k<32) (hj : j<32) : dataAt t k≠destructorAt u j := by
  rw [dataAt_eq t hk,destructorAt_eq u hj]
  unfold tlsWords
  omega

/-- Different keys of different threads have different values. -/
theorem dataAt_inj (hk : k<32) (hj : j<32) (h : dataAt t k=dataAt u j) : t=u ∧ k=j := by
  rw [dataAt_eq t hk,dataAt_eq u hj] at h
  unfold tlsWords at h
  have htu : t.val=u.val := by omega
  exact ⟨Fin.ext htu,by omega⟩

end Addresses

/-- The test of one bit of the bitmap. -/
theorem and_mask_eq_zero (v k : ℕ) : v&&&2^k=0 ↔ v.testBit k=false := by
  rw [Nat.and_two_pow]
  cases v.testBit k with
  | false => simp
  | true => simp

/-- The key that the loop of a creation picks is in range and its bit is clear. -/
theorem freeKey_some {v room i k : ℕ} (h : freeKey v room i=some k) :
    k < i+room ∧ v.testBit k=false := by
  induction room generalizing i with
  | zero => cases h
  | succ room ih =>
    unfold freeKey at h
    by_cases hz : v&&&2^i=0
    · rw [if_pos hz] at h
      cases h
      exact ⟨by omega,(and_mask_eq_zero v k).1 hz⟩
    · rw [if_neg hz] at h
      obtain ⟨hk,hbit⟩ := ih h
      exact ⟨by omega,hbit⟩

/-- When the loop of a creation finds no key, all bits are set. -/
theorem freeKey_none {v room i k : ℕ} (h : freeKey v room i=none) (hi : i ≤ k)
    (hk : k < i+room) : v.testBit k=true := by
  induction room generalizing i with
  | zero => omega
  | succ room ih =>
    unfold freeKey at h
    by_cases hz : v&&&2^i=0
    · rw [if_pos hz] at h
      cases h
    · rw [if_neg hz] at h
      by_cases hik : i=k
      · subst hik
        rw [and_mask_eq_zero] at hz
        exact eq_true_of_ne_false hz
      · exact ih h (by omega) (by omega)

/-- The bitmap after a creation. -/
theorem testBit_create (v k j : ℕ) : (v|||2^k).testBit j=(v.testBit j || decide (k=j)) := by
  rw [Nat.testBit_or,Nat.testBit_two_pow]

/-- The bitmap after a deletion. -/
theorem testBit_delete (v k : ℕ) {j : ℕ} (hj : j<32) :
    (v&&&((2^32-1)^^^2^k)).testBit j=(v.testBit j && decide (k≠j)) := by
  rw [Nat.testBit_and,Nat.testBit_xor,Nat.testBit_two_pow_sub_one,Nat.testBit_two_pow]
  by_cases hkj : k=j
  · simp [hkj,hj]
  · simp [hkj,hj]

section Invariant

variable {M : Machine} {s : State M} {t : Thread M}

/-- Memory agrees with the calls that took effect: the bitmap has the live keys, and their values
are the last ones stored since their creation. -/
structure TlsInv (s : State M) : Prop where
  /-- The bitmap of a thread has its live keys. -/
  valid : ∀ t key, key<32 → (s.mem (validAt t.val)).testBit key=live t key s.history
  /-- Live keys are below 32. -/
  below : ∀ t key, live t key s.history=true → key<32
  /-- The value of a live key is the last one stored since its creation. -/
  data : ∀ t key, live t key s.history=true → s.mem (dataAt t.val key)=lastSet t key s.history

/-- Before the first call no key is live. -/
theorem tlsInv_initial : TlsInv (initial M) where
  valid _ _ _ := Nat.zero_testBit _
  below _ _ h := by cases h
  data _ _ h := by cases h

/-- The loop over the destructor changes neither memory nor history. -/
theorem destroy_keeps (key tries : ℕ) (outer : List Frame) :
    (destroy s t key tries outer).1.mem=s.mem ∧
      (destroy s t key tries outer).1.history=s.history := by
  unfold destroy
  split
  · exact ⟨rfl,rfl⟩
  · exact ⟨rfl,rfl⟩

/-- The invariant depends on memory and history only. -/
theorem TlsInv.congr {s s' : State M} (h : TlsInv s) (hmem : s'.mem=s.mem)
    (hhist : s'.history=s.history) : TlsInv s' where
  valid := by
    rw [hmem,hhist]
    exact h.valid
  below := by
    rw [hhist]
    exact h.below
  data := by
    rw [hmem,hhist]
    exact h.data

/-- A creation that finds `NULL` under its key. Here the condition is used: the new key must read
`NULL`. -/
theorem TlsInv.create (h : TlsInv s) (d : ℕ)
    (hnull : ∀ i, freeKey (s.mem (validAt t)) maxKeysPerThread 0=some i → s.mem (dataAt t i)=0) :
    TlsInv (pthreadKeyCreate s t d).1 := by
  unfold pthreadKeyCreate
  cases hfree : freeKey (s.mem (validAt t)) maxKeysPerThread 0 with
  | none => exact h
  | some i =>
    obtain ⟨hi,hbit⟩ := freeKey_some hfree
    have hi32 : i<32 := by
      unfold maxKeysPerThread at hi
      omega
    refine ⟨?_,?_,?_⟩
    · intro u key hkey
      show (Function.update (Function.update s.mem (validAt t) _) (destructorAt t i) d
        (validAt u)).testBit key=(if t=u ∧ i=key then true else live u key s.history)
      rw [Function.update_of_ne (validAt_ne_destructorAt u t hi32)]
      by_cases htu : t=u
      · subst htu
        rw [Function.update_self,testBit_create,h.valid t key hkey]
        by_cases hik : i=key
        · simp [hik]
        · simp [hik]
      · rw [Function.update_of_ne (fun he => htu (validAt_inj u t he).symm),
          if_neg (fun hc => htu hc.1)]
        exact h.valid u key hkey
    · intro u key hlive
      change (if t=u ∧ i=key then true else live u key s.history)=true at hlive
      by_cases hsame : t=u ∧ i=key
      · omega
      · rw [if_neg hsame] at hlive
        exact h.below u key hlive
    · intro u key hlive
      change (if t=u ∧ i=key then true else live u key s.history)=true at hlive
      show Function.update (Function.update s.mem (validAt t) _) (destructorAt t i) d
        (dataAt u key)=(if t=u ∧ i=key then 0 else lastSet u key s.history)
      by_cases hsame : t=u ∧ i=key
      · obtain ⟨rfl,rfl⟩ := hsame
        rw [Function.update_of_ne (dataAt_ne_destructorAt t t hi32 hi32),
          Function.update_of_ne (validAt_ne_dataAt t t hi32).symm,if_pos ⟨rfl,rfl⟩]
        exact hnull i hfree
      · rw [if_neg hsame] at hlive ⊢
        have hkey := h.below u key hlive
        rw [Function.update_of_ne (dataAt_ne_destructorAt u t hkey hi32),
          Function.update_of_ne (validAt_ne_dataAt t u hkey).symm]
        exact h.data u key hlive

/-- A deletion of a key of the array that is live. It clears the bit of the key and leaves the
values alone. -/
theorem TlsInv.delete (h : TlsInv s) {key : ℕ} (hkey : key<32) :
    TlsInv { s with
      mem := Function.update s.mem (validAt t)
        (s.mem (validAt t)&&&((2^32-1)^^^mask M.wideShift key))
      history := .deleted t key::s.history } := by
  have hmask : mask M.wideShift key=2^key := if_pos hkey
  refine ⟨?_,?_,?_⟩
  · intro u j hj
    show (Function.update s.mem (validAt t) _ (validAt u)).testBit j=
      (if t=u ∧ key=j then false else live u j s.history)
    by_cases htu : t=u
    · subst htu
      rw [Function.update_self,hmask,testBit_delete _ _ hj,h.valid t j hj]
      by_cases hjk : key=j
      · simp [hjk]
      · simp [hjk]
    · rw [Function.update_of_ne (fun he => htu (validAt_inj u t he).symm),
        if_neg (fun hc => htu hc.1)]
      exact h.valid u j hj
  · intro u j hlive
    change (if t=u ∧ key=j then false else live u j s.history)=true at hlive
    by_cases hsame : t=u ∧ key=j
    · omega
    · rw [if_neg hsame] at hlive
      exact h.below u j hlive
  · intro u j hlive
    change (if t=u ∧ key=j then false else live u j s.history)=true at hlive
    show Function.update s.mem (validAt t) _ (dataAt u j)=lastSet u j s.history
    by_cases hsame : t=u ∧ key=j
    · rw [if_pos hsame] at hlive
      cases hlive
    · rw [if_neg hsame] at hlive
      rw [Function.update_of_ne (validAt_ne_dataAt t u (h.below u j hlive)).symm]
      exact h.data u j hlive

/-- A store under a key of the array. Only the caller has a new value there. -/
theorem TlsInv.set (h : TlsInv s) {key : ℕ} (hkey : key<32) (val : ℕ) :
    TlsInv (pthreadSetspecific s t key val).1 := by
  refine ⟨?_,h.below,?_⟩
  · intro u j hj
    show (Function.update s.mem (dataAt t key) val (validAt u)).testBit j=live u j s.history
    rw [Function.update_of_ne (validAt_ne_dataAt u t hkey)]
    exact h.valid u j hj
  · intro u j hlive
    show Function.update s.mem (dataAt t key) val (dataAt u j)=
      (if t=u ∧ key=j then val else lastSet u j s.history)
    have hj := h.below u j hlive
    by_cases hsame : t=u ∧ key=j
    · obtain ⟨rfl,rfl⟩ := hsame
      rw [Function.update_self,if_pos ⟨rfl,rfl⟩]
    · rw [if_neg hsame,Function.update_of_ne]
      · exact h.data u j hlive
      · intro he
        obtain ⟨hut,hjk⟩ := dataAt_inj u t hj hkey he
        exact hsame ⟨hut.symm,hjk.symm⟩

/-- The bit test of a deletion finds out whether the key is live. -/
theorem TlsInv.invalid_iff (h : TlsInv s) {key : ℕ} (hkey : key<32) :
    s.mem (validAt t)&&&mask M.wideShift key=0 ↔ live t key s.history=false := by
  have hmask : mask M.wideShift key=2^key := if_pos hkey
  rw [hmask,and_mask_eq_zero,h.valid t key hkey]

/-- A deletion of another key than 32: refused without effect, or carried out on a key of the
array. -/
theorem delete_cases (key : ℕ) (h : key≠32) : pthreadKeyDelete s t key=(s,.invalid) ∨
    key<32 ∧ s.mem (validAt t)&&&mask M.wideShift key≠0 ∧
      pthreadKeyDelete s t key=destroy { s with
        mem := Function.update s.mem (validAt t)
          (s.mem (validAt t)&&&((2^32-1)^^^mask M.wideShift key))
        history := .deleted t key::s.history } t key 0 (s.frames t) := by
  unfold pthreadKeyDelete maxKeysPerThread
  by_cases hbig : 32<key
  · rw [if_pos hbig]
    exact .inl rfl
  · rw [if_neg hbig]
    by_cases hzero : s.mem (validAt t)&&&mask M.wideShift key=0
    · rw [if_pos hzero]
      exact .inl rfl
    · rw [if_neg hzero]
      exact .inr ⟨by omega,hzero,rfl⟩

/-- Every sound call keeps the invariant, whatever destructors do between the steps of a
deletion. -/
theorem tlsInv_exec (h : TlsInv s) {call : Call} (hsound : Sound s t call) :
    TlsInv (exec s t call).1 := by
  cases call with
  | create d => exact h.create d hsound
  | delete key =>
    rcases delete_cases (s := s) (t := t) key hsound with hrefused|⟨hkey,-,hdone⟩
    · show TlsInv (pthreadKeyDelete s t key).1
      rw [hrefused]
      exact h
    · show TlsInv (pthreadKeyDelete s t key).1
      rw [hdone]
      obtain ⟨hmem,hhist⟩ := destroy_keeps (s := { s with
        mem := Function.update s.mem (validAt t)
          (s.mem (validAt t)&&&((2^32-1)^^^mask M.wideShift key))
        history := .deleted t key::s.history }) (t := t) key 0 (s.frames t)
      exact (h.delete hkey).congr hmem hhist
  | getspecific key => exact h
  | setspecific key val => exact h.set hsound val
  | destructorReturns =>
    show TlsInv (match s.frames t with
      | [] => (s,Result.ok)
      | f::outer => destroy s t f.key (f.tries+1) outer).1
    cases s.frames t with
    | nil => exact h
    | cons f outer =>
      obtain ⟨hmem,hhist⟩ := destroy_keeps (s := s) (t := t) f.key (f.tries+1) outer
      exact h.congr hmem hhist

/-- Memory agrees with the calls in every state of a run of sound calls. -/
theorem tlsInv_reachable (hs : Reachable Sound s) : TlsInv s := by
  induction hs with
  | init => exact tlsInv_initial
  | call t c _ hsound ih => exact tlsInv_exec ih hsound

/-- A sound call changes neither the values nor the live keys of another thread. So what a thread
reads is its own last store. -/
theorem exec_apart {call : Call} (hsound : Sound s t call) {u : Thread M} (hu : u≠t) {key : ℕ}
    (hkey : key<32) : (exec s t call).1.mem (dataAt u key)=s.mem (dataAt u key) ∧
      live u key (exec s t call).1.history=live u key s.history := by
  have hne : ∀ {k : ℕ}, ¬(t=u ∧ k=key) := fun hc => hu hc.1.symm
  cases call with
  | create d =>
    show (pthreadKeyCreate s t d).1.mem (dataAt u key)=_ ∧
      live u key (pthreadKeyCreate s t d).1.history=_
    unfold pthreadKeyCreate
    cases hfree : freeKey (s.mem (validAt t)) maxKeysPerThread 0 with
    | none => exact ⟨rfl,rfl⟩
    | some i =>
      have hi := (freeKey_some hfree).1
      unfold maxKeysPerThread at hi
      refine ⟨?_,if_neg hne⟩
      show Function.update (Function.update s.mem (validAt t) _) (destructorAt t i) d
        (dataAt u key)=s.mem (dataAt u key)
      rw [Function.update_of_ne (dataAt_ne_destructorAt u t hkey (by omega)),
        Function.update_of_ne (validAt_ne_dataAt t u hkey).symm]
  | delete k =>
    show (pthreadKeyDelete s t k).1.mem (dataAt u key)=_ ∧
      live u key (pthreadKeyDelete s t k).1.history=_
    rcases delete_cases (s := s) (t := t) k hsound with hrefused|⟨-,-,hdone⟩
    · rw [hrefused]
      exact ⟨rfl,rfl⟩
    · rw [hdone]
      obtain ⟨hmem,hhist⟩ := destroy_keeps (s := { s with
        mem := Function.update s.mem (validAt t)
          (s.mem (validAt t)&&&((2^32-1)^^^mask M.wideShift k))
        history := .deleted t k::s.history }) (t := t) k 0 (s.frames t)
      rw [hmem,hhist]
      exact ⟨Function.update_of_ne (validAt_ne_dataAt t u hkey).symm _ _,if_neg hne⟩
  | getspecific k => exact ⟨rfl,rfl⟩
  | setspecific k val =>
    refine ⟨Function.update_of_ne ?_ _ _,rfl⟩
    intro he
    exact hu (dataAt_inj u t hkey hsound he).1
  | destructorReturns =>
    show (match s.frames t with
      | [] => (s,Result.ok)
      | f::outer => destroy s t f.key (f.tries+1) outer).1.mem (dataAt u key)=_ ∧
      live u key (match s.frames t with
      | [] => (s,Result.ok)
      | f::outer => destroy s t f.key (f.tries+1) outer).1.history=_
    cases s.frames t with
    | nil => exact ⟨rfl,rfl⟩
    | cons f outer =>
      obtain ⟨hmem,hhist⟩ := destroy_keeps (s := s) (t := t) f.key (f.tries+1) outer
      rw [hmem,hhist]
      exact ⟨rfl,rfl⟩

/-- A creation returns a key that is not live, or finds all keys live. -/
theorem TlsInv.create_result (h : TlsInv s) (d : ℕ) :
    (∃ key, (pthreadKeyCreate s t d).2=.created key ∧ key<32 ∧ live t key s.history=false ∧
      live t key (pthreadKeyCreate s t d).1.history=true) ∨
    (pthreadKeyCreate s t d).2=.again ∧ ∀ key<32, live t key s.history=true := by
  unfold pthreadKeyCreate
  cases hfree : freeKey (s.mem (validAt t)) maxKeysPerThread 0 with
  | none =>
    refine .inr ⟨rfl,fun key hkey => ?_⟩
    rw [←h.valid t key hkey]
    exact freeKey_none hfree (Nat.zero_le key) (by unfold maxKeysPerThread; omega)
  | some i =>
    obtain ⟨hi,hbit⟩ := freeKey_some hfree
    have hi32 : i<32 := by
      unfold maxKeysPerThread at hi
      omega
    refine .inl ⟨i,rfl,hi32,?_,if_pos ⟨rfl,rfl⟩⟩
    rw [←h.valid t i hi32]
    exact hbit

/-- A key that is not live and not 32 is refused without effect. -/
theorem TlsInv.delete_refused (h : TlsInv s) {key : ℕ} (hkey : key≠32)
    (hlive : live t key s.history=false) : pthreadKeyDelete s t key=(s,.invalid) := by
  rcases delete_cases (s := s) (t := t) key hkey with hrefused|⟨hlt,hvalid,-⟩
  · exact hrefused
  · exact absurd ((h.invalid_iff hlt).2 hlive) hvalid

end Invariant

/-- Along every run of sound calls of any threads, every sound call keeps the promises of
thread-specific data, whatever the destructors do. -/
theorem thread_specific_data {M : Machine} {s : State M} (hs : Reachable Sound s) {t : Thread M}
    {call : Call} (hsound : Sound s t call) : Lawful s t call (exec s t call) where
  below := (tlsInv_exec (tlsInv_reachable hs) hsound).below
  fresh := by
    rintro d rfl
    exact (tlsInv_reachable hs).create_result d
  reads := by
    rintro key rfl hlive
    exact congrArg Result.value ((tlsInv_reachable hs).data t key hlive)
  refuses := by
    rintro key rfl hlive
    exact (tlsInv_reachable hs).delete_refused hsound hlive
  apart _ hu _ hkey := exec_apart hsound hu hkey

/-- Two hardware threads, with the shift of a machine that reduces shift counts modulo 32. -/
def twoThreads : Machine := ⟨2,by decide,1⟩

/-- The first thread. -/
def first : Thread twoThreads := ⟨0,Nat.two_pos⟩

/-- The second thread. -/
def second : Thread twoThreads := ⟨1,Nat.one_lt_two⟩

/-- Both threads create the key 0 and store under it; the first one deletes its key, whose
destructor clears the value, and creates it again. -/
def bothStore : List (Thread twoThreads×Call) :=
  [(first,.create 100),(second,.create 100),(first,.setspecific 0 7),(second,.setspecific 0 9),
    (first,.delete 0),(first,.setspecific 0 0),(first,.destructorReturns),(first,.create 100)]

/-- The second thread still reads its value. -/
theorem thread_specific_data_bothStore :
    (exec (run (initial twoThreads) bothStore) second (.getspecific 0)).2=.value 9 := by
  have hs : Reachable Sound (run (initial twoThreads) bothStore) :=
    .of_allows .init (by decide +kernel)
  have hsound : Sound (run (initial twoThreads) bothStore) second (.getspecific 0) := by
    decide +kernel
  have h := thread_specific_data hs hsound
  rw [h.reads 0 rfl (by decide +kernel)]
  decide +kernel

/-- A thread deletes a key without clearing its value, and creates it again. -/
def recreate : List (Thread twoThreads×Call) :=
  [(first,.create 100),(first,.setspecific 0 7),(first,.delete 0),(first,.destructorReturns),
    (first,.destructorReturns),(first,.destructorReturns),(first,.destructorReturns),
    (first,.create 100)]

/-- The new key is live, nothing was stored under it since its creation, and it reads the value
of the deleted one. -/
theorem recreated_key_reads_old_value :
    Reachable (fun _ _ _ => True) (run (initial twoThreads) recreate) ∧
    live first 0 (run (initial twoThreads) recreate).history=true ∧
    lastSet first 0 (run (initial twoThreads) recreate).history=0 ∧
    (exec (run (initial twoThreads) recreate) first (.getspecific 0)).2=.value 7 ∧
    ¬Lawful (run (initial twoThreads) recreate) first (.getspecific 0)
      (exec (run (initial twoThreads) recreate) first (.getspecific 0)) := by
  have hlive : live first 0 (run (initial twoThreads) recreate).history=true := by
    decide +kernel
  have hread : (exec (run (initial twoThreads) recreate) first (.getspecific 0)).2=.value 7 := by
    decide +kernel
  refine ⟨.of_allows .init (by decide +kernel),hlive,by decide +kernel,hread,fun h => ?_⟩
  have hlast := h.reads 0 rfl hlive
  rw [hread] at hlast
  revert hlast
  decide +kernel

end RigelTarget.PthreadTls
