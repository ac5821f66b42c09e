import Mathlib.Algebra.Group.Nat.Defs
import RigelTarget.SharedMemory

/-!
# Atomic instructions on 32-bit words

`atom.inc`, `atom.dec`, `atom.cas` and `atom.xchg` replace a word in memory by a
function of it. The result of an access in `SharedMemory` is the old word; the
instructions that return the new word are read through the same function.
-/

namespace RigelTarget.RigelAtomics

open SharedMemory

/-- The word that `-1` is stored as. The counters of the run time start there. -/
abbrev minusOne : ℕ := 2^32-1

/-- The value that `atom.inc` leaves in memory and returns, with the wraparound of a 32-bit word. -/
def incWord (v : ℕ) : ℕ := (v+1)%2^32

/-- The value that `atom.dec` leaves in memory and returns, with the wraparound of a 32-bit word. -/
def decWord (v : ℕ) : ℕ := (v+(2^32-1))%2^32

/-- The value that `atom.cas` leaves in memory; it returns the old one, from which the caller tells
whether it has stored. -/
def casValue (compareval swapval v : ℕ) : ℕ := if v=compareval then swapval else v

/-- `compare_and_swap`. -/
def compareAndSwap {V : Type} (x : V) (compareval swapval : ℕ) : Access V :=
  .rmw x (casValue compareval swapval)

/-- `atom.xchg` and `swap`: the register goes to memory and the old word comes back. -/
def exchange {V : Type} (x : V) (swapval : ℕ) : Access V := .rmw x fun _ => swapval

/-- `atomic_inc`. -/
def atomicInc {V : Type} (x : V) : Access V := .rmw x incWord

/-- `atomic_dec`. -/
def atomicDec {V : Type} (x : V) : Access V := .rmw x decWord

/-- Below the largest word the increment does not wrap. -/
theorem incWord_eq {v : ℕ} (h : v < minusOne) : incWord v=v+1 := by
  unfold minusOne at h
  exact Nat.mod_eq_of_lt (by omega)

/-- A positive word is decremented by one. -/
theorem decWord_eq {v : ℕ} (h0 : 0<v) (h : v<2^32) : decWord v=v-1 := by
  unfold decWord
  omega

/-- A word that compares equal is swapped. -/
@[simp] theorem casValue_self (a b : ℕ) : casValue a b a=b := if_pos rfl

/-- A word that compares different stays. -/
theorem casValue_of_ne {a b v : ℕ} (h : v≠a) : casValue a b v=v := if_neg h

end RigelTarget.RigelAtomics
