import Mathlib.Data.Nat.Bitwise
import Mathlib.Data.Nat.Find
import Mathlib.Tactic.Common

/-!
# Counting the cores

`SW_TaskQueue_SetThreadsPerCluster` and `SW_TaskQueue_Init` look for the lowest set bit of a
count with a mask that is shifted until it meets one, and accept the count if it is that bit
alone. The scan ends for every count but 0, whose mask is shifted out of its word.
-/

namespace RigelTarget.CoreCount

/-- An `unsigned int` or `int`, by its bits. -/
abbrev Word := Fin (2^32)

/-- The words that the call reads and writes: the numbers of cores and threads and their shifts. -/
structure Globals where
  /-- `GLOBAL_numclusters`. -/
  numclusters : Word
  /-- `GLOBAL_numcores`. -/
  numcores : Word
  /-- `GLOBAL_numcores_SHIFT`. -/
  numcoresShift : ℕ
  /-- `GLOBAL_numthreads_per_cluster`. -/
  numthreadsPerCluster : Word

/-- The loop over `mask` and `shift`, for at most `fuel` tests. A count of zero has no bit that
would stop it. -/
def scan : ℕ → ℕ → ℕ → ℕ → Option ℕ
  | 0, _, _, _ => none
  | fuel+1, x, mask, shift =>
    if mask&&&x=0 then scan fuel x (mask*2%2^32) ((shift+1)%2^32) else some shift

/-- `(1 << shift) == count`. -/
def isBit (shift count : ℕ) : Bool := 2^shift%2^32==count

/-- `SW_TaskQueue_SetThreadsPerCluster`: the returned value and the words after the call; `none`
while the loop runs. -/
def setThreadsPerCluster (fuel : ℕ) (g : Globals) (threads : Word) : Option (ℤ×Globals) := do
  let numCores := threads*g.numclusters
  let shift ← scan fuel numCores 1 0
  if isBit shift numCores=true then
    some (0,{ g with
      numcoresShift := shift, numcores := numCores, numthreadsPerCluster := threads })
  else some (-1,g)

/-- What the checks of `SW_TaskQueue_Init` come to. -/
inductive Checked where
  /-- The program is aborted. -/
  | aborted
  /-- `GLOBAL_numcores_SHIFT` and `GLOBAL_numclusters_SHIFT` are stored. -/
  | stored (coresShift clustersShift : ℕ)

/-- The scans of `SW_TaskQueue_Init`: a count that is not the power of two of its lowest bit fails
an assertion. -/
def initShifts (fuel : ℕ) (numCores numClusters : Word) : Option Checked := do
  let shift ← scan fuel numCores 1 0
  if isBit shift numCores=true then
    let shift' ← scan fuel numClusters 1 0
    if isBit shift' numClusters=true then some (.stored shift shift') else some .aborted
  else some .aborted

/-- The count is a power of two. -/
def PowerOfTwo (x : Word) : Prop := ∃ k, x.val=2^k

/-- The call returned, with 0 for a power of two and all three words stored, and otherwise with -1
and nothing changed. -/
structure Sets (g : Globals) (threads : Word) (ret : ℤ) (g' : Globals) : Prop where
  /-- Exactly the powers of two are accepted. -/
  accepts : ret=0 ↔ PowerOfTwo (threads*g.numclusters)
  /-- What is stored. -/
  stores : ret=0 → g'.numcores=threads*g.numclusters ∧ 2^g'.numcoresShift=g'.numcores.val ∧
    g'.numthreadsPerCluster=threads ∧ g'.numclusters=g.numclusters
  /-- Nothing is stored. -/
  rejects : ret≠0 → ret=-1 ∧ g'=g

/-- The checks passed for powers of two, with their exponents stored, and for nothing else. -/
structure Checks (numCores numClusters : Word) (result : Checked) : Prop where
  /-- Exactly the powers of two are accepted. -/
  accepts : (∃ s s', result=.stored s s') ↔ PowerOfTwo numCores ∧ PowerOfTwo numClusters
  /-- What is stored. -/
  stores : ∀ s s', result=.stored s s' → 2^s=numCores.val ∧ 2^s'=numClusters.val

/-- A mask of 0 never meets a bit, nor does any mask in a count of 0. -/
theorem scan_zero (fuel mask shift : ℕ) : scan fuel 0 mask shift=none := by
  induction fuel generalizing mask shift with
  | zero => rfl
  | succ fuel ih => rw [scan,if_pos (Nat.and_zero mask),ih]

/-- The scan that has reached bit `i` stops at the lowest set bit `k`, if the tests suffice. -/
theorem scan_from {x k : ℕ} (hk : k<32) (hbit : x.testBit k=true)
    (hlow : ∀ j, j<k → x.testBit j=false) (fuel i : ℕ) (hi : i≤k) :
    scan fuel x (2^i) i=if k < i+fuel then some k else none := by
  induction fuel generalizing i with
  | zero => exact (if_neg (by omega)).symm
  | succ fuel ih =>
    rw [scan,Nat.two_pow_and]
    by_cases he : i=k
    · rw [he,hbit,if_pos (show k<k+(fuel+1) by omega)]
      exact if_neg (by rw [Bool.toNat_true,Nat.mul_one]; exact (Nat.two_pow_pos k).ne')
    · have hnext : 2^i*2%2^32=2^(i+1) := by
        rw [←pow_succ]
        exact Nat.mod_eq_of_lt (Nat.pow_lt_pow_right (by decide) (by omega))
      rw [hlow i (by omega),Bool.toNat_false,if_pos (Nat.mul_zero _),hnext,
        Nat.mod_eq_of_lt (show i+1<2^32 by omega),ih (i+1) (by omega),Nat.add_right_comm]
      rfl

/-- The scan of a count other than 0 stops at its lowest set bit within 32 tests, whatever the other
bits are. -/
theorem scan_stops {x : Word} (hx : x≠0) : ∃ k, k<32 ∧
    (∀ fuel, scan fuel x 1 0=if k<fuel then some k else none) ∧
    (isBit k x=true ↔ PowerOfTwo x) ∧ (isBit k x=true → 2^k=x.val) := by
  have hexists : ∃ k, x.val.testBit k=true :=
    Nat.exists_testBit_of_ne_zero fun he => hx (Fin.ext he)
  have hbit := Nat.find_spec hexists
  have hlow : ∀ j, j<Nat.find hexists → x.val.testBit j=false :=
    fun j hj => Bool.eq_false_of_not_eq_true (Nat.find_min hexists hj)
  generalize Nat.find hexists=k at hbit hlow
  have hk : k<32 := by
    by_contra hge
    have hhigh : x.val.testBit k=false :=
      Nat.testBit_lt_two_pow (x.isLt.trans_le (Nat.pow_le_pow_right (by decide) (by omega)))
    rw [hhigh] at hbit
    cases hbit
  have hword : 2^k%2^32=2^k := Nat.mod_eq_of_lt (Nat.pow_lt_pow_right (by decide) hk)
  have hself : isBit k x=true ↔ 2^k=x.val := by
    unfold isBit
    rw [hword,beq_iff_eq]
  refine ⟨k,hk,fun fuel => ?_,?_,hself.1⟩
  · have hscan := scan_from hk hbit hlow fuel 0 (Nat.zero_le k)
    rw [Nat.zero_add] at hscan
    exact hscan
  · rw [hself]
    constructor
    · exact fun he => ⟨k,he.symm⟩
    · rintro ⟨j,hj⟩
      rw [hj,Nat.testBit_two_pow] at hbit
      rw [hj,of_decide_eq_true hbit]

/-- The call with a product other than 0 returns as it should. -/
theorem setThreadsPerCluster_returns {g : Globals} {threads : Word}
    (h : threads*g.numclusters≠0) : ∃ ret g',
      setThreadsPerCluster 32 g threads=some (ret,g') ∧ Sets g threads ret g' := by
  obtain ⟨k,hk,hscan,hpow,hself⟩ := scan_stops h
  unfold setThreadsPerCluster
  dsimp only
  rw [hscan,if_pos hk]
  by_cases hbit : isBit k (threads*g.numclusters : Word)=true
  · exact ⟨_,_,if_pos hbit,⟨fun _ => hpow.1 hbit,fun _ => rfl⟩,
      fun _ => ⟨rfl,hself hbit,rfl,rfl⟩,fun hne => absurd rfl hne⟩
  · exact ⟨_,_,if_neg hbit,⟨fun he => absurd he (by decide),fun hp => absurd (hpow.2 hp) hbit⟩,
      fun he => absurd he (by decide),fun _ => ⟨rfl,rfl⟩⟩

/-- The checks of counts other than 0 end as they should; a count of clusters that is not reached
may be 0. -/
theorem initShifts_returns {numCores numClusters : Word} (hcores : numCores≠0)
    (hclusters : numClusters≠0 ∨ ¬PowerOfTwo numCores) : ∃ result,
      initShifts 32 numCores numClusters=some result ∧ Checks numCores numClusters result := by
  obtain ⟨k,hk,hscan,hpow,hself⟩ := scan_stops hcores
  unfold initShifts
  rw [hscan,if_pos hk]
  by_cases hbit : isBit k numCores=true
  · obtain ⟨k',hk',hscan',hpow',hself'⟩ :=
      scan_stops (hclusters.resolve_right (not_not_intro (hpow.1 hbit)))
    by_cases hbit' : isBit k' numClusters=true
    · refine ⟨.stored k k',?_,⟨fun _ => ⟨hpow.1 hbit,hpow'.1 hbit'⟩,fun _ => ⟨k,k',rfl⟩⟩,?_⟩
      · show (if isBit k numCores=true then _ else _)=_
        rw [if_pos hbit,hscan',if_pos hk']
        exact if_pos hbit'
      · intro s s' he
        cases he
        exact ⟨hself hbit,hself' hbit'⟩
    · refine ⟨.aborted,?_,⟨?_,fun hp => absurd (hpow'.2 hp.2) hbit'⟩,fun _ _ he => by cases he⟩
      · show (if isBit k numCores=true then _ else _)=_
        rw [if_pos hbit,hscan',if_pos hk']
        exact if_neg hbit'
      · rintro ⟨s,s',he⟩
        cases he
  · refine ⟨.aborted,if_neg hbit,⟨?_,fun hp => absurd (hpow.2 hp.1) hbit⟩,fun _ _ he => by cases he⟩
    rintro ⟨s,s',he⟩
    cases he

/-- For every count of threads and clusters, `SW_TaskQueue_SetThreadsPerCluster` returns and
accepts exactly the powers of two if and only if the product is not 0 in 32 bits; and so do the
scans of `SW_TaskQueue_Init` if and only if the first count is not 0 and the second one is not 0
when it is reached. -/
theorem core_counts_iff (g : Globals) (threads numCores numClusters : Word) :
    ((∃ fuel ret g', setThreadsPerCluster fuel g threads=some (ret,g') ∧
      Sets g threads ret g') ↔ threads*g.numclusters≠0) ∧
    ((∃ fuel result, initShifts fuel numCores numClusters=some result ∧
      Checks numCores numClusters result) ↔
        numCores≠0 ∧ (numClusters≠0 ∨ ¬PowerOfTwo numCores)) := by
  refine ⟨⟨?_,fun h => ⟨32,setThreadsPerCluster_returns h⟩⟩,
    ?_,fun h => ⟨32,initShifts_returns h.1 h.2⟩⟩
  · rintro ⟨fuel,ret,g',hcall,-⟩ hzero
    unfold setThreadsPerCluster at hcall
    dsimp only at hcall
    rw [hzero] at hcall
    rw [show ((0 : Word) : ℕ)=0 from rfl,scan_zero] at hcall
    cases hcall
  · rintro ⟨fuel,result,hcall,-⟩
    unfold initShifts at hcall
    constructor
    · rintro rfl
      rw [show ((0 : Word) : ℕ)=0 from rfl,scan_zero] at hcall
      cases hcall
    · -- the second scan is reached with a first count that is accepted
      by_contra hnot
      obtain ⟨hzero,hpow⟩ := not_or.1 hnot
      rw [not_not] at hzero hpow
      have hcores : numCores≠0 := by
        rintro rfl
        obtain ⟨k,hk⟩ := hpow
        exact (Nat.two_pow_pos k).ne hk
      obtain ⟨k,-,hscan,haccept,-⟩ := scan_stops hcores
      rw [hscan] at hcall
      split at hcall
      · have hsecond : (if isBit k numCores=true then _ else _)=some result := hcall
        rw [if_pos (haccept.2 hpow),hzero,show ((0 : Word) : ℕ)=0 from rfl,scan_zero] at hsecond
        cases hsecond
      · cases hcall

/-- Without clusters, as before the initialisation, the call does not return. -/
theorem no_cores_spin : ¬∃ fuel ret g', setThreadsPerCluster fuel ⟨0,0,0,0⟩ 4=some (ret,g') := by
  rintro ⟨fuel,ret,g',hcall⟩
  unfold setThreadsPerCluster at hcall
  dsimp only at hcall
  rw [show (((4 : Word)*0 : Word) : ℕ)=0 by decide,scan_zero] at hcall
  cases hcall

/-- Four threads in each of two clusters are eight cores. -/
example : setThreadsPerCluster 32 ⟨2,0,0,0⟩ 4=some (0,⟨2,8,3,4⟩) := by rfl

end RigelTarget.CoreCount
