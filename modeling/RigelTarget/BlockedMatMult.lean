import RigelTarget.EnqueueSequential
import RigelTarget.ProductTiling
import RigelTarget.StencilCache
import Mathlib.Data.BitVec

/-!
# The blocked matrix multiply of the x86 task model

The result is cut into blocks, the rows of a block are taken eight at a time, and the loop of the
task model cuts the columns of these rows into tasks. A task keeps eight sums and goes through the
common dimension eight elements at a time. The tasks tile the result, and with arithmetic modulo
`2^32` their sums are those of the simple loop. Every `int` that counts stays between 0 and
`MATDIM`, so that none overflows.
-/

namespace RigelTarget.BlockedMatMult

open DoubleBuffer ProductTiling
open EnqueueSequential (taskQueueLoop)
open StencilCache (span mem_span)
open X86TaskModel (TaskDesc)

section Code

/-- `ElemType`, with the arithmetic of the machine, which wraps around. The sums of the two
multiplies are in different orders. -/
abbrev ElemType := BitVec 32

/-- An `ElemType **`, by row and column. Indices are integers as in the program, so that those
outside can be told. -/
abbrev Mat := ℤ×ℤ → ElemType

/-- An assignment to an element of `resultA`: the row and the column, and the value. -/
abbrev Assignment := (ℤ×ℤ)×ElemType

/-- `I_ITERS_PER_TASK`: the rows of a task, for which one pass over a column of the second matrix is
made. -/
def iItersPerTask : ℕ := 8

/-- `UNROLL_FACTOR`: the terms that one turn of the innermost loop adds. -/
def unrollFactor : ℕ := 8

/-- `J_ITERS_PER_TASK`: the columns that the queue gives to a task at most. -/
def jItersPerTask : ℕ := 4

/-- `BLOCK_COUNT_I`: the blocks of rows. Their size is the matrix dimension divided by this
number. -/
def blockCountI : ℤ := 4

/-- `BLOCK_COUNT_J`: the blocks of columns, as for the rows. -/
def blockCountJ : ℤ := 4

/-- The values of `for (v = low; v < high; v += step)`; `none` when the fuel does not suffice. With
a step of zero a loop that begins never ends, and no fuel suffices. -/
def forLoop (step high : ℤ) : ℕ → ℤ → Option (List ℤ)
  | 0, _ => none
  | fuel+1, low => if low < high then (forLoop step high fuel (low+step)).map (low::·) else some []

/-- `simple_matrix_multiply`: three loops, one sum for each element in the order of the columns. The
program compares its result with this one. -/
def simpleMatrixMultiply (a b result : Mat) (dimX dimY dimCommon : ℤ) : Mat :=
  (span 0 dimX).foldl (fun result i => (span 0 dimY).foldl (fun result j =>
    (span 0 dimCommon).foldl
      (fun result k => Function.update result (i,j) (result (i,j)+a (i,k)*b (k,j)))
      (Function.update result (i,j) 0)) result) result

variable (matdim : ℤ)

/-- The indices are inside a matrix. The program does not test them: that they are is part of what
is proved. -/
def Inside (i j : ℤ) : Prop := (0 ≤ i ∧ i < matdim) ∧ 0≤j ∧ j < matdim

instance (i j : ℤ) : Decidable (Inside matdim i j) :=
  inferInstanceAs (Decidable ((0 ≤ i ∧ i < matdim) ∧ 0≤j ∧ j < matdim))

/-- `mat[i][j]`; `none` outside the matrix, so that a multiply that ends has read inside only. -/
def look (mat : Mat) (i j : ℤ) : Option ElemType :=
  if Inside matdim i j then some (mat (i,j)) else none

/-- `result[i][j] = value`; `none` outside the matrix, as for a read. -/
def assign (i j : ℤ) (value : ElemType) : Option Assignment :=
  if Inside matdim i j then some ((i,j),value) else none

variable (matA1 matA2 : Mat) (fuel : ℕ)

/-- `result_temp` of the eight rows from `iIter` on, for the terms from `k` on: eight terms are
added in a turn of the unrolled loop. -/
def resultTemp (iIter j k : ℤ) : Option (List ElemType) := do
  let line0 ← look matdim matA2 (k+0) j
  let line1 ← look matdim matA2 (k+1) j
  let line2 ← look matdim matA2 (k+2) j
  let line3 ← look matdim matA2 (k+3) j
  let line4 ← look matdim matA2 (k+4) j
  let line5 ← look matdim matA2 (k+5) j
  let line6 ← look matdim matA2 (k+6) j
  let line7 ← look matdim matA2 (k+7) j
  (List.range iItersPerTask).mapM fun kk : ℕ => do
    let sum := 0
    let sum := sum+(← look matdim matA1 (iIter+kk) (k+0))*line0
    let sum := sum+(← look matdim matA1 (iIter+kk) (k+1))*line1
    let sum := sum+(← look matdim matA1 (iIter+kk) (k+2))*line2
    let sum := sum+(← look matdim matA1 (iIter+kk) (k+3))*line3
    let sum := sum+(← look matdim matA1 (iIter+kk) (k+4))*line4
    let sum := sum+(← look matdim matA1 (iIter+kk) (k+5))*line5
    let sum := sum+(← look matdim matA1 (iIter+kk) (k+6))*line6
    let sum := sum+(← look matdim matA1 (iIter+kk) (k+7))*line7
    return sum

/-- The eight `result_temp_sum` of a column. The terms of a row are summed by eights, and these sums
are added up. -/
def resultTempSum (iIter j : ℤ) : Option (List ElemType) := do
  let ks ← forLoop unrollFactor matdim fuel 0
  ks.foldlM (fun sums k => (resultTemp matdim matA1 matA2 iIter j k).map (List.zipWith (·+·) sums))
    (List.replicate 8 0)

/-- A turn of the loop over `j`: the elements of eight rows in one column are summed and
assigned. -/
def column (iIter j : ℤ) : Option (List Assignment) := do
  let sums ← resultTempSum matdim matA1 matA2 fuel iIter j
  sums.zipIdx.mapM fun s => assign matdim (iIter+s.2) j s.1

/-- `InnerLoop`: the columns of a task, eight rows at a time, with the assignments to `resultA` as
its result. -/
def innerLoop (tdesc : TaskDesc) : Option (List Assignment) := do
  let js ← forLoop 1 (tdesc.v2+tdesc.last) fuel (tdesc.v2+tdesc.first)
  let columns ← js.mapM (column matdim matA1 matA2 fuel tdesc.v1)
  return columns.flatten

/-- The tasks of `BlockedMatMultTask`, as thread 0 enqueues them: the blocks of 32 rows, each cut
into chunks of columns by the queue. -/
def blockedMatMultTask : Option (List TaskDesc) := do
  let blockSizeJ := matdim.tdiv blockCountJ
  let blockSizeI := matdim.tdiv blockCountI
  let rowBlocks ← forLoop blockSizeI matdim fuel 0
  let tasks ← rowBlocks.mapM fun idxI => do
    let colBlocks ← forLoop blockSizeJ matdim fuel 0
    let tasks ← colBlocks.mapM fun idxJ => do
      let starts ← forLoop iItersPerTask (idxI+blockSizeI) fuel idxI
      let tasks ← starts.mapM fun startI =>
        taskQueueLoop blockSizeJ jItersPerTask ⟨startI,idxJ,0,0⟩ fuel 0
      return tasks.flatten
    return tasks.flatten
  return tasks.flatten

end Code

section Loops

variable {step c fuel : ℕ} {low mid high : ℤ}

/-- The values of a loop that goes up by `step`, given their number. All loops of the program have
this form. -/
def steps (step c : ℕ) (low : ℤ) : List ℤ := (List.range c).map fun q : ℕ => low+step*q

/-- The first value and the others. -/
theorem steps_succ (step c : ℕ) (low : ℤ) :
    steps step (c+1) low=low::steps step c (low+step) := by
  unfold steps
  rw [List.range_succ_eq_map,List.map_cons,List.map_map]
  congr 1
  · rw [Nat.cast_zero,mul_zero,add_zero]
  · refine List.map_congr_left fun q _ => ?_
    rw [Function.comp_apply,Nat.cast_succ]
    ring

/-- A value leaves room for a whole step. -/
theorem mem_steps {v : ℤ} (h : v∈steps step c low) : low≤v ∧ v+step≤low+step*c := by
  obtain ⟨q,hq,rfl⟩ := List.mem_map.1 h
  have hmul : (step : ℤ)*(q+1) ≤ step*c := by
    exact_mod_cast Nat.mul_le_mul_left step (List.mem_range.1 hq)
  have hpos : 0≤(step : ℤ)*q := by positivity
  rw [mul_add,mul_one] at hmul
  omega

/-- The loop ends after its values, which are the multiples of the step from its start. -/
theorem forLoop_eq (hstep : 0 < step) (hfuel : c<fuel) (low : ℤ) :
    forLoop step (low+step*c) fuel low=some (steps step c low) := by
  induction c generalizing fuel low with
  | zero =>
    obtain ⟨fuel,rfl⟩ : ∃ f, fuel=f+1 := ⟨fuel-1,by omega⟩
    rw [forLoop,if_neg (by simp)]
    rfl
  | succ c ih =>
    obtain ⟨fuel,rfl⟩ : ∃ f, fuel=f+1 := ⟨fuel-1,by omega⟩
    have hlt : low<low+step*((c+1 : ℕ) : ℤ) := by
      have hpos : (0 : ℤ) < step*((c+1 : ℕ) : ℤ) := by
        exact_mod_cast Nat.mul_pos hstep (Nat.succ_pos c)
      omega
    have hhigh : low+step*((c+1 : ℕ) : ℤ)=low+step+step*c := by
      push_cast
      ring
    rw [forLoop,if_pos hlt,hhigh,ih (by omega) (low+step),steps_succ]
    rfl

/-- Two adjacent intervals. -/
theorem span_append (hlow : low ≤ mid) (hhigh : mid≤high) :
    span low mid++span mid high=span low high := by
  unfold span
  have hlen : (high-low).toNat=(mid-low).toNat+(high-mid).toNat := by omega
  rw [hlen,List.range_add,List.map_append,List.map_map]
  congr 1
  refine List.map_congr_left fun v _ => ?_
  rw [Function.comp_apply]
  push_cast
  omega

/-- The intervals of one step tile the interval of the loop. -/
theorem steps_tile (step c : ℕ) (low : ℤ) :
    (steps step c low).flatMap (fun v => span v (v+step))=span low (low+step*c) := by
  induction c generalizing low with
  | zero =>
    rw [Nat.cast_zero,mul_zero,add_zero,span,sub_self]
    rfl
  | succ c ih =>
    have hhigh : low+step+step*c=low+step*((c+1 : ℕ) : ℤ) := by
      push_cast
      ring
    have hpos : 0≤(step : ℤ)*c := by positivity
    rw [steps_succ,List.flatMap_cons,ih (low+step),span_append (by omega) (by omega),hhigh]

/-- The values of an interval of known length. -/
theorem span_eq_map (low : ℤ) (n : ℕ) :
    span low (low+n)=(List.range n).map fun u : ℕ => low+u := by
  rw [span,add_sub_cancel_left,Int.toNat_natCast]

/-- A loop that puts the lists of its turns together. -/
theorem mapM_flatten {A B : Type} {l : List A} {f : A → Option (List B)} {g : A → List B}
    (h : ∀ x, x∈l → f x=some (g x)) :
    (do
      let parts ← l.mapM f
      return parts.flatten)=some (l.flatMap g) := by
  rw [mapM_eq_some h,List.flatMap_def]
  rfl

end Loops

section Sums

variable {matdim iIter i j k : ℤ} {matA1 matA2 : Mat} {c fuel : ℕ}

/-- A read inside the matrix. -/
theorem look_eq (mat : Mat) (h : Inside matdim i j) : look matdim mat i j=some (mat (i,j)) :=
  if_pos h

/-- The sum of some terms of an element of the product, in the order of the columns; the element is
the sum of all of them. -/
def terms (a b : Mat) (i j low high : ℤ) : ElemType :=
  ((span low high).map fun k => a (i,k)*b (k,j)).sum

/-- The sums over the steps of the common dimension add up. -/
theorem terms_steps (a b : Mat) (i j : ℤ) (step c : ℕ) :
    ((steps step c 0).map fun k => terms a b i j k (k+step)).sum=terms a b i j 0 (step*c) := by
  unfold terms
  rw [←zero_add ((step : ℤ)*c),←steps_tile step c 0,List.map_flatMap,List.flatMap_def,
    List.sum_flatten,List.map_map]
  rfl

/-- The unrolled sum. -/
theorem sum_range_eight (f : ℕ → ElemType) : ((List.range 8).map f).sum=
    0+f 0+f 1+f 2+f 3+f 4+f 5+f 6+f 7 := by
  rw [show List.range 8=[0,1,2,3,4,5,6,7] from rfl]
  simp only [List.map_cons,List.map_nil,List.sum_cons,List.sum_nil]
  ring

/-- The eight sums of a turn of the loop over `k`, one for each row of the task. Each is over the
eight terms of that turn. -/
theorem resultTemp_eq (hi : 0 ≤ iIter ∧ iIter+8 ≤ matdim) (hj : 0≤j ∧ j < matdim)
    (hk : 0≤k ∧ k+8 ≤ matdim) : resultTemp matdim matA1 matA2 iIter j k=
      some ((List.range iItersPerTask).map fun kk : ℕ =>
        terms matA1 matA2 (iIter+kk) j k (k+unrollFactor)) := by
  have hline : ∀ u : ℤ, 0≤u → u<8 → look matdim matA2 (k+u) j=some (matA2 (k+u,j)) :=
    fun u hu hu' => look_eq matA2 ⟨⟨by omega,by omega⟩,hj⟩
  have hrow : ∀ (kk : ℕ) (u : ℤ), kk < 8 → 0≤u → u<8 →
      look matdim matA1 (iIter+kk) (k+u)=some (matA1 (iIter+kk,k+u)) :=
    fun kk u hkk hu hu' => look_eq matA1 ⟨⟨by omega,by omega⟩,by omega,by omega⟩
  unfold resultTemp
  rw [hline 0 (by decide) (by decide),hline 1 (by decide) (by decide),
    hline 2 (by decide) (by decide),hline 3 (by decide) (by decide),
    hline 4 (by decide) (by decide),hline 5 (by decide) (by decide),
    hline 6 (by decide) (by decide),hline 7 (by decide) (by decide)]
  refine mapM_eq_some fun kk hkk => ?_
  have hkk : kk < 8 := List.mem_range.1 hkk
  rw [hrow kk 0 hkk (by decide) (by decide),hrow kk 1 hkk (by decide) (by decide),
    hrow kk 2 hkk (by decide) (by decide),hrow kk 3 hkk (by decide) (by decide),
    hrow kk 4 hkk (by decide) (by decide),hrow kk 5 hkk (by decide) (by decide),
    hrow kk 6 hkk (by decide) (by decide),hrow kk 7 hkk (by decide) (by decide)]
  have hsum := sum_range_eight fun u : ℕ => matA1 (iIter+kk,k+u)*matA2 (k+u,j)
  simp only [Nat.cast_zero,Nat.cast_one,Nat.cast_ofNat] at hsum
  rw [terms,span_eq_map,List.map_map]
  exact congrArg some hsum.symm

/-- The accumulators after some turns of the loop over `k`. -/
theorem sums_eq (hi : 0 ≤ iIter ∧ iIter+8 ≤ matdim) (hj : 0≤j ∧ j < matdim) {ks : List ℤ}
    (hks : ∀ k, k∈ks → 0≤k ∧ k+8 ≤ matdim) (acc : ℕ → ElemType) :
    ks.foldlM (fun sums k => (resultTemp matdim matA1 matA2 iIter j k).map
      (List.zipWith (·+·) sums)) ((List.range iItersPerTask).map acc)=
    some ((List.range iItersPerTask).map fun kk : ℕ => acc kk+
      (ks.map fun k => terms matA1 matA2 (iIter+kk) j k (k+unrollFactor)).sum) := by
  induction ks generalizing acc with
  | nil => simp
  | cons k ks ih =>
    rw [List.foldlM_cons,resultTemp_eq hi hj (hks k List.mem_cons_self),Option.map_some,
      List.zipWith_map,List.zipWith_self]
    refine (ih (fun k' hk' => hks k' (List.mem_cons_of_mem k hk')) _).trans ?_
    congr 1
    refine List.map_congr_left fun kk _ => ?_
    rw [List.map_cons,List.sum_cons,add_assoc]

/-- The eight sums of a column are those of the simple product. -/
theorem resultTempSum_eq (hmat : matdim=unrollFactor*c) (hfuel : c<fuel)
    (hi : 0 ≤ iIter ∧ iIter+8 ≤ matdim) (hj : 0≤j ∧ j < matdim) :
    resultTempSum matdim matA1 matA2 fuel iIter j=
      some ((List.range iItersPerTask).map fun kk : ℕ =>
        terms matA1 matA2 (iIter+kk) j 0 matdim) := by
  have hloop := forLoop_eq (show 0 < unrollFactor by decide) hfuel 0
  rw [zero_add,←hmat] at hloop
  unfold resultTempSum
  rw [hloop]
  refine (sums_eq hi hj (fun k hk => ?_) fun _ => 0).trans ?_
  · have hk := mem_steps hk
    rw [zero_add,←hmat] at hk
    exact hk
  · congr 1
    refine List.map_congr_left fun kk _ => ?_
    rw [zero_add,terms_steps,←hmat]

/-- The positions beside the elements of a list. -/
theorem zipIdx_map_range {α : Type} (f : ℕ → α) (n : ℕ) :
    ((List.range n).map f).zipIdx=(List.range n).map fun u => (f u,u) := by
  refine List.ext_getElem ?_ fun u hu hu' => ?_
  · rw [List.length_zipIdx,List.length_map,List.length_map]
  · rw [List.getElem_zipIdx,List.getElem_map,List.getElem_map,List.getElem_range,zero_add]

/-- The assignments of a column. The sums of all turns of the loop over `k` are the sum over the
whole row. -/
theorem column_eq (hmat : matdim=unrollFactor*c) (hfuel : c<fuel)
    (hi : 0 ≤ iIter ∧ iIter+8 ≤ matdim) (hj : 0≤j ∧ j < matdim) :
    column matdim matA1 matA2 fuel iIter j=
      some ((span iIter (iIter+iItersPerTask)).map fun i =>
        ((i,j),terms matA1 matA2 i j 0 matdim)) := by
  unfold column
  rw [resultTempSum_eq hmat hfuel hi hj,span_eq_map,List.map_map]
  have hassign : ∀ s, s∈((List.range iItersPerTask).map fun kk : ℕ =>
      terms matA1 matA2 (iIter+kk) j 0 matdim).zipIdx →
      assign matdim (iIter+s.2) j s.1=some ((iIter+s.2,j),s.1) := by
    intro s hs
    rw [zipIdx_map_range] at hs
    obtain ⟨kk,hkk,rfl⟩ := List.mem_map.1 hs
    have hkk : kk < 8 := List.mem_range.1 hkk
    exact if_pos ⟨⟨by omega,by omega⟩,hj⟩
  refine (mapM_eq_some hassign).trans ?_
  rw [zipIdx_map_range,List.map_map]
  rfl

/-- A task whose rows and columns are inside the matrix, so that none of its reads and assignments
is outside. -/
structure Fits (matdim : ℤ) (tdesc : TaskDesc) : Prop where
  rows : 0≤tdesc.v1 ∧ tdesc.v1+8 ≤ matdim
  cols : 0≤tdesc.v2+tdesc.first ∧ tdesc.v2+tdesc.last ≤ matdim
  chunk : tdesc.last=tdesc.first+jItersPerTask

/-- The elements that a task assigns: eight rows in each of its columns. -/
def cells (tdesc : TaskDesc) : List (ℤ×ℤ) :=
  (span (tdesc.v2+tdesc.first) (tdesc.v2+tdesc.last)).flatMap fun j =>
    (span tdesc.v1 (tdesc.v1+iItersPerTask)).map fun i => (i,j)

/-- A task assigns to its elements those of the product. It stores no other element. -/
theorem innerLoop_eq (hmat : matdim=unrollFactor*c) (hfuel : c<fuel) (hchunk : jItersPerTask<fuel)
    {tdesc : TaskDesc} (hfits : Fits matdim tdesc) :
    innerLoop matdim matA1 matA2 fuel tdesc=
      some ((cells tdesc).map fun p => (p,terms matA1 matA2 p.1 p.2 0 matdim)) := by
  have hloop := forLoop_eq Nat.one_pos hchunk (tdesc.v2+tdesc.first)
  have hcols := hfits.cols
  have hlast : tdesc.v2+tdesc.first+jItersPerTask=tdesc.v2+tdesc.last := by
    rw [hfits.chunk,add_assoc]
  have hsteps : steps 1 jItersPerTask (tdesc.v2+tdesc.first)=
      span (tdesc.v2+tdesc.first) (tdesc.v2+tdesc.last) := by
    rw [←hlast,span_eq_map,steps]
    simp only [Nat.cast_one,one_mul]
  rw [Nat.cast_one,one_mul,hlast,hsteps] at hloop
  unfold innerLoop
  rw [hloop]
  refine (mapM_flatten fun j hj => column_eq hmat hfuel hfits.rows ?_).trans ?_
  · have hj := mem_span.1 hj
    omega
  · rw [cells,List.map_flatMap]
    simp only [List.map_map,Function.comp_def]

end Sums

section Tasks

variable {matdim : ℤ} {block m c fuel : ℕ}

/-- The tasks that the loop of the task model makes of whole chunks. None is cut short at the
end. -/
theorem taskQueueLoop_eq {per : ℕ} (hper : 0 < per) (hfuel : c≤fuel) (tdesc : TaskDesc)
    (start : ℤ) : taskQueueLoop (start+per*c) per tdesc fuel start=
      some ((steps per c start).map fun s => { tdesc with first := s, last := s+per }) := by
  induction c generalizing fuel start with
  | zero =>
    rw [Nat.cast_zero,mul_zero,add_zero]
    cases fuel with
    | zero =>
      rw [taskQueueLoop,if_neg (lt_irrefl start)]
      rfl
    | succ fuel =>
      rw [taskQueueLoop,X86TaskModel.offered,if_neg (lt_irrefl start)]
      rfl
  | succ c ih =>
    obtain ⟨fuel,rfl⟩ : ∃ f, fuel=f+1 := ⟨fuel-1,by omega⟩
    have hpos : 0≤(per : ℤ)*c := by positivity
    have htot : start+per*((c+1 : ℕ) : ℤ)=start+per+per*c := by
      push_cast
      ring
    have hmin : min (start+per) (start+per+per*c)=start+per := min_eq_left (by omega)
    rw [taskQueueLoop,X86TaskModel.offered,htot,if_pos (by omega)]
    simp only [hmin]
    rw [ih (by omega) (start+per),steps_succ]
    rfl

/-- The tasks of the blocks whose sides are `block`, of `8*m` rows and columns. -/
def blockTasks (block m : ℕ) : List TaskDesc :=
  (steps block 4 0).flatMap fun idxI => (steps block 4 0).flatMap fun idxJ =>
    (steps iItersPerTask m idxI).flatMap fun startI =>
      (steps jItersPerTask (2*m) 0).map fun s => ⟨startI,idxJ,s,s+jItersPerTask⟩

/-- The tasks of the blocked multiply: all loops end, and no chunk is cut. -/
theorem blockedMatMultTask_eq (hm : 0 < m) (hmat : matdim=32*m) (hfuel : matdim<fuel) :
    blockedMatMultTask matdim fuel=some (blockTasks (8*m) m) := by
  have hblock : matdim.tdiv 4=((8*m : ℕ) : ℤ) := by
    rw [Int.tdiv_eq_ediv_of_nonneg (by omega)]
    omega
  have hblocks := forLoop_eq (show 0 < 8*m by omega) (show 4<fuel by omega) 0
  rw [show (0 : ℤ)+((8*m : ℕ) : ℤ)*((4 : ℕ) : ℤ)=matdim by omega] at hblocks
  unfold blockedMatMultTask blockCountI blockCountJ
  simp only [hblock,hblocks]
  refine mapM_flatten fun idxI _ => ?_
  refine mapM_flatten fun idxJ _ => ?_
  have hstarts := forLoop_eq (show 0 < iItersPerTask by decide) (show m<fuel by omega) idxI
  rw [show (iItersPerTask : ℤ)*m=((8*m : ℕ) : ℤ) by
    rw [iItersPerTask]
    omega] at hstarts
  rw [hstarts]
  refine mapM_flatten fun startI _ => ?_
  have htasks := taskQueueLoop_eq (show 0 < jItersPerTask by decide)
    (show 2*m≤fuel by omega) ⟨startI,idxJ,0,0⟩ 0
  rw [show (0 : ℤ)+(jItersPerTask : ℤ)*((2*m : ℕ) : ℤ)=((8*m : ℕ) : ℤ) by
    rw [jItersPerTask]
    omega] at htasks
  exact htasks

/-- Every task is inside the matrix. -/
theorem fits_of_mem (hmat : matdim=32*m) {tdesc : TaskDesc} (h : tdesc∈blockTasks (8*m) m) :
    Fits matdim tdesc := by
  obtain ⟨idxI,hI,h⟩ := List.mem_flatMap.1 h
  obtain ⟨idxJ,hJ,h⟩ := List.mem_flatMap.1 h
  obtain ⟨startI,hstart,h⟩ := List.mem_flatMap.1 h
  obtain ⟨s,hs,rfl⟩ := List.mem_map.1 h
  have hI := mem_steps hI
  have hJ := mem_steps hJ
  have hstart := mem_steps hstart
  have hs := mem_steps hs
  unfold iItersPerTask at hstart
  unfold jItersPerTask at hs
  refine ⟨⟨?_,?_⟩,⟨?_,?_⟩,rfl⟩ <;> dsimp only [jItersPerTask] <;> omega

/-- A loop that starts elsewhere. -/
theorem map_steps (step c : ℕ) (first low : ℤ) :
    (steps step c low).map (first+·)=steps step c (first+low) := by
  unfold steps
  rw [List.map_map]
  refine List.map_congr_left fun q _ => ?_
  exact (add_assoc first low _).symm

/-- The chunks of some rows tile their part of a block. -/
theorem chunk_cells_perm (startI idxJ : ℤ) (c : ℕ) :
    (((steps jItersPerTask c 0).map fun s =>
      (⟨startI,idxJ,s,s+jItersPerTask⟩ : TaskDesc)).flatMap cells).Perm
    (span startI (startI+iItersPerTask) ×ˢ span idxJ (idxJ+jItersPerTask*c)) := by
  rw [List.flatMap_map]
  refine (List.Perm.flatMap_left _ fun s _ => product_columns_perm _ _).trans ?_
  refine (product_flatMap_perm (span startI (startI+iItersPerTask)) _
    fun s => span (idxJ+s) (idxJ+(s+jItersPerTask))).trans (List.Perm.of_eq ?_)
  have htile := steps_tile jItersPerTask c (idxJ+0)
  rw [←map_steps,List.flatMap_map,add_zero] at htile
  simp only [←add_assoc]
  rw [htile]

/-- The tasks tile the matrix: together they assign every element once. -/
theorem blockTasks_cells_perm (hmat : matdim=32*m) :
    ((blockTasks (8*m) m).flatMap cells).Perm (span 0 matdim ×ˢ span 0 matdim) := by
  have hside : (steps (8*m) 4 0).flatMap (fun idx => span idx (idx+((8*m : ℕ) : ℤ)))=
      span 0 matdim := by
    rw [steps_tile]
    congr 1
    omega
  unfold blockTasks
  rw [List.flatMap_assoc]
  refine List.Perm.trans ?_ ((tiles_perm _ _ _ _).trans (List.Perm.of_eq (by rw [hside])))
  refine List.Perm.flatMap_left _ fun idxI _ => ?_
  rw [List.flatMap_assoc]
  refine List.Perm.flatMap_left _ fun idxJ _ => ?_
  -- the rows of a block, eight at a time
  have hrows : (steps iItersPerTask m idxI).flatMap
      (fun startI => span startI (startI+iItersPerTask))=span idxI (idxI+((8*m : ℕ) : ℤ)) := by
    rw [steps_tile,Nat.cast_mul]
    rfl
  have hcols : (jItersPerTask : ℤ)*((2*m : ℕ) : ℤ)=((8*m : ℕ) : ℤ) := by
    rw [jItersPerTask]
    omega
  rw [List.flatMap_assoc,←hrows,flatMap_product,←hcols]
  exact List.Perm.flatMap_left _ fun startI _ => chunk_cells_perm startI idxJ (2*m)

end Tasks

section Product

variable {matdim : ℤ} {c : ℤ×ℤ}

/-- Additions to one element. -/
theorem foldl_update_add (result : Mat) (f : ℤ → ElemType) (l : List ℤ) (v : ElemType) :
    l.foldl (fun result k => Function.update result c (result c+f k))
      (Function.update result c v)=Function.update result c (v+(l.map f).sum) := by
  induction l generalizing v with
  | nil => rw [List.foldl_nil,List.map_nil,List.sum_nil,add_zero]
  | cons k l ih =>
    rw [List.foldl_cons,Function.update_self,Function.update_idem,ih,List.map_cons,List.sum_cons,
      add_assoc]

/-- The simple multiply stores every element of the product, each the sum of its terms. -/
theorem simpleMatrixMultiply_eq (a b result : Mat) (dimX dimY dimCommon : ℤ) :
    simpleMatrixMultiply a b result dimX dimY dimCommon=
      stores result ((span 0 dimX ×ˢ span 0 dimY).map fun p =>
        (p,terms a b p.1 p.2 0 dimCommon)) := by
  unfold simpleMatrixMultiply
  have hrow : ∀ i result, (span 0 dimY).foldl (fun result j =>
      (span 0 dimCommon).foldl
        (fun result k => Function.update result (i,j) (result (i,j)+a (i,k)*b (k,j)))
        (Function.update result (i,j) 0)) result=
      stores result ((span 0 dimY).flatMap fun j => [((i,j),terms a b i j 0 dimCommon)]) := by
    intro i result
    refine foldl_stores (fun result j => ?_) _ result
    refine (foldl_update_add result (fun k => a (i,k)*b (k,j)) _ 0).trans ?_
    rw [zero_add]
    rfl
  rw [foldl_stores fun result i => hrow i result]
  congr 1
  refine Eq.trans ?_ (List.map_flatMap).symm
  refine List.flatMap_congr fun i _ => ?_
  rw [List.map_map,List.map_eq_flatMap]
  rfl

/-- An interval has no value twice. -/
theorem span_nodup (low high : ℤ) : (span low high).Nodup :=
  List.nodup_range.map fun _ _ h => Int.ofNat.inj (add_left_cancel h)

/-- For every size that is a positive multiple of 32, all matrices and every order of the tasks of
the blocked multiply, no task leaves the matrices, every element of the result is assigned once
in all and by one task, and the result is that of the simple multiply. -/
theorem blocked_multiply {matdim : ℤ} (hpos : 0 < matdim) (hdvd : 32∣matdim) {fuel : ℕ}
    (hfuel : matdim<fuel) (matA1 matA2 : Mat) :
    ∃ tasks, blockedMatMultTask matdim fuel=some tasks ∧ ∀ order : List TaskDesc,
      order.Perm tasks → ∃ writes : List (List Assignment),
        order.mapM (innerLoop matdim matA1 matA2 fuel)=some writes ∧
        (writes.flatten.map Prod.fst).Perm (span 0 matdim ×ˢ span 0 matdim) ∧
        ∀ i j, Inside matdim i j → writes.countP (fun ws => (i,j)∈ws.map Prod.fst)=1 ∧
          ∀ resultA resultGolden : Mat, stores resultA writes.flatten (i,j)=
            simpleMatrixMultiply matA1 matA2 resultGolden matdim matdim matdim (i,j) := by
  obtain ⟨m,hmat⟩ : ∃ m : ℕ, matdim=32*m := ⟨(matdim/32).toNat,by omega⟩
  refine ⟨_,blockedMatMultTask_eq (by omega) hmat hfuel,fun order horder => ?_⟩
  let value : ℤ×ℤ → ElemType := fun p => terms matA1 matA2 p.1 p.2 0 matdim
  have hwrites : order.mapM (innerLoop matdim matA1 matA2 fuel)=
      some (order.map fun t => (cells t).map fun p => (p,value p)) := by
    refine mapM_eq_some fun t ht => innerLoop_eq (c := 4*m) ?_ (by omega) ?_
      (fits_of_mem hmat (horder.subset ht))
    · rw [unrollFactor]
      omega
    · rw [jItersPerTask]
      omega
  -- the elements, task by task
  have hflat : (order.map fun t => (cells t).map fun p => (p,value p)).flatten=
      (order.flatMap cells).map fun p => (p,value p) := by
    rw [←List.flatMap_def,List.map_flatMap]
  have hcells : (order.flatMap cells).Perm (span 0 matdim ×ˢ span 0 matdim) :=
    (horder.flatMap_right cells).trans (blockTasks_cells_perm hmat)
  have hnodup : (order.flatMap cells).Nodup :=
    hcells.nodup_iff.2 ((span_nodup 0 matdim).product (span_nodup 0 matdim))
  have hfst : ∀ l : List (ℤ×ℤ), (l.map fun p => (p,value p)).map Prod.fst=l := by
    intro l
    rw [List.map_map]
    exact List.map_id l
  refine ⟨_,hwrites,?_,fun i j hij => ⟨?_,fun resultA resultGolden => ?_⟩⟩
  · rw [hflat,hfst]
    exact hcells
  · have hmem : (i,j)∈order.flatMap cells :=
      hcells.mem_iff.2 (List.mem_product.2 ⟨mem_span.2 hij.1,mem_span.2 hij.2⟩)
    rw [List.flatMap_def] at hnodup hmem
    have hone := countP_of_nodup_flatten hnodup hmem
    rw [List.countP_map] at hone ⊢
    simpa only [Function.comp_def,hfst] using hone
  · have hmem : (i,j)∈span 0 matdim ×ˢ span 0 matdim :=
      List.mem_product.2 ⟨mem_span.2 hij.1,mem_span.2 hij.2⟩
    have hassigned : ∀ (result : Mat) (l : List (ℤ×ℤ)), (i,j)∈l →
        stores result (l.map fun p => (p,value p)) (i,j)=value (i,j) :=
      fun result l hl => stores_map hl fun p _ hp => congrArg value hp
    rw [hflat,hassigned resultA _ (hcells.mem_iff.2 hmem),simpleMatrixMultiply_eq]
    exact (hassigned resultGolden _ hmem).symm

/-- One block of 32 rows and columns: a matrix with the number of the row in every element, times
one of threes. -/
theorem blocked_multiply_thirtyTwo :
    ∃ tasks, blockedMatMultTask 32 33=some tasks ∧ ∀ order : List TaskDesc,
      order.Perm tasks → ∃ writes : List (List Assignment),
        order.mapM (innerLoop 32 (fun p => BitVec.ofInt 32 p.1) (fun _ => 3) 33)=some writes ∧
        (writes.flatten.map Prod.fst).Perm (span 0 32 ×ˢ span 0 32) ∧
        ∀ i j, Inside 32 i j → writes.countP (fun ws => (i,j)∈ws.map Prod.fst)=1 ∧
          ∀ resultA resultGolden : Mat, stores resultA writes.flatten (i,j)=
            simpleMatrixMultiply (fun p => BitVec.ofInt 32 p.1) (fun _ => 3) resultGolden 32 32 32
              (i,j) :=
  blocked_multiply (by decide) (by decide) (by decide) _ _

end Product

end RigelTarget.BlockedMatMult
