import RigelTarget.MarchingCubes

/-!
# The blocked transpose of the FFT benchmark

The rows of complex elements are transposed by tasks, one for each block. Both directions decode
the number of the task with shifts and copy row by row with a pair of walking pointers, first the
elements beyond a multiple of eight one by one and then four at a time.
-/

namespace RigelTarget.FftTranspose

open DoubleBuffer
open MarchingCubes (shiftLoop shiftLoop_eq pow_log_iff least)

/-- What `main` reads: the rows and columns of the data and of a block, all powers of two, with
blocks that divide the data. -/
structure Sizes where
  /-- `R`. -/
  rows : ℕ
  /-- `C`. -/
  cols : ℕ
  /-- `BLOCK_SIZE_I`. -/
  blockI : ℕ
  /-- `BLOCK_SIZE_J`. -/
  blockJ : ℕ
  rows_pow : ∃ e, rows=2^e
  cols_pow : ∃ e, cols=2^e
  blockI_pow : ∃ e, blockI=2^e
  blockJ_pow : ∃ e, blockJ=2^e
  blockI_le : blockI ≤ rows
  blockJ_le : blockJ ≤ cols
  /-- The reals are counted in an `unsigned int`. -/
  fits : 2*rows*cols<2^32

section Code

variable {α : Type}

/-- `si`, `sj`, `sr` and `sc`: the loop halves a size and counts the turns. For a power of two this
is its logarithm. -/
def shiftOf (n : ℕ) : ℕ := shiftLoop (n>>>1) 0

/-- An assignment of a real of `in` to one of `out`. A task is the list of its copies. -/
structure Copy where
  /-- The real of `out`. -/
  dst : ℕ
  /-- The real of `in`. -/
  src : ℕ

/-- The copy of a complex element: the real part, and the imaginary part next to it. -/
def element (inWalker outWalker : ℕ) : List Copy :=
  [⟨outWalker,inWalker⟩,⟨outWalker+1,inWalker+1⟩]

/-- `while(countdown != 0)`: four elements in a turn, with the walkers `inStep` and `outStep` on
after each; `none` when the fuel does not suffice. -/
def unrolledLoop (inStep outStep : ℕ) : ℕ → ℕ → ℕ → ℕ → Option (List Copy)
  | 0, _, _, _ => none
  | fuel+1, countdown, in0, out0 =>
    if countdown=0 then some []
    else
      let in1 := in0+inStep
      let out1 := out0+outStep
      let in2 := in1+inStep
      let out2 := out1+outStep
      let in3 := in2+inStep
      let out3 := out2+outStep
      (unrolledLoop inStep outStep fuel ((countdown+2^32-4)%2^32) (in3+inStep) (out3+outStep)).map
        fun rest =>
          element in0 out0++(element in1 out1++(element in2 out2++(element in3 out3++rest)))

/-- `while(countdown % 8)`: one element in a turn, and then the unrolled loop for what is left. -/
def rowLoop (inStep outStep : ℕ) : ℕ → ℕ → ℕ → ℕ → Option (List Copy)
  | 0, _, _, _ => none
  | fuel+1, countdown, inWalker, outWalker =>
    if countdown%8=0 then unrolledLoop inStep outStep (fuel+1) countdown inWalker outWalker
    else (rowLoop inStep outStep fuel (countdown-1) (inWalker+inStep) (outWalker+outStep)).map
      (element inWalker outWalker++·)

variable (g : Sizes)

/-- `(R*C) >> (si+sj)`: the elements divided by those of a block. -/
def numTasks : ℕ := (g.rows*g.cols)>>>(shiftOf g.blockI+shiftOf g.blockJ)

/-- `sc - sj`: the logarithm of the number of blocks side by side. -/
def tmp1 : ℕ := (shiftOf g.cols+2^32-shiftOf g.blockJ)%2^32

/-- `tdesc->v3 >> tmp1`: the row of blocks in which the task is. -/
def tmp2 (v3 : ℕ) : ℕ := v3>>>tmp1 g

/-- `tdesc->v3 - (tmp2 << tmp1)`: the block in that row, as an `unsigned int`. -/
def tmp3 (v3 : ℕ) : ℕ := (v3+2^32-(tmp2 g v3<<<tmp1 g)%2^32)%2^32

/-- `ilow`: the first row of the block. -/
def ilow (v3 : ℕ) : ℕ := g.blockI*tmp2 g v3%2^32

/-- `ihigh`: one past the last row, cut off at the end of the matrix. -/
def ihigh (v3 : ℕ) : ℕ := least ((ilow g v3+g.blockI)%2^32) g.rows

/-- `jlow`: the first column of the block. -/
def jlow (v3 : ℕ) : ℕ := g.blockJ*tmp3 g v3%2^32

/-- `jhigh`: one past the last column, cut off at the end of the matrix. -/
def jhigh (v3 : ℕ) : ℕ := least ((jlow g v3+g.blockJ)%2^32) g.cols

/-- `jhigh-jlow`: the elements of a row of the block, which is where `countdown` starts. -/
def width (v3 : ℕ) : ℕ := (jhigh g v3+2^32-jlow g v3)%2^32

/-- `i*2*C + 2*jlow`: the place of the first element of a row of the block in an array that lies row
by row. -/
def rowWalker (v3 i : ℕ) : ℕ := (i*2*g.cols+2*jlow g v3)%2^32

/-- `jlow*2*R + 2*i`: the place of the same element in an array that lies column by column. -/
def colWalker (v3 i : ℕ) : ℕ := (jlow g v3*2*g.rows+2*i)%2^32

/-- `for(i = ilow; i < ihigh; i++)` with the copies of each row. -/
def blockRows (row : ℕ → Option (List Copy)) (v3 : ℕ) : Option (List Copy) :=
  ((List.range' (ilow g v3) (ihigh g v3-ilow g v3)).mapM row).map List.flatten

/-- `TransposeBlockTask`: the block of number `v3` is read row by row and written column by
column. -/
def transposeBlockTask (fuel v3 : ℕ) : Option (List Copy) :=
  blockRows g (fun i => rowLoop 2 (g.rows*2%2^32) fuel (width g v3) (rowWalker g v3 i)
    (colWalker g v3 i)) v3

/-- `TransposeBlockTaskBackward`: the same block is read column by column and written row by row,
which undoes the other. -/
def transposeBlockTaskBackward (fuel v3 : ℕ) : Option (List Copy) :=
  blockRows g (fun i => rowLoop (g.rows*2%2^32) 2 fuel (width g v3) (colWalker g v3 i)
    (rowWalker g v3 i)) v3

/-- The copies of the tasks in some order. Tasks read one array and write the other, so their copies
are all that matters. -/
def allCopies (task : ℕ → Option (List Copy)) (order : List ℕ) : Option (List Copy) :=
  (order.mapM task).map List.flatten

/-- `out` after some copies. -/
def copyAll (copies : List Copy) (inp out : ℕ → α) : ℕ → α :=
  stores out (copies.map fun c => (c.dst,inp c.src))

end Code

section Rows

variable {inStep outStep fuel : ℕ}

/-- The copies of consecutive elements. -/
def elements (inStep outStep : ℕ) : ℕ → ℕ → ℕ → List Copy
  | 0, _, _ => []
  | n+1, p, q => element p q++elements inStep outStep n (p+inStep) (q+outStep)

/-- The consecutive elements, one by one. -/
theorem elements_eq (n p q : ℕ) : elements inStep outStep n p q=
    (List.range n).flatMap fun d => element (p+inStep*d) (q+outStep*d) := by
  induction n generalizing p q with
  | zero => rfl
  | succ n ih =>
    rw [elements,ih,List.range_succ_eq_map,List.flatMap_cons,List.flatMap_map]
    congr 1
    refine List.flatMap_congr fun d _ => ?_
    congr 1 <;> rw [Nat.mul_succ] <;> omega

/-- A multiple of four elements is copied by the unrolled loop. -/
theorem unrolledLoop_eq {turns : ℕ} (hfuel : turns<fuel) (hlt : 4*turns<2^32) (p q : ℕ) :
    unrolledLoop inStep outStep fuel (4*turns) p q=
      some (elements inStep outStep (4*turns) p q) := by
  induction fuel generalizing turns p q with
  | zero => omega
  | succ fuel ih =>
    cases turns with
    | zero => rfl
    | succ turns =>
      have hcount : (4*(turns+1)+2^32-4)%2^32=4*turns := by omega
      rw [unrolledLoop,if_neg (by omega)]
      dsimp only
      rw [hcount,ih (by omega) (by omega)]
      rfl

/-- Any number of elements is copied by the two loops. -/
theorem rowLoop_eq {n : ℕ} (hfuel : n<fuel) (hlt : n<2^32) (p q : ℕ) :
    rowLoop inStep outStep fuel n p q=some (elements inStep outStep n p q) := by
  induction fuel generalizing n p q with
  | zero => omega
  | succ fuel ih =>
    rw [rowLoop]
    by_cases hpeel : n%8=0
    · obtain ⟨turns,rfl⟩ : ∃ turns, n=4*turns := ⟨n/4,by omega⟩
      rw [if_pos hpeel,unrolledLoop_eq (by omega) hlt]
    · obtain ⟨m,rfl⟩ : ∃ m, n=m+1 := ⟨n-1,by omega⟩
      rw [if_neg hpeel,Nat.add_sub_cancel,ih (by omega) (by omega)]
      rfl

end Rows

section Blocks

variable (g : Sizes)

/-- The blocks side by side: a power of two, since the sizes are. -/
def colBlocks : ℕ := 2^(shiftOf g.cols-shiftOf g.blockJ)

/-- The blocks one above the other, in the same way. -/
def rowBlocks : ℕ := 2^(shiftOf g.rows-shiftOf g.blockI)

/-- The elements of a block, row by row. -/
def blockCells (v3 : ℕ) : List (ℕ×ℕ) :=
  (List.range' (g.blockI*(v3/colBlocks g)) g.blockI).flatMap fun i =>
    (List.range g.blockJ).map fun d => (i,g.blockJ*(v3%colBlocks g)+d)

variable {g}

/-- The loop finds the exponent of a power of two. -/
theorem pow_shiftOf {n : ℕ} (h : ∃ e, n=2^e) : 2^shiftOf n=n := by
  have hne : n≠0 := by
    obtain ⟨e,rfl⟩ := h
    exact (Nat.two_pow_pos e).ne'
  unfold shiftOf
  rw [shiftLoop_eq hne,Nat.zero_add]
  exact pow_log_iff.2 h

/-- The exponent of a smaller power of two is smaller. -/
theorem shiftOf_le {m n : ℕ} (hm : ∃ e, m=2^e) (hn : ∃ e, n=2^e) (h : m≤n) :
    shiftOf m ≤ shiftOf n := by
  rw [←pow_shiftOf hm,←pow_shiftOf hn] at h
  exact (Nat.pow_le_pow_iff_right Nat.one_lt_two).1 h

/-- Powers of two are positive. -/
theorem pow_pos_of {n : ℕ} (h : ∃ e, n=2^e) : 0 < n := by
  obtain ⟨e,rfl⟩ := h
  exact Nat.two_pow_pos e

/-- The blocks side by side fill a row. -/
theorem blockJ_mul (g : Sizes) : g.blockJ*colBlocks g=g.cols := by
  have hle := shiftOf_le g.blockJ_pow g.cols_pow g.blockJ_le
  unfold colBlocks
  nth_rewrite 1 [←pow_shiftOf g.blockJ_pow]
  rw [←pow_add,Nat.add_sub_cancel' hle,pow_shiftOf g.cols_pow]

/-- The blocks one above the other fill a column. -/
theorem blockI_mul (g : Sizes) : g.blockI*rowBlocks g=g.rows := by
  have hle := shiftOf_le g.blockI_pow g.rows_pow g.blockI_le
  unfold rowBlocks
  nth_rewrite 1 [←pow_shiftOf g.blockI_pow]
  rw [←pow_add,Nat.add_sub_cancel' hle,pow_shiftOf g.rows_pow]

/-- The sizes and the number of elements are far below the end of a word. -/
theorem sizes_lt (g : Sizes) : 2*g.rows<2^32 ∧ 2*g.cols<2^32 ∧ g.rows*g.cols<2^31 := by
  have hfits := g.fits
  have hrows := pow_pos_of g.rows_pow
  have hcols := pow_pos_of g.cols_pow
  have h1 : 2*g.rows≤2*g.rows*g.cols := Nat.le_mul_of_pos_right _ hcols
  have h2 : 2*g.cols≤2*g.rows*g.cols := by
    rw [Nat.mul_assoc,Nat.mul_comm g.rows,←Nat.mul_assoc]
    exact Nat.le_mul_of_pos_right _ hrows
  rw [Nat.mul_assoc] at hfits h1 h2
  omega

/-- There is a task for each block. -/
theorem numTasks_eq (g : Sizes) : numTasks g=rowBlocks g*colBlocks g := by
  have hI := pow_pos_of g.blockI_pow
  have hJ := pow_pos_of g.blockJ_pow
  unfold numTasks
  rw [Nat.shiftRight_eq_div_pow,pow_add,pow_shiftOf g.blockI_pow,pow_shiftOf g.blockJ_pow,
    ←blockI_mul g,←blockJ_mul g,Nat.mul_mul_mul_comm]
  exact Nat.mul_div_cancel_left _ (Nat.mul_pos hI hJ)

/-- The shift of the decode. -/
theorem tmp1_eq (g : Sizes) : tmp1 g=shiftOf g.cols-shiftOf g.blockJ := by
  have hle := shiftOf_le g.blockJ_pow g.cols_pow g.blockJ_le
  have hlt : shiftOf g.cols<2^32 := by
    have hsize := (sizes_lt g).2.1
    have hself : shiftOf g.cols<2^shiftOf g.cols := Nat.lt_two_pow_self
    rw [pow_shiftOf g.cols_pow] at hself
    omega
  unfold tmp1
  omega

/-- The decode is a division with remainder. -/
theorem tmp_eq {v3 : ℕ} (hv : v3<2^32) :
    tmp2 g v3=v3/colBlocks g ∧ tmp3 g v3=v3%colBlocks g := by
  have h2 : tmp2 g v3=v3/colBlocks g := by
    unfold tmp2 colBlocks
    rw [tmp1_eq,Nat.shiftRight_eq_div_pow]
  refine ⟨h2,?_⟩
  have hsplit := Nat.div_add_mod' v3 (colBlocks g)
  unfold tmp3
  rw [h2,tmp1_eq,Nat.shiftLeft_eq,show 2^(shiftOf g.cols-shiftOf g.blockJ)=colBlocks g from rfl]
  omega

/-- The number of a task is that of a block. -/
theorem block_lt {v3 : ℕ} (hv : v3 < numTasks g) :
    v3/colBlocks g < rowBlocks g ∧ v3%colBlocks g < colBlocks g := by
  rw [numTasks_eq,Nat.mul_comm] at hv
  exact ⟨Nat.div_lt_of_lt_mul hv,Nat.mod_lt _ (Nat.two_pow_pos _)⟩

/-- A block ends inside. -/
theorem block_end {b n blocks : ℕ} (hn : n<blocks) : b*n+b≤b*blocks := by
  rw [←Nat.mul_succ]
  exact Nat.mul_le_mul_left b hn

/-- The bounds of a task are those of its block: the shifts divide its number by the blocks side by
side. -/
theorem bounds_eq {v3 : ℕ} (hv : v3 < numTasks g) :
    (ilow g v3=g.blockI*(v3/colBlocks g) ∧ ihigh g v3=ilow g v3+g.blockI ∧
      ihigh g v3≤g.rows) ∧
    jlow g v3=g.blockJ*(v3%colBlocks g) ∧ width g v3=g.blockJ ∧ jlow g v3+g.blockJ≤g.cols := by
  obtain ⟨hp,hq⟩ := block_lt hv
  obtain ⟨hrows,hcols,hsize⟩ := sizes_lt g
  have hI := pow_pos_of g.blockI_pow
  have hJ := pow_pos_of g.blockJ_pow
  have hlt : v3<2^32 := by
    have hle : numTasks g≤g.rows*g.cols := Nat.shiftRight_le _ _
    omega
  obtain ⟨h2,h3⟩ := tmp_eq (g := g) hlt
  have hi := block_end (b := g.blockI) hp
  have hj := block_end (b := g.blockJ) hq
  rw [blockI_mul] at hi
  rw [blockJ_mul] at hj
  unfold width ihigh jhigh least
  unfold ilow jlow
  rw [h2,h3]
  generalize g.blockI*(v3/colBlocks g)=i0 at hi ⊢
  generalize g.blockJ*(v3%colBlocks g)=j0 at hj ⊢
  split <;> split <;> omega

end Blocks

section Tasks

variable {g : Sizes} {fuel : ℕ}

/-- The number of an element in rows of `C`. -/
def rowMajor (g : Sizes) (p : ℕ×ℕ) : ℕ := p.1*g.cols+p.2

/-- The number of an element in rows of `R`. -/
def colMajor (g : Sizes) (p : ℕ×ℕ) : ℕ := p.2*g.rows+p.1

/-- The copies of some elements between two numberings. -/
def copiesOf (src dst : ℕ×ℕ → ℕ) (cells : List (ℕ×ℕ)) : List Copy :=
  cells.flatMap fun p => element (2*src p) (2*dst p)

/-- The walkers of a row start at its first element in the block, in both arrays, and step from
element to element. -/
theorem walkers_eq {v3 i d : ℕ} (hv : v3 < numTasks g) (hi : i<g.rows) :
    rowWalker g v3 i+2*d=2*rowMajor g (i,g.blockJ*(v3%colBlocks g)+d) ∧
    colWalker g v3 i+g.rows*2%2^32*d=2*colMajor g (i,g.blockJ*(v3%colBlocks g)+d) := by
  obtain ⟨-,hjlow,-,hend⟩ := bounds_eq hv
  obtain ⟨hrows,-,hsize⟩ := sizes_lt g
  have hJ := pow_pos_of g.blockJ_pow
  rw [←hjlow]
  unfold rowWalker colWalker rowMajor colMajor
  generalize jlow g v3=j0 at hend ⊢
  have hrow : i*g.cols+j0<g.rows*g.cols :=
    calc i*g.cols+j0 < i*g.cols+1*g.cols := by omega
      _ = (i+1)*g.cols := (Nat.add_mul i 1 g.cols).symm
      _ ≤ g.rows*g.cols := Nat.mul_le_mul_right _ hi
  have hcol : j0*g.rows+i<g.rows*g.cols :=
    calc j0*g.rows+i<j0*g.rows+1*g.rows := by omega
      _ = (j0+1)*g.rows := (Nat.add_mul j0 1 g.rows).symm
      _ ≤ g.cols*g.rows := Nat.mul_le_mul_right _ (by omega)
      _ = g.rows*g.cols := Nat.mul_comm _ _
  have hdouble : i*2*g.cols=2*(i*g.cols) := by ring
  have hdouble' : j0*2*g.rows=2*(j0*g.rows) := by ring
  have hstep : g.rows*2%2^32*d=2*(d*g.rows) := by
    rw [Nat.mod_eq_of_lt (by omega)]
    ring
  dsimp only
  rw [hstep,hdouble,hdouble',Nat.add_mul]
  omega

/-- The rows of a block, one after the other. -/
theorem blockRows_eq {row : ℕ → Option (List Copy)} {f : ℕ×ℕ → List Copy} {v3 : ℕ}
    (hv : v3 < numTasks g) (hrow : ∀ i, i<g.rows →
      row i=some ((List.range g.blockJ).flatMap fun d => f (i,g.blockJ*(v3%colBlocks g)+d))) :
    blockRows g row v3=some ((blockCells g v3).flatMap f) := by
  obtain ⟨⟨hlow,hhigh,hend⟩,-⟩ := bounds_eq hv
  unfold blockRows blockCells
  rw [hhigh,Nat.add_sub_cancel_left,mapM_eq_some fun i hi => hrow i (by
    have := List.mem_range'_1.1 hi
    omega),Option.map_some,←List.flatMap_def,List.flatMap_assoc,hlow]
  congr 1
  refine List.flatMap_congr fun i _ => ?_
  rw [List.flatMap_map]

/-- Rows whose walkers stand at the elements of a block copy it. -/
theorem walkedBlock_eq {v3 inStep outStep : ℕ} {inWalker outWalker : ℕ → ℕ} {src dst : ℕ×ℕ → ℕ}
    (hfuel : g.cols<fuel) (hv : v3 < numTasks g)
    (hin : ∀ i d, i < g.rows → inWalker i+inStep*d=2*src (i,g.blockJ*(v3%colBlocks g)+d))
    (hout : ∀ i d, i < g.rows → outWalker i+outStep*d=2*dst (i,g.blockJ*(v3%colBlocks g)+d)) :
    blockRows g (fun i => rowLoop inStep outStep fuel (width g v3) (inWalker i) (outWalker i)) v3=
      some (copiesOf src dst (blockCells g v3)) := by
  obtain ⟨-,-,hwidth,hend⟩ := bounds_eq hv
  have hcols := (sizes_lt g).2.1
  refine blockRows_eq hv fun i hi => ?_
  rw [hwidth,rowLoop_eq (by omega) (by omega),elements_eq]
  congr 1
  refine List.flatMap_congr fun d _ => ?_
  rw [hin i d hi,hout i d hi]

/-- A task copies its block from rows of `C` into rows of `R`. -/
theorem transposeBlockTask_eq {v3 : ℕ} (hfuel : g.cols<fuel) (hv : v3 < numTasks g) :
    transposeBlockTask g fuel v3=
      some (copiesOf (rowMajor g) (colMajor g) (blockCells g v3)) :=
  walkedBlock_eq hfuel hv (fun _ _ hi => (walkers_eq hv hi).1) fun _ _ hi => (walkers_eq hv hi).2

/-- A task copies its block back. -/
theorem transposeBlockTaskBackward_eq {v3 : ℕ} (hfuel : g.cols<fuel) (hv : v3 < numTasks g) :
    transposeBlockTaskBackward g fuel v3=
      some (copiesOf (colMajor g) (rowMajor g) (blockCells g v3)) :=
  walkedBlock_eq hfuel hv (fun _ _ hi => (walkers_eq hv hi).2) fun _ _ hi => (walkers_eq hv hi).1

/-- All tasks together copy the elements of all blocks. -/
theorem allCopies_eq {task : ℕ → Option (List Copy)} {src dst : ℕ×ℕ → ℕ} {order : List ℕ}
    (horder : order.Perm (List.range (numTasks g)))
    (h : ∀ v3, v3 < numTasks g → task v3=some (copiesOf src dst (blockCells g v3))) :
    allCopies task order=some (copiesOf src dst (order.flatMap (blockCells g))) := by
  unfold allCopies
  rw [mapM_eq_some fun v3 hv => h v3 (List.mem_range.1 (horder.mem_iff.1 hv)),Option.map_some,
    ←List.flatMap_def]
  unfold copiesOf
  rw [List.flatMap_assoc]

/-- The elements of a block. -/
theorem mem_blockCells {v3 : ℕ} {p : ℕ×ℕ} :
    p∈blockCells g v3 ↔ p.1/g.blockI=v3/colBlocks g ∧ p.2/g.blockJ=v3%colBlocks g := by
  have hI := pow_pos_of g.blockI_pow
  have hJ := pow_pos_of g.blockJ_pow
  unfold blockCells
  rw [List.mem_flatMap,Nat.div_eq_iff hI,Nat.div_eq_iff hJ,Nat.mul_comm _ g.blockI,
    Nat.mul_comm _ g.blockJ]
  constructor
  · rintro ⟨i,hi,hp⟩
    obtain ⟨d,hd,rfl⟩ := List.mem_map.1 hp
    have hi := List.mem_range'_1.1 hi
    have hd := List.mem_range.1 hd
    dsimp only
    omega
  · rintro ⟨hi,hj⟩
    refine ⟨p.1,List.mem_range'_1.2 (by omega),List.mem_map.2
      ⟨p.2-g.blockJ*(v3%colBlocks g),List.mem_range.2 (by omega),?_⟩⟩
    rw [Nat.add_sub_cancel' hj.1]

/-- The tasks visit every element once, in whatever order they are done, because the blocks tile the
matrix. -/
theorem visits_spec {order : List ℕ} (horder : order.Perm (List.range (numTasks g))) :
    (order.flatMap (blockCells g)).Nodup ∧
      ∀ p, p∈order.flatMap (blockCells g) ↔ p.1<g.rows ∧ p.2<g.cols := by
  have hI := pow_pos_of g.blockI_pow
  have hJ := pow_pos_of g.blockJ_pow
  have hrows := blockI_mul g
  have hcols := blockJ_mul g
  constructor
  · refine nodup_flatMap_of_index
      (fun p => colBlocks g*(p.1/g.blockI)+p.2/g.blockJ) (horder.nodup_iff.2 List.nodup_range)
      (fun v3 _ => ?_) fun v3 _ p hp => ?_
    · refine nodup_flatMap_of_index Prod.fst (List.nodup_range' 1) (fun i _ => ?_)
        fun i _ p hp => ?_
      · exact List.nodup_range.map fun d d' h => Nat.add_left_cancel (congrArg Prod.snd h)
      · obtain ⟨d,-,rfl⟩ := List.mem_map.1 hp
        rfl
    · obtain ⟨hi,hj⟩ := mem_blockCells.1 hp
      rw [hi,hj]
      exact Nat.div_add_mod v3 _
  · intro p
    have hp1 : p.1<g.rows ↔ p.1/g.blockI < rowBlocks g := by
      rw [Nat.div_lt_iff_lt_mul hI,Nat.mul_comm,hrows]
    have hp2 : p.2<g.cols ↔ p.2/g.blockJ < colBlocks g := by
      rw [Nat.div_lt_iff_lt_mul hJ,Nat.mul_comm,hcols]
    rw [List.mem_flatMap,hp1,hp2]
    constructor
    · rintro ⟨v3,hv,hp⟩
      obtain ⟨hi,hj⟩ := mem_blockCells.1 hp
      rw [hi,hj]
      exact block_lt (List.mem_range.1 (horder.mem_iff.1 hv))
    · rintro ⟨hi,hj⟩
      have hpos : 0 < colBlocks g := Nat.two_pow_pos _
      refine ⟨colBlocks g*(p.1/g.blockI)+p.2/g.blockJ,
        horder.mem_iff.2 (List.mem_range.2 ?_),mem_blockCells.2 ⟨?_,?_⟩⟩
      · rw [numTasks_eq,Nat.mul_comm (rowBlocks g)]
        exact (Nat.add_lt_add_left hj _).trans_le (block_end hi)
      · rw [Nat.mul_add_div hpos,Nat.div_eq_of_lt hj,Nat.add_zero]
      · rw [Nat.mul_add_mod,Nat.mod_eq_of_lt hj]

end Tasks

section Transpose

variable {α : Type} {g : Sizes} {fuel : ℕ}

/-- A numbering of the elements, with the element of each number. Rows or columns may come first. -/
structure Numbering (g : Sizes) (f : ℕ×ℕ → ℕ) (cell : ℕ → ℕ×ℕ) : Prop where
  /-- Numbers are below the number of elements. -/
  below : ∀ p, p.1<g.rows → p.2<g.cols → f p<g.rows*g.cols
  /-- An element is found by its number. -/
  cell_eq : ∀ p, p.1<g.rows → p.2<g.cols → cell (f p)=p
  /-- Every number has an element. -/
  inside : ∀ x, x<g.rows*g.cols → ((cell x).1<g.rows ∧ (cell x).2<g.cols) ∧ f (cell x)=x

/-- Every real belongs to an element. -/
theorem Numbering.real {g : Sizes} {f : ℕ×ℕ → ℕ} {cell : ℕ → ℕ×ℕ} (h : Numbering g f cell) {x : ℕ}
    (hx : x<2*(g.rows*g.cols)) :
    ∃ p b, (p.1 < g.rows ∧ p.2 < g.cols) ∧ b<2 ∧ x=2*f p+b := by
  obtain ⟨hin,hcell⟩ := h.inside (x/2) (by omega)
  refine ⟨cell (x/2),x%2,hin,Nat.mod_lt x Nat.two_pos,?_⟩
  rw [hcell]
  exact (Nat.div_add_mod x 2).symm

/-- Rows of `C`. -/
theorem rowMajor_numbering (g : Sizes) :
    Numbering g (rowMajor g) fun x => (x/g.cols,x%g.cols) := by
  have hcols := pow_pos_of g.cols_pow
  refine ⟨fun p h1 h2 => ?_,fun p _ h2 => Prod.ext ?_ ?_,fun x hx => ⟨⟨?_,?_⟩,?_⟩⟩
  · unfold rowMajor
    rw [Nat.mul_comm p.1,Nat.mul_comm g.rows]
    exact (Nat.add_lt_add_left h2 _).trans_le (block_end h1)
  · show (p.1*g.cols+p.2)/g.cols=p.1
    rw [Nat.mul_comm,Nat.mul_add_div hcols,Nat.div_eq_of_lt h2,Nat.add_zero]
  · show (p.1*g.cols+p.2)%g.cols=p.2
    rw [Nat.mul_comm,Nat.mul_add_mod,Nat.mod_eq_of_lt h2]
  · exact Nat.div_lt_of_lt_mul (by rw [Nat.mul_comm]; exact hx)
  · exact Nat.mod_lt x hcols
  · exact Nat.div_add_mod' x g.cols

/-- Rows of `R`. -/
theorem colMajor_numbering (g : Sizes) :
    Numbering g (colMajor g) fun x => (x%g.rows,x/g.rows) := by
  have hrows := pow_pos_of g.rows_pow
  refine ⟨fun p h1 h2 => ?_,fun p h1 _ => Prod.ext ?_ ?_,fun x hx => ⟨⟨?_,?_⟩,?_⟩⟩
  · unfold colMajor
    rw [Nat.mul_comm p.2]
    exact (Nat.add_lt_add_left h1 _).trans_le (block_end h2)
  · show (p.2*g.rows+p.1)%g.rows=p.1
    rw [Nat.mul_comm,Nat.mul_add_mod,Nat.mod_eq_of_lt h1]
  · show (p.2*g.rows+p.1)/g.rows=p.2
    rw [Nat.mul_comm,Nat.mul_add_div hrows,Nat.div_eq_of_lt h1,Nat.add_zero]
  · exact Nat.mod_lt x hrows
  · exact Nat.div_lt_of_lt_mul hx
  · exact Nat.div_add_mod' x g.rows

/-- The copies store every one of `n` reals once and nothing else, and read none but those. Such
copies may be done in any order. -/
def CopiesEach (n : ℕ) (copies : List Copy) : Prop :=
  (copies.map Copy.dst).Perm (List.range n) ∧ ∀ c, c∈copies → c.src<n

/-- The reals of an element are copied in pairs, the real part and the imaginary part. -/
theorem mem_copiesOf {src dst : ℕ×ℕ → ℕ} {cells : List (ℕ×ℕ)} {c : Copy} :
    c∈copiesOf src dst cells ↔
      ∃ p b, p∈cells ∧ b<2 ∧ c=⟨2*dst p+b,2*src p+b⟩ := by
  unfold copiesOf element
  rw [List.mem_flatMap]
  constructor
  · rintro ⟨p,hp,hc⟩
    rw [List.mem_cons,List.mem_singleton] at hc
    rcases hc with rfl|rfl
    · exact ⟨p,0,hp,by decide,rfl⟩
    · exact ⟨p,1,hp,by decide,rfl⟩
  · rintro ⟨p,b,hp,hb,rfl⟩
    refine ⟨p,hp,?_⟩
    rw [List.mem_cons,List.mem_singleton]
    have hb : b=0 ∨ b=1 := by omega
    rcases hb with rfl|rfl
    · exact .inl rfl
    · exact .inr rfl

/-- Copies of all elements between two numberings: each real of an element goes to the place of the
element in the other numbering. -/
theorem copiesOf_spec {src dst : ℕ×ℕ → ℕ} {cellS cellD : ℕ → ℕ×ℕ} {cells : List (ℕ×ℕ)}
    (hsrc : Numbering g src cellS) (hdst : Numbering g dst cellD) (hnodup : cells.Nodup)
    (hmem : ∀ p, p∈cells ↔ p.1<g.rows ∧ p.2<g.cols) :
    CopiesEach (2*(g.rows*g.cols)) (copiesOf src dst cells) ∧
      ∀ (inp out : ℕ → α) (p : ℕ×ℕ) (b : ℕ), p.1<g.rows → p.2<g.cols → b<2 →
        copyAll (copiesOf src dst cells) inp out (2*dst p+b)=inp (2*src p+b) := by
  have hperm : ((copiesOf src dst cells).map Copy.dst).Perm (List.range (2*(g.rows*g.cols))) := by
    have hreals : (copiesOf src dst cells).map Copy.dst=
        cells.flatMap fun p => [2*dst p,2*dst p+1] := by
      unfold copiesOf
      rw [List.map_flatMap]
      rfl
    have hunique : ((copiesOf src dst cells).map Copy.dst).Nodup := by
      rw [hreals]
      refine nodup_flatMap_of_index (fun x => cellD (x/2)) hnodup (fun p _ => ?_)
        fun p hp x hx => ?_
      · rw [List.nodup_cons,List.mem_singleton]
        exact ⟨by omega,List.nodup_singleton _⟩
      · rw [List.mem_cons,List.mem_singleton] at hx
        have hhalf : x/2=dst p := by omega
        obtain ⟨h1,h2⟩ := (hmem p).1 hp
        rw [hhalf]
        exact hdst.cell_eq p h1 h2
    refine (List.perm_ext_iff_of_nodup hunique List.nodup_range).2 fun x => ?_
    rw [List.mem_map,List.mem_range]
    constructor
    · rintro ⟨c,hc,rfl⟩
      obtain ⟨p,b,hp,hb,rfl⟩ := mem_copiesOf.1 hc
      obtain ⟨h1,h2⟩ := (hmem p).1 hp
      have hlt := hdst.below p h1 h2
      show 2*dst p+b<2*(g.rows*g.cols)
      omega
    · intro hx
      obtain ⟨p,b,hin,hb,rfl⟩ := hdst.real hx
      exact ⟨_,mem_copiesOf.2 ⟨p,b,(hmem p).2 hin,hb,rfl⟩,rfl⟩
  refine ⟨⟨hperm,?_⟩,?_⟩
  · intro c hc
    obtain ⟨p,b,hp,hb,rfl⟩ := mem_copiesOf.1 hc
    obtain ⟨h1,h2⟩ := (hmem p).1 hp
    have hlt := hsrc.below p h1 h2
    show 2*src p+b<2*(g.rows*g.cols)
    omega
  · intro inp out p b h1 h2 hb
    have hunique : (((copiesOf src dst cells).map fun c => (c.dst,inp c.src)).map
        Prod.fst).Nodup := by
      rw [List.map_map]
      exact hperm.nodup_iff.2 List.nodup_range
    exact stores_unique hunique (List.mem_map.2
      ⟨_,mem_copiesOf.2 ⟨p,b,(hmem p).2 ⟨h1,h2⟩,hb,rfl⟩,rfl⟩)

/-- For all sizes and whatever the order of the tasks, the tasks transpose the elements, store
each real once and touch nothing outside; the tasks of the other direction do the same back, and
the two undo each other. -/
theorem transposes_inverse (hfuel : g.cols<fuel) {order back : List ℕ}
    (horder : order.Perm (List.range (numTasks g))) (hback : back.Perm (List.range (numTasks g))) :
    ∃ forward backward, allCopies (transposeBlockTask g fuel) order=some forward ∧
      allCopies (transposeBlockTaskBackward g fuel) back=some backward ∧
      CopiesEach (2*(g.rows*g.cols)) forward ∧ CopiesEach (2*(g.rows*g.cols)) backward ∧
      ∀ data data2 : ℕ → α,
        (∀ i j b, i<g.rows → j<g.cols → b<2 →
          copyAll forward data data2 (2*(j*g.rows+i)+b)=data (2*(i*g.cols+j)+b)) ∧
        (∀ i j b, i<g.rows → j<g.cols → b<2 →
          copyAll backward data2 data (2*(i*g.cols+j)+b)=data2 (2*(j*g.rows+i)+b)) ∧
        ∀ (out : ℕ → α) (x : ℕ), x<2*(g.rows*g.cols) →
          copyAll backward (copyAll forward data data2) out x=data x ∧
          copyAll forward (copyAll backward data2 data) out x=data2 x := by
  obtain ⟨hnodup,hmem⟩ := visits_spec horder
  obtain ⟨hnodup',hmem'⟩ := visits_spec hback
  have hrow := rowMajor_numbering g
  have hcol := colMajor_numbering g
  obtain ⟨heach,hmoved⟩ := copiesOf_spec (α := α) hrow hcol hnodup hmem
  obtain ⟨heach',hmoved'⟩ := copiesOf_spec (α := α) hcol hrow hnodup' hmem'
  refine ⟨_,_,allCopies_eq horder fun v3 hv => transposeBlockTask_eq hfuel hv,
    allCopies_eq hback fun v3 hv => transposeBlockTaskBackward_eq hfuel hv,heach,heach',?_⟩
  refine fun data data2 => ⟨fun i j b hi hj hb => hmoved data data2 (i,j) b hi hj hb,
    fun i j b hi hj hb => hmoved' data2 data (i,j) b hi hj hb,fun out x hx => ⟨?_,?_⟩⟩
  · obtain ⟨p,b,⟨h1,h2⟩,hb,rfl⟩ := hrow.real hx
    rw [hmoved' _ out p b h1 h2 hb,hmoved data data2 p b h1 h2 hb]
  · obtain ⟨p,b,⟨h1,h2⟩,hb,rfl⟩ := hcol.real hx
    rw [hmoved _ out p b h1 h2 hb,hmoved' data2 data p b h1 h2 hb]

/-- Two rows of sixteen elements in blocks of one row and eight columns, which the unrolled loop
copies in two turns. -/
def twoBySixteen : Sizes :=
  ⟨2,16,1,8,⟨1,rfl⟩,⟨4,rfl⟩,⟨0,rfl⟩,⟨3,rfl⟩,by decide,by decide,by decide⟩

/-- Four tasks. -/
theorem numTasks_twoBySixteen : numTasks twoBySixteen=4 := by
  have hrows : 1*rowBlocks twoBySixteen=2 := blockI_mul twoBySixteen
  have hcols : 8*colBlocks twoBySixteen=16 := blockJ_mul twoBySixteen
  rw [numTasks_eq,show rowBlocks twoBySixteen=2 by omega,show colBlocks twoBySixteen=2 by omega]

/-- The tasks there from the last to the first, and those of the other direction in another
order. -/
theorem transposes_inverse_twoBySixteen :
    ∃ forward backward, allCopies (transposeBlockTask twoBySixteen 17) [3,2,1,0]=some forward ∧
      allCopies (transposeBlockTaskBackward twoBySixteen 17) [1,3,0,2]=some backward ∧
      CopiesEach 64 forward ∧ CopiesEach 64 backward ∧
      ∀ data data2 : ℕ → ℤ,
        (∀ i j b, i<2 → j<16 → b<2 →
          copyAll forward data data2 (2*(j*2+i)+b)=data (2*(i*16+j)+b)) ∧
        (∀ i j b, i<2 → j<16 → b<2 →
          copyAll backward data2 data (2*(i*16+j)+b)=data2 (2*(j*2+i)+b)) ∧
        ∀ (out : ℕ → ℤ) (x : ℕ), x<64 →
          copyAll backward (copyAll forward data data2) out x=data x ∧
          copyAll forward (copyAll backward data2 data) out x=data2 x :=
  transposes_inverse (g := twoBySixteen) (by decide) (by rw [numTasks_twoBySixteen]; decide)
    (by rw [numTasks_twoBySixteen]; decide)

end Transpose

end RigelTarget.FftTranspose
