import RigelTarget.Stencil
import Mathlib.Data.Nat.Log
import Mathlib.Data.Nat.Bitwise

/-!
# The marching-cubes benchmark

The cells of a grid are cut into blocks, one task for each. The number of a task is decoded with
shifts and masks of the logarithms of the numbers of blocks, rounded down, so the blocks beyond the
last power of two of a dimension are never visited. The samples of the grid are read through a
table of row pointers, whose rows start at multiples of the wrong dimension.
-/

namespace RigelTarget.MarchingCubes

open DoubleBuffer Stencil

section Decode

/-- `while(tmp) { s++; tmp >>= 1; }`. -/
def shiftLoop (tmp s : ℕ) : ℕ := if tmp=0 then s else shiftLoop (tmp>>>1) (s+1)
termination_by tmp
decreasing_by
  rw [Nat.shiftRight_one]
  omega

/-- `while(tmp) { s++; m <<= 1; tmp >>= 1; }`. The shift and the mask of the decode come from the
same loop. -/
def maskLoop (tmp s m : ℕ) : ℕ×ℕ :=
  if tmp=0 then (s,m) else maskLoop (tmp>>>1) (s+1) ((m<<<1)%2^32)
termination_by tmp
decreasing_by
  rw [Nat.shiftRight_one]
  omega

/-- The grid and the blocks, as `main` reads them: sizes and block sizes in three dimensions. -/
structure Grid where
  /-- `nx`, `ny` and `nz`. -/
  size : Dim → ℕ
  /-- `bx`, `by` and `bz`. -/
  block : Dim → ℕ

variable (g : Grid)

/-- `sx`, `sy` and `sz`. -/
def shift (d : Dim) : ℕ := shiftLoop (g.block d>>>1) 0

/-- `nx+(bx-1)`, and the same for the other dimensions. -/
def extended (d : Dim) : ℕ := (g.size d+(g.block d+(2^32-1))%2^32)%2^32

/-- `numXBlocks`, `numYBlocks` and `numZBlocks`: shifts for the first two dimensions, a division for
the third. -/
def blocksIn : Dim → ℕ
  | .x => extended g .x>>>shift g .x
  | .y => extended g .y>>>shift g .y
  | .z => extended g .z/g.block .z

/-- `numBlocks`. -/
def numBlocks : ℕ := blocksIn g .x*blocksIn g .y*blocksIn g .z%2^32

/-- `sx2` and `mx` before its last step, or `sy2` and `my`: the logarithm of the number of blocks,
rounded down, and its power of two. -/
def bits (d : Dim) : ℕ×ℕ := maskLoop (blocksIn g d>>>1) 0 1

/-- `mx` or `my`. -/
def mask (d : Dim) : ℕ := ((bits g d).2+(2^32-1))%2^32

/-- `xblocknum`, `yblocknum` and `zblocknum`: the number of a task is taken apart by masks and
shifts. -/
def blockNum (v3 : ℕ) : Dim → ℕ
  | .x => v3&&&mask g .x
  | .y => v3>>>(bits g .x).1&&&mask g .y
  | .z => v3>>>(bits g .x).1>>>(bits g .y).1

/-- `MIN(x, y)`. -/
def least (x y : ℕ) : ℕ := if y<x then y else x

/-- The range of a dimension from its first value on. -/
def rangeFrom (d : Dim) (low : ℕ) : ℕ×ℕ :=
  (low,least ((low+g.block d)%2^32) ((g.size d+(2^32-1))%2^32))

/-- `xmin` and `xmax`, `ymin` and `ymax`, `zmin` and `zmax`: the block in each dimension, cut off at
the end of the grid. -/
def ranges (v3 : ℕ) (d : Dim) : ℕ×ℕ := rangeFrom g d (blockNum g v3 d<<<shift g d%2^32)

/-- The numbers of blocks in the comment. -/
def oldBlocksIn (d : Dim) : ℕ := extended g d/g.block d

/-- The decode in the comment, by divisions and remainders. It is what the masks and shifts
replace. -/
def oldBlockNum (v3 : ℕ) : Dim → ℕ
  | .x => v3%oldBlocksIn g .x
  | .y => (v3-v3%oldBlocksIn g .x)/oldBlocksIn g .x%oldBlocksIn g .y
  | .z =>
    let v3 := (v3-v3%oldBlocksIn g .x)/oldBlocksIn g .x
    (v3-v3%oldBlocksIn g .y)/oldBlocksIn g .y

/-- The ranges in the comment. -/
def oldRanges (v3 : ℕ) (d : Dim) : ℕ×ℕ := rangeFrom g d (oldBlockNum g v3 d*g.block d%2^32)

/-- The values of a loop over a range. -/
def values (r : ℕ×ℕ) : List ℕ := List.range' r.1 (r.2-r.1)

/-- The calls of `vMarchCubeGrid` by a task. -/
def taskCalls (v3 : ℕ) : List (ℕ×ℕ×ℕ) :=
  values (ranges g v3 .x) ×ˢ values (ranges g v3 .y) ×ˢ values (ranges g v3 .z)

/-- A cell of the grid. -/
def Cell (c : ℕ×ℕ×ℕ) : Prop := c.1 < g.size .x-1 ∧ c.2.1 < g.size .y-1 ∧ c.2.2 < g.size .z-1

instance (c : ℕ×ℕ×ℕ) : Decidable (Cell g c) := inferInstanceAs (Decidable (_∧_))

/-- In every order of the tasks each cell is visited once, and nothing else is. A cell lies between
two points in every dimension. -/
def ExactlyOnce : Prop := ∀ order : List ℕ, order.Perm (List.range (numBlocks g)) →
  ∀ c, (order.flatMap (taskCalls g)).count c=if Cell g c then 1 else 0

/-- The decode and the one in the comment give the same ranges. -/
def SameRanges : Prop := ∀ v3, v3 < numBlocks g → ranges g v3=oldRanges g v3

/-- The grid has cells, the blocks are powers of two, and nothing overflows 32 bits: the grids that
the program is written for. -/
structure Regular : Prop where
  /-- There are cells. -/
  size_ge : ∀ d, 2 ≤ g.size d
  /-- Blocks are powers of two. -/
  block_pow : ∀ d, ∃ e, g.block d=2^e
  /-- `nx+(bx-1)` does not overflow, nor do the others. -/
  extended_lt : ∀ d, g.size d+(g.block d-1)<2^32
  /-- `numBlocks` does not overflow. -/
  blocks_lt : blocksIn g .x*blocksIn g .y*blocksIn g .z<2^32
  /-- `zmin+bz` does not overflow. -/
  z_lt : ∀ v3, v3 < numBlocks g → blockNum g v3 .z*g.block .z+g.block .z<2^32

end Decode

section Logarithm

/-- The loop counts how often a number can be halved. -/
theorem shiftLoop_eq {n : ℕ} (hn : n≠0) (s : ℕ) : shiftLoop (n>>>1) s=s+Nat.log 2 n := by
  induction n using Nat.strong_induction_on generalizing s with
  | _ n ih =>
    rw [shiftLoop,Nat.shiftRight_one]
    split
    next h =>
      have hone : n=1 := by omega
      rw [hone,Nat.log_one_right,Nat.add_zero]
    next h =>
      have hlog : Nat.log 2 n=Nat.log 2 (n/2)+1 :=
        Nat.log_of_one_lt_of_le Nat.one_lt_two (by omega)
      rw [ih (n/2) (by omega) h,hlog]
      omega

/-- The loop counts how often a number can be halved, and doubles the mask as often. So the
logarithm is rounded down. -/
theorem maskLoop_eq {n : ℕ} (hn : n≠0) (s : ℕ) {m : ℕ} (hm : m*2^Nat.log 2 n<2^32) :
    maskLoop (n>>>1) s m=(s+Nat.log 2 n,m*2^Nat.log 2 n) := by
  induction n using Nat.strong_induction_on generalizing s m with
  | _ n ih =>
    rw [maskLoop,Nat.shiftRight_one]
    split
    next h =>
      have hone : n=1 := by omega
      rw [hone,Nat.log_one_right,Nat.add_zero,pow_zero,Nat.mul_one]
    next h =>
      have hlog : Nat.log 2 n=Nat.log 2 (n/2)+1 :=
        Nat.log_of_one_lt_of_le Nat.one_lt_two (by omega)
      have hdouble : m*2^Nat.log 2 n=m*2*2^Nat.log 2 (n/2) := by
        rw [hlog]
        ring
      have hle : m*2 ≤ m*2*2^Nat.log 2 (n/2) := Nat.le_mul_of_pos_right _ (Nat.two_pow_pos _)
      have hshift : (m<<<1)%2^32=m*2 := by
        rw [Nat.shiftLeft_eq,pow_one]
        exact Nat.mod_eq_of_lt (by omega)
      rw [hshift,ih (n/2) (by omega) h (s+1) (by omega),hdouble,hlog]
      congr 1
      omega

/-- The power of two at or below a number. -/
theorem pow_log_spec {n : ℕ} (hn : n≠0) : 2^Nat.log 2 n≤n ∧ n<2*2^Nat.log 2 n := by
  refine ⟨Nat.pow_log_le_self 2 hn,?_⟩
  have h := Nat.lt_pow_succ_log_self Nat.one_lt_two n
  rwa [Nat.pow_succ'] at h

/-- A number is a power of two if and only if it is the one at or below it. -/
theorem pow_log_iff {n : ℕ} : 2^Nat.log 2 n=n ↔ ∃ e, n=2^e := by
  constructor
  · intro h
    exact ⟨_,h.symm⟩
  · rintro ⟨e,rfl⟩
    rw [Nat.log_pow Nat.one_lt_two]

end Logarithm

section Blocks

variable {g : Grid} {d : Dim}

/-- The number of blocks in a dimension that the decode knows: the power of two at or below the
number of blocks. -/
def known (g : Grid) (d : Dim) : ℕ := 2^Nat.log 2 (blocksIn g d)

/-- A block has cells. -/
theorem Regular.block_pos (h : Regular g) (d : Dim) : 0 < g.block d := by
  obtain ⟨e,he⟩ := h.block_pow d
  rw [he]
  exact Nat.two_pow_pos e

/-- The shift of a dimension is the logarithm of its block. -/
theorem Regular.shift_eq (h : Regular g) (d : Dim) : 2^shift g d=g.block d := by
  obtain ⟨e,he⟩ := h.block_pow d
  unfold shift
  rw [he,shiftLoop_eq (Nat.two_pow_pos e).ne',Nat.zero_add,Nat.log_pow Nat.one_lt_two]

/-- The size of the grid plus a block without its last cell, which does not overflow. -/
theorem Regular.extended_eq (h : Regular g) (d : Dim) : extended g d=g.size d+(g.block d-1) := by
  have hpos := h.block_pos d
  have hlt := h.extended_lt d
  have hsize := h.size_ge d
  unfold extended
  omega

/-- The numbers of blocks are those of the comment. -/
theorem Regular.blocksIn_eq (h : Regular g) (d : Dim) : blocksIn g d=oldBlocksIn g d := by
  cases d with
  | x =>
    change extended g .x>>>shift g .x=_
    rw [Nat.shiftRight_eq_div_pow,h.shift_eq]
    rfl
  | y =>
    change extended g .y>>>shift g .y=_
    rw [Nat.shiftRight_eq_div_pow,h.shift_eq]
    rfl
  | z => rfl

/-- The blocks reach the end of the grid, and the last one starts before it. -/
theorem Regular.blocksIn_spec (h : Regular g) (d : Dim) :
    g.size d ≤ blocksIn g d*g.block d ∧ blocksIn g d*g.block d < g.size d+g.block d := by
  have hpos := h.block_pos d
  have hsplit := Nat.div_add_mod (g.size d+(g.block d-1)) (g.block d)
  have hmod := Nat.mod_lt (g.size d+(g.block d-1)) hpos
  rw [h.blocksIn_eq]
  unfold oldBlocksIn
  rw [h.extended_eq,Nat.mul_comm]
  omega

/-- There is a block in every dimension. -/
theorem Regular.blocksIn_pos (h : Regular g) (d : Dim) : blocksIn g d≠0 := by
  intro hzero
  have hspec := (h.blocksIn_spec d).1
  have hsize := h.size_ge d
  rw [hzero,Nat.zero_mul] at hspec
  omega

/-- The number of blocks in a dimension is a word, so that its scan is not cut off. -/
theorem Regular.blocksIn_lt (h : Regular g) (d : Dim) : blocksIn g d<2^32 := by
  have hlt := h.extended_lt d
  have hpos := h.block_pos d
  have hspec := (h.blocksIn_spec d).2
  have hle : blocksIn g d≤blocksIn g d*g.block d := Nat.le_mul_of_pos_right _ hpos
  omega

/-- The decode knows more than half of the blocks of a dimension, and no block too many. -/
theorem Regular.known_spec (h : Regular g) (d : Dim) :
    known g d≤blocksIn g d ∧ blocksIn g d<2*known g d := pow_log_spec (h.blocksIn_pos d)

/-- The decode knows a block in every dimension. -/
theorem known_pos : 0 < known g d := Nat.two_pow_pos _

/-- The scan of the number of blocks finds its logarithm. -/
theorem Regular.bits_eq (h : Regular g) (d : Dim) :
    bits g d=(Nat.log 2 (blocksIn g d),known g d) := by
  have hlt := h.blocksIn_lt d
  have hle := (h.known_spec d).1
  unfold known at hle
  unfold bits known
  rw [maskLoop_eq (h.blocksIn_pos d) 0 (by omega),Nat.zero_add,Nat.one_mul]

/-- The decode takes the remainder by the mask. -/
theorem Regular.and_mask (h : Regular g) (d : Dim) (v : ℕ) : v&&&mask g d=v%known g d := by
  have hlt := h.blocksIn_lt d
  have hle := (h.known_spec d).1
  have hpos := known_pos (g := g) (d := d)
  have hmask : mask g d=known g d-1 := by
    unfold mask
    rw [h.bits_eq]
    dsimp only
    omega
  rw [hmask]
  exact Nat.and_two_pow_sub_one_eq_mod v _

/-- The decode divides by the shift. -/
theorem Regular.shiftRight_bits (h : Regular g) (d : Dim) (v : ℕ) :
    v>>>(bits g d).1=v/known g d := by
  rw [Nat.shiftRight_eq_div_pow,h.bits_eq]
  rfl

/-- The decode is the mixed-radix one of the known numbers of blocks. -/
theorem Regular.blockNum_eq (h : Regular g) (v3 : ℕ) : blockNum g v3 .x=v3%known g .x ∧
    blockNum g v3 .y=v3/known g .x%known g .y ∧
    blockNum g v3 .z=v3/known g .x/known g .y := by
  refine ⟨h.and_mask .x v3,?_,?_⟩
  · exact (h.and_mask .y _).trans (by rw [h.shiftRight_bits])
  · exact (h.shiftRight_bits .y _).trans (by rw [h.shiftRight_bits])

/-- The number of blocks does not overflow. -/
theorem Regular.numBlocks_eq (h : Regular g) :
    numBlocks g=blocksIn g .x*blocksIn g .y*blocksIn g .z := Nat.mod_eq_of_lt h.blocks_lt

/-- No range overflows: the end of a block in each dimension is a word. -/
theorem Regular.range_lt (h : Regular g) {v3 : ℕ} (hv : v3 < numBlocks g) (d : Dim) :
    blockNum g v3 d*g.block d+g.block d<2^32 := by
  have hmasked : blockNum g v3 d<known g d → blockNum g v3 d*g.block d+g.block d<2^32 := by
    intro hlt
    have hknown := (h.known_spec d).1
    have hspec := (h.blocksIn_spec d).2
    have hfits := h.extended_lt d
    have hpos := h.block_pos d
    have hle := Nat.mul_le_mul_right (g.block d) (show blockNum g v3 d+1≤blocksIn g d by omega)
    rw [Nat.add_mul,Nat.one_mul] at hle
    omega
  cases d with
  | x =>
    refine hmasked ?_
    rw [(h.blockNum_eq v3).1]
    exact Nat.mod_lt _ known_pos
  | y =>
    refine hmasked ?_
    rw [(h.blockNum_eq v3).2.1]
    exact Nat.mod_lt _ known_pos
  | z => exact h.z_lt v3 hv

/-- The ranges of a task start at whole blocks. -/
theorem Regular.ranges_eq (h : Regular g) (v3 : ℕ) (d : Dim) :
    ranges g v3 d=rangeFrom g d (blockNum g v3 d*g.block d%2^32) := by
  unfold ranges
  rw [Nat.shiftLeft_eq,h.shift_eq]

/-- The values of a range are the coordinates of its block that belong to cells. -/
theorem Regular.mem_values (h : Regular g) {v3 : ℕ} (hv : v3 < numBlocks g) {d : Dim} {i : ℕ} :
    i∈values (ranges g v3 d) ↔ i < g.size d-1 ∧ i/g.block d=blockNum g v3 d := by
  have hlt := h.range_lt hv d
  have hpos := h.block_pos d
  have hsize := h.size_ge d
  have hfits := h.extended_lt d
  rw [Nat.div_eq_iff hpos,h.ranges_eq]
  unfold values rangeFrom least
  rw [List.mem_range'_1]
  dsimp only
  split <;> omega

/-- The calls of a task are the cells of its block. -/
theorem Regular.mem_taskCalls (h : Regular g) {v3 : ℕ} (hv : v3 < numBlocks g) {c : ℕ×ℕ×ℕ} :
    c∈taskCalls g v3 ↔ Cell g c ∧ c.1/g.block .x=blockNum g v3 .x ∧
      c.2.1/g.block .y=blockNum g v3 .y ∧ c.2.2/g.block .z=blockNum g v3 .z := by
  obtain ⟨i,j,k⟩ := c
  unfold taskCalls Cell
  rw [List.mem_product,List.mem_product,h.mem_values hv,h.mem_values hv,h.mem_values hv]
  constructor
  · rintro ⟨⟨hi,hx⟩,⟨hj,hy⟩,hk,hz⟩
    exact ⟨⟨hi,hj,hk⟩,hx,hy,hz⟩
  · rintro ⟨⟨hi,hj,hk⟩,hx,hy,hz⟩
    exact ⟨⟨hi,hx⟩,⟨hj,hy⟩,hk,hz⟩

/-- The block of a cell. -/
def blockOf (g : Grid) (c : ℕ×ℕ×ℕ) : ℕ×ℕ×ℕ :=
  (c.1/g.block .x,c.2.1/g.block .y,c.2.2/g.block .z)

/-- The number of a block is decoded to the block. -/
theorem Regular.blockNum_number (h : Regular g) {p : ℕ×ℕ×ℕ} (hx : p.1 < known g .x)
    (hy : p.2.1 < known g .y) :
    let v3 := number (known g .x) (known g .y) p
    p.1=blockNum g v3 .x ∧ p.2.1=blockNum g v3 .y ∧ p.2.2=blockNum g v3 .z := by
  intro v3
  obtain ⟨hbx,hby,hbz⟩ := h.blockNum_eq v3
  have hdiv : v3/known g .x=p.2.1+known g .y*p.2.2 := by
    change (p.1+known g .x*_)/known g .x=_
    rw [Nat.add_mul_div_left _ _ known_pos,Nat.div_eq_of_lt hx,Nat.zero_add]
  refine ⟨?_,?_,?_⟩
  · rw [hbx]
    change p.1=(p.1+known g .x*_)%known g .x
    rw [Nat.add_mul_mod_self_left,Nat.mod_eq_of_lt hx]
  · rw [hby,hdiv,Nat.add_mul_mod_self_left,Nat.mod_eq_of_lt hy]
  · rw [hbz,hdiv,Nat.add_mul_div_left _ _ known_pos,Nat.div_eq_of_lt hy,Nat.zero_add]

/-- A task that visits a cell has the number of its block. -/
theorem Regular.number_of_mem (h : Regular g) {v3 : ℕ} (hv : v3 < numBlocks g) {c : ℕ×ℕ×ℕ}
    (hc : c∈taskCalls g v3) : number (known g .x) (known g .y) (blockOf g c)=v3 := by
  obtain ⟨-,hx,hy,hz⟩ := (h.mem_taskCalls hv).1 hc
  obtain ⟨hbx,hby,hbz⟩ := h.blockNum_eq v3
  unfold number blockOf
  dsimp only
  rw [hx,hy,hz,hbx,hby,hbz,Nat.mod_add_div,Nat.mod_add_div]

/-- No task visits a cell twice, and no two tasks visit the same cell. -/
theorem Regular.calls_nodup (h : Regular g) :
    ((List.range (numBlocks g)).flatMap (taskCalls g)).Nodup := by
  refine nodup_flatMap_of_index (fun c => number (known g .x) (known g .y) (blockOf g c))
    List.nodup_range (fun v3 _ => ?_) fun v3 hv c hc => ?_
  · exact (List.nodup_range' 1).product ((List.nodup_range' 1).product (List.nodup_range' 1))
  · exact h.number_of_mem (List.mem_range.1 hv) hc

/-- The cells before the end of the known blocks are visited, and nothing else is. Blocks beyond are
never decoded, in the first two dimensions. -/
theorem Regular.mem_calls (h : Regular g) {c : ℕ×ℕ×ℕ} :
    c∈(List.range (numBlocks g)).flatMap (taskCalls g) ↔
      Cell g c ∧ c.1/g.block .x < known g .x ∧ c.2.1/g.block .y < known g .y := by
  rw [List.mem_flatMap]
  constructor
  · rintro ⟨v3,hv,hc⟩
    obtain ⟨hcell,hx,hy,-⟩ := (h.mem_taskCalls (List.mem_range.1 hv)).1 hc
    obtain ⟨hbx,hby,-⟩ := h.blockNum_eq v3
    rw [hx,hy,hbx,hby]
    exact ⟨hcell,Nat.mod_lt _ known_pos,Nat.mod_lt _ known_pos⟩
  · rintro ⟨hcell,hx,hy⟩
    have hz : c.2.2/g.block .z < blocksIn g .z := by
      have hlast := hcell.2.2
      have hend := (h.blocksIn_spec .z).1
      exact Nat.div_lt_of_lt_mul (by rw [Nat.mul_comm]; omega)
    have hv : number (known g .x) (known g .y) (blockOf g c) < numBlocks g := by
      rw [h.numBlocks_eq]
      refine (number_lt (p := blockOf g c) hx hy hz).trans_le (Nat.mul_le_mul_right _ ?_)
      exact Nat.mul_le_mul (h.known_spec .x).1 (h.known_spec .y).1
    have hblock := h.blockNum_number (p := blockOf g c) hx hy
    exact ⟨_,List.mem_range.2 hv,(h.mem_taskCalls hv).2 ⟨hcell,hblock⟩⟩

/-- Each cell is visited once if and only if the known blocks reach the last cell in both
dimensions that are masked. -/
theorem Regular.exactlyOnce_iff (h : Regular g) : ExactlyOnce g ↔
    g.size .x-1≤known g .x*g.block .x ∧ g.size .y-1≤known g .y*g.block .y := by
  have hxpos := h.block_pos .x
  have hypos := h.block_pos .y
  constructor
  · intro honce
    have hsize := h.size_ge
    have hcell : Cell g (g.size .x-2,g.size .y-2,0) := by
      have hx := hsize .x
      have hy := hsize .y
      have hz := hsize .z
      exact ⟨by dsimp only; omega,by dsimp only; omega,by dsimp only; omega⟩
    have hcount := honce _ (List.Perm.refl _) (g.size .x-2,g.size .y-2,0)
    rw [if_pos hcell] at hcount
    obtain ⟨-,hx,hy⟩ := h.mem_calls.1 (List.count_pos_iff.1 (by rw [hcount]; decide))
    have hx := (Nat.div_lt_iff_lt_mul hxpos).1 hx
    have hy := (Nat.div_lt_iff_lt_mul hypos).1 hy
    dsimp only at hx hy
    exact ⟨by omega,by omega⟩
  · rintro ⟨hx,hy⟩ order horder c
    rw [(horder.flatMap_right (taskCalls g)).count_eq]
    split
    next hcell =>
      have hmem := h.mem_calls.2 ⟨hcell,(Nat.div_lt_iff_lt_mul hxpos).2 (hcell.1.trans_le hx),
        (Nat.div_lt_iff_lt_mul hypos).2 (hcell.2.1.trans_le hy)⟩
      exact List.count_eq_one_of_mem h.calls_nodup hmem
    next hcell =>
      exact List.count_eq_zero.2 fun hmem => hcell (h.mem_calls.1 hmem).1

/-- The ranges of the two decodes in a dimension agree if and only if the numbers of the block
do. -/
theorem Regular.range_eq_iff (h : Regular g) {v3 : ℕ} (hv : v3 < numBlocks g) {d : Dim}
    (hold : oldBlockNum g v3 d*g.block d<2^32) :
    ranges g v3 d=oldRanges g v3 d ↔ blockNum g v3 d=oldBlockNum g v3 d := by
  have hlt := h.range_lt hv d
  rw [h.ranges_eq]
  unfold oldRanges
  rw [Nat.mod_eq_of_lt (by omega),Nat.mod_eq_of_lt hold]
  constructor
  · intro he
    exact Nat.eq_of_mul_eq_mul_right (h.block_pos d) (congrArg Prod.fst he)
  · intro he
    rw [he]

/-- The decode in the comment is the mixed-radix one of the numbers of blocks. -/
theorem Regular.oldBlockNum_eq (h : Regular g) (v3 : ℕ) :
    oldBlockNum g v3 .x=v3%blocksIn g .x ∧
      oldBlockNum g v3 .y=v3/blocksIn g .x%blocksIn g .y ∧
      oldBlockNum g v3 .z=v3/blocksIn g .x/blocksIn g .y := by
  rw [h.blocksIn_eq,h.blocksIn_eq]
  refine ⟨rfl,?_,?_⟩
  · rw [Nat.div_eq_sub_mod_div (m := v3)]
    rfl
  · rw [Nat.div_eq_sub_mod_div (m := v3),Nat.div_eq_sub_mod_div (m := _/oldBlocksIn g .x)]
    rfl

/-- A number of a block in a dimension does not overflow. -/
theorem Regular.block_mul_lt (h : Regular g) {d : Dim} {q : ℕ} (hq : q≤blocksIn g d) :
    q*g.block d<2^32 := by
  have hspec := (h.blocksIn_spec d).2
  have hfits := h.extended_lt d
  have hpos := h.block_pos d
  have hle := Nat.mul_le_mul_right (g.block d) hq
  omega

/-- A block that is not known is decoded as the first one. -/
theorem Regular.not_same (h : Regular g) {v3 : ℕ} (hv : v3 < numBlocks g) {d : Dim}
    (hold : oldBlockNum g v3 d=known g d) (hnum : blockNum g v3 d=0) : ¬SameRanges g := by
  intro hsame
  have hle := (h.known_spec d).1
  have he := (h.range_eq_iff hv (by rw [hold]; exact h.block_mul_lt hle)).1
    (congrFun (hsame _ hv) d)
  rw [hnum,hold] at he
  exact known_pos.ne he

/-- The decodes agree if and only if all blocks of the masked dimensions are known, that is, if
their numbers are powers of two. -/
theorem Regular.sameRanges_iff (h : Regular g) : SameRanges g ↔
    known g .x=blocksIn g .x ∧ known g .y=blocksIn g .y := by
  have hxpos := Nat.pos_of_ne_zero (h.blocksIn_pos .x)
  have hypos := Nat.pos_of_ne_zero (h.blocksIn_pos .y)
  have hzpos := Nat.pos_of_ne_zero (h.blocksIn_pos .z)
  have hxle := (h.known_spec .x).1
  have hyle := (h.known_spec .y).1
  constructor
  · intro hsame
    have hx : known g .x=blocksIn g .x := by
      by_contra hne
      -- the first block that is not known
      have hv : known g .x < numBlocks g := by
        rw [h.numBlocks_eq,Nat.mul_assoc]
        exact (Nat.lt_of_le_of_ne hxle hne).trans_le
          (Nat.le_mul_of_pos_right _ (Nat.mul_pos hypos hzpos))
      refine h.not_same (d := .x) hv ?_ ?_ hsame
      · rw [(h.oldBlockNum_eq _).1]
        exact Nat.mod_eq_of_lt (by omega)
      · rw [(h.blockNum_eq _).1,Nat.mod_self]
    refine ⟨hx,?_⟩
    by_contra hne
    -- the first block in a row of blocks that is not known
    have hrow := Nat.mul_lt_mul_of_pos_left (Nat.lt_of_le_of_ne hyle hne) hxpos
    have hv : blocksIn g .x*known g .y < numBlocks g := by
      rw [h.numBlocks_eq]
      exact hrow.trans_le (Nat.le_mul_of_pos_right _ hzpos)
    refine h.not_same (d := .y) hv ?_ ?_ hsame
    · rw [(h.oldBlockNum_eq _).2.1,Nat.mul_div_cancel_left _ hxpos]
      exact Nat.mod_eq_of_lt (by omega)
    · rw [(h.blockNum_eq _).2.1,hx,Nat.mul_div_cancel_left _ hxpos,Nat.mod_self]
  · rintro ⟨hx,hy⟩ v3 hv
    obtain ⟨hbx,hby,hbz⟩ := h.blockNum_eq v3
    obtain ⟨hox,hoy,hoz⟩ := h.oldBlockNum_eq v3
    have hnum : ∀ d, blockNum g v3 d=oldBlockNum g v3 d := by
      intro d
      cases d with
      | x => rw [hbx,hox,hx]
      | y => rw [hby,hoy,hx,hy]
      | z => rw [hbz,hoz,hx,hy]
    funext d
    have hlt := h.range_lt hv d
    exact (h.range_eq_iff hv (by rw [←hnum]; omega)).2 (hnum d)

end Blocks

/-- For every regular grid, the tasks visit each cell once if and only if the powers of two at or
below the numbers of blocks reach the last cells, and the decode agrees with the one in the comment
if and only if the numbers of blocks are powers of two, which is enough for the first. -/
theorem march_decode_iff (g : Grid) (h : Regular g) :
    (ExactlyOnce g ↔ g.size .x-1≤2^Nat.log 2 (blocksIn g .x)*g.block .x ∧
      g.size .y-1≤2^Nat.log 2 (blocksIn g .y)*g.block .y) ∧
    (SameRanges g ↔ (∃ e, blocksIn g .x=2^e) ∧ ∃ e, blocksIn g .y=2^e) ∧
    (ExactlyOnce g ∧ SameRanges g ↔ (∃ e, blocksIn g .x=2^e) ∧ ∃ e, blocksIn g .y=2^e) := by
  have hsame : SameRanges g ↔ (∃ e, blocksIn g .x=2^e) ∧ ∃ e, blocksIn g .y=2^e := by
    rw [h.sameRanges_iff]
    exact and_congr pow_log_iff pow_log_iff
  refine ⟨h.exactlyOnce_iff,hsame,?_⟩
  rw [←hsame]
  refine ⟨And.right,fun hs => ⟨?_,hs⟩⟩
  obtain ⟨hx,hy⟩ := h.sameRanges_iff.1 hs
  have hxend := (h.blocksIn_spec .x).1
  have hyend := (h.blocksIn_spec .y).1
  rw [h.exactlyOnce_iff,hx,hy]
  exact ⟨by omega,by omega⟩

/-- A cube of `n` points a side in blocks of two cells a side. -/
def cube (n : ℕ) : Grid := ⟨fun _ => n,fun _ => 2⟩

/-- A small cube has half as many blocks a side as points, rounded up. -/
theorem cube_blocksIn {n : ℕ} (hn : n≤8) (d : Dim) : blocksIn (cube n) d=(n+1)/2 := by
  have hshift : ∀ d, shift (cube n) d=1 := fun d => shiftLoop_eq two_ne_zero 0
  have hextended : ∀ d, extended (cube n) d=n+1 := fun d => by
    change (n+(2+(2^32-1))%2^32)%2^32=n+1
    omega
  cases d with
  | x =>
    change extended (cube n) .x>>>shift (cube n) .x=_
    rw [hshift,hextended,Nat.shiftRight_one]
  | y =>
    change extended (cube n) .y>>>shift (cube n) .y=_
    rw [hshift,hextended,Nat.shiftRight_one]
  | z => exact congrArg (·/2) (hextended .z)

/-- Small cubes are regular grids. -/
theorem cube_regular {n : ℕ} (hn : 2≤n) (hn' : n≤8) : Regular (cube n) := by
  have hblocks : blocksIn (cube n) .x*blocksIn (cube n) .y*blocksIn (cube n) .z≤4*4*4 := by
    have hle : ∀ d, blocksIn (cube n) d≤4 := fun d => by
      rw [cube_blocksIn hn']
      omega
    exact Nat.mul_le_mul (Nat.mul_le_mul (hle .x) (hle .y)) (hle .z)
  refine ⟨fun _ => hn,fun _ => ⟨1,rfl⟩,fun _ => ?_,by omega,fun v3 hv => ?_⟩
  · change n+(2-1)<2^32
    omega
  · have hv : v3<4*4*4+1 := by
      unfold numBlocks at hv
      rw [Nat.mod_eq_of_lt (by omega)] at hv
      omega
    have hle : blockNum (cube n) v3 .z≤v3 :=
      (Nat.shiftRight_le _ _).trans (Nat.shiftRight_le _ _)
    change blockNum (cube n) v3 .z*2+2<2^32
    omega

/-- Eight points a side make four blocks a side, all of which are known, because four is a power of
two. -/
theorem march_decode_iff_eight : ExactlyOnce (cube 8) ∧ SameRanges (cube 8) :=
  (march_decode_iff (cube 8) (cube_regular (by decide) (by decide))).2.2.2
    ⟨⟨2,cube_blocksIn (by decide) .x⟩,2,cube_blocksIn (by decide) .y⟩

/-- Six points a side make three blocks a side, of which two are known. The cells of the third are
not visited. -/
theorem march_decode_six :
    Regular (cube 6) ∧ ¬ExactlyOnce (cube 6) ∧ ¬SameRanges (cube 6) := by
  have h := cube_regular (n := 6) (by decide) (by decide)
  have hblocks : ∀ d, blocksIn (cube 6) d=3 := cube_blocksIn (by decide)
  have hknown : ∀ d, known (cube 6) d=2 := fun d => by
    unfold known
    rw [hblocks]
    decide
  refine ⟨h,?_,?_⟩
  · rw [h.exactlyOnce_iff,hknown,hknown]
    exact fun hle => absurd hle.1 (by decide)
  · rw [h.sameRanges_iff,hknown,hblocks]
    exact fun he => absurd he.1 (by decide)

section Samples

variable (g : Grid)

/-- `datamat+(nx*ny)*i+nx*j`. -/
def rowPointer (datamat i j : ℕ) : ℕ :=
  (datamat+4*(g.size .x*g.size .y%2^32*i%2^32)+4*(g.size .x*j%2^32))%2^32

/-- `data[i][j]` for all `i` and `j`; `memory` is what the allocator returned. The bound of `j` is
the number of columns and not of rows. -/
def dataTable (memory : ℕ×ℕ → ℕ) (datamat : ℕ) : ℕ×ℕ → ℕ :=
  stores memory ((List.range (g.size .z) ×ˢ List.range (g.size .x)).map fun p =>
    (p,rowPointer g datamat p.1 p.2))

/-- The address that `fGridSample` reads. It takes the row pointer by the column of the point, as
the source does. -/
def sampleAddress (memory : ℕ×ℕ → ℕ) (datamat : ℕ) (p : ℕ×ℕ×ℕ) : ℕ :=
  (dataTable g memory datamat (p.2.2,p.1)+4*p.2.1)%2^32

/-- A point of the grid. -/
def Point (p : ℕ×ℕ×ℕ) : Prop := p.1 < g.size .x ∧ p.2.1 < g.size .y ∧ p.2.2 < g.size .z

/-- The number of samples. -/
def samples : ℕ := g.size .x*g.size .y*g.size .z

/-- The samples of a grid with points lie in memory from `datamat` on, as they were read from the
file. -/
structure Loaded (datamat : ℕ) : Prop where
  /-- There are points. -/
  size_pos : ∀ d, 0 < g.size d
  /-- The numbers of the samples have thirty bits. -/
  samples_lt : samples g<2^30
  /-- The samples end in memory. -/
  fits : datamat+4*samples g≤2^32

/-- Every address that is read is that of a sample, no two points read the same one, and each is
that of exactly one point. -/
def Addressed (memory : ℕ×ℕ → ℕ) (datamat : ℕ) : Prop :=
  (∀ p, Point g p → ∃ s, s < samples g ∧ sampleAddress g memory datamat p=datamat+4*s) ∧
    (∀ p q, Point g p → Point g q →
      sampleAddress g memory datamat p=sampleAddress g memory datamat q → p=q) ∧
    ∀ s, s < samples g → ∃! p, Point g p ∧ sampleAddress g memory datamat p=datamat+4*s

variable {g} {memory : ℕ×ℕ → ℕ} {datamat : ℕ} {p : ℕ×ℕ×ℕ}

/-- The table has a row pointer for every plane and column. -/
theorem dataTable_eq {i j : ℕ} (hi : i < g.size .z) (hj : j < g.size .x) :
    dataTable g memory datamat (i,j)=rowPointer g datamat i j := by
  have hmem : (i,j)∈List.range (g.size .z) ×ˢ List.range (g.size .x) :=
    List.mem_product.2 ⟨List.mem_range.2 hi,List.mem_range.2 hj⟩
  refine stores_map (k := (i,j)) hmem fun q _ hq => ?_
  rw [hq]

/-- The number of the sample that a point reads. -/
def sampleOf (g : Grid) (p : ℕ×ℕ×ℕ) : ℕ :=
  g.size .x*g.size .y*p.2.2+g.size .x*p.1+p.2.1

/-- The address of a point, in 32 bits. -/
theorem Loaded.sampleAddress_eq (h : Loaded g datamat) (hp : Point g p) :
    sampleAddress g memory datamat p=(datamat+4*sampleOf g p)%2^32 := by
  have hplane : g.size .x*g.size .y ≤ samples g := Nat.le_mul_of_pos_right _ (h.size_pos .z)
  have hlt := h.samples_lt
  unfold sampleAddress sampleOf
  rw [dataTable_eq hp.2.2 hp.1]
  unfold rowPointer
  rw [Nat.mod_eq_of_lt (a := g.size .x*g.size .y) (by omega)]
  omega

/-- The address of a point whose sample is in the file. -/
theorem Loaded.sampleAddress_inside (h : Loaded g datamat) (hp : Point g p)
    (hs : sampleOf g p < samples g) :
    sampleAddress g memory datamat p=datamat+4*sampleOf g p := by
  have hfits := h.fits
  rw [h.sampleAddress_eq hp]
  exact Nat.mod_eq_of_lt (by omega)

/-- With square planes, or with planes of one column, the sample of a point is its number. -/
theorem sampleOf_eq_number (hcond : g.size .x=g.size .y ∨ g.size .x=1) (hp : Point g p) :
    sampleOf g p=number (g.size .y) (g.size .x) (p.2.1,p.1,p.2.2) := by
  unfold sampleOf number
  rcases hcond with he|he
  · rw [he]
    ring
  · have hx := hp.1
    rw [he] at hx ⊢
    have hzero : p.1=0 := by omega
    rw [hzero]
    ring

/-- In planes that are longer than wide, two points read the same sample: the row of the second
column starts within the row of the first. -/
theorem Loaded.not_addressed_of_lt (h : Loaded g datamat) (hne : g.size .x≠1)
    (hlt : g.size .x < g.size .y) : ¬Addressed g memory datamat := by
  rintro ⟨-,hdistinct,-⟩
  have hx := h.size_pos .x
  have hp : Point g (0,g.size .x,0) := ⟨hx,hlt,h.size_pos .z⟩
  have hq : Point g (1,0,0) := ⟨by dsimp only; omega,h.size_pos .y,h.size_pos .z⟩
  have hsame : sampleOf g (0,g.size .x,0)=sampleOf g (1,0,0) := by
    unfold sampleOf
    ring
  have he := hdistinct _ _ hp hq (by rw [h.sampleAddress_eq hp,h.sampleAddress_eq hq,hsame])
  cases he

/-- In planes that are wider than long, a point reads behind the file: in the last plane, the row
of a column starts there. -/
theorem Loaded.not_addressed_of_gt (h : Loaded g datamat) (hgt : g.size .y < g.size .x) :
    ¬Addressed g memory datamat := by
  rintro ⟨hinside,-,-⟩
  have hz := h.size_pos .z
  have hp : Point g (g.size .y,0,g.size .z-1) := ⟨hgt,h.size_pos .y,by dsimp only; omega⟩
  have hend : sampleOf g (g.size .y,0,g.size .z-1)=samples g := by
    obtain ⟨planes,hplanes⟩ : ∃ planes, g.size .z=planes+1 := ⟨g.size .z-1,by omega⟩
    unfold sampleOf samples
    rw [hplanes,Nat.add_sub_cancel]
    ring
  obtain ⟨s,hs,he⟩ := hinside _ hp
  have hfits := h.fits
  have hlt := h.samples_lt
  rw [h.sampleAddress_eq hp,hend] at he
  omega

/-- With square planes, or with planes of one column, each sample belongs to one point, and no point
reads outside the file. -/
theorem Loaded.addressed (h : Loaded g datamat) (hcond : g.size .x=g.size .y ∨ g.size .x=1) :
    Addressed g memory datamat := by
  have hnumber : ∀ p, Point g p → sampleOf g p < samples g := fun p hp => by
    rw [sampleOf_eq_number hcond hp]
    refine (number_lt (p := (p.2.1,p.1,p.2.2)) hp.2.1 hp.1 hp.2.2).trans_le ?_
    rw [Nat.mul_comm (g.size .y)]
    rfl
  have haddress : ∀ p, Point g p → sampleAddress g memory datamat p=datamat+4*sampleOf g p :=
    fun p hp => h.sampleAddress_inside hp (hnumber p hp)
  have hdistinct : ∀ p q, Point g p → Point g q →
      sampleAddress g memory datamat p=sampleAddress g memory datamat q → p=q := by
    intro p q hp hq he
    rw [haddress p hp,haddress q hq,sampleOf_eq_number hcond hp,
      sampleOf_eq_number hcond hq] at he
    have hpoint := number_inj (p := (p.2.1,p.1,p.2.2)) (q := (q.2.1,q.1,q.2.2))
      ⟨hp.2.1,hp.1⟩ ⟨hq.2.1,hq.1⟩ (by omega)
    injection hpoint with hy hxz
    injection hxz with hx hz
    exact Prod.ext hx (Prod.ext hy hz)
  refine ⟨fun p hp => ⟨_,hnumber p hp,haddress p hp⟩,hdistinct,fun s hs => ?_⟩
  -- the point is found by counting through the grid
  obtain ⟨hpy,hpx,hnum⟩ := pos_spec (h.size_pos .y) (h.size_pos .x) s
  generalize pos (g.size .y) (g.size .x) s=q at hpy hpx hnum
  have hpz : q.2.2 < g.size .z := by
    refine @z_lt_of_number_lt (g.size .y) (g.size .x) _ q ?_
    rw [hnum,Nat.mul_comm (g.size .y)]
    exact hs
  have hp : Point g (q.2.1,q.1,q.2.2) := ⟨hpx,hpy,hpz⟩
  have haddr : sampleAddress g memory datamat (q.2.1,q.1,q.2.2)=datamat+4*s := by
    rw [haddress _ hp,sampleOf_eq_number hcond hp]
    exact congrArg (datamat+4*·) hnum
  exact ⟨_,⟨hp,haddr⟩,fun q hq => hdistinct q _ hq.1 hp (hq.2.trans haddr.symm)⟩

/-- For all grids with samples in memory, `fGridSample` reads each sample for exactly one point,
and nothing else, if and only if the planes are square or have one column. -/
theorem samples_addressed_iff (h : Loaded g datamat) :
    Addressed g memory datamat ↔ g.size .x=g.size .y ∨ g.size .x=1 := by
  constructor
  · intro haddressed
    by_contra hcond
    obtain ⟨hne,hone⟩ := not_or.1 hcond
    rcases Nat.lt_or_gt_of_ne hne with hlt|hgt
    · exact h.not_addressed_of_lt hone hlt haddressed
    · exact h.not_addressed_of_gt hgt haddressed
  · exact h.addressed

/-- A grid of `n` by two by two points. -/
def slab (n : ℕ) : Grid := ⟨fun d => if d=.x then n else 2,fun _ => 1⟩

/-- The samples of two by two by two points. -/
theorem samples_addressed_iff_two : Addressed (slab 2) (fun _ => 0) 0x100000 :=
  (samples_addressed_iff ⟨fun d => by cases d <;> decide,by decide,by decide⟩).2 (.inl rfl)

/-- Of three by two by two points, one reads behind the file. -/
theorem samples_three_beyond :
    Loaded (slab 3) 0x100000 ∧ ¬Addressed (slab 3) (fun _ => 0) 0x100000 := by
  have h : Loaded (slab 3) 0x100000 := ⟨fun d => by cases d <;> decide,by decide,by decide⟩
  exact ⟨h,h.not_addressed_of_gt (by decide)⟩

end Samples

end RigelTarget.MarchingCubes
