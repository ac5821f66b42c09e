import RigelTarget.DoubleBuffer
import Mathlib.Algebra.Order.Ring.Nat
import Mathlib.Data.List.ProdSigma
import Mathlib.Tactic.Ring

/-!
# The Game of Life example

The example program keeps two arrays of `R+2` rows and `C+2` columns, with a border of padding
around the board, and swaps them after each iteration. An iteration is a set of tasks, one for
each block of the board, executed in any order. The initialisation zeroes the border in two
loops that stop one row and one column early, so five cells of the border of either array keep
what the allocator returned. With these cells dead, the program computes Life on a board with
dead cells outside. On boards of at least two rows and columns it does so only then; on boards
of one row or one column, which die out from their ends, some of the cells may be alive.
-/

namespace RigelTarget.GameOfLife

open DoubleBuffer

/-- `R`, `C`, `BLOCK_SIZE_R` and `BLOCK_SIZE_C`, as `main` accepts them: the blocks divide the
board. -/
structure Shape where
  /-- `R`. -/
  rows : ℕ
  /-- `C`. -/
  cols : ℕ
  /-- `BLOCK_SIZE_R`. -/
  blockRows : ℕ
  /-- `BLOCK_SIZE_C`. -/
  blockCols : ℕ
  /-- There is a row. -/
  rows_pos : 0 < rows
  /-- There is a column. -/
  cols_pos : 0 < cols
  /-- `R % BLOCK_SIZE_R == 0`. -/
  rows_dvd : blockRows ∣ rows
  /-- `C % BLOCK_SIZE_C == 0`. -/
  cols_dvd : blockCols ∣ cols

/-- An array of `gol_cell_t`, from its first cell on, with one cell of frame on each side of the
board. -/
abbrev World := ℕ → ℤ

section Program

variable (g : Shape)

/-- `IDX(i, j)`: rows lie behind each other, and each has two cells of frame. The board is at rows
and columns from one on. -/
def idx (i j : ℕ) : ℕ := j+i*(g.cols+2)

/-- The loop that fills `WORLD_IN` with the initial board, from its second row and column on. The
board is given by rows and columns from zero on. -/
def boardStores (board : ℕ → ℕ → ℤ) : List (ℕ×ℤ) :=
  (List.range g.rows ×ˢ List.range g.cols).map fun p =>
    (idx g (p.1+1) (p.2+1),board p.1 p.2)

/-- The loops over the edges of one array: left and right edges, then top and bottom edges. They
stop before `R` and `C` where the frame goes on to `R+1` and `C+1`, and so miss five of its
cells. -/
def edgeStores : List (ℕ×ℤ) :=
  ((List.range g.rows).flatMap fun i => [(idx g i 0,0),(idx g i (g.cols+1),0)])++
    (List.range g.cols).flatMap fun j => [(idx g 0 j,0),(idx g (g.rows+1) j,0)]

/-- `WORLD_IN` after its initialisation; `memory` is what the allocator returned, and stays where no
loop writes. -/
def worldIn (memory : World) (board : ℕ → ℕ → ℤ) : World :=
  stores (stores memory (boardStores g board)) (edgeStores g)

/-- `WORLD_OUT` after its initialisation. Only its edges are zeroed: the cells of the board are
stored before anything reads them. -/
def worldOut (memory : World) : World := stores memory (edgeStores g)

/-- `rmin` of a task; `rmax` is `BLOCK_SIZE_R` more. Tasks are numbered along the rows of blocks,
and rows of the board start at one. -/
def rmin (tasknum : ℕ) : ℕ := tasknum/(g.cols/g.blockCols)*g.blockRows+1

/-- `cmin` of a task; `cmax` is `BLOCK_SIZE_C` more. Tasks in one column of blocks have the same
remainder. -/
def cmin (tasknum : ℕ) : ℕ := tasknum%(g.cols/g.blockCols)*g.blockCols+1

/-- One if a cell is not zero. The program counts every value but zero as a live cell. -/
def alive (world : World) (i j : ℕ) : ℕ := if world (idx g i j)≠0 then 1 else 0

/-- The sum over the neighbours of a cell. Every neighbour that is not zero counts one. -/
def around (f : ℕ → ℕ → ℕ) (i j : ℕ) : ℕ :=
  f (i-1) (j-1)+f (i-1) j+f (i-1) (j+1)+f i (j-1)+f i (j+1)+f (i+1) (j-1)+f (i+1) j+
    f (i+1) (j+1)

/-- The cell that `GOLTask` stores, by the neighbours and the cell itself in the array that it
reads. -/
def nextCell (world : World) (i j : ℕ) : ℤ :=
  let live := world (idx g i j)≠0
  let n := around (alive g world) i j
  if (live ∧ (n=2 ∨ n=3)) ∨ (¬live ∧ n=3) then 1 else 0

/-- The cells of a task, row by row: those of its block. -/
def taskCells (tasknum : ℕ) : List (ℕ×ℕ) :=
  List.range' (rmin g tasknum) g.blockRows ×ˢ List.range' (cmin g tasknum) g.blockCols

/-- The stores of `GOLTask`: all reads are from the other array, so their order does not matter. -/
def taskStores (inp : World) (tasknum : ℕ) : List (ℕ×ℤ) :=
  (taskCells g tasknum).map fun p => (idx g p.1 p.2,nextCell g inp p.1 p.2)

/-- `(R*C)/(BLOCK_SIZE_R*BLOCK_SIZE_C)`, the tasks that an iteration enqueues. Blocks divide the
board, so nothing is left over. -/
def numTasks : ℕ := g.rows*g.cols/(g.blockRows*g.blockCols)

/-- The tasks of one iteration in the given order, from one array into the other. The barrier before
the arrays are swapped keeps iterations apart. -/
def iteration (order : List ℕ) (inp out : World) : World :=
  stores out (order.flatMap (taskStores g inp))

/-- `GOLWorkerThread`: one iteration for each order, with the arrays swapped after it. The first
array of the result is the one that was written last. -/
def worker : List (List ℕ) → World×World → World×World
  | [], worlds => worlds
  | order::orders, (inp,out) => worker orders (iteration g order inp out,inp)

end Program

section Reference

variable (g : Shape)

/-- A cell of the board, counted from one as the program counts it; around these is the frame. -/
def OnBoard (i j : ℕ) : Prop := 1 ≤ i ∧ i≤g.rows ∧ 1≤j ∧ j≤g.cols

instance (i j : ℕ) : Decidable (OnBoard g i j) := inferInstanceAs (Decidable (_∧_))

/-- The rule of Life: a cell lives with three live neighbours, or with two if it was alive. -/
def rule (live : Bool) (n : ℕ) : Bool := n==3 || live && n==2

/-- One step of Life on the board, with dead cells outside. This is what the program is for, without
arrays and tasks. -/
def life (board : ℕ → ℕ → Bool) (i j : ℕ) : Bool :=
  decide (OnBoard g i j) && rule (board i j) (around (fun k l => (board k l).toNat) i j)

/-- The initial board as Life sees it: whatever is not zero lives, and nothing lives outside. -/
def start (board : ℕ → ℕ → ℤ) (i j : ℕ) : Bool :=
  decide (OnBoard g i j) && decide (board (i-1) (j-1)≠0)

/-- The program computes Life, for these contents of the memory of its two arrays: every initial
board, every number of iterations and every order of the tasks of each. -/
def ComputesLife (memIn memOut : World) : Prop :=
  ∀ (board : ℕ → ℕ → ℤ) (orders : List (List ℕ)),
    (∀ order, order∈orders → order.Perm (List.range (numTasks g))) →
    ∀ i j, OnBoard g i j →
      decide ((worker g orders (worldIn g memIn board,worldOut g memOut)).1 (idx g i j)≠0)=
        (life g)^[orders.length] (start g board) i j

/-- The cells of the border that no loop zeroes: the last row on both sides, the last column
above and below, and the last corner. -/
def unwritten : List (ℕ×ℕ) :=
  [(g.rows,0),(g.rows,g.cols+1),(0,g.cols),(g.rows+1,g.cols),(g.rows+1,g.cols+1)]

/-- The cells that no loop zeroes are dead in the memory of an array all the same, for example
because the allocator returned zeroed memory. -/
def BorderDead (memory : World) : Prop := ∀ p, p∈unwritten g → memory (idx g p.1 p.2)=0

/-- Place `p` along a board of one row or one column; the board is at `q=1`. Both kinds of board are
treated as one in this way. -/
def along {α : Type} (f : ℕ → ℕ → α) (p q : ℕ) : α := if g.rows=1 then f q p else f p q

/-- The length of a board of one row or one column, where one of the factors is one. -/
def length : ℕ := g.rows*g.cols

/-- The cell before the first cell of such a board, in the memory of an array. The loops stop before
they reach it. -/
def before (memory : World) : ℕ := along g (alive g memory) 0 1

/-- The cells on both sides of the last cell, which both are missed by the loops that stop early. -/
def sides (memory : World) : ℕ :=
  along g (alive g memory) (length g) 0+along g (alive g memory) (length g) 2

/-- The cell after the last cell, and the corner. These are the other two cells that the loops
miss. -/
def ends (memory : World) : ℕ :=
  along g (alive g memory) (length g+1) 1+along g (alive g memory) (length g+1) 2

/-- What the memory of both arrays may hold where no loop writes, for boards of one row or one
column: the second array shows such a board only after a step of Life, when its ends are dead. -/
structure ThinBorder (memIn memOut : World) : Prop where
  /-- A single cell must not find two or three neighbours, or three once it is dead. -/
  single : length g=1 → before g memIn+sides g memIn+ends g memIn≠2 ∧
    before g memIn+sides g memIn+ends g memIn≠3 ∧
    before g memOut+sides g memOut+ends g memOut≠3
  /-- The border of the first array is dead. -/
  first : 2≤length g → BorderDead g memIn
  /-- Two dead cells must not find three neighbours. -/
  two : length g=2 → before g memOut+sides g memOut≠3 ∧ sides g memOut+ends g memOut≠3
  /-- Three cells, of which the middle one may live. -/
  three : length g=3 → sides g memOut+ends g memOut≤1
  /-- More cells, of which all but the ends may live. -/
  more : 4≤length g → sides g memOut=0 ∧ ends g memOut≤1

/-- What the memory of both arrays may hold where no loop writes. On a board of at least two rows
and columns it must be dead there; on thinner boards some cells have no effect. -/
def BorderHarmless (memIn memOut : World) : Prop :=
  if 2≤g.rows ∧ 2≤g.cols then BorderDead g memIn ∧ BorderDead g memOut
  else ThinBorder g memIn memOut

end Reference

variable {g : Shape}

/-- Cells of different places are different cells. -/
theorem idx_inj {i j k l : ℕ} (hj : j≤g.cols+1) (hl : l≤g.cols+1) (h : idx g i j=idx g k l) :
    i=k ∧ j=l := by
  unfold idx at h
  have hpos : 0<g.cols+2 := Nat.succ_pos _
  have hi : (j+i*(g.cols+2))/(g.cols+2)=i := by
    rw [Nat.add_mul_div_right _ _ hpos,Nat.div_eq_of_lt (by omega),Nat.zero_add]
  have hk : (l+k*(g.cols+2))/(g.cols+2)=k := by
    rw [Nat.add_mul_div_right _ _ hpos,Nat.div_eq_of_lt (by omega),Nat.zero_add]
  have hik : i=k := by rw [←hi,h,hk]
  subst hik
  exact ⟨rfl,Nat.add_right_cancel h⟩

/-- Rows per block are positive. -/
theorem blockRows_pos : 0<g.blockRows := Nat.pos_of_dvd_of_pos g.rows_dvd g.rows_pos

/-- Columns per block are positive. -/
theorem blockCols_pos : 0<g.blockCols := Nat.pos_of_dvd_of_pos g.cols_dvd g.cols_pos

/-- Blocks in a row of blocks. -/
theorem tasksPerRow_pos : 0<g.cols/g.blockCols :=
  Nat.div_pos (Nat.le_of_dvd g.cols_pos g.cols_dvd) blockCols_pos

/-- The number of tasks is the number of blocks. -/
theorem numTasks_eq : numTasks g=g.rows/g.blockRows*(g.cols/g.blockCols) :=
  (Nat.div_mul_div_comm g.rows_dvd g.cols_dvd).symm

/-- The cells of a task. -/
theorem mem_taskCells {k i j : ℕ} : (i,j)∈taskCells g k ↔
    (rmin g k ≤ i ∧ i < rmin g k+g.blockRows) ∧ cmin g k≤j ∧ j < cmin g k+g.blockCols := by
  unfold taskCells
  rw [List.mem_product,List.mem_range'_1,List.mem_range'_1]

/-- The cells of the tasks are on the board. -/
theorem onBoard_of_task {k i j : ℕ} (hk : k<numTasks g) (h : (i,j)∈taskCells g k) :
    OnBoard g i j := by
  rw [mem_taskCells] at h
  obtain ⟨⟨hi,hi'⟩,hj,hj'⟩ := h
  unfold rmin at hi hi'
  unfold cmin at hj hj'
  rw [numTasks_eq] at hk
  have hrow : k/(g.cols/g.blockCols)+1≤g.rows/g.blockRows :=
    Nat.div_lt_of_lt_mul (by rw [Nat.mul_comm]; exact hk)
  have hcol : k%(g.cols/g.blockCols)+1≤g.cols/g.blockCols := Nat.mod_lt _ tasksPerRow_pos
  have hrows := Nat.mul_le_mul_right g.blockRows hrow
  have hcols := Nat.mul_le_mul_right g.blockCols hcol
  rw [Nat.div_mul_cancel g.rows_dvd,Nat.add_mul,Nat.one_mul] at hrows
  rw [Nat.div_mul_cancel g.cols_dvd,Nat.add_mul,Nat.one_mul] at hcols
  exact ⟨by omega,by omega,by omega,by omega⟩

/-- Every cell of the board belongs to a task, the one that the divisions of its coordinates
give. -/
theorem task_of_onBoard {i j : ℕ} (h : OnBoard g i j) :
    ∃ k, k<numTasks g ∧ (i,j)∈taskCells g k := by
  obtain ⟨hi,hi',hj,hj'⟩ := h
  have hrow : (i-1)/g.blockRows<g.rows/g.blockRows :=
    Nat.div_lt_div_of_lt_of_dvd g.rows_dvd (by omega)
  have hcol : (j-1)/g.blockCols<g.cols/g.blockCols :=
    Nat.div_lt_div_of_lt_of_dvd g.cols_dvd (by omega)
  have hdiv : ((g.cols/g.blockCols)*((i-1)/g.blockRows)+(j-1)/g.blockCols)/
      (g.cols/g.blockCols)=(i-1)/g.blockRows := by
    rw [Nat.mul_add_div tasksPerRow_pos,Nat.div_eq_of_lt hcol,Nat.add_zero]
  have hmod : ((g.cols/g.blockCols)*((i-1)/g.blockRows)+(j-1)/g.blockCols)%
      (g.cols/g.blockCols)=(j-1)/g.blockCols := by
    rw [Nat.mul_add_mod,Nat.mod_eq_of_lt hcol]
  refine ⟨(g.cols/g.blockCols)*((i-1)/g.blockRows)+(j-1)/g.blockCols,?_,?_⟩
  · rw [numTasks_eq,Nat.mul_comm (g.rows/g.blockRows)]
    calc (g.cols/g.blockCols)*((i-1)/g.blockRows)+(j-1)/g.blockCols
        < (g.cols/g.blockCols)*((i-1)/g.blockRows)+g.cols/g.blockCols := by omega
      _ = (g.cols/g.blockCols)*((i-1)/g.blockRows+1) := by ring
      _ ≤ (g.cols/g.blockCols)*(g.rows/g.blockRows) := Nat.mul_le_mul_left _ hrow
  · have hr := Nat.div_add_mod' (i-1) g.blockRows
    have hr' := Nat.mod_lt (i-1) (blockRows_pos (g := g))
    have hc := Nat.div_add_mod' (j-1) g.blockCols
    have hc' := Nat.mod_lt (j-1) (blockCols_pos (g := g))
    rw [mem_taskCells]
    unfold rmin cmin
    rw [hdiv,hmod]
    exact ⟨⟨by omega,by omega⟩,by omega,by omega⟩

/-- A store of an iteration is that of a cell of the board. -/
theorem mem_iterationStores {order : List ℕ} (horder : order.Perm (List.range (numTasks g)))
    {inp : World} {w : ℕ×ℤ} : w∈order.flatMap (taskStores g inp) ↔
      ∃ i j, OnBoard g i j ∧ w=(idx g i j,nextCell g inp i j) := by
  rw [List.mem_flatMap]
  constructor
  · rintro ⟨k,hk,hw⟩
    obtain ⟨⟨i,j⟩,hcell,rfl⟩ := List.mem_map.1 hw
    have hlt := List.mem_range.1 (horder.mem_iff.1 hk)
    exact ⟨i,j,onBoard_of_task hlt hcell,rfl⟩
  · rintro ⟨i,j,hin,rfl⟩
    obtain ⟨k,hk,hcell⟩ := task_of_onBoard hin
    exact ⟨k,horder.mem_iff.2 (List.mem_range.2 hk),List.mem_map.2 ⟨(i,j),hcell,rfl⟩⟩

/-- An iteration stores the next state of every cell of the board, whatever the order. -/
theorem iteration_board {order : List ℕ} (horder : order.Perm (List.range (numTasks g)))
    (inp out : World) {i j : ℕ} (h : OnBoard g i j) :
    iteration g order inp out (idx g i j)=nextCell g inp i j := by
  refine stores_value ⟨(idx g i j,_),(mem_iterationStores horder).2 ⟨i,j,h,rfl⟩,rfl⟩ ?_
  intro w hw he
  obtain ⟨k,l,hkl,rfl⟩ := (mem_iterationStores horder).1 hw
  obtain ⟨-,-,-,hj⟩ := h
  have hl := hkl.2.2.2
  obtain ⟨rfl,rfl⟩ := idx_inj (by omega) (by omega) he
  rfl

/-- An iteration leaves the border alone. -/
theorem iteration_border {order : List ℕ} (horder : order.Perm (List.range (numTasks g)))
    (inp out : World) {i j : ℕ} (hj : j≤g.cols+1) (h : ¬OnBoard g i j) :
    iteration g order inp out (idx g i j)=out (idx g i j) := by
  refine stores_keep fun w hw he => ?_
  obtain ⟨k,l,hkl,rfl⟩ := (mem_iterationStores horder).1 hw
  have hl := hkl.2.2.2
  obtain ⟨rfl,rfl⟩ := idx_inj (by omega) hj he
  exact h hkl

/-- Whether a cell is alive, as a number and as a truth value. -/
theorem alive_eq_iff (world : World) (i j : ℕ) (b : Bool) :
    alive g world i j=b.toNat ↔ decide (world (idx g i j)≠0)=b := by
  unfold alive
  by_cases h : world (idx g i j)=0 <;> cases b <;> simp [h]

/-- A dead cell. -/
theorem alive_zero {world : World} {i j : ℕ} : alive g world i j=0 ↔ world (idx g i j)=0 := by
  unfold alive
  by_cases h : world (idx g i j)=0
  · simp [h]
  · simp [h]

/-- A cell counts at most once. -/
theorem alive_le_one (world : World) (i j : ℕ) : alive g world i j≤1 := by
  unfold alive
  split
  · exact le_rfl
  · exact Nat.zero_le 1

/-- The rule of the task is the rule of Life. -/
theorem nextCell_ne_zero (world : World) (i j : ℕ) : decide (nextCell g world i j≠0)=
    rule (decide (world (idx g i j)≠0)) (around (alive g world) i j) := by
  unfold nextCell rule
  dsimp only
  generalize around (alive g world) i j=n
  by_cases hlive : world (idx g i j)=0
  · by_cases h3 : n=3
    · simp [hlive,h3]
    · simp [hlive,h3]
  · by_cases h3 : n=3
    · simp [hlive,h3]
    · by_cases h2 : n=2
      · simp [hlive,h2]
      · simp [hlive,h2,h3]

/-- The neighbours of a cell of the board are in the frame. -/
theorem around_congr {f f' : ℕ → ℕ → ℕ} {i j : ℕ} (hin : OnBoard g i j)
    (h : ∀ k l, k≤g.rows+1 → l≤g.cols+1 → f k l=f' k l) : around f i j=around f' i j := by
  obtain ⟨hi,hi',hj,hj'⟩ := hin
  unfold around
  rw [h (i-1) (j-1) (by omega) (by omega),h (i-1) j (by omega) (by omega),
    h (i-1) (j+1) (by omega) (by omega),h i (j-1) (by omega) (by omega),
    h i (j+1) (by omega) (by omega),h (i+1) (j-1) (by omega) (by omega),
    h (i+1) j (by omega) (by omega),h (i+1) (j+1) (by omega) (by omega)]

/-- The stores of the initial board. -/
theorem mem_boardStores {board : ℕ → ℕ → ℤ} {w : ℕ×ℤ} : w∈boardStores g board ↔
    ∃ i j, OnBoard g i j ∧ w=(idx g i j,board (i-1) (j-1)) := by
  unfold boardStores
  constructor
  · intro hw
    obtain ⟨⟨i,j⟩,hp,rfl⟩ := List.mem_map.1 hw
    rw [List.mem_product,List.mem_range,List.mem_range] at hp
    obtain ⟨hi,hj⟩ := hp
    exact ⟨i+1,j+1,⟨by omega,hi,by omega,hj⟩,rfl⟩
  · rintro ⟨i,j,⟨hi,hi',hj,hj'⟩,rfl⟩
    refine List.mem_map.2 ⟨(i-1,j-1),?_,?_⟩
    · rw [List.mem_product,List.mem_range,List.mem_range]
      exact ⟨by show i-1<g.rows; omega,by show j-1<g.cols; omega⟩
    · show (idx g (i-1+1) (j-1+1),board (i-1) (j-1))=_
      rw [Nat.sub_add_cancel hi,Nat.sub_add_cancel hj]

/-- A cell of the border that the loops over the edges zero. It is written as the loops have it,
with rows below `R` and columns below `C`. -/
def Edge (g : Shape) (i j : ℕ) : Prop :=
  i<g.rows ∧ (j=0 ∨ j=g.cols+1) ∨ j<g.cols ∧ (i=0 ∨ i=g.rows+1)

/-- The stores of the edges. -/
theorem mem_edgeStores {w : ℕ×ℤ} : w∈edgeStores g ↔ ∃ i j, Edge g i j ∧ w=(idx g i j,0) := by
  unfold edgeStores
  rw [List.mem_append,List.mem_flatMap,List.mem_flatMap]
  constructor
  · rintro (⟨i,hi,hw⟩|⟨j,hj,hw⟩)
    · rw [List.mem_range] at hi
      rcases List.mem_cons.1 hw with rfl|hw
      · exact ⟨i,0,.inl ⟨hi,.inl rfl⟩,rfl⟩
      · exact ⟨i,g.cols+1,.inl ⟨hi,.inr rfl⟩,List.mem_singleton.1 hw⟩
    · rw [List.mem_range] at hj
      rcases List.mem_cons.1 hw with rfl|hw
      · exact ⟨0,j,.inr ⟨hj,.inl rfl⟩,rfl⟩
      · exact ⟨g.rows+1,j,.inr ⟨hj,.inr rfl⟩,List.mem_singleton.1 hw⟩
  · rintro ⟨i,j,⟨hi,rfl|rfl⟩|⟨hj,rfl|rfl⟩,rfl⟩
    · exact .inl ⟨i,List.mem_range.2 hi,List.mem_cons_self⟩
    · exact .inl ⟨i,List.mem_range.2 hi,List.mem_cons_of_mem _ List.mem_cons_self⟩
    · exact .inr ⟨j,List.mem_range.2 hj,List.mem_cons_self⟩
    · exact .inr ⟨j,List.mem_range.2 hj,List.mem_cons_of_mem _ List.mem_cons_self⟩

/-- The columns of the edges. -/
theorem Edge.col_le {i j : ℕ} (h : Edge g i j) : j≤g.cols+1 := by
  rcases h with ⟨-,hj⟩|⟨hj,-⟩
  · omega
  · omega

/-- The loops over the edges zero the edges. -/
theorem edge_zero (a : World) {i j : ℕ} (h : Edge g i j) :
    stores a (edgeStores g) (idx g i j)=0 := by
  refine stores_value ⟨(idx g i j,0),mem_edgeStores.2 ⟨i,j,h,rfl⟩,rfl⟩ ?_
  intro w hw _
  obtain ⟨k,l,-,rfl⟩ := mem_edgeStores.1 hw
  rfl

/-- The loops over the edges leave everything else alone. -/
theorem edge_keep (a : World) {i j : ℕ} (hj : j≤g.cols+1) (h : ¬Edge g i j) :
    stores a (edgeStores g) (idx g i j)=a (idx g i j) := by
  refine stores_keep fun w hw he => ?_
  obtain ⟨k,l,hkl,rfl⟩ := mem_edgeStores.1 hw
  obtain ⟨rfl,rfl⟩ := idx_inj hkl.col_le hj he
  exact h hkl

/-- No cell of the board is on an edge. -/
theorem not_edge_of_onBoard {i j : ℕ} (h : OnBoard g i j) : ¬Edge g i j := by
  obtain ⟨hi,hi',hj,hj'⟩ := h
  rintro (⟨-,he⟩|⟨-,he⟩)
  · omega
  · omega

/-- The cells that no loop zeroes are on no edge and not on the board. -/
theorem unwritten_spec {i j : ℕ} (h : (i,j)∈unwritten g) :
    j≤g.cols+1 ∧ ¬Edge g i j ∧ ¬OnBoard g i j := by
  have hrows := g.rows_pos
  have hcols := g.cols_pos
  unfold unwritten at h
  simp only [List.mem_cons,Prod.mk.injEq,List.not_mem_nil,or_false] at h
  unfold Edge OnBoard
  omega

/-- The border is made of the edges and the cells that no loop zeroes. -/
theorem edge_or_unwritten {i j : ℕ} (hi : i≤g.rows+1) (hj : j≤g.cols+1)
    (h : ¬OnBoard g i j) : Edge g i j ∨ (i,j)∈unwritten g := by
  unfold OnBoard at h
  unfold Edge unwritten
  simp only [List.mem_cons,Prod.mk.injEq,List.not_mem_nil,or_false]
  omega

/-- The initial board is in the first array. -/
theorem worldIn_board (memory : World) (board : ℕ → ℕ → ℤ) {i j : ℕ} (h : OnBoard g i j) :
    worldIn g memory board (idx g i j)=board (i-1) (j-1) := by
  have hj : j≤g.cols+1 := h.2.2.2.trans (Nat.le_succ _)
  unfold worldIn
  rw [edge_keep _ hj (not_edge_of_onBoard h)]
  refine stores_value ⟨_,mem_boardStores.2 ⟨i,j,h,rfl⟩,rfl⟩ ?_
  intro w hw he
  obtain ⟨k,l,hkl,rfl⟩ := mem_boardStores.1 hw
  obtain ⟨rfl,rfl⟩ := idx_inj (hkl.2.2.2.trans (Nat.le_succ _)) hj he
  rfl

/-- The borders of both arrays are initialised in the same way. -/
theorem worldIn_border (memory : World) (board : ℕ → ℕ → ℤ) {i j : ℕ} (hj : j≤g.cols+1)
    (h : ¬OnBoard g i j) :
    worldIn g memory board (idx g i j)=worldOut g memory (idx g i j) := by
  unfold worldIn worldOut
  by_cases hedge : Edge g i j
  · rw [edge_zero _ hedge,edge_zero _ hedge]
  · rw [edge_keep _ hj hedge,edge_keep _ hj hedge]
    refine stores_keep fun w hw he => ?_
    obtain ⟨k,l,hkl,rfl⟩ := mem_boardStores.1 hw
    obtain ⟨rfl,rfl⟩ := idx_inj (hkl.2.2.2.trans (Nat.le_succ _)) hj he
    exact h hkl

/-- The cells that no loop zeroes keep what the allocator returned. -/
theorem worldOut_unwritten (memory : World) {i j : ℕ} (h : (i,j)∈unwritten g) :
    worldOut g memory (idx g i j)=memory (idx g i j) := by
  obtain ⟨hj,hedge,-⟩ := unwritten_spec h
  exact edge_keep _ hj hedge

section Frame

/-- A board in the frame of an array: around it is what the initialisation leaves of the memory. -/
def framed (g : Shape) (memory : World) (board : ℕ → ℕ → Bool) (i j : ℕ) : ℕ :=
  if OnBoard g i j then (board i j).toNat else alive g (worldOut g memory) i j

/-- An array shows a board in its frame: its cells are those of the board, up to the value of a live
cell. -/
def Shows (g : Shape) (memory world : World) (board : ℕ → ℕ → Bool) : Prop :=
  ∀ i j, i≤g.rows+1 → j≤g.cols+1 → alive g world i j=framed g memory board i j

/-- The frame of an array is as the initialisation leaves it. The tasks write on the board only, so
it stays that way. -/
def Around (g : Shape) (memory world : World) : Prop :=
  ∀ i j, j≤g.cols+1 → ¬OnBoard g i j →
    world (idx g i j)=worldOut g memory (idx g i j)

/-- The frame does not disturb the next step of a board. It may hold live cells that have no effect
on it. -/
def Undisturbed (g : Shape) (memory : World) (board : ℕ → ℕ → Bool) : Prop :=
  ∀ i j, OnBoard g i j → rule (board i j) (around (framed g memory board) i j)=life g board i j

variable {memory memIn memOut world inp out : World} {board : ℕ → ℕ → Bool}

/-- What an iteration stores in a cell of the board. -/
theorem Shows.nextCell {i j : ℕ} (h : Shows g memory world board) (hin : OnBoard g i j) :
    decide (GameOfLife.nextCell g world i j≠0)=
      rule (board i j) (around (framed g memory board) i j) := by
  have hcell := h i j (hin.2.1.trans (Nat.le_succ _)) (hin.2.2.2.trans (Nat.le_succ _))
  rw [framed,if_pos hin] at hcell
  rw [nextCell_ne_zero,(alive_eq_iff world i j _).1 hcell,around_congr hin h]

/-- An iteration keeps the frame of the array that it writes. -/
theorem Around.iteration {order : List ℕ} (horder : order.Perm (List.range (numTasks g)))
    (h : Around g memory out) : Around g memory (GameOfLife.iteration g order inp out) := by
  intro i j hj hin
  rw [iteration_border horder inp out hj hin]
  exact h i j hj hin

/-- One iteration on an undisturbed board is one step of Life. -/
theorem Shows.iteration {order : List ℕ} (horder : order.Perm (List.range (numTasks g)))
    (h : Shows g memIn inp board) (hout : Around g memOut out)
    (hboard : Undisturbed g memIn board) :
    Shows g memOut (GameOfLife.iteration g order inp out) (life g board) := by
  intro i j hi hj
  by_cases hin : OnBoard g i j
  · rw [framed,if_pos hin,alive_eq_iff,iteration_board horder inp out hin,h.nextCell hin]
    exact hboard i j hin
  · rw [framed,if_neg hin,alive,alive,hout.iteration horder i j hj hin]

/-- The array written last shows the board after as many steps of Life as iterations, if the
frames of the arrays disturb none of the boards they see. -/
theorem worker_shows {orders : List (List ℕ)}
    (horders : ∀ order, order∈orders → order.Perm (List.range (numTasks g)))
    (h : Shows g memIn inp board) (hinp : Around g memIn inp) (hout : Around g memOut out)
    (heven : ∀ n, Undisturbed g memIn ((life g)^[2*n] board))
    (hodd : ∀ n, Undisturbed g memOut ((life g)^[2*n+1] board)) :
    ∃ memory, Shows g memory (worker g orders (inp,out)).1 ((life g)^[orders.length] board) := by
  induction orders generalizing inp out board memIn memOut with
  | nil => exact ⟨memIn,h⟩
  | cons order orders ih =>
    have horder := horders order List.mem_cons_self
    exact ih (fun o ho => horders o (List.mem_cons_of_mem order ho))
      (h.iteration horder hout (heven 0)) (hout.iteration horder) hinp hodd fun n => heven (n+1)

/-- The initialisation leaves the frame of the first array. -/
theorem worldIn_around (memory : World) (board : ℕ → ℕ → ℤ) :
    Around g memory (worldIn g memory board) := fun _ _ => worldIn_border memory board

/-- The initialisation leaves the frame of the second array. -/
theorem worldOut_around (memory : World) : Around g memory (worldOut g memory) :=
  fun _ _ _ _ => rfl

/-- The first array shows the initial board. -/
theorem worldIn_shows (memory : World) (board : ℕ → ℕ → ℤ) :
    Shows g memory (worldIn g memory board) (start g board) := by
  intro i j hi hj
  by_cases hin : OnBoard g i j
  · rw [framed,if_pos hin,alive_eq_iff,worldIn_board memory board hin,start,decide_eq_true hin,
      Bool.true_and]
  · rw [framed,if_neg hin,alive,alive,worldIn_border memory board hj hin]

/-- Boards that have live cells on the board only, as every board has after a step of Life. -/
def Inside (g : Shape) (board : ℕ → ℕ → Bool) : Prop :=
  ∀ i j, ¬OnBoard g i j → board i j=false

/-- The initial board that Life sees as a given board. It shows that every board occurs as a first
one. -/
def initialOf (board : ℕ → ℕ → Bool) (i j : ℕ) : ℤ := (board (i+1) (j+1)).toNat

/-- Boards that are inside are initial boards. -/
theorem Inside.start_eq (h : Inside g board) : start g (initialOf board)=board := by
  funext i j
  unfold start initialOf
  by_cases hin : OnBoard g i j
  · rw [decide_eq_true hin,Bool.true_and,Nat.sub_add_cancel hin.1,Nat.sub_add_cancel hin.2.2.1]
    cases board i j <;> rfl
  · rw [decide_eq_false hin,Bool.false_and,h i j hin]

/-- Initial boards are inside. -/
theorem inside_start (board : ℕ → ℕ → ℤ) : Inside g (start g board) := by
  intro i j hin
  rw [start,decide_eq_false hin,Bool.false_and]

/-- A step of Life stays inside. -/
theorem inside_life (board : ℕ → ℕ → Bool) : Inside g (life g board) := by
  intro i j hin
  rw [life,decide_eq_false hin,Bool.false_and]

/-- Boards after any number of steps of Life are inside. -/
theorem Inside.iterate (h : Inside g board) (n : ℕ) : Inside g ((life g)^[n] board) := by
  cases n with
  | zero => exact h
  | succ n =>
    rw [Function.iterate_succ_apply']
    exact inside_life _

/-- The program computes Life exactly when the frame of the first array disturbs no board and
that of the second array no board that is a step of Life. -/
theorem computesLife_iff : ComputesLife g memIn memOut ↔
    (∀ board, Inside g board → Undisturbed g memIn board) ∧
      ∀ board, Inside g board → Undisturbed g memOut (life g board) := by
  constructor
  · intro h
    have hone : ∀ board, Inside g board → Undisturbed g memIn board := by
      intro board hinside i j hin
      have hrun := h (initialOf board) [List.range (numTasks g)]
        (fun order ho => by rw [List.mem_singleton.1 ho]) i j hin
      have hshows := worldIn_shows (g := g) memIn (initialOf board)
      rw [hinside.start_eq] at hshows hrun
      rw [←hshows.nextCell hin,←iteration_board (List.Perm.refl _) _ (worldOut g memOut) hin]
      exact hrun
    refine ⟨hone,fun board hinside i j hin => ?_⟩
    have hrun := h (initialOf board) [List.range (numTasks g),List.range (numTasks g)]
      (fun order ho => by rw [List.eq_of_mem_replicate (n := 2) ho]) i j hin
    have hshows := worldIn_shows (g := g) memIn (initialOf board)
    rw [hinside.start_eq] at hshows hrun
    have hnext := hshows.iteration (List.Perm.refl _) (worldOut_around memOut)
      (hone board hinside)
    rw [←hnext.nextCell hin,←iteration_board (List.Perm.refl _) _ _ hin]
    exact hrun
  · rintro ⟨hin,hout⟩ board orders horders i j hij
    have hinside := inside_start (g := g) board
    obtain ⟨memory,h⟩ := worker_shows horders (worldIn_shows memIn board)
      (worldIn_around memIn board) (worldOut_around memOut)
      (fun n => hin _ (hinside.iterate (2*n))) fun n => by
        rw [Function.iterate_succ_apply']
        exact hout _ (hinside.iterate (2*n))
    have hcell := h i j (hij.2.1.trans (Nat.le_succ _)) (hij.2.2.2.trans (Nat.le_succ _))
    rw [framed,if_pos hij] at hcell
    exact (alive_eq_iff _ i j _).1 hcell

/-- A dead frame disturbs no board. -/
theorem BorderDead.undisturbed (h : BorderDead g memory) (hinside : Inside g board) :
    Undisturbed g memory board := by
  intro i j hin
  rw [life,decide_eq_true hin,Bool.true_and]
  congr 1
  refine around_congr hin fun k l hk hl => ?_
  by_cases hkl : OnBoard g k l
  · exact if_pos hkl
  · rw [framed,if_neg hkl,hinside k l hkl]
    refine alive_zero.2 ?_
    rcases edge_or_unwritten hk hl hkl with hedge|hun
    · exact edge_zero _ hedge
    · rw [worldOut_unwritten memory hun]
      exact h (k,l) hun

end Frame

section Wide

/-- The two cells from `r` on, along a line. Lines of this form make up the boards that show a live
border cell. -/
def pair (r i : ℕ) : Bool := decide (i=r ∨ i=r+1)

/-- A square of two by two live cells, the product of two such pairs. Life leaves it as it is. -/
def square (r c i j : ℕ) : Bool := pair (r+1) i && pair (c+1) j

/-- What three neighbouring cells of a pair look like. -/
def windows : List (Bool×Bool×Bool) :=
  [(false,false,true),(false,true,true),(true,true,false),(true,false,false),(false,false,false)]

/-- Three neighbouring cells of a pair. -/
theorem pair_window (r i : ℕ) : (pair (r+1) i,pair (r+1) (i+1),pair (r+1) (i+1+1))∈windows := by
  have htrue : ∀ {k}, (k=r+1 ∨ k=r+1+1) → pair (r+1) k=true := decide_eq_true
  have hfalse : ∀ {k}, ¬(k=r+1 ∨ k=r+1+1) → pair (r+1) k=false := decide_eq_false
  have hcases : i+2=r+1 ∨ i+1=r+1 ∨ i=r+1 ∨ i=r+2 ∨ r+2 < i ∨ i+2 < r+1 := by omega
  rcases hcases with h|h|h|h|h|h
  · rw [hfalse (by omega),hfalse (by omega),htrue (by omega)]
    decide
  · rw [hfalse (by omega),htrue (by omega),htrue (by omega)]
    decide
  · rw [htrue (by omega),htrue (by omega),hfalse (by omega)]
    decide
  · rw [htrue (by omega),hfalse (by omega),hfalse (by omega)]
    decide
  · rw [hfalse (by omega),hfalse (by omega),hfalse (by omega)]
    decide
  · rw [hfalse (by omega),hfalse (by omega),hfalse (by omega)]
    decide

/-- The rule of Life keeps a cell of a product of two pairs. -/
theorem windows_rule : ∀ v, v∈windows → ∀ w, w∈windows →
    rule (v.2.1&&w.2.1) ((v.1&&w.1).toNat+(v.1&&w.2.1).toNat+(v.1&&w.2.2).toNat+
      (v.2.1&&w.1).toNat+(v.2.1&&w.2.2).toNat+(v.2.2&&w.1).toNat+(v.2.2&&w.2.1).toNat+
      (v.2.2&&w.2.2).toNat)=(v.2.1&&w.2.1) := by
  decide

variable {r c : ℕ} {memory : World}

/-- A square on the board. -/
theorem inside_square (hr : r+2≤g.rows) (hc : c+2≤g.cols) : Inside g (square r c) := by
  intro i j hin
  unfold OnBoard at hin
  unfold square pair
  rw [←Bool.decide_and]
  exact decide_eq_false (by omega)

/-- A square of two by two cells is a still life. -/
theorem life_square (hr : r+2≤g.rows) (hc : c+2≤g.cols) : life g (square r c)=square r c := by
  funext i j
  by_cases hin : OnBoard g i j
  · unfold life
    rw [decide_eq_true hin,Bool.true_and]
    obtain ⟨hi,-,hj,-⟩ := hin
    obtain ⟨i,rfl⟩ := Nat.exists_eq_add_of_le' hi
    obtain ⟨j,rfl⟩ := Nat.exists_eq_add_of_le' hj
    have hrule := windows_rule _ (pair_window r i) _ (pair_window c j)
    dsimp only at hrule
    unfold around square
    simp only [Nat.add_sub_cancel]
    exact hrule
  · rw [inside_square hr hc i j hin,life,decide_eq_false hin,Bool.false_and]

/-- A live cell of a square that the frame does not disturb has no more than three live
neighbours in the frame. -/
theorem Undisturbed.square_le (h : Undisturbed g memory (square r c)) (hr : r+2≤g.rows)
    (hc : c+2≤g.cols) {i j : ℕ} (hi : i=r+1 ∨ i=r+2) (hj : j=c+1 ∨ j=c+2) :
    framed g memory (square r c) i j=1 ∧ around (framed g memory (square r c)) i j≤3 := by
  have hin : OnBoard g i j := ⟨by omega,by omega,by omega,by omega⟩
  have hlive : square r c i j=true := by
    unfold square pair
    rw [decide_eq_true hi,decide_eq_true hj]
    rfl
  have hrule := h i j hin
  rw [life_square hr hc,hlive] at hrule
  refine ⟨by rw [framed,if_pos hin,hlive]; rfl,?_⟩
  unfold rule at hrule
  by_contra hlt
  have h3 : (around (framed g memory (square r c)) i j==3)=false :=
    beq_eq_false_iff_ne.2 (by omega)
  have h2 : (around (framed g memory (square r c)) i j==2)=false :=
    beq_eq_false_iff_ne.2 (by omega)
  rw [h3,h2,Bool.and_false] at hrule
  cases hrule

/-- A cell of such a square has no live neighbours outside of it. -/
theorem Undisturbed.dead_outside (h : Undisturbed g memory (square r c)) (hr : r+2≤g.rows)
    (hc : c+2≤g.cols) {i j k l : ℕ} (hi : i=r+1 ∨ i=r+2) (hj : j=c+1 ∨ j=c+2)
    (hk : k=i-1 ∨ k=i ∨ k=i+1) (hl : l=j-1 ∨ l=j ∨ l=j+1)
    (hout : ¬((k=r+1 ∨ k=r+2) ∧ (l=c+1 ∨ l=c+2))) : framed g memory (square r c) k l=0 := by
  have h11 := (h.square_le hr hc (.inl rfl) (.inl rfl)).1
  have h12 := (h.square_le hr hc (.inl rfl) (.inr rfl)).1
  have h21 := (h.square_le hr hc (.inr rfl) (.inl rfl)).1
  have h22 := (h.square_le hr hc (.inr rfl) (.inr rfl)).1
  have hn := (h.square_le hr hc hi hj).2
  unfold around at hn
  -- the three other cells of the square are the three neighbours that the rule allows
  rcases hi with rfl|rfl <;> rcases hj with rfl|rfl <;>
    rcases hk with rfl|rfl|rfl <;> rcases hl with rfl|rfl|rfl <;>
    simp only [Nat.add_succ_sub_one,Nat.add_zero,Nat.add_assoc,Nat.reduceAdd,true_or,or_true,
      and_self,not_true_eq_false] at hn hout ⊢ <;>
    omega

/-- A frame that disturbs no square in a corner is dead: a live cell at the corner would keep a
third neighbour alive. -/
theorem borderDead_of_squares (hrows : 2≤g.rows) (hcols : 2≤g.cols)
    (h : ∀ r c, r+2≤g.rows → c+2≤g.cols → Undisturbed g memory (square r c)) :
    BorderDead g memory := by
  rintro ⟨k,l⟩ hp
  -- the square in the corner next to the cell
  have hcorner : ∃ r c, framed g memory (square r c) k l=0 := by
    have hlast := h (g.rows-2) (g.cols-2) (by omega) (by omega)
    have hp' := hp
    unfold unwritten at hp'
    simp only [List.mem_cons,Prod.mk.injEq,List.not_mem_nil,or_false] at hp'
    rcases hp' with ⟨rfl,rfl⟩|⟨rfl,rfl⟩|⟨rfl,rfl⟩|⟨rfl,rfl⟩|⟨rfl,rfl⟩
    · refine ⟨g.rows-2,0,?_⟩
      exact (h (g.rows-2) 0 (by omega) (by omega)).dead_outside (i := g.rows) (j := 1)
        (by omega) (by omega) (by omega) (by omega) (by omega) (by omega) (by omega)
    · refine ⟨g.rows-2,g.cols-2,?_⟩
      exact hlast.dead_outside (i := g.rows) (j := g.cols)
        (by omega) (by omega) (by omega) (by omega) (by omega) (by omega) (by omega)
    · refine ⟨0,g.cols-2,?_⟩
      exact (h 0 (g.cols-2) (by omega) (by omega)).dead_outside (i := 1) (j := g.cols)
        (by omega) (by omega) (by omega) (by omega) (by omega) (by omega) (by omega)
    · refine ⟨g.rows-2,g.cols-2,?_⟩
      exact hlast.dead_outside (i := g.rows) (j := g.cols)
        (by omega) (by omega) (by omega) (by omega) (by omega) (by omega) (by omega)
    · refine ⟨g.rows-2,g.cols-2,?_⟩
      exact hlast.dead_outside (i := g.rows) (j := g.cols)
        (by omega) (by omega) (by omega) (by omega) (by omega) (by omega) (by omega)
  obtain ⟨r,c,hdead⟩ := hcorner
  rw [framed,if_neg (unwritten_spec hp).2.2] at hdead
  rw [←worldOut_unwritten memory hp]
  exact alive_zero.1 hdead

/-- On boards of at least two rows and columns. -/
theorem computesLife_wide (hrows : 2≤g.rows) (hcols : 2≤g.cols) {memIn memOut : World} :
    ComputesLife g memIn memOut ↔ BorderDead g memIn ∧ BorderDead g memOut := by
  rw [computesLife_iff]
  constructor
  · rintro ⟨hin,hout⟩
    refine ⟨borderDead_of_squares hrows hcols fun r c hr hc => hin _ (inside_square hr hc),
      borderDead_of_squares hrows hcols fun r c hr hc => ?_⟩
    have h := hout _ (inside_square hr hc)
    rw [life_square hr hc] at h
    exact h
  · rintro ⟨hin,hout⟩
    exact ⟨fun _ hinside => hin.undisturbed hinside,
      fun board _ => hout.undisturbed (inside_life board)⟩

end Wide

/-- The rule for a cell with two neighbours. -/
theorem rule_pair : ∀ q u v : Bool, rule q (u.toNat+v.toNat)=(q && (u && v)) := by
  decide

/-- A dead cell needs three neighbours. -/
theorem rule_dead (n : ℕ) : rule false n=decide (n=3) := by
  unfold rule
  rw [Bool.false_and,Bool.or_false]
  rfl

/-- A live cell needs two or three. -/
theorem rule_live (n : ℕ) : rule true n=decide (n=2 ∨ n=3) := by
  unfold rule
  rw [Bool.true_and,Bool.or_comm,Bool.decide_or]
  rfl

section Line

variable (n b s e : ℕ) (x : ℕ → Bool)

/-- The sum over the neighbours of a cell of a board of one row, with the cells around the board as
the program finds them. -/
def lineCount (p : ℕ) : ℕ :=
  (if p=1 then b else (x (p-1)).toNat)+(if p=n then e else (x (p+1)).toNat)+
    if n≤p+1 then s else 0

/-- A step of Life on a board of one row, where a cell has its two neighbours in the row only. -/
def lineLife (p : ℕ) : Bool := x p && ((decide (1<p) && x (p-1)) && (decide (p<n) && x (p+1)))

/-- The cells around the board do not disturb the next step: every cell of the board becomes what it
becomes with dead cells around it. -/
def LineUndisturbed : Prop :=
  ∀ p, 1≤p → p≤n → rule (x p) (lineCount n b s e x p)=lineLife n x p

variable {n b s e x}

/-- The first cell dies. -/
theorem lineLife_first {p : ℕ} (hp : p≤1) : lineLife n x p=false := by
  unfold lineLife
  rw [decide_eq_false (by omega : ¬1<p),Bool.false_and,Bool.false_and,Bool.and_false]

/-- The last cell dies. -/
theorem lineLife_last {p : ℕ} (hp : n≤p) : lineLife n x p=false := by
  unfold lineLife
  rw [decide_eq_false (by omega : ¬p<n),Bool.false_and,Bool.and_false,Bool.and_false]

/-- A cell with a dead neighbour dies. -/
theorem lineLife_next {p : ℕ} (h : x (p+1)=false) : lineLife n x p=false := by
  rw [lineLife,h,Bool.and_false,Bool.and_false,Bool.and_false]

/-- Where no cell around the board is alive, only the two neighbours count. -/
theorem rule_inner {p : ℕ} (hb : p=1 → b=0) (he : p=n → e=0) (hs : n≤p+1 → s=0) (hp : 1≤p)
    (hn : p≤n) : rule (x p) (lineCount n b s e x p)=lineLife n x p := by
  have hbefore : (if p=1 then b else (x (p-1)).toNat)=(decide (1<p) && x (p-1)).toNat := by
    by_cases h : p=1
    · rw [if_pos h,hb h,decide_eq_false (by omega),Bool.false_and]
      rfl
    · rw [if_neg h,decide_eq_true (by omega : 1<p),Bool.true_and]
  have hafter : (if p=n then e else (x (p+1)).toNat)=(decide (p<n) && x (p+1)).toNat := by
    by_cases h : p=n
    · rw [if_pos h,he h,decide_eq_false (by omega),Bool.false_and]
      rfl
    · rw [if_neg h,decide_eq_true (by omega : p<n),Bool.true_and]
  have hside : (if n≤p+1 then s else 0)=0 := by
    split
    · rename_i h
      exact hs h
    · rfl
  rw [lineCount,hbefore,hafter,hside,Nat.add_zero,rule_pair]
  rfl

/-- A dead cell with other than three live neighbours stays dead. -/
theorem rule_of_dead {p : ℕ} (hdead : x p=false) (hn : lineCount n b s e x p≠3) :
    rule (x p) (lineCount n b s e x p)=lineLife n x p := by
  rw [hdead,rule_dead,decide_eq_false hn,lineLife,hdead,Bool.false_and]

/-- A cell that Life kills must not find three neighbours, nor two if it was alive. -/
theorem LineUndisturbed.dies (h : LineUndisturbed n b s e x) {p : ℕ} (hp : 1≤p) (hn : p≤n)
    (hlife : lineLife n x p=false) :
    lineCount n b s e x p≠3 ∧ (x p=true → lineCount n b s e x p≠2) := by
  have hrule := h p hp hn
  rw [hlife] at hrule
  cases hx : x p with
  | false =>
    rw [hx,rule_dead,decide_eq_false_iff_not] at hrule
    exact ⟨hrule,fun hlive => Bool.noConfusion hlive⟩
  | true =>
    rw [hx,rule_live,decide_eq_false_iff_not] at hrule
    exact ⟨fun h3 => hrule (.inr h3),fun _ h2 => hrule (.inl h2)⟩

/-- The neighbours of the first cell. -/
theorem lineCount_first (hn : 2≤n) :
    lineCount n b s e x 1=b+(x 2).toNat+if n=2 then s else 0 := by
  have hside : (if n≤1+1 then s else 0)=if n=2 then s else 0 := if_congr (by omega) rfl rfl
  rw [lineCount,if_pos rfl,if_neg (by omega),hside]

/-- The neighbours of the last cell. -/
theorem lineCount_last (hn : 2≤n) : lineCount n b s e x n=(x (n-1)).toNat+e+s := by
  rw [lineCount,if_neg (by omega),if_pos rfl,if_pos (by omega)]

/-- The neighbours of the cell before the last. -/
theorem lineCount_inner (hn : 3≤n) :
    lineCount n b s e x (n-1)=(x (n-2)).toNat+(x n).toNat+s := by
  have hprev : n-1-1=n-2 := by omega
  have hnext : n-1+1=n := by omega
  rw [lineCount,if_neg (by omega),if_neg (by omega),if_pos (by omega),hprev,hnext]

/-- A board on which the cells from `a` to `c` live. These are the boards of one row that decide
which cells around them may live. -/
def band (a c p : ℕ) : Bool := decide (a≤p ∧ p ≤ c)

/-- A live cell of a band. -/
theorem band_true {a c p : ℕ} (h : a≤p ∧ p ≤ c) : band a c p=true := decide_eq_true h

/-- A dead cell of a band. -/
theorem band_false {a c p : ℕ} (h : ¬(a≤p ∧ p ≤ c)) : band a c p=false := decide_eq_false h

/-- Which cells around a board disturb no board at all. The proof tries lines of live cells, one of
which makes the difference. -/
theorem lineUndisturbed_all (hb : b≤1) (hs : s≤2) (he : e≤2) :
    (∀ x, LineUndisturbed n b s e x) ↔
      (n=1 → b+s+e≠2 ∧ b+s+e≠3) ∧ (2≤n → b=0 ∧ s=0 ∧ e=0) := by
  constructor
  · intro h
    refine ⟨?_,fun hn => ?_⟩
    · rintro rfl
      have hone := (h (band 1 1)).dies le_rfl le_rfl (lineLife_first le_rfl)
      have htwo := hone.2 (band_true (by omega))
      have hcount : lineCount 1 b s e (band 1 1) 1=b+e+s := rfl
      omega
    · -- the last cell alone, and with a neighbour
      have halone := (h (band n n)).dies (by omega) le_rfl (lineLife_last le_rfl)
      have halone2 := halone.2 (band_true (by omega))
      have hpair := (h (band (n-1) n)).dies (by omega) le_rfl (lineLife_last le_rfl)
      have hpair2 := hpair.2 (band_true (by omega))
      rw [lineCount_last hn,band_false (by omega),Bool.toNat_false] at halone halone2
      rw [lineCount_last hn,band_true (by omega),Bool.toNat_true] at hpair hpair2
      -- the cell before the last one
      have hinner : s≠2 := by
        rintro rfl
        have hcell := (h (band (n-1) (n-1))).dies (by omega) (by omega : n-1≤n)
          (lineLife_next (band_false (by omega)))
        have hcell2 := hcell.2 (band_true (by omega))
        by_cases h2 : n=2
        · subst h2
          rw [lineCount_first le_rfl,band_false (by omega),Bool.toNat_false,if_pos rfl]
            at hcell hcell2
          omega
        · rw [lineCount_inner (by omega),band_false (by omega),band_false (by omega),
            Bool.toNat_false] at hcell hcell2
          omega
      have hfirst := (h (band 1 2)).dies le_rfl (by omega) (lineLife_first le_rfl)
      have hfirst2 := hfirst.2 (band_true (by omega))
      rw [lineCount_first hn,band_true (by omega),Bool.toNat_true] at hfirst2
      have hs0 : s=0 := by omega
      rw [hs0,ite_self] at hfirst2
      omega
  · rintro ⟨hone,hmore⟩ x p hp hn
    by_cases h1 : n=1
    · have hpn : p=1 := by omega
      subst hpn h1
      have hcount : lineCount 1 b s e x 1=b+e+s := rfl
      have hsum := hone rfl
      rw [hcount,lineLife_first le_rfl,rule,beq_eq_false_iff_ne.2 (by omega),
        beq_eq_false_iff_ne.2 (by omega),Bool.and_false,Bool.or_false]
    · obtain ⟨rfl,rfl,rfl⟩ := hmore (by omega)
      exact rule_inner (fun _ => rfl) (fun _ => rfl) (fun _ => rfl) hp hn

/-- A step of Life on a band up to the end of the board. -/
theorem lineLife_band {a : ℕ} (ha : 1≤a) (p : ℕ) :
    lineLife n (band a n) p=decide (a<p ∧ p<n) := by
  unfold lineLife band
  rw [←Bool.decide_and,←Bool.decide_and,←Bool.decide_and,←Bool.decide_and,decide_eq_decide]
  omega

/-- Which cells around a board disturb no board that is a step of Life. Only these boards matter
from the second iteration on. -/
theorem lineUndisturbed_life (hb : b≤1) (hs : s≤2) (he : e≤2) :
    (∀ x, LineUndisturbed n b s e (lineLife n x)) ↔
      (n=1 → b+s+e≠3) ∧ (n=2 → b+s≠3 ∧ s+e≠3) ∧ (n=3 → s+e≤1) ∧ (4≤n → s=0 ∧ e≤1) := by
  constructor
  · intro h
    refine ⟨?_,?_,?_,fun hn => ?_⟩
    · rintro rfl
      have hone := ((h (band 1 1)).dies le_rfl le_rfl (lineLife_first le_rfl)).1
      have hcount : lineCount 1 b s e (lineLife 1 (band 1 1)) 1=b+e+s := rfl
      omega
    · rintro rfl
      have hfirst := ((h (band 1 2)).dies le_rfl (by omega) (lineLife_first le_rfl)).1
      have hlast := ((h (band 1 2)).dies (by omega) le_rfl (lineLife_last le_rfl)).1
      rw [lineCount_first le_rfl,lineLife_last le_rfl,Bool.toNat_false,if_pos rfl] at hfirst
      rw [lineCount_last le_rfl,lineLife_first le_rfl,Bool.toNat_false] at hlast
      omega
    · rintro rfl
      have hempty := ((h (band 3 3)).dies (by omega) le_rfl (lineLife_last le_rfl)).1
      have hlast := ((h (band 1 3)).dies (by omega) le_rfl (lineLife_last le_rfl)).1
      rw [lineCount_last (by omega),lineLife_band (by omega),decide_eq_false (by omega),
        Bool.toNat_false] at hempty
      rw [lineCount_last (by omega),lineLife_band (by omega),decide_eq_true (by omega),
        Bool.toNat_true] at hlast
      have hinner := (h (band 1 3)).dies (by omega) (by omega : 3-1≤3)
        (lineLife_next (lineLife_last le_rfl))
      have hinner2 := hinner.2 (by rw [lineLife_band (by omega)]; rfl)
      rw [lineCount_inner le_rfl,lineLife_first le_rfl,lineLife_last le_rfl,Bool.toNat_false]
        at hinner2
      omega
    · -- the cell before the last one, alone and with a neighbour
      have halone := (h (band (n-2) n)).dies (by omega) (by omega : n-1≤n)
        (lineLife_next (lineLife_last (by omega)))
      have halone2 := halone.2 (by rw [lineLife_band (by omega)]; exact decide_eq_true (by omega))
      have hpair := (h (band (n-3) n)).dies (by omega) (by omega : n-1≤n)
        (lineLife_next (lineLife_last (by omega)))
      have hpair2 := hpair.2 (by rw [lineLife_band (by omega)]; exact decide_eq_true (by omega))
      have hlast := ((h (band (n-2) n)).dies (by omega) le_rfl (lineLife_last le_rfl)).1
      rw [lineCount_inner (by omega),lineLife_last le_rfl,lineLife_band (by omega),
        decide_eq_false (by omega),Bool.toNat_false] at halone2
      rw [lineCount_inner (by omega),lineLife_last le_rfl,lineLife_band (by omega),
        decide_eq_true (by omega),Bool.toNat_false,Bool.toNat_true] at hpair2
      rw [lineCount_last (by omega),lineLife_band (by omega),decide_eq_true (by omega),
        Bool.toNat_true] at hlast
      omega
  · rintro ⟨hone,htwo,hthree,hmore⟩ x p hp hn
    have hlive : ∀ q, (lineLife n x q).toNat≤1 := fun q => Bool.toNat_le _
    by_cases hp1 : p=1
    · subst hp1
      refine rule_of_dead (lineLife_first le_rfl) ?_
      by_cases h1 : n=1
      · subst h1
        have hcount : lineCount 1 b s e (lineLife 1 x) 1=b+e+s := rfl
        omega
      · rw [lineCount_first (by omega)]
        have h2 := hlive 2
        by_cases h2n : n=2
        · rw [if_pos h2n,lineLife_last (by omega : n≤2),Bool.toNat_false]
          omega
        · rw [if_neg h2n]
          omega
    · by_cases hpn : p=n
      · subst hpn
        refine rule_of_dead (lineLife_last le_rfl) ?_
        rw [lineCount_last (by omega)]
        have hprev := hlive (p-1)
        by_cases h2 : p=2
        · rw [lineLife_first (by omega : p-1≤1),Bool.toNat_false]
          omega
        · by_cases h3 : p=3
          · have hsum := hthree h3
            omega
          · have hsum := hmore (by omega)
            omega
      · by_cases h3 : n=3
        · -- the middle one of three cells
          have hp2 : p=3-1 := by omega
          subst h3 hp2
          have hsum := hthree rfl
          rw [lineCount_inner le_rfl,lineLife_first le_rfl,lineLife_last le_rfl,Bool.toNat_false,
            lineLife_next (lineLife_last le_rfl),rule,beq_eq_false_iff_ne.2 (by omega),
            beq_eq_false_iff_ne.2 (by omega),Bool.and_false,Bool.or_false]
        · exact rule_inner (fun h => absurd h hp1) (fun h => absurd h hpn)
            (fun _ => (hmore (by omega)).1) hp hn

/-- The count depends on the board only. -/
theorem lineCount_congr {x' : ℕ → Bool} (h : ∀ p, 1≤p → p≤n → x p=x' p) {p : ℕ} (hp : 1≤p)
    (hn : p≤n) : lineCount n b s e x p=lineCount n b s e x' p := by
  unfold lineCount
  congr 2
  · by_cases h1 : p=1
    · rw [if_pos h1,if_pos h1]
    · rw [if_neg h1,if_neg h1,h (p-1) (by omega) (by omega)]
  · by_cases h1 : p=n
    · rw [if_pos h1,if_pos h1]
    · rw [if_neg h1,if_neg h1,h (p+1) (by omega) (by omega)]

/-- So does a step of Life. -/
theorem lineLife_congr {x' : ℕ → Bool} (h : ∀ p, 1≤p → p≤n → x p=x' p) {p : ℕ} (hp : 1≤p)
    (hn : p≤n) : lineLife n x p=lineLife n x' p := by
  by_cases h1 : p=1
  · rw [lineLife_first (by omega),lineLife_first (by omega)]
  · by_cases h2 : p=n
    · rw [lineLife_last (by omega),lineLife_last (by omega)]
    · unfold lineLife
      rw [h p hp hn,h (p-1) (by omega) (by omega),h (p+1) (by omega) (by omega)]

/-- Boards that agree are disturbed alike. -/
theorem LineUndisturbed.congr {x' : ℕ → Bool} (hx : LineUndisturbed n b s e x)
    (h : ∀ p, 1≤p → p≤n → x p=x' p) : LineUndisturbed n b s e x' := by
  intro p hp hn
  rw [←h p hp hn,←lineCount_congr h hp hn,←lineLife_congr h hp hn]
  exact hx p hp hn

end Line

section Thin

variable {memory : World} {board : ℕ → ℕ → Bool}

/-- A board of one row or one column. Life kills it from its ends, so less of the border matters. -/
def Thin (g : Shape) : Prop := g.rows=1 ∨ g.cols=1

/-- Boards that are not wide are thin. -/
theorem thin_of_not_wide (h : ¬(2≤g.rows ∧ 2≤g.cols)) : Thin g := by
  have hrows := g.rows_pos
  have hcols := g.cols_pos
  unfold Thin
  omega

/-- The two ways a thin board lies, and what is along it. -/
theorem Thin.cases (h : Thin g) : (g.rows=1 ∧ length g=g.cols ∧ ∀ {α : Type} (f : ℕ → ℕ → α) p q,
      along g f p q=f q p) ∨
    (g.cols=1 ∧ length g=g.rows ∧ ∀ {α : Type} (f : ℕ → ℕ → α) p q, along g f p q=f p q) := by
  unfold length along
  by_cases hrow : g.rows=1
  · exact .inl ⟨hrow,by rw [hrow,Nat.one_mul],fun f p q => if_pos hrow⟩
  · have hcol := h.resolve_left hrow
    exact .inr ⟨hcol,by rw [hcol,Nat.mul_one],fun f p q => if_neg hrow⟩

/-- The cells of a thin board. -/
theorem Thin.forall_onBoard (h : Thin g) {P : ℕ → ℕ → Prop} : (∀ i j, OnBoard g i j → P i j) ↔
    ∀ p, 1≤p → p≤length g → along g P p 1 := by
  unfold OnBoard
  obtain ⟨hrow,hlen,halong⟩|⟨hcol,hlen,halong⟩ := h.cases
  · constructor
    · intro hP p hp hn
      rw [halong]
      exact hP 1 p ⟨le_rfl,by omega,hp,by omega⟩
    · rintro hP i j ⟨hi,hi',hj,hj'⟩
      have hi1 : i=1 := by omega
      subst hi1
      have hcell := hP j hj (by omega)
      rw [halong] at hcell
      exact hcell
  · constructor
    · intro hP p hp hn
      rw [halong]
      exact hP p 1 ⟨hp,by omega,le_rfl,by omega⟩
    · rintro hP i j ⟨hi,hi',hj,hj'⟩
      have hj1 : j=1 := by omega
      subst hj1
      have hcell := hP i hi (by omega)
      rw [halong] at hcell
      exact hcell

/-- The neighbours of a cell along a thin board. -/
theorem Thin.around_along (h : Thin g) (f : ℕ → ℕ → ℕ) (p : ℕ) : along g (around f) p 1=
    along g f (p-1) 1+along g f (p+1) 1+
      (along g f (p-1) 0+along g f p 0+along g f (p+1) 0)+
      (along g f (p-1) 2+along g f p 2+along g f (p+1) 2) := by
  obtain ⟨-,-,halong⟩|⟨-,-,halong⟩ := h.cases
  · simp only [halong,around,Nat.sub_self,Nat.reduceAdd]
    omega
  · simp only [halong,around,Nat.sub_self,Nat.reduceAdd]
    omega

/-- A cell of the board in its frame. -/
theorem framed_board {i j : ℕ} (h : OnBoard g i j) : framed g memory board i j=(board i j).toNat :=
  if_pos h

/-- A cell of the frame that is zeroed. -/
theorem framed_edge {i j : ℕ} (h : Edge g i j) : framed g memory board i j=0 := by
  rw [framed,if_neg fun hin => not_edge_of_onBoard hin h]
  exact alive_zero.2 (edge_zero _ h)

/-- A cell of the frame that is not. -/
theorem framed_unwritten {i j : ℕ} (h : (i,j)∈unwritten g) :
    framed g memory board i j=alive g memory i j := by
  rw [framed,if_neg (unwritten_spec h).2.2,alive,worldOut_unwritten memory h]
  rfl

/-- The places of the cells that no loop zeroes, along a thin board. -/
theorem Thin.unwritten (h : Thin g) :
    along g (fun i j => (i,j)∈GameOfLife.unwritten g) 0 1 ∧
    along g (fun i j => (i,j)∈GameOfLife.unwritten g) (length g) 0 ∧
    along g (fun i j => (i,j)∈GameOfLife.unwritten g) (length g) 2 ∧
    along g (fun i j => (i,j)∈GameOfLife.unwritten g) (length g+1) 1 ∧
    along g (fun i j => (i,j)∈GameOfLife.unwritten g) (length g+1) 2 := by
  unfold GameOfLife.unwritten
  simp only [List.mem_cons,Prod.mk.injEq,List.not_mem_nil,or_false]
  obtain ⟨hrow,hlen,halong⟩|⟨hcol,hlen,halong⟩ := h.cases
  · simp only [halong,and_true,true_and]
    omega
  · simp only [halong,and_true,true_and]
    omega

/-- The other places around a thin board are zeroed. -/
theorem Thin.edge (h : Thin g) {p q : ℕ} (hp : p≤length g+1)
    (hq : q=0 ∧ p≠length g ∨ q=2 ∧ p<length g) : along g (Edge g) p q := by
  unfold Edge
  obtain ⟨hrow,hlen,halong⟩|⟨hcol,hlen,halong⟩ := h.cases
  · rw [halong]
    omega
  · rw [halong]
    omega

/-- Two functions that agree on a kind of cells agree on such a cell along a board. -/
theorem along_eq {α : Type} {P : ℕ → ℕ → Prop} {f f' : ℕ → ℕ → α}
    (h : ∀ {i j}, P i j → f i j=f' i j) {p q : ℕ} (hp : along g P p q) :
    along g f p q=along g f' p q := by
  unfold along at hp ⊢
  by_cases hrow : g.rows=1
  · rw [if_pos hrow] at hp
    rw [if_pos hrow,if_pos hrow]
    exact h hp
  · rw [if_neg hrow] at hp
    rw [if_neg hrow,if_neg hrow]
    exact h hp

/-- Along a board, a function of a cell is that function of the cell along it. -/
theorem along_comp {α β : Type} (u : α → β) (f : ℕ → ℕ → α) (p q : ℕ) :
    along g (fun i j => u (f i j)) p q=u (along g f p q) := by
  unfold along
  split
  · rfl
  · rfl

/-- The same with two functions. -/
theorem along_comp₂ {α β γ : Type} (u : α → β → γ) (f : ℕ → ℕ → α) (f' : ℕ → ℕ → β) (p q : ℕ) :
    along g (fun i j => u (f i j) (f' i j)) p q=u (along g f p q) (along g f' p q) := by
  unfold along
  split
  · rfl
  · rfl

/-- A cell of a thin board. -/
theorem Thin.onBoard (h : Thin g) {p : ℕ} (hp : 1≤p) (hn : p≤length g) :
    along g (OnBoard g) p 1 :=
  h.forall_onBoard.1 (fun _ _ hin => hin) p hp hn

/-- The frame of a thin board in its own row or column. -/
theorem Thin.framed_middle (h : Thin g) {p : ℕ} (hp : p≤length g+1) :
    along g (framed g memory board) p 1=if p=0 then before g memory
      else if p=length g+1 then along g (alive g memory) (length g+1) 1
      else (along g board p 1).toNat := by
  obtain ⟨hfirst,-,-,hlast,-⟩ := h.unwritten
  by_cases h0 : p=0
  · rw [if_pos h0,h0]
    exact along_eq framed_unwritten hfirst
  · by_cases hn : p=length g+1
    · rw [if_neg h0,if_pos hn,hn]
      exact along_eq framed_unwritten hlast
    · rw [if_neg h0,if_neg hn,along_eq framed_board (h.onBoard (by omega) (by omega))]
      exact along_comp Bool.toNat board p 1

/-- The frame on one side of a thin board. -/
theorem Thin.framed_side (h : Thin g) {p : ℕ} (hp : p≤length g+1) :
    along g (framed g memory board) p 0=
      if p=length g then along g (alive g memory) (length g) 0 else 0 := by
  obtain ⟨-,hside,-,-,-⟩ := h.unwritten
  by_cases hn : p=length g
  · rw [if_pos hn,hn]
    exact along_eq framed_unwritten hside
  · rw [if_neg hn,along_eq framed_edge (h.edge hp (.inl ⟨rfl,hn⟩))]
    exact along_comp (fun _ => 0) board p 0

/-- The frame on the other side. -/
theorem Thin.framed_corner (h : Thin g) {p : ℕ} (hp : p≤length g+1) :
    along g (framed g memory board) p 2=
      if p=length g then along g (alive g memory) (length g) 2
      else if p=length g+1 then along g (alive g memory) (length g+1) 2 else 0 := by
  obtain ⟨-,-,hside,-,hcorner⟩ := h.unwritten
  by_cases hn : p=length g
  · rw [if_pos hn,hn]
    exact along_eq framed_unwritten hside
  · by_cases hn' : p=length g+1
    · rw [if_neg hn,if_pos hn',hn']
      exact along_eq framed_unwritten hcorner
    · rw [if_neg hn,if_neg hn',along_eq framed_edge (h.edge hp (.inr ⟨rfl,by omega⟩))]
      exact along_comp (fun _ => 0) board p 2

/-- The neighbours of a cell of a thin board in its frame. -/
theorem Thin.around_framed (h : Thin g) {p : ℕ} (hp : 1≤p) (hn : p≤length g) :
    along g (around (framed g memory board)) p 1=lineCount (length g) (before g memory)
      (sides g memory) (ends g memory) (fun p => along g board p 1) p := by
  rw [h.around_along,h.framed_middle (by omega),h.framed_middle (by omega),
    h.framed_side (by omega),h.framed_side (by omega),h.framed_side (by omega),
    h.framed_corner (by omega),h.framed_corner (by omega),h.framed_corner (by omega)]
  unfold lineCount sides ends
  generalize length g=n at *
  have hfirst : p-1=0 ↔ p=1 := by omega
  have hlast : p+1=n+1 ↔ p=n := by omega
  rw [if_congr hfirst rfl rfl,if_neg (by omega : p-1≠n+1),if_neg (by omega : p+1≠0),
    if_congr hlast rfl rfl,if_neg (by omega : p-1≠n),if_neg (by omega : p-1≠n),
    if_neg (by omega : p-1≠n+1),if_neg (by omega : p≠n+1),if_congr hlast rfl rfl]
  dsimp only
  split_ifs <;> omega

/-- The rule on a thin board in its frame. -/
theorem Thin.rule_along (h : Thin g) {p : ℕ} (hp : 1≤p) (hn : p≤length g) :
    along g (fun i j => rule (board i j) (around (framed g memory board) i j)) p 1=
      rule (along g board p 1) (lineCount (length g) (before g memory) (sides g memory)
        (ends g memory) (fun p => along g board p 1) p) := by
  rw [←h.around_framed hp hn]
  exact along_comp₂ rule board (around (framed g memory board)) p 1

/-- The frame of a thin board is dead when no cell of it is counted. -/
theorem Thin.borderDead_iff (h : Thin g) : BorderDead g memory ↔
    before g memory=0 ∧ sides g memory=0 ∧ ends g memory=0 := by
  unfold BorderDead GameOfLife.unwritten before sides ends
  simp only [List.forall_mem_cons,List.not_mem_nil,false_imp_iff,forall_const,and_true,
    ←alive_zero]
  obtain ⟨hrow,hlen,halong⟩|⟨hcol,hlen,halong⟩ := h.cases
  · simp only [halong,hlen,hrow,Nat.reduceAdd]
    omega
  · simp only [halong,hlen,hcol,Nat.reduceAdd]
    omega

/-- A step of Life on a thin board. -/
theorem Thin.life (h : Thin g) (hinside : Inside g board) {p : ℕ} (hp : 1≤p) (hn : p≤length g) :
    along g (GameOfLife.life g board) p 1=lineLife (length g) (fun p => along g board p 1) p := by
  -- an empty frame disturbs nothing
  have hempty : BorderDead g fun _ => 0 := fun _ _ => rfl
  obtain ⟨hbefore,hsides,hends⟩ := h.borderDead_iff.1 hempty
  rw [←along_eq (fun hin => hempty.undisturbed hinside _ _ hin) (h.onBoard hp hn),
    h.rule_along hp hn,hbefore,hsides,hends]
  exact rule_inner (fun _ => rfl) (fun _ => rfl) (fun _ => rfl) hp hn

/-- A thin board is undisturbed by its frame when the line of its cells is. -/
theorem Thin.undisturbed_iff (h : Thin g) (hinside : Inside g board) :
    Undisturbed g memory board ↔ LineUndisturbed (length g) (before g memory) (sides g memory)
      (ends g memory) fun p => along g board p 1 := by
  unfold Undisturbed LineUndisturbed
  rw [h.forall_onBoard]
  refine forall_congr' fun p => forall_congr' fun hp => forall_congr' fun hn => ?_
  rw [←h.life hinside hp hn,←h.rule_along hp hn]
  exact iff_of_eq (along_comp₂ (·=·) _ (GameOfLife.life g board) p 1)

/-- The board with a given line of cells. -/
def ofLine (g : Shape) (x : ℕ → Bool) (i j : ℕ) : Bool :=
  decide (OnBoard g i j) && x (if g.rows=1 then j else i)

/-- It is inside. -/
theorem inside_ofLine (x : ℕ → Bool) : Inside g (ofLine g x) := by
  intro i j hin
  rw [ofLine,decide_eq_false hin,Bool.false_and]

/-- Its cells are those of the line. -/
theorem Thin.ofLine (h : Thin g) (x : ℕ → Bool) {p : ℕ} (hp : 1≤p) (hn : p≤length g) :
    along g (GameOfLife.ofLine g x) p 1=x p := by
  have hin := h.onBoard hp hn
  unfold along at hin ⊢
  unfold GameOfLife.ofLine
  by_cases hrow : g.rows=1
  · rw [if_pos hrow] at hin ⊢
    rw [if_pos hrow,decide_eq_true hin,Bool.true_and]
  · rw [if_neg hrow] at hin ⊢
    rw [if_neg hrow,decide_eq_true hin,Bool.true_and]

/-- The frame disturbs no thin board when it disturbs no line. -/
theorem Thin.undisturbed_all (h : Thin g) : (∀ board, Inside g board → Undisturbed g memory board) ↔
    ∀ x, LineUndisturbed (length g) (before g memory) (sides g memory) (ends g memory) x := by
  constructor
  · intro hall x
    exact ((h.undisturbed_iff (inside_ofLine x)).1 (hall _ (inside_ofLine x))).congr
      fun p hp hn => h.ofLine x hp hn
  · intro hall board hinside
    exact (h.undisturbed_iff hinside).2 (hall _)

/-- The same after a step of Life. -/
theorem Thin.undisturbed_life (h : Thin g) :
    (∀ board, Inside g board → Undisturbed g memory (GameOfLife.life g board)) ↔
    ∀ x, LineUndisturbed (length g) (before g memory) (sides g memory) (ends g memory)
      (lineLife (length g) x) := by
  constructor
  · intro hall x
    refine ((h.undisturbed_iff (inside_life _)).1 (hall _ (inside_ofLine x))).congr
      fun p hp hn => ?_
    rw [h.life (inside_ofLine x) hp hn]
    exact lineLife_congr (fun q hq hq' => h.ofLine x hq hq') hp hn
  · intro hall board hinside
    refine (h.undisturbed_iff (inside_life board)).2 ((hall fun p => along g board p 1).congr ?_)
    exact fun p hp hn => (h.life hinside hp hn).symm

/-- What the cells around a thin board count. -/
theorem counts_le (memory : World) :
    before g memory≤1 ∧ sides g memory≤2 ∧ ends g memory≤2 := by
  have hle : ∀ p q, along g (alive g memory) p q≤1 := by
    intro p q
    unfold along
    split
    · exact alive_le_one memory q p
    · exact alive_le_one memory p q
  have h0 := hle (length g) 0
  have h2 := hle (length g) 2
  have h1' := hle (length g+1) 1
  have h2' := hle (length g+1) 2
  refine ⟨hle 0 1,?_,?_⟩
  · unfold sides
    omega
  · unfold ends
    omega

/-- On boards of one row or one column. -/
theorem computesLife_thin (h : Thin g) {memIn memOut : World} :
    ComputesLife g memIn memOut ↔ ThinBorder g memIn memOut := by
  obtain ⟨hb,hs,he⟩ := counts_le (g := g) memIn
  obtain ⟨hb',hs',he'⟩ := counts_le (g := g) memOut
  rw [computesLife_iff,h.undisturbed_all,h.undisturbed_life,lineUndisturbed_all hb hs he,
    lineUndisturbed_life hb' hs' he',←h.borderDead_iff]
  constructor
  · rintro ⟨⟨hone,hdead⟩,hone',htwo,hthree,hmore⟩
    exact ⟨fun h1 => ⟨(hone h1).1,(hone h1).2,hone' h1⟩,hdead,htwo,hthree,hmore⟩
  · rintro ⟨hone,hdead,htwo,hthree,hmore⟩
    exact ⟨⟨fun h1 => ⟨(hone h1).1,(hone h1).2.1⟩,hdead⟩,fun h1 => (hone h1).2.2,htwo,hthree,hmore⟩

end Thin

/-- The program computes Life for every initial board, number of iterations and order of tasks
exactly when the cells of the border that no loop zeroes are harmless: on boards of at least two
rows and columns, dead in the memory of both arrays. -/
theorem gameOfLife_iff_borderHarmless (g : Shape) (memIn memOut : World) :
    ComputesLife g memIn memOut ↔ BorderHarmless g memIn memOut := by
  unfold BorderHarmless
  by_cases hwide : 2≤g.rows ∧ 2≤g.cols
  · rw [if_pos hwide]
    exact computesLife_wide hwide.1 hwide.2
  · rw [if_neg hwide]
    exact computesLife_thin (thin_of_not_wide hwide)

/-- A board of two rows and two columns with one task. All five cells that are not zeroed lie around
it. -/
def twoByTwo : Shape where
  rows := 2
  cols := 2
  blockRows := 2
  blockCols := 2
  rows_pos := Nat.two_pos
  cols_pos := Nat.two_pos
  rows_dvd := Nat.dvd_refl 2
  cols_dvd := Nat.dvd_refl 2

/-- With memory that is not zero, an empty board gets a live cell in its last corner, after one
iteration. -/
theorem live_cell_on_empty_board : ¬ComputesLife twoByTwo (fun _ => 1) fun _ => 1 := by
  intro h
  have hcell := h (fun _ _ => 0) [[0]] (by decide) 2 2 (by decide)
  exact absurd hcell (by decide +kernel)

end RigelTarget.GameOfLife
