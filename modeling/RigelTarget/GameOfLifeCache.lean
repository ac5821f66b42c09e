import RigelTarget.CacheLine
import RigelTarget.GameOfLife

/-!
# Cache maintenance of the Game of Life example

After a task its block is written back, and the block with the cells around it is invalidated,
row by row in steps of eight cells. The last step of a row may start in the line before the one of
the last cell; nothing visits that line then, unless it is the first one of the next row.
-/

namespace RigelTarget.GameOfLife

open CacheLine

section Code

variable (g : Shape)

/-- The addresses, in cells, of the rows from `i0` up to `i1` with every eighth column from `j0`
up to `j1`. -/
def lineWalk (base i0 i1 j0 j1 : ℕ) : List ℕ :=
  (List.range' i0 (i1-i0)).flatMap fun i => (walk 8 j0 j1).map fun j => base+idx g i j

/-- The addresses passed to `RigelWritebackLine`: for every row of the block, steps of eight cells
from its first cell on. -/
def writebackDescriptor (out tasknum : ℕ) : List ℕ :=
  lineWalk g out (rmin g tasknum) (rmin g tasknum+g.blockRows) (cmin g tasknum)
    (cmin g tasknum+g.blockCols)

/-- The addresses passed to `RigelInvalidateLine`: the rows of the block and the ones around it,
from the cell before the block on. -/
def invalidateDescriptor (inp tasknum : ℕ) : List ℕ :=
  lineWalk g inp (rmin g tasknum-1) (rmin g tasknum+g.blockRows+1) (cmin g tasknum-1)
    (cmin g tasknum+g.blockCols+1)

/-- The addresses that `GOLTask` writes. -/
def taskWrites (out tasknum : ℕ) : List ℕ :=
  (taskCells g tasknum).map fun p => out+idx g p.1 p.2

/-- A cell and its neighbours. -/
def neighbourhood (i j : ℕ) : List (ℕ×ℕ) :=
  [(i,j),(i-1,j-1),(i-1,j),(i-1,j+1),(i,j-1),(i,j+1),(i+1,j-1),(i+1,j),(i+1,j+1)]

/-- The addresses that `GOLTask` reads: its cells with all their neighbours. -/
def taskReads (inp tasknum : ℕ) : List ℕ :=
  (taskCells g tasknum).flatMap fun p =>
    (neighbourhood p.1 p.2).map fun q => inp+idx g q.1 q.2

end Code

/-- The line of every place is among the lines of the touched addresses. This is what software
coherence asks of a task. -/
def Covers (touched places : List ℕ) : Prop := ∀ p∈places, ∃ q∈touched, q/8=p/8

/-- The last step of every row starts in the line of its last cell, or the next row is visited too
and starts in that line. -/
def RowsReached (first stride width rows : ℕ) : Prop :=
  ∀ r, r < rows → (first+stride*r)%8+(width-1)%8<8 ∨
    (r+1 < rows ∧ (first+stride*(r+1))/8=(first+stride*r+width-1)/8)

variable {g : Shape}

/-- The addresses of a task are those of its stores. -/
theorem taskStores_addresses (world : World) (out tasknum : ℕ) :
    (taskStores g world tasknum).map (fun e => out+e.1)=taskWrites g out tasknum := by
  unfold taskStores taskWrites
  rw [List.map_map]
  rfl

/-- A new cell depends on the cells of the neighbourhood only. -/
theorem nextCell_congr {v w : World} {i j : ℕ}
    (h : ∀ q∈neighbourhood i j, v (idx g q.1 q.2)=w (idx g q.1 q.2)) :
    nextCell g v i j=nextCell g w i j := by
  simp only [neighbourhood,List.forall_mem_cons] at h
  obtain ⟨h0,h1,h2,h3,h4,h5,h6,h7,h8,-⟩ := h
  have hsum : around (alive g v) i j=around (alive g w) i j := by
    simp only [around,alive,h1,h2,h3,h4,h5,h6,h7,h8]
  exact if_congr (by rw [h0,hsum]) rfl rfl

/-- Rows are `C+2` cells apart. -/
theorem idx_add (i r j d : ℕ) : idx g (i+r) (j+d)=idx g i j+(g.cols+2)*r+d := by
  unfold idx
  ring

/-- The steps in columns are steps in addresses. -/
theorem mem_walk_add {a w c q : ℕ} :
    q∈walk 8 (c+a) (c+a+w) ↔ ∃ j, j∈walk 8 a (a+w) ∧ q=c+j := by
  rw [mem_walk (by decide)]
  constructor
  · rintro ⟨t,rfl,hlt⟩
    exact ⟨a+8*t,(mem_walk (by decide)).2 ⟨t,rfl,by omega⟩,by omega⟩
  · rintro ⟨j,hj,rfl⟩
    obtain ⟨t,rfl,hlt⟩ := (mem_walk (by decide)).1 hj
    exact ⟨t,by omega,by omega⟩

/-- The visited addresses, row by row: from the first cell of a row in steps of a line. -/
theorem mem_lineWalk {base i j n w q : ℕ} : q∈lineWalk g base i (i+n) j (j+w) ↔
    ∃ r, r<n ∧ q∈walk 8 (base+idx g i j+(g.cols+2)*r) (base+idx g i j+(g.cols+2)*r+w) := by
  have hrow : ∀ r, (∃ c, c∈walk 8 j (j+w) ∧ q=base+idx g (i+r) c) ↔
      q∈walk 8 (base+idx g i j+(g.cols+2)*r) (base+idx g i j+(g.cols+2)*r+w) := by
    intro r
    have hstart : base+idx g i j+(g.cols+2)*r=base+i*(g.cols+2)+(g.cols+2)*r+j := by
      unfold idx
      ring
    rw [hstart,mem_walk_add]
    refine exists_congr fun c => and_congr_right fun _ => ?_
    have hcol : base+idx g (i+r) c=base+i*(g.cols+2)+(g.cols+2)*r+c := by
      unfold idx
      ring
    rw [hcol]
  unfold lineWalk
  rw [Nat.add_sub_cancel_left,List.mem_flatMap]
  constructor
  · rintro ⟨k,hk,hq⟩
    obtain ⟨r,hr,rfl⟩ := List.mem_range'.1 hk
    obtain ⟨c,hc,rfl⟩ := List.mem_map.1 hq
    refine ⟨r,hr,(hrow r).1 ⟨c,hc,?_⟩⟩
    rw [Nat.one_mul]
  · rintro ⟨r,hr,hq⟩
    obtain ⟨c,hc,rfl⟩ := (hrow r).2 hq
    exact ⟨i+r,List.mem_range'.2 ⟨r,hr,by omega⟩,List.mem_map.2 ⟨c,hc,rfl⟩⟩

/-- The walk over a rectangle reaches the lines of all its cells if and only if it reaches the
lines in which the rows end. -/
theorem covers_iff {base i j n w : ℕ} {places : List ℕ} (hw : 0<w) (hwidth : w≤g.cols+2)
    (hplaces : ∀ p, p∈places ↔ ∃ r d, r<n ∧ d<w ∧ p=base+idx g (i+r) (j+d)) :
    Covers (lineWalk g base i (i+n) j (j+w)) places ↔
      RowsReached (base+idx g i j) (g.cols+2) w n := by
  unfold Covers RowsReached
  rw [←rows_reach_iff (by decide) hw hwidth]
  constructor
  · intro hall r hr p ha hb
    obtain ⟨q,hq,he⟩ := hall p ((hplaces p).2 ⟨r,p-(base+idx g i j+(g.cols+2)*r),hr,by omega,by
      rw [idx_add]
      omega⟩)
    obtain ⟨r',hr',hwalk⟩ := mem_lineWalk.1 hq
    exact ⟨r',hr',q,hwalk,he⟩
  · intro hall p hp
    obtain ⟨r,d,hr,hd,rfl⟩ := (hplaces p).1 hp
    rw [idx_add]
    obtain ⟨r',hr',q,hwalk,he⟩ := hall r hr (base+(idx g i j+(g.cols+2)*r+d))
      (by omega) (by omega)
    exact ⟨q,mem_lineWalk.2 ⟨r',hr',hwalk⟩,he⟩

/-- The cells that a task writes are the block. -/
theorem mem_taskWrites {out tasknum p : ℕ} : p∈taskWrites g out tasknum ↔
    ∃ r d, r<g.blockRows ∧ d<g.blockCols ∧
      p=out+idx g (rmin g tasknum+r) (cmin g tasknum+d) := by
  unfold taskWrites
  rw [List.mem_map]
  constructor
  · rintro ⟨⟨i,j⟩,hq,rfl⟩
    obtain ⟨⟨hi,hi'⟩,hj,hj'⟩ := mem_taskCells.1 hq
    refine ⟨i-rmin g tasknum,j-cmin g tasknum,by omega,by omega,?_⟩
    rw [Nat.add_sub_cancel' hi,Nat.add_sub_cancel' hj]
  · rintro ⟨r,d,hr,hd,rfl⟩
    exact ⟨(_,_),mem_taskCells.2 ⟨⟨by omega,by omega⟩,by omega,by omega⟩,rfl⟩

/-- Places next to each other are neighbours. -/
theorem mem_neighbourhood {i j k l : ℕ} (hi : k ≤ i+1 ∧ i≤k+1) (hj : l≤j+1 ∧ j≤l+1) :
    (k,l)∈neighbourhood i j := by
  have hk : k=i ∨ k=i-1 ∨ k=i+1 := by omega
  have hl : l=j ∨ l=j-1 ∨ l=j+1 := by omega
  rcases hk with rfl|rfl|rfl <;> rcases hl with rfl|rfl|rfl <;> simp [neighbourhood]

/-- Neighbours are next to each other. -/
theorem near_of_mem {i j k l : ℕ} (h : (k,l)∈neighbourhood i j) :
    (k ≤ i+1 ∧ i≤k+1) ∧ l≤j+1 ∧ j≤l+1 := by
  simp only [neighbourhood,List.mem_cons,Prod.mk.injEq,List.not_mem_nil,or_false] at h
  omega

/-- The cells that a task reads are the block and the cells around it. -/
theorem mem_taskReads {inp tasknum p : ℕ} : p∈taskReads g inp tasknum ↔
    ∃ r d, r<g.blockRows+2 ∧ d<g.blockCols+2 ∧
      p=inp+idx g (rmin g tasknum-1+r) (cmin g tasknum-1+d) := by
  have hrmin : 1 ≤ rmin g tasknum := Nat.le_add_left 1 _
  have hcmin : 1 ≤ cmin g tasknum := Nat.le_add_left 1 _
  have hrows := blockRows_pos (g := g)
  have hcols := blockCols_pos (g := g)
  unfold taskReads
  rw [List.mem_flatMap]
  constructor
  · rintro ⟨⟨i,j⟩,hq,hp⟩
    obtain ⟨⟨hi,hi'⟩,hj,hj'⟩ := mem_taskCells.1 hq
    obtain ⟨⟨k,l⟩,hnear,rfl⟩ := List.mem_map.1 hp
    obtain ⟨hk,hl⟩ := near_of_mem hnear
    refine ⟨k-(rmin g tasknum-1),l-(cmin g tasknum-1),by omega,by omega,?_⟩
    rw [Nat.add_sub_cancel' (by omega),Nat.add_sub_cancel' (by omega)]
  · rintro ⟨r,d,hr,hd,rfl⟩
    -- the nearest cell of the block
    refine ⟨(rmin g tasknum+min (r-1) (g.blockRows-1),cmin g tasknum+min (d-1) (g.blockCols-1)),
      mem_taskCells.2 ⟨⟨by omega,by omega⟩,by omega,by omega⟩,List.mem_map.2 ⟨(_,_),?_,rfl⟩⟩
    exact mem_neighbourhood ⟨by omega,by omega⟩ ⟨by omega,by omega⟩

/-- For every shape, arrays at any addresses and every task, the write-back reaches the lines of
the cells that the task writes, and the invalidation those of the cells it reads, if and only if
both walks reach the lines in which their rows end. -/
theorem descriptors_cover_iff (g : Shape) (inp out tasknum : ℕ) :
    (Covers (writebackDescriptor g out tasknum) (taskWrites g out tasknum) ∧
      Covers (invalidateDescriptor g inp tasknum) (taskReads g inp tasknum)) ↔
    RowsReached (out+idx g (rmin g tasknum) (cmin g tasknum)) (g.cols+2) g.blockCols
        g.blockRows ∧
      RowsReached (inp+idx g (rmin g tasknum-1) (cmin g tasknum-1)) (g.cols+2) (g.blockCols+2)
        (g.blockRows+2) := by
  have hwidth := Nat.le_of_dvd g.cols_pos g.cols_dvd
  have hrows : rmin g tasknum+g.blockRows+1=rmin g tasknum-1+(g.blockRows+2) := by
    unfold rmin
    omega
  have hcols : cmin g tasknum+g.blockCols+1=cmin g tasknum-1+(g.blockCols+2) := by
    unfold cmin
    omega
  refine and_congr ?_ ?_
  · exact covers_iff blockCols_pos (by omega) fun p => mem_taskWrites
  · unfold invalidateDescriptor
    rw [hrows,hcols]
    exact covers_iff (by omega) (by omega) fun p => mem_taskReads

/-- A board of one block of 8 by 8 cells. -/
def oneBlock : Shape := ⟨8,8,8,8,Nat.succ_pos 7,Nat.succ_pos 7,⟨1,rfl⟩,⟨1,rfl⟩⟩

/-- With arrays at a multiple of 512 cells, the last cell of the block is not written back: its line
is one step behind the last of the loop. -/
theorem writeback_misses_last : 0 < numTasks oneBlock ∧
    ¬Covers (writebackDescriptor oneBlock 0x40000 0) (taskWrites oneBlock 0x40000 0) := by
  refine ⟨by decide,fun h => ?_⟩
  obtain ⟨q,hq,hline⟩ := h (0x40000+idx oneBlock 8 8) (List.mem_map.2 ⟨(8,8),by decide,rfl⟩)
  obtain ⟨r,hr,hwalk⟩ := mem_lineWalk.1 hq
  obtain ⟨t,rfl,hlt⟩ := (mem_walk (by decide)).1 hwalk
  have hend : 0x40000+idx oneBlock 8 8=0x40058 := by decide
  have hstart : 0x40000+idx oneBlock (rmin oneBlock 0) (cmin oneBlock 0)=0x4000B := by decide
  rw [hend,hstart] at hline
  rw [hstart] at hlt
  change r<8 at hr
  change 0x4000B+10*r+8*t<0x4000B+10*r+8 at hlt
  change (0x4000B+10*r+8*t)/8=0x40058/8 at hline
  omega

end RigelTarget.GameOfLife
