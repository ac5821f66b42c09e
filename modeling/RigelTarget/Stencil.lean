import RigelTarget.DoubleBuffer
import Mathlib.Algebra.Order.Ring.Nat
import Mathlib.Data.List.ProdSigma
import Mathlib.Tactic.Linarith
import Mathlib.Tactic.Ring

/-!
# The stencil benchmark

Seven-point updates of a grid of `nx` by `ny` by `nz` points, with two arrays that change roles
after every timestep. `main` cuts the interior into macroblocks and every macroblock into one
microblock for each thread. The cut is chosen by two dimensions: the first is divided among the
threads as far as it goes, then the second, then the third. Whatever `main` accepts covers the
interior exactly once, so every order of the threads between two barriers leaves the array of the
sequential update.
-/

namespace RigelTarget.Stencil

open DoubleBuffer

/-- A dimension of the grid. -/
inductive Dim where
  /-- Dimension 0. -/
  | x
  /-- Dimension 1. -/
  | y
  /-- Dimension 2. -/
  | z
  deriving DecidableEq

/-- Why `main` gives up, in the order of its checks. Each stands for a message and
`RigelAbort()`. -/
inductive Abort where
  /-- "Matrix does not divide evenly into" the blocks. -/
  | blocks
  /-- "macroBlockSize % threads != 0". -/
  | threads (d : Dim)
  /-- "dimension does not divide evenly". -/
  | uneven (d : Dim)
  /-- "Matrix is too small". -/
  | tooSmall
  /-- "blockSize1 must be 0, 1, or 2". -/
  | blockDim
  /-- "Product != Threads". -/
  | product
  /-- "threads in system, only support MAX_SUPPORTED_THREADS". -/
  | maxThreads
  deriving DecidableEq

/-- `MAX_SUPPORTED_THREADS`. -/
def maxSupportedThreads : ℕ := 8192

/-- What `main` reads, for grids with an interior whose points have 32-bit numbers. -/
structure Input where
  /-- `nx`, `ny` and `nz`. -/
  size : Dim → ℕ
  /-- `nxblocks`, `nyblocks` and `nzblocks`. -/
  blocks : Dim → ℕ
  /-- `blockDim1`. -/
  blockDim1 : ℕ
  /-- `blockDim2`. -/
  blockDim2 : ℕ
  /-- `RigelGetNumThreads()`. -/
  threads : ℕ
  /-- There are interior points. -/
  size_ge : ∀ d, 3 ≤ size d
  /-- There is a block. -/
  blocks_pos : ∀ d, 0<blocks d
  /-- There is a thread. -/
  threads_pos : 0<threads
  /-- The number of points does not overflow. -/
  points_lt : size .x*size .y*size .z<2^32

section Decomposition

variable (inp : Input)

/-- `macroBlockSizex`, `macroBlockSizey` and `macroBlockSizez`. -/
def macroBlockSize (d : Dim) : ℕ := (inp.size d-2)/inp.blocks d

/-- The order in which the dimensions are divided, for the two parameters that choose it; `main`
knows no other first dimension than 0, 1 and 2. -/
def order (blockDim1 blockDim2 : ℕ) : Option (Dim×Dim×Dim) :=
  match blockDim1 with
  | 0 => if blockDim2=1 then some (.x,.y,.z) else some (.x,.z,.y)
  | 1 => if blockDim2=0 then some (.y,.x,.z) else some (.y,.z,.x)
  | 2 => if blockDim2=0 then some (.z,.x,.y) else some (.z,.y,.x)
  | _ => none

/-- The division of the macroblock among the threads: `first`, then `second`, then `third`. The
second dimension is tested for divisibility before it is compared with the threads that remain. -/
def divide (size : Dim → ℕ) (threads : ℕ) (first second third : Dim) :
    Except Abort (Dim → ℕ) :=
  if size first≥threads then
    if size first%threads≠0 then .error (.threads first)
    else .ok (Function.update size first (size first/threads))
  else
    let micro := Function.update size first 1
    let numDivsLeft := threads/size first
    if size second%numDivsLeft≠0 then .error (.uneven second)
    else if size second≥numDivsLeft then
      .ok (Function.update micro second (size second/numDivsLeft))
    else
      let micro := Function.update micro second 1
      let numDivsLeft := numDivsLeft/size second
      if size third<numDivsLeft then .error .tooSmall
      else if size third%numDivsLeft≠0 then .error (.uneven third)
      else .ok (Function.update micro third (size third/numDivsLeft))

/-- `microBlockSizex`, `microBlockSizey` and `microBlockSizez`, or why there are none: the checks
of `main` in their order. -/
def microBlockSize : Except Abort (Dim → ℕ) :=
  if (inp.size .x-2)%inp.blocks .x≠0 ∨ (inp.size .y-2)%inp.blocks .y≠0 ∨
      (inp.size .z-2)%inp.blocks .z≠0 then .error .blocks
  else
    match order inp.blockDim1 inp.blockDim2 with
    | none => .error .blockDim
    | some (first,second,third) => do
      let size := macroBlockSize inp
      let micro ← divide size inp.threads first second third
      let product := (size .x/micro .x)*(size .y/micro .y)*(size .z/micro .z)%2^32
      if product≠inp.threads then .error .product
      else if maxSupportedThreads < inp.threads then .error .maxThreads
      else .ok micro

end Decomposition

section Bounds

/-- The position after `(x, y, z)` in the first loop of `calculateBounds`, which counts in `x`
first. -/
def nextPos (xDivs yDivs : ℕ) : ℕ×ℕ×ℕ → ℕ×ℕ×ℕ
  | (x,y,z) =>
    if x+1≥xDivs then if y+1≥yDivs then (0,0,z+1) else (0,y+1,z) else (x+1,y,z)

/-- `xpos`, `ypos` and `zpos` of a thread. -/
def pos (xDivs yDivs : ℕ) : ℕ → ℕ×ℕ×ℕ
  | 0 => (0,0,0)
  | i+1 => nextPos xDivs yDivs (pos xDivs yDivs i)

/-- One dimension of a box: from `floor+min` to `floor+max` in macroblock `block`, with `min` and
`max` as `calculateBounds` computes them from the position of the thread. -/
def span (macroSize microSize block p : ℕ) : List ℕ :=
  let floor := block*macroSize+1
  let low := floor+p*microSize
  let high := floor+(p+1)*microSize
  List.range' low (high-low)

/-- The points of `stencil_1ts`, as `(k, j, i)`, for a macroblock `(l, k, j)` and a position: the
microblock of the position in that macroblock. -/
def box (macroSize microSize : Dim → ℕ) (block p : ℕ×ℕ×ℕ) : List (ℕ×ℕ×ℕ) :=
  span (macroSize .z) (microSize .z) block.1 p.2.2 ×ˢ
    span (macroSize .y) (microSize .y) block.2.1 p.2.1 ×ˢ
    span (macroSize .x) (microSize .x) block.2.2 p.1

/-- The macroblocks `(l, k, j)` in the order of the loops. -/
def macroblocks (inp : Input) : List (ℕ×ℕ×ℕ) :=
  List.range (inp.blocks .z) ×ˢ List.range (inp.blocks .y) ×ˢ List.range (inp.blocks .x)

/-- The points that a thread visits in a timestep: its box in every macroblock, one after the
other. -/
def threadVisits (inp : Input) (micro : Dim → ℕ) (thread : ℕ) : List (ℕ×ℕ×ℕ) :=
  let size := macroBlockSize inp
  let p := pos (size .x/micro .x) (size .y/micro .y) thread
  (macroblocks inp).flatMap fun block => box size micro block p

/-- The points that all threads visit in a timestep. They are disjoint, so the order of the threads
does not matter. -/
def visits (inp : Input) (micro : Dim → ℕ) : List (ℕ×ℕ×ℕ) :=
  (List.range inp.threads).flatMap (threadVisits inp micro)

end Bounds

section Update

/-- Floating-point operations. Nothing is assumed of them, so the result does not depend on how they
round. -/
structure FloatOps (F : Type) where
  /-- `a+b`. -/
  add : F → F → F
  /-- `a-b`. -/
  sub : F → F → F
  /-- `a*b`. -/
  mul : F → F → F
  /-- `a/b`. -/
  div : F → F → F
  /-- `6.0f`. -/
  six : F

variable {F : Type} (ops : FloatOps F)

/-- The value stored for a point, from the values of the points of the old array, with the additions
in the order of the source. -/
def sevenPoint (curr : ℕ → ℕ → ℕ → F) (fac : F) (i j k : ℕ) : F :=
  let sum := ops.add (ops.add (ops.add (ops.add (ops.add (curr i j (k+1)) (curr i j (k-1)))
    (curr i (j+1) k)) (curr i (j-1) k)) (curr (i+1) j k)) (curr (i-1) j k)
  ops.sub sum (ops.div (ops.mul ops.six (curr i j k)) (ops.mul fac fac))

/-- `Index3D(nx, ny, i, j, k)`, in 32 bits. -/
def index3D (nx ny i j k : ℕ) : ℕ := (i+nx*(j+ny*k))%2^32

variable (inp : Input)

/-- An array as a grid. -/
def gridOf (a : ℕ → F) (i j k : ℕ) : F := a (index3D (inp.size .x) (inp.size .y) i j k)

/-- The stores of a timestep for the points in the order in which they are visited. All reads are
from the old array. -/
def sweep (points : List (ℕ×ℕ×ℕ)) (curr next : ℕ → F) : ℕ → F :=
  stores next (points.map fun p =>
    (index3D (inp.size .x) (inp.size .y) p.2.2 p.2.1 p.1,
      sevenPoint ops (gridOf inp curr) (curr 0) p.2.2 p.2.1 p.1))

/-- The loop over the timesteps from `i` on: two sweeps with a barrier after each, or one if it is
the last. The result is `A0` and `Anext`. -/
def timestepLoop (points : ℕ → List (ℕ×ℕ×ℕ)) (timesteps i : ℕ) (a0 anext : ℕ → F) :
    (ℕ → F)×(ℕ → F) :=
  if i<timesteps then
    let anext := sweep ops inp (points i) a0 anext
    if i+1=timesteps then (a0,anext)
    else
      let a0 := sweep ops inp (points (i+1)) anext a0
      timestepLoop points timesteps (i+2) a0 anext
  else (a0,anext)
termination_by timesteps-i

/-- An interior point. -/
def Interior (i j k : ℕ) : Prop :=
  (1 ≤ i ∧ i ≤ inp.size .x-2) ∧ (1≤j ∧ j ≤ inp.size .y-2) ∧ 1≤k ∧ k ≤ inp.size .z-2

instance (i j k : ℕ) : Decidable (Interior inp i j k) := inferInstanceAs (Decidable (_∧_))

/-- The sequential update of all interior points; the border keeps its values. -/
def sequentialStep (grid : ℕ → ℕ → ℕ → F) (i j k : ℕ) : F :=
  if Interior inp i j k then sevenPoint ops grid (grid 0 0 0) i j k else grid i j k

end Update

/-- Microblocks that divide the macroblock. -/
def Fits (size micro : Dim → ℕ) : Prop := ∀ d, 0 < micro d ∧ micro d ∣ size d

/-- A macroblock fits into itself. -/
theorem fits_self {size : Dim → ℕ} (h : ∀ d, 0 < size d) : Fits size size :=
  fun d => ⟨h d,Nat.dvd_refl _⟩

/-- One dimension is set to a divisor. -/
theorem Fits.update {size micro : Dim → ℕ} (h : Fits size micro) {d : Dim} {v : ℕ}
    (hpos : 0<v) (hdvd : v ∣ size d) : Fits size (Function.update micro d v) := by
  intro e
  by_cases he : e=d
  · subst he
    rw [Function.update_self]
    exact ⟨hpos,hdvd⟩
  · rw [Function.update_of_ne he]
    exact h e

/-- One dimension is divided evenly. -/
theorem Fits.updateDiv {size micro : Dim → ℕ} (h : Fits size micro) {d : Dim} {n : ℕ}
    (hn : 0<n) (hle : n ≤ size d) (hmod : ¬size d%n≠0) :
    Fits size (Function.update micro d (size d/n)) :=
  h.update (Nat.div_pos hle hn) (Nat.div_dvd_of_dvd (Nat.dvd_of_mod_eq_zero (not_not.1 hmod)))

/-- Every accepted branch gives microblocks that divide the macroblock, whichever dimensions were
divided. -/
theorem divide_fits {size micro : Dim → ℕ} {threads : ℕ} {first second third : Dim}
    (hsize : ∀ d, 0 < size d) (hthreads : 0<threads)
    (h : divide size threads first second third=.ok micro) : Fits size micro := by
  have hself := fits_self hsize
  unfold divide at h
  dsimp only at h
  split at h
  next hge =>
    split at h
    next => cases h
    next hmod =>
      cases h
      exact hself.updateDiv hthreads hge hmod
  next hlt =>
    have hleft : 0<threads/size first := Nat.div_pos (Nat.le_of_not_le hlt) (hsize first)
    have hfirst := hself.update (d := first) Nat.one_pos (Nat.one_dvd _)
    split at h
    next => cases h
    next hmod =>
      split at h
      next hge =>
        cases h
        exact hfirst.updateDiv hleft hge hmod
      next hlt' =>
        have hleft' : 0<threads/size first/size second :=
          Nat.div_pos (Nat.le_of_not_le hlt') (hsize second)
        have hsecond := hfirst.update (d := second) Nat.one_pos (Nat.one_dvd _)
        split at h
        next => cases h
        next hge =>
          split at h
          next => cases h
          next hmod' =>
            cases h
            exact hsecond.updateDiv hleft' (Nat.le_of_not_lt hge) hmod'

/-- What `main` has checked when it goes on: the microblocks divide the macroblocks, and there is
one for each thread. -/
structure Accepted (inp : Input) (micro : Dim → ℕ) : Prop where
  /-- The interior is cut into macroblocks. -/
  blocks_mul : ∀ d, inp.blocks d*macroBlockSize inp d=inp.size d-2
  /-- A macroblock is not empty. -/
  block_pos : ∀ d, 0 < macroBlockSize inp d
  /-- A macroblock is cut into microblocks. -/
  fits : Fits (macroBlockSize inp) micro
  /-- There is one microblock for each thread. -/
  product : macroBlockSize inp .x/micro .x*(macroBlockSize inp .y/micro .y)*
    (macroBlockSize inp .z/micro .z)=inp.threads

/-- A macroblock is not larger than the grid. -/
theorem divs_le (inp : Input) (micro : Dim → ℕ) (d : Dim) :
    macroBlockSize inp d/micro d ≤ inp.size d :=
  (Nat.div_le_self _ _).trans ((Nat.div_le_self _ _).trans (Nat.sub_le _ _))

/-- The checks of `main`, and what they give for a decomposition that it accepts. -/
theorem accepted_of_ok {inp : Input} {micro : Dim → ℕ} (h : microBlockSize inp=.ok micro) :
    Accepted inp micro := by
  unfold microBlockSize at h
  split at h
  next => cases h
  next hblocks =>
    have hmul : ∀ d, inp.blocks d*macroBlockSize inp d=inp.size d-2 := by
      intro d
      refine Nat.mul_div_cancel' (Nat.dvd_of_mod_eq_zero ?_)
      cases d with
      | x => omega
      | y => omega
      | z => omega
    have hpos : ∀ d, 0 < macroBlockSize inp d := by
      intro d
      have hsize := inp.size_ge d
      refine Nat.pos_of_ne_zero fun hzero => ?_
      have hd := hmul d
      rw [hzero] at hd
      omega
    split at h
    next => cases h
    next first second third _ =>
      cases hdivide : divide (macroBlockSize inp) inp.threads first second third with
      | error e =>
        simp only [hdivide] at h
        cases h
      | ok size =>
        simp only [hdivide,bind,Except.bind] at h
        split at h
        next => cases h
        next hproduct =>
          split at h
          next => cases h
          next =>
            cases h
            refine ⟨hmul,hpos,divide_fits hpos inp.threads_pos hdivide,?_⟩
            have hlt : macroBlockSize inp .x/micro .x*(macroBlockSize inp .y/micro .y)*
                (macroBlockSize inp .z/micro .z)<2^32 :=
              (Nat.mul_le_mul (Nat.mul_le_mul (divs_le inp micro .x)
                (divs_le inp micro .y)) (divs_le inp micro .z)).trans_lt inp.points_lt
            rw [Nat.mod_eq_of_lt hlt] at hproduct
            exact not_not.1 hproduct

section Tiles

/-- The number of a position. -/
def number (xDivs yDivs : ℕ) (p : ℕ×ℕ×ℕ) : ℕ := p.1+xDivs*(p.2.1+yDivs*p.2.2)

variable {xDivs yDivs : ℕ}

/-- The counter of `calculateBounds` steps to the next number, so that the threads have the
positions of their numbers in mixed radix. -/
theorem nextPos_spec {x y : ℕ} (z : ℕ) (hx : x<xDivs) (hy : y<yDivs) :
    (nextPos xDivs yDivs (x,y,z)).1<xDivs ∧ (nextPos xDivs yDivs (x,y,z)).2.1<yDivs ∧
      number xDivs yDivs (nextPos xDivs yDivs (x,y,z))=number xDivs yDivs (x,y,z)+1 := by
  unfold nextPos number
  dsimp only
  split
  next hxw =>
    have hxe : xDivs=x+1 := by omega
    split
    next hyw =>
      have hye : yDivs=y+1 := by omega
      refine ⟨Nat.zero_lt_of_lt hx,Nat.zero_lt_of_lt hy,?_⟩
      rw [hye,hxe]
      ring
    next hyw =>
      refine ⟨Nat.zero_lt_of_lt hx,Nat.lt_of_not_ge hyw,?_⟩
      rw [hxe]
      ring
  next hxw =>
    refine ⟨Nat.lt_of_not_ge hxw,hy,?_⟩
    ring

/-- The position of a thread is in range and has the thread's number. -/
theorem pos_spec (hx : 0<xDivs) (hy : 0<yDivs) (t : ℕ) : (pos xDivs yDivs t).1<xDivs ∧
    (pos xDivs yDivs t).2.1<yDivs ∧ number xDivs yDivs (pos xDivs yDivs t)=t := by
  induction t with
  | zero => exact ⟨hx,hy,by simp [pos,number]⟩
  | succ t ih =>
    obtain ⟨hxlt,hylt,hnum⟩ := ih
    have hnext := nextPos_spec (pos xDivs yDivs t).2.2 hxlt hylt
    rw [pos]
    exact ⟨hnext.1,hnext.2.1,by rw [hnext.2.2]; exact congrArg (·+1) hnum⟩

/-- A position in range is determined by its number. -/
theorem number_inj {p q : ℕ×ℕ×ℕ} (hp : p.1<xDivs ∧ p.2.1<yDivs) (hq : q.1<xDivs ∧ q.2.1<yDivs)
    (h : number xDivs yDivs p=number xDivs yDivs q) : p=q := by
  obtain ⟨x,y,z⟩ := p
  obtain ⟨x',y',z'⟩ := q
  obtain ⟨hx,hy⟩ := hp
  obtain ⟨hx',hy'⟩ := hq
  dsimp only [number] at hx hy hx' hy' h
  have hxe : x=x' := by
    have hmod : (x+xDivs*(y+yDivs*z))%xDivs=(x'+xDivs*(y'+yDivs*z'))%xDivs := by rw [h]
    rwa [Nat.add_mul_mod_self_left,Nat.add_mul_mod_self_left,Nat.mod_eq_of_lt hx,
      Nat.mod_eq_of_lt hx'] at hmod
  subst hxe
  have hyz := Nat.eq_of_mul_eq_mul_left (Nat.zero_lt_of_lt hx) (Nat.add_left_cancel h)
  have hye : y=y' := by
    have hmod : (y+yDivs*z)%yDivs=(y'+yDivs*z')%yDivs := by rw [hyz]
    rwa [Nat.add_mul_mod_self_left,Nat.add_mul_mod_self_left,Nat.mod_eq_of_lt hy,
      Nat.mod_eq_of_lt hy'] at hmod
  subst hye
  have hze := Nat.eq_of_mul_eq_mul_left (Nat.zero_lt_of_lt hy) (Nat.add_left_cancel hyz)
  rw [hze]

/-- Positions in range have numbers in range. -/
theorem number_lt {zDivs : ℕ} {p : ℕ×ℕ×ℕ} (hx : p.1<xDivs) (hy : p.2.1<yDivs)
    (hz : p.2.2<zDivs) : number xDivs yDivs p<xDivs*yDivs*zDivs := by
  unfold number
  have hyz : p.2.1+yDivs*p.2.2+1≤yDivs*zDivs := by
    have h := Nat.mul_le_mul_left yDivs (Nat.succ_le_of_lt hz)
    rw [Nat.mul_succ] at h
    omega
  have h := Nat.mul_le_mul_left xDivs hyz
  rw [Nat.mul_succ,←Nat.mul_assoc] at h
  omega

/-- The third coordinate of a number in range. -/
theorem z_lt_of_number_lt {zDivs : ℕ} {p : ℕ×ℕ×ℕ}
    (h : number xDivs yDivs p<xDivs*yDivs*zDivs) : p.2.2<zDivs := by
  unfold number at h
  by_contra hge
  have hyz : yDivs*zDivs≤p.2.1+yDivs*p.2.2 :=
    (Nat.mul_le_mul_left yDivs (Nat.le_of_not_lt hge)).trans (Nat.le_add_left _ _)
  have hx := Nat.mul_le_mul_left xDivs hyz
  rw [←Nat.mul_assoc] at hx
  omega

/-- The coordinates of a box in one dimension, by the macroblock and the microblock in it. Both come
from one division each. -/
theorem mem_span {M m : ℕ} (block p c : ℕ) (hpos : 0<M) (hm : 0 < m) (hdvd : m ∣ M) :
    p<M/m ∧ c∈span M m block p ↔ 1 ≤ c ∧ (c-1)/M=block ∧ (c-1)%M/m=p := by
  have hM : M/m*m=M := Nat.div_mul_cancel hdvd
  unfold span
  dsimp only
  rw [List.mem_range'_1,Nat.add_mul p 1 m,Nat.one_mul]
  constructor
  · rintro ⟨hp,hlow,hhigh⟩
    have hpm : (p+1)*m≤M := by
      rw [←hM]
      exact Nat.mul_le_mul_right m hp
    rw [Nat.add_mul,Nat.one_mul] at hpm
    obtain ⟨r,rfl⟩ := Nat.exists_eq_add_of_le hlow
    have hr : r < m := by omega
    have hc : block*M+1+p*m+r-1=(p*m+r)+M*block := by
      rw [Nat.mul_comm M]
      omega
    have hlt : p*m+r<M := by omega
    rw [hc,Nat.add_mul_div_left _ _ (by omega),Nat.div_eq_of_lt hlt,Nat.zero_add,
      Nat.add_mul_mod_self_left,Nat.mod_eq_of_lt hlt,Nat.mul_comm p,Nat.mul_add_div hm,
      Nat.div_eq_of_lt hr]
    exact ⟨by omega,rfl,Nat.add_zero p⟩
  · rintro ⟨hc,rfl,rfl⟩
    have hdm := Nat.div_add_mod' (c-1) M
    have hdm' := Nat.div_add_mod' ((c-1)%M) m
    have hlt := Nat.mod_lt ((c-1)%M) hm
    refine ⟨?_,by omega,by omega⟩
    exact Nat.div_lt_div_of_lt_of_dvd hdvd (Nat.mod_lt _ hpos)

end Tiles

section Cover

variable {inp : Input} {micro : Dim → ℕ}

/-- The macroblock `(l, k, j)` of a point. -/
def blockOf (inp : Input) (q : ℕ×ℕ×ℕ) : ℕ×ℕ×ℕ :=
  ((q.1-1)/macroBlockSize inp .z,(q.2.1-1)/macroBlockSize inp .y,
    (q.2.2-1)/macroBlockSize inp .x)

/-- The position of the microblock of a point. -/
def posOf (inp : Input) (micro : Dim → ℕ) (q : ℕ×ℕ×ℕ) : ℕ×ℕ×ℕ :=
  ((q.2.2-1)%macroBlockSize inp .x/micro .x,(q.2.1-1)%macroBlockSize inp .y/micro .y,
    (q.1-1)%macroBlockSize inp .z/micro .z)

/-- A position of a microblock. -/
def InRange (inp : Input) (micro : Dim → ℕ) (p : ℕ×ℕ×ℕ) : Prop :=
  p.1 < macroBlockSize inp .x/micro .x ∧ p.2.1 < macroBlockSize inp .y/micro .y ∧
    p.2.2 < macroBlockSize inp .z/micro .z

/-- The points of a box: those whose macroblock and microblock are the ones of the box in all three
dimensions. -/
theorem Accepted.mem_box (h : Accepted inp micro) {block p q : ℕ×ℕ×ℕ} :
    InRange inp micro p ∧ q∈box (macroBlockSize inp) micro block p ↔
      (1≤q.1 ∧ 1≤q.2.1 ∧ 1≤q.2.2) ∧ blockOf inp q=block ∧ posOf inp micro q=p := by
  obtain ⟨k,j,i⟩ := q
  obtain ⟨bz,byy,bx⟩ := block
  obtain ⟨px,py,pz⟩ := p
  have hx := mem_span bx px i (h.block_pos .x) (h.fits .x).1 (h.fits .x).2
  have hy := mem_span byy py j (h.block_pos .y) (h.fits .y).1 (h.fits .y).2
  have hz := mem_span bz pz k (h.block_pos .z) (h.fits .z).1 (h.fits .z).2
  unfold InRange box blockOf posOf
  dsimp only
  rw [List.mem_product,List.mem_product,Prod.mk.injEq,Prod.mk.injEq,Prod.mk.injEq,
    Prod.mk.injEq]
  constructor
  · rintro ⟨⟨hpx,hpy,hpz⟩,hk,hj,hi⟩
    obtain ⟨hi1,hi2,hi3⟩ := hx.1 ⟨hpx,hi⟩
    obtain ⟨hj1,hj2,hj3⟩ := hy.1 ⟨hpy,hj⟩
    obtain ⟨hk1,hk2,hk3⟩ := hz.1 ⟨hpz,hk⟩
    exact ⟨⟨hk1,hj1,hi1⟩,⟨hk2,hj2,hi2⟩,hi3,hj3,hk3⟩
  · rintro ⟨⟨hk1,hj1,hi1⟩,⟨hk2,hj2,hi2⟩,hi3,hj3,hk3⟩
    obtain ⟨hpx,hi⟩ := hx.2 ⟨hi1,hi2,hi3⟩
    obtain ⟨hpy,hj⟩ := hy.2 ⟨hj1,hj2,hj3⟩
    obtain ⟨hpz,hk⟩ := hz.2 ⟨hk1,hk2,hk3⟩
    exact ⟨⟨hpx,hpy,hpz⟩,hk,hj,hi⟩

/-- The points of the macroblocks are the interior points. -/
theorem Accepted.interior_iff (h : Accepted inp micro) {q : ℕ×ℕ×ℕ} :
    Interior inp q.2.2 q.2.1 q.1 ↔
      (1≤q.1 ∧ 1≤q.2.1 ∧ 1≤q.2.2) ∧ blockOf inp q∈macroblocks inp := by
  have hdim : ∀ d (c : ℕ), 1 ≤ c →
      ((c-1)/macroBlockSize inp d < inp.blocks d ↔ c ≤ inp.size d-2) := by
    intro d c hc
    rw [Nat.div_lt_iff_lt_mul (h.block_pos d),h.blocks_mul d]
    omega
  unfold Interior blockOf macroblocks
  rw [List.mem_product,List.mem_product,List.mem_range,List.mem_range,List.mem_range]
  constructor
  · rintro ⟨⟨hi,hi'⟩,⟨hj,hj'⟩,hk,hk'⟩
    exact ⟨⟨hk,hj,hi⟩,(hdim .z _ hk).2 hk',(hdim .y _ hj).2 hj',(hdim .x _ hi).2 hi'⟩
  · rintro ⟨⟨hk,hj,hi⟩,hk',hj',hi'⟩
    exact ⟨⟨hi,(hdim .x _ hi).1 hi'⟩,⟨hj,(hdim .y _ hj).1 hj'⟩,hk,(hdim .z _ hk).1 hk'⟩

/-- Microblocks per macroblock in one dimension. -/
theorem Accepted.divs_pos (h : Accepted inp micro) (d : Dim) : 0 < macroBlockSize inp d/micro d :=
  Nat.div_pos (Nat.le_of_dvd (h.block_pos d) (h.fits d).2) (h.fits d).1

/-- The position of a thread. -/
abbrev threadPos (inp : Input) (micro : Dim → ℕ) (t : ℕ) : ℕ×ℕ×ℕ :=
  pos (macroBlockSize inp .x/micro .x) (macroBlockSize inp .y/micro .y) t

/-- The number of a position. -/
abbrev threadOf (inp : Input) (micro : Dim → ℕ) (p : ℕ×ℕ×ℕ) : ℕ :=
  number (macroBlockSize inp .x/micro .x) (macroBlockSize inp .y/micro .y) p

/-- The position of a thread is that of a microblock, and its number is the thread's. -/
theorem Accepted.threadPos_spec (h : Accepted inp micro) {t : ℕ} (ht : t < inp.threads) :
    InRange inp micro (threadPos inp micro t) ∧ threadOf inp micro (threadPos inp micro t)=t := by
  obtain ⟨hx,hy,hnum⟩ := pos_spec (h.divs_pos .x) (h.divs_pos .y) t
  have hlt := ht
  rw [←h.product,←hnum] at hlt
  exact ⟨⟨hx,hy,z_lt_of_number_lt hlt⟩,hnum⟩

/-- Every microblock belongs to a thread. -/
theorem Accepted.threadOf_spec (h : Accepted inp micro) {p : ℕ×ℕ×ℕ} (hp : InRange inp micro p) :
    threadOf inp micro p < inp.threads ∧ threadPos inp micro (threadOf inp micro p)=p := by
  obtain ⟨hx,hy,hz⟩ := hp
  have hlt : threadOf inp micro p < inp.threads := by
    rw [←h.product]
    exact number_lt hx hy hz
  obtain ⟨⟨hx',hy',-⟩,hnum⟩ := h.threadPos_spec hlt
  exact ⟨hlt,number_inj ⟨hx',hy'⟩ ⟨hx,hy⟩ hnum⟩

/-- The points that a thread visits. -/
theorem Accepted.mem_threadVisits (h : Accepted inp micro) {t : ℕ} (ht : t < inp.threads)
    {q : ℕ×ℕ×ℕ} : q∈threadVisits inp micro t ↔
      Interior inp q.2.2 q.2.1 q.1 ∧ posOf inp micro q=threadPos inp micro t := by
  have hrange := (h.threadPos_spec ht).1
  unfold threadVisits
  dsimp only
  rw [List.mem_flatMap,h.interior_iff]
  constructor
  · rintro ⟨block,hblock,hq⟩
    obtain ⟨hone,rfl,hpos⟩ := h.mem_box.1 ⟨hrange,hq⟩
    exact ⟨⟨hone,hblock⟩,hpos⟩
  · rintro ⟨⟨hone,hblock⟩,hpos⟩
    exact ⟨_,hblock,(h.mem_box.2 ⟨hone,rfl,hpos⟩).2⟩

/-- The threads visit the interior points. -/
theorem Accepted.mem_visits (h : Accepted inp micro) {q : ℕ×ℕ×ℕ} :
    q∈visits inp micro ↔ Interior inp q.2.2 q.2.1 q.1 := by
  unfold visits
  rw [List.mem_flatMap]
  constructor
  · rintro ⟨t,ht,hq⟩
    exact ((h.mem_threadVisits (List.mem_range.1 ht)).1 hq).1
  · intro hq
    have hrange := (h.mem_box.2 ⟨(h.interior_iff.1 hq).1,rfl,rfl⟩).1
    obtain ⟨hlt,hpos⟩ := h.threadOf_spec hrange
    exact ⟨_,List.mem_range.2 hlt,(h.mem_threadVisits hlt).2 ⟨hq,hpos.symm⟩⟩

/-- A box has every point once. -/
theorem box_nodup (block p : ℕ×ℕ×ℕ) : (box (macroBlockSize inp) micro block p).Nodup :=
  List.Nodup.product List.nodup_range' (List.Nodup.product List.nodup_range' List.nodup_range')

/-- The threads visit every point once. -/
theorem Accepted.visits_nodup (h : Accepted inp micro) : (visits inp micro).Nodup := by
  refine nodup_flatMap_of_index (fun q => threadOf inp micro (posOf inp micro q))
    List.nodup_range ?_ ?_
  · intro t ht
    have hrange := (h.threadPos_spec (List.mem_range.1 ht)).1
    refine nodup_flatMap_of_index (blockOf inp) ?_ (fun block _ => box_nodup block _) ?_
    · exact List.nodup_range.product (List.nodup_range.product List.nodup_range)
    · intro block _ q hq
      exact (h.mem_box.1 ⟨hrange,hq⟩).2.1
  · intro t ht q hq
    have ht' := List.mem_range.1 ht
    rw [((h.mem_threadVisits ht').1 hq).2]
    exact (h.threadPos_spec ht').2

end Cover

section Timesteps

variable {F : Type} {ops : FloatOps F} {inp : Input} {micro : Dim → ℕ}

/-- A point of the grid. -/
def InGrid (inp : Input) (i j k : ℕ) : Prop := i < inp.size .x ∧ j < inp.size .y ∧ k < inp.size .z

/-- Interior points and their neighbours are points of the grid. -/
theorem Interior.lt {i j k : ℕ} (h : Interior inp i j k) :
    (1 ≤ i ∧ i+1 < inp.size .x) ∧ (1≤j ∧ j+1 < inp.size .y) ∧ 1≤k ∧ k+1 < inp.size .z := by
  have hx := inp.size_ge .x
  have hy := inp.size_ge .y
  have hz := inp.size_ge .z
  obtain ⟨⟨hi,hi'⟩,⟨hj,hj'⟩,hk,hk'⟩ := h
  exact ⟨⟨hi,by omega⟩,⟨hj,by omega⟩,hk,by omega⟩

/-- Interior points are points of the grid. -/
theorem Interior.inGrid {i j k : ℕ} (h : Interior inp i j k) : InGrid inp i j k := by
  obtain ⟨⟨-,hi⟩,⟨-,hj⟩,-,hk⟩ := h.lt
  exact ⟨by omega,by omega,by omega⟩

/-- The index of a point does not overflow. -/
theorem index3D_eq {i j k : ℕ} (h : InGrid inp i j k) :
    index3D (inp.size .x) (inp.size .y) i j k=number (inp.size .x) (inp.size .y) (i,j,k) := by
  have hlt := number_lt (p := (i,j,k)) h.1 h.2.1 h.2.2
  exact Nat.mod_eq_of_lt (hlt.trans inp.points_lt)

/-- Different points have different indices. -/
theorem index3D_inj {i j k i' j' k' : ℕ} (h : InGrid inp i j k) (h' : InGrid inp i' j' k')
    (he : index3D (inp.size .x) (inp.size .y) i j k=index3D (inp.size .x) (inp.size .y) i' j' k') :
    i=i' ∧ j=j' ∧ k=k' := by
  rw [index3D_eq h,index3D_eq h'] at he
  have hpoint := number_inj ⟨h.1,h.2.1⟩ ⟨h'.1,h'.2.1⟩ he
  rw [Prod.mk.injEq,Prod.mk.injEq] at hpoint
  exact hpoint

variable {points : List (ℕ×ℕ×ℕ)}

/-- A sweep in any order stores the new value of every interior point. -/
theorem Accepted.sweep_interior (h : Accepted inp micro) (hperm : points.Perm (visits inp micro))
    (curr next : ℕ → F) {i j k : ℕ} (hin : Interior inp i j k) :
    gridOf inp (sweep ops inp points curr next) i j k=
      sevenPoint ops (gridOf inp curr) (curr 0) i j k := by
  have hmem : ((k,j,i) : ℕ×ℕ×ℕ)∈points := hperm.mem_iff.2 (h.mem_visits.2 hin)
  refine stores_map (k := (k,j,i)) hmem ?_
  rintro ⟨k',j',i'⟩ hq he
  have hin' := h.mem_visits.1 (hperm.mem_iff.1 hq)
  obtain ⟨rfl,rfl,rfl⟩ := index3D_inj hin'.inGrid hin.inGrid he
  rfl

/-- A sweep leaves the border alone. -/
theorem Accepted.sweep_border (h : Accepted inp micro) (hperm : points.Perm (visits inp micro))
    (curr next : ℕ → F) {i j k : ℕ} (hgrid : InGrid inp i j k) (hin : ¬Interior inp i j k) :
    gridOf inp (sweep ops inp points curr next) i j k=gridOf inp next i j k := by
  refine stores_map_keep ?_
  rintro ⟨k',j',i'⟩ hq he
  have hin' := h.mem_visits.1 (hperm.mem_iff.1 hq)
  obtain ⟨rfl,rfl,rfl⟩ := index3D_inj hin'.inGrid hgrid he
  exact hin hin'

/-- An array holds a grid. -/
def Shows (inp : Input) (a : ℕ → F) (grid : ℕ → ℕ → ℕ → F) : Prop :=
  ∀ i j k, InGrid inp i j k → gridOf inp a i j k=grid i j k

/-- An array holds the border of a grid. -/
def ShowsBorder (inp : Input) (a : ℕ → F) (grid : ℕ → ℕ → ℕ → F) : Prop :=
  ∀ i j k, InGrid inp i j k → ¬Interior inp i j k → gridOf inp a i j k=grid i j k

/-- The value of an interior point depends on points of the grid only. -/
theorem Shows.sevenPoint {a : ℕ → F} {grid : ℕ → ℕ → ℕ → F} (h : Shows inp a grid)
    {i j k : ℕ} (hin : Interior inp i j k) : Stencil.sevenPoint ops (gridOf inp a) (a 0) i j k=
      Stencil.sevenPoint ops grid (grid 0 0 0) i j k := by
  obtain ⟨⟨hi,hi'⟩,⟨hj,hj'⟩,hk,hk'⟩ := hin.lt
  have hfac : a 0=grid 0 0 0 := by
    rw [←h 0 0 0 ⟨by omega,by omega,by omega⟩]
    simp [gridOf,index3D]
  unfold Stencil.sevenPoint
  rw [hfac,h i j (k+1) ⟨by omega,by omega,by omega⟩,h i j (k-1) ⟨by omega,by omega,by omega⟩,
    h i (j+1) k ⟨by omega,by omega,by omega⟩,h i (j-1) k ⟨by omega,by omega,by omega⟩,
    h (i+1) j k ⟨by omega,by omega,by omega⟩,h (i-1) j k ⟨by omega,by omega,by omega⟩,
    h i j k ⟨by omega,by omega,by omega⟩]

/-- A timestep in any order is the sequential one. -/
theorem Accepted.sweep_shows (h : Accepted inp micro) (ops : FloatOps F)
    (hperm : points.Perm (visits inp micro))
    {curr next : ℕ → F} {grid : ℕ → ℕ → ℕ → F} (hcurr : Shows inp curr grid)
    (hnext : ShowsBorder inp next grid) :
    Shows inp (sweep ops inp points curr next) (sequentialStep ops inp grid) := by
  intro i j k hgrid
  unfold sequentialStep
  by_cases hin : Interior inp i j k
  · rw [if_pos hin,h.sweep_interior hperm curr next hin,hcurr.sevenPoint hin]
  · rw [if_neg hin,h.sweep_border hperm curr next hgrid hin]
    exact hnext i j k hgrid hin

/-- The old array keeps the border. -/
theorem Shows.border {a : ℕ → F} {grid : ℕ → ℕ → ℕ → F} (h : Shows inp a grid) :
    ShowsBorder inp a (sequentialStep ops inp grid) := by
  intro i j k hgrid hin
  unfold sequentialStep
  rw [if_neg hin]
  exact h i j k hgrid

/-- With `n` timesteps left, the array written last holds the result of `n` sequential updates. Each
timestep reads what the one before has written. -/
theorem Accepted.timestepLoop_shows (h : Accepted inp micro) (ops : FloatOps F)
    {points : ℕ → List (ℕ×ℕ×ℕ)} (hperm : ∀ i, (points i).Perm (visits inp micro)) (n : ℕ)
    {i : ℕ} {a0 anext : ℕ → F}
    {grid : ℕ → ℕ → ℕ → F} (ha0 : Shows inp a0 grid) (hanext : ShowsBorder inp anext grid) :
    let r := timestepLoop ops inp points (i+n) i a0 anext
    Shows inp (if n%2=1 then r.2 else r.1) ((sequentialStep ops inp)^[n] grid) := by
  induction n using Nat.twoStepInduction generalizing i a0 anext grid with
  | zero =>
    rw [timestepLoop,if_neg (by omega)]
    exact ha0
  | one =>
    rw [timestepLoop,if_pos (by omega),if_pos rfl]
    exact h.sweep_shows ops (hperm i) ha0 hanext
  | more n ih _ =>
    have hnext := h.sweep_shows ops (hperm i) ha0 hanext
    have hcurr := h.sweep_shows ops (hperm (i+1)) hnext ha0.border
    have hrest := ih (i := i+2) hcurr hnext.border
    rw [timestepLoop,if_pos (by omega),if_neg (by omega),Nat.add_mod_right,
      show i+(n+2)=i+2+n by omega]
    exact hrest

end Timesteps

/-- For every input that `main` accepts, the boxes of all threads and macroblocks cover every
interior point once and no other point; and for every number of timesteps, every order of the
points within each timestep and every meaning of the floating-point operations, the array written
last is that of the sequential updates. -/
theorem stencil_eq_sequential (inp : Input) (micro : Dim → ℕ)
    (haccept : microBlockSize inp=.ok micro) :
    (visits inp micro).Nodup ∧
    (∀ i j k, (k,j,i)∈visits inp micro ↔ Interior inp i j k) ∧
    ∀ (F : Type) (ops : FloatOps F) (points : ℕ → List (ℕ×ℕ×ℕ)) (timesteps : ℕ) (a0 : ℕ → F),
      (∀ i, (points i).Perm (visits inp micro)) →
      let r := timestepLoop ops inp points timesteps 0 a0 a0
      ∀ i j k, i < inp.size .x → j < inp.size .y → k < inp.size .z →
        gridOf inp (if timesteps%2=1 then r.2 else r.1) i j k=
          (sequentialStep ops inp)^[timesteps] (gridOf inp a0) i j k := by
  have h := accepted_of_ok haccept
  refine ⟨h.visits_nodup,fun i j k => h.mem_visits,?_⟩
  intro F ops points timesteps a0 hperm r i j k hi hj hk
  have hself : Shows inp a0 (gridOf inp a0) := fun _ _ _ _ => rfl
  have hshows := h.timestepLoop_shows ops hperm timesteps (i := 0) hself fun i j k hijk _ =>
    hself i j k hijk
  rw [Nat.zero_add] at hshows
  exact hshows i j k ⟨hi,hj,hk⟩

/-- A grid of four by four by three points and four threads: the first dimension takes two of
them, the second the rest. -/
def fourThreads : Input where
  size d := match d with
    | .x => 4
    | .y => 4
    | .z => 3
  blocks _ := 1
  blockDim1 := 0
  blockDim2 := 1
  threads := 4
  size_ge d := by cases d <;> decide
  blocks_pos _ := Nat.one_pos
  threads_pos := Nat.succ_pos 3
  points_lt := by decide

/-- The integers in place of floating-point numbers. -/
def intOps : FloatOps ℤ := ⟨(·+·),(·-·),(·*·),(·/·),6⟩

/-- Four threads whose points are visited in the reverse order, for three timesteps: the interior
point is that of the sequential update. -/
theorem stencil_eq_sequential_fourThreads : microBlockSize fourThreads=.ok (fun _ => 1) ∧
    (visits fourThreads fun _ => 1).Nodup ∧
      gridOf fourThreads (timestepLoop intOps fourThreads
        (fun _ => (visits fourThreads fun _ => 1).reverse) 3 0 (fun n => n+1) fun n => n+1).2 1 2 1=
        (sequentialStep intOps fourThreads)^[3] (gridOf fourThreads fun n => n+1) 1 2 1 := by
  have haccept : microBlockSize fourThreads=.ok (fun _ => 1) := by
    refine congrArg Except.ok (funext fun d => ?_)
    cases d <;> rfl
  have h := stencil_eq_sequential fourThreads (fun _ => 1) haccept
  exact ⟨haccept,h.1,h.2.2 ℤ intOps _ 3 _ (fun _ => List.reverse_perm _) 1 2 1 (by decide)
    (by decide) (by decide)⟩

end RigelTarget.Stencil
