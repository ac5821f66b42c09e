import RigelTarget.Buckets
import RigelTarget.DoubleBuffer
import Mathlib.Algebra.Ring.Int.Defs

/-!
# The sparse matrix of the conjugate-gradient test

`SMatInit` builds the rows of a sparse matrix from a list of triplets with a counting sort, whose
array of offsets holds first the numbers of triplets, then their sums and at last the places that
are used in each row. Tasks multiply ranges of rows with a vector eight elements at a time;
`MatVecMul` does it element by element.
-/

namespace RigelTarget.ConjugateGradient

open Buckets DoubleBuffer

section Code

variable {α : Type}

/-- A triplet of the list (`ElemTypeListEntry`), which ends with one of row -1. -/
structure Entry (α : Type) where
  /-- `value`. -/
  value : α
  /-- `row`, -1 at the end of the list. -/
  row : ℤ
  /-- `col`. -/
  col : ℤ

/-- The sparse matrix, with the arrays that it points to: the starts of the rows, and the columns
and values of the elements. -/
structure SparseMatrix (α : Type) where
  /-- `IA`. -/
  ia : ℤ → ℤ
  /-- `IJ`. -/
  ij : ℤ → ℤ
  /-- `MatData`. -/
  matData : ℤ → α
  /-- `NumRows`. -/
  numRows : ℤ
  /-- `NumCols`. -/
  numCols : ℤ
  /-- `NonZeroes`. -/
  nonZeroes : ℤ

/-- `for (i = 0; i < count; i++) col_offsets[i] = 0;`. The array is cleared twice, since it is used
for two things. -/
def clear (count : ℕ) (colOffsets : ℤ → ℤ) : ℤ → ℤ :=
  stores colOffsets ((List.range count).map fun i : ℕ => ((i : ℤ),0))

/-- `for (i = 0; list[i].row != -1; i++) col_offsets[list[i].row]++;`, with the last `i`; `none`
when the fuel does not suffice. -/
def countLoop (list : ℕ → Entry α) : ℕ → ℕ → (ℤ → ℤ) → Option (ℕ×(ℤ → ℤ))
  | 0, _, _ => none
  | fuel+1, i, colOffsets =>
    if (list i).row≠-1 then
      countLoop list fuel (i+1)
        (Function.update colOffsets (list i).row (colOffsets (list i).row+1))
    else some (i,colOffsets)

/-- `A->IA[i] = col_offsets[i-1]; col_offsets[i] += col_offsets[i-1];`. The loop turns counts of
rows into starts of rows. -/
def sumTurn (s : (ℤ → ℤ)×(ℤ → ℤ)) (i : ℕ) : (ℤ → ℤ)×(ℤ → ℤ) :=
  (Function.update s.1 i (s.2 (i-1)),Function.update s.2 i (s.2 i+s.2 (i-1)))

/-- The arrays while the triplets are placed. `col_offsets` counts the triplets placed in each
row. -/
structure Placing (α : Type) where
  /-- `col_offsets`. -/
  colOffsets : ℤ → ℤ
  /-- `IJ`. -/
  ij : ℤ → ℤ
  /-- `MatData`. -/
  matData : ℤ → α

/-- A triplet is placed behind those of its row, and the count of its row goes up. The row starts
where the sums say. -/
def placeTurn (ia : ℤ → ℤ) (list : ℕ → Entry α) (s : Placing α) (i : ℕ) : Placing α :=
  let currRow := (list i).row
  let idx := ia currRow+s.colOffsets currRow
  { colOffsets := Function.update s.colOffsets currRow (s.colOffsets currRow+1)
    ij := Function.update s.ij idx (list i).col
    matData := Function.update s.matData idx (list i).value }

/-- `SMatInit`, with whatever the arrays hold before: triplets are counted by row, summed up to the
starts of the rows, and placed. -/
def sMatInit (fuel rows cols : ℕ) (list : ℕ → Entry α) (colOffsets : ℤ → ℤ)
    (a : SparseMatrix α) : Option (SparseMatrix α) :=
  (countLoop list fuel 0 (clear (rows+1) colOffsets)).map fun counted =>
    let sums := (List.range' 1 rows).foldl sumTurn (Function.update a.ia 0 0,counted.2)
    let placed := (List.range counted.1).foldl (placeTurn sums.1 list)
      ⟨clear rows sums.2,a.ij,a.matData⟩
    { ia := sums.1
      ij := placed.ij
      matData := placed.matData
      numRows := rows
      numCols := cols
      nonZeroes := counted.1 }

/-- `SMatGetRowSize`: where the next row starts, less where this one does. -/
def sMatGetRowSize (a : SparseMatrix α) (row : ℕ) : ℤ := a.ia (row+1)-a.ia row

/-- `SMatGetElem`, with the column first. The index counts from the start of the row. -/
def sMatGetElem (a : SparseMatrix α) (row : ℕ) (idx : ℤ) : ℤ×α :=
  (a.ij (a.ia row+idx),a.matData (a.ia row+idx))

variable [Zero α] [Add α] [Mul α]

/-- `vec_out[row] += vec_in[col] * data;`. Additions and products may round, so their order is
kept. -/
def addElem (vecIn : ℤ → α) (row : ℕ) (vecOut : ℤ → α) (elem : ℤ×α) : ℤ → α :=
  Function.update vecOut row (vecOut row+vecIn elem.1*elem.2)

/-- `while (idx < row_size - 8)`: eight elements are loaded and added; `none` when the fuel does
not suffice. -/
def unrolledLoop (a : SparseMatrix α) (vecIn : ℤ → α) (row : ℕ) :
    ℕ → ℕ → (ℤ → α) → Option (ℕ×(ℤ → α))
  | 0, _, _ => none
  | fuel+1, idx, vecOut =>
    if (idx : ℤ) < sMatGetRowSize a row-8 then
      let ia := a.ia row
      let elems := (List.range 8).map fun u : ℕ => (a.ij (ia+idx+u),a.matData (ia+idx+u))
      unrolledLoop a vecIn row fuel (idx+8) (elems.foldl (addElem vecIn row) vecOut)
    else some (idx,vecOut)

/-- `for (; idx < row_size; idx++)`: what the unrolled loop has left of a row, up to eight
elements. -/
def restLoop (a : SparseMatrix α) (vecIn : ℤ → α) (row idx : ℕ) (vecOut : ℤ → α) : ℤ → α :=
  (List.range' idx (sMatGetRowSize a row-idx).toNat).foldl
    (fun out idx => addElem vecIn row out (sMatGetElem a row (idx : ℕ))) vecOut

/-- A row of `Task_SMVMRows`: the result is set to zero, eight elements are added in a turn, and
then the rest. -/
def smvmRow (fuel : ℕ) (a : SparseMatrix α) (vecIn vecOut : ℤ → α) (row : ℕ) :
    Option (ℤ → α) :=
  (unrolledLoop a vecIn row fuel 0 (Function.update vecOut row 0)).map fun s =>
    restLoop a vecIn row s.1 s.2

/-- `Task_SMVMRows` for the rows from `begin` up to `end`, one after the other. A row is added up in
place in `vec_out`. -/
def taskSMVMRows (fuel : ℕ) (a : SparseMatrix α) (vecIn vecOut : ℤ → α) (tdesc : ℕ×ℕ) :
    Option (ℤ → α) :=
  (List.range' tdesc.1 (tdesc.2-tdesc.1)).foldlM (smvmRow fuel a vecIn) vecOut

/-- The tasks one after the other. They write different rows, so the order in which cores take them
does not matter. -/
def runTasks (fuel : ℕ) (a : SparseMatrix α) (vecIn vecOut : ℤ → α) (tasks : List (ℕ×ℕ)) :
    Option (ℤ → α) :=
  tasks.foldlM (taskSMVMRows fuel a vecIn) vecOut

/-- `MatVecMul`, the simple loop over all rows that the tasks are compared with. It adds the
elements of a row in the same order. -/
def matVecMul (matrixDim : ℕ) (a : SparseMatrix α) (vecn vecOut : ℤ → α) : ℤ → α :=
  (List.range matrixDim).foldl (fun out row =>
    (List.range (sMatGetRowSize a row).toNat).foldl
      (fun out idx => addElem vecn row out (sMatGetElem a row (idx : ℕ)))
      (Function.update out row 0)) vecOut

end Code

section Build

variable {α : Type} {list : ℕ → Entry α} {n rows fuel : ℕ}

/-- The first triplets of the list: all of them, or those that a loop has passed so far. -/
def triplets (list : ℕ → Entry α) (n : ℕ) : List (Entry α) := (List.range n).map list

/-- The row of a triplet that is not the end of the list, which is never negative there. -/
def rowOf (e : Entry α) : ℕ := e.row.toNat

/-- The list has `n` triplets in the rows of the matrix, and then ends with the row -1. Triplets may
be in any order, and rows may be empty. -/
structure Listed (list : ℕ → Entry α) (n rows : ℕ) : Prop where
  /-- The end of the list. -/
  ended : (list n).row=-1
  /-- The rows are those of the matrix. -/
  inside : ∀ i, i<n → 0≤(list i).row ∧ (list i).row < rows

/-- Another triplet. -/
theorem triplets_succ (list : ℕ → Entry α) (i : ℕ) :
    triplets list (i+1)=triplets list i++[list i] := by
  unfold triplets
  rw [List.range_succ,List.map_append]
  rfl

/-- A triplet stands between the ones before and the ones behind it. -/
theorem triplets_split {i : ℕ} (hi : i<n) :
    ∃ rest, triplets list n=triplets list i++list i::rest := by
  obtain ⟨d,rfl⟩ := Nat.exists_eq_add_of_lt hi
  induction d with
  | zero => exact ⟨[],triplets_succ list i⟩
  | succ d ih =>
    obtain ⟨rest,hrest⟩ := ih (by omega)
    refine ⟨rest++[list (i+d+1)],?_⟩
    rw [show i+(d+1)+1=i+d+1+1 by omega,triplets_succ,hrest,List.append_assoc]
    rfl

/-- The row of a listed triplet. -/
theorem Listed.row_eq (h : Listed list n rows) {i : ℕ} (hi : i<n) :
    (list i).row=rowOf (list i) ∧ rowOf (list i) < rows := by
  have hin := h.inside i hi
  unfold rowOf
  omega

/-- The first offsets are zero after the clearing. -/
theorem clear_eq {count r : ℕ} (colOffsets : ℤ → ℤ) (hr : r < count) :
    clear count colOffsets r=0 := by
  exact stores_map (List.mem_range.2 hr) fun _ _ _ => rfl

/-- The offsets are the numbers of triplets in the rows, as far as the first loop has come. -/
def Counted (list : ℕ → Entry α) (rows t : ℕ) (colOffsets : ℤ → ℤ) : Prop :=
  ∀ r : ℕ, r < rows → colOffsets r=(bucket rowOf (triplets list t) r).length

/-- Nothing is counted at first. -/
theorem counted_clear (list : ℕ → Entry α) (rows : ℕ) (colOffsets : ℤ → ℤ) :
    Counted list rows 0 (clear rows colOffsets) := fun _ hr => clear_eq colOffsets hr

/-- The next triplet is counted in its row. -/
theorem Counted.next {t : ℕ} {colOffsets : ℤ → ℤ} (h : Counted list rows t colOffsets)
    (hrow : (list t).row=rowOf (list t)) :
    Counted list rows (t+1)
      (Function.update colOffsets (list t).row (colOffsets (list t).row+1)) := by
  intro r hr
  rw [triplets_succ,bucket_concat,hrow]
  by_cases hsame : rowOf (list t)=r
  · rw [hsame,Function.update_self,h r hr,if_pos rfl,List.length_append]
    push_cast
    rfl
  · rw [Function.update_of_ne (by omega),if_neg hsame,List.append_nil]
    exact h r hr

/-- The first loop ends at the end of the list with all triplets counted. -/
theorem countLoop_spec {size i : ℕ} {colOffsets : ℤ → ℤ} (hlist : Listed list n rows) (hi : i≤n)
    (hfuel : n<fuel+i) (h : Counted list size i colOffsets) :
    ∃ counts, countLoop list fuel i colOffsets=some (n,counts) ∧ Counted list size n counts := by
  induction fuel generalizing i colOffsets with
  | zero => omega
  | succ fuel ih =>
    rw [countLoop]
    by_cases hlast : i=n
    · subst hlast
      rw [if_neg (fun hne => hne hlist.ended)]
      exact ⟨_,rfl,h⟩
    · obtain ⟨hrow,-⟩ := hlist.row_eq (show i<n by omega)
      rw [if_pos (by omega)]
      exact ih (by omega) (by omega) (h.next hrow)

/-- The starts of the first rows, and their ends in the place of the numbers of triplets; the other
rows still have their numbers. -/
structure Summed (list : ℕ → Entry α) (n rows k : ℕ) (s : (ℤ → ℤ)×(ℤ → ℤ)) : Prop where
  /-- The starts of the rows. -/
  starts : ∀ j : ℕ, j≤k → s.1 j=start rowOf (triplets list n) j
  /-- The end of the last of them. -/
  last : s.2 k=start rowOf (triplets list n) (k+1)
  /-- The numbers of triplets in the other rows. -/
  counts : ∀ j : ℕ, k < j → j ≤ rows → s.2 j=(bucket rowOf (triplets list n) j).length

/-- The sums go on by a row: it starts where the row before it ends. -/
theorem Summed.next {k : ℕ} {s : (ℤ → ℤ)×(ℤ → ℤ)} (h : Summed list n rows k s) (hk : k < rows) :
    Summed list n rows (k+1) (sumTurn s (k+1)) := by
  have hbefore : (((k+1 : ℕ) : ℤ)-1)=k := by
    push_cast
    omega
  unfold sumTurn
  refine ⟨fun j hj => ?_,?_,fun j hj hrows => ?_⟩
  · dsimp only
    rw [hbefore,h.last]
    by_cases hnew : j=k+1
    · rw [hnew,Function.update_self]
    · rw [Function.update_of_ne (by omega)]
      exact h.starts j (by omega)
  · dsimp only
    rw [hbefore,Function.update_self,h.last,h.counts (k+1) (by omega) hk,start_succ _ _ (k+1)]
    push_cast
    omega
  · dsimp only
    rw [Function.update_of_ne (by omega)]
    exact h.counts j (by omega) hrows

/-- The second loop finds the starts of all rows. -/
theorem summed_run {counts ia : ℤ → ℤ} (h : Counted list (rows+1) n counts) {k : ℕ}
    (hk : k ≤ rows) :
    Summed list n rows k
      ((List.range' 1 k).foldl sumTurn (Function.update ia 0 0,counts)) := by
  induction k with
  | zero =>
    refine ⟨fun j hj => ?_,?_,fun j _ hj => h j (by omega)⟩
    · rw [Nat.le_zero.1 hj,start_zero]
      exact Function.update_self 0 0 ia
    · rw [start_succ,start_zero,Nat.zero_add]
      exact h 0 (by omega)
  | succ k ih =>
    rw [List.range'_1_concat,List.foldl_append,Nat.add_comm 1 k]
    exact (ih (by omega)).next hk

/-- The column and the value of a triplet, as `SMatGetElem` gives them. -/
def elemOf (e : Entry α) : ℤ×α := (e.col,e.value)

/-- The first triplets are placed behind each other in their rows, in the order of the list. -/
structure Placed (list : ℕ → Entry α) (n rows t : ℕ) (s : Placing α) : Prop where
  /-- The used places of each row. -/
  counted : Counted list rows t s.colOffsets
  /-- The columns and values. -/
  filled : Filled rowOf elemOf (triplets list n) (triplets list t)
    fun x : ℕ => (s.ij x,s.matData x)

/-- Stores of a column and a value at a place that is not negative. -/
theorem update_pair (ij : ℤ → ℤ) (matData : ℤ → α) (k : ℕ) (col : ℤ) (value : α) :
    (fun x : ℕ => (Function.update ij k col x,Function.update matData k value x))=
      Function.update (fun x : ℕ => (ij x,matData x)) k (col,value) := by
  funext x
  by_cases hx : x=k
  · rw [hx,Function.update_self,Function.update_self,Function.update_self]
  · rw [Function.update_of_ne hx,Function.update_of_ne (by omega),
      Function.update_of_ne (by omega)]

/-- Another triplet is placed. It goes to the first free place of its row, so it moves no other. -/
theorem Placed.next {t : ℕ} {s : Placing α} {ia : ℤ → ℤ} (hlist : Listed list n rows)
    (hia : ∀ r : ℕ, r ≤ rows → ia r=start rowOf (triplets list n) r) (ht : t<n)
    (h : Placed list n rows t s) : Placed list n rows (t+1) (placeTurn ia list s t) := by
  obtain ⟨hrow,hlt⟩ := hlist.row_eq ht
  obtain ⟨rest,hsplit⟩ : ∃ rest, triplets list n=triplets list t++list t::rest :=
    triplets_split ht
  have hidx : ia (list t).row+s.colOffsets (list t).row=
      ((start rowOf (triplets list n) (rowOf (list t))+
        (bucket rowOf (triplets list t) (rowOf (list t))).length : ℕ) : ℤ) := by
    rw [hrow,hia _ (Nat.le_of_lt hlt),h.counted _ hlt]
    push_cast
    rfl
  unfold placeTurn
  dsimp only
  rw [hidx]
  refine ⟨h.counted.next hrow,?_⟩
  dsimp only
  rw [update_pair,triplets_succ]
  exact h.filled.place hsplit

/-- The third loop places all triplets. -/
theorem placed_run {s : Placing α} {ia : ℤ → ℤ} (hlist : Listed list n rows)
    (hia : ∀ r : ℕ, r ≤ rows → ia r=start rowOf (triplets list n) r)
    (h : Placed list n rows 0 s) {t : ℕ} (ht : t≤n) :
    Placed list n rows t ((List.range t).foldl (placeTurn ia list) s) := by
  induction t with
  | zero => exact h
  | succ t ih =>
    rw [List.range_succ,List.foldl_append]
    exact (ih (by omega)).next hlist hia ht

/-- The elements of a row of the matrix, with their columns, in the order in which they lie in the
arrays. -/
def segment (a : SparseMatrix α) (row : ℕ) : List (ℤ×α) :=
  (List.range (sMatGetRowSize a row).toNat).map fun idx : ℕ => sMatGetElem a row idx

/-- The triplets of a row, in the order of the list. These are what the row should hold. -/
def rowTriplets (list : ℕ → Entry α) (n row : ℕ) : List (ℤ×α) :=
  ((triplets list n).filter fun e => decide (e.row=(row : ℤ))).map elemOf

/-- A matrix that holds the triplets row by row, each row in the order of the list. -/
structure Built (list : ℕ → Entry α) (n rows : ℕ) (a : SparseMatrix α) : Prop where
  /-- The first row starts at the beginning. -/
  first : a.ia 0=0
  /-- Rows do not end before they start. -/
  mono : ∀ r : ℕ, r < rows → a.ia r≤a.ia (r+1)
  /-- The last row ends behind the last triplet. -/
  last : a.ia rows=n
  /-- A row has its triplets in list order. -/
  segments : ∀ r : ℕ, r < rows → segment a r=rowTriplets list n r

/-- Filled buckets that start at the starts of the rows are the rows of the matrix. Nothing else of
the arrays is read. -/
theorem built_of_placed {a : SparseMatrix α} {s : Placing α} (hlist : Listed list n rows)
    (hia : ∀ r : ℕ, r ≤ rows → a.ia r=start rowOf (triplets list n) r)
    (h : Placed list n rows n s) (hij : a.ij=s.ij) (hdata : a.matData=s.matData) :
    Built list n rows a := by
  have hsize : ∀ r : ℕ, r < rows → a.ia (r+1)=
      start rowOf (triplets list n) (r+1) := fun r hr => by
    rw [←hia (r+1) hr]
    push_cast
    rfl
  have hnext := start_succ rowOf (triplets list n)
  refine ⟨?_,fun r hr => ?_,?_,fun r hr => ?_⟩
  · rw [show (0 : ℤ)=((0 : ℕ) : ℤ) from rfl,hia 0 (Nat.zero_le _),start_zero]
  · rw [hsize r hr,hia r (Nat.le_of_lt hr),hnext r]
    omega
  · rw [hia rows (Nat.le_refl rows),start_all fun e he => ?_]
    · unfold triplets
      rw [List.length_map,List.length_range]
    · obtain ⟨i,hi,rfl⟩ := List.mem_map.1 he
      exact (hlist.row_eq (List.mem_range.1 hi)).2
  · have hbucket : bucket rowOf (triplets list n) r=
        (triplets list n).filter fun e => decide (e.row=(r : ℤ)) := by
      refine List.filter_congr fun e he => ?_
      obtain ⟨i,hi,rfl⟩ := List.mem_map.1 he
      have hrow := (hlist.row_eq (List.mem_range.1 hi)).1
      rw [decide_eq_decide]
      omega
    unfold segment rowTriplets sMatGetRowSize sMatGetElem
    rw [hsize r hr,hia r (Nat.le_of_lt hr),hij,hdata,←hbucket,←h.filled.segment r]
    congr 2
    omega

/-- `SMatInit` builds the matrix of the listed triplets, whatever the arrays hold before. -/
theorem sMatInit_spec (hlist : Listed list n rows) (hfuel : n<fuel) (cols : ℕ)
    (colOffsets : ℤ → ℤ) (a : SparseMatrix α) :
    ∃ m, sMatInit fuel rows cols list colOffsets a=some m ∧ Built list n rows m ∧
      m.numRows=rows ∧ m.numCols=cols ∧ m.nonZeroes=n := by
  obtain ⟨counts,hrun,hcounts⟩ := countLoop_spec hlist (Nat.zero_le n)
    (show n<fuel+0 by omega) (counted_clear list (rows+1) colOffsets)
  have hsums : Summed list n rows rows
      ((List.range' 1 rows).foldl sumTurn (Function.update a.ia 0 0,counts)) :=
    summed_run hcounts (Nat.le_refl rows)
  have hplaced := placed_run (s := ⟨clear rows ((List.range' 1 rows).foldl sumTurn
    (Function.update a.ia 0 0,counts)).2,a.ij,a.matData⟩) hlist hsums.starts
    ⟨counted_clear list rows _,fun r d e he => by cases he⟩ (Nat.le_refl n)
  unfold sMatInit
  rw [hrun]
  exact ⟨_,rfl,built_of_placed hlist hsums.starts hplaced rfl rfl,rfl,rfl,rfl⟩

end Build

section Multiply

variable {α : Type} {a : SparseMatrix α} {vecIn vecOut : ℤ → α} {fuel row : ℕ}

/-- Some elements of a row, from an index on: those of one turn of the unrolled loop, for
example. -/
def elemsFrom (a : SparseMatrix α) (row idx count : ℕ) : List (ℤ×α) :=
  (List.range' idx count).map fun i : ℕ => sMatGetElem a row i

/-- Eight elements are loaded at a time. -/
theorem loads_eq (a : SparseMatrix α) (row idx : ℕ) :
    ((List.range 8).map fun u : ℕ => (a.ij (a.ia row+idx+u),a.matData (a.ia row+idx+u)))=
      elemsFrom a row idx 8 := by
  unfold elemsFrom sMatGetElem
  rw [List.range'_eq_map_range,List.map_map]
  refine List.map_congr_left fun u _ => ?_
  have hplace : a.ia row+idx+u=a.ia row+((idx+u : ℕ) : ℤ) := by
    push_cast
    omega
  rw [hplace]
  rfl

/-- Stores of results by row hold at the rows, whatever their order. -/
theorem stores_rows {rows : List ℕ} {value : ℕ → α} (hrow : row∈rows) :
    stores vecOut (rows.map fun row : ℕ => ((row : ℤ),value row)) row=value row := by
  exact stores_map hrow fun r _ hr => congrArg value (Int.ofNat.inj hr)

variable [Add α] [Mul α]

/-- The sum of the products of some elements on top of a value, in their order. Nothing is assumed
of the addition. -/
def sumFrom (vecIn : ℤ → α) (acc : α) (elems : List (ℤ×α)) : α :=
  elems.foldl (fun acc elem => acc+vecIn elem.1*elem.2) acc

/-- Additions to a result are additions to its sum. -/
theorem addElem_foldl (elems : List (ℤ×α)) (out : ℤ → α) :
    elems.foldl (addElem vecIn row) out=
      Function.update out row (sumFrom vecIn (out row) elems) := by
  induction elems generalizing out with
  | nil => exact (Function.update_eq_self _ _).symm
  | cons e elems ih =>
    rw [List.foldl_cons,ih]
    unfold addElem
    rw [Function.update_idem,Function.update_self]
    rfl

/-- The two loops add the elements from an index on in their order: eight in a turn first, and the
rest one by one. -/
theorem loops_eq {idx size : ℕ} (hsize : (sMatGetRowSize a row).toNat=idx+size)
    (hfuel : size<fuel) (out : ℤ → α) :
    (unrolledLoop a vecIn row fuel idx out).map (fun s => restLoop a vecIn row s.1 s.2)=
      some ((elemsFrom a row idx size).foldl (addElem vecIn row) out) := by
  induction fuel generalizing idx size out with
  | zero => omega
  | succ fuel ih =>
    rw [unrolledLoop]
    by_cases hmore : (idx : ℤ) < sMatGetRowSize a row-8
    · obtain ⟨rest,rfl⟩ : ∃ rest, size=8+rest := ⟨size-8,by omega⟩
      rw [if_pos hmore]
      dsimp only
      have hrest : (sMatGetRowSize a row).toNat=idx+8+rest := by omega
      rw [loads_eq,ih hrest (by omega),←List.foldl_append]
      unfold elemsFrom
      rw [←List.map_append,List.range'_append_1]
    · rw [if_neg hmore,Option.map_some]
      have hrest : (sMatGetRowSize a row-idx).toNat=size := by omega
      unfold restLoop elemsFrom
      rw [hrest,List.foldl_map]

variable [Zero α]

/-- The result of a row: the sum over all of its elements, from zero on. -/
def rowValue (a : SparseMatrix α) (vecIn : ℤ → α) (row : ℕ) : α :=
  sumFrom vecIn 0 (elemsFrom a row 0 (sMatGetRowSize a row).toNat)

/-- A row of a task is stored with the result of `MatVecMul`. -/
theorem smvmRow_eq (hfuel : sMatGetRowSize a row<fuel) (hpos : 0 < fuel) (out : ℤ → α) :
    smvmRow fuel a vecIn out row=some (stores out [((row : ℤ),rowValue a vecIn row)]) := by
  have hsize : (sMatGetRowSize a row).toNat=0+(sMatGetRowSize a row).toNat :=
    (Nat.zero_add _).symm
  unfold smvmRow
  rw [loops_eq hsize (by omega),addElem_foldl,Function.update_idem,Function.update_self]
  rfl

/-- A row of `MatVecMul` is stored with its result. -/
theorem matRow_eq (row : ℕ) (out : ℤ → α) :
    (List.range (sMatGetRowSize a row).toNat).foldl
      (fun out idx => addElem vecIn row out (sMatGetElem a row (idx : ℕ)))
      (Function.update out row 0)=stores out [((row : ℤ),rowValue a vecIn row)] := by
  have helems : ∀ o : ℤ → α, (List.range (sMatGetRowSize a row).toNat).foldl
      (fun out idx => addElem vecIn row out (sMatGetElem a row (idx : ℕ))) o=
        (elemsFrom a row 0 (sMatGetRowSize a row).toNat).foldl (addElem vecIn row) o := by
    intro o
    unfold elemsFrom
    rw [List.foldl_map,List.range_eq_range']
  rw [helems,addElem_foldl,Function.update_idem,Function.update_self]
  rfl

/-- `MatVecMul` stores the result of every row. -/
theorem matVecMul_eq (matrixDim : ℕ) :
    matVecMul matrixDim a vecIn vecOut=
      stores vecOut ((List.range matrixDim).map fun row : ℕ =>
        ((row : ℤ),rowValue a vecIn row)) := by
  rw [List.map_eq_flatMap]
  exact foldl_stores (fun out row => matRow_eq row out) _ vecOut

/-- The rows of a task, from the first one up to the one that it stops before. -/
def rowsOf (tdesc : ℕ×ℕ) : List ℕ := List.range' tdesc.1 (tdesc.2-tdesc.1)

/-- The tasks store the results of their rows. -/
theorem runTasks_eq {tasks : List (ℕ×ℕ)} (hpos : 0 < fuel)
    (hfuel : ∀ row, row∈tasks.flatMap rowsOf → sMatGetRowSize a row<fuel) :
    runTasks fuel a vecIn vecOut tasks=some (stores vecOut
      ((tasks.flatMap rowsOf).map fun row : ℕ => ((row : ℤ),rowValue a vecIn row))) := by
  unfold runTasks
  rw [List.map_flatMap]
  refine foldlM_stores (fun tdesc ht out => ?_) vecOut
  have hrow : ∀ row, row∈rowsOf tdesc → ∀ out : ℤ → α, smvmRow fuel a vecIn out row=
      some (stores out [((row : ℤ),rowValue a vecIn row)]) := fun row hrow out =>
    smvmRow_eq (hfuel row (List.mem_flatMap.2 ⟨tdesc,ht,hrow⟩)) hpos out
  have hrows := foldlM_stores hrow out
  rw [←List.map_eq_flatMap] at hrows
  exact hrows

/-- Tasks that cover the rows in any order give the result of `MatVecMul` there, and store to no
other place. -/
theorem smvm_spec {tasks : List (ℕ×ℕ)} {rows matrixDim : ℕ} (hdim : rows ≤ matrixDim)
    (hpos : 0 < fuel) (hfuel : ∀ r : ℕ, r < rows → sMatGetRowSize a r<fuel)
    (htasks : (tasks.flatMap rowsOf).Perm (List.range rows)) :
    ∃ out, runTasks fuel a vecIn vecOut tasks=some out ∧
      (∀ r : ℕ, r < rows → out r=matVecMul matrixDim a vecIn vecOut r) ∧
      (∀ x : ℤ, x<0 ∨ rows≤x → out x=vecOut x) ∧
      (rows=matrixDim → out=matVecMul matrixDim a vecIn vecOut) := by
  have hmem : ∀ r, r∈tasks.flatMap rowsOf ↔ r < rows := fun r => by
    rw [htasks.mem_iff,List.mem_range]
  have hrows : ∀ r : ℕ, r < rows → stores vecOut
      ((tasks.flatMap rowsOf).map fun row : ℕ => ((row : ℤ),rowValue a vecIn row)) r=
        matVecMul matrixDim a vecIn vecOut r := by
    intro r hr
    rw [matVecMul_eq,stores_rows ((hmem r).2 hr),stores_rows (List.mem_range.2 (by omega))]
  have hother : ∀ x : ℤ, x<0 ∨ rows≤x → stores vecOut
      ((tasks.flatMap rowsOf).map fun row : ℕ => ((row : ℤ),rowValue a vecIn row)) x=vecOut x := by
    intro x hx
    refine stores_map_keep fun r hr => ?_
    have hlt := (hmem r).1 hr
    omega
  refine ⟨_,runTasks_eq hpos fun r hr => hfuel r ((hmem r).1 hr),hrows,hother,fun hdim' => ?_⟩
  funext x
  by_cases hx : x<0 ∨ rows≤x
  · rw [hother x hx,matVecMul_eq]
    refine (stores_map_keep fun r hr => ?_).symm
    have hlt := List.mem_range.1 hr
    omega
  · obtain ⟨r,rfl⟩ : ∃ r : ℕ, x=r := ⟨x.toNat,by omega⟩
    exact hrows r (by omega)

/-- A row has no more elements than there are triplets. -/
theorem Built.rowSize_le {α : Type} {a : SparseMatrix α} {list : ℕ → Entry α} {n rows r : ℕ}
    (h : Built list n rows a) (hr : r < rows) : sMatGetRowSize a r≤n := by
  have hlength := congrArg List.length (h.segments r hr)
  unfold segment rowTriplets triplets at hlength
  rw [List.length_map,List.length_range,List.length_map] at hlength
  have hle := List.length_filter_le (fun e => decide (e.row=(r : ℤ))) ((List.range n).map list)
  rw [List.length_map,List.length_range] at hle
  omega

/-- For every list of triplets and whatever the arrays hold before, `SMatInit` builds a matrix of
the triplets, row by row in list order; and for every partition of its rows into ranges, in every
order of the tasks and with any addition and multiplication, the tasks give the result of
`MatVecMul` in the rows of the matrix and leave the rest of the vector alone. -/
theorem sparse_build_multiply {list : ℕ → Entry α} {n rows : ℕ} (hlist : Listed list n rows)
    (hfuel : n<fuel) (cols : ℕ) (colOffsets : ℤ → ℤ) (a : SparseMatrix α) :
    ∃ m, sMatInit fuel rows cols list colOffsets a=some m ∧ Built list n rows m ∧
      ∀ (vecIn vecOut : ℤ → α) (tasks : List (ℕ×ℕ)) (matrixDim : ℕ), rows ≤ matrixDim →
        (tasks.flatMap rowsOf).Perm (List.range rows) →
        ∃ out, runTasks fuel m vecIn vecOut tasks=some out ∧
          (∀ r : ℕ, r < rows → out r=matVecMul matrixDim m vecIn vecOut r) ∧
          (∀ x : ℤ, x<0 ∨ rows≤x → out x=vecOut x) ∧
          (rows=matrixDim → out=matVecMul matrixDim m vecIn vecOut) := by
  obtain ⟨m,hrun,hbuilt,-⟩ := sMatInit_spec hlist hfuel cols colOffsets a
  refine ⟨m,hrun,hbuilt,fun vecIn vecOut tasks matrixDim hdim htasks => ?_⟩
  refine smvm_spec hdim (by omega) (fun r hr => ?_) htasks
  have hle := hbuilt.rowSize_le hr
  omega

end Multiply

/-- Fourteen triplets: every fifth is in the middle row of three, the others are in the first. -/
def fourteenTriplets (i : ℕ) : Entry ℤ :=
  if i<14 then ⟨i,if i%5=0 then 1 else 0,13-i⟩ else ⟨0,-1,-1⟩

/-- The matrix of the triplets, in arrays of zeros, and its rows in two tasks. The first row has
eleven elements, so that a turn of the unrolled loop comes before the loop over the rest; the last
row has none. -/
theorem sparse_build_multiply_fourteen :
    ∃ m, sMatInit 15 3 14 fourteenTriplets (fun _ => 0)
        ⟨fun _ => 0,fun _ => 0,fun _ => 0,0,0,0⟩=some m ∧
      Built fourteenTriplets 14 3 m ∧
      runTasks 15 m (fun x => x) (fun _ => 1) [(2,3),(0,2)]=
        some (matVecMul 3 m (fun x => x) fun _ => 1) := by
  have hlist : Listed fourteenTriplets 14 3 := ⟨rfl,by decide⟩
  obtain ⟨m,hrun,hbuilt,hmultiply⟩ := sparse_build_multiply hlist (show 14<15 by decide) 14
    (fun _ => 0) ⟨fun _ => 0,fun _ => 0,fun _ => 0,0,0,0⟩
  obtain ⟨out,hout,-,-,hsame⟩ := hmultiply (fun x => x) (fun _ => 1) [(2,3),(0,2)] 3
    (by decide) (by decide)
  exact ⟨m,hrun,hbuilt,by rw [hout,hsame rfl]⟩

end RigelTarget.ConjugateGradient
