import RigelTarget.CacheLine
import Mathlib.Data.List.ProdSigma
import Mathlib.Tactic.Ring

/-!
# Cache maintenance of the stencil benchmark

After a timestep a thread writes back the lines of the points it has written, and before the next
one it invalidates the lines of the points it will read: rows of eight-point steps, each followed
by the address behind the row. The step from the last line of a row may miss the line of its tail,
whatever the alignment of the row; the last visit does not.
-/

namespace RigelTarget.StencilCache

open CacheLine

/-- The bounds that `stencil_1ts`, `stencil_1ts_writeback` and `stencil_1ts_invalidate` get:
half-open ranges in three dimensions inside the grid. -/
structure Box where
  /-- First column. -/
  xlow : ℤ
  /-- End of the columns. -/
  xhigh : ℤ
  /-- First row. -/
  ylow : ℤ
  /-- End of the rows. -/
  yhigh : ℤ
  /-- First plane. -/
  zlow : ℤ
  /-- End of the planes. -/
  zhigh : ℤ

/-- The values of `for (v = low; v < high; v++)`. -/
def span (low high : ℤ) : List ℤ := (List.range (high-low).toNat).map fun v : ℕ => low+v

/-- `addr + n` for a pointer to floats, in 32 bits. -/
def advance (addr : ℕ) (n : ℤ) : ℕ := ((addr+4*n)%2^32).toNat

section Code

variable (nx ny : ℕ)

/-- `&base[Index3D (nx, ny, i, j, k)]`, in 32 bits. -/
def address (base : ℕ) (i j k : ℤ) : ℕ := advance base ((i+nx*(j+ny*k))%2^32)

/-- The addresses that a row passes to the line operation: `while (addr < end) addr += 8`, and the
end. -/
def lineLoop (stop : ℕ) : ℕ → ℕ → Option (List ℕ)
  | 0, _ => none
  | fuel+1, addr =>
    if addr < stop then (lineLoop stop fuel (advance addr 8)).map (addr::·) else some [stop]

/-- The rows `(k, j)` one after the other. -/
def rowLoop (row : ℤ×ℤ → Option (List ℕ)) : List (ℤ×ℤ) → Option (List ℕ)
  | [] => some []
  | r::rows => do
    let first ← row r
    let rest ← rowLoop row rows
    return first++rest

/-- The row `(k, j)` of `stencil_1ts_writeback`: from the first point in steps of a line, and the
line of the last point besides. -/
def writebackRow (fuel next : ℕ) (b : Box) : ℤ×ℤ → Option (List ℕ)
  | (k,j) =>
    let addr := address nx ny next b.xlow j k
    lineLoop (advance addr (b.xhigh-b.xlow)) fuel addr

/-- The addresses passed to `RigelWritebackLine`. -/
def stencil1tsWriteback (fuel next : ℕ) (b : Box) : Option (List ℕ) :=
  rowLoop (writebackRow nx ny fuel next b) (span b.zlow b.zhigh ×ˢ span b.ylow b.yhigh)

/-- The row `(k, j)` of `stencil_1ts_invalidate`, which also covers the points before and after the
row. -/
def invalidateRow (fuel curr : ℕ) (b : Box) : ℤ×ℤ → Option (List ℕ)
  | (k,j) =>
    let addr := address nx ny curr (b.xlow-1) j k
    lineLoop (advance (advance addr (b.xhigh-b.xlow)) 2) fuel addr

/-- The addresses passed to `RigelInvalidateLine`. -/
def stencil1tsInvalidate (fuel curr : ℕ) (b : Box) : Option (List ℕ) :=
  rowLoop (invalidateRow nx ny fuel curr b)
    (span (b.zlow-1) (b.zhigh+1) ×ˢ span (b.ylow-1) (b.yhigh+1))

/-- The points `(k, j, i)` that `stencil_1ts` visits. -/
def points (b : Box) : List (ℤ×ℤ×ℤ) :=
  span b.zlow b.zhigh ×ˢ span b.ylow b.yhigh ×ˢ span b.xlow b.xhigh

/-- The addresses that `stencil_1ts` writes. -/
def stencil1tsWrites (next : ℕ) (b : Box) : List ℕ :=
  (points b).map fun (k,j,i) => address nx ny next i j k

/-- The addresses in the box and next to it that `stencil_1ts` reads, in all six directions. -/
def stencil1tsReads (curr : ℕ) (b : Box) : List ℕ :=
  (points b).flatMap fun (k,j,i) =>
    [address nx ny curr i j (k+1),address nx ny curr i j (k-1),address nx ny curr i (j+1) k,
      address nx ny curr i (j-1) k,address nx ny curr (i+1) j k,address nx ny curr (i-1) j k,
      address nx ny curr i j k]

end Code

/-- The addresses of a row and the step behind it do not wrap around. -/
def RowFits (addr : ℕ) (len : ℤ) : Prop := 0≤addr+4*len ∧ addr+4*len+32≤2^32

/-- The addresses reach the line of an address. -/
def Reaches (touched : List ℕ) (p : ℕ) : Prop := ∃ q∈touched, q/32=p/32

variable {nx ny fuel : ℕ} {b : Box}

/-- A span holds the values from its start up to its end. -/
theorem mem_span {low high v : ℤ} : v∈span low high ↔ low≤v ∧ v<high := by
  rw [span,List.mem_map]
  constructor
  · rintro ⟨d,hd,rfl⟩
    have hd := List.mem_range.1 hd
    omega
  · intro h
    exact ⟨(v-low).toNat,List.mem_range.2 (by omega),by omega⟩

/-- A point of a row that does not wrap around is as far from its start as its column. -/
theorem address_add {base : ℕ} {i j k d len : ℤ} (hfits : RowFits (address nx ny base i j k) len)
    (h0 : 0≤d) (hd : d<len) :
    (address nx ny base (i+d) j k : ℤ)=address nx ny base i j k+4*d := by
  unfold RowFits at hfits
  unfold address advance at hfits ⊢
  have hcol : i+d+(nx:ℤ)*(j+ny*k)=i+nx*(j+ny*k)+d := by ring
  rw [hcol]
  generalize i+(nx:ℤ)*(j+ny*k)=u at hfits ⊢
  omega

/-- The end of a row that does not wrap around. -/
theorem advance_eq {addr : ℕ} {len : ℤ} (hfits : RowFits addr len) :
    (advance addr len : ℤ)=addr+4*len := by
  unfold RowFits at hfits
  unfold advance
  omega

/-- Eight points on is the next line. -/
theorem advance_line {addr : ℕ} (h : addr+32<2^32) : advance addr 8=addr+32 := by
  unfold advance
  omega

/-- Two steps of a pointer are one. -/
theorem advance_advance (addr : ℕ) (m n : ℤ) : advance (advance addr m) n=advance addr (m+n) := by
  unfold advance
  omega

/-- Below the last line of memory a row is walked to its end, and the end is visited. -/
theorem lineLoop_eq {stop : ℕ} (hstop : stop+32≤2^32) {addr : ℕ} (hfuel : stop≤addr+32*fuel) :
    lineLoop stop (fuel+1) addr=some (walk 32 addr stop++[stop]) := by
  induction fuel generalizing addr with
  | zero =>
    have hend : ¬addr < stop := by omega
    rw [walk,if_neg fun h => hend h.1,lineLoop,if_neg hend,List.nil_append]
  | succ fuel ih =>
    by_cases hlt : addr < stop
    · rw [walk,if_pos ⟨hlt,by decide⟩,lineLoop,if_pos hlt,advance_line (by omega),
        ih (by omega),Option.map_some,List.cons_append]
    · rw [walk,if_neg fun h => hlt h.1,lineLoop,if_neg hlt,List.nil_append]

/-- The loop over a row that does not wrap around ends, and reaches the lines of its points. -/
theorem lineLoop_reaches {addr : ℕ} {len : ℤ} (hfuel : 2^27<fuel) (hfits : RowFits addr len) :
    ∃ touched, lineLoop (advance addr len) fuel addr=some touched ∧
      ∀ d : ℤ, 0≤d → d<len → ∀ p : ℕ, (p : ℤ)=addr+4*d → Reaches touched p := by
  have hend := advance_eq hfits
  unfold RowFits at hfits
  obtain ⟨steps,rfl⟩ : ∃ steps, fuel=steps+1 := ⟨fuel-1,by omega⟩
  refine ⟨_,lineLoop_eq (by omega) (by omega),fun d h0 hd p hp => ?_⟩
  obtain ⟨q,hq,hline⟩ := walk_end_reaches (L := 32) (a := addr) (b := advance addr len) (p := p)
    (by decide) (by omega) (by omega)
  refine ⟨q,List.mem_append.2 ?_,hline⟩
  exact hq.imp_right List.mem_singleton.2

/-- If the loop over every row ends and reaches some addresses, then so do the rows together. -/
theorem rowLoop_reaches {row : ℤ×ℤ → Option (List ℕ)} (S : ℤ×ℤ → ℕ → Prop) {rows : List (ℤ×ℤ)}
    (h : ∀ r∈rows, ∃ touched, row r=some touched ∧ ∀ p, S r p → Reaches touched p) :
    ∃ touched, rowLoop row rows=some touched ∧ ∀ r∈rows, ∀ p, S r p → Reaches touched p := by
  induction rows with
  | nil => exact ⟨[],rfl,fun r hr => absurd hr List.not_mem_nil⟩
  | cons r rows ih =>
    obtain ⟨first,hfirst,hreach⟩ := h r List.mem_cons_self
    obtain ⟨rest,hrest,hrows⟩ := ih fun s hs => h s (List.mem_cons_of_mem r hs)
    refine ⟨first++rest,?_,?_⟩
    · rw [rowLoop,hfirst,hrest]
      rfl
    · intro s hs p hp
      rcases List.mem_cons.1 hs with rfl|hs
      · obtain ⟨q,hq,hline⟩ := hreach p hp
        exact ⟨q,List.mem_append_left _ hq,hline⟩
      · obtain ⟨q,hq,hline⟩ := hrows s hs p hp
        exact ⟨q,List.mem_append_right _ hq,hline⟩

/-- The rows of a box from column `x` on, `len` columns wide, do not wrap around the address space,
not even by the step behind them. -/
def RowsFit (nx ny base : ℕ) (x len ylow yhigh zlow zhigh : ℤ) : Prop :=
  ∀ j k, ylow≤j → j<yhigh → zlow≤k → k<zhigh → RowFits (address nx ny base x j k) len

/-- The loops over all rows of a box end, and reach the line of every point, however the row is
aligned. -/
theorem rows_reach {base : ℕ} {x len ylow yhigh zlow zhigh : ℤ} (row : ℤ×ℤ → Option (List ℕ))
    (hfuel : 2^27<fuel) (hfits : RowsFit nx ny base x len ylow yhigh zlow zhigh)
    (hrow : ∀ k j, row (k,j)=
      lineLoop (advance (address nx ny base x j k) len) fuel (address nx ny base x j k)) :
    ∃ touched, rowLoop row (span zlow zhigh ×ˢ span ylow yhigh)=some touched ∧
      ∀ i j k, x ≤ i → i<x+len → ylow≤j → j<yhigh → zlow≤k → k<zhigh →
        Reaches touched (address nx ny base i j k) := by
  have hone : ∀ r∈span zlow zhigh ×ˢ span ylow yhigh, ∃ touched, row r=some touched ∧
      ∀ p, (∃ i, x ≤ i ∧ i<x+len ∧ p=address nx ny base i r.2 r.1) → Reaches touched p := by
    rintro ⟨k,j⟩ hr
    obtain ⟨hk,hj⟩ := List.mem_product.1 hr
    have hk := mem_span.1 hk
    have hj := mem_span.1 hj
    have hfit := hfits j k hj.1 hj.2 hk.1 hk.2
    obtain ⟨touched,hrun,hreach⟩ := lineLoop_reaches hfuel hfit
    refine ⟨touched,(hrow k j).trans hrun,?_⟩
    rintro p ⟨i,hlow,hhigh,rfl⟩
    refine hreach (i-x) (by omega) (by omega) _ ?_
    rw [←address_add hfit (by omega) (by omega)]
    congr 2
    omega
  obtain ⟨touched,hrun,hreach⟩ := rowLoop_reaches
    (fun r p => ∃ i, x ≤ i ∧ i<x+len ∧ p=address nx ny base i r.2 r.1) hone
  refine ⟨touched,hrun,fun i j k hi hi' hj hj' hk hk' => ?_⟩
  exact hreach (k,j) (List.mem_product.2 ⟨mem_span.2 ⟨hk,hk'⟩,mem_span.2 ⟨hj,hj'⟩⟩) _
    ⟨i,hi,hi',rfl⟩

/-- The rows of a box in a grid whose array ends a line before the end of memory do not wrap
around. -/
theorem rowsFit_of_grid {base : ℕ} (nz : ℕ) {x len ylow yhigh zlow zhigh : ℤ}
    (harray : base+4*(nx*ny*nz)+32≤2^32) (hx : 0≤x ∧ x+len≤nx) (hlen : 0≤len)
    (hy : 0≤ylow ∧ yhigh≤ny) (hz : 0≤zlow ∧ zhigh≤nz) :
    RowsFit nx ny base x len ylow yhigh zlow zhigh := by
  intro j k hj hj' hk hk'
  have hpos : 0≤(nx:ℤ)*(j+ny*k) := by
    have hk0 : 0≤(ny:ℤ)*k := Int.mul_nonneg (by omega) (by omega)
    exact Int.mul_nonneg (by omega) (by omega)
  have hlast : x+nx*(j+ny*k)+len≤nx*ny*nz :=
    calc x+nx*(j+ny*k)+len≤nx*1+nx*(j+ny*k) := by omega
      _ = nx*(j+1+ny*k) := by ring
      _ ≤ nx*(ny+ny*k) := Int.mul_le_mul_of_nonneg_left (by omega) (by omega)
      _ = nx*ny*(k+1) := by ring
      _ ≤ nx*ny*nz := Int.mul_le_mul_of_nonneg_left (by omega)
        (Int.mul_nonneg (by omega) (by omega))
  have harray : (base:ℤ)+4*(nx*ny*nz)+32≤2^32 := by exact_mod_cast harray
  unfold RowFits address advance
  generalize (nx:ℤ)*(j+ny*k)=u at hpos hlast ⊢
  generalize (nx:ℤ)*ny*nz=size at hlast harray
  omega

/-- The points of a box. -/
theorem mem_points {i j k : ℤ} : (k,j,i)∈points b ↔ (b.zlow≤k ∧ k<b.zhigh) ∧
    (b.ylow≤j ∧ j<b.yhigh) ∧ b.xlow ≤ i ∧ i<b.xhigh := by
  unfold points
  rw [List.mem_product,List.mem_product,mem_span,mem_span,mem_span]

/-- For all arrays, sizes of the grid and boxes whose rows do not wrap around memory, the
write-back ends and reaches the line of every written point, and the invalidation ends and reaches
the line of every point of the box and of its six neighbours that is read. -/
theorem stencil_lines_covered {next curr : ℕ} (hfuel : 2^27<fuel)
    (hnext : RowsFit nx ny next b.xlow (b.xhigh-b.xlow) b.ylow b.yhigh b.zlow b.zhigh)
    (hcurr : RowsFit nx ny curr (b.xlow-1) (b.xhigh-b.xlow+2) (b.ylow-1) (b.yhigh+1) (b.zlow-1)
      (b.zhigh+1)) :
    (∃ touched, stencil1tsWriteback nx ny fuel next b=some touched ∧
      ∀ p∈stencil1tsWrites nx ny next b, Reaches touched p) ∧
    ∃ touched, stencil1tsInvalidate nx ny fuel curr b=some touched ∧
      ∀ p∈stencil1tsReads nx ny curr b, Reaches touched p := by
  constructor
  · obtain ⟨touched,hrun,hreach⟩ := rows_reach (writebackRow nx ny fuel next b) hfuel hnext
      fun k j => rfl
    refine ⟨touched,hrun,fun p hp => ?_⟩
    obtain ⟨⟨k,j,i⟩,hq,rfl⟩ := List.mem_map.1 hp
    obtain ⟨hk,hj,hi⟩ := mem_points.1 hq
    exact hreach i j k hi.1 (by omega) hj.1 hj.2 hk.1 hk.2
  · obtain ⟨touched,hrun,hreach⟩ := rows_reach (invalidateRow nx ny fuel curr b) hfuel hcurr
      fun k j => by rw [←advance_advance]; rfl
    refine ⟨touched,hrun,fun p hp => ?_⟩
    obtain ⟨⟨k,j,i⟩,hq,hp⟩ := List.mem_flatMap.1 hp
    obtain ⟨hk,hj,hi⟩ := mem_points.1 hq
    -- in the box extended by one point on each side
    have hnear : ∀ i' j' k', i-1 ≤ i' → i' ≤ i+1 → j-1≤j' → j'≤j+1 → k-1≤k' → k'≤k+1 →
        Reaches touched (address nx ny curr i' j' k') := fun i' j' k' h1 h2 h3 h4 h5 h6 =>
      hreach i' j' k' (by omega) (by omega) (by omega) (by omega) (by omega) (by omega)
    simp only [List.mem_cons,List.not_mem_nil,or_false] at hp
    rcases hp with rfl|rfl|rfl|rfl|rfl|rfl|rfl
    all_goals exact hnear _ _ _ (by omega) (by omega) (by omega) (by omega) (by omega) (by omega)

/-- The interior of a grid of 5 by 4 by 3 points, in two arrays that start within a line: every
written line is written back, and every read one invalidated. -/
theorem stencil_lines_covered_grid :
    (∃ touched, stencil1tsWriteback 5 4 (2^27+1) 0x10010C ⟨1,4,1,3,1,2⟩=some touched ∧
      ∀ p∈stencil1tsWrites 5 4 0x10010C ⟨1,4,1,3,1,2⟩, Reaches touched p) ∧
    ∃ touched, stencil1tsInvalidate 5 4 (2^27+1) 0x100004 ⟨1,4,1,3,1,2⟩=some touched ∧
      ∀ p∈stencil1tsReads 5 4 0x100004 ⟨1,4,1,3,1,2⟩, Reaches touched p :=
  stencil_lines_covered (by decide)
    (rowsFit_of_grid 3 (by decide) (by decide) (by decide) (by decide) (by decide))
    (rowsFit_of_grid 3 (by decide) (by decide) (by decide) (by decide) (by decide))

end RigelTarget.StencilCache
