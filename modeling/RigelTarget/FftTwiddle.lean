import RigelTarget.DoubleBuffer
import Mathlib.Algebra.Ring.Int.Defs
import Mathlib.Tactic.Ring

/-!
# Transpose and twiddle in the FFT benchmark

A row of more than 512 elements is transformed as rows of 512, which steps 2 and 3 of `fft`
transpose into the workspace and multiply by twiddle factors. The product takes its imaginary
operand from the real before the element instead of the one behind it, and the second factor of
its imaginary part from the loop counter, so every run reads the real before the data.
-/

namespace RigelTarget.FftTwiddle

open DoubleBuffer

section Code

variable {α : Type} [CommRing α]

/-- The variables of the loops over `inwalker`, with the reals read from the data and the stores to
the workspace so far. -/
structure Walk (α : Type) where
  /-- Index into the data. -/
  inwalker : ℤ
  /-- Index into the workspace. -/
  outwalker : ℕ
  /-- Real part of the twiddle factor. -/
  wr : α
  /-- Imaginary part of the twiddle factor. -/
  wi : α
  /-- The reals read. -/
  reads : List ℤ
  /-- The reals stored. -/
  writes : List (ℕ×α)

/-- A turn of `while(inwalker != endofrow)` in row `i`: a product with the twiddle factor is stored,
the factor goes on, and both walkers step. -/
def walkTurn (data : ℤ → α) (numffts i : ℕ) (wpr wpi : α) (s : Walk α) : Walk α :=
  let tempr := data s.inwalker
  let tempi := data (s.inwalker-1)
  let tempr' := s.wr*tempr-s.wi*tempi
  let tempi' := s.wr*i+s.wi*tempr'
  { inwalker := s.inwalker+2
    outwalker := s.outwalker+numffts*2
    wr := s.wr*wpr-s.wi*wpi+s.wr
    wi := s.wi*wpr+s.wr*wpi+s.wi
    reads := s.reads++[s.inwalker,s.inwalker-1]
    writes := s.writes++[(s.outwalker,tempr'),(s.outwalker+1,tempi')] }

/-- `while(inwalker != endofrow)`; `none` when the fuel does not suffice. The test is for equality,
not for order. -/
def walkRow (data : ℤ → α) (numffts i : ℕ) (wpr wpi : α) (endofrow : ℤ) :
    ℕ → Walk α → Option (Walk α)
  | 0, _ => none
  | fuel+1, s =>
    if s.inwalker≠endofrow then
      walkRow data numffts i wpr wpi endofrow fuel (walkTurn data numffts i wpr wpi s)
    else some s

/-- `while(1)` over the rows, with `REALsin(0.5f*theta)` and `REALsin(theta)` of each; the loop is
left after the last row. -/
def walkRows (data : ℤ → α) (n numffts : ℕ) (sinHalf sinFull : ℕ → α) (fuel : ℕ) :
    ℕ → ℕ → ℤ → Walk α → Option (Walk α)
  | 0, _, _, _ => none
  | turns+1, i, endofrow, s =>
    let wtemp := sinHalf i
    (walkRow data numffts i (-2*wtemp*wtemp) (sinFull i) endofrow fuel
      { s with wr := 1, wi := 0 }).bind fun done =>
        if endofrow=2*n then some done
        else walkRows data n numffts sinHalf sinFull fuel turns (i+1) (endofrow+512*2)
          { done with outwalker := (i+1)*2 }

/-- Steps 2 and 3 of `fft` for a row of `n` elements, more than 512: the row is read as a matrix of
512 columns, and each element is stored at its transposed place, multiplied by a twiddle factor. The
indices and operands are those of the source, so it reads the real before the data. -/
def transposeTwiddle (data : ℤ → α) (n : ℕ) (sinHalf sinFull : ℕ → α) (fuel : ℕ) :
    Option (Walk α) :=
  walkRows data n (n/512) sinHalf sinFull fuel fuel 0 (512*2) ⟨0,0,1,0,[],[]⟩

/-- The twiddle factors of a row, by the recurrence of the code from 1 on. -/
def twiddle (wpr wpi : α) : ℕ → α×α
  | 0 => (1,0)
  | c+1 =>
    let w := twiddle wpr wpi c
    (w.1*wpr-w.2*wpi+w.1,w.2*wpr+w.1*wpi+w.2)

/-- The twiddle factors of row `r`. -/
def rowTwiddle (sinHalf sinFull : ℕ → α) (r : ℕ) : ℕ → α×α :=
  twiddle (-2*sinHalf r*sinHalf r) (sinFull r)

/-- The product that steps 2 and 3 are about: `data[r][c]` times its twiddle factor, at
`workspace[c][r]`. -/
def Products (data : ℤ → α) (n : ℕ) (w : ℕ → ℕ → α×α) (workspace : ℕ → α) : Prop :=
  ∀ r c : ℕ, r<n/512 → c<512 →
    workspace (2*(c*(n/512)+r))=
      (w r c).1*data (2*(512*r+c))-(w r c).2*data (2*(512*r+c)+1) ∧
    workspace (2*(c*(n/512)+r)+1)=
      (w r c).1*data (2*(512*r+c)+1)+(w r c).2*data (2*(512*r+c))

/-- What the run is meant to do: the products, with every real of the workspace stored once and no
access outside. -/
structure TransposesAndTwiddles (data : ℤ → α) (n : ℕ) (w : ℕ → ℕ → α×α) (s : Walk α) :
    Prop where
  /-- The workspace holds the products, whatever was in it. -/
  products : ∀ workspace, Products data n w (stores workspace s.writes)
  /-- Every real of the workspace is stored once, and nothing else. -/
  once : (s.writes.map Prod.fst).Perm (List.range (2*n))
  /-- The reals read are those of the data. -/
  inside : ∀ x, x∈s.reads → 0≤x ∧ x<2*n

end Code

section Rows

variable {α : Type} [CommRing α] {data : ℤ → α} {numffts i fuel : ℕ} {wpr wpi : α}

/-- The reals that a turn in column `c` of a row reads: the second of them is the one before the
element, not after it. -/
def turnReads (start : ℤ) (c : ℕ) : List ℤ := [start+2*c,start+2*c-1]

/-- What the code stores for column `c` of row `i`, which starts at `start`: real and imaginary part
at the transposed place. -/
def turnWrites (data : ℤ → α) (numffts i : ℕ) (w : ℕ → α×α) (start : ℤ) (out c : ℕ) :
    List (ℕ×α) :=
  let re := (w c).1*data (start+2*c)-(w c).2*data (start+2*c-1)
  [(out+numffts*2*c,re),(out+numffts*2*c+1,(w c).1*i+(w c).2*re)]

/-- The walk after `c` columns of a row. -/
def walkAfter (data : ℤ → α) (numffts i : ℕ) (wpr wpi : α) (s : Walk α) (c : ℕ) : Walk α where
  inwalker := s.inwalker+2*c
  outwalker := s.outwalker+numffts*2*c
  wr := (twiddle wpr wpi c).1
  wi := (twiddle wpr wpi c).2
  reads := s.reads++(List.range c).flatMap (turnReads s.inwalker)
  writes := s.writes++(List.range c).flatMap
    (turnWrites data numffts i (twiddle wpr wpi) s.inwalker s.outwalker)

/-- A turn goes on by a column. -/
theorem walkTurn_after (s : Walk α) (c : ℕ) :
    walkTurn data numffts i wpr wpi (walkAfter data numffts i wpr wpi s c)=
      walkAfter data numffts i wpr wpi s (c+1) := by
  unfold walkAfter walkTurn
  rw [List.range_succ,List.flatMap_append,List.flatMap_append,←List.append_assoc,
    ←List.append_assoc,List.flatMap_singleton,List.flatMap_singleton]
  rw [Walk.mk.injEq]
  refine ⟨?_,?_,rfl,rfl,rfl,rfl⟩
  · push_cast
    ring
  · ring

/-- The loop over a row ends after its last column. -/
theorem walkRow_eq {c m : ℕ} (hc : c ≤ m) (hfuel : m<fuel+c) {s : Walk α} {endofrow : ℤ}
    (hend : endofrow=s.inwalker+2*m) :
    walkRow data numffts i wpr wpi endofrow fuel (walkAfter data numffts i wpr wpi s c)=
      some (walkAfter data numffts i wpr wpi s m) := by
  induction fuel generalizing c with
  | zero => omega
  | succ fuel ih =>
    have hwalker : (walkAfter data numffts i wpr wpi s c).inwalker=s.inwalker+2*c := rfl
    rw [walkRow,hwalker]
    by_cases hlast : c=m
    · rw [hlast,if_neg (by rw [hend]; exact fun h => h rfl)]
    · rw [if_pos (by omega),walkTurn_after]
      exact ih (by omega) (by omega)

end Rows

section Run

variable {α : Type} [CommRing α] {data : ℤ → α} {m n r fuel turns : ℕ} {sinHalf sinFull : ℕ → α}

/-- The reals read in the first rows. -/
def rowReads (rows : ℕ) : List ℤ :=
  (List.range rows).flatMap fun r : ℕ => (List.range 512).flatMap (turnReads (1024*r))

/-- The stores of the first rows. -/
def rowWrites (data : ℤ → α) (m : ℕ) (w : ℕ → ℕ → α×α) (rows : ℕ) : List (ℕ×α) :=
  (List.range rows).flatMap fun r : ℕ =>
    (List.range 512).flatMap (turnWrites data m r (w r) (1024*r) (2*r))

/-- Another row is read. -/
theorem rowReads_succ (rows : ℕ) : rowReads (rows+1)=
    rowReads rows++(List.range 512).flatMap (turnReads (1024*(rows : ℤ))) := by
  unfold rowReads
  rw [List.range_succ (n := rows),List.flatMap_append,List.flatMap_singleton]

/-- Another row is stored. -/
theorem rowWrites_succ (data : ℤ → α) (m : ℕ) (w : ℕ → ℕ → α×α) (rows : ℕ) :
    rowWrites data m w (rows+1)=rowWrites data m w rows++
      (List.range 512).flatMap (turnWrites data m rows (w rows) (1024*(rows : ℤ)) (2*rows)) := by
  unfold rowWrites
  rw [List.range_succ (n := rows),List.flatMap_append,List.flatMap_singleton]

/-- Before the first column. -/
theorem walkAfter_zero (data : ℤ → α) (m i : ℕ) (wpr wpi : α) (s : Walk α) :
    walkAfter data m i wpr wpi s 0={ s with wr := 1, wi := 0 } := by
  unfold walkAfter
  rw [Walk.mk.injEq]
  exact ⟨Int.add_zero _,rfl,rfl,rfl,List.append_nil _,List.append_nil _⟩

/-- The loop over the rows ends after the last one, with the stores of all rows. -/
theorem walkRows_eq (hn : n=512*m) (hfuel : 512<fuel) (hr : r < m) (hturns : m≤turns+r)
    {s : Walk α} (hin : s.inwalker=1024*r) (hout : s.outwalker=2*r) (hreads : s.reads=rowReads r)
    (hwrites : s.writes=rowWrites data m (rowTwiddle sinHalf sinFull) r) :
    ∃ s', walkRows data n m sinHalf sinFull fuel turns r (1024*(r+1)) s=some s' ∧
      s'.reads=rowReads m ∧ s'.writes=rowWrites data m (rowTwiddle sinHalf sinFull) m := by
  induction turns generalizing r s with
  | zero => omega
  | succ turns ih =>
    have hend : (1024*(r+1) : ℤ)=s.inwalker+2*(512 : ℕ) := by
      rw [hin]
      push_cast
      ring
    have hrow : walkRow data m r (-2*sinHalf r*sinHalf r) (sinFull r) (1024*(r+1)) fuel
        (walkAfter data m r (-2*sinHalf r*sinHalf r) (sinFull r) s 0)=_ :=
      walkRow_eq (Nat.zero_le 512) (show 512<fuel+0 by omega) hend
    rw [walkAfter_zero] at hrow
    have hreads' : (walkAfter data m r (-2*sinHalf r*sinHalf r) (sinFull r) s 512).reads=
        rowReads (r+1) := by
      rw [rowReads_succ,←hin,←hreads]
      rfl
    have hwrites' : (walkAfter data m r (-2*sinHalf r*sinHalf r) (sinFull r) s 512).writes=
        rowWrites data m (rowTwiddle sinHalf sinFull) (r+1) := by
      rw [rowWrites_succ,←hin,←hout,←hwrites]
      rfl
    rw [walkRows,hrow,Option.bind_some]
    by_cases hlast : r+1=m
    · rw [if_pos (by rw [hn,←hlast]; push_cast; ring)]
      rw [hlast] at hreads' hwrites'
      exact ⟨_,rfl,hreads',hwrites'⟩
    · have hmore : (1024*(r+1) : ℤ)≠2*n := by
        rw [hn]
        push_cast
        omega
      have hnext : (1024*(r+1)+512*2 : ℤ)=1024*((r+1 : ℕ)+1) := by
        push_cast
        ring
      rw [if_neg hmore,hnext]
      refine ih (r := r+1) (by omega) (by omega) ?_ (Nat.mul_comm _ _) hreads' hwrites'
      show s.inwalker+2*((512 : ℕ) : ℤ)=_
      rw [hin]
      push_cast
      ring

/-- What the run reads and stores. -/
theorem transposeTwiddle_eq (hn : n=512*m) (hm : 0 < m) (hfuel : n<fuel) :
    ∃ s, transposeTwiddle data n sinHalf sinFull fuel=some s ∧ s.reads=rowReads m ∧
      s.writes=rowWrites data m (rowTwiddle sinHalf sinFull) m := by
  have hdiv : n/512=m := by omega
  unfold transposeTwiddle
  rw [hdiv]
  exact walkRows_eq (r := 0) hn (by omega) hm (by omega) rfl rfl rfl rfl

/-- The reals read are those of the data and the one before. -/
theorem mem_rowReads {x : ℤ} (hx : x∈rowReads m) : -1≤x ∧ x<2*(512*m) := by
  obtain ⟨r,hr,hrow⟩ := List.mem_flatMap.1 hx
  obtain ⟨c,hc,hturn⟩ := List.mem_flatMap.1 hrow
  have hr := List.mem_range.1 hr
  have hc := List.mem_range.1 hc
  unfold turnReads at hturn
  rw [List.mem_cons,List.mem_singleton] at hturn
  omega

/-- The first turn reads the real before the data. -/
theorem before_mem_rowReads (hm : 0 < m) : -1∈rowReads m := by
  refine List.mem_flatMap.2 ⟨0,List.mem_range.2 hm,List.mem_flatMap.2
    ⟨0,List.mem_range.2 (by decide),?_⟩⟩
  exact List.mem_cons_of_mem _ (List.mem_singleton.2 rfl)

/-- The element that the code stores for `data[r][c]`. -/
def stored (data : ℤ → α) (w : ℕ → ℕ → α×α) (r c : ℕ) : α×α :=
  let re := (w r c).1*data (2*(512*r+c))-(w r c).2*data (2*(512*r+c)-1)
  (re,(w r c).1*r+(w r c).2*re)

/-- The stores of a turn. -/
theorem turnWrites_eq (w : ℕ → ℕ → α×α) (r c : ℕ) :
    turnWrites data m r (w r) (1024*r) (2*r) c=
      [(2*(c*m+r),(stored data w r c).1),(2*(c*m+r)+1,(stored data w r c).2)] := by
  have hout : 2*r+m*2*c=2*(c*m+r) := by ring
  have hin : (1024*r+2*c : ℤ)=2*(512*r+c) := by ring
  unfold turnWrites stored
  rw [hout,hin]

/-- Each element of the workspace is stored for one element of the data. -/
theorem mem_rowWrites {w : ℕ → ℕ → α×α} {e : ℕ×α} : e∈rowWrites data m w m ↔
    ∃ r c, r < m ∧ c<512 ∧ (e=(2*(c*m+r),(stored data w r c).1) ∨
      e=(2*(c*m+r)+1,(stored data w r c).2)) := by
  unfold rowWrites
  rw [List.mem_flatMap]
  constructor
  · rintro ⟨r,hr,hrow⟩
    obtain ⟨c,hc,hturn⟩ := List.mem_flatMap.1 hrow
    rw [turnWrites_eq,List.mem_cons,List.mem_singleton] at hturn
    exact ⟨r,c,List.mem_range.1 hr,List.mem_range.1 hc,hturn⟩
  · rintro ⟨r,c,hr,hc,he⟩
    refine ⟨r,List.mem_range.2 hr,List.mem_flatMap.2 ⟨c,List.mem_range.2 hc,?_⟩⟩
    rw [turnWrites_eq,List.mem_cons,List.mem_singleton]
    exact he

/-- The number of an element of the workspace tells its row and column. -/
theorem place_spec {c : ℕ} (hr : r < m) : (c*m+r)%m=r ∧ (c*m+r)/m=c := by
  rw [Nat.mul_comm,Nat.mul_add_mod,Nat.mod_eq_of_lt hr,Nat.mul_add_div (by omega),
    Nat.div_eq_of_lt hr]
  exact ⟨rfl,rfl⟩

/-- Every real of the workspace is stored once, so what the workspace holds at the end does not
depend on the order. -/
theorem rowWrites_once (w : ℕ → ℕ → α×α) :
    ((rowWrites data m w m).map Prod.fst).Perm (List.range (2*(512*m))) := by
  have hunique : ((rowWrites data m w m).map Prod.fst).Nodup := by
    unfold rowWrites
    rw [List.map_flatMap]
    refine nodup_flatMap_of_index (fun x => x/2%m) List.nodup_range (fun r hr => ?_)
      fun r hr x hx => ?_
    · rw [List.map_flatMap]
      refine nodup_flatMap_of_index (fun x => x/2/m) List.nodup_range (fun c _ => ?_)
        fun c _ x hx => ?_
      · rw [turnWrites_eq]
        refine List.nodup_cons.2 ⟨fun h => ?_,List.nodup_singleton _⟩
        have h := List.mem_singleton.1 h
        omega
      · obtain ⟨hmod,hdiv⟩ := place_spec (c := c) (List.mem_range.1 hr)
        rw [turnWrites_eq] at hx
        simp only [List.map_cons,List.map_nil,List.mem_cons,List.not_mem_nil,or_false] at hx
        rw [show x/2=c*m+r by omega,hdiv]
    · rw [List.mem_map] at hx
      obtain ⟨e,he,rfl⟩ := hx
      obtain ⟨c,-,hturn⟩ := List.mem_flatMap.1 he
      obtain ⟨hmod,-⟩ := place_spec (c := c) (List.mem_range.1 hr)
      rw [turnWrites_eq,List.mem_cons,List.mem_singleton] at hturn
      have hplace : e.1/2=c*m+r := by
        rcases hturn with rfl|rfl
        · show 2*(c*m+r)/2=c*m+r
          omega
        · show (2*(c*m+r)+1)/2=c*m+r
          omega
      rw [hplace,hmod]
  refine (List.perm_ext_iff_of_nodup hunique List.nodup_range).2 fun x => ?_
  rw [List.mem_map,List.mem_range]
  constructor
  · rintro ⟨e,he,rfl⟩
    obtain ⟨r,c,hr,hc,hcase⟩ := mem_rowWrites.1 he
    have hle : (c+1)*m≤512*m := Nat.mul_le_mul_right m hc
    rw [Nat.add_mul] at hle
    rcases hcase with rfl|rfl
    · show 2*(c*m+r)<2*(512*m)
      omega
    · show 2*(c*m+r)+1<2*(512*m)
      omega
  · intro hx
    have hm : 0 < m := by omega
    have hsplit := Nat.div_add_mod' (x/2) m
    have hr := Nat.mod_lt (x/2) hm
    have hc : x/2/m<512 := Nat.div_lt_of_lt_mul (by rw [Nat.mul_comm]; omega)
    rcases Nat.mod_two_eq_zero_or_one x with heven|hodd
    · exact ⟨_,mem_rowWrites.2 ⟨_,_,hr,hc,.inl rfl⟩,by dsimp only; omega⟩
    · exact ⟨_,mem_rowWrites.2 ⟨_,_,hr,hc,.inr rfl⟩,by dsimp only; omega⟩

/-- What the workspace holds at the end. -/
theorem stores_rowWrites (w : ℕ → ℕ → α×α) (workspace : ℕ → α) {c : ℕ} (hr : r < m)
    (hc : c<512) :
    stores workspace (rowWrites data m w m) (2*(c*m+r))=(stored data w r c).1 ∧
    stores workspace (rowWrites data m w m) (2*(c*m+r)+1)=(stored data w r c).2 := by
  have hunique : ((rowWrites data m w m).map Prod.fst).Nodup :=
    (rowWrites_once w).nodup_iff.2 List.nodup_range
  exact ⟨stores_unique hunique (mem_rowWrites.2 ⟨r,c,hr,hc,.inl rfl⟩),
    stores_unique hunique (mem_rowWrites.2 ⟨r,c,hr,hc,.inr rfl⟩)⟩

/-- The run ends with every real of the workspace stored once, and reads the data and the real
before it. -/
theorem transposeTwiddle_spec (data : ℤ → α) (sinHalf sinFull : ℕ → α) (hn : n=512*m)
    (hm : 0 < m) (hfuel : n<fuel) : ∃ s, transposeTwiddle data n sinHalf sinFull fuel=some s ∧
      (s.writes.map Prod.fst).Perm (List.range (2*n)) ∧
      ((∀ x, x∈s.reads → -1≤x ∧ x<2*n) ∧ -1∈s.reads) ∧
      ∀ (workspace : ℕ → α) (r c : ℕ), r < m → c<512 →
        stores workspace s.writes (2*(c*m+r))=
          (stored data (rowTwiddle sinHalf sinFull) r c).1 ∧
        stores workspace s.writes (2*(c*m+r)+1)=
          (stored data (rowTwiddle sinHalf sinFull) r c).2 := by
  obtain ⟨s,hrun,hreads,hwrites⟩ :
      ∃ s, transposeTwiddle data n sinHalf sinFull fuel=some s ∧ s.reads=rowReads m ∧
        s.writes=rowWrites data m (rowTwiddle sinHalf sinFull) m :=
    transposeTwiddle_eq hn hm hfuel
  refine ⟨s,hrun,?_,?_,?_⟩
  · rw [hwrites,hn]
    exact rowWrites_once _
  · rw [hreads]
    refine ⟨fun x hx => ?_,before_mem_rowReads hm⟩
    have hlt := mem_rowReads hx
    omega
  · intro workspace r c hr hc
    rw [hwrites]
    exact stores_rowWrites _ workspace hr hc

/-- For every power of two above 512, every ring and all data, the run stores each real of the
workspace once but reads the real before the data, so it never does what it is meant to do; and
its products are right only if the imaginary part of the first element of each row is the number
of the row. -/
theorem transposeTwiddle_never (hn : ∃ k, n=2^k) (hbig : 512<n) (hfuel : n<fuel) (data : ℤ → α)
    (sinHalf sinFull : ℕ → α) :
    ∃ s, transposeTwiddle data n sinHalf sinFull fuel=some s ∧
      ¬TransposesAndTwiddles data n (rowTwiddle sinHalf sinFull) s ∧
      ((s.writes.map Prod.fst).Perm (List.range (2*n)) ∧ ∀ x, x∈s.reads → -1≤x ∧ x<2*n) ∧
      ∀ workspace, Products data n (rowTwiddle sinHalf sinFull) (stores workspace s.writes) →
        ∀ r : ℕ, r<n/512 → data (1024*r+1)=r := by
  obtain ⟨m,hnm⟩ : ∃ m, n=512*m := by
    obtain ⟨k,rfl⟩ := hn
    have hk : 9≤k := by
      by_contra hlt
      have hle : 2^k≤2^9 := Nat.pow_le_pow_right Nat.two_pos (by omega)
      omega
    exact ⟨2^(k-9),by rw [show 512=2^9 from rfl,←pow_add,Nat.add_sub_cancel' hk]⟩
  have hm : 0 < m := by omega
  have hdiv : n/512=m := by omega
  obtain ⟨s,hrun,honce,⟨hreads,hbefore⟩,hvalues⟩ :=
    transposeTwiddle_spec data sinHalf sinFull hnm hm hfuel
  refine ⟨s,hrun,fun h => ?_,⟨honce,hreads⟩,fun workspace h r hr => ?_⟩
  · exact absurd (h.inside (-1) hbefore).1 (by decide)
  · -- in the first column the twiddle factor is one
    have himag := (h r 0 hr (by decide)).2
    rw [hdiv] at himag hr
    rw [(hvalues workspace r 0 hr (by decide)).2] at himag
    simp only [stored,rowTwiddle,twiddle,one_mul,zero_mul,add_zero,Nat.cast_zero] at himag
    rw [himag]
    congr 1
    ring

end Run

/-- A row of 1024 zeros with zero sines: it reads the real before the data. -/
theorem transposeTwiddle_never_zeros :
    ∃ s, transposeTwiddle (fun _ => (0 : ℤ)) 1024 (fun _ => 0) (fun _ => 0) 1025=some s ∧
      ¬TransposesAndTwiddles (fun _ => 0) 1024 (rowTwiddle (fun _ => 0) fun _ => 0) s ∧
      ((s.writes.map Prod.fst).Perm (List.range 2048) ∧ ∀ x, x∈s.reads → -1≤x ∧ x<2048) ∧
      ∀ workspace, Products (fun _ => 0) 1024 (rowTwiddle (fun _ => 0) fun _ => 0)
        (stores workspace s.writes) → ∀ r : ℕ, r<2 → (0 : ℤ)=r :=
  transposeTwiddle_never ⟨10,rfl⟩ (by decide) (by decide) (fun _ => (0 : ℤ)) (fun _ => 0)
    fun _ => 0

/-- There the real before the data is read, and the imaginary part of the first element of row 1
becomes 1. -/
theorem transposeTwiddle_zeros : ∃ s, transposeTwiddle (fun _ => (0 : ℤ)) 1024 (fun _ => 0)
      (fun _ => 0) 1025=some s ∧ -1∈s.reads ∧ stores (fun _ => 0) s.writes 3=1 ∧
      ¬TransposesAndTwiddles (fun _ => 0) 1024 (rowTwiddle (fun _ => 0) fun _ => 0) s := by
  obtain ⟨s,hrun,-,⟨-,hbefore⟩,hvalues⟩ := transposeTwiddle_spec (fun _ => (0 : ℤ)) (fun _ => 0)
    (fun _ => 0) (show 1024=512*2 from rfl) (by decide) (show 1024<1025 by decide)
  refine ⟨s,hrun,hbefore,(hvalues (fun _ => 0) 1 0 (by decide) (by decide)).2,fun h => ?_⟩
  exact absurd (h.inside (-1) hbefore).1 (by decide)

end RigelTarget.FftTwiddle
