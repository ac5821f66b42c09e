import RigelTarget.FftButterflies
import RigelTarget.FftTranspose

/-!
# The FFT benchmark

The workers transform the rows of the data, transpose it block by block into the second array,
transform the rows there, and transpose it back. The tasks of each part come from the task queue in
any order. For rows that `four1` takes at once, the data then holds the transforms of the columns
of the transforms of the rows, operation by operation, whatever the arithmetic.
-/

namespace RigelTarget.FftProgram

open RadixTwo FftReordering FftButterflies
open FftTranspose hiding element

section Code

variable {α : Type} [Add α] [Sub α] [Mul α]

/-- `fft`, with its part for more than 512 elements as a parameter. `four1` gets the address of the
real before the data. -/
def fft (long : ℕ → (ℕ → α) → Option (ℕ → α)) (literal : ℤ → α) (fuel n : ℕ) (data : ℕ → α) :
    Option (ℕ → α) :=
  if n≤512 then (four1 literal fuel n fun x => data (x-1)).map fun out x => out (x+1)
  else long n data

/-- `FFT_FUNC(data + (tdesc.v3 * n * 2), n, 1)`: the transform of row `v3`, in place. -/
def fftTask (long : ℕ → (ℕ → α) → Option (ℕ → α)) (literal : ℤ → α) (fuel n : ℕ)
    (data : ℕ → α) (v3 : ℕ) : Option (ℕ → α) :=
  (fft long literal fuel n fun x => data (v3*n*2+x)).map fun row x =>
    if x<v3*n*2 then data x else row (x-v3*n*2)

/-- `FFTWorkerThread` in all threads, with the orders in which the tasks of the four parts are
done: `rows` and `columns` of the transforms, `there` and `back` of the transposes. -/
def fftWorkers (long : ℕ → (ℕ → α) → Option (ℕ → α)) (literal : ℤ → α) (fuel : ℕ) (g : Sizes)
    (rows there columns back : List ℕ) (data data2 : ℕ → α) : Option (ℕ → α) :=
  (rows.foldlM (fftTask long literal fuel g.cols) data).bind fun data =>
    (allCopies (transposeBlockTask g fuel) there).bind fun forward =>
      (columns.foldlM (fftTask long literal fuel g.rows) (copyAll forward data data2)).bind
        fun data2 => (allCopies (transposeBlockTaskBackward g fuel) back).map fun backward =>
          copyAll backward data2 data

/-- A complex element of an array, whose real part is at twice its number. -/
def number (data : ℕ → α) (x : ℕ) : α×α := (data (2*x),data (2*x+1))

/-- The transform of a table with `2^kr` rows and `2^kc` columns: first every row, then every
column of the results. -/
def spectrum2 (literal : ℤ → α) (kr kc : ℕ) (x : ℕ → α×α) (i j : ℕ) : α×α :=
  spectrum literal kr (fun a => spectrum literal kc (fun b => x (a*2^kc+b)) j) i

end Code

section Rows

variable {α : Type} [Add α] [Sub α] [Mul α] {long : ℕ → (ℕ → α) → Option (ℕ → α)} {literal : ℤ → α}
  {fuel k n : ℕ} {data : ℕ → α}

variable (long literal) in
/-- A task transforms its row and touches nothing else. The address passed to `four1` is one real
before the row. -/
theorem fftTask_spec (hk : k≤9) (hn : n=2^k) (hfuel : 512<fuel)
    (data : ℕ → α) (v3 : ℕ) : ∃ out, fftTask long literal fuel n data v3=some out ∧
      (∀ e, e<n → number out (v3*n+e)=
        spectrum literal k (fun j => number data (v3*n+j)) e) ∧
      ∀ x, x/2/n≠v3 → out x=data x := by
  have hsmall : n≤2^9 := by
    rw [hn]
    exact Nat.pow_le_pow_right Nat.two_pos hk
  have hpos : 0<n := by
    rw [hn]
    exact Nat.two_pow_pos k
  obtain ⟨out,hout,hvalues,hkept⟩ := four1_transform literal (show k<30 by omega)
    (show 2^k<fuel by omega) fun x => data (v3*n*2+(x-1))
  rw [←hn] at hout hvalues hkept
  have hrow : v3*n*2=2*(v3*n) := Nat.mul_comm _ _
  refine ⟨fun x => if x<v3*n*2 then data x else out (x-v3*n*2+1),?_,fun e he => ?_,
    fun x hx => ?_⟩
  · rw [fftTask,fft,if_pos (show n≤512 from hsmall),hout]
    rfl
  · have hnumber : number (fun x => if x<v3*n*2 then data x else out (x-v3*n*2+1)) (v3*n+e)=
        element out e := by
      unfold number element
      dsimp only
      rw [if_neg (by omega),if_neg (by omega)]
      congr 2 <;> omega
    rw [hnumber,hvalues e he]
    refine transform_congr fun j _ => ?_
    unfold number element
    dsimp only
    congr 2 <;> omega
  · dsimp only
    by_cases hbefore : x<v3*n*2
    · rw [if_pos hbefore]
    · have hafter : 2*n<x-v3*n*2+1 := by
        by_contra hinside
        refine hx ((Nat.div_eq_iff hpos).2 ⟨?_,?_⟩) <;> omega
      rw [if_neg hbefore,hkept _ (.inr hafter)]
      congr 1
      omega

variable (long literal) in
/-- The tasks of a part transform their rows, in any order, since no row is touched by two of
them. -/
theorem fftTasks_spec (hk : k≤9) (hn : n=2^k) (hfuel : 512<fuel)
    {order : List ℕ} (hnodup : order.Nodup) (data : ℕ → α) :
    ∃ out, order.foldlM (fftTask long literal fuel n) data=some out ∧
      (∀ v3 e, v3∈order → e<n → number out (v3*n+e)=
        spectrum literal k (fun j => number data (v3*n+j)) e) ∧
      ∀ x, x/2/n∉order → out x=data x := by
  have hpos : 0<n := by
    rw [hn]
    exact Nat.two_pow_pos k
  have hplace : ∀ v e, e<n → (v*n+e)/n=v := by
    intro v e he
    rw [Nat.mul_comm,Nat.mul_add_div hpos,Nat.div_eq_of_lt he,Nat.add_zero]
  induction order generalizing data with
  | nil => exact ⟨data,rfl,fun _ _ hv => absurd hv List.not_mem_nil,fun _ _ => rfl⟩
  | cons v order ih =>
    obtain ⟨hfirst,hrest⟩ := List.nodup_cons.1 hnodup
    obtain ⟨mid,hmid,hrow,hkept⟩ := fftTask_spec long literal hk hn hfuel data v
    obtain ⟨out,hout,hrows,hkept'⟩ := ih hrest mid
    -- the numbers of the other rows
    have hother : ∀ (a b : ℕ → α) u e, e<n → (∀ x, x/2/n=u → a x=b x) →
        number a (u*n+e)=number b (u*n+e) := by
      intro a b u e he heq
      have hdouble : (2*(u*n+e))/2=u*n+e ∧ (2*(u*n+e)+1)/2=u*n+e := by omega
      unfold number
      rw [heq _ (by rw [hdouble.1,hplace u e he]),heq _ (by rw [hdouble.2,hplace u e he])]
    refine ⟨out,?_,fun u e hu he => ?_,fun x hx => ?_⟩
    · rw [List.foldlM_cons,hmid]
      exact hout
    · rcases List.mem_cons.1 hu with rfl|hlater
      · rw [hother out mid u e he fun x hx => hkept' x (by rw [hx]; exact hfirst)]
        exact hrow e he
      · have hne : u≠v := fun he => hfirst (he ▸ hlater)
        rw [hrows u e hlater he]
        exact transform_congr fun j hj => hother mid data u j (by rw [hn]; exact hj)
          fun x hx => hkept x (by rw [hx]; exact hne)
    · have hsplit := List.mem_cons.not.1 hx
      rw [hkept' x fun hmem => hsplit (.inr hmem),hkept x fun he => hsplit (.inl he)]

end Rows

section Workers

variable {α : Type} [Add α] [Sub α] [Mul α] {long : ℕ → (ℕ → α) → Option (ℕ → α)} {literal : ℤ → α}
  {fuel kr kc : ℕ} {g : Sizes}

omit [Add α] [Sub α] [Mul α] in
/-- Copies of the reals are copies of the numbers. -/
theorem number_copy {a b : ℕ → α} {x y : ℕ} (h : ∀ p, p<2 → a (2*x+p)=b (2*y+p)) :
    number a x=number b y := by
  unfold number
  rw [h 1 (by decide),show a (2*x)=b (2*y) from h 0 (by decide)]

variable (long literal) in
/-- For all sizes up to 512 and every arithmetic, in whatever order the tasks of each part are
done, the workers leave the two-dimensional transform in the data. -/
theorem fftWorkers_transforms (hr : g.rows=2^kr) (hc : g.cols=2^kc) (hkr : kr≤9) (hkc : kc≤9)
    (hfuel : 512<fuel) {rows there columns back : List ℕ}
    (hrows : rows.Perm (List.range g.rows)) (hthere : there.Perm (List.range (numTasks g)))
    (hcolumns : columns.Perm (List.range g.cols)) (hback : back.Perm (List.range (numTasks g)))
    (data data2 : ℕ → α) :
    ∃ out, fftWorkers long literal fuel g rows there columns back data data2=some out ∧
      ∀ i j, i<g.rows → j<g.cols →
        number out (i*g.cols+j)=spectrum2 literal kr kc (number data) i j := by
  have hsmall : g.cols≤2^9 := by
    rw [hc]
    exact Nat.pow_le_pow_right Nat.two_pos hkc
  have hcols : g.cols<fuel := by omega
  obtain ⟨hnodup,hmem⟩ := visits_spec hthere
  obtain ⟨hnodup',hmem'⟩ := visits_spec hback
  obtain ⟨-,hmoved⟩ :=
    copiesOf_spec (α := α) (rowMajor_numbering g) (colMajor_numbering g) hnodup hmem
  obtain ⟨-,hmoved'⟩ :=
    copiesOf_spec (α := α) (colMajor_numbering g) (rowMajor_numbering g) hnodup' hmem'
  obtain ⟨d1,hd1,hv1,-⟩ := fftTasks_spec long literal hkc hc hfuel
    (hrows.nodup_iff.2 List.nodup_range) data
  obtain ⟨d2,hd2,hv2,-⟩ := fftTasks_spec long literal hkr hr hfuel
    (hcolumns.nodup_iff.2 List.nodup_range)
    (copyAll (copiesOf (rowMajor g) (colMajor g) (there.flatMap (blockCells g))) d1 data2)
  refine ⟨copyAll (copiesOf (colMajor g) (rowMajor g) (back.flatMap (blockCells g))) d2 d1,?_,
    fun i j hi hj => ?_⟩
  · rw [fftWorkers,hd1,Option.bind_some,
      allCopies_eq hthere fun v3 hv => transposeBlockTask_eq hcols hv,Option.bind_some,hd2,
      Option.bind_some,allCopies_eq hback fun v3 hv => transposeBlockTaskBackward_eq hcols hv]
    rfl
  · have hmemr : ∀ a, a<g.rows → a∈rows := fun a ha => hrows.mem_iff.2 (List.mem_range.2 ha)
    have hmemc : j∈columns := hcolumns.mem_iff.2 (List.mem_range.2 hj)
    have hlast : number (copyAll _ d2 d1) (i*g.cols+j)=number d2 (j*g.rows+i) :=
      number_copy fun b hb => hmoved' d2 d1 (i,j) b hi hj hb
    rw [hlast,hv2 j i hmemc hi]
    refine transform_congr fun a ha => ?_
    have ha : a<g.rows := by rw [hr]; exact ha
    have hfirst : number (copyAll _ d1 data2) (j*g.rows+a)=number d1 (a*g.cols+j) :=
      number_copy fun b hb => hmoved d1 data2 (a,j) b ha hj hb
    rw [hfirst,hv1 a j (hmemr a ha) hj,hc]

/-- Two rows of sixteen elements in whole numbers, the tasks of the parts in different orders. -/
theorem fftWorkers_transforms_twoBySixteen :
    ∃ out, fftWorkers (fun _ _ => none) (fun x : ℤ => x/10^7) 513 twoBySixteen [1,0] [3,2,1,0]
      (List.range 16).reverse [1,3,0,2] (fun x => (x : ℤ)) (fun _ => 0)=some out ∧
      ∀ i j, i<2 → j<16 → number out (i*16+j)=
        spectrum2 (fun x : ℤ => x/10^7) 1 4 (number fun x => (x : ℤ)) i j :=
  fftWorkers_transforms _ _ (show twoBySixteen.rows=2^1 from rfl)
    (show twoBySixteen.cols=2^4 from rfl) (by decide) (by decide) (by decide) (by decide)
    (by rw [numTasks_twoBySixteen]; decide) (List.reverse_perm _)
    (by rw [numTasks_twoBySixteen]; decide) _ _

end Workers

end RigelTarget.FftProgram
