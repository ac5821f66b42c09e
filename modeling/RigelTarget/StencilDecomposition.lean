import RigelTarget.Stencil

/-!
# The decomposition of the stencil benchmark

`main` divides a macroblock among the threads greedily: the first dimension as far as it goes,
then the second, then the third. In each of the six orders the second dimension must be a
multiple of the threads that remain before it is asked whether it is smaller than their number,
so the branch that divides the third dimension is never reached. After the decomposition `main`
also refuses more than 8192 threads.
-/

namespace RigelTarget.Stencil

/-- The division of a macroblock by `main` and the check of its product. It is the middle part of
`microBlockSize`. -/
def decompose (blockDim1 blockDim2 : ℕ) (size : Dim → ℕ) (threads : ℕ) : Except Abort (Dim → ℕ) :=
  match order blockDim1 blockDim2 with
  | none => .error .blockDim
  | some (first,second,third) => do
    let micro ← divide size threads first second third
    let product := (size .x/micro .x)*(size .y/micro .y)*(size .z/micro .z)%2^32
    if product≠threads then .error .product else .ok micro

/-- The greedy division of `m1`, `m2` and `m3` among the threads exists: each dimension takes as
many threads as it can, and what remains divides the next one. -/
def GreedySplit (m1 m2 m3 threads : ℕ) : Prop :=
  (threads ≤ m1 ∧ threads ∣ m1) ∨ (m1<threads ∧ m1 ∣ threads ∧
    (threads/m1 ∣ m2 ∨ (m2<threads/m1 ∧ m2 ∣ threads/m1 ∧ threads/m1/m2 ∣ m3)))

/-- `main` checks the macroblocks before the decomposition and the number of threads after it.
Between them nothing can fail but the decomposition. -/
theorem microBlockSize_eq (inp : Input) : microBlockSize inp=
    if (inp.size .x-2)%inp.blocks .x≠0 ∨ (inp.size .y-2)%inp.blocks .y≠0 ∨
        (inp.size .z-2)%inp.blocks .z≠0 then .error .blocks
    else
      (decompose inp.blockDim1 inp.blockDim2 (macroBlockSize inp) inp.threads).bind fun micro =>
        if maxSupportedThreads < inp.threads then .error .maxThreads else .ok micro := by
  unfold microBlockSize decompose
  split
  · rfl
  · cases order inp.blockDim1 inp.blockDim2 with
    | none => rfl
    | some dims =>
      obtain ⟨first,second,third⟩ := dims
      cases hdivide : divide (macroBlockSize inp) inp.threads first second third with
      | error e => simp only [hdivide]; rfl
      | ok micro =>
        simp only [hdivide,bind,Except.bind]
        split <;> rfl

variable {blockDim1 blockDim2 threads : ℕ} {first second third : Dim} {size micro : Dim → ℕ}

/-- The three dimensions of an order are different. -/
theorem order_distinct (h : order blockDim1 blockDim2=some (first,second,third)) :
    first≠second ∧ first≠third ∧ second≠third := by
  unfold order at h
  split at h
  · split at h <;> cases h <;> decide
  · split at h <;> cases h <;> decide
  · split at h <;> cases h <;> decide
  · cases h

/-- The product over the dimensions, in the order of the division. -/
theorem product_order (h : order blockDim1 blockDim2=some (first,second,third)) (f : Dim → ℕ) :
    f .x*f .y*f .z=f first*f second*f third := by
  unfold order at h
  split at h
  · split at h <;> cases h <;> ring
  · split at h <;> cases h <;> ring
  · split at h <;> cases h <;> ring
  · cases h

/-- The division goes on from the first dimension only if the second is a multiple of the threads
that remain. -/
theorem divide_second (h : divide size threads first second third=.ok micro) :
    threads ≤ size first ∨ threads/size first ∣ size second := by
  unfold divide at h
  dsimp only at h
  split at h
  next hge => exact .inl hge
  next =>
    split at h
    next => cases h
    next hmod => exact .inr (Nat.dvd_of_mod_eq_zero (not_not.1 hmod))

/-- The first dimension suffices. -/
theorem divide_first (hle : threads ≤ size first) (hdvd : threads ∣ size first) :
    divide size threads first second third=
      .ok (Function.update size first (size first/threads)) := by
  unfold divide
  rw [if_pos hle,if_neg (not_not.2 (Nat.mod_eq_zero_of_dvd hdvd))]

/-- The first and the second dimension suffice. -/
theorem divide_both (hlt : size first<threads) (hpos : 0 < size second)
    (hdvd : threads/size first ∣ size second) :
    divide size threads first second third=
      .ok (Function.update (Function.update size first 1) second
        (size second/(threads/size first))) := by
  unfold divide
  rw [if_neg (Nat.not_le.2 hlt)]
  dsimp only
  rw [if_neg (not_not.2 (Nat.mod_eq_zero_of_dvd hdvd)),if_pos (Nat.le_of_dvd hpos hdvd)]

/-- The third dimension is never divided: "Matrix is too small" is never printed. -/
theorem divide_ne_tooSmall (hpos : 0 < size second) :
    divide size threads first second third≠.error .tooSmall := by
  intro h
  unfold divide at h
  dsimp only at h
  split at h
  next => split at h <;> cases h
  next =>
    split at h
    next => cases h
    next hmod =>
      have hdvd := Nat.dvd_of_mod_eq_zero (not_not.1 hmod)
      rw [if_pos (Nat.le_of_dvd hpos hdvd)] at h
      cases h

/-- A decomposition whose division has as many parts as there are threads is accepted. -/
theorem decompose_ok (horder : order blockDim1 blockDim2=some (first,second,third))
    (hdivide : divide size threads first second third=.ok micro) (hthreads : threads<2^31)
    (hparts : size first/micro first*(size second/micro second)*(size third/micro third)=threads) :
    decompose blockDim1 blockDim2 size threads=.ok micro := by
  have hproduct : size .x/micro .x*(size .y/micro .y)*(size .z/micro .z)=threads := by
    rw [←hparts]
    exact product_order horder fun d => size d/micro d
  unfold decompose
  rw [horder]
  simp only [hdivide,bind,Except.bind]
  rw [hproduct,Nat.mod_eq_of_lt (by omega)]
  exact if_neg (not_not.2 rfl)

/-- `main` accepts what it can decompose, for at most as many threads as it supports. -/
theorem microBlockSize_accepts_iff {inp : Input} (hblocks : ∀ d, inp.blocks d ∣ inp.size d-2) :
    (∃ micro, microBlockSize inp=.ok micro) ↔
      (∃ micro, decompose inp.blockDim1 inp.blockDim2 (macroBlockSize inp) inp.threads=
        .ok micro) ∧ inp.threads ≤ maxSupportedThreads := by
  have heven : ∀ d, (inp.size d-2)%inp.blocks d=0 := fun d => Nat.mod_eq_zero_of_dvd (hblocks d)
  rw [microBlockSize_eq,if_neg (by simp only [heven]; decide)]
  cases decompose inp.blockDim1 inp.blockDim2 (macroBlockSize inp) inp.threads with
  | error e =>
    constructor
    · rintro ⟨micro,h⟩
      cases h
    · rintro ⟨⟨micro,h⟩,-⟩
      cases h
  | ok micro =>
    rw [Except.bind]
    constructor
    · rintro ⟨micro',h⟩
      split at h
      next => cases h
      next hle => exact ⟨⟨micro,rfl⟩,Nat.le_of_not_lt hle⟩
    · rintro ⟨-,hle⟩
      exact ⟨micro,if_neg (Nat.not_lt.2 hle)⟩

/-- For every order of the dimensions, all sizes of a macroblock and every number of threads for
which the greedy division exists, `main` decomposes it if and only if it does not need the third
dimension; and on every input with such macroblocks it accepts if and only if, besides, there are
no more threads than it supports. -/
theorem decompose_accepts_iff (horder : order blockDim1 blockDim2=some (first,second,third))
    (hsize : ∀ d, 0 < size d) (hthreads : threads<2^31)
    (hgreedy : GreedySplit (size first) (size second) (size third) threads) :
    ((∃ micro, decompose blockDim1 blockDim2 size threads=.ok micro) ↔
      threads ≤ size first ∨ threads/size first ∣ size second) ∧
    ∀ inp : Input, inp.blockDim1=blockDim1 → inp.blockDim2=blockDim2 → inp.threads=threads →
      (∀ d, inp.blocks d ∣ inp.size d-2) → macroBlockSize inp=size →
      ((∃ micro, microBlockSize inp=.ok micro) ↔
        (threads ≤ size first ∨ threads/size first ∣ size second) ∧
          threads ≤ maxSupportedThreads) := by
  obtain ⟨h12,h13,h23⟩ := order_distinct horder
  have haccepts : (∃ micro, decompose blockDim1 blockDim2 size threads=.ok micro) ↔
      threads ≤ size first ∨ threads/size first ∣ size second := by
    constructor
    · rintro ⟨micro,h⟩
      unfold decompose at h
      rw [horder] at h
      cases hdivide : divide size threads first second third with
      | error e =>
        simp only [hdivide] at h
        cases h
      | ok micro => exact divide_second hdivide
    · intro hcond
      by_cases hle : threads ≤ size first
      · have hdvd : threads ∣ size first := by
          rcases hgreedy with hg|hg
          · exact hg.2
          · omega
        refine ⟨_,decompose_ok horder (divide_first hle hdvd) hthreads ?_⟩
        rw [Function.update_self,Function.update_of_ne h12.symm,Function.update_of_ne h13.symm,
          Nat.div_div_self hdvd (hsize first).ne',Nat.div_self (hsize second),
          Nat.div_self (hsize third),Nat.mul_one,Nat.mul_one]
      · have hdvd := hcond.resolve_left hle
        have hfirst : size first ∣ threads := by
          rcases hgreedy with hg|hg
          · exact absurd hg.1 hle
          · exact hg.2.1
        refine ⟨_,decompose_ok horder (divide_both (by omega) (hsize second) hdvd) hthreads ?_⟩
        rw [Function.update_self,Function.update_of_ne h12,Function.update_self,
          Function.update_of_ne h23.symm,Function.update_of_ne h13.symm,Nat.div_one,
          Nat.div_div_self hdvd (hsize second).ne',Nat.div_self (hsize third),Nat.mul_one,
          Nat.mul_div_cancel' hfirst]
  refine ⟨haccepts,fun inp hdim1 hdim2 ht hblocks hsame => ?_⟩
  rw [microBlockSize_accepts_iff hblocks,hdim1,hdim2,ht,hsame,haccepts]

/-- A macroblock of 4 by 2 by 2 points is divided among eight threads, and `main` accepts the grid
of 6 by 4 by 4 points around it. -/
theorem decompose_accepts_eight :
    (∃ micro, decompose 0 1 (fun d => if d=.x then 4 else 2) 8=.ok micro) ∧
    ∀ inp : Input, inp.blockDim1=0 → inp.blockDim2=1 → inp.threads=8 → (∀ d, inp.blocks d=1) →
      (∀ d, inp.size d=if d=.x then 6 else 4) → ∃ micro, microBlockSize inp=.ok micro := by
  have hsizes : ∀ d, 0<(fun d => if d=Dim.x then 4 else 2) d := fun d => by cases d <;> decide
  have h := decompose_accepts_iff (show order 0 1=some (.x,.y,.z) from rfl) hsizes
    (show 8<2^31 by decide) (.inr ⟨by decide,by decide,.inl (by decide)⟩)
  refine ⟨h.1.2 (.inr (by decide)),fun inp hdim1 hdim2 ht hblocks hsize => ?_⟩
  refine (h.2 inp hdim1 hdim2 ht (fun d => ?_) (funext fun d => ?_)).2
    ⟨.inr (by decide),by decide⟩
  · rw [hblocks]
    exact Nat.one_dvd _
  · rw [macroBlockSize,hblocks,hsize,Nat.div_one]
    cases d <;> rfl

/-- One of 1 by 2 by 2 points is not divided among four threads, though 2 by 2 parts exist: 2 is not
a multiple of 4. -/
theorem decompose_refuses_third : GreedySplit 1 2 2 4 ∧
    (decompose 0 1 (fun d => if d=.x then 1 else 2) 4).toOption=none := by
  refine ⟨.inr ⟨by decide,by decide,.inr ⟨by decide,by decide,by decide⟩⟩,by decide⟩

end RigelTarget.Stencil
