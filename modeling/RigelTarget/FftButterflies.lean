import RigelTarget.FftReordering
import RigelTarget.DoubleBuffer
import RigelTarget.RadixTwo

/-!
# The butterflies of the FFT benchmark

Between its two reorderings `four1` runs the Danielson-Lanczos loops: a stage for every doubling of
`mmax`, whose twiddle factors come by a recurrence from two neighbours in the table of sines, and
in each stage a loop over the twiddle factors around a loop over the blocks. The arithmetic is that
of `REAL`, with its rounding: nothing is assumed of its operations or of its literals. The
whole function computes the recursive radix-two transform, operation by operation, and stores it
backwards.
-/

namespace RigelTarget.FftButterflies

open DoubleBuffer BitReversal RadixTwo FftReordering

section Code

variable {α : Type} [Add α] [Sub α] [Mul α]

/-- A turn of the inner loop: `j = i + mmax` and the assignments to the two elements, in the order
of the source, each reading what the ones before it have stored. -/
def butterfly (mmax : ℕ) (wr wi : α) (data : ℕ → α) (i : ℕ) : ℕ → α :=
  let j := i+mmax
  let tempr := wr*data j-wi*data (j+1)
  let tempi := wr*data (j+1)+wi*data j
  let data1 := Function.update data j (data i-tempr)
  let data2 := Function.update data1 (j+1) (data1 (i+1)-tempi)
  let data3 := Function.update data2 i (data2 i+tempr)
  Function.update data3 (i+1) (data3 (i+1)+tempi)

/-- `for(i = m; i <= n; i += istep)`; `none` when the fuel does not suffice. -/
def blockLoop (n mmax : ℕ) (wr wi : α) : ℕ → ℕ → (ℕ → α) → Option (ℕ → α)
  | 0, _, _ => none
  | fuel+1, i, data =>
    if i≤n then blockLoop n mmax wr wi fuel (i+mmax<<<1) (butterfly mmax wr wi data i)
    else some data

/-- `for(m = 1; m < mmax; m += 2)` with the twiddle factor `wr`, `wi`, which goes on by the
recurrence after each turn. -/
def twiddleLoop (n mmax : ℕ) (wpr wpi : α) (fuel : ℕ) :
    ℕ → ℕ → α → α → (ℕ → α) → Option (ℕ → α)
  | 0, _, _, _, _ => none
  | turns+1, m, wr, wi, data =>
    if m < mmax then (blockLoop n mmax wr wi fuel m data).bind
      (twiddleLoop n mmax wpr wpi fuel turns (m+2) (wr*wpr-wi*wpi+wr) (wi*wpr+wr*wpi+wi))
    else some data

/-- `sinThetaLUT`: its literals, in units of the tenth decimal place. What `REAL` makes of a literal
is the parameter `literal` of the functions below. -/
def sinThetaLUT : List ℤ :=
  [-874,10000000000,7071068287,3826834559,1950903237,980171412,490676761,245412290,122715384,
   61358847,30679568,15339802,7669904,3834952,1917476,958738,479369,239685,119842,59921,29961,
   14980,7490,3745,1873,936,468,234,117,59,29,-15]

/-- `0.0f`. -/
def zero (literal : ℤ → α) : α := literal 0

/-- `1.0f`. -/
def one (literal : ℤ → α) : α := literal (10^10)

/-- `-2.0f`. -/
def minusTwo (literal : ℤ → α) : α := literal (-2*10^10)

/-- An entry of `sinThetaLUT`, with the reading `literal` of the constants; `none` outside the
table. -/
def entry (literal : ℤ → α) (t : ℕ) : Option α := sinThetaLUT[t]?.map literal

/-- `while(n > mmax)`: a turn takes two neighbours from the table of sines for its recurrence;
`none` when the fuel does not suffice or the table ends. -/
def danielsonLanczos (literal : ℤ → α) (n fuel : ℕ) :
    ℕ → ℕ → ℕ → (ℕ → α) → Option (ℕ → α)
  | 0, _, _, _ => none
  | turns+1, mmax, tblIndex, data =>
    if mmax<n then
      (entry literal tblIndex).bind fun wtemp =>
        (entry literal (tblIndex-1)).bind fun wpi =>
          (twiddleLoop n mmax (minusTwo literal*wtemp*wtemp) wpi fuel fuel 1 (one literal)
            (zero literal) data).bind
              (danielsonLanczos literal n fuel turns (mmax<<<1) (tblIndex+1))
    else some data

/-- `four1`, which does not use its `isign`: the first reordering, the loops of butterflies, and the
reordering at the end. -/
def four1 (literal : ℤ → α) (fuel nn : ℕ) (data : ℕ → α) : Option (ℕ → α) :=
  (reorder fuel nn data).bind fun s =>
    (danielsonLanczos literal (nn<<<1) fuel fuel 2 1 s.data).bind
      (reverseLoop fuel 1 (nn-1))

/-- An entry inside the table. The sizes of the theorems never ask for another one. -/
def sine (literal : ℤ → α) (t : ℕ) : α := literal (sinThetaLUT.getD t 0)

/-- The twiddle factors of a stage, by the recurrence of the code from `1.0f`, `0.0f` on. They are
not the exact ones, since the recurrence and the table round. -/
def twiddle (literal : ℤ → α) (wpr wpi : α) : ℕ → α×α
  | 0 => (one literal,zero literal)
  | r+1 =>
    let w := twiddle literal wpr wpi r
    (w.1*wpr-w.2*wpi+w.1,w.2*wpr+w.1*wpi+w.2)

/-- The new values of two elements, the second one multiplied by the twiddle factor: sum and
difference, with the operations in the order of the source. -/
def combine (w p q : α×α) : (α×α)×(α×α) :=
  ((p.1+(w.1*q.1-w.2*q.2),p.2+(w.1*q.2+w.2*q.1)),
    (p.1-(w.1*q.1-w.2*q.2),p.2-(w.1*q.2+w.2*q.1)))

/-- Twiddle factor `r` of the stage for blocks of `2^(s+1)` elements: `wpr` and `wpi` are computed
from the entries `s+1` and `s` of the table. -/
def stageTwiddle (literal : ℤ → α) (s : ℕ) : ℕ → α×α :=
  twiddle literal (minusTwo literal*sine literal (s+1)*sine literal (s+1)) (sine literal s)

/-- What `four1` computes of `2^k` elements: the recursive radix-two transform with the twiddle
factors of the code, read from the end. -/
def spectrum (literal : ℤ → α) (k : ℕ) (f : ℕ → α×α) (e : ℕ) : α×α :=
  transform (fun s r => combine (stageTwiddle literal s r)) k f (opposite (2^k) e)

end Code

section Loops

variable {α : Type} [Add α] [Sub α] [Mul α] {literal : ℤ → α}
  {n mmax c h k s fuel turns : ℕ} {wr wi wpr wpi : α} {data : ℕ → α}

omit [Add α] [Sub α] [Mul α] in
/-- The entries of the table are `sine`. -/
theorem entry_eq {t : ℕ} (ht : t<32) : entry literal t=some (sine literal t) := by
  have hlt : t < sinThetaLUT.length := ht
  rw [entry,sine,List.getElem?_eq_getElem hlt,List.getD_eq_getElem _ _ hlt]
  rfl

/-- The four reals that a butterfly stores: those of `combine`, although the assignments go one by
one. -/
theorem butterfly_values (hpos : 0<h) (wr wi : α) (data : ℕ → α) (i x : ℕ) :
    butterfly (2*h) wr wi data i (i+2*h)=
      data i-(wr*data (i+2*h)-wi*data (i+2*h+1)) ∧
    butterfly (2*h) wr wi data i (i+2*h+1)=
      data (i+1)-(wr*data (i+2*h+1)+wi*data (i+2*h)) ∧
    butterfly (2*h) wr wi data i i=data i+(wr*data (i+2*h)-wi*data (i+2*h+1)) ∧
    butterfly (2*h) wr wi data i (i+1)=
      data (i+1)+(wr*data (i+2*h+1)+wi*data (i+2*h)) ∧
    (x≠i → x≠i+1 → x≠i+2*h → x≠i+2*h+1 → butterfly (2*h) wr wi data i x=data x) := by
  unfold butterfly
  refine ⟨?_,?_,?_,?_,fun h1 h2 h3 h4 => ?_⟩
  · rw [Function.update_of_ne (by omega),Function.update_of_ne (by omega),
      Function.update_of_ne (by omega),Function.update_self]
  · rw [Function.update_of_ne (by omega),Function.update_of_ne (by omega),Function.update_self,
      Function.update_of_ne (by omega)]
  · rw [Function.update_of_ne (by omega),Function.update_self,Function.update_of_ne (by omega),
      Function.update_of_ne (by omega)]
  · rw [Function.update_self,Function.update_of_ne (by omega),Function.update_of_ne (by omega),
      Function.update_of_ne (by omega)]
  · rw [Function.update_of_ne h2,Function.update_of_ne h1,Function.update_of_ne h4,
      Function.update_of_ne h3]

/-- A butterfly replaces two elements. -/
theorem element_butterfly {T : Type} (hpos : 0<h) (low : T → ℕ) (w : T → α×α) (data : ℕ → α)
    (t : T) : element (butterfly (2*h) (w t).1 (w t).2 data (2*low t+1))=
      rework low (fun t => low t+h) (fun t => combine (w t)) (element data) t := by
  have hvalues := butterfly_values hpos (w t).1 (w t).2 data (2*low t+1)
  obtain ⟨h1,h2,h3,h4,-⟩ := hvalues 0
  have hj : 2*low t+1+2*h=2*(low t+h)+1 := by ring
  rw [hj] at h1 h2 h3 h4
  funext e
  unfold rework
  by_cases hlow : e=low t
  · rw [hlow,Function.update_self]
    exact Prod.ext h3 h4
  · rw [Function.update_of_ne hlow]
    by_cases hup : e=low t+h
    · rw [hup,Function.update_self]
      exact Prod.ext h1 h2
    · rw [Function.update_of_ne hup]
      exact Prod.ext ((hvalues (2*e+1)).2.2.2.2 (by omega) (by omega) (by omega) (by omega))
        ((hvalues (2*e+2)).2.2.2.2 (by omega) (by omega) (by omega) (by omega))

/-- The loop over the blocks ends after `c` turns. A turn is one butterfly, with the same twiddle
factor in all blocks. -/
theorem blockLoop_eq {i : ℕ} (hfuel : c<fuel) (hturns : ∀ q, q < c → i+q*mmax<<<1≤n)
    (hend : n < i+c*mmax<<<1) : blockLoop n mmax wr wi fuel i data=
      some ((List.range c).foldl (fun d q => butterfly mmax wr wi d (i+q*mmax<<<1)) data) := by
  induction c generalizing fuel i data with
  | zero =>
    obtain ⟨fuel,rfl⟩ : ∃ f, fuel=f+1 := ⟨fuel-1,by omega⟩
    rw [blockLoop,if_neg (by omega)]
    rfl
  | succ c ih =>
    obtain ⟨fuel,rfl⟩ : ∃ f, fuel=f+1 := ⟨fuel-1,by omega⟩
    have hfirst := hturns 0 (by omega)
    rw [Nat.zero_mul,Nat.add_zero] at hfirst
    have hnext : ∀ q, i+mmax<<<1+q*mmax<<<1=i+(q+1)*mmax<<<1 := fun q => by ring
    rw [blockLoop,if_pos hfirst,ih (by omega) (fun q hq => by
      rw [hnext]
      exact hturns (q+1) (by omega)) (by rw [hnext]; exact hend),List.range_succ_eq_map,
      List.foldl_cons,List.foldl_map,Nat.zero_mul,Nat.add_zero]
    simp only [hnext]

/-- The number of the lower element in turn `q` of the inner loop in turn `r` of the outer one. -/
def lower (h : ℕ) (t : ℕ×ℕ) : ℕ := t.1+2*h*t.2

/-- The turns of both loops from `r` on. -/
def turnsFrom (h c r : ℕ) : List (ℕ×ℕ) :=
  (List.range' r (h-r)).flatMap fun r => (List.range c).map fun q => (r,q)

variable (literal wpr wpi) in
/-- The loop over the twiddle factors ends after `h` turns, and its factor in turn `r` is number `r`
of the recurrence. -/
theorem twiddleLoop_eq {r : ℕ} (hn : n=4*h*c) (hfuel : c<fuel) (hr : r≤h) (hturns : h<turns+r)
    (data : ℕ → α) : twiddleLoop n (2*h) wpr wpi fuel turns (2*r+1) (twiddle literal wpr wpi r).1
      (twiddle literal wpr wpi r).2 data=
      some ((turnsFrom h c r).foldl (fun d t => butterfly (2*h) (twiddle literal wpr wpi t.1).1
        (twiddle literal wpr wpi t.1).2 d (2*lower h t+1)) data) := by
  induction turns generalizing r data with
  | zero => omega
  | succ turns ih =>
    by_cases hlast : r=h
    · rw [twiddleLoop,if_neg (by omega),turnsFrom,hlast,Nat.sub_self]
      rfl
    · have hindex : ∀ q, 2*r+1+q*(2*h)<<<1=2*lower h (r,q)+1 := by
        intro q
        rw [Nat.shiftLeft_eq,lower]
        ring
      have hblocks : blockLoop n (2*h) (twiddle literal wpr wpi r).1 (twiddle literal wpr wpi r).2
          fuel (2*r+1) data=
          some ((List.range c).foldl (fun d q => butterfly (2*h) (twiddle literal wpr wpi r).1
            (twiddle literal wpr wpi r).2 d (2*r+1+q*(2*h)<<<1)) data) := by
        refine blockLoop_eq hfuel (fun q hq => ?_) ?_
        · have hle : 4*h*(q+1)≤4*h*c := Nat.mul_le_mul_left _ hq
          rw [hindex,lower]
          dsimp only
          rw [Nat.mul_succ] at hle
          have hdouble : 4*h*q=2*(2*h*q) := by ring
          omega
        · rw [hindex,lower]
          dsimp only
          have hdouble : 4*h*c=2*(2*h*c) := by ring
          omega
      have hsplit : turnsFrom h c r=((List.range c).map fun q => (r,q))++turnsFrom h c (r+1) := by
        unfold turnsFrom
        rw [show h-r=h-(r+1)+1 by omega,List.range'_succ,List.flatMap_cons]
      rw [twiddleLoop,if_pos (by omega),hblocks,Option.bind_some,hsplit,List.foldl_append,
        List.foldl_map]
      simp only [hindex]
      exact ih (r := r+1) (by omega) (by omega) _

/-- A stage on the elements. -/
theorem element_stage (hpos : 0<h) (w : ℕ → α×α) (l : List (ℕ×ℕ)) (data : ℕ → α) :
    element (l.foldl (fun d t => butterfly (2*h) (w t.1).1 (w t.1).2 d (2*lower h t+1)) data)=
      l.foldl (rework (lower h) (fun t => lower h t+h) fun t => combine (w t.1))
        (element data) := by
  refine (List.foldl_hom element fun d t => ?_).symm
  exact (element_butterfly hpos (lower h) (fun t => w t.1) d t).symm

/-- A stage touches the elements only. -/
theorem stage_keep {x : ℕ} (hpos : 0<h) (w : ℕ → α×α) {l : List (ℕ×ℕ)}
    (hl : ∀ t, t∈l → lower h t+h<2^k) (hx : x=0 ∨ 2*2^k<x) (data : ℕ → α) :
    l.foldl (fun d t => butterfly (2*h) (w t.1).1 (w t.1).2 d (2*lower h t+1)) data x=data x := by
  induction l generalizing data with
  | nil => rfl
  | cons t l ih =>
    have hlt := hl t List.mem_cons_self
    rw [List.foldl_cons,ih fun u hu => hl u (List.mem_cons_of_mem t hu)]
    exact (butterfly_values hpos _ _ data _ x).2.2.2.2 (by omega) (by omega) (by omega) (by omega)

/-- The turns of a stage. -/
theorem mem_turnsFrom {t : ℕ×ℕ} : t∈turnsFrom h c 0 ↔ t.1<h ∧ t.2 < c := by
  unfold turnsFrom
  rw [List.mem_flatMap]
  constructor
  · rintro ⟨r,hr,ht⟩
    obtain ⟨q,hq,rfl⟩ := List.mem_map.1 ht
    have hr := List.mem_range'_1.1 hr
    exact ⟨by dsimp only; omega,List.mem_range.1 hq⟩
  · rintro ⟨hr,hq⟩
    exact ⟨t.1,List.mem_range'_1.2 (by omega),List.mem_map.2 ⟨t.2,List.mem_range.2 hq,rfl⟩⟩

/-- The elements of a turn tell which turn it is. -/
theorem lower_spec {t : ℕ×ℕ} (ht : t.1<h) : (lower h t%h=t.1 ∧ lower h t/(2*h)=t.2) ∧
    (lower h t+h)%h=t.1 ∧ (lower h t+h)/(2*h)=t.2 := by
  have hpos : 0<2*h := by omega
  have hsplit : lower h t=t.1+h*(2*t.2) := by
    unfold lower
    ring
  have hmod : lower h t%h=t.1 := by rw [hsplit,Nat.add_mul_mod_self_left,Nat.mod_eq_of_lt ht]
  refine ⟨⟨hmod,?_⟩,?_,?_⟩
  · rw [lower,Nat.add_mul_div_left _ _ hpos,Nat.div_eq_of_lt (by omega),Nat.zero_add]
  · rw [Nat.add_mod_right,hmod]
  · rw [lower,show t.1+2*h*t.2+h=t.1+h+2*h*t.2 by ring,Nat.add_mul_div_left _ _ hpos,
      Nat.div_eq_of_lt (by omega),Nat.zero_add]

/-- No element is in two turns. -/
theorem turns_nodup (hpos : 0<h) :
    ((turnsFrom h c 0).flatMap fun t => [lower h t,lower h t+h]).Nodup := by
  refine nodup_flatMap_of_index (fun e => (e%h,e/(2*h))) ?_ (fun t _ => ?_) fun t ht e he => ?_
  · refine nodup_flatMap_of_index Prod.fst (List.nodup_range' 1) (fun r _ => ?_) fun r _ t ht => ?_
    · exact List.nodup_range.map fun q q' he => congrArg Prod.snd he
    · obtain ⟨q,-,rfl⟩ := List.mem_map.1 ht
      rfl
  · rw [List.nodup_cons,List.mem_singleton]
    exact ⟨by omega,List.nodup_singleton _⟩
  · obtain ⟨⟨h1,h2⟩,h3,h4⟩ := lower_spec (mem_turnsFrom.1 ht).1
    rw [List.mem_cons,List.mem_singleton] at he
    rcases he with rfl|rfl
    · exact Prod.ext h1 h2
    · exact Prod.ext h3 h4

/-- A stage of the code is a stage of butterflies on the elements, with the twiddle factors of the
recurrence. -/
theorem stage_element (hs : s<k) (w : ℕ → α×α) (data : ℕ → α) {e : ℕ} (he : e<2^k) :
    element ((turnsFrom (2^s) (2^(k-s-1)) 0).foldl (fun d t => butterfly (2*2^s) (w t.1).1
      (w t.1).2 d (2*lower (2^s) t+1)) data) e=
      stage (fun r => combine (w r)) s (element data) e := by
  have hpos := Nat.two_pow_pos s
  have hpow : 2^(s+1)=2*2^s := pow_succ' 2 s
  have hturn : (e%2^s,e/2^(s+1))∈turnsFrom (2^s) (2^(k-s-1)) 0 := by
    refine mem_turnsFrom.2 ⟨Nat.mod_lt e hpos,Nat.div_lt_of_lt_mul ?_⟩
    rw [←pow_add,show s+1+(k-s-1)=k by omega]
    exact he
  have hlower : lower (2^s) (e%2^s,e/2^(s+1))=e%2^s+2^(s+1)*(e/2^(s+1)) := by rw [lower,hpow]
  have hblock := Nat.mod_add_div e (2^(s+1))
  obtain ⟨hlow,hhigh⟩ := foldl_rework (fun t => combine (w t.1)) (a := element data)
    (turns_nodup (c := 2^(k-s-1)) hpos) hturn
  rw [element_stage hpos w,stage]
  rcases block_cases s e with ⟨hless,hmod,-⟩|⟨hmore,hmod,-,hle,-⟩
  · rw [hlower,←hmod,hblock] at hlow
    rw [if_pos hless,hlow,hmod]
  · have hplace : lower (2^s) (e%2^s,e/2^(s+1))=e-2^s := by omega
    rw [hplace,Nat.sub_add_cancel hle] at hhigh
    rw [if_neg hmore,hhigh]

/-- The data after the first stages: the elements are those of the abstract stages, and the words
around them are untouched. -/
structure Staged (literal : ℤ → α) (k s : ℕ) (f : ℕ → α×α) (start data : ℕ → α) : Prop where
  element_eq : ∀ e, e<2^k →
    element data e=stages (fun s r => combine (stageTwiddle literal s r)) s f e
  kept : ∀ x, x=0 ∨ 2*2^k<x → data x=start x

variable {f : ℕ → α×α}

/-- A turn of the outer loop is the next stage, with the sines of its angle and of half of it. -/
theorem staged_turn {start : ℕ → α} (hk : k<32) (hs : s<k) (hfuel : 2^k<fuel)
    (h : Staged literal k s f start data) :
    ∃ wtemp wpi next, entry literal (s+1)=some wtemp ∧ entry literal s=some wpi ∧
      twiddleLoop (2*2^k) (2*2^s) (minusTwo literal*wtemp*wtemp) wpi fuel fuel 1 (one literal)
        (zero literal) data=some next ∧
      Staged literal k (s+1) f start next := by
  have hsplit : 2^k=2^s*(2*2^(k-s-1)) := by
    rw [←pow_succ',←pow_add]
    congr 1
    omega
  have hn : 2*2^k=4*2^s*2^(k-s-1) := by
    rw [hsplit]
    ring
  have hsmall : 2^s<fuel :=
    (Nat.pow_le_pow_right Nat.two_pos hs.le).trans_lt hfuel
  have hblocks : 2^(k-s-1)<fuel :=
    (Nat.pow_le_pow_right Nat.two_pos (by omega)).trans_lt hfuel
  have hloop := twiddleLoop_eq literal
    (minusTwo literal*sine literal (s+1)*sine literal (s+1)) (sine literal s) hn
    hblocks (Nat.zero_le _) (show 2^s<fuel+0 by omega) data
  have hinside : ∀ t, t∈turnsFrom (2^s) (2^(k-s-1)) 0 → lower (2^s) t+2^s<2^k := by
    intro t ht
    obtain ⟨h1,h2⟩ := mem_turnsFrom.1 ht
    have hle : 2*2^s*(t.2+1)≤2*2^s*2^(k-s-1) := Nat.mul_le_mul_left _ h2
    rw [Nat.mul_succ] at hle
    have hrow : 2^k=2*2^s*2^(k-s-1) := by
      rw [hsplit]
      ring
    rw [lower]
    omega
  refine ⟨_,_,_,entry_eq (by omega),entry_eq (by omega),hloop,fun e he => ?_,fun x hx => ?_⟩
  · exact (stage_element hs (stageTwiddle literal s) data he).trans
      (stage_congr hs h.element_eq he)
  · exact (stage_keep (Nat.two_pow_pos s) (stageTwiddle literal s) hinside hx data).trans
      (h.kept x hx)

/-- The outer loop goes through all stages, one for every doubling of `mmax`, until the blocks are
the whole. -/
theorem danielsonLanczos_eq {start : ℕ → α} (hk : k<32) (hs : s≤k) (hfuel : 2^k<fuel)
    (hturns : k<turns+s) (h : Staged literal k s f start data) :
    ∃ out, danielsonLanczos literal (2*2^k) fuel turns (2*2^s) (s+1) data=some out ∧
      Staged literal k k f start out := by
  induction turns generalizing s data with
  | zero => omega
  | succ turns ih =>
    by_cases hlast : s=k
    · subst hlast
      exact ⟨data,if_neg (Nat.lt_irrefl _),h⟩
    · have hless : 2*2^s<2*2^k := by
        have hlt : 2^s<2^k := Nat.pow_lt_pow_right Nat.one_lt_two (by omega)
        omega
      have hdouble : (2*2^s)<<<1=2*2^(s+1) := by
        rw [Nat.shiftLeft_eq]
        ring
      obtain ⟨wtemp,wpi,next,h1,h2,h3,hnext⟩ := staged_turn hk (by omega) hfuel h
      obtain ⟨out,hout,hstaged⟩ := ih (by omega) (by omega) hnext
      refine ⟨out,?_,hstaged⟩
      rw [danielsonLanczos,if_pos hless,h1,Option.bind_some,Nat.add_sub_cancel,h2,
        Option.bind_some,h3,Option.bind_some,hdouble]
      exact hout

end Loops

section Function

variable {α : Type} [Add α] [Sub α] [Mul α] {literal : ℤ → α} {k fuel : ℕ}

variable (literal) in
/-- For every power of two and every arithmetic, `four1` ends with the recursive radix-two
transform of the elements, stored from the end, and touches nothing else. -/
theorem four1_transform (hk : k<30) (hfuel : 2^k<fuel) (data : ℕ → α) :
    ∃ out, four1 literal fuel (2^k) data=some out ∧
      (∀ e, e<2^k → element out e=spectrum literal k (element data) e) ∧
      ∀ x, x=0 ∨ 2*2^k<x → out x=data x := by
  have hpos := Nat.two_pow_pos k
  obtain ⟨s,hs,hreordered,hmoved⟩ := reorder_spec (Nat.lt_two_pow_self.trans hfuel) data
  have hstart : Staged literal k 0 (fun e => element data (reversal k e)) data s.data :=
    ⟨hmoved,hreordered.kept⟩
  obtain ⟨mid,hmid,hstages⟩ :=
    danielsonLanczos_eq (by omega) (Nat.zero_le k) hfuel
      (show k<fuel+0 from Nat.lt_two_pow_self.trans hfuel) hstart
  obtain ⟨out,hout,hturned,hkept⟩ := reverseLoop_moves hpos hfuel mid
  refine ⟨out,?_,fun e he => ?_,fun x hx => (hkept x hx).trans (hstages.kept x hx)⟩
  · have hn : 2^k<<<1=2*2^k := by
      rw [Nat.shiftLeft_eq]
      ring
    have hloops : danielsonLanczos literal (2*2^k) fuel fuel 2 1 s.data=some mid := hmid
    rw [four1,hs,Option.bind_some,hn,hloops]
    exact hout
  · have hopposite : opposite (2^k) e<2^k := (opposite_spec he).1
    rw [hturned e he,hstages.element_eq _ hopposite,stages_transform (element data) hopposite]
    rfl

/-- Eight elements, in whole numbers: a literal is cut to three decimal places. The arithmetic is
none that the theorem knows. -/
theorem four1_transform_eight :
    ∃ out, four1 (fun x : ℤ => x/10^7) 9 8 (fun x => (x : ℤ))=some out ∧
      (∀ e, e<8 → element out e=
        spectrum (fun x : ℤ => x/10^7) 3 (element fun x => (x : ℤ)) e) ∧
      ∀ x : ℕ, x=0 ∨ 16 < x → out x=x :=
  four1_transform (fun x : ℤ => x/10^7) (k := 3) (by decide) (by decide) _

end Function

end RigelTarget.FftButterflies
