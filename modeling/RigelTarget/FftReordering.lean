import RigelTarget.BitReversal
import RigelTarget.Exchanges

/-!
# Reordering in the FFT benchmark

`four1` works on complex elements at doubled indices from one on. Its first loop exchanges element
`i` with the one at the reversed counter `j`, which a loop of subtractions and halvings advances;
its last loop turns the elements behind the first one round.
-/

namespace RigelTarget.FftReordering

open BitReversal Exchanges

section Code

variable {α : Type}

/-- `tmp = data[a]; data[a] = data[b]; data[b] = tmp`, and the same one further: real and imaginary
part. -/
def swapElements (data : ℕ → α) (a b : ℕ) : ℕ → α := exchange (exchange data a b) (a+1) (b+1)

/-- `while(m >= 2 && j > m) { j -= m; m >>= 1; } j += m;`, with the values of `j` at the tests;
`none` when the fuel does not suffice. -/
def carryLoop : ℕ → ℕ → ℕ → Option (ℕ×List ℕ)
  | 0, _, _ => none
  | fuel+1, m, j =>
    if 2 ≤ m ∧ m<j then (carryLoop fuel (m>>>1) (j-m)).map fun r => (r.1,j::r.2) else some (j+m,[j])

/-- The variables of the first loop of `four1`: the data and `j`, with the values of `j` at which
the data was touched. -/
structure Pass (α : Type) where
  /-- The elements. -/
  data : ℕ → α
  /-- The reversed counter. -/
  j : ℕ
  /-- The values of `j` at the tests and swaps so far. -/
  tested : List ℕ
  /-- The pairs `(i, j)` swapped so far. -/
  swapped : List (ℕ×ℕ)

/-- A turn of the first loop: the exchange if `j` is greater than `i`, and then the reversed counter
goes on by one. -/
def reorderTurn (fuel nn : ℕ) (s : Pass α) (i : ℕ) : Option (Pass α) :=
  (carryLoop fuel nn s.j).map fun r =>
    { data := if i < s.j then swapElements s.data s.j i else s.data
      j := r.1
      tested := s.tested++s.j::r.2
      swapped := if i < s.j then s.swapped++[(i,s.j)] else s.swapped }

/-- The first loop of `four1`: `for(i = 1; i < n; i += 2)`, with `n` twice the number `nn` of
elements. -/
def reorder (fuel nn : ℕ) (data : ℕ → α) : Option (Pass α) :=
  (List.range' 1 nn 2).foldlM (reorderTurn fuel nn) ⟨data,1,[],[]⟩

/-- The last loop of `four1`, from `i` and `j` on, which turns the elements behind the first one
around. -/
def reverseLoop : ℕ → ℕ → ℕ → (ℕ → α) → Option (ℕ → α)
  | 0, _, _, _ => none
  | fuel+1, i, j, data =>
    if i < j then reverseLoop fuel (i+1) (j-1) (swapElements data (1+2*i) (1+2*j)) else some data

/-- A complex element. -/
def element (data : ℕ → α) (e : ℕ) : α×α := (data (2*e+1),data (2*e+2))

end Code

variable {α : Type} {k t fuel : ℕ} {data : ℕ → α} {s : Pass α}

/-- The swap of two elements. -/
theorem element_swap (data : ℕ → α) (a b : ℕ) :
    element (swapElements data (2*a+1) (2*b+1))=exchange (element data) a b := by
  funext e
  unfold element swapElements
  by_cases hb : e=b
  · rw [hb,exchange_right,exchange_right,exchange_other (by omega) (by omega),exchange_right,
      exchange_other (by omega) (by omega)]
  · by_cases ha : e=a
    · rw [ha,exchange_left,exchange_left,exchange_other (by omega) (by omega),exchange_left,
        exchange_other (by omega) (by omega)]
    · rw [exchange_other ha hb,exchange_other (by omega) (by omega),
        exchange_other (by omega) (by omega),exchange_other (by omega) (by omega),
        exchange_other (by omega) (by omega)]

/-- The swap touches the two elements only. -/
theorem swapElements_other {a b x : ℕ} (ha : x≠a) (ha' : x≠a+1) (hb : x≠b) (hb' : x≠b+1) :
    swapElements data a b x=data x := by
  unfold swapElements
  rw [exchange_other ha' hb',exchange_other ha hb]

/-- An odd index of an array of `2^k` elements. -/
def Inside (k j : ℕ) : Prop := j%2=1 ∧ 1≤j ∧ j≤2*2^k-1

/-- The inner loop ends, keeps `j` odd, and counts the reversed counter on: it is an addition of one
whose carry runs to the right. -/
theorem carryLoop_spec (hfuel : k<fuel) (ht : t<2^k) :
    ∃ j tested, carryLoop fuel (2^k) (2*reversal k t+1)=some (j,tested) ∧
      (t+1<2^k → j=2*reversal k (t+1)+1) ∧ ∀ i, i∈tested → Inside k i := by
  induction k generalizing t fuel with
  | zero =>
    obtain ⟨fuel,rfl⟩ : ∃ f, fuel=f+1 := ⟨fuel-1,by omega⟩
    refine ⟨_,_,if_neg fun h => absurd h.1 (by decide),by omega,fun i hi => ?_⟩
    rw [List.mem_singleton.1 hi]
    exact ⟨rfl,Nat.le_refl 1,Nat.le_refl 1⟩
  | succ k ih =>
    obtain ⟨fuel,rfl⟩ : ∃ f, fuel=f+1 := ⟨fuel-1,by omega⟩
    have hlt := reversal_lt (k+1) t
    have hpow : 2^(k+1)=2*2^k := by rw [pow_succ,Nat.mul_comm]
    have hpos := Nat.two_pow_pos k
    have hinside : Inside (k+1) (2*reversal (k+1) t+1) := by
      unfold Inside
      omega
    rcases Nat.mod_two_eq_zero_or_one t with heven|hodd
    · -- the top bit is clear
      obtain ⟨hclear,hnext⟩ := reversal_even (k := k) heven
      refine ⟨_,_,if_neg (by omega),fun _ => by omega,fun i hi => ?_⟩
      rw [List.mem_singleton.1 hi]
      exact hinside
    · -- the top bit is set and the carry goes on below
      obtain ⟨hset,hnext⟩ := reversal_odd (k := k) hodd
      obtain ⟨j,tested,hrun,hj,htested⟩ :=
        ih (show k<fuel by omega) (show t/2<2^k by omega)
      refine ⟨j,(2*reversal (k+1) t+1)::tested,?_,?_,?_⟩
      · have hhalf : 2^(k+1)>>>1=2^k := by
          rw [Nat.shiftRight_eq_div_pow]
          omega
        have hrest : 2*reversal (k+1) t+1-2^(k+1)=2*reversal k (t/2)+1 := by omega
        rw [carryLoop,if_pos (by omega),hhalf,hrest,hrun]
        rfl
      · intro hlast
        rw [hnext]
        exact hj (by omega)
      · intro i hi
        rcases List.mem_cons.1 hi with rfl|hmem
        · exact hinside
        · have hsmall := htested i hmem
          unfold Inside at hsmall ⊢
          omega

/-- The first loop before the turn of element `t`: `j` is the reversal of `t`, and the elements
before have been exchanged with theirs. -/
structure Reordered (k t : ℕ) (data : ℕ → α) (s : Pass α) : Prop where
  /-- `j` is the doubled index of the reversed element. -/
  counter : t<2^k → s.j=2*reversal k t+1
  /-- The pairs below `t` are exchanged. -/
  moved : element s.data=exchanges (element data) (pairsOf (reversal k) t)
  /-- The words around the elements are untouched. -/
  kept : ∀ x, x=0 ∨ 2*2^k<x → s.data x=data x
  /-- `j` stays inside. -/
  tested : ∀ j, j∈s.tested → Inside k j
  /-- Each pair below `t` was swapped once. -/
  swapped : s.swapped=(pairsOf (reversal k) t).map fun p => (2*p.1+1,2*p.2+1)

/-- A turn swaps the element with its reversal if that comes later. So every pair is swapped once,
by its first element. -/
theorem reordered_turn (hfuel : k<fuel) (ht : t<2^k) (h : Reordered k t data s) :
    ∃ s', reorderTurn fuel (2^k) s (1+2*t)=some s' ∧ Reordered k (t+1) data s' := by
  obtain ⟨j,tested,hrun,hj,htested⟩ := carryLoop_spec hfuel ht
  have hcounter := h.counter ht
  have hlt := reversal_lt k t
  have hinside : ∀ i, i∈s.tested++(2*reversal k t+1)::tested → Inside k i := by
    intro i hi
    rcases List.mem_append.1 hi with hold|hnew
    · exact h.tested i hold
    · rcases List.mem_cons.1 hnew with rfl|hmem
      · unfold Inside
        omega
      · exact htested i hmem
  unfold reorderTurn
  rw [hcounter,hrun,Nat.add_comm 1 (2*t)]
  dsimp only [Option.map_some]
  by_cases hlater : t < reversal k t
  · have hpairs : pairsOf (reversal k) (t+1)=pairsOf (reversal k) t++[(t,reversal k t)] := by
      rw [pairsOf_succ,if_pos hlater]
    rw [if_pos (by omega),if_pos (by omega)]
    refine ⟨_,rfl,hj,?_,?_,hinside,?_⟩
    · rw [hpairs,exchanges_append,←h.moved,element_swap]
      exact exchange_comm _ _ _
    · intro x hx
      exact (swapElements_other (by omega) (by omega) (by omega) (by omega)).trans (h.kept x hx)
    · rw [hpairs,List.map_append,←h.swapped]
      rfl
  · have hpairs : pairsOf (reversal k) (t+1)=pairsOf (reversal k) t := by
      rw [pairsOf_succ,if_neg hlater,List.append_nil]
    rw [if_neg (by omega),if_neg (by omega)]
    refine ⟨_,rfl,hj,?_,h.kept,hinside,?_⟩
    · rw [hpairs]
      exact h.moved
    · rw [hpairs]
      exact h.swapped

/-- The turns of the first loop, one after the other. -/
theorem reordered_run (hfuel : k<fuel) (data : ℕ → α) (ht : t≤2^k) :
    ∃ s, (List.range' 1 t 2).foldlM (reorderTurn fuel (2^k)) ⟨data,1,[],[]⟩=some s ∧
      Reordered k t data s := by
  induction t with
  | zero =>
    refine ⟨_,rfl,fun _ => ?_,rfl,fun _ _ => rfl,fun _ h => absurd h List.not_mem_nil,rfl⟩
    rw [reversal_zero]
  | succ t ih =>
    obtain ⟨s,hrun,hinv⟩ := ih (by omega)
    obtain ⟨s',hturn,hinv'⟩ := reordered_turn hfuel (by omega) hinv
    refine ⟨s',?_,hinv'⟩
    rw [List.range'_concat,List.foldlM_append,hrun]
    exact (bind_pure _).trans hturn

/-- The element on the other side of the elements behind the first one. The reordering at the end
moves every element there. -/
def opposite (nn e : ℕ) : ℕ := (nn-e)%nn

/-- Opposite elements are opposite to each other. -/
theorem opposite_spec {nn e : ℕ} (he : e<nn) :
    opposite nn e<nn ∧ opposite nn (opposite nn e)=e ∧ (1≤e → opposite nn e=nn-e) := by
  unfold opposite
  rcases Nat.eq_zero_or_pos e with rfl|hpos
  · rw [Nat.sub_zero,Nat.mod_self,Nat.sub_zero,Nat.mod_self]
    omega
  · rw [Nat.mod_eq_of_lt (show nn-e<nn by omega),Nat.mod_eq_of_lt (by omega)]
    omega

/-- The last loop ends with the opposite elements exchanged, whatever it has done already. The first
of them, at zero, stays. -/
theorem reverseLoop_spec {nn i : ℕ} {d : ℕ → α} (hfuel : nn<fuel+i) (hi : 1 ≤ i) (hnn : i≤nn)
    (h : element d=exchanges (element data) (pairsOf (opposite nn) i)) :
    ∃ out, reverseLoop fuel i (nn-i) d=some out ∧
      element out=exchanges (element data) (pairsOf (opposite nn) nn) ∧
      ∀ x, x=0 ∨ 2*nn < x → out x=d x := by
  induction fuel generalizing i d with
  | zero => omega
  | succ fuel ih =>
    by_cases hmore : i<nn-i
    · have hmirror := (opposite_spec (show i<nn by omega)).2.2 hi
      have hpairs : pairsOf (opposite nn) (i+1)=pairsOf (opposite nn) i++[(i,nn-i)] := by
        rw [pairsOf_succ,hmirror,if_pos hmore]
      obtain ⟨out,hrun,hout,hkept⟩ := ih (i := i+1)
        (d := swapElements d (2*i+1) (2*(nn-i)+1)) (by omega) (by omega) (by omega) (by
          rw [hpairs,exchanges_append,←h,element_swap]
          rfl)
      refine ⟨out,?_,hout,fun x hx => (hkept x hx).trans ?_⟩
      · rw [reverseLoop,if_pos hmore,Nat.add_comm 1,Nat.add_comm 1]
        exact hrun
      · exact swapElements_other (by omega) (by omega) (by omega) (by omega)
    · refine ⟨d,if_neg hmore,?_,fun _ _ => rfl⟩
      rw [h,pairsOf_stop hnn fun e he hlt => ?_]
      rw [(opposite_spec hlt).2.2 (by omega)]
      omega

/-- The words of the elements and those around them. -/
theorem eq_of_element {nn : ℕ} {a b : ℕ → α} (h : ∀ e, e<nn → element a e=element b e)
    (hkept : ∀ x, x=0 ∨ 2*nn < x → a x=b x) : a=b := by
  funext x
  by_cases hout : x=0 ∨ 2*nn < x
  · exact hkept x hout
  · have he := h ((x-1)/2) (by omega)
    rcases Nat.mod_two_eq_zero_or_one x with heven|hodd
    · have hx : x=2*((x-1)/2)+2 := by omega
      rw [hx]
      exact congrArg Prod.snd he
    · have hx : x=2*((x-1)/2)+1 := by omega
      rw [hx]
      exact congrArg Prod.fst he

/-- The first loop puts every element at its reversal, and touches nothing else. -/
theorem reorder_spec (hfuel : k<fuel) (data : ℕ → α) :
    ∃ s, reorder fuel (2^k) data=some s ∧ Reordered k (2^k) data s ∧
      ∀ e, e<2^k → element s.data e=element data (reversal k e) := by
  obtain ⟨s,hrun,hinv⟩ := reordered_run hfuel data (Nat.le_refl (2^k))
  refine ⟨s,hrun,hinv,fun e he => ?_⟩
  rw [hinv.moved]
  exact exchanges_involution (fun e _ => reversal_lt k e) (fun e he => reversal_reversal he) he

/-- Each pair of an element and a greater reversal is swapped once. -/
theorem Reordered.swaps (h : Reordered k (2^k) data s) : s.swapped.Nodup ∧ ∀ p, p∈s.swapped ↔
    ∃ e, e<2^k ∧ e < reversal k e ∧ p=(2*e+1,2*reversal k e+1) := by
  rw [h.swapped]
  constructor
  · refine (pairsOf_nodup _ _).map fun p q he => ?_
    rw [Prod.mk.injEq] at he
    exact Prod.ext (by omega) (by omega)
  · intro p
    rw [List.mem_map]
    constructor
    · rintro ⟨q,hq,rfl⟩
      obtain ⟨⟨hlt,hup⟩,hpair⟩ := mem_pairsOf.1 hq
      exact ⟨q.1,hlt,hup,by rw [hpair]⟩
    · rintro ⟨e,hlt,hup,rfl⟩
      exact ⟨(e,reversal k e),mem_pairsOf.2 ⟨⟨hlt,hup⟩,rfl⟩,rfl⟩

/-- Applied twice, the first loop changes nothing. -/
theorem reorder_twice (hfuel : k<fuel) (hrun : reorder fuel (2^k) data=some s) :
    ∃ s', reorder fuel (2^k) s.data=some s' ∧ s'.data=data := by
  obtain ⟨s₁,hrun₁,hinv,hmoved⟩ := reorder_spec hfuel data
  obtain rfl : s₁=s := Option.some.inj (hrun₁.symm.trans hrun)
  obtain ⟨s',hrun',hinv',hmoved'⟩ := reorder_spec hfuel s₁.data
  have hkept : ∀ x, x=0 ∨ 2*2^k < x → s'.data x=data x :=
    fun x hx => (hinv'.kept x hx).trans (hinv.kept x hx)
  refine ⟨s',hrun',eq_of_element (fun e he => ?_) hkept⟩
  rw [hmoved' e he,hmoved _ (reversal_lt k e),reversal_reversal he]

/-- The first element is opposite to itself. -/
theorem opposite_zero (nn : ℕ) : opposite nn 0=0 := by
  rw [opposite,Nat.sub_zero,Nat.mod_self]

/-- The last loop puts every element opposite to its place. -/
theorem reverseLoop_moves {nn : ℕ} (hpos : 0 < nn) (hfuel : nn<fuel) (data : ℕ → α) :
    ∃ out, reverseLoop fuel 1 (nn-1) data=some out ∧
      (∀ e, e<nn → element out e=element data (opposite nn e)) ∧
      ∀ x, x=0 ∨ 2*nn < x → out x=data x := by
  have hnone : pairsOf (opposite nn) 1=[] := by
    rw [pairsOf_succ,opposite_zero,if_neg (Nat.lt_irrefl 0)]
    rfl
  have hstart : element data=exchanges (element data) (pairsOf (opposite nn) 1) := by
    rw [hnone]
    rfl
  obtain ⟨out,hrun,hout,hkept⟩ :=
    reverseLoop_spec (show nn<fuel+1 by omega) (Nat.le_refl 1) hpos hstart
  refine ⟨out,hrun,fun e he => ?_,hkept⟩
  rw [hout]
  exact exchanges_involution (fun e he => (opposite_spec he).1)
    (fun e he => (opposite_spec he).2.1) he

/-- For every power of two, the first loop moves every element to its reversal, swaps each pair
once, keeps `j` an odd index inside, and undoes itself; the last loop exchanges the elements that
are opposite to each other and leaves the first one in place. Nothing else is touched. -/
theorem four1_reorders (hfuel : 2^k<fuel) (data : ℕ → α) :
    (∃ s, reorder fuel (2^k) data=some s ∧
      (∀ e, e<2^k → element s.data (reversal k e)=element data e) ∧
      (∀ x, x=0 ∨ 2*2^k<x → s.data x=data x) ∧
      (s.swapped.Nodup ∧ ∀ p, p∈s.swapped ↔
        ∃ e, e<2^k ∧ e < reversal k e ∧ p=(2*e+1,2*reversal k e+1)) ∧
      (∀ j, j∈s.tested → j%2=1 ∧ 1≤j ∧ j≤2*2^k-1) ∧
      ∃ s', reorder fuel (2^k) s.data=some s' ∧ s'.data=data) ∧
    ∃ out, reverseLoop fuel 1 (2^k-1) data=some out ∧
      (∀ e, 1≤e → e<2^k → element out e=element data (2^k-e)) ∧
      element out 0=element data 0 ∧ ∀ x, x=0 ∨ 2*2^k<x → out x=data x := by
  have hk : k<fuel := Nat.lt_two_pow_self.trans hfuel
  have hpos := Nat.two_pow_pos k
  constructor
  · obtain ⟨s,hrun,hinv,hmoved⟩ := reorder_spec hk data
    refine ⟨s,hrun,fun e he => ?_,hinv.kept,hinv.swaps,hinv.tested,reorder_twice hk hrun⟩
    rw [hmoved _ (reversal_lt k e),reversal_reversal he]
  · obtain ⟨out,hrun,hmoved,hkept⟩ := reverseLoop_moves hpos hfuel data
    refine ⟨out,hrun,fun e he he' => ?_,?_,hkept⟩
    · rw [hmoved e he',(opposite_spec he').2.2 he]
    · rw [hmoved 0 hpos,opposite_zero]

/-- Eight elements: both loops end, the first one undoes itself, and nothing else is touched. -/
theorem four1_reorders_eight :
    (∃ s, reorder 9 8 (fun x => x)=some s ∧
      (∀ e, e<8 → element s.data (reversal 3 e)=element (fun x => x) e) ∧
      (∀ x, x=0 ∨ 16 < x → s.data x=x) ∧
      (s.swapped.Nodup ∧ ∀ p, p∈s.swapped ↔
        ∃ e, e<8 ∧ e < reversal 3 e ∧ p=(2*e+1,2*reversal 3 e+1)) ∧
      (∀ j, j∈s.tested → j%2=1 ∧ 1≤j ∧ j≤15) ∧
      ∃ s', reorder 9 8 s.data=some s' ∧ s'.data=fun x => x) ∧
    ∃ out, reverseLoop 9 1 7 (fun x => x)=some out ∧
      (∀ e, 1≤e → e<8 → element out e=element (fun x => x) (8-e)) ∧
      element out 0=(1,2) ∧ ∀ x, x=0 ∨ 16 < x → out x=x :=
  four1_reorders (k := 3) (by decide) fun x => x

end RigelTarget.FftReordering
