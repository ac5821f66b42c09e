import RigelTarget.CacheLine

/-!
# The arena behind `mmap`

`mmap` hands out memory from `malloc_arena_start` to `malloc_arena_end` in whole cache lines and
never takes it back. It advances the top before it tests it, in 32 bits, and a top of 0 stands
for an arena that was not used yet. As long as no sum wraps around, the blocks are inside the
arena and apart; a wraparound can always be followed by a call that is not. A call that fails
leaves the advanced top behind, and is without effect only in the cases listed here.
-/

namespace RigelTarget.MmapArena

open CacheLine

/-- A `size_t`. -/
abbrev Word := Fin (2^32)

/-- `malloc_arena_start` and `malloc_arena_end`, as `__start` sets them before the first call.
Neither changes afterwards. -/
structure Arena where
  /-- `malloc_arena_start`. -/
  start : ℕ
  /-- `malloc_arena_end`. -/
  stop : ℕ
  /-- Address 0 is not in the arena. -/
  start_pos : 0 < start
  /-- The arena is not empty. -/
  start_lt : start < stop
  /-- The end is an address. -/
  stop_lt : stop<2^32

/-- `MAP_FAILED`. -/
def mapFailed : ℕ := 2^32-1

/-- `(len + 31) & (~(0x1F))`. -/
def roundUp (len : Word) : ℕ := (len.val+31)%2^32&&&0xFFFFFFE0

section Calls

variable (a : Arena)

/-- `malloc_arena_top` after it is set on the first call: the address of the next block. -/
def base (top : ℕ) : ℕ := if top=0 then a.start else top

/-- `mmap`: the returned address and the new top. The top is stored before it is tested, and stays
stored when the call fails. -/
def mmap (top : ℕ) (len : Word) : ℕ×ℕ :=
  if a.stop<top then (mapFailed,top)
  else
    let ret := base a top
    let top := (ret+roundUp len)%2^32
    if a.stop<top ∨ top<a.start then (mapFailed,top) else (ret,top)

/-- The top after a sequence of calls. -/
def topAfter (top : ℕ) : List Word → ℕ
  | [] => top
  | len::lens => topAfter (mmap a top len).2 lens

/-- What a sequence of calls returns. -/
def results (top : ℕ) : List Word → List ℕ
  | [] => []
  | len::lens => (mmap a top len).1::results (mmap a top len).2 lens

/-- The blocks of the calls that do not return `MAP_FAILED`, as address and length. The length is
that of the request. -/
def blocks (top : ℕ) : List Word → List (ℕ×ℕ)
  | [] => []
  | len::lens =>
    let rest := blocks (mmap a top len).2 lens
    if (mmap a top len).1=mapFailed then rest else ((mmap a top len).1,len.val)::rest

/-- The rounded lengths of the calls that do not return `MAP_FAILED`: what the arena has given
out. -/
def used (top : ℕ) : List Word → ℕ
  | [] => 0
  | len::lens =>
    let rest := used (mmap a top len).2 lens
    if (mmap a top len).1=mapFailed then rest else roundUp len+rest

/-- Blocks are inside the arena, and apart unless they are empty. -/
structure Sound (bs : List (ℕ×ℕ)) : Prop where
  /-- Every block is inside the arena. -/
  inside : ∀ b, b∈bs → a.start≤b.1 ∧ b.1+b.2≤a.stop+1
  /-- No two blocks overlap. -/
  apart : bs.Pairwise fun b c => 0<b.2 → 0 < c.2 → b.1+b.2 ≤ c.1 ∨ c.1+c.2≤b.1

/-- A call fails and leaves the allocator as it was: the arena was used up before, or the request
is rounded to nothing, or nothing was allocated and the request ends at address 0. -/
def Forgets (top : ℕ) (len : Word) : Prop :=
  a.stop<top ∨ roundUp len=0 ∨ (base a top=a.start ∧ a.start+roundUp len=2^32)

/-- Neither the rounding nor the new top wraps around, or the call is without effect. It is a
condition on the request and the top before it. -/
def Clear (top : ℕ) (len : Word) : Prop :=
  a.stop<top ∨ (len.val+31<2^32 ∧ base a top+roundUp len<2^32) ∨
    (base a top=a.start ∧ a.start+roundUp len=2^32) ∨ (base a top=mapFailed ∧ roundUp len=0)

/-- Every call of a sequence is clear. -/
def AllClear (top : ℕ) : List Word → Prop
  | [] => True
  | len::lens => Clear a top len ∧ AllClear (mmap a top len).2 lens

/-- Every call of a sequence that returns `MAP_FAILED` is without effect, so the top is behind the
successful calls. -/
def FailuresForget (top : ℕ) : List Word → Prop
  | [] => True
  | len::lens => ((mmap a top len).1=mapFailed → Forgets a top len) ∧
      FailuresForget (mmap a top len).2 lens

end Calls

section Rounding

variable {len : Word}

/-- The mask rounds down to a multiple of the line. -/
theorem roundUp_eq (len : Word) : roundUp len=(len.val+31)%2^32/32*32 :=
  and_highMask (w := 32) (k := 5) (Nat.mod_lt _ (by decide)) (by decide)

/-- A rounded length is a word and a multiple of the line. -/
theorem roundUp_line (len : Word) : roundUp len<2^32 ∧ roundUp len%32=0 := by
  rw [roundUp_eq]
  omega

/-- Rounding that does not wrap around adds less than a line. -/
theorem roundUp_bounds (h : len.val+31<2^32) : len.val ≤ roundUp len ∧ roundUp len<len.val+32 := by
  rw [roundUp_eq]
  omega

/-- Rounding that wraps around leaves nothing. -/
theorem roundUp_wrapped (h : 2^32≤len.val+31) : roundUp len=0 := by
  have := len.isLt
  rw [roundUp_eq]
  omega

/-- Whole lines are not rounded. -/
theorem roundUp_lines (h : len.val%32=0) : roundUp len=len.val := by
  have := len.isLt
  rw [roundUp_eq]
  omega

end Rounding

variable {a : Arena} {top : ℕ} {len : Word} {lens : List Word}

/-- The next block is not at address 0. -/
theorem base_pos : 0<base a top := by
  have := a.start_pos
  unfold base
  split <;> omega

/-- A top other than 0 is the address of the next block. -/
theorem base_of_pos (h : 0<top) : base a top=top := if_neg (by omega)

/-- An arena that was not used yet starts at its start. -/
theorem base_zero : base a 0=a.start := rfl

/-- The next block is at the top, or at the start of an arena that was not used yet. -/
theorem base_le (h : top≤a.stop) : base a top≤a.stop := by
  have := a.start_lt
  unfold base
  split <;> omega

/-- A used up arena stays used up. -/
theorem mmap_usedUp (h : a.stop<top) : mmap a top len=(mapFailed,top) := if_pos h

/-- The top after a call of an arena that is not used up. -/
theorem mmap_top (h : top≤a.stop) : (mmap a top len).2=(base a top+roundUp len)%2^32 := by
  unfold mmap
  rw [if_neg (by omega)]
  dsimp only
  split <;> rfl

/-- What such a call returns. -/
theorem mmap_value (h : top≤a.stop) : (mmap a top len).1=
    if a.stop<(base a top+roundUp len)%2^32 ∨ (base a top+roundUp len)%2^32<a.start then mapFailed
    else base a top := by
  unfold mmap
  rw [if_neg (by omega)]
  dsimp only
  split <;> rfl

/-- A call whose new top is inside the arena returns the next block. -/
theorem mmap_fits (h : top≤a.stop) (hlow : a.start≤(base a top+roundUp len)%2^32)
    (hhigh : (base a top+roundUp len)%2^32≤a.stop) : (mmap a top len).1=base a top := by
  rw [mmap_value h,if_neg (by omega)]

/-- A top that is a word and from which blocks are in step with the lines of the arena. Every call
keeps this, since lengths are rounded to lines. -/
structure Aligned (a : Arena) (top : ℕ) : Prop where
  /-- It is a word. -/
  lt : top<2^32
  /-- It is in step with the start. -/
  line : base a top%32=a.start%32

/-- The top is in step with the start after every call. -/
theorem Aligned.call (h : Aligned a top) (len : Word) : Aligned a (mmap a top len).2 := by
  by_cases hused : a.stop<top
  · rw [mmap_usedUp hused]
    exact h
  · rw [mmap_top (by omega)]
    have hline := h.line
    have hround := (roundUp_line len).2
    generalize base a top=b at hline ⊢
    refine ⟨Nat.mod_lt _ (by decide),?_⟩
    unfold base
    split <;> omega

/-- The top is in step with the start after every sequence of calls. -/
theorem Aligned.after (h : Aligned a top) (lens : List Word) : Aligned a (topAfter a top lens) := by
  induction lens generalizing top with
  | nil => exact h
  | cons len lens ih => exact ih (h.call len)

/-- So it is at first. -/
theorem aligned_zero : Aligned a 0 := ⟨by decide,rfl⟩

/-- Two sequences of calls. -/
theorem blocks_append (lens more : List Word) :
    blocks a top (lens++more)=blocks a top lens++blocks a (topAfter a top lens) more := by
  induction lens generalizing top with
  | nil => rfl
  | cons len lens ih =>
    rw [List.cons_append,blocks,blocks,topAfter,ih]
    split <;> rfl

/-- A used up arena stays used up during a sequence of calls. -/
theorem topAfter_usedUp (h : a.stop<top) : topAfter a top lens=top := by
  induction lens with
  | nil => rfl
  | cons len lens ih => rw [topAfter,mmap_usedUp h,ih]

section Clear

/-- The next block after a clear call is not below the one before; a block that is handed out
ends at or before it and inside the arena. -/
theorem Clear.call (h : Clear a top len) (hbase : a.start≤base a top) :
    base a top≤base a (mmap a top len).2 ∧ ((mmap a top len).1≠mapFailed →
      (mmap a top len).1=base a top ∧ base a top+len.val≤base a (mmap a top len).2 ∧
      base a top+len.val≤a.stop+1) := by
  have hstart := a.start_pos
  have hstop := a.stop_lt
  by_cases hused : a.stop<top
  · rw [mmap_usedUp hused]
    exact ⟨le_rfl,fun hne => absurd rfl hne⟩
  · have htop : top≤a.stop := by omega
    rw [mmap_top htop]
    rcases h with h|⟨hlen,hsum⟩|⟨hfirst,hwrap⟩|⟨hlast,hnone⟩
    · exact absurd h hused
    · rw [Nat.mod_eq_of_lt hsum,base_of_pos (show 0<base a top+roundUp len by omega)]
      refine ⟨by omega,fun hne => ?_⟩
      have hround := roundUp_bounds hlen
      rw [mmap_value htop,Nat.mod_eq_of_lt hsum] at hne ⊢
      split at hne
      · exact absurd rfl hne
      · rename_i hin
        rw [if_neg hin]
        exact ⟨rfl,by omega,by omega⟩
    · rw [hfirst,hwrap,Nat.mod_self]
      refine ⟨le_of_eq base_zero.symm,fun hne => absurd ?_ hne⟩
      rw [mmap_value htop,hfirst,hwrap,Nat.mod_self]
      exact if_pos (.inr hstart)
    · have hsum : (base a top+roundUp len)%2^32=base a top := by
        rw [hlast,hnone]
        decide
      rw [hsum,base_of_pos (show 0<base a top from base_pos)]
      refine ⟨le_rfl,fun hne => absurd ?_ hne⟩
      rw [mmap_value htop,hlast]
      split <;> rfl

/-- The blocks of clear calls are inside the arena and not below the next block. -/
theorem AllClear.inside (h : AllClear a top lens) (hbase : a.start≤base a top) :
    ∀ b, b∈blocks a top lens → base a top≤b.1 ∧ b.1+b.2≤a.stop+1 := by
  induction lens generalizing top with
  | nil => exact fun b hb => by cases hb
  | cons len lens ih =>
    obtain ⟨hcall,hrest⟩ := h
    obtain ⟨hmono,hblock⟩ := hcall.call hbase
    have hlater := ih hrest (hbase.trans hmono)
    intro b hb
    rw [blocks] at hb
    split at hb
    · exact ⟨hmono.trans (hlater b hb).1,(hlater b hb).2⟩
    · rename_i hne
      obtain ⟨hvalue,-,hend⟩ := hblock hne
      rcases List.mem_cons.1 hb with rfl|hb
      · exact ⟨hvalue.ge,by rw [hvalue]; exact hend⟩
      · exact ⟨hmono.trans (hlater b hb).1,(hlater b hb).2⟩

/-- The blocks of clear calls follow each other, so no two of them share a byte. -/
theorem AllClear.apart (h : AllClear a top lens) (hbase : a.start≤base a top) :
    (blocks a top lens).Pairwise fun b c => b.1+b.2 ≤ c.1 := by
  induction lens generalizing top with
  | nil => exact .nil
  | cons len lens ih =>
    obtain ⟨hcall,hrest⟩ := h
    obtain ⟨hmono,hblock⟩ := hcall.call hbase
    have hlater := ih hrest (hbase.trans hmono)
    rw [blocks]
    split
    · exact hlater
    · rename_i hne
      obtain ⟨hvalue,hnext,-⟩ := hblock hne
      refine .cons (fun c hc => ?_) hlater
      have hfrom := (hrest.inside (hbase.trans hmono) c hc).1
      show (mmap a top len).1+len.val ≤ c.1
      rw [hvalue]
      exact hnext.trans hfrom

/-- Clear calls hand out sound blocks. -/
theorem AllClear.sound (h : AllClear a 0 lens) : Sound a (blocks a 0 lens) where
  inside := h.inside (by rw [base_zero])
  apart := (h.apart (by rw [base_zero])).imp fun hle _ _ => .inl hle

/-- Clear calls leave the top at or above the start. -/
theorem AllClear.base_ge (h : AllClear a top lens) (hbase : a.start≤base a top) :
    a.start≤base a (topAfter a top lens) := by
  induction lens generalizing top with
  | nil => exact hbase
  | cons len lens ih => exact ih h.2 (hbase.trans (h.1.call hbase).1)

/-- As long as the arena is not used up, every line below the next block is in a block. This is
where lengths are rounded up to lines. -/
theorem AllClear.covered (h : AllClear a top lens) (hbase : a.start≤base a top)
    (halign : Aligned a top) (hleft : topAfter a top lens≤a.stop) {x : ℕ}
    (hlow : base a top≤x) (hhigh : x<base a (topAfter a top lens)) (hx : x%32=a.start%32) :
    ∃ b, b∈blocks a top lens ∧ b.1≤x ∧ x<b.1+b.2 := by
  induction lens generalizing top with
  | nil => exact absurd hhigh (by rw [topAfter]; omega)
  | cons len lens ih =>
    obtain ⟨hcall,hrest⟩ := h
    have hmono := (hcall.call hbase).1
    have hlater := ih hrest (hbase.trans hmono) (halign.call len) hleft
    have hsub : ∀ b, b∈blocks a (mmap a top len).2 lens → b∈blocks a top (len::lens) := by
      intro b hb
      rw [blocks]
      split
      · exact hb
      · exact List.mem_cons_of_mem _ hb
    by_cases hnext : base a (mmap a top len).2≤x
    · obtain ⟨b,hb,hin⟩ := hlater hnext hhigh
      exact ⟨b,hsub b hb,hin⟩
    · -- the top moves past the place with this call, which must have succeeded
      have hleft' : (mmap a top len).2≤a.stop := by
        by_contra hover
        rw [topAfter,topAfter_usedUp (by omega)] at hleft
        exact hover hleft
      have htop : top≤a.stop := by
        by_contra hover
        rw [mmap_usedUp (by omega)] at hleft'
        exact hover hleft'
      rw [mmap_top htop] at hnext hleft'
      have hline := halign.line
      have hstart := a.start_pos
      rcases hcall with hused|⟨hlen,hsum⟩|⟨hfirst,hwrap⟩|⟨hlast,hnone⟩
      · omega
      · rw [Nat.mod_eq_of_lt hsum] at hnext hleft'
        rw [base_of_pos (show 0<base a top+roundUp len by omega)] at hnext
        have hround := roundUp_bounds hlen
        have hlines := (roundUp_line len).2
        have hmod : (base a top+roundUp len)%2^32=base a top+roundUp len := Nat.mod_eq_of_lt hsum
        have hvalue : (mmap a top len).1=base a top := mmap_fits htop (by omega) (by omega)
        have hne : base a top≠mapFailed := by
          unfold mapFailed
          omega
        refine ⟨(base a top,len.val),?_,hlow,?_⟩
        · rw [blocks,hvalue,if_neg hne]
          exact List.mem_cons_self
        · show x<base a top+len.val
          omega
      · rw [hfirst,hwrap,Nat.mod_self,base_zero] at hnext
        omega
      · rw [hlast,hnone] at hnext
        rw [hlast] at hlow
        exact absurd (show base a ((mapFailed+0)%2^32)≤x from hlow) hnext

end Clear

section Wraparound

/-- Of two blocks that are handed out one after the other, one ends before the other starts. -/
theorem Sound.separate {bs more : List (ℕ×ℕ)} (h : Sound a (bs++more)) {b c : ℕ×ℕ} (hb : b∈bs)
    (hc : c∈more) (hb0 : 0<b.2) (hc0 : 0 < c.2) : b.1+b.2 ≤ c.1 ∨ c.1+c.2≤b.1 :=
  (List.pairwise_append.1 h.apart).2.2 b hb c hc hb0 hc0

/-- A call that returns a block. -/
theorem blocks_single (h : (mmap a top len).1≠mapFailed) :
    blocks a top [len]=[((mmap a top len).1,len.val)] := if_neg h

/-- The block of a request for one byte below a place of the arena that is in step with it. -/
theorem blocks_byte (htop : top≤a.stop) (hlow : a.start≤base a top)
    (hroom : base a top+32≤a.stop) : blocks a top [1]=[(base a top,1)] := by
  have hstop := a.stop_lt
  have hline : roundUp 1=32 := by decide
  have hsum : (base a top+roundUp 1)%2^32=base a top+32 := by
    rw [hline]
    exact Nat.mod_eq_of_lt (by omega)
  have hvalue : (mmap a top 1).1=base a top := mmap_fits htop (by omega) (by omega)
  rw [blocks_single (by rw [hvalue]; unfold mapFailed; omega),hvalue]
  rfl

/-- When the top moves back into memory that was handed out by clear calls, it is handed out
again. -/
theorem AllClear.reuse (h : AllClear a 0 lens) (hleft : topAfter a 0 lens≤a.stop) {back : ℕ}
    (halign : Aligned a back) (hback : back≤a.stop) (hlow : a.start≤base a back)
    (hhigh : base a back<base a (topAfter a 0 lens)) (bs : List (ℕ×ℕ)) :
    ¬Sound a (blocks a 0 lens++(bs++blocks a back [1])) := by
  intro hsound
  have hend := base_le hleft
  have hstep := (aligned_zero.after (a := a) lens).line
  have hline := halign.line
  obtain ⟨b,hb,hfrom,hto⟩ := h.covered (by rw [base_zero]) aligned_zero hleft
    (by rw [base_zero]; exact hlow) hhigh hline
  have hbyte := blocks_byte hback hlow (by omega)
  have hmem : (base a back,1)∈bs++blocks a back [1] := by
    rw [hbyte]
    exact List.mem_append_right _ List.mem_cons_self
  have hsep := hsound.separate hb hmem (by omega) Nat.one_pos
  dsimp only at hsep
  omega

/-- Two calls. -/
theorem blocks_pair (len next : Word) : blocks a top [len,next]=
    blocks a top [len]++blocks a (mmap a top len).2 [next] := blocks_append [len] [next]

/-- A request whose rounding wraps around gets a block that leaves the arena or is handed out
again with the next call. -/
theorem rounding_unsound (htop : top≤a.stop) (hlow : a.start≤base a top)
    (hlen : 2^32≤len.val+31) (hvalid : base a top≠mapFailed) (bs : List (ℕ×ℕ)) :
    ∃ more, ¬Sound a (bs++blocks a top (len::more)) := by
  have hstop := a.stop_lt
  have hend := base_le htop
  have hsum : (base a top+roundUp len)%2^32=base a top := by
    rw [roundUp_wrapped hlen]
    exact Nat.mod_eq_of_lt (by omega)
  have hvalue : (mmap a top len).1=base a top := mmap_fits htop (by omega) (by omega)
  have hblock : blocks a top [len]=[(base a top,len.val)] := by
    rw [blocks_single (by rw [hvalue]; exact hvalid),hvalue]
  by_cases hfit : base a top+len.val≤a.stop+1
  · refine ⟨[1],fun hsound => ?_⟩
    have hsame : base a (base a top)=base a top := base_of_pos base_pos
    have hbyte := blocks_byte (a := a) hend (by rw [hsame]; exact hlow) (by rw [hsame]; omega)
    rw [blocks_pair,mmap_top htop,hsum,hblock,hbyte,hsame,←List.append_assoc] at hsound
    have hsep := hsound.separate (List.mem_append_right _ List.mem_cons_self) List.mem_cons_self
      (show 0<len.val by omega) Nat.one_pos
    dsimp only at hsep
    omega
  · refine ⟨[],fun hsound => hfit ?_⟩
    rw [hblock] at hsound
    exact (hsound.inside _ (List.mem_append_right _ List.mem_cons_self)).2

/-- The request that fills the gap below the start. -/
def gap (a : Arena) (top : ℕ) : Word :=
  ⟨a.start-top,lt_of_le_of_lt (Nat.sub_le _ _) (a.start_lt.trans a.stop_lt)⟩

/-- From a top that has moved below the start, this request gets a block. -/
theorem mmap_gap (halign : Aligned a top) (hpos : 0<top) (hlow : top<a.start) :
    (mmap a top (gap a top)).1=top := by
  have hstart := a.start_lt
  have hstop := a.stop_lt
  have hbase : base a top=top := base_of_pos hpos
  have hline := halign.line
  rw [hbase] at hline
  have hround : roundUp (gap a top)=a.start-top := roundUp_lines (show (a.start-top)%32=0 by omega)
  have hsum : (base a top+roundUp (gap a top))%2^32=a.start := by
    rw [hround,hbase,Nat.add_sub_cancel' hlow.le]
    exact Nat.mod_eq_of_lt (by omega)
  rw [mmap_fits (by omega) (by rw [hsum]) (by rw [hsum]; omega),hbase]

/-- When the top has moved below the start, the next call can get a block from there. -/
theorem below_unsound (halign : Aligned a top) (hpos : 0<top) (hlow : top<a.start)
    (bs : List (ℕ×ℕ)) : ∃ len, ¬Sound a (bs++blocks a top [len]) := by
  have hstop := a.stop_lt
  have hstart := a.start_lt
  have hvalue := mmap_gap halign hpos hlow
  refine ⟨gap a top,fun hsound => ?_⟩
  rw [blocks_single (by rw [hvalue]; unfold mapFailed; omega),hvalue] at hsound
  have hin := (hsound.inside _ (List.mem_append_right _ List.mem_cons_self)).1
  dsimp only at hin
  omega

/-- A call that is not clear can be followed by a call that makes the blocks unsound. So the
condition cannot be weaker. -/
theorem AllClear.unsound (h : AllClear a 0 lens) (hnot : ¬Clear a (topAfter a 0 lens) len) :
    ∃ more, ¬Sound a (blocks a 0 (lens++len::more)) := by
  have hbase := h.base_ge (by rw [base_zero])
  have halign := aligned_zero.after (a := a) lens
  have hreuse : topAfter a 0 lens≤a.stop → ∀ back, Aligned a back → back≤a.stop →
      a.start≤base a back → base a back<base a (topAfter a 0 lens) → ∀ bs,
        ¬Sound a (blocks a 0 lens++(bs++blocks a back [1])) := fun hleft _ => h.reuse hleft
  have hsplit : ∀ more, blocks a 0 (lens++len::more)=
      blocks a 0 lens++blocks a (topAfter a 0 lens) (len::more) := fun more =>
    blocks_append lens (len::more)
  generalize topAfter a 0 lens=top at hnot hbase halign hreuse hsplit
  have hstart := a.start_pos
  have hstop := a.stop_lt
  have hline := halign.line
  have hlines := roundUp_line len
  unfold Clear at hnot
  have htop : top≤a.stop := by omega
  have hend := base_le htop
  by_cases hlen : 2^32≤len.val+31
  · have hvalid : base a top≠mapFailed := fun he =>
      hnot (.inr (.inr (.inr ⟨he,roundUp_wrapped hlen⟩)))
    obtain ⟨more,hmore⟩ := rounding_unsound htop hbase hlen hvalid (blocks a 0 lens)
    exact ⟨more,by rw [hsplit]; exact hmore⟩
  · -- the new top wraps around
    have hnext : (mmap a top len).2=base a top+roundUp len-2^32 := by
      rw [mmap_top htop]
      omega
    have halign' := halign.call len
    rw [hnext] at halign'
    rcases Nat.eq_zero_or_pos (base a top+roundUp len-2^32) with hzero|hpos
    · refine ⟨[1],?_⟩
      rw [hsplit,blocks_pair,hnext,hzero]
      rw [hzero] at halign'
      exact hreuse htop _ halign' (Nat.zero_le _) le_rfl (by rw [base_zero]; omega) _
    · by_cases hlow : a.start≤base a top+roundUp len-2^32
      · refine ⟨[1],?_⟩
        rw [hsplit,blocks_pair,hnext]
        have hback : base a (base a top+roundUp len-2^32)=base a top+roundUp len-2^32 :=
          base_of_pos hpos
        exact hreuse htop _ halign' (by omega) (by rw [hback]; exact hlow) (by rw [hback]; omega) _
      · obtain ⟨next,hbad⟩ := below_unsound halign' hpos (by omega)
          (blocks a 0 lens++blocks a top [len])
        refine ⟨[next],?_⟩
        rw [hsplit,blocks_pair,hnext,←List.append_assoc]
        exact hbad

end Wraparound

/-- For every arena and every sequence of requests: while every call is clear, the returned
blocks lie inside the arena and no two of them overlap; and after such calls, a call that is not
clear can be followed by calls whose blocks do not. -/
theorem mmap_blocks_sound (a : Arena) (lens : List Word) (h : AllClear a 0 lens) :
    Sound a (blocks a 0 lens) ∧ ∀ len, ¬Clear a (topAfter a 0 lens) len →
      ∃ more, ¬Sound a (blocks a 0 (lens++len::more)) :=
  ⟨h.sound,fun _ => h.unsound⟩

/-- An arena of 3 GiB with the end that `__start` sets. -/
def heap : Arena := ⟨2^20,0xBFFFFFFF,by decide,by decide,by decide⟩

/-- Two small blocks are sound. -/
theorem mmap_blocks_sound_two : Sound heap (blocks heap 0 [100,200]) :=
  (mmap_blocks_sound heap [100,200]
    ⟨.inr (.inl ⟨by decide,by decide⟩),.inr (.inl ⟨by decide,by decide⟩),trivial⟩).1

/-- A request of almost 4 GiB is rounded to nothing and gets a block that leaves the arena; a
request that ends at address 0 fails and lets the arena start again with memory in use. -/
theorem mmap_blocks_unsound :
    (blocks heap 0 [0xFFFFFFFF]=[(2^20,2^32-1)] ∧ ¬Sound heap (blocks heap 0 [0xFFFFFFFF])) ∧
    blocks heap 0 [64,0xFFEFFFC0,64]=[(2^20,64),(2^20,64)] ∧
    ¬Sound heap (blocks heap 0 [64,0xFFEFFFC0,64]) := by
  have hlong : blocks heap 0 [0xFFFFFFFF]=[(2^20,2^32-1)] := by decide
  have hagain : blocks heap 0 [64,0xFFEFFFC0,64]=[(2^20,64),(2^20,64)] := by decide
  refine ⟨⟨hlong,fun h => ?_⟩,hagain,fun h => ?_⟩
  · rw [hlong] at h
    exact absurd (h.inside _ List.mem_cons_self).2 (by decide)
  · rw [hagain] at h
    have happend : Sound heap ([(2^20,64)]++[(2^20,64)]) := h
    have hsep := happend.separate List.mem_cons_self List.mem_cons_self (by decide) (by decide)
    exact absurd hsep (by decide)

section Failure

/-- Tops with the same next block are the same for all later calls. -/
theorem results_congr {top' : ℕ} (htop : top≤a.stop) (htop' : top'≤a.stop)
    (h : base a top'=base a top) (later : List Word) :
    results a top' later=results a top later := by
  cases later with
  | nil => rfl
  | cons len later =>
    have hsame : mmap a top' len=mmap a top len := by
      refine Prod.ext ?_ ?_
      · rw [mmap_value htop',mmap_value htop,h]
      · rw [mmap_top htop',mmap_top htop,h]
    rw [results,results,hsame]

/-- Calls that forget leave the next block as it was. -/
theorem Forgets.base_eq (h : Forgets a top len) (htop : top≤a.stop) :
    (mmap a top len).2≤a.stop ∧ base a (mmap a top len).2=base a top := by
  have hstop := a.stop_lt
  have hend := base_le htop
  rcases h with h|h|⟨hfirst,hwrap⟩
  · omega
  · have hnext : (mmap a top len).2=base a top := by
      rw [mmap_top htop,h,Nat.add_zero]
      exact Nat.mod_eq_of_lt (by omega)
    rw [hnext]
    exact ⟨hend,base_of_pos base_pos⟩
  · have hnext : (mmap a top len).2=0 := by rw [mmap_top htop,hfirst,hwrap,Nat.mod_self]
    rw [hnext]
    exact ⟨Nat.zero_le _,base_zero.trans hfirst.symm⟩

/-- Calls that forget are not seen by later calls. -/
theorem Forgets.results_eq (h : Forgets a top len) (later : List Word) :
    results a (mmap a top len).2 later=results a top later := by
  by_cases hused : a.stop<top
  · rw [mmap_usedUp hused]
  · have htop : top≤a.stop := by omega
    obtain ⟨hleft,hbase⟩ := h.base_eq htop
    exact results_congr htop hleft hbase later

/-- A call returns `MAP_FAILED` or the next block. -/
theorem mmap_cases (a : Arena) (top : ℕ) (len : Word) :
    (mmap a top len).1=mapFailed ∨ (mmap a top len).1=base a top := by
  by_cases hused : a.stop<top
  · exact .inl (by rw [mmap_usedUp hused])
  · rw [mmap_value (by omega)]
    split
    · exact .inl rfl
    · exact .inr rfl

/-- A request for nothing returns the next block if the top is inside the arena. -/
theorem mmap_nothing (htop : top≤a.stop) (hlow : a.start≤base a top) :
    (mmap a top 0).1=base a top := by
  have hstop := a.stop_lt
  have hend := base_le htop
  have hsum : (base a top+roundUp 0)%2^32=base a top := Nat.mod_eq_of_lt (by
    rw [show roundUp 0=0 by decide]
    omega)
  exact mmap_fits htop (by rw [hsum]; exact hlow) (by rw [hsum]; exact hend)

/-- A call that does not forget leaves another next block. -/
theorem base_ne_of_not_forgets (htop : top≤a.stop) (hnot : ¬Forgets a top len) :
    (mmap a top len).2≠base a top ∧ base a (mmap a top len).2≠base a top := by
  have hstop := a.stop_lt
  have hend := base_le htop
  have hround := (roundUp_line len).1
  unfold Forgets at hnot
  have hnonzero : roundUp len≠0 := fun he => hnot (.inr (.inl he))
  have hne : (base a top+roundUp len)%2^32≠base a top := by omega
  rw [mmap_top htop]
  refine ⟨hne,fun he => ?_⟩
  by_cases hzero : (base a top+roundUp len)%2^32=0
  · rw [hzero,base_zero] at he
    exact hnot (.inr (.inr ⟨he.symm,by omega⟩))
  · rw [base_of_pos (Nat.pos_of_ne_zero hzero)] at he
    exact hne he

/-- A failed call that does not forget is seen by the next call, for some request: it fails or gets
another block. -/
theorem not_forgets_seen (halign : Aligned a top) (hnot : ¬Forgets a top len) :
    ∃ next, (mmap a (mmap a top len).2 next).1≠(mmap a top next).1 := by
  have hstart := a.start_lt
  have hstop := a.stop_lt
  have htop : top≤a.stop := by
    unfold Forgets at hnot
    omega
  have hend := base_le htop
  obtain ⟨hnext,hbase⟩ := base_ne_of_not_forgets htop hnot
  by_cases hlow : a.start≤base a top
  · by_cases hvalid : base a top=mapFailed
    · -- the last word of the address space: the top has wrapped around
      have halign' := halign.call len
      have hsmall : 0<(mmap a top len).2 ∧ (mmap a top len).2 < mapFailed := by
        have hlines := (roundUp_line len).2
        rw [hvalid] at hnext
        rw [mmap_top htop,hvalid] at hnext ⊢
        unfold mapFailed at hnext ⊢
        omega
      have hsame : base a (mmap a top len).2=(mmap a top len).2 := base_of_pos hsmall.1
      have hfails : ∀ next, (mmap a top next).1=mapFailed := fun next =>
        (mmap_cases a top next).elim id fun h => h.trans hvalid
      by_cases hback : a.start≤(mmap a top len).2
      · refine ⟨0,?_⟩
        rw [mmap_nothing (by unfold mapFailed at hvalid hsmall; omega) (by rw [hsame]; exact hback),
          hsame,hfails]
        exact hsmall.2.ne
      · refine ⟨gap a (mmap a top len).2,?_⟩
        rw [mmap_gap halign' hsmall.1 (by omega),hfails]
        exact hsmall.2.ne
    · refine ⟨0,?_⟩
      rw [mmap_nothing htop hlow]
      rcases mmap_cases a (mmap a top len).2 0 with he|he
      · rw [he]
        exact Ne.symm hvalid
      · rw [he]
        exact hbase
  · have hpos : 0<top := by
      refine Nat.pos_of_ne_zero fun he => hlow ?_
      rw [he,base_zero]
    have hself : base a top=top := base_of_pos hpos
    refine ⟨gap a top,?_⟩
    rw [mmap_gap halign hpos (by omega)]
    rcases mmap_cases a (mmap a top len).2 (gap a top) with he|he
    · rw [he]
      unfold mapFailed
      omega
    · rw [he]
      rw [hself] at hbase
      exact hbase

/-- Requests that fit the space left by the successful calls succeed, when failed calls forget.
Their lengths do not count. -/
theorem FailuresForget.fits (h : FailuresForget a top lens) (hlow : a.start≤base a top)
    (hroom : base a top+used a top lens+roundUp len≤a.stop) (htop : top≤a.stop) :
    (mmap a (topAfter a top lens) len).1=base a top+used a top lens := by
  have hstart := a.start_pos
  have hstop := a.stop_lt
  induction lens generalizing top with
  | nil =>
    rw [topAfter]
    rw [used,Nat.add_zero] at hroom ⊢
    have hsum : (base a top+roundUp len)%2^32=base a top+roundUp len :=
      Nat.mod_eq_of_lt (by omega)
    exact mmap_fits htop (by omega) (by omega)
  | cons first lens ih =>
    obtain ⟨hcall,hrest⟩ := h
    rw [used] at hroom ⊢
    by_cases hfail : (mmap a top first).1=mapFailed
    · rw [if_pos hfail] at hroom ⊢
      obtain ⟨hleft,hbase⟩ := (hcall hfail).base_eq htop
      have hlater := ih hrest (by omega) (by omega) hleft
      rw [topAfter,hlater,hbase]
    · rw [if_neg hfail] at hroom ⊢
      have hsum : (base a top+roundUp first)%2^32=base a top+roundUp first :=
        Nat.mod_eq_of_lt (by omega)
      have hnext : (mmap a top first).2=base a top+roundUp first := by rw [mmap_top htop,hsum]
      have hbase : base a (mmap a top first).2=base a top+roundUp first := by
        rw [hnext]
        exact base_of_pos (by omega)
      have hlater := ih hrest (by omega) (by omega) (by omega)
      rw [topAfter,hlater,hbase,Nat.add_assoc]

end Failure

/-- For every arena and every sequence of requests, a call that fails after them has no effect on
any later sequence of calls if and only if it forgets; and when all calls that failed forget, a
request that fits behind the successful calls gets the block behind them. -/
theorem mmap_failure_harmless_iff (a : Arena) (lens : List Word) :
    (∀ len, (mmap a (topAfter a 0 lens) len).1=mapFailed →
      ((∀ later, results a (mmap a (topAfter a 0 lens) len).2 later=
        results a (topAfter a 0 lens) later) ↔ Forgets a (topAfter a 0 lens) len)) ∧
    (FailuresForget a 0 lens → ∀ len, a.start+used a 0 lens+roundUp len≤a.stop →
      (mmap a (topAfter a 0 lens) len).1=a.start+used a 0 lens) := by
  refine ⟨fun len _ => ⟨fun hsame => ?_,Forgets.results_eq⟩,fun h len hroom => ?_⟩
  · by_contra hnot
    obtain ⟨next,hseen⟩ := not_forgets_seen (aligned_zero.after lens) hnot
    exact hseen (List.cons.inj (hsame [next])).1
  · rw [←base_zero (a := a)] at hroom ⊢
    exact h.fits (by rw [base_zero]) hroom (Nat.zero_le _)

/-- A call that fails because the arena was used up before is not seen by the next one. A first
request that ends at address 0 fails and forgets; a request that fits then gets the block behind
the successful call. -/
theorem mmap_failure_harmless_both :
    results heap (mmap heap (topAfter heap 0 [0xC0000000]) 32).2 [64]=
      results heap (topAfter heap 0 [0xC0000000]) [64] ∧
    (mmap heap 0 0xFFF00000).1=mapFailed ∧
      (mmap heap (topAfter heap 0 [0xFFF00000,100]) 64).1=2^20+128 := by
  refine ⟨?_,by decide,?_⟩
  · exact (((mmap_failure_harmless_iff heap [0xC0000000]).1 32 (by decide)).2
      (.inl (by decide))) [64]
  · have hforget : FailuresForget heap 0 [0xFFF00000,100] :=
      ⟨fun _ => .inr (.inr ⟨by decide,by decide⟩),fun hfail => absurd hfail (by decide),trivial⟩
    exact (mmap_failure_harmless_iff heap [0xFFF00000,100]).2 hforget 64 (by decide)

/-- A request that is too long makes the arena unusable: the next one, of one line, would have
fitted. -/
theorem mmap_failure_seen :
    (mmap heap 0 0xC0000000).1=mapFailed ∧ results heap 0 [32]=[2^20] ∧
      results heap (mmap heap 0 0xC0000000).2 [32]=[mapFailed] := by
  decide

end RigelTarget.MmapArena
