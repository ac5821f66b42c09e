import RigelTarget.TaskQueueProgram

/-!
# Head and tail indices near the end of 32 bits

The head and tail indices of the global queue are counters modulo 2^32. The dequeue compares
them after an adjustment for wraparound: when the head is beyond the tail plus the size of the
queue, the head is reduced to its slot and the tail is moved up by that size. The sum of tail
and size wraps before the tail does, so the adjustment also applies to indices that are close
to each other in the last 2^18 values of a word; there a slot is compared with a number that
has nothing to do with it. A head that wrapped before its tail is not adjusted at all.
-/

namespace RigelTarget.TaskQueueWrap

open TaskQueueModel TaskQueueProgram

/-- The emptiness test finds an entry for ticket `h` with tail index `t`, after the test for a
wraparound may have changed both. -/
def HasEntry (h t : ℕ) : Prop := (wrapIndices h t).1<(wrapIndices h t).2

/-- The test for the last ticket, `_head_idx == _tail_idx + GLOBAL_numclusters - 1`, after the test
for a wraparound; the sum may wrap around as well. -/
def IsLast (n h t : ℕ) : Prop := (wrapIndices h t).1=decWord ((wrapIndices h t).2+n)

/-- The test of `try_dequeue` and the slot that is read after it. -/
theorem fetchNext_tail {n : ℕ} (m : ℕ) (cfg : Config) (sense pf h t : ℕ) :
    (HasEntry h t → fetchNext (n := n) m cfg sense pf (.tail h) t=
      .fetch pf (.slot h (h%groupSlots))) ∧
    (¬HasEntry h t → fetchNext (n := n) m cfg sense pf (.tail h) t=.fetch pf (.enterLd h)) :=
  ⟨fun he => if_pos he,fun he => if_neg he⟩

/-- The tests at the end of an iteration of the barrier loop. -/
theorem barBranch_tests (n h : ℕ) (counted : Bool) (t : ℕ) :
    (HasEntry h t → barBranch (n := n) h counted t=.bar h counted (.reSense t)) ∧
    (¬HasEntry h t → IsLast n h t → barBranch (n := n) h counted t=.bar h counted (.wcSel t)) ∧
    (¬HasEntry h t → ¬IsLast n h t → barBranch (n := n) h counted t=.bar h counted .gsense) :=
  ⟨fun he => if_pos he,fun he hl => (if_neg he).trans (if_pos hl),
    fun he hl => (if_neg he).trans (if_neg hl)⟩

/-- What the dequeue should find out about ticket `H` with `T` groups published, from their
truncations to 32 bits. -/
structure Agrees (n m : ℕ) (cfg : Config) (H T : ℕ) : Prop where
  /-- `try_dequeue` reads the slot of the ticket if there is an entry, and enters the barrier
  otherwise. -/
  tryDequeue : ∀ sense pf, fetchNext (n := n) m cfg sense pf (.tail (H%wordSize)) (T%wordSize)=
    if H<T then .fetch pf (.slot (H%wordSize) (H%groupSlots))
    else .fetch pf (.enterLd (H%wordSize))
  /-- The barrier loop backs out if there is an entry. -/
  backsOut : ∀ counted, barBranch (n := n) (H%wordSize) counted (T%wordSize)=
    .bar (H%wordSize) counted (.reSense (T%wordSize)) ↔ H<T
  /-- It then reads the slot of the ticket. -/
  slot : ∀ counted v r, barNext (n := n) m (H%wordSize) counted (.backSt (T%wordSize) v) r=
    .slot (H%wordSize) (H%groupSlots)
  /-- The last ticket is one per cluster beyond the tail. -/
  last : IsLast n (H%wordSize) (T%wordSize) ↔ H+1=T+n

/-- The counts that the comparison gets right: the tail is not among the last 2^18 words; or it
is, the head is too, and either the head is behind the tail, or both are among the first 2^15 of
these words; or the head is 2^15 beyond such a tail, where the slots of both are equal. -/
def InRange (n H T : ℕ) : Prop :=
  T%wordSize<wordSize-globalTqSize ∨
  H<T ∧ wordSize-globalTqSize≤H%wordSize ∨
  T≤H ∧ wordSize-globalTqSize≤H%wordSize ∧ H%wordSize<wordSize-globalTqSize+groupSlots ∨
  H=T+groupSlots ∧ T%wordSize<wordSize-globalTqSize+groupSlots ∧ n≠1 ∧ n≠groupSlots+1

/-- Whether the comparison is right can be computed. -/
instance (n H T : ℕ) : Decidable (InRange n H T) := inferInstanceAs (Decidable (_∨_))

/-- The tests, with the adjustment written out. -/
theorem tests_iff (n h t : ℕ) :
    (HasEntry h t ↔ ((t+2^18)%2^32<h ∧ h%2^15<(t+2^18)%2^32 ∨ ¬(t+2^18)%2^32<h ∧ h<t)) ∧
    (IsLast n h t ↔ ((t+2^18)%2^32<h ∧ h%2^15=((t+2^18)%2^32+n+(2^32-1))%2^32 ∨
      ¬(t+2^18)%2^32<h ∧ h=(t+n+(2^32-1))%2^32)) := by
  unfold HasEntry IsLast wrapIndices decWord
  by_cases hwrap : (t+globalTqSize)%wordSize<h
  · rw [if_pos hwrap]
    have hw : (t+2^18)%2^32<h := hwrap
    exact ⟨⟨fun hlt => .inl ⟨hw,hlt⟩,fun hor => hor.elim (·.2) fun hn => absurd hw hn.1⟩,
      ⟨fun heq => .inl ⟨hw,heq⟩,fun hor => hor.elim (·.2) fun hn => absurd hw hn.1⟩⟩
  · rw [if_neg hwrap]
    have hw : ¬(t+2^18)%2^32<h := hwrap
    exact ⟨⟨fun hlt => .inr ⟨hw,hlt⟩,fun hor => hor.elim (fun hy => absurd hy.1 hw) (·.2)⟩,
      ⟨fun heq => .inr ⟨hw,heq⟩,fun hor => hor.elim (fun hy => absurd hy.1 hw) (·.2)⟩⟩

/-- The slot of a count is that of its 32-bit truncation. -/
theorem mod_groupSlots (H : ℕ) : H%wordSize%groupSlots=H%groupSlots :=
  Nat.mod_mod_of_dvd H (Nat.pow_dvd_pow 2 (by decide))

/-- The adjusted head has the slot of the head. -/
theorem wrapIndices_slot (h t : ℕ) : (wrapIndices h t).1%groupSlots=h%groupSlots := by
  unfold wrapIndices
  split
  · exact Nat.mod_mod h groupSlots
  · rfl

/-- The steps of the dequeue follow from the two tests: a ticket has a group by the first one, and
the barrier goes on by the second. -/
theorem agrees_iff_tests {n m H T : ℕ} {cfg : Config} : Agrees n m cfg H T ↔
    (HasEntry (H%wordSize) (T%wordSize) ↔ H<T) ∧
      (IsLast n (H%wordSize) (T%wordSize) ↔ H+1=T+n) := by
  constructor
  · intro h
    refine ⟨⟨fun he => ?_,fun hlt => ?_⟩,h.last⟩
    · exact (h.backsOut true).1 ((barBranch_tests n _ true _).1 he)
    · by_contra he
      have hbranch := (h.backsOut true).2 hlt
      obtain ⟨-,hwait,hround⟩ := barBranch_tests n (H%wordSize) true (T%wordSize)
      by_cases hl : IsLast n (H%wordSize) (T%wordSize)
      · rw [hwait he hl] at hbranch
        cases hbranch
      · rw [hround he hl] at hbranch
        cases hbranch
  · rintro ⟨hentry,hlast⟩
    refine ⟨fun sense pf => ?_,fun counted => ?_,fun counted v r => ?_,hlast⟩
    · obtain ⟨hyes,hno⟩ := fetchNext_tail (n := n) m cfg sense pf (H%wordSize) (T%wordSize)
      by_cases hlt : H<T
      · rw [if_pos hlt,hyes (hentry.2 hlt),mod_groupSlots]
      · rw [if_neg hlt,hno (fun he => hlt (hentry.1 he))]
    · obtain ⟨hyes,hwait,hround⟩ := barBranch_tests n (H%wordSize) counted (T%wordSize)
      refine ⟨fun hbranch => ?_,fun hlt => hyes (hentry.2 hlt)⟩
      by_contra hlt
      have he : ¬HasEntry (H%wordSize) (T%wordSize) := fun he => hlt (hentry.1 he)
      by_cases hl : IsLast n (H%wordSize) (T%wordSize)
      · rw [hwait he hl] at hbranch
        cases hbranch
      · rw [hround he hl] at hbranch
        cases hbranch
    · show FetchPc.slot (H%wordSize) ((wrapIndices (H%wordSize) (T%wordSize)).1%groupSlots)=_
      rw [wrapIndices_slot,mod_groupSlots]

/-- Where the truncations of two counts lie that differ by 2^15 at most. -/
theorem truncations {H T : ℕ} (hlo : H≤T+2^15) (hhi : T≤H+2^15) :
    H%2^32<2^32 ∧ T%2^32<2^32 ∧ (H%2^32+T=T%2^32+H ∨
      2^32-2^15≤H%2^32 ∧ T%2^32<2^15 ∧ H<T ∨ H%2^32<2^15 ∧ 2^32-2^15≤T%2^32 ∧ T<H) := by
  omega

/-- The word one below the sum of a tail and the number of clusters. -/
theorem last_word {n t : ℕ} (hn : 0<n) (hn31 : n<2^31) (ht : t<2^32) :
    (t+n+(2^32-1))%2^32+1=t+n ∨ (t+n+(2^32-1))%2^32+1+2^32=t+n := by
  omega

/-- Below the last 2^18 words both tests are right: no index has wrapped around and the clusters
behind the tail do not reach the end either. -/
theorem tests_of_low {n H T : ℕ} (hn : 0<n) (hn31 : n<2^31) (hlo : H≤T+2^15) (hhi : T≤H+2^15)
    (ht : T%2^32<2^32-2^18) :
    (HasEntry (H%2^32) (T%2^32) ↔ H<T) ∧ (IsLast n (H%2^32) (T%2^32) ↔ H+1=T+n) := by
  obtain ⟨hh,-,hcases⟩ := truncations hlo hhi
  obtain ⟨hentry,hlast⟩ := tests_iff n (H%2^32) (T%2^32)
  rw [hentry,hlast]
  generalize H%2^32=h at hh hcases
  generalize T%2^32=t at ht hcases
  have hsum : (t+2^18)%2^32=t+2^18 := Nat.mod_eq_of_lt (by omega)
  rw [hsum]
  rcases hcases with hsame|⟨hH,hT,hlt⟩|⟨-,hT,-⟩
  · -- same turn of the counters: nothing is adjusted
    have hwrap : ¬t+2^18<h := by omega
    have hword := last_word hn hn31 (by omega : t<2^32)
    generalize (t+n+(2^32-1))%2^32=l at hword
    refine ⟨⟨fun hor => ?_,fun hlt => .inr ⟨hwrap,by omega⟩⟩,
      ⟨fun hor => ?_,fun he => .inr ⟨hwrap,by omega⟩⟩⟩
    · have hlt := (hor.resolve_left fun hy => hwrap hy.1).2
      omega
    · have he := (hor.resolve_left fun hy => hwrap hy.1).2
      omega
  · constructor <;> omega
  · omega

/-- With the tail among the last 2^18 words, the emptiness test is right exactly for a head among
them that is behind the tail, or that has not reached the second 2^15 of them. -/
theorem tests_of_high {n H T : ℕ} (hn : 0<n) (hn31 : n<2^31) (hlo : H≤T+2^15) (hhi : T≤H+2^15)
    (ht : 2^32-2^18≤T%2^32) :
    ((HasEntry (H%2^32) (T%2^32) ↔ H<T) ∧ (IsLast n (H%2^32) (T%2^32) ↔ H+1=T+n)) ↔
    (H<T ∧ 2^32-2^18≤H%2^32 ∨
      T≤H ∧ 2^32-2^18≤H%2^32 ∧ H%2^32<2^32-2^18+2^15 ∨
      H=T+2^15 ∧ T%2^32<2^32-2^18+2^15 ∧ n≠1 ∧ n≠2^15+1) := by
  obtain ⟨hh,htlt,hcases⟩ := truncations hlo hhi
  obtain ⟨hentry,hlast⟩ := tests_iff n (H%2^32) (T%2^32)
  rw [hentry,hlast]
  generalize H%2^32=h at hh hcases
  generalize T%2^32=t at ht htlt hcases
  have hsum : (t+2^18)%2^32=t+2^18-2^32 := by omega
  rw [hsum]
  rcases hcases with hsame|⟨-,hT,-⟩|⟨hH,hT,hlt⟩
  · -- same turn of the counters: the head is adjusted
    have hwrap : t+2^18-2^32<h := by omega
    have hrest : (t+2^18-2^32+n+(2^32-1))%2^32=t+2^18-2^32+n-1 := by omega
    rw [hrest]
    -- the slot of the head: below the last 2^18 words, in their first or second 2^15, or beyond
    have hslot : h<2^32-2^18 ∧ h%2^15+(2^32-2^18-2^15)=h ∨
        (2^32-2^18≤h ∧ h<2^32-2^18+2^15) ∧ h%2^15+(2^32-2^18)=h ∨
        (2^32-2^18+2^15≤h ∧ h<2^32-2^18+2^16) ∧ h%2^15+(2^32-2^18+2^15)=h ∨
        2^32-2^18+2^16≤h ∧ h%2^15<2^15 := by omega
    generalize h%2^15=w at hslot ⊢
    simp only [hwrap,true_and,not_true_eq_false,false_and,or_false]
    rcases hslot with ⟨hlow,hw⟩|⟨⟨hfirst,hfirst'⟩,hw⟩|⟨⟨hsecond,hsecond'⟩,hw⟩|⟨hbeyond,hw⟩
    · constructor <;> intro hall <;> omega
    · constructor <;> intro hall <;> omega
    · constructor <;> intro hall <;> omega
    · constructor <;> intro hall <;> omega
  · omega
  · -- the head has wrapped and the tail has not: nothing is adjusted
    have hwrap : ¬t+2^18-2^32<h := by omega
    simp only [hwrap,not_false_eq_true,false_and,true_and,false_or]
    constructor <;> intro hall <;> omega

/-- For all counts that differ by 2^15 at most and every number of clusters, the dequeue finds
out whether the queue is empty, which slot to read and who is last, exactly for the counts in
range. -/
theorem comparison_under_wraparound {n m H T : ℕ} {cfg : Config} (hn : 0<n) (hn31 : n<2^31)
    (hlo : H≤T+2^15) (hhi : T≤H+2^15) : Agrees n m cfg H T ↔ InRange n H T := by
  rw [agrees_iff_tests]
  by_cases ht : T%2^32<2^32-2^18
  · exact ⟨fun _ => .inl ht,fun _ => tests_of_low hn hn31 hlo hhi ht⟩
  · refine (tests_of_high hn hn31 hlo hhi (by omega)).trans ⟨.inr,fun hin => ?_⟩
    exact hin.resolve_left ht

/-- A head that is about to wrap and a tail that has wrapped: the tests take the ticket for valid,
as they should. -/
theorem comparison_under_wraparound_tail :
    fetchNext (n := 4) 8 oneGroup 0 1 (.tail ((2^32-2)%wordSize)) ((2^32+5)%wordSize)=
      .fetch 1 (.slot ((2^32-2)%wordSize) ((2^32-2)%groupSlots)) := by
  have hagrees : Agrees 4 8 oneGroup (2^32-2) (2^32+5) :=
    (comparison_under_wraparound (by decide) (by decide) (by decide) (by decide)).2 (by decide)
  exact hagrees.tryDequeue 0 1

/-- Ticket 2^32-2^17 with as many groups published, that is, with an empty queue: the dequeue
reads a slot. -/
theorem empty_queue_has_entry :
    fetchNext (n := 4) 8 oneGroup 0 1 (.tail ((2^32-2^17)%wordSize)) ((2^32-2^17)%wordSize)=
      .fetch 1 (.slot (2^32-2^17) 0) ∧
    ¬Agrees 4 8 oneGroup (2^32-2^17) (2^32-2^17) := by
  have hentry : HasEntry ((2^32-2^17)%wordSize) ((2^32-2^17)%wordSize) := by
    unfold HasEntry wrapIndices
    decide
  refine ⟨(fetchNext_tail 8 oneGroup 0 1 _ _).1 hentry,fun h => ?_⟩
  exact absurd ((agrees_iff_tests.1 h).1.1 hentry) (lt_irrefl _)

end RigelTarget.TaskQueueWrap
