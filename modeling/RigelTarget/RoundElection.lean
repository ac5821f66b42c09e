import Mathlib.Logic.Function.Basic
import Mathlib.Tactic.Common

/-!
# One leader per round

Members of a group call an election once per round and then wait for the end of the round.
An election is a try-lock: whoever gets the lock leads the round unless the lead was already
taken, and whoever does not get it goes on. If the try-lock fails only while another member
is in the election, every round has its leader when all members wait for its end.
-/

namespace RigelTarget.RoundElection

/-- Where a member is: outside, waiting for the end of the round, in the try-lock, or with the lock
before and after it is known whether the round has a leader. -/
inductive Stage where
  /-- Outside the election and the wait. -/
  | outside
  /-- Waiting for the end of the round. -/
  | waiting
  /-- In the try-lock. -/
  | trying
  /-- With the lock, before the test whether the round has a leader. -/
  | testing
  /-- With the lock, about to lead the round. -/
  | taking
  /-- With the lock, when the round has its leader. -/
  | settled
  deriving DecidableEq

/-- A member that has the lock and has not yet settled the round. While there is one, nobody else
can settle it. -/
def Stage.isOpen : Stage → Bool
  | .testing => true
  | .taking => true
  | _ => false

/-- The members of a group, the elections each has called and the rounds each has left, the
rounds that got a leader and the rounds that ended. -/
structure Inv {I : Type} (stage : I → Stage) (calls left : I → ℕ) (leads rounds : ℕ) : Prop where
  /-- Every round that ended had a leader, and the current one may have one. -/
  bound : rounds ≤ leads ∧ leads ≤ rounds+1
  /-- A member calls one election per round, before it waits. -/
  called : ∀ i, calls i=left i+1 ∨ (calls i=left i ∧ stage i=.outside)
  /-- The round of a member about to lead has no leader. -/
  taking : ∀ i, stage i=.taking → leads=rounds
  /-- The round of a settled member has its leader. -/
  settled : ∀ i, stage i=.settled → leads=rounds+1
  /-- Once a member has ended its try in this round, the round has a leader or a member with
  the lock. -/
  tried : ∀ i, left i=rounds → calls i=left i+1 → stage i≠.trying →
    leads=rounds+1 ∨ ∃ j, (stage j).isOpen=true

section Moves

variable {I : Type} {stage stage' : I → Stage} {calls calls' left left' : I → ℕ}
  {leads leads' rounds : ℕ} {i : I}

/-- A step of member `i` within the round: the round gets its leader while no other member is about
to lead it. -/
theorem Inv.move (h : Inv stage calls left leads rounds)
    (hother : ∀ j, j≠i → stage' j=stage j ∧ calls' j=calls j ∧ left' j=left j)
    (hleads : leads'=leads ∨
      (leads=rounds ∧ leads'=rounds+1 ∧ ∀ j, j≠i → stage j≠.taking))
    (hcalled : calls' i=left' i+1 ∨ (calls' i=left' i ∧ stage' i=.outside))
    (htaking : stage' i=.taking → leads'=rounds)
    (hsettled : stage' i=.settled → leads'=rounds+1)
    (hopen : (stage i).isOpen=true → leads'=rounds+1 ∨ (stage' i).isOpen=true)
    (htried : left' i=rounds → calls' i=left' i+1 → stage' i≠.trying →
      leads'=rounds+1 ∨ ∃ j, (stage' j).isOpen=true) :
    Inv stage' calls' left' leads' rounds := by
  have hbound := h.bound
  have hkeep : leads=rounds+1 → leads'=rounds+1 := by
    intro he
    rcases hleads with hl|⟨hl,hl',-⟩ <;> omega
  refine ⟨?_,?_,?_,?_,?_⟩
  · rcases hleads with hl|⟨hl,hl',-⟩ <;> omega
  · intro j
    by_cases hj : j=i
    · rw [hj]
      exact hcalled
    · obtain ⟨hs,hc,hl⟩ := hother j hj
      rw [hs,hc,hl]
      exact h.called j
  · intro j ht
    by_cases hj : j=i
    · rw [hj] at ht
      exact htaking ht
    · rw [(hother j hj).1] at ht
      rcases hleads with hl|⟨-,-,hnone⟩
      · rw [hl]
        exact h.taking j ht
      · exact absurd ht (hnone j hj)
  · intro j hs
    by_cases hj : j=i
    · rw [hj] at hs
      exact hsettled hs
    · rw [(hother j hj).1] at hs
      exact hkeep (h.settled j hs)
  · intro j hl hc hs
    by_cases hj : j=i
    · rw [hj] at hl hc hs
      exact htried hl hc hs
    · obtain ⟨hsj,hcj,hlj⟩ := hother j hj
      rw [hlj] at hl hc
      rw [hcj] at hc
      rw [hsj] at hs
      rcases h.tried j hl hc hs with hlead|⟨k,hk⟩
      · exact .inl (hkeep hlead)
      · by_cases hki : k=i
        · rw [hki] at hk
          exact (hopen hk).imp id fun ho => ⟨i,ho⟩
        · refine .inr ⟨k,?_⟩
          rw [(hother k hki).1]
          exact hk

/-- A step that changes neither the stage of its member nor a count. -/
theorem Inv.same (h : Inv stage calls left leads rounds) (hstage : ∀ j, stage' j=stage j)
    (hcalls : ∀ j, calls' j=calls j) (hleft : ∀ j, left' j=left j) :
    Inv stage' calls' left' leads rounds := by
  obtain rfl : stage'=stage := funext hstage
  obtain rfl : calls'=calls := funext hcalls
  obtain rfl : left'=left := funext hleft
  exact h

/-- A member without the lock goes to or comes from its wait, or gives the lock back. The election
does not depend on when. -/
theorem Inv.walk (h : Inv stage calls left leads rounds)
    (hother : ∀ j, j≠i → stage' j=stage j) (hcalls : ∀ j, calls' j=calls j)
    (hleft : ∀ j, left' j=left j) (hold : stage i≠.trying) (hopen : (stage i).isOpen=false)
    (hnew : stage' i=.outside ∨ (stage' i=.waiting ∧ calls i=left i+1)) :
    Inv stage' calls' left' leads rounds := by
  obtain rfl : calls'=calls := funext hcalls
  obtain rfl : left'=left := funext hleft
  refine h.move (fun j hj => ⟨hother j hj,rfl,rfl⟩) (.inl rfl) ?_ ?_ ?_ ?_ ?_
  · rcases hnew with hout|⟨-,hc⟩
    · exact (h.called i).imp id fun hc => ⟨hc.1,hout⟩
    · exact .inl hc
  · intro ht
    rcases hnew with hout|⟨hwait,-⟩
    · rw [hout] at ht
      cases ht
    · rw [hwait] at ht
      cases ht
  · intro hs
    rcases hnew with hout|⟨hwait,-⟩
    · rw [hout] at hs
      cases hs
    · rw [hwait] at hs
      cases hs
  · intro ho
    rw [hopen] at ho
    cases ho
  · intro hl hc _
    refine (h.tried i hl hc hold).imp id fun hj => ?_
    obtain ⟨j,hj⟩ := hj
    refine ⟨j,?_⟩
    rw [hother j fun he => ?_]
    · exact hj
    · rw [he,hopen] at hj
      cases hj

/-- The round ends while all members wait for its end. Nobody has the lock then, so the round had
its leader. -/
theorem Inv.finish (h : Inv stage calls left leads rounds)
    (hall : ∀ j, stage j=.waiting ∧ left j=rounds) (i : I) :
    Inv stage calls left leads (rounds+1) := by
  have hcalls : calls i=left i+1 := by
    rcases h.called i with hc|⟨-,hs⟩
    · exact hc
    · rw [(hall i).1] at hs
      cases hs
  have hlead : leads=rounds+1 := by
    rcases h.tried i (hall i).2 hcalls (by rw [(hall i).1]; exact fun h => by cases h) with
      hlead|⟨j,hj⟩
    · exact hlead
    · rw [(hall j).1] at hj
      cases hj
  refine ⟨by omega,h.called,?_,?_,?_⟩
  · intro j hj
    rw [(hall j).1] at hj
    cases hj
  · intro j hj
    rw [(hall j).1] at hj
    cases hj
  · intro j hl
    have hj := (hall j).2
    omega

/-- When all members wait for the end of the round, the round has its leader. -/
theorem Inv.led (h : Inv stage calls left leads rounds)
    (hall : ∀ j, stage j=.waiting ∧ left j=rounds) (i : I) : leads=rounds+1 := by
  have hbound := (h.finish hall i).bound
  have hle := h.bound
  omega

end Moves

end RigelTarget.RoundElection
