import RigelTarget.TaskQueueCluster
import RigelTarget.TicketDispenser

/-!
# The barrier between the clusters

The holder of `CLUSTER_gtq_lock` in the slow path speaks for its cluster: it draws a
ticket of the global queue, and a ticket beyond the tail takes it into the barrier. A
cluster whose threads all wait is counted under the sense of the barrier it is in.
The cluster with the last ticket decides when all clusters are counted; the others
may still be one barrier behind when they notice. Tickets that are valid back out of
the barrier, so a decision needs every ticket beyond the tail.
-/

namespace RigelTarget.TaskQueueBarrier

open SharedMemory TaskQueueModel TaskQueueProgram TaskQueueSteps TaskQueueFrame TaskQueueLocks
  TaskQueueCluster

variable {n m : ℕ} {cfg : Config}

/-- The ticket of a cluster, from its draw to the return of its group. It is in the registers of the
thread that holds `CLUSTER_gtq_lock`. -/
def ticket : Option FetchPc → Option ℕ
  | some (.tail h) => some h
  | some (.enterLd h) => some h
  | some (.enterSt h _) => some h
  | some (.bar h _ _) => some h
  | some (.slot h _) => some h
  | _ => none

/-- The waiting counter includes the cluster, as its holder of `CLUSTER_gtq_lock` knows from its own
flag. -/
def countedIn : Option FetchPc → Bool
  | some (.bar _ k _) => k
  | _ => false

/-- The cluster has found all clusters counted and has not yet published the decision by the flip of
the global sense. -/
def deciding : Option FetchPc → Bool
  | some (.bar _ _ (.setHead _)) => true
  | some (.bar _ _ (.rstSel _)) => true
  | some (.bar _ _ (.rstWc _ _)) => true
  | some (.bar _ _ (.flipLd _)) => true
  | some (.bar _ _ (.flip _ _)) => true
  | _ => false

/-- The deciding cluster has reset the head index. -/
def headReset : Option FetchPc → Bool
  | some (.bar _ _ (.setHead _)) => false
  | o => deciding o

/-- The deciding cluster has reset the opposing counter. -/
def counterReset : Option FetchPc → Bool
  | some (.bar _ _ (.flipLd _)) => true
  | some (.bar _ _ (.flip _ _)) => true
  | _ => false

/-- The cluster leaves the barrier. -/
def passing : BarPc → Bool
  | .passW => true
  | .passLd => true
  | .passSt _ => true
  | _ => false

/-- Registers inside the barrier: the ticket `h`, the tail index now, the decided and the
passed barriers. A cluster whose ticket was seen valid is not behind. -/
def BarOk (n tail decided passed h : ℕ) (k : Bool) : BarPc → Prop
  | .gsense => True
  | .csense g => g=(passed+1)%2 → passed+1=decided
  | .tail => True
  | .acqTest τ _ => k=false ∧ τ≤tail ∧ h<τ+n
  | .test τ => k=false ∧ τ≤tail ∧ h<τ+n
  | .relTest τ _ _ => k=false ∧ τ≤tail ∧ h<τ+n
  | .incSel τ => k=false ∧ τ≤tail ∧ h<τ+n
  | .incWc τ s => k=false ∧ τ≤tail ∧ h<τ+n ∧ s=(passed+1)%2
  | .reSense τ => τ≤tail ∧ h<τ
  | .reCsense τ g => τ≤tail ∧ h<τ ∧ (passed+1=decided → g=(passed+1)%2)
  | .decSel τ => passed=decided ∧ k=true ∧ τ≤tail ∧ h<τ
  | .decWc τ s => passed=decided ∧ k=true ∧ τ≤tail ∧ h<τ ∧ s=(passed+1)%2
  | .backLd τ => passed=decided ∧ k=false ∧ τ≤tail ∧ h<τ
  | .backSt τ v => passed=decided ∧ k=false ∧ τ≤tail ∧ h<τ ∧ v=(passed+1)%2
  | .wcSel τ => τ≤tail ∧ h+1=τ+n
  | .wcLd τ s => τ≤tail ∧ h+1=τ+n ∧ s=(passed+1)%2
  | .setHead τ => passed=decided ∧ τ=tail ∧ h+1=τ+n
  | .rstSel τ => passed=decided ∧ τ=tail ∧ h+1=τ+n
  | .rstWc τ s => passed=decided ∧ τ=tail ∧ h+1=τ+n ∧ s=(passed+1)%2
  | .flipLd τ => passed=decided ∧ τ=tail ∧ h+1=τ+n
  | .flip τ v => passed=decided ∧ τ=tail ∧ h+1=τ+n ∧ v=(passed+1)%2
  | .passW => passed+1=decided
  | .passLd => passed+1=decided
  | .passSt _ => passed+1=decided

/-- Registers and sense of a cluster. Only a counted cluster is behind, and unless it
leaves already its ticket was not the last one. -/
def LeadOk (n tail decided passed sense : ℕ) : Option FetchPc → Prop
  | some (.bar h k b) => sense=(passed+1)%2 ∧
      (passed=decided ∨ (passed+1=decided ∧ k=true ∧ (passing b=true ∨ h+1<tail+n))) ∧
      BarOk n tail decided passed h k b
  | some (.enterSt _ v) => passed=decided ∧ sense=passed%2 ∧ v=passed%2
  | some (.slot h idx) => passed=decided ∧ sense=passed%2 ∧ h<tail ∧ idx=h%groupSlots
  | _ => passed=decided ∧ sense=passed%2

/-- What the barrier between the clusters is about: the shared words, the decided and passed
barriers, the returned groups, and the fetch of each cluster. -/
structure GView (n : ℕ) where
  /-- Shared words. -/
  word : Loc n → ℕ
  /-- Decided barriers. -/
  decides : ℕ
  /-- Barriers passed by each cluster. -/
  passes : Fin n → ℕ
  /-- How often each group was returned. -/
  returns : ℕ → ℕ
  /-- The fetch of each cluster. -/
  lead : Fin n → Option FetchPc

/-- The tickets of the clusters that are not behind. A cluster that has not yet seen the last
decision holds a ticket that is no longer good. -/
def GView.held (x : GView n) (c : Fin n) : Option ℕ :=
  if x.passes c=x.decides then ticket (x.lead c) else none

/-- The clusters counted for the coming barrier. -/
def GView.arrived (x : GView n) : Finset (Fin n) :=
  Finset.univ.filter fun c => x.passes c=x.decides ∧ countedIn (x.lead c)=true

/-- Membership in the counted clusters. -/
theorem mem_arrived {x : GView n} {c : Fin n} :
    c∈x.arrived ↔ x.passes c=x.decides ∧ countedIn (x.lead c)=true := by
  simp only [GView.arrived,Finset.mem_filter,Finset.mem_univ,true_and]

/-- The words the barrier works with: both indices, both counters and the senses. Of these only the
tail is written elsewhere. -/
def barrierLoc : Loc n → Bool
  | .headIndex => true
  | .tailIndex => true
  | .globalSense => true
  | .waitcount _ => true
  | .perclusterSense _ => true
  | _ => false

/-- The invariant of the barrier between the clusters. Tickets are a ticket dispenser over the
published groups, the waiting counter is the number of counted clusters, and a cluster decides when
all are counted. -/
structure GInv (x : GView n) : Prop where
  /-- The global sense is the parity of the decided barriers. -/
  sense : x.word .globalSense=x.decides%2
  /-- The tail index does not wrap around. -/
  bound : x.word .tailIndex+globalTqSize<wordSize
  /-- Registers and senses of the clusters. -/
  leads : ∀ c, LeadOk n (x.word .tailIndex) x.decides (x.passes c)
    (x.word (.perclusterSense c)) (x.lead c)
  /-- The waiting counter of the coming barrier. -/
  count : x.word (waitLoc ((x.decides+1)%2))=x.arrived.card
  /-- The counter of the barrier after that is zero before the decision is published. -/
  opposing : ∀ c, counterReset (x.lead c)=true → x.word (waitLoc (x.decides%2))=0
  /-- A cluster decides when all are counted. -/
  decider : ∀ c, deciding (x.lead c)=true → x.arrived=Finset.univ
  /-- The tickets, with the head index as their number unless it was reset already. -/
  tickets : ∃ issued, TicketDispenser.Inv x.held (x.word .tailIndex) x.returns issued ∧
    ((∀ c, headReset (x.lead c)=false) → x.word .headIndex=issued) ∧
    ∀ c, headReset (x.lead c)=true →
      x.word .headIndex=x.word .tailIndex ∧ x.word .tailIndex+n ≤ issued

/-- A reset of the head index belongs to a decision. -/
theorem deciding_of_headReset {o : Option FetchPc} (h : headReset o=true) : deciding o=true := by
  unfold headReset at h
  split at h
  · cases h
  · exact h

/-- A reset of the opposing counter belongs to a decision. -/
theorem deciding_of_counterReset {o : Option FetchPc} (h : counterReset o=true) :
    deciding o=true := by
  unfold counterReset at h
  split at h
  · rfl
  · rfl
  · cases h

/-- A cluster outside the barrier is not behind and keeps its sense down. -/
theorem LeadOk.idle {tail decided passed sense : ℕ} {o : Option FetchPc}
    (h : LeadOk n tail decided passed sense o) (hbar : ∀ i k b, o≠some (.bar i k b)) :
    passed=decided ∧ sense=passed%2 := by
  unfold LeadOk at h
  split at h
  · exact absurd rfl (hbar _ _ _)
  · exact ⟨h.1,h.2.1⟩
  · exact ⟨h.1,h.2.1⟩
  · exact h

/-- A cluster that is not counted is not behind. -/
theorem LeadOk.current {tail decided passed sense : ℕ} {o : Option FetchPc}
    (h : LeadOk n tail decided passed sense o) (hk : countedIn o=false) : passed=decided := by
  unfold LeadOk at h
  split at h
  · rcases h.2.1 with he|⟨-,hk',-⟩
    · exact he
    · rw [countedIn,hk'] at hk
      cases hk
  · exact h.1
  · exact h.1
  · exact h.1

/-- A deciding cluster holds the last ticket. -/
theorem LeadOk.last {tail decided passed sense : ℕ} {o : Option FetchPc}
    (h : LeadOk n tail decided passed sense o) (hd : deciding o=true) :
    passed=decided ∧ ∃ i, ticket o=some i ∧ i+1=tail+n := by
  unfold deciding at hd
  split at hd
  · obtain ⟨-,-,hp,hτ,hh⟩ := h
    exact ⟨hp,_,rfl,by rw [hh,hτ]⟩
  · obtain ⟨-,-,hp,hτ,hh⟩ := h
    exact ⟨hp,_,rfl,by rw [hh,hτ]⟩
  · obtain ⟨-,-,hp,hτ,hh,-⟩ := h
    exact ⟨hp,_,rfl,by rw [hh,hτ]⟩
  · obtain ⟨-,-,hp,hτ,hh⟩ := h
    exact ⟨hp,_,rfl,by rw [hh,hτ]⟩
  · obtain ⟨-,-,hp,hτ,hh,-⟩ := h
    exact ⟨hp,_,rfl,by rw [hh,hτ]⟩
  · cases hd

/-- A cluster without a ticket is outside the barrier. -/
theorem ticket_none {o : Option FetchPc} (ho : ticket o=none) :
    countedIn o=false ∧ deciding o=false ∧ ∀ i k b, o≠some (.bar i k b) := by
  cases o with
  | none => exact ⟨rfl,rfl,by simp⟩
  | some p => cases p <;> cases ho <;> exact ⟨rfl,rfl,by simp⟩

/-- Registers stay right when the tail grows, unless a decision is under way. -/
theorem LeadOk.grow {tail tail' decided passed sense : ℕ} {o : Option FetchPc}
    (h : LeadOk n tail decided passed sense o) (hle : tail≤tail') (hd : deciding o=false) :
    LeadOk n tail' decided passed sense o := by
  unfold LeadOk at h ⊢
  split at h
  · refine ⟨h.1,h.2.1.imp id fun ⟨h1,h2,h3⟩ => ⟨h1,h2,h3.imp id fun h => by omega⟩,?_⟩
    have hb := h.2.2
    rename_i b
    cases b <;> cases hd
    all_goals simp only [BarOk] at hb ⊢
    all_goals first | exact hb | grind
  · exact h
  · exact ⟨h.1,h.2.1,by omega,h.2.2.2⟩
  · exact h

section Facts

variable {x y : GView n} {c : Fin n}

/-- The number of tickets, from the tickets of the clusters that are not behind. -/
theorem issued_le_tail {issued : ℕ}
    (ht : TicketDispenser.Inv x.held (x.word .tailIndex) x.returns issued) :
    issued≤x.word .tailIndex+n := by
  have := ht.issued_le
  rwa [Fintype.card_fin] at this

/-- During a decision every ticket ahead of the tail is held. -/
theorem GInv.full (h : GInv x) (hd : deciding (x.lead c)=true) {issued : ℕ}
    (ht : TicketDispenser.Inv x.held (x.word .tailIndex) x.returns issued) :
    x.word .tailIndex+Fintype.card (Fin n) ≤ issued := by
  obtain ⟨hp,i,hi,hlast⟩ := (h.leads c).last hd
  have hheld : x.held c=some i := by
    unfold GView.held
    rw [if_pos hp,hi]
  have := ht.below c i hheld
  rw [Fintype.card_fin]
  omega

/-- During a decision no cluster holds a valid ticket. -/
theorem GInv.no_valid (h : GInv x) (hd : deciding (x.lead c)=true) {d : Fin n} {i : ℕ}
    (hi : x.held d=some i) : x.word .tailIndex ≤ i := by
  obtain ⟨issued,ht,-⟩ := h.tickets
  obtain ⟨j,hj,hle⟩ := ht.held_ahead (h.full hd ht) d
  rw [hi] at hj
  rw [Option.some.inj hj]
  exact hle

/-- During a decision every published group was returned. -/
theorem GInv.all_returned (h : GInv x) (hd : deciding (x.lead c)=true) {i : ℕ}
    (hi : i<x.word .tailIndex) : x.returns i=1 := by
  obtain ⟨issued,ht,-⟩ := h.tickets
  exact ht.all_redeemed (h.full hd ht) hi

/-- No cluster decides while one is not counted. -/
theorem GInv.not_deciding (h : GInv x) (hc : c∉x.arrived) (d : Fin n) :
    deciding (x.lead d)=false := by
  refine Bool.eq_false_of_not_eq_true fun hd => hc ?_
  rw [h.decider d hd]
  exact Finset.mem_univ c

/-- No cluster decides while one holds a valid ticket. -/
theorem GInv.not_deciding_of_valid (h : GInv x) {i : ℕ} (hp : x.passes c=x.decides)
    (ht : ticket (x.lead c)=some i) (hi : i<x.word .tailIndex) (d : Fin n) :
    deciding (x.lead d)=false := by
  refine Bool.eq_false_of_not_eq_true fun hd => ?_
  have := h.no_valid hd (d := c) (i := i) (by
    unfold GView.held
    rw [if_pos hp,ht])
  omega

/-- Without a decision the head index is the number of tickets. -/
theorem GInv.head_eq (h : GInv x) (hd : ∀ d, deciding (x.lead d)=false) :
    TicketDispenser.Inv x.held (x.word .tailIndex) x.returns (x.word .headIndex) := by
  obtain ⟨issued,ht,hnone,-⟩ := h.tickets
  rw [hnone]
  · exact ht
  · intro d
    refine Bool.eq_false_of_not_eq_true fun hr => ?_
    have := deciding_of_headReset hr
    rw [hd d] at this
    cases this

/-- A ticket is less than one ticket per cluster ahead of the tail. -/
theorem GInv.ticket_lt (h : GInv x) {i : ℕ} (hp : x.passes c=x.decides)
    (ht : ticket (x.lead c)=some i) : i<x.word .tailIndex+n := by
  obtain ⟨issued,hd,-⟩ := h.tickets
  have := hd.below c i (by
    unfold GView.held
    rw [if_pos hp,ht])
  have := issued_le_tail hd
  omega

end Facts

section Moves

variable {x y : GView n} {c : Fin n} {o : Option FetchPc}

/-- One cluster moves: at most one word is written, and the counts of its passes, of the
decisions and of the returned groups become the given ones. -/
structure GMoved (x y : GView n) (c : Fin n) (w : Wr n) (o : Option FetchPc) (decided passed : ℕ)
    (returned : ℕ → ℕ) : Prop where
  /-- The words. -/
  word : y.word=applyWrite x.word w
  /-- The decisions. -/
  decides : y.decides=decided
  /-- The passes of the cluster. -/
  passes_self : y.passes c=passed
  /-- The passes of the others. -/
  passes_other : ∀ d, d≠c → y.passes d=x.passes d
  /-- The returned groups. -/
  returns : y.returns=returned
  /-- The fetch of the cluster. -/
  lead_self : y.lead c=o
  /-- The fetches of the others. -/
  lead_other : ∀ d, d≠c → y.lead d=x.lead d

variable {w : Wr n} {decided passed : ℕ} {returned : ℕ → ℕ}

/-- A word that is not written stays. -/
theorem GMoved.keep (h : GMoved x y c w o decided passed returned) {l : Loc n}
    (hl : ∀ v, w≠some (l,v)) : y.word l=x.word l := by
  rw [h.word,applyWrite_keep hl]

/-- The held tickets after a move without a decision. -/
theorem GMoved.held (h : GMoved x y c w o x.decides passed returned) :
    y.held=Function.update x.held c (if passed=x.decides then ticket o else none) := by
  funext d
  unfold GView.held
  rw [h.decides]
  by_cases hd : d=c
  · rw [hd,Function.update_self,h.passes_self,h.lead_self]
  · rw [Function.update_of_ne hd,h.passes_other d hd,h.lead_other d hd]

/-- The tickets that stay after a move without a decision. -/
theorem GMoved.held_same (h : GMoved x y c w o x.decides passed returned)
    (hs : (if passed=x.decides then ticket o else none)=x.held c) : y.held=x.held := by
  rw [h.held,hs,Function.update_eq_self]

/-- The counted clusters beside the moving one. -/
theorem GMoved.arrived_other (h : GMoved x y c w o x.decides passed returned) {d : Fin n}
    (hd : d≠c) : d∈y.arrived ↔ d∈x.arrived := by
  rw [mem_arrived,mem_arrived,h.decides,h.passes_other d hd,h.lead_other d hd]

/-- Whether the moving cluster is counted. -/
theorem GMoved.arrived_self (h : GMoved x y c w o x.decides passed returned) :
    c∈y.arrived ↔ passed=x.decides ∧ countedIn o=true := by
  rw [mem_arrived,h.decides,h.passes_self,h.lead_self]

/-- The counted clusters that stay after a move without a decision. -/
theorem GMoved.arrived_same (h : GMoved x y c w o x.decides passed returned)
    (hs : (passed=x.decides ∧ countedIn o=true) ↔ c∈x.arrived) : y.arrived=x.arrived := by
  ext d
  by_cases hd : d=c
  · rw [hd,h.arrived_self,hs]
  · exact h.arrived_other hd

/-- Registers and senses after a move without a decision that does not write the tail. -/
theorem GMoved.leads (h : GMoved x y c w o x.decides passed returned) (hinv : GInv x)
    (htail : ∀ v, w≠some (.tailIndex,v)) (hsense : ∀ d v, d≠c → w≠some (.perclusterSense d,v))
    (hok : LeadOk n (x.word .tailIndex) x.decides passed (y.word (.perclusterSense c)) o)
    (d : Fin n) : LeadOk n (y.word .tailIndex) y.decides (y.passes d)
      (y.word (.perclusterSense d)) (y.lead d) := by
  rw [h.keep htail,h.decides]
  by_cases hd : d=c
  · rw [hd,h.passes_self,h.lead_self]
    exact hok
  · rw [h.passes_other d hd,h.lead_other d hd,h.keep fun v => hsense d v hd]
    exact hinv.leads d

/-- A fact about the fetch of every cluster after a move. -/
theorem GMoved.lead_cases (h : GMoved x y c w o decided passed returned) {p : Option FetchPc → Prop}
    {d : Fin n} (hp : p (y.lead d)) : (d=c ∧ p o) ∨ (d≠c ∧ p (x.lead d)) := by
  by_cases hd : d=c
  · rw [hd,h.lead_self] at hp
    exact .inl ⟨hd,hp⟩
  · rw [h.lead_other d hd] at hp
    exact .inr ⟨hd,hp⟩

/-- A move that keeps ticket and count and writes no word of the barrier but the sense of
its cluster keeps the invariant. -/
theorem GInv.local (h : GInv x) (hm : GMoved x y c w o x.decides (x.passes c) x.returns)
    (hw : ∀ l v, w=some (l,v) → barrierLoc l=true → l=.perclusterSense c)
    (ht : ticket o=ticket (x.lead c)) (hk : countedIn o=countedIn (x.lead c))
    (hd : deciding o=true → x.arrived=Finset.univ) (hr : headReset o=headReset (x.lead c))
    (hc : counterReset o=true → counterReset (x.lead c)=true)
    (hok : LeadOk n (x.word .tailIndex) x.decides (x.passes c) (y.word (.perclusterSense c)) o) :
    GInv y := by
  have hkeep : ∀ l, barrierLoc l=true → l≠.perclusterSense c → y.word l=x.word l :=
    fun l hl hne => hm.keep fun v he => hne (hw l v he hl)
  have harrived : y.arrived=x.arrived := hm.arrived_same (by rw [mem_arrived,hk])
  have htail := hkeep .tailIndex rfl (by simp)
  refine ⟨?_,?_,?_,?_,?_,?_,?_⟩
  · rw [hkeep .globalSense rfl (by simp),hm.decides,h.sense]
  · rw [htail]
    exact h.bound
  · refine hm.leads h (fun v he => ?_) (fun d v hd he => ?_) hok
    · cases hw _ v he rfl
    · cases hw _ v he rfl
      exact hd rfl
  · rw [hm.decides,hkeep _ rfl (by simp [waitLoc]),harrived,h.count]
  · intro d hd
    rw [hm.decides,hkeep _ rfl (by simp [waitLoc])]
    rcases hm.lead_cases (p := fun q => counterReset q=true) hd with ⟨-,ho⟩|⟨-,ho⟩
    · exact h.opposing c (hc ho)
    · exact h.opposing d ho
  · intro d hdec
    rw [harrived]
    rcases hm.lead_cases (p := fun q => deciding q=true) hdec with ⟨-,ho⟩|⟨-,ho⟩
    · exact hd ho
    · exact h.decider d ho
  · have hreset : ∀ d, headReset (y.lead d)=headReset (x.lead d) := by
      intro d
      by_cases hdc : d=c
      · rw [hdc,hm.lead_self,hr]
      · rw [hm.lead_other d hdc]
    obtain ⟨issued,hi,hnone,hset⟩ := h.tickets
    refine ⟨issued,?_,?_,?_⟩
    · rw [hm.held_same (by unfold GView.held; rw [ht]),htail,hm.returns]
      exact hi
    · intro hall
      rw [hkeep .headIndex rfl (by simp)]
      exact hnone fun d => by rw [←hreset d]; exact hall d
    · intro d hd
      rw [hkeep .headIndex rfl (by simp),htail]
      exact hset d (by rw [←hreset d]; exact hd)

/-- Nobody decides after a move that starts no decision. -/
theorem GMoved.quiet (hm : GMoved x y c w o decided passed returned)
    (hx : ∀ d, d≠c → deciding (x.lead d)=false) (ho : deciding o=false) (d : Fin n) :
    deciding (y.lead d)=false := by
  by_cases hd : d=c
  · rw [hd,hm.lead_self,ho]
  · rw [hm.lead_other d hd,hx d hd]

/-- The invariant in a state in which nobody decides. -/
theorem GInv.of_quiet (hq : ∀ d, deciding (y.lead d)=false)
    (hsense : y.word .globalSense=y.decides%2) (hbound : y.word .tailIndex+globalTqSize<wordSize)
    (hleads : ∀ c, LeadOk n (y.word .tailIndex) y.decides (y.passes c)
      (y.word (.perclusterSense c)) (y.lead c))
    (hcount : y.word (waitLoc ((y.decides+1)%2))=y.arrived.card)
    (htickets : TicketDispenser.Inv y.held (y.word .tailIndex) y.returns (y.word .headIndex)) :
    GInv y := by
  have hnone : ∀ d, deciding (y.lead d)≠true := fun d h => by
    rw [hq d] at h
    cases h
  exact ⟨hsense,hbound,hleads,hcount,fun d h => absurd (deciding_of_counterReset h) (hnone d),
    fun d h => absurd h (hnone d),_,htickets,fun _ => rfl,
    fun d h => absurd (deciding_of_headReset h) (hnone d)⟩

/-- A cluster draws a ticket by an increment of the head index. Ticket and tail say then whether it
gets a group or joins the barrier. -/
theorem GInv.draw (h : GInv x) (hn : n<globalTqSize) (hlead : x.lead c=some .inc)
    (hm : GMoved x y c (some (.headIndex,(x.word .headIndex+1)%wordSize))
      (some (.tail (x.word .headIndex))) x.decides (x.passes c) x.returns) : GInv y := by
  have hfree : c∉x.arrived := by
    rw [mem_arrived,hlead]
    simp [countedIn]
  have hnone := h.not_deciding hfree
  have hi := h.head_eq hnone
  obtain ⟨hp,hs⟩ := (h.leads c).idle (by rw [hlead]; simp)
  have hle := issued_le_tail hi
  have hbound := h.bound
  have htail := hm.keep (l := .tailIndex) (fun v he => by cases he)
  refine .of_quiet (hm.quiet (fun d _ => hnone d) rfl) ?_ ?_ ?_ ?_ ?_
  · rw [hm.keep (fun v he => by cases he),hm.decides,h.sense]
  · rw [htail]
    exact hbound
  · refine hm.leads h (fun v he => by cases he) (fun d v _ he => by cases he) ?_
    rw [hm.keep (fun v he => by cases he)]
    exact ⟨hp,hs⟩
  · rw [hm.decides,hm.keep (fun v he => by cases he),h.count,hm.arrived_same]
    rw [mem_arrived,hlead]
    simp [countedIn]
  · have hhead : y.word .headIndex=x.word .headIndex+1 := by
      rw [hm.word,applyWrite_self,Nat.mod_eq_of_lt (by omega)]
    rw [hhead,hm.held,htail,hm.returns,if_pos hp]
    refine hi.draw ?_
    unfold GView.held
    rw [if_pos hp,hlead]
    rfl

/-- A cluster returns the group of its ticket, which is below the tail index and was returned by
nobody. -/
theorem GInv.redeem (h : GInv x) {i idx : ℕ} (hlead : x.lead c=some (.slot i idx))
    (ho : ticket o=none) (hk : countedIn o=false) (hd : deciding o=false)
    (hbar : ∀ tail sense, x.passes c=x.decides → sense=x.passes c%2 →
      LeadOk n tail x.decides (x.passes c) sense o)
    (hm : GMoved x y c none o x.decides (x.passes c)
      (Function.update x.returns i (x.returns i+1))) : GInv y := by
  have hlo := h.leads c
  rw [hlead] at hlo
  obtain ⟨hp,hs,hlt,-⟩ := hlo
  have hfree : c∉x.arrived := by
    rw [mem_arrived,hlead]
    simp [countedIn]
  have hnone := h.not_deciding hfree
  have hword : y.word=x.word := hm.word
  refine .of_quiet (hm.quiet (fun d _ => hnone d) hd) ?_ ?_ ?_ ?_ ?_
  · rw [hword,hm.decides,h.sense]
  · rw [hword]
    exact h.bound
  · refine hm.leads h (fun v he => by cases he) (fun d v _ he => by cases he) ?_
    rw [hword]
    exact hbar _ _ hp hs
  · rw [hm.decides,hword,h.count,hm.arrived_same]
    rw [mem_arrived,hlead,hk]
    simp [countedIn]
  · rw [hm.held,hword,hm.returns,if_pos hp,ho]
    refine (h.head_eq hnone).redeem ?_ hlt
    unfold GView.held
    rw [if_pos hp,hlead]
    rfl

/-- The counters of the coming and of the following barrier are different words. -/
theorem waitLoc_ne (k : ℕ) : (waitLoc ((k+1)%2) : Loc n)≠waitLoc (k%2) := by
  intro h
  have hb := Loc.waitcount.inj h
  rcases Nat.mod_two_eq_zero_or_one k with h0|h1
  · rw [show (k+1)%2=1 by omega,h0] at hb
    cases hb
  · rw [show (k+1)%2=0 by omega,h1] at hb
    cases hb

/-- A cluster is counted in the waiting counter of the coming barrier, by an atomic increment. -/
theorem GInv.countUp (h : GInv x) (hn : n<globalTqSize) {i τ s : ℕ} {k : Bool}
    (hlead : x.lead c=some (.bar i k (.incWc τ s)))
    (ho : ticket o=some i) (hk : countedIn o=true) (hd : deciding o=false)
    (hok : ∀ sense, sense=x.word (.perclusterSense c) →
      LeadOk n (x.word .tailIndex) x.decides (x.passes c) sense o)
    (hm : GMoved x y c (some (waitLoc s,(x.word (waitLoc s)+1)%wordSize)) o x.decides (x.passes c)
      x.returns) : GInv y := by
  have hlo := h.leads c
  rw [hlead] at hlo
  obtain ⟨-,hphase,hfree,-,-,rfl⟩ := hlo
  subst hfree
  have hp : x.passes c=x.decides := hphase.resolve_right fun hl => by cases hl.2.1
  have hnot : c∉x.arrived := by
    rw [mem_arrived,hlead]
    simp [countedIn]
  have hnone := h.not_deciding hnot
  have hkeep : ∀ l : Loc n, (∀ b, l≠.waitcount b) → y.word l=x.word l :=
    fun l hl => hm.keep fun v he => hl _ (Prod.mk.inj (Option.some.inj he)).1.symm
  have hset : y.arrived=insert c x.arrived := by
    ext d
    rw [Finset.mem_insert]
    by_cases hdc : d=c
    · subst hdc
      rw [hm.arrived_self]
      exact ⟨fun _ => .inl rfl,fun _ => ⟨hp,hk⟩⟩
    · rw [hm.arrived_other hdc]
      exact ⟨.inr,fun h => h.resolve_left hdc⟩
  refine .of_quiet (hm.quiet (fun d _ => hnone d) hd) ?_ ?_ ?_ ?_ ?_
  · rw [hkeep _ (by simp),hm.decides,h.sense]
  · rw [hkeep _ (by simp)]
    exact h.bound
  · refine hm.leads h (fun v he => by cases he) (fun d v _ he => by cases he) ?_
    exact hok _ (hkeep _ (by simp))
  · have hcard := Finset.card_le_univ y.arrived
    rw [hset,Finset.card_insert_of_notMem hnot,Fintype.card_fin] at hcard
    rw [hm.decides,hm.word,hset,Finset.card_insert_of_notMem hnot,hp,applyWrite_self,h.count,
      Nat.mod_eq_of_lt]
    unfold globalTqSize at hn
    unfold wordSize
    omega
  · rw [hm.held_same,hkeep _ (by simp),hkeep _ (by simp),hm.returns]
    · exact h.head_eq hnone
    · unfold GView.held
      rw [ho,hlead]
      rfl

/-- A cluster that backs out is no longer counted; it has found the group of its ticket published
after all. -/
theorem GInv.countDown (h : GInv x) (hn : n<globalTqSize) {i τ s : ℕ} {k : Bool}
    (hlead : x.lead c=some (.bar i k (.decWc τ s)))
    (hm : GMoved x y c (some (waitLoc s,decWord (x.word (waitLoc s))))
      (some (.bar i false (.backLd τ))) x.decides (x.passes c) x.returns) : GInv y := by
  have hlo := h.leads c
  rw [hlead] at hlo
  obtain ⟨hs,-,hp,hk,hτ,hi,rfl⟩ := hlo
  have hnone := h.not_deciding_of_valid hp (by rw [hlead]; rfl) (by omega : i<x.word .tailIndex)
  have hmem : c∈x.arrived := by
    rw [mem_arrived,hlead]
    exact ⟨hp,hk⟩
  have hkeep : ∀ l : Loc n, (∀ b, l≠.waitcount b) → y.word l=x.word l :=
    fun l hl => hm.keep fun v he => hl _ (Prod.mk.inj (Option.some.inj he)).1.symm
  have hset : y.arrived=x.arrived.erase c := by
    ext d
    rw [Finset.mem_erase]
    by_cases hdc : d=c
    · subst hdc
      rw [hm.arrived_self]
      exact ⟨(fun h => by cases h.2),fun h => absurd rfl h.1⟩
    · rw [hm.arrived_other hdc]
      exact ⟨fun h => ⟨hdc,h⟩,And.right⟩
  refine .of_quiet (hm.quiet (fun d _ => hnone d) rfl) ?_ ?_ ?_ ?_ ?_
  · rw [hkeep _ (by simp),hm.decides,h.sense]
  · rw [hkeep _ (by simp)]
    exact h.bound
  · refine hm.leads h (fun v he => by cases he) (fun d v _ he => by cases he) ?_
    rw [hkeep _ (by simp)]
    exact ⟨hs,.inl hp,hp,rfl,hτ,hi⟩
  · have hcard := Finset.card_le_univ x.arrived
    have hpos := Finset.card_pos.mpr ⟨c,hmem⟩
    rw [Fintype.card_fin] at hcard
    rw [hm.decides,hm.word,hset,Finset.card_erase_of_mem hmem,hp,applyWrite_self,h.count]
    unfold globalTqSize at hn
    unfold decWord wordSize
    omega
  · rw [hm.held_same,hkeep _ (by simp),hkeep _ (by simp),hm.returns]
    · exact h.head_eq hnone
    · unfold GView.held
      rw [hlead]
      rfl

/-- The deciding cluster resets the head index to the tail. All tickets up to the tail were
redeemed, since the holders of the others are counted. -/
theorem GInv.resetHead (h : GInv x) {i τ : ℕ} {k : Bool}
    (hlead : x.lead c=some (.bar i k (.setHead τ)))
    (hm : GMoved x y c (some (.headIndex,τ)) (some (.bar i k (.rstSel τ))) x.decides (x.passes c)
      x.returns) : GInv y := by
  have hd : deciding (x.lead c)=true := by rw [hlead]; rfl
  have hlo := h.leads c
  rw [hlead] at hlo
  obtain ⟨hs,hphase,hp,hτ,hi⟩ := hlo
  have hkeep : ∀ l : Loc n, l≠.headIndex → y.word l=x.word l :=
    fun l hl => hm.keep fun v he => hl (Prod.mk.inj (Option.some.inj he)).1.symm
  have harrived : y.arrived=x.arrived := hm.arrived_same (by rw [mem_arrived,hlead]; rfl)
  refine ⟨?_,?_,?_,?_,?_,?_,?_⟩
  · rw [hkeep _ (by simp),hm.decides,h.sense]
  · rw [hkeep _ (by simp)]
    exact h.bound
  · refine hm.leads h (fun v he => by cases he) (fun d v _ he => by cases he) ?_
    rw [hkeep _ (by simp)]
    exact ⟨hs,.inl hp,hp,hτ,hi⟩
  · rw [hm.decides,hkeep _ (by simp [waitLoc]),harrived,h.count]
  · intro d hr
    rw [hm.decides,hkeep _ (by simp [waitLoc])]
    rcases hm.lead_cases (p := fun q => counterReset q=true) hr with ⟨-,ho⟩|⟨-,ho⟩
    · cases ho
    · exact h.opposing d ho
  · intro d _
    rw [harrived,h.decider c hd]
  · obtain ⟨issued,ht,-⟩ := h.tickets
    have hfull := h.full hd ht
    rw [Fintype.card_fin] at hfull
    have htail := hkeep .tailIndex (by simp)
    refine ⟨issued,?_,?_,?_⟩
    · rw [hm.held_same,htail,hm.returns]
      · exact ht
      · unfold GView.held
        rw [hlead]
        rfl
    · intro hall
      have := hall c
      rw [hm.lead_self] at this
      cases this
    · intro d _
      rw [htail]
      exact ⟨by rw [hm.word,applyWrite_self,hτ],hfull⟩

/-- The deciding cluster resets the counter of the barrier after the coming one, which no cluster
uses any more. -/
theorem GInv.resetCounter (h : GInv x) {i τ s : ℕ} {k : Bool}
    (hlead : x.lead c=some (.bar i k (.rstWc τ s)))
    (hm : GMoved x y c (some (waitLoc (flipSense s),0)) (some (.bar i k (.flipLd τ))) x.decides
      (x.passes c) x.returns) : GInv y := by
  have hd : deciding (x.lead c)=true := by rw [hlead]; rfl
  have hlo := h.leads c
  rw [hlead] at hlo
  obtain ⟨hs,hphase,hp,hτ,hi,rfl⟩ := hlo
  have hloc : flipSense ((x.passes c+1)%2)=x.decides%2 := by
    rw [flipSense_mod,hp]
    omega
  rw [hloc] at hm
  have hkeep : ∀ l : Loc n, l≠waitLoc (x.decides%2) → y.word l=x.word l :=
    fun l hl => hm.keep fun v he => hl (Prod.mk.inj (Option.some.inj he)).1.symm
  have harrived : y.arrived=x.arrived := hm.arrived_same (by rw [mem_arrived,hlead]; rfl)
  have hreset : ∀ d, headReset (y.lead d)=headReset (x.lead d) := by
    intro d
    by_cases hdc : d=c
    · rw [hdc,hm.lead_self,hlead]
      rfl
    · rw [hm.lead_other d hdc]
  refine ⟨?_,?_,?_,?_,?_,?_,?_⟩
  · rw [hkeep _ (by simp [waitLoc]),hm.decides,h.sense]
  · rw [hkeep _ (by simp [waitLoc])]
    exact h.bound
  · refine hm.leads h (fun v he => by cases he) (fun d v _ he => by cases he) ?_
    rw [hkeep _ (by simp [waitLoc])]
    exact ⟨hs,.inl hp,hp,hτ,hi⟩
  · rw [hm.decides,hkeep _ (waitLoc_ne _),harrived,h.count]
  · intro d _
    rw [hm.decides,hm.word,applyWrite_self]
  · intro d _
    rw [harrived,h.decider c hd]
  · obtain ⟨issued,ht,hnone,hset⟩ := h.tickets
    have htail := hkeep .tailIndex (by simp [waitLoc])
    have hhead := hkeep .headIndex (by simp [waitLoc])
    refine ⟨issued,?_,?_,?_⟩
    · rw [hm.held_same,htail,hm.returns]
      · exact ht
      · unfold GView.held
        rw [hlead]
        rfl
    · intro hall
      rw [hhead]
      exact hnone fun d => by rw [←hreset d]; exact hall d
    · intro d hr
      rw [hhead,htail]
      exact hset d (by rw [←hreset d]; exact hr)

/-- A counted cluster that does not hold a valid or the last ticket is left behind by a
decision. -/
theorem LeadOk.behind {tail decided passed sense i : ℕ} {o : Option FetchPc}
    (h : LeadOk n tail decided passed sense o) (hp : passed=decided) (hk : countedIn o=true)
    (hi : ticket o=some i) (hvalid : tail ≤ i) (hlast : i+1<tail+n) :
    LeadOk n tail (decided+1) passed sense o ∧ deciding o=false := by
  unfold countedIn at hk
  split at hk
  · rename_i a k b
    cases Option.some.inj hi
    obtain ⟨hs,-,hb⟩ := h
    have hlag : passed=decided+1 ∨ (passed+1=decided+1 ∧ k=true ∧
        (passing b=true ∨ i+1<tail+n)) := .inr ⟨by omega,hk,.inr hlast⟩
    refine ⟨⟨hs,hlag,?_⟩,?_⟩
    · cases b <;> simp only [BarOk] at hb ⊢ <;> grind
    · cases b <;> first | rfl | (simp only [BarOk] at hb; omega)
  · cases hk

/-- A cluster publishes its decision by the flip of the global sense. All other clusters are behind
from now on. -/
theorem GInv.decide (h : GInv x) {i τ v : ℕ} {k : Bool}
    (hlead : x.lead c=some (.bar i k (.flip τ v)))
    (hm : GMoved x y c (some (.globalSense,v)) (some (.bar i k .passW)) (x.decides+1) (x.passes c)
      x.returns) : GInv y := by
  have hd : deciding (x.lead c)=true := by rw [hlead]; rfl
  have hlo := h.leads c
  rw [hlead] at hlo
  obtain ⟨hs,-,hp,hτ,hi,rfl⟩ := hlo
  obtain ⟨issued,ht,-,hset⟩ := h.tickets
  have hall : ∀ d, x.passes d=x.decides ∧ countedIn (x.lead d)=true := by
    intro d
    rw [←mem_arrived,h.decider c hd]
    exact Finset.mem_univ d
  have hk : k=true := by
    have := (hall c).2
    rw [hlead] at this
    exact this
  have hkeep : ∀ l : Loc n, l≠.globalSense → y.word l=x.word l :=
    fun l hl => hm.keep fun v he => hl (Prod.mk.inj (Option.some.inj he)).1.symm
  have htail := hkeep .tailIndex (by simp)
  -- the others hold tickets ahead of the tail, and not the last one
  have hbehind : ∀ d, d≠c → LeadOk n (x.word .tailIndex) (x.decides+1) (x.passes d)
      (x.word (.perclusterSense d)) (x.lead d) ∧ deciding (x.lead d)=false := by
    intro d hdc
    obtain ⟨hpd,hkd⟩ := hall d
    obtain ⟨j,hj,hle⟩ := ht.held_ahead (h.full hd ht) d
    have htd : ticket (x.lead d)=some j := by
      unfold GView.held at hj
      rwa [if_pos hpd] at hj
    have hci : x.held c=some i := by
      unfold GView.held
      rw [if_pos hp,hlead]
      rfl
    have hne : j≠i := by
      rintro rfl
      exact hdc (ht.distinct d c j hj hci)
    have := ht.below d j hj
    have := issued_le_tail ht
    exact (h.leads d).behind hpd hkd htd hle (by omega)
  have hpasses : ∀ d, y.passes d=x.decides := by
    intro d
    by_cases hdc : d=c
    · rw [hdc,hm.passes_self,hp]
    · rw [hm.passes_other d hdc,(hall d).1]
  refine .of_quiet (hm.quiet (fun d hdc => (hbehind d hdc).2) rfl) ?_ ?_ ?_ ?_ ?_
  · rw [hm.word,applyWrite_self,hm.decides,hp]
  · rw [htail]
    exact h.bound
  · intro d
    rw [htail,hm.decides,hkeep _ (by simp)]
    by_cases hdc : d=c
    · subst hdc
      rw [hm.passes_self,hm.lead_self]
      exact ⟨hs,.inr ⟨by omega,hk,.inl rfl⟩,by simp only [BarOk]; omega⟩
    · rw [hm.passes_other d hdc,hm.lead_other d hdc]
      exact (hbehind d hdc).1
  · have hempty : y.arrived=∅ := by
      refine Finset.filter_eq_empty_iff.mpr fun d _ hd => ?_
      rw [hpasses,hm.decides] at hd
      omega
    rw [hempty,Finset.card_empty,hm.decides,show (x.decides+1+1)%2=x.decides%2 by omega,
      hkeep _ (by simp [waitLoc])]
    exact h.opposing c (by rw [hlead]; rfl)
  · have hheld : y.held=fun _ => none := by
      funext d
      unfold GView.held
      rw [hpasses,hm.decides,if_neg (by omega)]
    rw [hheld,htail,hkeep _ (by simp),(hset c (by rw [hlead]; rfl)).1,hm.returns]
    exact ht.recall (h.full hd ht)

/-- A cluster passes a decided barrier and may draw tickets again. The count of its passes has
caught up with the decisions. -/
theorem GInv.pass (h : GInv x) {i v : ℕ} {k : Bool} {w : Wr n}
    (hlead : x.lead c=some (.bar i k (.passSt v))) (hw : ∀ l v, w=some (l,v) → barrierLoc l=false)
    (hm : GMoved x y c w (some .unlockSync) x.decides (x.passes c+1) x.returns) : GInv y := by
  have hlo := h.leads c
  rw [hlead] at hlo
  obtain ⟨hs,-,hp⟩ := hlo
  simp only [BarOk] at hp
  have hnot : c∉x.arrived := by
    rw [mem_arrived]
    omega
  have hnone := h.not_deciding hnot
  have hkeep : ∀ l : Loc n, barrierLoc l=true → y.word l=x.word l := by
    intro l hl
    refine hm.keep fun v he => ?_
    rw [hw l v he] at hl
    cases hl
  refine .of_quiet (hm.quiet (fun d _ => hnone d) rfl) ?_ ?_ ?_ ?_ ?_
  · rw [hkeep _ rfl,hm.decides,h.sense]
  · rw [hkeep _ rfl]
    exact h.bound
  · refine hm.leads h (fun v he => ?_) (fun d v _ he => ?_) ?_
    · cases hw _ v he
    · cases hw _ v he
    · rw [hkeep _ rfl]
      exact ⟨by omega,hs⟩
  · rw [hm.decides,hkeep _ rfl,h.count,hm.arrived_same]
    simp [hnot,countedIn]
  · rw [hm.held_same,hkeep _ rfl,hkeep _ rfl,hm.returns]
    · exact h.head_eq hnone
    · unfold GView.held
      rw [if_pos hp,if_neg (by omega)]
      rfl

/-- A thread of a cluster that is not counted publishes a group, so no cluster can be deciding. The
count of clusters is not complete. -/
theorem GInv.publish (h : GInv x) (hc : countedIn (x.lead c)=false)
    (hroom : x.word .tailIndex+1+globalTqSize<wordSize)
    (hword : y.word=applyWrite x.word (some (.tailIndex,(x.word .tailIndex+1)%wordSize)))
    (hdecides : y.decides=x.decides) (hpasses : y.passes=x.passes) (hreturns : y.returns=x.returns)
    (hlead : y.lead=x.lead) : GInv y := by
  have hnone := h.not_deciding (c := c) (by rw [mem_arrived,hc]; simp)
  have hkeep : ∀ l : Loc n, l≠.tailIndex → y.word l=x.word l := by
    intro l hl
    rw [hword,applyWrite_keep fun v he => hl (Prod.mk.inj (Option.some.inj he)).1.symm]
  have htail : y.word .tailIndex=x.word .tailIndex+1 := by
    rw [hword,applyWrite_self,Nat.mod_eq_of_lt (by omega)]
  refine .of_quiet (fun d => by rw [hlead]; exact hnone d) ?_ ?_ ?_ ?_ ?_
  · rw [hkeep _ (by simp),hdecides,h.sense]
  · rw [htail]
    exact hroom
  · intro d
    rw [htail,hdecides,hpasses,hkeep _ (by simp),hlead]
    exact (h.leads d).grow (Nat.le_succ _) (hnone d)
  · rw [hdecides,hkeep _ (by simp [waitLoc]),h.count]
    simp only [GView.arrived,hdecides,hpasses,hlead]
  · have hheld : y.held=x.held := by
      funext d
      simp only [GView.held,hdecides,hpasses,hlead]
    rw [hheld,htail,hkeep _ (by simp),hreturns]
    exact (h.head_eq hnone).publish (Nat.le_succ _)

/-- A local move of a cluster that does not decide. -/
theorem GInv.undecided (h : GInv x) (hm : GMoved x y c w o x.decides (x.passes c) x.returns)
    (hw : ∀ l v, w=some (l,v) → barrierLoc l=true → l=.perclusterSense c)
    (ht : ticket o=ticket (x.lead c)) (hk : countedIn o=countedIn (x.lead c))
    (hx : deciding (x.lead c)=false) (ho : deciding o=false)
    (hok : LeadOk n (x.word .tailIndex) x.decides (x.passes c) (y.word (.perclusterSense c)) o) :
    GInv y := by
  have hreset : ∀ q, deciding q=false → headReset q=false := by
    intro q hq
    refine Bool.eq_false_of_not_eq_true fun hr => ?_
    rw [deciding_of_headReset hr] at hq
    cases hq
  refine h.local hm hw ht hk (fun hd => ?_) (by rw [hreset _ hx,hreset _ ho]) (fun hr => ?_) hok
  · rw [ho] at hd
    cases hd
  · rw [deciding_of_counterReset hr] at ho
    cases ho

/-- A step inside the barrier loop that decides nothing. -/
theorem GInv.around (h : GInv x) {i : ℕ} {k : Bool} {b b' : BarPc}
    (hm : GMoved x y c w (some (.bar i k b')) x.decides (x.passes c) x.returns)
    (hlead : x.lead c=some (.bar i k b)) (hw : ∀ l v, w=some (l,v) → barrierLoc l=false)
    (hx : deciding (some (.bar i k b))=false) (ho : deciding (some (.bar i k b'))=false)
    (hpass : passing b=true → passing b'=true)
    (hok : BarOk n (x.word .tailIndex) x.decides (x.passes c) i k b') : GInv y := by
  have hlo := h.leads c
  rw [hlead] at hlo
  obtain ⟨hs,hphase,-⟩ := hlo
  refine h.undecided hm (fun l v he hl => ?_) (by rw [hlead]; rfl) (by rw [hlead]; rfl)
    (by rw [hlead,hx]) ho ?_
  · rw [hw l v he] at hl
    cases hl
  · rw [hm.keep fun v he => by cases hw _ v he]
    exact ⟨hs,hphase.imp id fun ⟨h1,h2,h3⟩ => ⟨h1,h2,h3.imp hpass id⟩,hok⟩

/-- A cluster without a ticket before and after only waits or works for itself. -/
theorem GInv.idle (h : GInv x) (hm : GMoved x y c w o x.decides (x.passes c) x.returns)
    (hw : ∀ l v, w=some (l,v) → barrierLoc l=false) (hx : ticket (x.lead c)=none)
    (ho : ticket o=none) : GInv y := by
  obtain ⟨hxk,hxd,hxb⟩ := ticket_none hx
  obtain ⟨hok,hod,hob⟩ := ticket_none ho
  obtain ⟨hp,hs⟩ := (h.leads c).idle hxb
  refine h.undecided hm (fun l v he hl => by rw [hw l v he] at hl; cases hl) (by rw [hx,ho])
    (by rw [hxk,hok]) hxd hod ?_
  rw [hm.keep fun v he => by cases hw _ v he]
  unfold LeadOk
  split
  · exact absurd rfl (hob _ _ _)
  · cases ho
  · cases ho
  · exact ⟨hp,hs⟩

end Moves

/-- Without wraparound the compared indices are the ticket and the tail. -/
theorem wrapIndices_eq {h τ : ℕ} (hn : n<globalTqSize) (hτ : τ+globalTqSize<wordSize)
    (hh : h<τ+n) : wrapIndices h τ=(h,τ) := by
  unfold wrapIndices
  rw [Nat.mod_eq_of_lt hτ,if_neg (by omega)]

/-- The end of an iteration of the barrier loop without wraparound. -/
theorem barBranch_bounded {h τ : ℕ} (hn : n<globalTqSize) (hτ : τ+globalTqSize<wordSize)
    (hh : h<τ+n) (k : Bool) :
    (h<τ ∧ barBranch (n := n) h k τ=.bar h k (.reSense τ)) ∨
      (h+1=τ+n ∧ barBranch (n := n) h k τ=.bar h k (.wcSel τ)) ∨
      barBranch (n := n) h k τ=.bar h k .gsense := by
  unfold barBranch
  rw [wrapIndices_eq hn hτ hh]
  dsimp only
  split
  · exact .inl ⟨‹_›,rfl⟩
  · split
    · rename_i heq
      refine .inr (.inl ⟨?_,rfl⟩)
      unfold decWord wordSize globalTqSize at *
      omega
    · exact .inr (.inr rfl)

/-- The fetch of a local state. -/
def fetchOf : Pc → Option FetchPc
  | .fetch _ p => some p
  | _ => none

section Fetch

variable {x y : GView n} {t : Thread n m} {sense pf : ℕ} {p : FetchPc} {w : Wr n}
  {e : Option (Event n m)} {q : Pc}

/-- After the end of an iteration the registers are right, whatever the branch. -/
theorem BarOk.branch {tail h τ : ℕ} {k : Bool} {b : BarPc} (decided passed : ℕ)
    (hn : n<globalTqSize) (hbound : tail+globalTqSize<wordSize) (hτ : τ≤tail) (hh : h<τ+n)
    (hb : barBranch (n := n) h k τ=.bar h k b) :
    BarOk n tail decided passed h k b ∧ deciding (some (.bar h k b))=false ∧ passing b=false := by
  rcases barBranch_bounded hn (by omega : τ+globalTqSize<wordSize) hh k with ⟨hlt,he⟩|⟨hl,he⟩|he
  · rw [he] at hb
    cases hb
    exact ⟨⟨hτ,hlt⟩,rfl,rfl⟩
  · rw [he] at hb
    cases hb
    exact ⟨⟨hτ,hl⟩,rfl,rfl⟩
  · rw [he] at hb
    cases hb
    exact ⟨trivial,rfl,rfl⟩

/-- The ticket of a cluster in the barrier is less than one per cluster ahead of the tail. -/
theorem GInv.bar_lt (h : GInv x) {c : Fin n} {i : ℕ} {k : Bool} {b : BarPc}
    (hlead : x.lead c=some (.bar i k b)) (hb : passing b=false) : i<x.word .tailIndex+n := by
  have hlo := h.leads c
  rw [hlead] at hlo
  obtain ⟨-,hp|⟨-,-,hp|hp⟩,-⟩ := hlo
  · exact h.ticket_lt hp (by rw [hlead]; rfl)
  · rw [hb] at hp
    cases hp
  · omega

/-- A step of the barrier loop keeps the barrier between the clusters. Each way the loop goes on is
one of the lemmas before. -/
theorem GInv.bar (h : GInv x) (hn : n<globalTqSize) {i : ℕ} {k : Bool} {b : BarPc} {p' : FetchPc}
    (hf : BarTrans x.word t i k b w e p') (hlead : x.lead t.1=some (.bar i k b))
    (hfresh : ∀ τ v, b=.wcLd τ v → x.word (waitLoc v)=n → x.word .tailIndex=τ)
    (hm : GMoved x y t.1 w (some p') (x.decides+shown e isDecide)
      (x.passes t.1+shown e (isPass t.1)) (fun j => x.returns j+shown e (isGroup j))) : GInv y := by
  have hlo := h.leads t.1
  rw [hlead] at hlo
  obtain ⟨hs,hphase,hb⟩ := hlo
  have hbound := h.bound
  have quiet : ∀ l v, (none : Wr n)=some (l,v) → barrierLoc l=false := fun l v he => by cases he
  cases hf with
  | gsense =>
    refine h.around hm hlead quiet rfl rfl (fun h => h) fun hg => ?_
    rw [h.sense] at hg
    rcases hphase with hp|hp
    · rw [hp] at hg
      omega
    · exact hp.1
  | decided g hg =>
    refine h.around hm hlead quiet rfl rfl (fun h => by cases h) ?_
    exact hb (hg.trans hs)
  | undecided g hg => exact h.around hm hlead quiet rfl rfl (fun h => by cases h) trivial
  | tailCounted hk =>
    obtain ⟨b',hb'⟩ := barBranch_bar (n := n) i k (x.word .tailIndex)
    rw [hb'] at hm
    obtain ⟨hok,hd,hpass⟩ := BarOk.branch x.decides (x.passes t.1) hn hbound
      le_rfl (h.bar_lt hlead rfl) hb'
    exact h.around hm hlead quiet rfl hd (fun h => by cases h) hok
  | tail hk =>
    exact h.around hm hlead quiet rfl rfl (fun h => by cases h)
      ⟨hk,le_rfl,h.bar_lt hlead rfl⟩
  | acq ha =>
    refine h.around hm hlead (fun l v he => ?_) rfl rfl (fun h => by cases h) hb
    rw [he] at ha
    rw [ha.write]
    rfl
  | grant ha =>
    refine h.around hm hlead (fun l v he => ?_) rfl rfl (fun h => by cases h) hb
    rw [he] at ha
    rw [ha.write]
    rfl
  | test τ => exact h.around hm hlead quiet rfl rfl (fun h => by cases h) hb
  | rel hl =>
    refine h.around hm hlead (fun l v he => ?_) rfl rfl (fun h => by cases h) hb
    rw [he] at hl
    rw [hl.write]
    rfl
  | pending hl =>
    refine h.around hm hlead (fun l v he => ?_) rfl rfl (fun h => by cases h) hb
    rw [he] at hl
    rw [hl.write]
    rfl
  | @notPending τ l w hl =>
    obtain ⟨b',hb'⟩ := barBranch_bar (n := n) i k τ
    rw [hb'] at hm
    obtain ⟨hok,hd,hpass⟩ := BarOk.branch x.decides (x.passes t.1) hn hbound
      hb.2.1 hb.2.2 hb'
    refine h.around hm hlead (fun l v he => ?_) rfl hd (fun h => by cases h) hok
    rw [he] at hl
    rw [hl.write]
    rfl
  | incSel τ =>
    exact h.around hm hlead quiet rfl rfl (fun h => by cases h) ⟨hb.1,hb.2.1,hb.2.2,hs⟩
  | incWc τ s =>
    obtain ⟨b',hb'⟩ := barBranch_bar (n := n) i true τ
    rw [hb'] at hm
    obtain ⟨hok,hd,hpass⟩ := BarOk.branch x.decides (x.passes t.1) hn hbound
      hb.2.1 hb.2.2.1 hb'
    refine h.countUp hn hlead rfl rfl hd (fun sense he => ?_) hm
    rw [he]
    refine ⟨hs,.inl ?_,hok⟩
    refine hphase.resolve_right fun hl => ?_
    rw [hb.1] at hl
    cases hl.2.1
  | reSense τ =>
    refine h.around hm hlead quiet rfl rfl (fun h => by cases h) ⟨hb.1,hb.2,fun hp => ?_⟩
    rw [h.sense,hp]
  | reDecided τ g hg => exact h.around hm hlead quiet rfl rfl (fun h => by cases h) trivial
  | reCounted τ g hg hk =>
    refine h.around hm hlead quiet rfl rfl (fun h => by cases h) ⟨?_,hk,hb.1,hb.2.1⟩
    exact hphase.resolve_right fun hl => hg ((hb.2.2 hl.1).trans hs.symm)
  | reFree τ g hg hk =>
    refine h.around hm hlead quiet rfl rfl (fun h => by cases h) ⟨?_,hk,hb.1,hb.2.1⟩
    exact hphase.resolve_right fun hl => hg ((hb.2.2 hl.1).trans hs.symm)
  | decSel τ =>
    exact h.around hm hlead quiet rfl rfl (fun h => by cases h)
      ⟨hb.1,hb.2.1,hb.2.2.1,hb.2.2.2,hs⟩
  | decWc τ s => exact h.countDown hn hlead hm
  | backLd τ =>
    exact h.around hm hlead quiet rfl rfl (fun h => by cases h)
      ⟨hb.1,hb.2.1,hb.2.2.1,hb.2.2.2,hs⟩
  | backSt τ v =>
    obtain ⟨hp,hk,hτ,hlt,hv⟩ := hb
    refine h.undecided hm (fun l v he _ => ?_) (by rw [hlead]; rfl) (by rw [hlead,hk]; rfl)
      (by rw [hlead]; rfl) rfl ?_
    · exact (Prod.mk.inj (Option.some.inj he)).1.symm
    · rw [hm.word,applyWrite_self,hv,flipSense_mod]
      refine ⟨hp,by omega,by omega,?_⟩
      rw [wrapIndices_eq hn (by omega) (by omega)]
  | wcSel τ =>
    exact h.around hm hlead quiet rfl rfl (fun h => by cases h) ⟨hb.1,hb.2,hs⟩
  | full τ s hfull =>
    obtain ⟨hτ,hlast,rfl⟩ := hb
    have hnow := hfresh τ _ rfl hfull.symm
    have hp : x.passes t.1=x.decides := hphase.resolve_right fun hl => by
      rcases hl.2.2 with hp|hp
      · cases hp
      · omega
    have hall : x.arrived=Finset.univ := by
      rw [←Finset.card_eq_iff_eq_univ,Fintype.card_fin,←h.count,←hp]
      exact hfull.symm
    refine h.local hm (fun l v he => by cases he) (by rw [hlead]; rfl) (by rw [hlead]; rfl)
      (fun _ => hall) (by rw [hlead]; rfl) (fun hr => by cases hr) ?_
    rw [hm.keep fun v he => by cases he]
    exact ⟨hs,.inl hp,hp,hnow.symm,hlast⟩
  | notFull τ s hne => exact h.around hm hlead quiet rfl rfl (fun h => by cases h) trivial
  | setHead τ => exact h.resetHead hlead hm
  | rstSel τ =>
    refine h.local hm (fun l v he => by cases he) (by rw [hlead]; rfl) (by rw [hlead]; rfl)
      (fun _ => h.decider t.1 (by rw [hlead]; rfl)) (by rw [hlead]; rfl) (fun hr => by cases hr) ?_
    rw [hm.keep fun v he => by cases he]
    exact ⟨hs,.inl hb.1,hb.1,hb.2.1,hb.2.2,hs⟩
  | rstWc τ s => exact h.resetCounter hlead hm
  | flipLd τ =>
    refine h.local hm (fun l v he => by cases he) (by rw [hlead]; rfl) (by rw [hlead]; rfl)
      (fun _ => h.decider t.1 (by rw [hlead]; rfl)) (by rw [hlead]; rfl)
      (fun _ => by rw [hlead]; rfl) ?_
    rw [hm.keep fun v he => by cases he]
    exact ⟨hs,.inl hb.1,hb.1,hb.2.1,hb.2.2,hs⟩
  | flip τ v => exact h.decide hlead hm
  | passW =>
    refine h.around hm hlead (fun l v he => ?_) rfl rfl (fun _ => rfl) hb
    rw [(Prod.mk.inj (Option.some.inj he)).1.symm]
    rfl
  | passLd => exact h.around hm hlead quiet rfl rfl (fun _ => rfl) hb
  | passSt v =>
    have hshown : shown (some (Event.pass t)) (isPass t.1)=1 := by simp [isPass]
    rw [hshown] at hm
    refine h.pass hlead (fun l v he => ?_) hm
    rw [(Prod.mk.inj (Option.some.inj he)).1.symm]
    rfl

/-- A step of a fetch keeps the barrier between the clusters. Every case is one of the moves above,
with the registers that the step read. -/
theorem GInv.fetch (h : GInv x) (hn : n<globalTqSize)
    (hf : FetchTrans cfg x.word t sense pf p w e q) (hlead : x.lead t.1=some p)
    (hfresh : ∀ i k τ v, p=.bar i k (.wcLd τ v) → x.word (waitLoc v)=n → x.word .tailIndex=τ)
    (hm : GMoved x y t.1 w (fetchOf q) (x.decides+shown e isDecide)
      (x.passes t.1+shown e (isPass t.1)) (fun j => x.returns j+shown e (isGroup j))) : GInv y := by
  have hbound := h.bound
  have hlo := h.leads t.1
  rw [hlead] at hlo
  have quiet : ∀ l v, (none : Wr n)=some (l,v) → barrierLoc l=false := fun l v he => by cases he
  have other : ∀ {l' : Loc n} {v' : ℕ}, barrierLoc l'=false →
      ∀ l v, (some (l',v') : Wr n)=some (l,v) → barrierLoc l=false := by
    intro l' v' hl l v he
    rw [←(Prod.mk.inj (Option.some.inj he)).1]
    exact hl
  have acquire : ∀ {a : Acq} {w : Wr n} {o : Option Acq}, AcqTrans x.word t.1 a w o →
      ∀ l v, w=some (l,v) → barrierLoc l=false := by
    intro a w o ha l v he
    rw [he] at ha
    rw [ha.write]
    rfl
  have release : ∀ {l : Rel} {w : Wr n} {o : Option Rel}, RelTrans x.word t.1 l w o →
      ∀ l v, w=some (l,v) → barrierLoc l=false := by
    intro a w o ha l v he
    rw [he] at ha
    rw [ha.write]
    rfl
  have hnone : ∀ {p' : FetchPc}, ticket (some p')=none → x.lead t.1=some p' →
      ticket (x.lead t.1)=none := fun h he => by rw [he,h]
  cases hf with
  | senseSame => exact h.idle hm quiet (hnone rfl hlead) rfl
  | senseSync => exact h.idle hm quiet (hnone rfl hlead) rfl
  | empty => exact h.idle hm quiet (hnone rfl hlead) rfl
  | filled => exact h.idle hm quiet (hnone rfl hlead) rfl
  | inc => exact h.draw hn hlead hm
  | valid i hlt =>
    have hi := h.ticket_lt hlo.1 (by rw [hlead]; rfl : ticket (x.lead t.1)=some i)
    rw [wrapIndices_eq hn hbound hi] at hlt
    refine h.undecided hm (fun l v he => by cases he) (by rw [hlead]; rfl) (by rw [hlead]; rfl)
      (by rw [hlead]; rfl) rfl ?_
    rw [hm.keep fun v he => by cases he]
    exact ⟨hlo.1,hlo.2,hlt,rfl⟩
  | beyond i _ =>
    refine h.undecided hm (fun l v he => by cases he) (by rw [hlead]; rfl) (by rw [hlead]; rfl)
      (by rw [hlead]; rfl) rfl ?_
    rw [hm.keep fun v he => by cases he]
    exact ⟨hlo.1,hlo.2⟩
  | enterLd i =>
    refine h.undecided hm (fun l v he => by cases he) (by rw [hlead]; rfl) (by rw [hlead]; rfl)
      (by rw [hlead]; rfl) rfl ?_
    rw [hm.keep fun v he => by cases he]
    exact ⟨hlo.1,hlo.2,hlo.2⟩
  | enterSt i v =>
    obtain ⟨hp,hs,rfl⟩ := hlo
    refine h.undecided hm (fun l v he _ => ?_) (by rw [hlead]; rfl) (by rw [hlead]; rfl)
      (by rw [hlead]; rfl) rfl ?_
    · exact (Prod.mk.inj (Option.some.inj he)).1.symm
    · rw [hm.word,applyWrite_self,flipSense_mod]
      exact ⟨rfl,.inl hp,trivial⟩
  | bar hb => exact h.bar hn hb hlead (fun τ v he => hfresh _ _ τ v (by rw [he])) hm
  | slot i idx =>
    have hret : (fun j => x.returns j+shown (some (Event.group t i (x.word (.task idx 0))))
        (isGroup j))=Function.update x.returns i (x.returns i+1) := by
      funext j
      by_cases hj : j=i
      · rw [hj,Function.update_self]
        simp [isGroup]
      · rw [Function.update_of_ne hj]
        simp [isGroup,Ne.symm hj]
    rw [hret] at hm
    refine h.redeem hlead rfl rfl rfl ?_ hm
    exact fun _ _ hp hs => ⟨hp,hs⟩
  | last => exact h.idle hm quiet (hnone rfl hlead) rfl
  | walk => exact h.idle hm quiet (hnone rfl hlead) rfl
  | acq ha => exact h.idle hm (acquire ha) (hnone rfl hlead) rfl
  | grant ha => exact h.idle hm (acquire ha) (hnone rfl hlead) rfl
  | insHead => exact h.idle hm quiet (hnone rfl hlead) rfl
  | insNext => exact h.idle hm (other rfl) (hnone rfl hlead) rfl
  | insSet => exact h.idle hm (other rfl) (hnone rfl hlead) rfl
  | rel hl => exact h.idle hm (release hl) (hnone rfl hlead) rfl
  | more hl => exact h.idle hm (release hl) (hnone rfl hlead) rfl
  | enough hl => exact h.idle hm (release hl) (hnone rfl hlead) rfl
  | unlock => exact h.idle hm (other rfl) (hnone rfl hlead) rfl
  | unlockSync => exact h.idle hm (other rfl) (hnone rfl hlead) rfl

end Fetch

section Lead

variable {s : QState n m}

/-- The fetch of a cluster, if one of its threads is in a fetch. -/
def lead (s : QState n m) (c : Fin n) : Option FetchPc :=
  (List.finRange m).findSome? fun i => fetchOf (s.pc (c,i)).pc

/-- A thread in a fetch holds `CLUSTER_gtq_lock`. -/
theorem holdsGtq_of_fetch {pc : Pc} {p : FetchPc} (h : fetchOf pc=some p) : holdsGtq pc=true := by
  cases pc with
  | fetch pf q => rfl
  | _ => cases h

/-- The fetch of a cluster is that of one of its threads. -/
theorem lead_spec {c : Fin n} {p : FetchPc} (h : lead s c=some p) :
    ∃ i, fetchOf (s.pc (c,i)).pc=some p := by
  obtain ⟨i,-,hi⟩ := List.exists_of_findSome?_eq_some h
  exact ⟨i,hi⟩

/-- No thread of a cluster is in a fetch. -/
theorem lead_none {c : Fin n} (h : ∀ i, fetchOf (s.pc (c,i)).pc=none) : lead s c=none :=
  List.findSome?_eq_none_iff.mpr fun i _ => h i

/-- The thread in a fetch is the one that speaks for its cluster. -/
theorem lead_eq (gtq : GtqInv s) {t : Thread n m} {p : FetchPc}
    (h : fetchOf (s.pc t).pc=some p) : lead s t.1=some p := by
  cases hl : lead s t.1 with
  | none =>
    have := List.findSome?_eq_none_iff.mp hl t.2 (List.mem_finRange _)
    rw [h] at this
    cases this
  | some q =>
    obtain ⟨i,hi⟩ := lead_spec hl
    have := gtq.unique (t.1,i) t rfl (holdsGtq_of_fetch hi) (holdsGtq_of_fetch h)
    rw [this,h] at hi
    exact hi.symm

/-- The view of the barrier between the clusters. -/
def gview (s : QState n m) : GView n := ⟨s.word,decides s,passes s,returns s,lead s⟩

/-- A turn moves the cluster of its thread. -/
theorem gmoved_step (cfg : Config) (fresh : LinkFresh reserve s) (turn : QTurn n m) :
    GMoved (gview s) (gview (step (program n m cfg) s turn)) turn.thread.1 (wrote cfg s turn)
      (lead (step (program n m cfg) s turn) turn.thread.1)
      (decides s+shown (event cfg s turn) isDecide)
      (passes s turn.thread.1+shown (event cfg s turn) (isPass turn.thread.1))
      (fun i => returns s i+shown (event cfg s turn) (isGroup i)) := by
  refine ⟨rfl,countP_step ..,countP_step ..,?_,?_,rfl,?_⟩
  · intro d hd
    have := congrArg View.passes (view_other cfg turn fresh hd.symm)
    exact this
  · funext i
    exact countP_step ..
  · intro d hd
    simp only [gview,lead]
    congr 1
    funext i
    rw [pc_other_cluster cfg s turn (u := (d,i)) hd.symm]

/-- The turn finds all threads of its cluster waiting while the local queue has tasks. This is the
step by which a second fetch strands them. -/
def findsTasks (s : QState n m) (turn : QTurn n m) : Bool :=
  match (s.pc turn.thread).pc with
  | .fetch _ (.bar _ _ (.test _)) => s.word (.coreWaitcount turn.thread.1) == m &&
      s.word (.taskqueueHead turn.thread.1) != 0
  | _ => false

/-- The turn finds all clusters counted although the tail it has read is no longer current. This is
the step by which a group is skipped. -/
def findsStale (s : QState n m) (turn : QTurn n m) : Bool :=
  match (s.pc turn.thread).pc with
  | .fetch _ (.bar _ _ (.wcLd τ v)) => s.word (waitLoc v) == n && s.word .tailIndex != τ
  | _ => false

/-- What the barrier needs of a turn: the two tests by which it is decided are true of the present
state, and the indices are far from a wraparound. -/
structure BarrierOk (cfg : Config) (s : QState n m) (turn : QTurn n m) : Prop where
  /-- All threads are found waiting only while the local queue is empty. -/
  empty : findsTasks s turn=false
  /-- All clusters are found counted only while the tail is the one read before. -/
  current : findsStale s turn=false
  /-- Groups are published only while the tail index is far from its wraparound. -/
  room : (event cfg s turn).any isPublish=true → s.word .tailIndex+1+globalTqSize<wordSize

/-- The test of the wait count succeeds on an empty queue. -/
theorem BarrierOk.test {turn : QTurn n m} (ok : BarrierOk cfg s turn) (pf h : ℕ) (k : Bool) (τ : ℕ)
    (hpc : (s.pc turn.thread).pc=.fetch pf (.bar h k (.test τ)))
    (hw : s.word (.coreWaitcount turn.thread.1)=m) : s.word (.taskqueueHead turn.thread.1)=0 := by
  have := ok.empty
  simpa [findsTasks,hpc,hw] using this

/-- The test of the waiting counter succeeds on the current tail. -/
theorem BarrierOk.fresh {turn : QTurn n m} (ok : BarrierOk cfg s turn) (pf h : ℕ) (k : Bool)
    (τ v : ℕ) (hpc : (s.pc turn.thread).pc=.fetch pf (.bar h k (.wcLd τ v)))
    (hw : s.word (waitLoc v)=n) : s.word .tailIndex=τ := by
  have := ok.current
  simpa [findsStale,hpc,hw] using this

/-- The invariant of both levels of the barrier, the one inside every cluster and the one between
the clusters. -/
structure BarrierInv (s : QState n m) : Prop where
  /-- Inside the clusters. -/
  inside : ∀ c, ClusterInv (view s c)
  /-- Between the clusters. -/
  between : GInv (gview s)

/-- The registers of the barrier give what the clusters need of a turn. -/
theorem BarrierInv.clusterOk (h : BarrierInv s) (gtq : GtqInv s) {turn : QTurn n m}
    (ok : BarrierOk cfg s turn) : ClusterOk s turn := by
  refine ⟨ok.test,?_,?_⟩
  · intro pf i k hpc
    have hlead : lead s turn.thread.1=_ := lead_eq gtq (by rw [hpc]; rfl)
    have hlo := h.between.leads turn.thread.1
    simp only [gview,hlead] at hlo
    obtain ⟨hs,hphase,hb⟩ := hlo
    have hlag := hb hs
    rcases hphase with hp|hp
    · omega
    · exact hp.2.1
  · intro pf i k τ v hpc
    have hlead : lead s turn.thread.1=_ := lead_eq gtq (by rw [hpc]; rfl)
    have hall := h.between.decider turn.thread.1 (by simp only [gview,hlead]; rfl)
    have hmem : turn.thread.1∈(gview s).arrived := by
      rw [hall]
      exact Finset.mem_univ _
    have := (mem_arrived.mp hmem).2
    simp only [gview,hlead] at this
    exact this

/-- A thread outside the fetch of its cluster is calm while its cluster is counted. So while all
clusters are counted no thread has a task. -/
theorem BarrierInv.calm_of_counted (h : BarrierInv s) {t : Thread n m}
    (hk : countedIn (lead s t.1)=true) (ht : fetchOf (s.pc t).pc=none) :
    calm (s.pc t).pc=true := by
  cases hl : lead s t.1 with
  | none =>
    rw [hl] at hk
    cases hk
  | some p =>
    rw [hl] at hk
    obtain ⟨i,hi⟩ := lead_spec hl
    have hcommit : committed (s.pc (t.1,i)).pc=true := by
      generalize (s.pc (t.1,i)).pc=pc at hi
      cases pc with
      | fetch pf q =>
        cases Option.some.inj hi
        cases p with
        | bar a k b =>
          have hk' : k=true := hk
          rw [hk']
          rfl
        | _ => cases hk
      | _ => cases hi
    have hne : t.2≠i := by
      intro he
      rw [←he] at hi
      exact Option.some_ne_none p (hi.symm.trans ht)
    exact ((h.inside t.1).commit i hcommit).2.2 t.2 hne |>.1

/-- Outside a fetch only the tail of the barrier's words is written. -/
theorem trans_barrierLoc {word : Loc n → ℕ} {t : Thread n m} {sense esense : ℕ} {pc q : Pc}
    {e : Option (Event n m)} {l : Loc n} {v : ℕ}
    (h : Trans cfg word t sense esense pc (some (l,v)) e q) (hpc : fetchOf pc=none)
    (hl : barrierLoc l=true) : l=.tailIndex ∧ v=(word .tailIndex+1)%wordSize ∧ calm pc=false ∧
      fetchOf q=none ∧ ∃ nodes, e=some (.publish t (word .tailIndex) nodes) := by
  cases h.writes with
  | parTail args u =>
    cases h with
    | par h =>
      cases h with
      | incTail => exact ⟨rfl,rfl,rfl,rfl,_,rfl⟩
  | seqTail args idx groups =>
    cases h with
    | seq h =>
      generalize hq : Pc.seq args (seqGroup ((idx+8)%globalTqSize) groups.tail)=q at h
      cases h with
      | incTail => exact ⟨rfl,rfl,rfl,by rw [←hq]; rfl,_,rfl⟩
  | _ => first | (cases hpc; done) | cases hl

/-- A thread enters a fetch by taking the free `CLUSTER_gtq_lock`. -/
theorem trans_enterFetch {word : Loc n → ℕ} {t : Thread n m} {sense esense : ℕ} {pc q : Pc}
    {w : Wr n} {e : Option (Event n m)} {p : FetchPc}
    (h : Trans cfg word t sense esense pc w e q) (hpc : fetchOf pc=none) (hq : fetchOf q=some p) :
    p=.sense ∧ word (.gtqLock t.1)=0 ∧ w=some (.gtqLock t.1,1) := by
  cases h with
  | fast h => cases h <;> cases hq
  | slow h =>
    cases h with
    | locked hk =>
      cases hk
      cases hq
      exact ⟨rfl,‹_›,rfl⟩
    | _ => cases hq
  | fetch h => cases hpc
  | par h => cases h <;> cases hq
  | seq h => cases h <;> cases hq
  | _ => cases hq

/-- Outside a fetch nothing is decided, passed or returned. -/
theorem trans_noBarrierEvent {word : Loc n → ℕ} {t : Thread n m} {sense esense : ℕ} {pc q : Pc}
    {w : Wr n} {e : Option (Event n m)} (h : Trans cfg word t sense esense pc w e q)
    (hpc : fetchOf pc=none) (c : Fin n) : shown e isDecide=0 ∧ shown e (isPass c)=0 ∧
      ∀ i, shown e (isGroup i)=0 := by
  cases h with
  | fast h => cases h <;> exact ⟨rfl,rfl,fun _ => rfl⟩
  | slow h => cases h <;> exact ⟨rfl,rfl,fun _ => rfl⟩
  | fetch h => cases hpc
  | par h => cases h <;> exact ⟨rfl,rfl,fun _ => rfl⟩
  | seq h => cases h <;> exact ⟨rfl,rfl,fun _ => rfl⟩
  | _ => exact ⟨rfl,rfl,fun _ => rfl⟩

/-- The fetch of the cluster after a turn of the thread that was or comes to be in it. -/
theorem lead_step (fresh : LinkFresh reserve s) (gtq : GtqInv s) (turn : QTurn n m)
    (hin : fetchOf (s.pc turn.thread).pc≠none) :
    lead (step (program n m cfg) s turn) turn.thread.1=
      fetchOf ((step (program n m cfg) s turn).pc turn.thread).pc := by
  have gtq' : GtqInv (step (program n m cfg) s turn) := gtqInv_step fresh gtq turn
  cases hq : fetchOf ((step (program n m cfg) s turn).pc turn.thread).pc with
  | some p => exact lead_eq gtq' hq
  | none =>
    refine lead_none fun i => ?_
    by_cases hi : (turn.thread.1,i)=turn.thread
    · rw [hi]
      exact hq
    · rw [pc_other _ _ _ hi]
      cases hp : fetchOf (s.pc (turn.thread.1,i)).pc with
      | none => rfl
      | some p =>
        obtain ⟨p',hp'⟩ := Option.ne_none_iff_exists'.mp hin
        exact absurd (gtq.unique (turn.thread.1,i) turn.thread rfl (holdsGtq_of_fetch hp)
          (holdsGtq_of_fetch hp')) hi

/-- The fetch of the cluster after a turn of a thread that is and stays outside it. -/
theorem lead_same (turn : QTurn n m) (hin : fetchOf (s.pc turn.thread).pc=none)
    (hout : fetchOf ((step (program n m cfg) s turn).pc turn.thread).pc=none) :
    lead (step (program n m cfg) s turn) turn.thread.1=lead s turn.thread.1 := by
  unfold lead
  congr 1
  funext i
  by_cases hi : (turn.thread.1,i)=turn.thread
  · rw [hi,hin,hout]
  · rw [pc_other _ _ _ hi]

/-- One turn keeps the barrier between the clusters: a turn outside the fetches changes nothing it
is about, except that it may publish a group. -/
theorem gInv_step (hn : n<globalTqSize) (fresh : LinkFresh reserve s) (gtq : GtqInv s)
    {turn : QTurn n m} (ok : BarrierOk cfg s turn) (h : BarrierInv s) :
    GInv (gview (step (program n m cfg) s turn)) := by
  have ht := trans_step cfg s turn fresh
  have hm := gmoved_step cfg fresh turn
  cases hp : fetchOf (s.pc turn.thread).pc with
  | some p =>
    rw [lead_step fresh gtq turn (by rw [hp]; simp)] at hm
    have hlead := lead_eq gtq hp
    generalize hpc : (s.pc turn.thread).pc=pc at hp ht
    cases pc with
    | fetch pf p' =>
      cases Option.some.inj hp
      cases ht with
      | fetch hf =>
        refine h.between.fetch hn hf hlead (fun i k τ v he hfull => ?_) hm
        exact ok.fresh pf i k τ v (by rw [hpc,he]) hfull
    | _ => cases hp
  | none =>
    obtain ⟨hd,hpass,hgroup⟩ := trans_noBarrierEvent ht hp turn.thread.1
    simp only [hd,hpass,hgroup,Nat.add_zero] at hm
    cases hq : fetchOf ((step (program n m cfg) s turn).pc turn.thread).pc with
    | some p =>
      obtain ⟨rfl,hfree,hw⟩ := trans_enterFetch ht hp hq
      have hnone : lead s turn.thread.1=none := by
        refine lead_none fun i => ?_
        cases hi : fetchOf (s.pc (turn.thread.1,i)).pc with
        | none => rfl
        | some p' =>
          have := gtq.taken _ (holdsGtq_of_fetch hi)
          rw [hfree] at this
          cases this
      rw [lead_eq (gtqInv_step fresh gtq turn) hq] at hm
      refine h.between.idle hm (fun l v he => ?_) (by simp only [gview,hnone]; rfl) rfl
      rw [hw] at he
      cases he
      rfl
    | none =>
      rw [lead_same turn hp hq] at hm
      by_cases hw : ∃ l v, wrote cfg s turn=some (l,v) ∧ barrierLoc l=true
      · obtain ⟨l,v,hw,hl⟩ := hw
        rw [hw] at ht
        obtain ⟨rfl,hv,hcalm,-,nodes,he⟩ := trans_barrierLoc ht hp hl
        have hk : countedIn (lead s turn.thread.1)=false := by
          refine Bool.eq_false_of_not_eq_true fun hk => ?_
          rw [h.calm_of_counted hk hp] at hcalm
          cases hcalm
        have hall : (gview (step (program n m cfg) s turn)).lead=(gview s).lead ∧
            (gview (step (program n m cfg) s turn)).passes=(gview s).passes := by
          constructor <;> funext d <;> by_cases hdc : d=turn.thread.1
          · rw [hdc]
            exact hm.lead_self
          · exact hm.lead_other d hdc
          · rw [hdc]
            exact hm.passes_self
          · exact hm.passes_other d hdc
        refine h.between.publish (c := turn.thread.1) hk (ok.room (by rw [he]; rfl)) ?_ hm.decides
          hall.2
          hm.returns hall.1
        rw [hm.word,hw,hv]
        rfl
      · have hquiet : ∀ l v, wrote cfg s turn=some (l,v) → barrierLoc l=true →
            l=.perclusterSense turn.thread.1 := fun l v he hl => absurd ⟨l,v,he,hl⟩ hw
        refine h.between.local hm hquiet rfl rfl (h.between.decider turn.thread.1) rfl id ?_
        rw [hm.keep fun v he => hw ⟨_,v,he,rfl⟩]
        exact h.between.leads turn.thread.1

/-- One turn keeps both levels of the barrier. -/
theorem barrierInv_step (hm : m<wordSize) (hn : n<globalTqSize) (fresh : LinkFresh reserve s)
    (gtq : GtqInv s) (ltq : LtqInv s) {turn : QTurn n m} (ok : BarrierOk cfg s turn)
    (h : BarrierInv s) : BarrierInv (step (program n m cfg) s turn) :=
  ⟨clusterInv_step hm fresh gtq ltq (h.clusterOk gtq ok) h.inside,gInv_step hn fresh gtq ok h⟩

/-- Nobody is in the barrier at the start. -/
theorem gInv_initial : GInv (gview (initial n m)) := by
  have hnone : ∀ c, lead (initial n m) c=none := fun c => lead_none fun i => rfl
  have hbound : 0+globalTqSize<wordSize := by decide
  refine .of_quiet (fun d => ?_) rfl hbound (fun c => ?_) ?_ ?_
  · simp only [gview,hnone]
    rfl
  · simp only [gview,hnone]
    exact ⟨rfl,rfl⟩
  · refine (Finset.card_eq_zero.mpr (Finset.filter_eq_empty_iff.mpr fun c _ hc => ?_)).symm
    simp only [gview,hnone] at hc
    cases hc.2
  · have hheld : (gview (initial n m)).held=fun _ => none := by
      funext c
      simp only [GView.held,gview,hnone]
      split <;> rfl
    rw [hheld]
    exact .initial

end Lead

end RigelTarget.TaskQueueBarrier
