import RigelTarget.X86TaskModel

/-!
# Delivery and barrier of the x86 task model

Within a phase the head indices are the tickets of a dispenser and the tail is the number
of published tasks. The invariant adds the number of unredeemed tasks, the descriptors
that are still in the queue, the cores that wait for the barrier and the number of barriers
that each core has returned from. A core that was released by the barrier holds no ticket
of the new phase; it keeps the invariant as long as it does not use its old index.
-/

namespace RigelTarget.X86TaskDelivery

open X86TaskModel

/-- A sum over the values of a function that changes at one place. -/
theorem sum_update {ι A : Type} [Fintype ι] [DecidableEq ι] (F : A → ℕ) (f : ι → A) (c : ι)
    (k : A) : (∑ d, F (Function.update f c k d))+F (f c)=(∑ d, F (f d))+F k := by
  have hcomp : (fun d => F (Function.update f c k d))=
      Function.update (fun d => F (f d)) c (F k) := by
    funext d
    by_cases hd : d=c
    · rw [hd,Function.update_self,Function.update_self]
    · rw [Function.update_of_ne hd,Function.update_of_ne hd]
  rw [hcomp,Finset.sum_update_of_mem (Finset.mem_univ c)]
  have hsplit := Finset.sum_sdiff (f := fun d => F (f d))
    (Finset.subset_univ ({c} : Finset ι))
  rw [Finset.sum_singleton] at hsplit
  omega

variable {N : ℕ}

/-- The ticket of a core in the current phase: its index, unless the core was released by the
barrier and still holds an index of the last phase. -/
def ticket (sense : Bool) (k : Core) : Option ℕ :=
  match k.pc with
  | .redeem headIdx _ => if k.released sense=true then none else some headIdx
  | _ => none

/-- Whether an event enqueues the descriptor. -/
def isEnqueued (tdesc : TaskDesc) : Event N → Bool
  | .enqueued _ d => decide (d=tdesc)
  | _ => false

/-- Whether an event returns the descriptor. -/
def isSuccess (tdesc : TaskDesc) : Event N → Bool
  | .success _ d => decide (d=tdesc)
  | _ => false

/-- Whether an event is a return of core `c` from the barrier. -/
def isSync (c : Fin N) : Event N → Bool
  | .sync d => decide (d=c)
  | _ => false

/-- Whether an event declares the barrier. -/
def isDeclared : Event N → Bool
  | .declared _ => true
  | _ => false

/-- How often the descriptor was enqueued. -/
def enqueues (s : QState N) (tdesc : TaskDesc) : ℕ := s.trace.countP (isEnqueued tdesc)

/-- How often the descriptor was returned. -/
def successes (s : QState N) (tdesc : TaskDesc) : ℕ := s.trace.countP (isSuccess tdesc)

/-- How often core `c` has returned from the barrier. -/
def syncs (s : QState N) (c : Fin N) : ℕ := s.trace.countP (isSync c)

/-- How often the barrier was declared. -/
def declares (s : QState N) : ℕ := s.trace.countP isDeclared

/-- The number of cores that wait for the barrier. -/
def waiters (s : QState N) : ℕ :=
  (Finset.univ.filter fun c => (s.core c).waits s.sense=true).card

/-- The indices of the tasks that were not redeemed. They are the count of tasks, and all of them
are out as tickets or still to be drawn. -/
def pending (s : QState N) (redeemed : ℕ → ℕ) : Finset ℕ :=
  (Finset.range s.tail).filter fun i => redeemed i=0

/-- The queue and the barrier in the middle of a phase: the head index is a ticket dispenser over
the tasks, and the waiters are the cores that joined. -/
structure QInv (size : ℕ) (redeemed : ℕ → ℕ) (s : QState N) : Prop where
  /-- No assertion has failed. -/
  running : s.aborted=false
  /-- Head indices are tickets for the published tasks. -/
  tickets : TicketDispenser.Inv (fun c => ticket s.sense (s.core c)) s.tail redeemed s.head
  /-- The count is the number of unredeemed tasks. -/
  count : s.count=(pending s redeemed).card
  /-- Every enqueued descriptor was returned or is in the queue. -/
  delivered : ∀ d, enqueues s d=
    successes s d+((pending s redeemed).filter fun i => s.data i=d).card
  /-- The indices do not wrap around. -/
  room : s.tail+N < size
  /-- The wait count is the number of waiting cores. -/
  wait : s.wait=(waiters s : ℤ)
  /-- The barrier is declared when the last core joins. -/
  missing : waiters s<N
  /-- Cores that have not joined the barrier have the global sense. -/
  senses : ∀ c, (s.core c).did=false → (s.core c).sense=s.sense
  /-- A core has returned from every declared barrier that it is not about to leave. -/
  returns : ∀ c, syncs s c+((s.core c).released s.sense).toNat=declares s
  /-- Only a core of the new phase draws an index or enqueues. -/
  started : 0 < s.tail+s.head → ∃ c, (s.core c).released s.sense=false

/-- Nothing has happened yet: no index is drawn, no task is in the queue and no core waits. -/
theorem qInv_initial {size : ℕ} (hN : 0<N) (hsize : N < size) :
    QInv size (fun _ => 0) (initial N) where
  running := rfl
  tickets := TicketDispenser.Inv.initial
  count := rfl
  delivered _ := rfl
  room := by
    show 0+N < size
    omega
  wait := by
    have hnone : waiters (initial N)=0 := by
      refine Finset.card_eq_zero.mpr (Finset.filter_eq_empty_iff.mpr fun c _ h => ?_)
      cases h
    rw [hnone]
    rfl
  missing := by
    have hnone : waiters (initial N)=0 := by
      refine Finset.card_eq_zero.mpr (Finset.filter_eq_empty_iff.mpr fun c _ h => ?_)
      cases h
    rw [hnone]
    exact hN
  senses _ _ := rfl
  returns _ := rfl
  started h := absurd h (Nat.lt_irrefl 0)

section Cores

variable {b : Bool} {k : Core}

/-- A core outside the loop of `TaskQueue_Dequeue` has no part in tickets and barrier. -/
theorem outside_core (b : Bool) (h : k.inside=false) : k.did=false ∧ ticket b k=none ∧
    k.waits b=false ∧ k.released b=false := by
  obtain ⟨pc,own⟩ := k
  cases pc with
  | redeem headIdx did => cases h
  | _ => exact ⟨rfl,rfl,rfl,rfl⟩

/-- A core that has not joined the barrier neither waits nor was released. -/
theorem not_did (h : k.did=false) : k.waits b=false ∧ k.released b=false := by
  unfold Core.waits Core.released
  rw [h]
  exact ⟨rfl,rfl⟩

/-- A core that joined with another sense waits. -/
theorem did_waits (h : k.did=true) (hs : k.sense≠b) :
    k.waits b=true ∧ k.released b=false := by
  unfold Core.waits Core.released
  rw [h,decide_eq_true hs,decide_eq_false hs]
  exact ⟨rfl,rfl⟩

/-- A core that joined with the global sense was released. -/
theorem did_released (h : k.did=true) (hs : k.sense=b) :
    k.waits b=false ∧ k.released b=true := by
  unfold Core.waits Core.released
  rw [h,decide_eq_true hs,decide_eq_false (fun hne => hne hs)]
  exact ⟨rfl,rfl⟩

/-- A core in the loop that was not released holds the ticket it drew. -/
theorem ticket_redeem {headIdx : ℕ} {did own : Bool}
    (h : Core.released b ⟨.redeem headIdx did,own⟩=false) :
    ticket b ⟨.redeem headIdx did,own⟩=some headIdx := by
  unfold ticket
  rw [h]
  rfl

/-- A released core holds no ticket of the new phase. -/
theorem ticket_released (h : k.released b=true) : ticket b k=none := by
  obtain ⟨pc,own⟩ := k
  cases pc with
  | redeem headIdx did => exact if_pos h
  | _ => rfl

end Cores

section Move

variable {size : ℕ} {redeemed redeemed' : ℕ → ℕ} {s s' : QState N} {c : Fin N} {k : Core}

/-- The waiting cores as a sum. -/
theorem waiters_eq (s : QState N) : waiters s=∑ c, ((s.core c).waits s.sense).toNat := by
  unfold waiters
  rw [Finset.card_filter]
  refine Finset.sum_congr rfl fun c _ => ?_
  cases (s.core c).waits s.sense <;> rfl

/-- A change of one core changes the number of waiting cores accordingly. -/
theorem waiters_update (hcore : s'.core=Function.update s.core c k) (hsense : s'.sense=s.sense) :
    waiters s'+((s.core c).waits s.sense).toNat=waiters s+(k.waits s.sense).toNat := by
  rw [waiters_eq,waiters_eq,hcore,hsense]
  exact sum_update (fun k => (Core.waits s.sense k).toNat) s.core c k

/-- A change of one core changes its ticket. -/
theorem ticket_update (sense : Bool) (core : Fin N → Core) (c : Fin N) (k : Core) :
    (fun d => ticket sense (Function.update core c k d))=
      Function.update (fun d => ticket sense (core d)) c (ticket sense k) := by
  funext d
  by_cases hd : d=c
  · rw [hd,Function.update_self,Function.update_self]
  · rw [Function.update_of_ne hd,Function.update_of_ne hd]

/-- A core that was not released has returned from every declared barrier. -/
theorem QInv.synced (h : QInv size redeemed s) (hc : (s.core c).released s.sense=false) :
    syncs s c=declares s := by
  have hs := h.returns c
  rw [hc] at hs
  exact hs

/-- A turn that declares no barrier: the obligations for the moving core. The other cores keep their
tickets and their part in the barrier. -/
theorem QInv.move (h : QInv size redeemed s) (hcore : s'.core=Function.update s.core c k)
    (hsense : s'.sense=s.sense) (hk : k.released s.sense=false) (hrun : s'.aborted=false)
    (htickets : TicketDispenser.Inv
      (Function.update (fun d => ticket s.sense (s.core d)) c (ticket s.sense k))
      s'.tail redeemed' s'.head)
    (hcount : s'.count=(pending s' redeemed').card)
    (hdelivered : ∀ d, enqueues s' d=
      successes s' d+((pending s' redeemed').filter fun i => s'.data i=d).card)
    (hroom : s'.tail+N < size)
    (hwait : s'.wait+((s.core c).waits s.sense).toNat=s.wait+(k.waits s.sense).toNat)
    (hmissing : s'.wait<N) (hsenses : k.did=false → k.sense=s.sense)
    (hsync : syncs s' c=declares s) (hother : ∀ d, d≠c → syncs s' d=syncs s d)
    (hdecl : declares s'=declares s) : QInv size redeemed' s' := by
  have hwaiters := waiters_update hcore hsense
  have hold := h.wait
  have hnew : s'.wait=(waiters s' : ℤ) := by omega
  have hself : s'.core c=k := by rw [hcore,Function.update_self]
  have hkeep : ∀ d, d≠c → s'.core d=s.core d := fun d hd => by
    rw [hcore,Function.update_of_ne hd]
  refine ⟨hrun,?_,hcount,hdelivered,hroom,hnew,by omega,?_,?_,?_⟩
  · rw [hcore,hsense,ticket_update]
    exact htickets
  · intro d hd
    rw [hsense]
    by_cases hdc : d=c
    · rw [hdc,hself] at hd ⊢
      exact hsenses hd
    · rw [hkeep d hdc] at hd ⊢
      exact h.senses d hd
  · intro d
    rw [hsense,hdecl]
    by_cases hdc : d=c
    · rw [hdc,hself,hk,hsync]
      rfl
    · rw [hkeep d hdc,hother d hdc]
      exact h.returns d
  · intro _
    refine ⟨c,?_⟩
    rw [hself,hsense]
    exact hk

/-- A turn outside the queue. -/
theorem QInv.quiet (h : QInv size redeemed s) (hc : (s.core c).inside=false) {pc : Pc}
    (hpc : Core.inside ⟨pc,(s.core c).sense⟩=false) :
    QInv size redeemed (s.put c ⟨pc,(s.core c).sense⟩) := by
  obtain ⟨hdid,hticket,hwaits,hreleased⟩ := outside_core s.sense hc
  obtain ⟨-,hticket',hwaits',hreleased'⟩ := outside_core s.sense hpc
  have hwait := h.wait
  have hmissing := h.missing
  refine h.move (c := c) rfl rfl hreleased' h.running ?_ h.count h.delivered h.room ?_ ?_
    (fun _ => h.senses c hdid) (h.synced hreleased) (fun _ _ => rfl) rfl
  · rw [hticket',←hticket,Function.update_eq_self]
    exact h.tickets
  · rw [hwaits,hwaits']
    rfl
  · show s.wait<N
    omega

/-- The index at the tail was not redeemed. -/
theorem QInv.tail_unredeemed (h : QInv size redeemed s) : redeemed s.tail=0 := by
  by_contra hne
  have hlt := (h.tickets.spent s.tail hne).2.1
  omega

/-- The count is at most the tail. -/
theorem QInv.count_le (h : QInv size redeemed s) : s.count ≤ s.tail := by
  rw [h.count]
  refine (Finset.card_filter_le _ _).trans ?_
  rw [Finset.card_range]

/-- A core enqueues a descriptor. The queue has room, so the place at the tail belongs to no task
that a core may still return. -/
theorem QInv.enqueue (h : QInv size redeemed s) (hc : (s.core c).inside=false) {next : Pc}
    (hnext : Core.inside ⟨next,(s.core c).sense⟩=false) (hroom : s.tail+1+N < size)
    (tdesc : TaskDesc) : QInv size redeemed (enqueueStep size s c tdesc next) := by
  obtain ⟨hdid,hticket,hwaits,hreleased⟩ := outside_core s.sense hc
  obtain ⟨-,hticket',hwaits',hreleased'⟩ := outside_core s.sense hnext
  have hwait := h.wait
  have hmissing := h.missing
  have hle := h.count_le
  have hmod : (s.tail+1)%size=s.tail+1 := Nat.mod_eq_of_lt (by omega)
  unfold enqueueStep
  rw [if_pos (show size≠s.count by omega),hmod]
  -- the new task is pending besides the old ones
  have hpending : (Finset.range (s.tail+1)).filter (fun i => redeemed i=0)=
      insert s.tail (pending s redeemed) := by
    rw [Finset.range_add_one,Finset.filter_insert,if_pos h.tail_unredeemed]
    rfl
  have hnot : s.tail∉pending s redeemed := by
    intro hmem
    have hlt := Finset.mem_range.1 (Finset.mem_filter.1 hmem).1
    omega
  refine h.move (c := c) rfl rfl hreleased' h.running ?_ ?_ ?_ ?_ ?_ ?_
    (fun _ => h.senses c hdid) (h.synced hreleased) (fun _ _ => rfl) rfl
  · rw [hticket',←hticket,Function.update_eq_self]
    exact h.tickets.publish (Nat.le_succ _)
  · show s.count+1=((Finset.range (s.tail+1)).filter fun i => redeemed i=0).card
    rw [hpending,Finset.card_insert_of_notMem hnot,h.count]
  · intro d
    have hold := h.delivered d
    show (Event.enqueued c tdesc::s.trace).countP (isEnqueued d)=
      successes s d+(((Finset.range (s.tail+1)).filter fun i => redeemed i=0).filter fun i =>
        Function.update s.data s.tail tdesc i=d).card
    have hsame : (pending s redeemed).filter (fun i => Function.update s.data s.tail tdesc i=d)=
        (pending s redeemed).filter fun i => s.data i=d := by
      refine Finset.filter_congr fun i hi => ?_
      have hne : i≠s.tail := fun he => hnot (by rw [←he]; exact hi)
      rw [Function.update_of_ne hne]
    rw [hpending,Finset.filter_insert,hsame,Function.update_self,List.countP_cons]
    change s.trace.countP (isEnqueued d)=_ at hold
    rw [hold]
    by_cases hd : tdesc=d
    · rw [if_pos hd,Finset.card_insert_of_notMem (fun hmem => hnot (Finset.mem_filter.1 hmem).1)]
      simp only [isEnqueued,hd,decide_true,if_true]
      omega
    · rw [if_neg hd]
      simp only [isEnqueued,hd,decide_false,Bool.false_eq_true,if_false,Nat.add_zero]
  · show s.tail+1+N < size
    exact hroom
  · rw [hwaits,hwaits']
  · show s.wait<N
    omega

/-- A core draws an index, which no other core has: the head index is read and incremented in one
critical section. -/
theorem QInv.reserve (h : QInv size redeemed s) (hc : (s.core c).inside=false) :
    QInv size redeemed (reserveStep size s c) := by
  obtain ⟨hdid,hticket,hwaits,hreleased⟩ := outside_core s.sense hc
  have hwait := h.wait
  have hmissing := h.missing
  have hroom := h.room
  obtain ⟨hwaits',hreleased'⟩ :=
    not_did (b := s.sense) (k := ⟨.redeem s.head false,(s.core c).sense⟩) rfl
  have hdraw := h.tickets.draw hticket
  -- one ticket per core at most is ahead of the tasks
  have hlead := hdraw.issued_le
  rw [Fintype.card_fin] at hlead
  have hhead : (if size < s.head+1 then (s.head+1)%size else s.head+1)=s.head+1 :=
    if_neg (by omega)
  refine h.move (c := c) rfl rfl hreleased' h.running ?_ h.count h.delivered hroom ?_ ?_
    (fun _ => h.senses c hdid) (h.synced hreleased) (fun _ _ => rfl) rfl
  · rw [ticket_redeem hreleased']
    show TicketDispenser.Inv _ s.tail redeemed
      (if size < s.head+1 then (s.head+1)%size else s.head+1)
    rw [hhead]
    exact hdraw
  · rw [hwaits,hwaits']
    rfl
  · show s.wait<N
    omega

/-- What redeeming an index does to the tasks. -/
theorem QInv.redeem (h : QInv size redeemed s) {headIdx : ℕ}
    (hticket : ticket s.sense (s.core c)=some headIdx) (hlt : headIdx < s.tail) :
    headIdx∈pending s redeemed ∧
    (Finset.range s.tail).filter (fun i => Function.update redeemed headIdx (redeemed headIdx+1) i=
      0)=(pending s redeemed).erase headIdx := by
  have hzero : redeemed headIdx=0 := by
    by_contra hne
    exact (h.tickets.spent headIdx hne).2.2.2 c hticket
  refine ⟨Finset.mem_filter.2 ⟨Finset.mem_range.2 hlt,hzero⟩,?_⟩
  ext i
  rw [Finset.mem_erase,Finset.mem_filter,pending,Finset.mem_filter]
  by_cases hi : i=headIdx
  · rw [hi,Function.update_self]
    exact ⟨(fun h => absurd h.2 (Nat.succ_ne_zero _)),fun h => absurd rfl h.1⟩
  · rw [Function.update_of_ne hi]
    exact ⟨fun h => ⟨hi,h⟩,fun h => h.2⟩

/-- A core that was not released takes the task of its index. Nobody else has this index, so the
task is returned once. -/
theorem QInv.take (h : QInv size redeemed s) {headIdx : ℕ} {did : Bool}
    (hpc : (s.core c).pc=.redeem headIdx did) (hc : (s.core c).released s.sense=false)
    (hlt : headIdx < s.tail) :
    ∃ redeemed', QInv size redeemed' (takeStep s c headIdx did) := by
  refine ⟨Function.update redeemed headIdx (redeemed headIdx+1),?_⟩
  have hwait := h.wait
  have hmissing := h.missing
  have hsense := h.senses c
  have hsynced := h.synced hc
  have hcore : s.core c=⟨.redeem headIdx did,(s.core c).sense⟩ := by rw [←hpc]
  have hticket : ticket s.sense (s.core c)=some headIdx := by
    rw [hcore] at hc ⊢
    exact ticket_redeem hc
  obtain ⟨hmem,herase⟩ := h.redeem hticket hlt
  have hpos : 0<(pending s redeemed).card := Finset.card_pos.mpr ⟨headIdx,hmem⟩
  have htickets := h.tickets.redeem hticket hlt
  have hcount : s.count-1=((Finset.range s.tail).filter fun i =>
      Function.update redeemed headIdx (redeemed headIdx+1) i=0).card := by
    rw [herase,Finset.card_erase_of_mem hmem,h.count]
  have hdelivered : ∀ d, enqueues s d=
      (Event.success c (s.data headIdx)::s.trace).countP (isSuccess d)+
      (((Finset.range s.tail).filter fun i =>
        Function.update redeemed headIdx (redeemed headIdx+1) i=0).filter fun i =>
          s.data i=d).card := by
    intro d
    have hold := h.delivered d
    rw [herase,Finset.filter_erase,List.countP_cons]
    change enqueues s d=s.trace.countP (isSuccess d)+_ at hold
    by_cases hd : s.data headIdx=d
    · have hmem' : headIdx∈(pending s redeemed).filter fun i => s.data i=d :=
        Finset.mem_filter.2 ⟨hmem,hd⟩
      have hcard : 0<((pending s redeemed).filter fun i => s.data i=d).card :=
        Finset.card_pos.mpr ⟨headIdx,hmem'⟩
      rw [Finset.card_erase_of_mem hmem',hold]
      simp only [isSuccess,hd,decide_true,if_true]
      omega
    · have hnot : headIdx∉(pending s redeemed).filter fun i => s.data i=d :=
        fun hmem' => hd (Finset.mem_filter.1 hmem').2
      rw [Finset.erase_eq_of_notMem hnot,hold]
      simp only [isSuccess,hd,decide_false,Bool.false_eq_true,if_false,Nat.add_zero]
  cases did with
  | false =>
    have hdid : (s.core c).did=false := by
      rw [hcore]
      rfl
    obtain ⟨hwaits,-⟩ := not_did (b := s.sense) hdid
    unfold takeStep
    rw [if_neg (fun h => by cases h)]
    refine h.move (c := c) (k := ⟨.ready,(s.core c).sense⟩) rfl rfl rfl h.running htickets hcount
      hdelivered h.room ?_ ?_ (fun _ => hsense hdid) hsynced (fun _ _ => rfl) rfl
    · rw [hwaits]
      rfl
    · show s.wait<N
      omega
  | true =>
    have hdid : (s.core c).did=true := by
      rw [hcore]
      rfl
    have hne : (s.core c).sense≠s.sense := by
      intro he
      rw [(did_released hdid he).2] at hc
      cases hc
    obtain ⟨hwaits,-⟩ := did_waits hdid hne
    -- the core itself is one of those that wait
    have hone : 0<waiters s :=
      Finset.card_pos.mpr ⟨c,Finset.mem_filter.2 ⟨Finset.mem_univ c,hwaits⟩⟩
    have hflip : (!(s.core c).sense)=s.sense := by
      generalize (s.core c).sense=a at hne ⊢
      generalize s.sense=b at hne ⊢
      cases a <;> cases b <;> first | rfl | exact absurd rfl hne
    unfold takeStep
    rw [if_pos rfl,if_neg (show ¬s.wait-1<0 by omega)]
    refine h.move (c := c) (k := ⟨.ready,!(s.core c).sense⟩) rfl rfl rfl h.running htickets hcount
      hdelivered h.room ?_ ?_ (fun _ => hflip) hsynced (fun _ _ => rfl) rfl
    · rw [hwaits]
      show s.wait-1+1=s.wait+0
      omega
    · show s.wait-1<N
      omega

/-- A sense that is not the global one becomes it when it is flipped, and the other way round. -/
theorem flip_eq {a b : Bool} (h : a≠b) : (!a)=b := by
  cases a <;> cases b <;> first | rfl | exact absurd rfl h

/-- An empty queue has no pending tasks. -/
theorem QInv.nothing_pending (h : QInv size redeemed s) (hz : s.count=0) :
    pending s redeemed=∅ := by
  have hc := h.count
  rw [hz] at hc
  exact Finset.card_eq_zero.1 hc.symm

/-- When the last core joins the barrier every other core waits: each of them is counted once. -/
theorem QInv.others_wait (h : QInv size redeemed s) (hc : (s.core c).did=false)
    (hlast : (N : ℤ)=s.wait+1) {d : Fin N} (hd : d≠c) : (s.core d).waits s.sense=true := by
  have hwait := h.wait
  have hnot := (not_did (b := s.sense) hc).1
  have hsub : (Finset.univ.filter fun d => (s.core d).waits s.sense=true)⊆
      Finset.univ.erase c := by
    intro e he
    refine Finset.mem_erase.2 ⟨?_,Finset.mem_univ e⟩
    rintro rfl
    rw [(Finset.mem_filter.1 he).2] at hnot
    cases hnot
  have hcard : (Finset.univ.erase c).card=N-1 := by
    rw [Finset.card_erase_of_mem (Finset.mem_univ c),Finset.card_univ,Fintype.card_fin]
  have heq := Finset.eq_of_subset_of_card_le hsub (by
    rw [hcard]
    change N-1≤waiters s
    omega)
  have hmem : d∈Finset.univ.erase c := Finset.mem_erase.2 ⟨hd,Finset.mem_univ d⟩
  rw [←heq] at hmem
  exact (Finset.mem_filter.1 hmem).2

/-- A core joins the barrier, which is not complete: its index has no task yet, and it keeps the
index while it waits. -/
theorem QInv.join (h : QInv size redeemed s) {headIdx : ℕ}
    (hpc : (s.core c).pc=.redeem headIdx false) (hlast : (N : ℤ)≠s.wait+1) :
    QInv size redeemed (joinStep s c headIdx) := by
  have hwait := h.wait
  have hmissing := h.missing
  have hcore : s.core c=⟨.redeem headIdx false,(s.core c).sense⟩ := by rw [←hpc]
  have hdid : (s.core c).did=false := by
    rw [hcore]
    rfl
  have hsense := h.senses c hdid
  obtain ⟨hwaits,hreleased⟩ := not_did (b := s.sense) hdid
  have hne : (!(s.core c).sense)≠s.sense := by
    rw [hsense]
    exact Bool.not_ne_self _
  obtain ⟨hwaits',hreleased'⟩ :=
    did_waits (b := s.sense) (k := ⟨.redeem headIdx true,!(s.core c).sense⟩) rfl hne
  have hticket : ticket s.sense (s.core c)=some headIdx := by
    rw [hcore] at hreleased ⊢
    exact ticket_redeem hreleased
  unfold joinStep
  rw [if_neg hlast]
  refine h.move (c := c) rfl rfl hreleased' h.running ?_ h.count h.delivered h.room ?_ ?_
    (fun h => by cases h) (h.synced hreleased) (fun _ _ => rfl) rfl
  · rw [ticket_redeem hreleased',←hticket,Function.update_eq_self]
    exact h.tickets
  · rw [hwaits,hwaits']
    show s.wait+1+0=s.wait+1
    omega
  · show s.wait+1<N
    omega

/-- The last core joins the barrier: it is declared, every core is released, and the next phase
starts with an empty queue. -/
theorem QInv.declare (hN : 0<N) (h : QInv size redeemed s) {headIdx : ℕ}
    (hpc : (s.core c).pc=.redeem headIdx false) (hz : s.count=0) (hlast : (N : ℤ)=s.wait+1) :
    QInv size (fun _ => 0) (joinStep s c headIdx) := by
  have hroom := h.room
  have hcore : s.core c=⟨.redeem headIdx false,(s.core c).sense⟩ := by rw [←hpc]
  have hdid : (s.core c).did=false := by
    rw [hcore]
    rfl
  have hsense := h.senses c hdid
  have hothers : ∀ d, d≠c → (s.core d).waits s.sense=true := fun d hd =>
    h.others_wait hdid hlast hd
  unfold joinStep
  rw [if_pos hlast]
  generalize hs' : ({ s with
    sense := !(s.core c).sense, wait := 0, tail := 0, head := 0,
    core := Function.update s.core c ⟨.redeem headIdx true,!(s.core c).sense⟩,
    trace := .declared c::s.trace } : QState N)=s'
  -- every core has joined with the sense that is now the global one
  have hreleased : ∀ d, (s'.core d).released s'.sense=true ∧ (s'.core d).waits s'.sense=false ∧
      (s'.core d).did=true ∧ (s.core d).released s.sense=false := by
    intro d
    rw [←hs']
    by_cases hd : d=c
    · rw [hd]
      show (Function.update s.core c _ c).released _=true ∧
        (Function.update s.core c _ c).waits _=false ∧ (Function.update s.core c _ c).did=true ∧ _
      rw [Function.update_self]
      obtain ⟨h1,h2⟩ := did_released (b := !(s.core c).sense)
        (k := ⟨.redeem headIdx true,!(s.core c).sense⟩) rfl rfl
      exact ⟨h2,h1,rfl,(not_did hdid).2⟩
    · have hw := hothers d hd
      have hdd : (s.core d).did=true := by
        unfold Core.waits at hw
        rw [Bool.and_eq_true] at hw
        exact hw.1
      have hds : (s.core d).sense≠s.sense := by
        intro he
        rw [(did_released hdd he).1] at hw
        cases hw
      show (Function.update s.core c _ d).released _=true ∧
        (Function.update s.core c _ d).waits _=false ∧ (Function.update s.core c _ d).did=true ∧ _
      rw [Function.update_of_ne hd]
      have hnew : (s.core d).sense=(!(s.core c).sense) := by
        rw [hsense]
        exact (flip_eq (Ne.symm hds)).symm
      obtain ⟨h1,h2⟩ := did_released hdd hnew
      exact ⟨h2,h1,hdd,(did_waits hdd hds).2⟩
  have hnone : waiters s'=0 := by
    refine Finset.card_eq_zero.mpr (Finset.filter_eq_empty_iff.mpr fun d _ hd => ?_)
    rw [(hreleased d).2.1] at hd
    cases hd
  have hfree : (fun d => ticket s'.sense (s'.core d))=fun _ => none := by
    funext d
    exact ticket_released (hreleased d).1
  have htail : s'.tail=0 := by rw [←hs']
  have hhead : s'.head=0 := by rw [←hs']
  have hempty : pending s' (fun _ => 0)=∅ := by
    unfold pending
    rw [htail]
    rfl
  refine ⟨?_,?_,?_,?_,?_,?_,?_,?_,?_,?_⟩
  · rw [←hs']
    exact h.running
  · rw [hfree,htail,hhead]
    exact TicketDispenser.Inv.initial
  · rw [hempty,←hs']
    exact hz
  · intro d
    have hold := h.delivered d
    rw [h.nothing_pending hz] at hold
    rw [hempty,←hs']
    exact hold
  · rw [htail]
    omega
  · rw [hnone,←hs']
    rfl
  · rw [hnone]
    exact hN
  · intro d hd
    rw [(hreleased d).2.2.1] at hd
    cases hd
  · intro d
    have hsynced := h.synced (hreleased d).2.2.2
    rw [(hreleased d).1,←hs']
    show syncs s d+1=(Event.declared c::s.trace).countP isDeclared
    rw [List.countP_cons,hsynced]
    rfl
  · intro hpos
    rw [htail,hhead] at hpos
    cases hpos

/-- A released core returns from the barrier, and from then on its index is gone. It draws a new one
in its next call. -/
theorem QInv.leave (h : QInv size redeemed s) {headIdx : ℕ}
    (hpc : (s.core c).pc=.redeem headIdx true) (hs : s.sense=(s.core c).sense) :
    QInv size redeemed { s with
      core := Function.update s.core c ⟨.ready,(s.core c).sense⟩
      trace := .sync c::s.trace } := by
  have hwait := h.wait
  have hmissing := h.missing
  have hcore : s.core c=⟨.redeem headIdx true,(s.core c).sense⟩ := by rw [←hpc]
  have hdid : (s.core c).did=true := by
    rw [hcore]
    rfl
  obtain ⟨hwaits,hreleased⟩ := did_released hdid hs.symm
  have hticket := ticket_released hreleased
  have hreturns := h.returns c
  rw [hreleased] at hreturns
  refine h.move (c := c) (k := ⟨.ready,(s.core c).sense⟩) rfl rfl rfl h.running ?_ h.count
    h.delivered h.room ?_ ?_ (fun _ => hs.symm) ?_ ?_ rfl
  · show TicketDispenser.Inv (Function.update _ c none) s.tail redeemed s.head
    rw [←hticket,Function.update_eq_self]
    exact h.tickets
  · rw [hwaits]
    rfl
  · show s.wait<N
    omega
  · show (Event.sync c::s.trace).countP (isSync c)=declares s
    have hself : isSync c (.sync c)=true := decide_eq_true rfl
    rw [List.countP_cons,if_pos hself]
    exact hreturns
  · intro d hd
    show (Event.sync c::s.trace).countP (isSync d)=syncs s d
    rw [List.countP_cons,if_neg]
    · rfl
    · intro he
      exact hd (of_decide_eq_true he).symm

/-- One turn keeps the invariant if the queue has room and no released core uses its old index. The
second condition is where the source goes wrong. -/
theorem qInv_step (hN : 0<N) (h : QInv size redeemed s) {turn : QTurn N} (hroom : Roomy size s turn)
    (hsettled : Settled s turn) : ∃ redeemed', QInv size redeemed' (step size s turn.1 turn.2) := by
  obtain ⟨c,choice⟩ := turn
  have hrun := h.running
  unfold Roomy at hroom
  unfold Settled at hsettled
  dsimp only at hroom hsettled ⊢
  unfold step
  rw [if_neg (by rw [hrun]; exact fun h => by cases h)]
  cases hpc : (s.core c).pc with
  | ready =>
    have hout : (s.core c).inside=false := by
      unfold Core.inside
      rw [hpc]
    refine ⟨redeemed,h.quiet hout ?_⟩
    cases choice <;> rfl
  | enqueue tdesc =>
    have hout : (s.core c).inside=false := by
      unfold Core.inside
      rw [hpc]
    rw [hpc] at hroom
    exact ⟨redeemed,h.enqueue hout rfl (hroom rfl) tdesc⟩
  | loop start totIters itersPerTask tdesc =>
    have hout : (s.core c).inside=false := by
      unfold Core.inside
      rw [hpc]
    rw [hpc] at hroom
    dsimp only
    by_cases hmore : start<totIters
    · rw [if_pos hmore]
      refine ⟨redeemed,h.enqueue hout rfl (hroom ?_) _⟩
      simp only [offered,if_pos hmore,Option.isSome_some]
    · rw [if_neg hmore]
      exact ⟨redeemed,h.quiet hout rfl⟩
  | reserve =>
    have hout : (s.core c).inside=false := by
      unfold Core.inside
      rw [hpc]
    exact ⟨redeemed,h.reserve hout⟩
  | redeem headIdx did =>
    dsimp only
    unfold dequeueStep
    by_cases hcount : 0 < s.count
    · rw [if_pos hcount]
      by_cases hlt : headIdx < s.tail
      · rw [if_pos hlt]
        refine h.take hpc ?_ hlt
        -- a released core would have to find its old index below the tail
        cases did with
        | false =>
          have hdid : (s.core c).did=false := by
            unfold Core.did
            rw [hpc]
          exact (not_did hdid).2
        | true =>
          have hdid : (s.core c).did=true := by
            unfold Core.did
            rw [hpc]
          exact (did_waits hdid fun he => hsettled headIdx hpc he hcount hlt).2
      · rw [if_neg hlt]
        exact ⟨redeemed,h⟩
    · rw [if_neg hcount]
      have hz : s.count=0 := by omega
      cases did with
      | false =>
        rw [if_pos rfl]
        by_cases hlast : (N : ℤ)=s.wait+1
        · exact ⟨_,h.declare hN hpc hz hlast⟩
        · exact ⟨redeemed,h.join hpc hlast⟩
      | true =>
        rw [if_neg (fun h => by cases h)]
        by_cases hs : s.sense=(s.core c).sense
        · rw [if_pos hs]
          exact ⟨redeemed,h.leave hpc hs⟩
        · rw [if_neg hs]
          exact ⟨redeemed,h⟩

/-- A core inside the loop, with its index. -/
theorem inside_pc (h : k.inside=true) : ∃ headIdx did, k.pc=.redeem headIdx did := by
  obtain ⟨pc,b⟩ := k
  cases pc with
  | redeem headIdx did => exact ⟨headIdx,did,rfl⟩
  | _ => cases h

/-- When a task is pending and every core is inside, some core of the phase has its index below
the tail. -/
theorem QInv.taker (h : QInv size redeemed s) (hall : ∀ c, (s.core c).inside=true)
    (hcount : 0 < s.count) :
    ∃ c headIdx, ticket s.sense (s.core c)=some headIdx ∧ headIdx < s.tail := by
  rw [h.count] at hcount
  obtain ⟨i,hi⟩ := Finset.card_pos.1 hcount
  obtain ⟨hrange,hzero⟩ := Finset.mem_filter.1 hi
  have hlt := Finset.mem_range.1 hrange
  by_cases hhead : i < s.head
  · rcases h.tickets.cover i hhead with hone|⟨c,hc⟩
    · omega
    · exact ⟨c,i,hc,hlt⟩
  · -- all indices that were drawn are below the pending task
    obtain ⟨c,hc⟩ := h.started (by omega)
    obtain ⟨headIdx,did,hpc⟩ := inside_pc (hall c)
    have hcore : s.core c=⟨.redeem headIdx did,(s.core c).sense⟩ := by rw [←hpc]
    have hticket : ticket s.sense (s.core c)=some headIdx := by
      rw [hcore] at hc ⊢
      exact ticket_redeem hc
    have hbelow := h.tickets.below c headIdx hticket
    exact ⟨c,headIdx,hticket,by omega⟩

/-- When every core is inside `TaskQueue_Dequeue`, some core takes a task, joins the barrier or
returns from it. -/
theorem QInv.progress (h : QInv size redeemed s) (hall : ∀ c, (s.core c).inside=true) :
    ∃ c, ∀ choice, ((step size s c choice).core c).pc≠(s.core c).pc := by
  have hrun := h.running
  have hwait := h.wait
  have hnorun : ¬s.aborted=true := by
    rw [hrun]
    exact fun h => by cases h
  by_cases hcount : 0 < s.count
  · obtain ⟨c,headIdx,hticket,hlt⟩ := h.taker hall hcount
    refine ⟨c,fun choice => ?_⟩
    obtain ⟨i,did,hpc⟩ := inside_pc (hall c)
    have hcore : s.core c=⟨.redeem i did,(s.core c).sense⟩ := by rw [←hpc]
    have hrel : (s.core c).released s.sense=false := by
      by_contra hne
      rw [ticket_released (by simpa using hne)] at hticket
      cases hticket
    have hi : i=headIdx := by
      rw [hcore] at hrel hticket
      rw [ticket_redeem hrel] at hticket
      exact Option.some.inj hticket
    unfold step
    rw [if_neg hnorun,hpc]
    dsimp only
    unfold dequeueStep
    rw [if_pos hcount,hi,if_pos hlt]
    unfold takeStep
    cases did with
    | false =>
      rw [if_neg (fun h => by cases h)]
      dsimp only
      rw [Function.update_self]
      exact fun h => by cases h
    | true =>
      have hdid : (s.core c).did=true := by
        unfold Core.did
        rw [hpc]
      have hne : (s.core c).sense≠s.sense := by
        intro he
        rw [(did_released hdid he).2] at hrel
        cases hrel
      have hone : 0<waiters s := Finset.card_pos.mpr
        ⟨c,Finset.mem_filter.2 ⟨Finset.mem_univ c,(did_waits hdid hne).1⟩⟩
      rw [if_pos rfl,if_neg (show ¬s.wait-1<0 by omega)]
      dsimp only
      rw [Function.update_self]
      exact fun h => by cases h
  · by_cases hjoin : ∃ c, (s.core c).did=false
    · obtain ⟨c,hdid⟩ := hjoin
      refine ⟨c,fun choice => ?_⟩
      obtain ⟨i,did,hpc⟩ := inside_pc (hall c)
      have hfalse : did=false := by
        unfold Core.did at hdid
        rw [hpc] at hdid
        exact hdid
      subst hfalse
      unfold step
      rw [if_neg hnorun,hpc]
      dsimp only
      unfold dequeueStep
      rw [if_neg hcount,if_pos rfl]
      unfold joinStep
      split
      · dsimp only
        rw [Function.update_self]
        exact fun h => by cases h
      · dsimp only
        rw [Function.update_self]
        exact fun h => by cases h
    · have hdid : ∀ c, (s.core c).did=true := fun c => by
        by_contra hne
        exact hjoin ⟨c,by simpa using hne⟩
      -- not all cores wait, so one of them was released
      obtain ⟨c,hc⟩ : ∃ c, (s.core c).sense=s.sense := by
        by_contra hnone
        have hfull : waiters s=N := by
          have huniv : (Finset.univ.filter fun c => (s.core c).waits s.sense=true)=Finset.univ :=
            Finset.filter_true_of_mem fun c _ =>
              (did_waits (hdid c) fun he => hnone ⟨c,he⟩).1
          unfold waiters
          rw [huniv,Finset.card_univ,Fintype.card_fin]
        have hmissing := h.missing
        omega
      refine ⟨c,fun choice => ?_⟩
      obtain ⟨i,did,hpc⟩ := inside_pc (hall c)
      have htrue : did=true := by
        have hd := hdid c
        unfold Core.did at hd
        rw [hpc] at hd
        exact hd
      subst htrue
      unfold step
      rw [if_neg hnorun,hpc]
      dsimp only
      unfold dequeueStep
      rw [if_neg hcount,if_neg (fun h => by cases h),if_pos hc.symm]
      dsimp only
      rw [Function.update_self]
      exact fun h => by cases h

/-- Only the last core to join an empty queue's barrier declares it, and then every core has joined
since the last declaration. -/
theorem declares_step {turn : QTurn N} (hdecl : (step size s turn.1 turn.2).sense≠s.sense ∨
      declares (step size s turn.1 turn.2)≠declares s) :
    s.count=0 ∧ (s.core turn.1).inside=true ∧ (s.core turn.1).did=false ∧
      (N : ℤ)=s.wait+1 := by
  obtain ⟨c,choice⟩ := turn
  dsimp only at hdecl ⊢
  by_contra hnot
  refine absurd hdecl (not_or.2 ?_)
  rw [not_not,not_not]
  unfold step
  by_cases hrun : s.aborted=true
  · rw [if_pos hrun]
    exact ⟨rfl,rfl⟩
  rw [if_neg hrun]
  have henqueue : ∀ tdesc next, (enqueueStep size s c tdesc next).sense=s.sense ∧
      declares (enqueueStep size s c tdesc next)=declares s := by
    intro tdesc next
    unfold enqueueStep
    split <;> exact ⟨rfl,rfl⟩
  cases hpc : (s.core c).pc with
  | ready => exact ⟨rfl,rfl⟩
  | enqueue tdesc => exact henqueue tdesc .ready
  | loop start totIters itersPerTask tdesc =>
    dsimp only
    split
    · exact henqueue _ _
    · exact ⟨rfl,rfl⟩
  | reserve => exact ⟨rfl,rfl⟩
  | redeem headIdx did =>
    dsimp only
    unfold dequeueStep
    by_cases hcount : 0 < s.count
    · rw [if_pos hcount]
      split
      · unfold takeStep
        split
        · split <;> exact ⟨rfl,rfl⟩
        · exact ⟨rfl,rfl⟩
      · exact ⟨rfl,rfl⟩
    · rw [if_neg hcount]
      cases did with
      | false =>
        rw [if_pos rfl]
        unfold joinStep
        by_cases hlast : (N : ℤ)=s.wait+1
        · refine absurd ⟨by omega,?_,?_,hlast⟩ hnot
          · unfold Core.inside
            rw [hpc]
          · unfold Core.did
            rw [hpc]
        · rw [if_neg hlast]
          exact ⟨rfl,rfl⟩
      | true =>
        rw [if_neg (fun h => by cases h)]
        split <;> exact ⟨rfl,rfl⟩

end Move

/-- Phases have fewer tasks and cores than the queue has entries, and no released core uses its
old index. -/
def Allowed (size : ℕ) (s : QState N) (turn : QTurn N) : Prop := Roomy size s turn ∧ Settled s turn

instance (size : ℕ) (s : QState N) (turn : QTurn N) : Decidable (Allowed size s turn) :=
  inferInstanceAs (Decidable (Roomy size s turn ∧ Settled s turn))

/-- The invariant holds in every reached state. -/
theorem qInv_reachable {size : ℕ} (hN : 0<N) (hsize : N < size) {s : QState N}
    (hs : Reachable size (Allowed size) s) : ∃ redeemed, QInv size redeemed s := by
  induction hs with
  | init => exact ⟨_,qInv_initial hN hsize⟩
  | move turn _ hallowed ih =>
    obtain ⟨redeemed,h⟩ := ih
    exact qInv_step hN h hallowed.1 hallowed.2

/-- In every reached state a descriptor was not returned more often than it was enqueued; with
an empty queue, and so at every barrier, each enqueued descriptor was returned; and as long as
every core is inside `TaskQueue_Dequeue` some core goes on. -/
theorem tasks_delivered_once {size : ℕ} (hN : 0<N) (hsize : N < size) {s : QState N}
    (hs : Reachable size (Allowed size) s) :
    (∀ d, successes s d≤enqueues s d) ∧
    (s.count=0 → ∀ d, successes s d=enqueues s d) ∧
    (∀ turn : QTurn N, declares (step size s turn.1 turn.2)≠declares s →
      ∀ d, successes s d=enqueues s d) ∧
    ((∀ c, (s.core c).inside=true) →
      ∃ c, ∀ choice, ((step size s c choice).core c).pc≠(s.core c).pc) := by
  obtain ⟨redeemed,h⟩ := qInv_reachable hN hsize hs
  have hempty : s.count=0 → ∀ d, successes s d=enqueues s d := by
    intro hz d
    have hd := h.delivered d
    rw [h.nothing_pending hz] at hd
    exact hd.symm
  refine ⟨?_,hempty,?_,h.progress⟩
  · intro d
    have hd := h.delivered d
    omega
  · intro turn hdecl
    exact hempty (declares_step (.inr hdecl)).1

/-- A task descriptor. -/
def firstTask : TaskDesc := ⟨42,21,0,8⟩

/-- Another task descriptor. -/
def secondTask : TaskDesc := ⟨42,21,8,16⟩

/-- Core `c` calls `TaskQueue_Dequeue`, draws an index and runs one round of the loop. -/
def dequeueOnce {N : ℕ} (c : Fin N) : List (QTurn N) := [(c,.dequeue),(c,.stay),(c,.stay)]

/-- Core `c` enqueues a task. -/
def enqueueOnce {N : ℕ} (c : Fin N) (tdesc : TaskDesc) : List (QTurn N) :=
  [(c,.enqueue tdesc),(c,.stay)]

/-- Core 0 enqueues a task and takes it; then core 1 joins the barrier. -/
def oneTask : List (QTurn 2) :=
  enqueueOnce ⟨0,Nat.two_pos⟩ firstTask++dequeueOnce ⟨0,Nat.two_pos⟩++
    dequeueOnce ⟨1,Nat.one_lt_two⟩

/-- The task was enqueued once and returned once. -/
theorem tasks_delivered_once_one :
    successes (run 8 (initial 2) oneTask) firstTask=1 ∧
    successes (run 8 (initial 2) oneTask) firstTask=enqueues (run 8 (initial 2) oneTask)
      firstTask := by
  have hs : Reachable 8 (Allowed 8) (run 8 (initial 2) oneTask) :=
    .of_allows .init (by decide +kernel)
  have h := tasks_delivered_once (by decide) (by decide) hs
  exact ⟨by decide +kernel,h.2.1 (by decide +kernel) firstTask⟩

/-- Four cores join a barrier; all but core 0 leave it. Cores 2 and 3 draw indices 0 and 1 and
join the next barrier, and core 1 enqueues two tasks. Core 0 takes the first task with the index
that it drew before the barrier, and then core 2 takes it with its own. -/
def oldIndexRun : List (QTurn 4) :=
  dequeueOnce ⟨0,by decide⟩++dequeueOnce ⟨1,by decide⟩++dequeueOnce ⟨2,by decide⟩++
    dequeueOnce ⟨3,by decide⟩++
    [(⟨1,by decide⟩,.stay),(⟨2,by decide⟩,.stay),(⟨3,by decide⟩,.stay)]++
    dequeueOnce ⟨2,by decide⟩++dequeueOnce ⟨3,by decide⟩++
    enqueueOnce ⟨1,by decide⟩ firstTask++enqueueOnce ⟨1,by decide⟩ secondTask++
    [(⟨0,by decide⟩,.stay),(⟨2,by decide⟩,.stay)]

/-- The first task was enqueued once and returned twice; the queue is empty and the second task
was not returned. -/
theorem task_delivered_twice :
    ∃ s : QState 4, Reachable 16 (Roomy 16) s ∧ enqueues s firstTask=1 ∧
      successes s firstTask=2 ∧ s.count=0 ∧ enqueues s secondTask=1 ∧
      successes s secondTask=0 := by
  have hs : Reachable 16 (Roomy 16) (run 16 (initial 4) oldIndexRun) :=
    .of_allows .init (by decide +kernel)
  exact ⟨_,hs,by decide +kernel,by decide +kernel,by decide +kernel,by decide +kernel,
    by decide +kernel⟩

/-- In every reached state every core has returned `TQ_RET_SYNC` once for each declared barrier,
or once less while it is about to; the barrier is declared only with an empty queue, with every
core inside `TaskQueue_Dequeue` and after all have returned from the barriers before; the wait
count is the number of cores that wait; no assertion has failed; and as long as every core is
inside some core goes on. -/
theorem barrier_agreement {size : ℕ} (hN : 0<N) (hsize : N < size) {s : QState N}
    (hs : Reachable size (Allowed size) s) :
    (∀ c, syncs s c+((s.core c).released s.sense).toNat=declares s) ∧
    (∀ turn : QTurn N, (step size s turn.1 turn.2).sense≠s.sense ∨
        declares (step size s turn.1 turn.2)≠declares s →
      s.count=0 ∧ (∀ c, (s.core c).inside=true) ∧ ∀ c, syncs s c=declares s) ∧
    s.wait=((Finset.univ.filter fun c =>
      (s.core c).did=true ∧ (s.core c).sense≠s.sense).card : ℤ) ∧
    s.aborted=false ∧
    ((∀ c, (s.core c).inside=true) →
      ∃ c, ∀ choice, ((step size s c choice).core c).pc≠(s.core c).pc) := by
  obtain ⟨redeemed,h⟩ := qInv_reachable hN hsize hs
  refine ⟨h.returns,?_,?_,h.running,h.progress⟩
  · intro turn hdecl
    obtain ⟨hz,hinside,hdid,hlast⟩ := declares_step hdecl
    have hothers : ∀ c, c≠turn.1 → (s.core c).did=true ∧ (s.core c).sense≠s.sense := by
      intro c hc
      have hw := h.others_wait hdid hlast hc
      unfold Core.waits at hw
      rw [Bool.and_eq_true,decide_eq_true_eq] at hw
      exact hw
    refine ⟨hz,?_,?_⟩
    · intro c
      by_cases hc : c=turn.1
      · rw [hc]
        exact hinside
      · have hd := (hothers c hc).1
        by_contra hout
        rw [(outside_core s.sense (by simpa using hout)).1] at hd
        cases hd
    · intro c
      by_cases hc : c=turn.1
      · rw [hc]
        exact h.synced (not_did hdid).2
      · obtain ⟨hd,hne⟩ := hothers c hc
        exact h.synced (did_waits hd hne).2
  · rw [h.wait]
    unfold waiters
    congr 2
    refine Finset.filter_congr fun c _ => ?_
    unfold Core.waits
    rw [Bool.and_eq_true,decide_eq_true_eq]

/-- Both cores join the barrier, which is declared, and core 1 returns from it. -/
def oneBarrier : List (QTurn 2) :=
  dequeueOnce ⟨0,Nat.two_pos⟩++dequeueOnce ⟨1,Nat.one_lt_two⟩++[(⟨1,Nat.one_lt_two⟩,.stay)]

/-- Core 1 has returned from the only barrier and core 0 is about to: returns differ by at most
one. -/
theorem barrier_agreement_one :
    declares (run 8 (initial 2) oneBarrier)=1 ∧
    syncs (run 8 (initial 2) oneBarrier) ⟨0,Nat.two_pos⟩+
      (((run 8 (initial 2) oneBarrier).core ⟨0,Nat.two_pos⟩).released
        (run 8 (initial 2) oneBarrier).sense).toNat=declares (run 8 (initial 2) oneBarrier) := by
  have hs : Reachable 8 (Allowed 8) (run 8 (initial 2) oneBarrier) :=
    .of_allows .init (by decide +kernel)
  have h := barrier_agreement (by decide) (by decide) hs
  exact ⟨by decide +kernel,h.1 ⟨0,Nat.two_pos⟩⟩

/-- Core 1 enqueues a task after the barrier, and core 0 takes it before it returns from the
barrier: the wait count is negative and the assertion fails. -/
theorem barrier_assertion_fails :
    ∃ s : QState 2, Reachable 8 (Roomy 8) s ∧ s.aborted=true ∧ s.wait=-1 := by
  have hs : Reachable 8 (Roomy 8) (run 8 (initial 2)
      (oneBarrier++enqueueOnce ⟨1,Nat.one_lt_two⟩ firstTask++[(⟨0,Nat.two_pos⟩,.stay)])) :=
    .of_allows .init (by decide +kernel)
  exact ⟨_,hs,by decide +kernel,by decide +kernel⟩

end RigelTarget.X86TaskDelivery
