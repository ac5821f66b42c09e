import Mathlib.Data.Fintype.Card
import Mathlib.Data.Finset.Card
import Mathlib.Order.Interval.Finset.Nat

/-!
# Tickets that may run ahead of the published items

Finitely many parties draw consecutive tickets and hold at most one each. A ticket
below the number of published items can be redeemed once; the others wait for
further items. Since every ticket that was issued is redeemed or held, the tickets
are at most one per party ahead of the items, and when they are that far ahead all
items were redeemed and every party waits.
-/

namespace RigelTarget.TicketDispenser

variable {C : Type} {held : C → Option ℕ} {items issued : ℕ} {redeemed : ℕ → ℕ}

/-- The tickets held, the items published, how often each ticket was redeemed and how many
tickets were issued. -/
structure Inv (held : C → Option ℕ) (items : ℕ) (redeemed : ℕ → ℕ) (issued : ℕ) : Prop where
  /-- Held tickets were issued. -/
  below : ∀ c i, held c=some i → i < issued
  /-- No two parties hold one ticket. -/
  distinct : ∀ c d i, held c=some i → held d=some i → c=d
  /-- An issued ticket was redeemed or is held. -/
  cover : ∀ i, i < issued → redeemed i=1 ∨ ∃ c, held c=some i
  /-- A redeemed ticket was redeemed once, for a published item, and is not held. -/
  spent : ∀ i, redeemed i≠0 → redeemed i=1 ∧ i < items ∧ i < issued ∧ ∀ c, held c≠some i

/-- Nobody holds a ticket at the start. -/
theorem Inv.initial : Inv (fun _ : C => none) 0 (fun _ => 0) 0 :=
  ⟨(fun _ _ h => by cases h),(fun _ _ _ h => by cases h),
    fun _ h => absurd h (Nat.not_lt_zero _),fun _ h => absurd rfl h⟩

/-- A further item keeps the tickets. -/
theorem Inv.publish (h : Inv held items redeemed issued) {items' : ℕ} (hle : items ≤ items') :
    Inv held items' redeemed issued := by
  refine ⟨h.below,h.distinct,h.cover,fun i hi => ?_⟩
  obtain ⟨h1,h2,h3,h4⟩ := h.spent i hi
  exact ⟨h1,by omega,h3,h4⟩

section Draw

variable [DecidableEq C]

/-- A party without a ticket draws the next one. Tickets that are out stay apart, since the new one
is greater than all of them. -/
theorem Inv.draw (h : Inv held items redeemed issued) {c : C} (hc : held c=none) :
    Inv (Function.update held c (some issued)) items redeemed (issued+1) := by
  have hself : ∀ d i, Function.update held c (some issued) d=some i →
      (d=c ∧ i=issued) ∨ (d≠c ∧ held d=some i) := by
    intro d i hd
    by_cases hdc : d=c
    · rw [hdc,Function.update_self] at hd
      exact .inl ⟨hdc,(Option.some.inj hd).symm⟩
    · rw [Function.update_of_ne hdc] at hd
      exact .inr ⟨hdc,hd⟩
  constructor
  · intro d i hd
    rcases hself d i hd with ⟨-,hi⟩|⟨-,hi⟩
    · omega
    · have := h.below d i hi
      omega
  · intro d d' i hd hd'
    rcases hself d i hd with ⟨hdc,hi⟩|⟨-,hi⟩ <;> rcases hself d' i hd' with ⟨hdc',hi'⟩|⟨-,hi'⟩
    · rw [hdc,hdc']
    · have := h.below d' i hi'
      omega
    · have := h.below d i hi
      omega
    · exact h.distinct d d' i hi hi'
  · intro i hi
    by_cases hn : i=issued
    · exact .inr ⟨c,by rw [hn,Function.update_self]⟩
    · rcases h.cover i (by omega) with hr|⟨d,hd⟩
      · exact .inl hr
      · refine .inr ⟨d,?_⟩
        rw [Function.update_of_ne]
        · exact hd
        · rintro rfl
          rw [hc] at hd
          cases hd
  · intro i hi
    obtain ⟨h1,h2,h3,h4⟩ := h.spent i hi
    refine ⟨h1,h2,by omega,fun d hd => ?_⟩
    rcases hself d i hd with ⟨-,hi'⟩|⟨-,hi'⟩
    · omega
    · exact h4 d hi'

/-- A party redeems its ticket for a published item. Since tickets are apart, nobody else redeems
the same item later. -/
theorem Inv.redeem (h : Inv held items redeemed issued) {c : C} {i : ℕ} (hc : held c=some i)
    (hi : i < items) :
    Inv (Function.update held c none) items (Function.update redeemed i (redeemed i+1)) issued := by
  have hzero : redeemed i=0 := by
    by_contra hne
    exact (h.spent i hne).2.2.2 c hc
  have hself : ∀ d j, Function.update held c none d=some j → d≠c ∧ held d=some j := by
    intro d j hd
    by_cases hdc : d=c
    · rw [hdc,Function.update_self] at hd
      cases hd
    · rw [Function.update_of_ne hdc] at hd
      exact ⟨hdc,hd⟩
  constructor
  · intro d j hd
    exact h.below d j (hself d j hd).2
  · intro d d' j hd hd'
    exact h.distinct d d' j (hself d j hd).2 (hself d' j hd').2
  · intro j hj
    by_cases hji : j=i
    · rw [hji,Function.update_self,hzero]
      exact .inl rfl
    · rw [Function.update_of_ne hji]
      refine (h.cover j hj).imp id fun ⟨d,hd⟩ => ⟨d,?_⟩
      rw [Function.update_of_ne]
      · exact hd
      · rintro rfl
        rw [hc] at hd
        exact hji (Option.some.inj hd).symm
  · intro j hj
    by_cases hji : j=i
    · subst hji
      rw [Function.update_self,hzero]
      refine ⟨rfl,hi,h.below c j hc,fun d hd => ?_⟩
      obtain ⟨hdc,hd⟩ := hself d j hd
      exact hdc (h.distinct d c j hd hc)
    · rw [Function.update_of_ne hji] at hj ⊢
      obtain ⟨h1,h2,h3,h4⟩ := h.spent j hj
      exact ⟨h1,h2,h3,fun d hd => h4 d (hself d j hd).2⟩

end Draw

section Ahead

variable [Fintype C]

/-- The tickets ahead of the items are held. -/
theorem Inv.ahead_subset (h : Inv held items redeemed issued) :
    (Finset.Ico items issued).map ⟨some,Option.some_injective ℕ⟩⊆Finset.univ.image held := by
  intro o ho
  obtain ⟨i,hi,rfl⟩ := Finset.mem_map.mp ho
  obtain ⟨hlow,hhigh⟩ := Finset.mem_Ico.mp hi
  rcases h.cover i hhigh with hr|⟨c,hc⟩
  · have := (h.spent i (by omega)).2.1
    omega
  · exact Finset.mem_image.mpr ⟨c,Finset.mem_univ c,hc⟩

/-- At most one ticket per party is ahead of the items. -/
theorem Inv.issued_le (h : Inv held items redeemed issued) : issued ≤ items+Fintype.card C := by
  have hcard := Finset.card_le_card h.ahead_subset
  rw [Finset.card_map,Nat.card_Ico] at hcard
  have himage := Finset.card_image_le (s := Finset.univ) (f := held)
  rw [Finset.card_univ] at himage
  omega

/-- When one ticket per party is ahead of the items, every party holds one of them. -/
theorem Inv.held_ahead (h : Inv held items redeemed issued) (hfull : items+Fintype.card C ≤ issued)
    (c : C) : ∃ i, held c=some i ∧ items ≤ i := by
  have himage := Finset.card_image_le (s := Finset.univ) (f := held)
  rw [Finset.card_univ] at himage
  have heq := Finset.eq_of_subset_of_card_le h.ahead_subset (by
    rw [Finset.card_map,Nat.card_Ico]
    omega)
  have hmem : held c∈Finset.univ.image held := Finset.mem_image_of_mem held (Finset.mem_univ c)
  rw [←heq] at hmem
  obtain ⟨i,hi,hc⟩ := Finset.mem_map.mp hmem
  exact ⟨i,hc.symm,(Finset.mem_Ico.mp hi).1⟩

/-- When one ticket per party is ahead of the items, all items were redeemed. -/
theorem Inv.all_redeemed (h : Inv held items redeemed issued)
    (hfull : items+Fintype.card C ≤ issued) {i : ℕ} (hi : i < items) : redeemed i=1 := by
  refine (h.cover i (by omega)).resolve_right ?_
  rintro ⟨c,hc⟩
  obtain ⟨j,hj,hle⟩ := h.held_ahead hfull c
  rw [hc] at hj
  have := Option.some.inj hj
  omega

/-- When one ticket per party is ahead of the items, the tickets can be taken back. -/
theorem Inv.recall (h : Inv held items redeemed issued)
    (hfull : items+Fintype.card C ≤ issued) : Inv (fun _ : C => none) items redeemed items := by
  refine ⟨(fun _ _ h => by cases h),(fun _ _ _ h => by cases h),?_,?_⟩
  · exact fun i hi => .inl (h.all_redeemed hfull hi)
  · intro i hi
    obtain ⟨h1,h2,-,-⟩ := h.spent i hi
    exact ⟨h1,h2,h2,fun _ h => by cases h⟩

end Ahead

end RigelTarget.TicketDispenser
