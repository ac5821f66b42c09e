import RigelTarget.IntrusiveList
import Mathlib.Data.List.Perm.Basic

/-!
# Items in custody

Items enter at a place with a note about their contents, are handed on between
places and leave with some contents. Entries of fresh items, exchanges between two
places and leaves of the only item of a place, with the contents of its note, keep
the books sound: an item is at one place at a time, and what entered is what left
and what the notes say of the items that are still there. When no place has an item
left, exactly what entered has left.
-/

namespace RigelTarget.Custody

open IntrusiveList

/-- Where the items are, their notes, and the contents that entered and left. The books are kept
beside a program, from its events alone. -/
structure Books (P V : Type) where
  /-- The items of a place. -/
  place : P → List ℕ
  /-- All items. -/
  items : List ℕ
  /-- The contents of an item. -/
  note : ℕ → V
  /-- The contents that entered, the latest first. -/
  entered : List V
  /-- The contents that left, the latest first. -/
  left : List V

section Moves

variable {P V : Type}

/-- Books without items. -/
def Books.empty (v : V) : Books P V := ⟨fun _ => [],[],fun _ => v,[],[]⟩

variable [DecidableEq P]

/-- An item enters at the end of a place, with a note of its contents. The note stays until it
leaves. -/
def Books.enter (b : Books P V) (x : P) (p : ℕ) (v : V) : Books P V where
  place := Function.update b.place x (b.place x++[p])
  items := p::b.items
  note := Function.update b.note p v
  entered := v::b.entered
  left := b.left

/-- Two places get other items. Nothing enters or leaves. -/
def Books.pass (b : Books P V) (x y : P) (l k : List ℕ) : Books P V where
  place := Function.update (Function.update b.place x l) y k
  items := b.items
  note := b.note
  entered := b.entered
  left := b.left

/-- An item leaves a place, which is empty then, and its contents are those of its note. -/
def Books.leave (b : Books P V) (x : P) (p : ℕ) (v : V) : Books P V where
  place := Function.update b.place x []
  items := b.items.filter (·≠p)
  note := b.note
  entered := b.entered
  left := v::b.left

/-- The items are at one place each, and their notes account for what has not left: what entered is
what left together with the notes of the items that are still somewhere. -/
structure Sound (b : Books P V) : Prop where
  /-- An item is at one place, once. -/
  owned : Owned b.place
  /-- The items are those at the places. -/
  known : ∀ p, p∈b.items ↔ ∃ x, p∈b.place x
  /-- No item is listed twice. -/
  nodup : b.items.Nodup
  /-- What entered has left or is noted. -/
  ledger : b.entered.Perm (b.left++b.items.map b.note)

variable {b : Books P V} {x y z : P} {p : ℕ} {v : V} {l k : List ℕ}

/-- The other places after an entry. -/
theorem enter_other (hx : z≠x) : (b.enter x p v).place z=b.place z := Function.update_of_ne hx ..

/-- The note of an item that entered. -/
theorem enter_note : (b.enter x p v).note p=v := Function.update_self ..

/-- The other places after an item has left. -/
theorem leave_other (hx : z≠x) : (b.leave x p v).place z=b.place z := Function.update_of_ne hx ..

/-- The first place after an exchange. -/
theorem pass_first (h : x≠y) : (b.pass x y l k).place x=l := by
  show Function.update _ _ _ _=_
  rw [Function.update_of_ne h,Function.update_self]

/-- The second place after an exchange. -/
theorem pass_second : (b.pass x y l k).place y=k := Function.update_self ..

/-- The other places after an exchange. -/
theorem pass_other (hx : z≠x) (hy : z≠y) : (b.pass x y l k).place z=b.place z :=
  (Function.update_of_ne hy ..).trans (Function.update_of_ne hx ..)

omit [DecidableEq P] in
/-- Books without items are sound. -/
theorem sound_empty : Sound (Books.empty v : Books P V) where
  owned := ⟨fun _ => List.nodup_nil,fun _ _ _ hp => by cases hp⟩
  known _ := ⟨fun hp => absurd hp List.not_mem_nil,fun ⟨_,hp⟩ => absurd hp List.not_mem_nil⟩
  nodup := List.nodup_nil
  ledger := .nil

omit [DecidableEq P] in
/-- An item of a place is listed. -/
theorem Sound.listed (h : Sound b) (hp : p∈b.place x) : p∈b.items := (h.known p).2 ⟨x,hp⟩

/-- A fresh item enters: it was at no place before, so it is at one place now, and its note is the
first. -/
theorem Sound.enter (h : Sound b) (hp : p∉b.items) : Sound (b.enter x p v) := by
  have hfree : ∀ y, p∉b.place y := fun y hy => hp (h.listed hy)
  have hnodup : (b.place x++[p]).Nodup :=
    List.nodup_append.2 ⟨h.owned.nodup x,List.nodup_singleton p,fun q hq r hr he =>
      hfree x (by rw [←List.mem_singleton.1 hr,←he]; exact hq)⟩
  refine ⟨h.owned.change hnodup fun q hq => ?_,fun q => ?_,List.nodup_cons.2 ⟨hp,h.nodup⟩,?_⟩
  · rcases List.mem_append.1 hq with hq|hq
    · exact .inl hq
    · rw [List.mem_singleton.1 hq]
      exact .inr hfree
  · show q∈p::b.items ↔ ∃ y, q∈Function.update b.place x (b.place x++[p]) y
    rw [List.mem_cons,h.known]
    constructor
    · rintro (rfl|⟨y,hy⟩)
      · exact ⟨x,by rw [Function.update_self]; exact List.mem_append_right _ List.mem_cons_self⟩
      · by_cases hyx : y=x
        · rw [hyx] at hy
          exact ⟨x,by rw [Function.update_self]; exact List.mem_append_left _ hy⟩
        · exact ⟨y,by rw [Function.update_of_ne hyx]; exact hy⟩
    · rintro ⟨y,hy⟩
      by_cases hyx : y=x
      · rw [hyx,Function.update_self] at hy
        rcases List.mem_append.1 hy with hy|hy
        · exact .inr ⟨x,hy⟩
        · exact .inl (List.mem_singleton.1 hy)
      · rw [Function.update_of_ne hyx] at hy
        exact .inr ⟨y,hy⟩
  · -- the notes of the other items stay
    have hmap : b.items.map (Function.update b.note p v)=b.items.map b.note :=
      List.map_congr_left fun q hq => by
      refine Function.update_of_ne ?_ _ _
      rintro rfl
      exact hp hq
    show (v::b.entered).Perm (b.left++(p::b.items).map (Function.update b.note p v))
    rw [List.map_cons,hmap,Function.update_self]
    exact (h.ledger.cons v).trans List.perm_middle.symm

/-- Two places exchange items: together they have the items that they had before, each at one of
them. -/
theorem Sound.pass (h : Sound b) (hxy : x≠y) (hperm : (l++k).Perm (b.place x++b.place y)) :
    Sound (b.pass x y l k) := by
  have hmem : ∀ q, q∈l++k ↔ q∈b.place x ∨ q∈b.place y := fun q => by
    rw [hperm.mem_iff,List.mem_append]
  have hnodup : (l++k).Nodup := by
    refine hperm.nodup_iff.2 (List.nodup_append.2 ⟨h.owned.nodup x,h.owned.nodup y,?_⟩)
    rintro q hq r hr rfl
    exact hxy (h.owned.apart x y q hq hr)
  refine ⟨h.owned.exchange hxy hnodup fun q hq => (hmem q).1 hq,fun q => ?_,h.nodup,h.ledger⟩
  show q∈b.items ↔ ∃ z, q∈Function.update (Function.update b.place x l) y k z
  rw [h.known]
  constructor
  · rintro ⟨z,hz⟩
    have hnew : q∈l++k → ∃ z, q∈Function.update (Function.update b.place x l) y k z := by
      intro hq
      rcases List.mem_append.1 hq with hq|hq
      · exact ⟨x,by rw [Function.update_of_ne hxy,Function.update_self]; exact hq⟩
      · exact ⟨y,by rw [Function.update_self]; exact hq⟩
    by_cases hx : z=x
    · exact hnew ((hmem q).2 (.inl (hx ▸ hz)))
    · by_cases hy : z=y
      · exact hnew ((hmem q).2 (.inr (hy ▸ hz)))
      · exact ⟨z,by rw [Function.update_of_ne hy,Function.update_of_ne hx]; exact hz⟩
  · rintro ⟨z,hz⟩
    have hold : q∈l++k → ∃ z, q∈b.place z := fun hq =>
      ((hmem q).1 hq).elim (fun hq => ⟨x,hq⟩) fun hq => ⟨y,hq⟩
    by_cases hy : z=y
    · rw [hy,Function.update_self] at hz
      exact hold (List.mem_append_right l hz)
    · rw [Function.update_of_ne hy] at hz
      by_cases hx : z=x
      · rw [hx,Function.update_self] at hz
        exact hold (List.mem_append_left k hz)
      · rw [Function.update_of_ne hx] at hz
        exact ⟨z,hz⟩

/-- The only item of a place leaves with the contents of its note, so what entered is still
accounted for. -/
theorem Sound.leave (h : Sound b) (hx : b.place x=[p]) : Sound (b.leave x p (b.note p)) := by
  have hp : p∈b.items := h.listed (x := x) (by rw [hx]; exact List.mem_cons_self)
  refine ⟨h.owned.change List.nodup_nil fun q hq => absurd hq List.not_mem_nil,fun q => ?_,
    h.nodup.filter _,?_⟩
  · show q∈b.items.filter (·≠p) ↔ ∃ y, q∈Function.update b.place x [] y
    rw [List.mem_filter,decide_eq_true_eq,h.known]
    constructor
    · rintro ⟨⟨y,hy⟩,hne⟩
      have hyx : y≠x := by
        rintro rfl
        rw [hx] at hy
        exact hne (List.mem_singleton.1 hy)
      exact ⟨y,by rw [Function.update_of_ne hyx]; exact hy⟩
    · rintro ⟨y,hy⟩
      by_cases hyx : y=x
      · rw [hyx,Function.update_self] at hy
        cases hy
      · rw [Function.update_of_ne hyx] at hy
        refine ⟨⟨y,hy⟩,?_⟩
        rintro rfl
        exact hyx (h.owned.apart y x q hy (by rw [hx]; exact List.mem_cons_self))
  · show b.entered.Perm (b.note p::b.left++(b.items.filter (·≠p)).map b.note)
    have hsplit : b.items.Perm (p::b.items.filter (·≠p)) := by
      have herase : b.items.erase p=b.items.filter (·≠p) := by
        rw [h.nodup.erase_eq_filter]
        exact List.filter_congr fun q _ => by by_cases hq : q=p <;> simp [hq]
      rw [←herase]
      exact List.perm_cons_erase hp
    refine h.ledger.trans (((hsplit.map b.note).append_left b.left).trans ?_)
    rw [List.map_cons]
    exact List.perm_middle

omit [DecidableEq P] in
/-- When no place has an item left, no item is listed. -/
theorem Sound.no_items (h : Sound b) (hempty : ∀ x, b.place x=[]) : b.items=[] := by
  refine List.eq_nil_iff_forall_not_mem.2 fun p hp => ?_
  obtain ⟨x,hx⟩ := (h.known p).1 hp
  rw [hempty x] at hx
  cases hx

omit [DecidableEq P] in
/-- When no place has an item left, exactly what entered has left. -/
theorem Sound.settled (h : Sound b) (hempty : ∀ x, b.place x=[]) : b.entered.Perm b.left := by
  have hledger := h.ledger
  rwa [h.no_items hempty,List.map_nil,List.append_nil] at hledger

end Moves

end RigelTarget.Custody
