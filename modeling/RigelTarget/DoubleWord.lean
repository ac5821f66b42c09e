import Mathlib

/-!
# Words and double words

A number of two words is shifted word by word: by less than a word the two exchange bits, by a word
or more one of them becomes zero. The leading zeros of a word give the powers of two around it.
-/

namespace RigelTarget.DoubleWord

variable {w s : ℕ}

/-- The value of two words. -/
theorem toNat_words (high low : BitVec w) : (high++low).toNat=high.toNat*2^w+low.toNat := by
  rw [BitVec.toNat_append,←Nat.shiftLeft_add_eq_or_of_lt low.isLt,Nat.shiftLeft_eq]

/-- A shift to the right by at most a word. -/
theorem ushiftRight_le (hs : s≤w) (high low : BitVec w) :
    (high++low)>>>s=(high>>>s)++(high<<<(w-s)|||low>>>s) := by
  ext i hi
  simp only [BitVec.getElem_ushiftRight,BitVec.getLsbD_append,BitVec.getElem_append,
    BitVec.getElem_or,BitVec.getElem_shiftLeft]
  grind

/-- A shift to the right by at least a word. -/
theorem ushiftRight_ge (hs : w ≤ s) (high low : BitVec w) :
    (high++low)>>>s=0#w++high>>>(s-w) := by
  ext i hi
  simp only [BitVec.getElem_ushiftRight,BitVec.getLsbD_append,BitVec.getElem_append,
    BitVec.getElem_zero]
  grind

/-- A shift to the left by at most a word. -/
theorem shiftLeft_le (hs : s≤w) (high low : BitVec w) :
    (high++low)<<<s=(high<<<s|||low>>>(w-s))++low<<<s := by
  ext i hi
  simp only [BitVec.getElem_ushiftRight,BitVec.getElem_append,BitVec.getElem_or,
    BitVec.getElem_shiftLeft]
  grind

/-- A shift to the left by at least a word. -/
theorem shiftLeft_ge (hs : w ≤ s) (high low : BitVec w) :
    (high++low)<<<s=low<<<(s-w)++0#w := by
  ext i hi
  simp only [BitVec.getElem_append,BitVec.getElem_zero,BitVec.getElem_shiftLeft]
  grind

/-- The words of a number. -/
theorem words_of (a : BitVec (w+w)) : (a>>>w).setWidth w++a.setWidth w=a := by
  ext i hi
  simp only [BitVec.getElem_append,BitVec.getElem_setWidth,BitVec.getLsbD_ushiftRight]
  grind

/-- The powers of two around a number, by its leading zeros. -/
theorem clz_bounds {x : BitVec w} (hx : x≠0) :
    x.clz.toNat < w ∧ 2^(w-1-x.clz.toNat)≤x.toNat ∧ x.toNat<2^(w-x.clz.toNat) := by
  have hlt : x.clz.toNat < w :=
    (BitVec.lt_def.1 (BitVec.clz_lt_iff_ne_zero.2 hx)).trans_le (Nat.mod_le _ _)
  exact ⟨hlt,BitVec.two_pow_sub_clz_le_toNat_of_ne_zero (by omega) hx,
    BitVec.toNat_lt_two_pow_sub_clz⟩

/-- The leading zeros of a number between two powers of two. -/
theorem clz_unique {x : BitVec w} {k : ℕ} (hk : k < w) (hlow : 2^(w-1-k)≤x.toNat)
    (hhigh : x.toNat<2^(w-k)) : x.clz.toNat=k := by
  have hx : x≠0 := fun hzero => by
    rw [hzero] at hlow
    exact absurd hlow (not_le.2 (Nat.two_pow_pos _))
  obtain ⟨hlt,hle,hless⟩ := clz_bounds hx
  have h1 := (Nat.pow_lt_pow_iff_right Nat.one_lt_two).1 (hlow.trans_lt hless)
  have h2 := (Nat.pow_lt_pow_iff_right Nat.one_lt_two).1 (hle.trans_lt hhigh)
  omega

end RigelTarget.DoubleWord
