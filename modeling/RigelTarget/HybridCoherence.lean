import RigelTarget.CacheLine
import Mathlib.Logic.Function.Basic

/-!
# The table of coherent lines

`__start` allocates a table with one bit for each 32-byte line of the address space and keeps
its address, rounded down to a line, in `hybridCC_base_addr`. `RigelSetCoherentLine` and
`RigelSetIncoherentLine` set and clear the bit of a line. The bits record the last operation on
every line, but the rounding moves the table out of its block unless the block starts at a line.
-/

namespace RigelTarget.HybridCoherence

open CacheLine

/-- A register of the machine. Addresses are of this type too, and all their arithmetic wraps
around. -/
abbrev Word := BitVec 32

/-- The words of the memory by their addresses. The table is the only part of it that these
functions touch. -/
abbrev Memory := Word → Word

/-- `malloc((1 << 24)+32-1)`: one bit for every line of the address space, and room for the table to
start at a line. -/
def tableBytes : ℕ := 2^24+32-1

/-- `hybridCC_base_addr`, from the address that `malloc` returned. The mask rounds it down to a
line, so an address that is not aligned moves below what was allocated. -/
def hybridCCBase (p : Word) : Word := p&&&~~~((32 : Word)-1)

section Operations

variable (tbloffset : Word → Word) (base : Word)

/-- `hybridCC_addr`: the word of the table for an address, through the offset that the hardware
computes. -/
def hybridCCAddr (addr : Word) : Word := base+tbloffset addr

/-- `bit_offset`: the bit of that word, by an arithmetic shift. -/
def bitOffset (addr : Word) : ℕ := (addr.sshiftRight 5&&&(0x1F : Word)).toNat

/-- `RigelSetCoherentLine`: the bit of the line is set with an atomic or, and the other bits of the
word stay. -/
def setCoherentLine (addr : Word) (mem : Memory) : Memory :=
  Function.update mem (hybridCCAddr tbloffset base addr)
    (mem (hybridCCAddr tbloffset base addr)|||(1 : Word)<<<bitOffset addr)

/-- `RigelSetIncoherentLine`: the bit of the line is cleared with an atomic and, and the other bits
of the word stay. -/
def setIncoherentLine (addr : Word) (mem : Memory) : Memory :=
  Function.update mem (hybridCCAddr tbloffset base addr)
    (mem (hybridCCAddr tbloffset base addr)&&&~~~((1 : Word)<<<bitOffset addr))

/-- An operation on the table. Any core may make it at any address; operations are atomic, so they
come one after the other. -/
structure Op where
  /-- `RigelSetCoherentLine`, otherwise `RigelSetIncoherentLine`. -/
  coherent : Bool
  /-- `addr`. -/
  addr : Word

/-- The memory after an operation. It changes one bit of one word. -/
def Op.apply (op : Op) (mem : Memory) : Memory :=
  if op.coherent=true then setCoherentLine tbloffset base op.addr mem
  else setIncoherentLine tbloffset base op.addr mem

/-- The memory after a sequence of operations, the first of the list first. -/
def applyAll (mem : Memory) : List Op → Memory
  | [] => mem
  | op::ops => applyAll (op.apply tbloffset base mem) ops

/-- The bit of the table for an address. It tells whether the line of the address is kept coherent
by the hardware. -/
def lineBit (mem : Memory) (addr : Word) : Bool :=
  (mem (hybridCCAddr tbloffset base addr)).getLsbD (bitOffset addr)

end Operations

/-- The line of an address. Lines have 32 bytes, so the five low bits say where in the line the
address is. -/
def lineOf (addr : Word) : ℕ := addr.toNat/32

/-- Whether the last operation on a line made it coherent; `before` if there was none. This is what
the table is for. -/
def lastCoherent (line : ℕ) (before : Bool) : List Op → Bool
  | [] => before
  | op::ops => lastCoherent line (if lineOf op.addr=line then op.coherent else before) ops

/-- The table in the block at `p`: its words are inside the block, its bits tell the last
operation on every line once the table was zero, and no two lines share a bit. -/
structure TableRight (tbloffset : Word → Word) (p : Word) : Prop where
  /-- Words are inside the block. -/
  inside : ∀ addr, p.toNat≤(hybridCCAddr tbloffset (hybridCCBase p) addr).toNat ∧
    (hybridCCAddr tbloffset (hybridCCBase p) addr).toNat+4≤p.toNat+tableBytes
  /-- Bits tell the last operation. -/
  last : ∀ mem ops, (∀ addr, mem (hybridCCAddr tbloffset (hybridCCBase p) addr)=0) → ∀ addr,
    lineBit tbloffset (hybridCCBase p) (applyAll tbloffset (hybridCCBase p) mem ops) addr=
      lastCoherent (lineOf addr) false ops
  /-- Lines have their own bits. -/
  apart : ∀ addr addr', hybridCCAddr tbloffset (hybridCCBase p) addr=
      hybridCCAddr tbloffset (hybridCCBase p) addr' → bitOffset addr=bitOffset addr' →
    lineOf addr=lineOf addr'

/-- The base is rounded down to a line. -/
theorem hybridCCBase_toNat (p : Word) : (hybridCCBase p).toNat=p.toNat/32*32 := by
  unfold hybridCCBase
  rw [BitVec.toNat_and]
  exact and_highMask (w := 32) (k := 5) p.isLt (by decide)

/-- The bit of an address within its word is the number of its line modulo 32: an arithmetic shift
differs from a logical one only above the bits that are kept. -/
theorem bitOffset_eq (addr : Word) : bitOffset addr=lineOf addr%32 := by
  have hshift : addr.sshiftRight 5&&&(0x1F : Word)=addr>>>5&&&(0x1F : Word) := by
    apply BitVec.eq_of_getLsbD_eq
    intro i hi
    rw [BitVec.getLsbD_and,BitVec.getLsbD_and,BitVec.getLsbD_sshiftRight,BitVec.getLsbD_ushiftRight]
    by_cases hlow : i<5
    · rw [if_pos (show 5+i<32 by omega),decide_eq_false (show ¬32 ≤ i by omega)]
      rfl
    · have hmask : (0x1F : Word).getLsbD i=false :=
        Nat.testBit_lt_two_pow (lt_of_lt_of_le (show 31<2^5 by decide)
          (Nat.pow_le_pow_right (by decide) (by omega)))
      rw [hmask,Bool.and_false,Bool.and_false]
  unfold bitOffset lineOf
  rw [hshift,BitVec.toNat_and,BitVec.toNat_ushiftRight,Nat.shiftRight_eq_div_pow]
  exact Nat.and_two_pow_sub_one_eq_mod _ 5

/-- A bit is one of a word. -/
theorem bitOffset_lt (addr : Word) : bitOffset addr<32 := by
  rw [bitOffset_eq]
  exact Nat.mod_lt _ (by decide)

/-- `entry`: one bit is set. -/
theorem getLsbD_entry {k i : ℕ} (hi : i<32) : ((1 : Word)<<<k).getLsbD i=decide (k=i) := by
  show (1#32<<<k).getLsbD i=_
  rw [←BitVec.twoPow_eq,BitVec.getLsbD_twoPow]
  by_cases hk : k=i
  · rw [hk,decide_eq_true hi,Bool.true_and]
  · rw [decide_eq_false hk,Bool.and_false]

/-- A bit after `atom.or`. -/
theorem getLsbD_or_entry (word : Word) {k i : ℕ} (hi : i<32) :
    (word|||(1 : Word)<<<k).getLsbD i=(word.getLsbD i || decide (k=i)) := by
  rw [BitVec.getLsbD_or,getLsbD_entry hi]

/-- A bit after `atom.and`. -/
theorem getLsbD_and_entry (word : Word) {k i : ℕ} (hi : i<32) :
    (word&&&~~~((1 : Word)<<<k)).getLsbD i=(word.getLsbD i && !decide (k=i)) := by
  rw [BitVec.getLsbD_and,BitVec.getLsbD_not,getLsbD_entry hi,decide_eq_true hi,Bool.true_and]

section Table

variable {tbloffset : Word → Word} {p : Word}

/-- The address of a word of the table, for a block that does not wrap around. -/
theorem hybridCCAddr_toNat (htbl : ∀ addr, tbloffset addr=(4 : Word)*(addr>>>10))
    (hblock : p.toNat+tableBytes≤2^32) (addr : Word) :
    (hybridCCAddr tbloffset (hybridCCBase p) addr).toNat=
      p.toNat/32*32+4*(lineOf addr/32) := by
  have hline : addr.toNat/2^10=lineOf addr/32 := by
    unfold lineOf
    omega
  have hlt := addr.isLt
  have hoffset : ((4 : Word)*(addr>>>10)).toNat=4*(lineOf addr/32) := by
    rw [BitVec.toNat_mul,BitVec.toNat_ushiftRight,Nat.shiftRight_eq_div_pow,hline]
    show 4*(lineOf addr/32)%2^32=_
    unfold lineOf
    omega
  unfold hybridCCAddr
  rw [BitVec.toNat_add,htbl,hoffset,hybridCCBase_toNat]
  unfold tableBytes at hblock
  unfold lineOf
  omega

/-- Word and bit of an address determine its line. -/
theorem same_bit_iff (htbl : ∀ addr, tbloffset addr=(4 : Word)*(addr>>>10))
    (hblock : p.toNat+tableBytes≤2^32) (addr addr' : Word) :
    (hybridCCAddr tbloffset (hybridCCBase p) addr=hybridCCAddr tbloffset (hybridCCBase p) addr' ∧
      bitOffset addr=bitOffset addr') ↔ lineOf addr=lineOf addr' := by
  rw [←BitVec.toNat_inj,hybridCCAddr_toNat htbl hblock,hybridCCAddr_toNat htbl hblock,
    bitOffset_eq,bitOffset_eq]
  omega

/-- Words in the table are inside the block if it starts at a line, and only then. -/
theorem inside_iff (htbl : ∀ addr, tbloffset addr=(4 : Word)*(addr>>>10))
    (hblock : p.toNat+tableBytes≤2^32) :
    (∀ addr, p.toNat≤(hybridCCAddr tbloffset (hybridCCBase p) addr).toNat ∧
      (hybridCCAddr tbloffset (hybridCCBase p) addr).toNat+4≤p.toNat+tableBytes) ↔
    p.toNat%32=0 := by
  constructor
  · intro h
    have hfirst := (h 0).1
    rw [hybridCCAddr_toNat htbl hblock] at hfirst
    have hzero : lineOf 0=0 := rfl
    rw [hzero] at hfirst
    omega
  · intro hline addr
    rw [hybridCCAddr_toNat htbl hblock]
    have hlt := addr.isLt
    unfold lineOf tableBytes
    omega

/-- An operation changes the bit of its line and no other: different lines have different bits of
the table. -/
theorem lineBit_apply (htbl : ∀ addr, tbloffset addr=(4 : Word)*(addr>>>10))
    (hblock : p.toNat+tableBytes≤2^32) (op : Op) (mem : Memory) (addr : Word) :
    lineBit tbloffset (hybridCCBase p) (op.apply tbloffset (hybridCCBase p) mem) addr=
      if lineOf op.addr=lineOf addr then op.coherent
      else lineBit tbloffset (hybridCCBase p) mem addr := by
  have hsame := same_bit_iff htbl hblock op.addr addr
  have hbit := bitOffset_lt addr
  unfold lineBit Op.apply setCoherentLine setIncoherentLine
  by_cases hword : hybridCCAddr tbloffset (hybridCCBase p) addr=
      hybridCCAddr tbloffset (hybridCCBase p) op.addr
  · rw [hword]
    by_cases hpos : bitOffset op.addr=bitOffset addr
    · rw [if_pos (hsame.1 ⟨hword.symm,hpos⟩)]
      cases op.coherent with
      | true =>
        rw [if_pos rfl,Function.update_self,getLsbD_or_entry _ hbit,decide_eq_true hpos,
          Bool.or_true]
      | false =>
        rw [if_neg Bool.false_ne_true,Function.update_self,getLsbD_and_entry _ hbit,
          decide_eq_true hpos]
        exact Bool.and_false _
    · rw [if_neg fun h => hpos (hsame.2 h).2]
      cases op.coherent with
      | true =>
        rw [if_pos rfl,Function.update_self,getLsbD_or_entry _ hbit,decide_eq_false hpos,
          Bool.or_false]
      | false =>
        rw [if_neg Bool.false_ne_true,Function.update_self,getLsbD_and_entry _ hbit,
          decide_eq_false hpos]
        exact Bool.and_true _
  · rw [if_neg fun h => hword (hsame.2 h).1.symm]
    split <;> rw [Function.update_of_ne hword]

/-- After a sequence of operations the bits tell the last one on every line. -/
theorem lineBit_applyAll (htbl : ∀ addr, tbloffset addr=(4 : Word)*(addr>>>10))
    (hblock : p.toNat+tableBytes≤2^32) (ops : List Op) (mem : Memory) (addr : Word) :
    lineBit tbloffset (hybridCCBase p) (applyAll tbloffset (hybridCCBase p) mem ops) addr=
      lastCoherent (lineOf addr) (lineBit tbloffset (hybridCCBase p) mem addr) ops := by
  induction ops generalizing mem with
  | nil => rfl
  | cons op ops ih =>
    rw [applyAll,ih,lineBit_apply htbl hblock]
    rfl

/-- For every block that `malloc` may return, the table is right if and only if the block starts
at a line. -/
theorem hybrid_table_iff (htbl : ∀ addr, tbloffset addr=(4 : Word)*(addr>>>10))
    (hblock : p.toNat+tableBytes≤2^32) : TableRight tbloffset p ↔ p.toNat%32=0 := by
  constructor
  · exact fun h => (inside_iff htbl hblock).1 h.inside
  · intro hline
    refine ⟨(inside_iff htbl hblock).2 hline,fun mem ops hzero addr => ?_,fun addr addr' ha hb =>
      (same_bit_iff htbl hblock addr addr').1 ⟨ha,hb⟩⟩
    rw [lineBit_applyAll htbl hblock]
    unfold lineBit
    rw [hzero]
    exact congrArg (lastCoherent (lineOf addr) · ops) BitVec.getLsbD_zero

end Table

/-- `tbloffset` as the operations use it. -/
def fourBytesPerKilobyte (addr : Word) : Word := (4 : Word)*(addr>>>10)

/-- A block at a line holds the table. -/
theorem hybrid_table_aligned : TableRight fourBytesPerKilobyte 0x100020 :=
  (hybrid_table_iff (fun _ => rfl) (by decide)).2 (by decide)

/-- A block 8 bytes after a line does not: the first word lies before it, in memory that belongs to
something else. -/
theorem hybrid_table_misaligned :
    (hybridCCAddr fourBytesPerKilobyte (hybridCCBase 0x100008) 0).toNat<0x100008 ∧
      ¬TableRight fourBytesPerKilobyte 0x100008 := by
  have hbefore : (hybridCCAddr fourBytesPerKilobyte (hybridCCBase 0x100008) 0).toNat<0x100008 := by
    decide
  refine ⟨hbefore,fun h => ?_⟩
  have hfirst := (h.inside 0).1
  exact absurd hbefore (Nat.not_lt.2 hfirst)

end RigelTarget.HybridCoherence
