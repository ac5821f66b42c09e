import RigelTarget.RigelAssembly
import Mathlib.Tactic.IntervalCases

/-!
# The critical section of the parallel loop enqueue, in assembly and in C

With the global enqueue lock held, `SW_TaskQueue_Loop_PARALLEL` stores the
pointers of one task group into the slot of the tail index, ends the task list
and publishes the group. The compiled branch is inline assembly; the C branch it
replaces is kept in the source as the reference. The assembly computes the slot
without the modulus, stores all task pointers but the first relative to slot 0,
and writes back and invalidates the line of slot 0. The two agree exactly when
the shifted tail index is zero in 32 bits. Caches are not modelled; only the
lines named by the maintenance instructions are compared.
-/

namespace RigelTarget.EnqueueCriticalSection

open RigelAssembly

/-- Addresses of the variables of the critical section and of both arrays, which the linker and the
allocator choose. -/
structure Layout where
  /-- `&GLOBAL_tq_tail_index`. -/
  tailIndex : Word
  /-- `&GLOBAL_taskqueue_data`, the pointer variable. -/
  taskqueueData : Word
  /-- `&GLOBAL_taskqueue_index`, the pointer variable. -/
  taskqueueIndex : Word
  /-- `&GLOBAL_tq_enqueue_lock`. -/
  enqueueLock : Word
  /-- First byte of the descriptor array. -/
  data : Word
  /-- First byte of the group array. -/
  index : Word

/-- `__DEFAULT_GLOBAL_TQ_SIZE / __DEFAULT_TASK_GROUP_SIZE` group slots. -/
abbrev groupSlots : ℕ := 2^15

/-- `__DEFAULT_GLOBAL_TQ_SIZE` descriptors. -/
abbrev descriptors : ℕ := 2^18

/-- `&GLOBAL_taskqueue_index[slot].tasks[i]`; a group descriptor is 32 bytes. -/
def Layout.task (L : Layout) (slot i : ℕ) : Word := L.index+BitVec.ofNat 32 (32*slot+4*i)

/-- `&GLOBAL_taskqueue_data[d]`; a task descriptor is 32 bytes. -/
def Layout.desc (L : Layout) (d : ℕ) : Word := L.data+BitVec.ofNat 32 (32*d)

/-- An address outside both arrays and apart from the variables: nothing that the section should
touch. -/
def Layout.Outside (L : Layout) (a : Word) : Prop :=
  (a.toNat<L.index.toNat ∨ L.index.toNat+32*groupSlots≤a.toNat) ∧
    (a.toNat<L.data.toNat ∨ L.data.toNat+32*descriptors≤a.toNat)

/-- Being outside both arrays is decidable. -/
instance (L : Layout) (a : Word) : Decidable (L.Outside a) := inferInstanceAs (Decidable (_ ∧ _))

/-- The arrays are line aligned, fit the address space and overlap neither each
other nor the variables; `malloc` never returns address zero. -/
structure Layout.Valid (L : Layout) : Prop where
  /-- `ALIGNED_MALLOC` aligns to a line of 32 bytes. -/
  index_aligned : L.index.toNat%32=0
  /-- The group array fits. -/
  index_fits : L.index.toNat+32*groupSlots≤2^32
  /-- The descriptor array is not at address zero. -/
  data_pos : 0<L.data.toNat
  /-- The descriptor array fits. -/
  data_fits : L.data.toNat+32*descriptors≤2^32
  /-- The arrays are disjoint. -/
  arrays : L.index.toNat+32*groupSlots≤L.data.toNat ∨ L.data.toNat+32*descriptors≤L.index.toNat
  /-- The tail index is no array element. -/
  tail_outside : L.Outside L.tailIndex
  /-- The lock is no array element. -/
  lock_outside : L.Outside L.enqueueLock
  /-- The data pointer is no array element. -/
  data_outside : L.Outside L.taskqueueData
  /-- The index pointer is no array element. -/
  index_outside : L.Outside L.taskqueueIndex
  /-- The four variables are distinct words. -/
  distinct : [L.tailIndex,L.enqueueLock,L.taskqueueData,L.taskqueueIndex].Nodup

/-- The inline assembly. The operands `%0`, `%1`, `%2` are registers 10, 11, 12;
`ACQ_FAILED` is instruction 7 and `END` is instruction 43. -/
def inlineSection (L : Layout) : List Instr :=
  [.la 20 L.tailIndex,
    .la 21 L.taskqueueData,
    .ldw 21 21 0,
    .la 22 L.taskqueueIndex,
    .ldw 22 22 0,
    .add 25 21 11,
    .ori 27 0 1,
    .atomXchg 27 12,
    .bne 0 27 7,
    .ldw 24 20 0,
    .slli 24 24 5,
    .add 23 24 22,
    .add 26 23 10,
    .stw 25 23 0,
    .addi 23 23 4,
    .beq 23 26 43,
    .addi 25 25 32,
    .stw 25 22 4,
    .addi 23 23 4,
    .beq 23 26 43,
    .addi 25 25 32,
    .stw 25 22 8,
    .addi 23 23 4,
    .beq 23 26 43,
    .addi 25 25 32,
    .stw 25 22 12,
    .addi 23 23 4,
    .beq 23 26 43,
    .addi 25 25 32,
    .stw 25 22 16,
    .addi 23 23 4,
    .beq 23 26 43,
    .addi 25 25 32,
    .stw 25 22 20,
    .addi 23 23 4,
    .beq 23 26 43,
    .addi 25 25 32,
    .stw 25 22 24,
    .addi 23 23 4,
    .beq 23 26 43,
    .addi 25 25 32,
    .stw 25 22 28,
    .addi 23 23 4,
    .lineWb 22,
    .lineInv 22,
    .stw 0 25 16,
    .atomInc 20 20,
    .atomXchg 0 12]

/-- The processor at the entry of the section: the operands are loaded and every
other register is arbitrary. -/
def entry (L : Layout) (reg : ℕ → Word) (mem : Word → Word) (taskCount tqOffset : ℕ) : Cpu where
  reg := Function.update (Function.update (Function.update reg
    10 (BitVec.ofNat 32 (taskCount*4))) 11 (BitVec.ofNat 32 (tqOffset*32))) 12 L.enqueueLock
  mem := mem
  pc := 0
  writtenBack := []
  invalidated := []

/-- The loop of the C branch: `tasks[iter] = &GLOBAL_taskqueue_data[tq_offset + iter]`, all in the
slot of the tail. -/
def storeTasks (L : Layout) (mem : Word → Word) (slot tqOffset : ℕ) : ℕ → Word → Word
  | 0 => mem
  | iter+1 => Function.update (storeTasks L mem slot tqOffset iter) (L.task slot iter)
      (L.desc (tqOffset+iter))

/-- The C branch: `spin_lock`, the slot of the tail modulo the array size, the
task pointers, the end of the list, the increment of the tail and `spin_unlock`.
A lock that is not free is never obtained. -/
def referenceSection (L : Layout) (mem : Word → Word) (taskCount tqOffset : ℕ) :
    Option (Word → Word) :=
  if mem L.enqueueLock=0 then
    let locked := Function.update mem L.enqueueLock 1
    let tailIdx := (locked L.tailIndex).toNat%groupSlots
    let filled := storeTasks L locked tailIdx tqOffset taskCount
    let ended := Function.update filled (L.desc (tqOffset+(taskCount-1))+16) 0
    let published := Function.update ended L.tailIndex (ended L.tailIndex+1)
    some (Function.update published L.enqueueLock 0)
  else none

/-- Memories from which the section can run: the pointer variables hold the
arrays, the tail index holds `tail` and the lock is free. -/
structure Loaded (L : Layout) (mem : Word → Word) (tail : Word) : Prop where
  /-- The descriptor array is allocated. -/
  data : mem L.taskqueueData=L.data
  /-- The group array is allocated. -/
  index : mem L.taskqueueIndex=L.index
  /-- The current tail index. -/
  tail : mem L.tailIndex=tail
  /-- The enqueue lock is free. -/
  lock : mem L.enqueueLock=0

/-- What the section is for, as seen in the final memory: the slot of the tail
points to the descriptors, the list ends, every other slot is as before, the
tail has advanced and the lock is free. -/
structure Published (L : Layout) (before after : Word → Word) (tail : Word)
    (taskCount tqOffset : ℕ) : Prop where
  /-- The pointers of the group. -/
  tasks : ∀ i<taskCount, after (L.task (tail.toNat%groupSlots) i)=L.desc (tqOffset+i)
  /-- `next` of the last descriptor is `NULL`. -/
  ended : after (L.desc (tqOffset+(taskCount-1))+16)=0
  /-- Every other slot is unchanged. -/
  others : ∀ slot<groupSlots, slot≠tail.toNat%groupSlots → ∀ i<8,
    after (L.task slot i)=before (L.task slot i)
  /-- The tail index has advanced modulo the word size. -/
  tail : after L.tailIndex=tail+1
  /-- The lock is free. -/
  lock : after L.enqueueLock=0

/-- The assembly refines the C branch at one tail, task count and offset: from
every memory both end, with the same group array, descriptor array, tail index
and lock word, as published; and the maintained line is that of the slot. -/
def SectionRefines (L : Layout) (tail : Word) (taskCount tqOffset : ℕ) : Prop :=
  ∀ reg mem, Loaded L mem tail → ∃ fuel out ref,
    run (inlineSection L) fuel (entry L reg mem taskCount tqOffset)=some out ∧
    referenceSection L mem taskCount tqOffset=some ref ∧
    (∀ slot<groupSlots, ∀ i<8, out.mem (L.task slot i)=ref (L.task slot i)) ∧
    (∀ d<descriptors, ∀ w<8, out.mem (L.desc d+BitVec.ofNat 32 (4*w))=
      ref (L.desc d+BitVec.ofNat 32 (4*w))) ∧
    out.mem L.tailIndex=ref L.tailIndex ∧ out.mem L.enqueueLock=ref L.enqueueLock ∧
    Published L mem out.mem tail taskCount tqOffset ∧
    out.writtenBack=[lineOf (L.task (tail.toNat%groupSlots) 0)] ∧
    out.invalidated=[lineOf (L.task (tail.toNat%groupSlots) 0)]

/-- The stores of the assembly: the first pointer goes to the shifted tail, the
others follow the start of the group array. -/
def inlineStores (L : Layout) (mem : Word → Word) (tail : Word) (tqOffset : ℕ) : ℕ → Word → Word
  | 0 => mem
  | iter+1 => Function.update (inlineStores L mem tail tqOffset iter)
      (if iter=0 then tail<<<5+L.index else L.task 0 iter) (L.desc (tqOffset+iter))

/-- The processor after `k` task pointers were stored, before the test that
leaves the unrolled sequence. -/
structure Stored (L : Layout) (mem : Word → Word) (tail : Word) (taskCount tqOffset k : ℕ)
    (cpu : Cpu) : Prop where
  /-- The next instruction is the test of block `k`, or the end after block 8. -/
  pc : cpu.pc=if k=8 then 43 else 11+4*k
  /-- The address of the tail index. -/
  r20 : cpu.reg 20=L.tailIndex
  /-- The start of the group array. -/
  r22 : cpu.reg 22=L.index
  /-- The moving slot pointer. -/
  r23 : cpu.reg 23=tail<<<5+L.index+BitVec.ofNat 32 (4*k)
  /-- The descriptor stored last. -/
  r25 : cpu.reg 25=L.desc (tqOffset+(k-1))
  /-- Where the slot pointer stops. -/
  r26 : cpu.reg 26=tail<<<5+L.index+BitVec.ofNat 32 (taskCount*4)
  /-- The lock operand. -/
  r12 : cpu.reg 12=L.enqueueLock
  /-- The memory with the stores so far. -/
  mem : cpu.mem=inlineStores L (Function.update mem L.enqueueLock 1) tail tqOffset k
  /-- No line is maintained before the end. -/
  writtenBack : cpu.writtenBack=[]
  /-- No line is maintained before the end. -/
  invalidated : cpu.invalidated=[]

/-- The processor with the lock taken, at the branch that would spin: memory is as at the entry but
for the lock. -/
structure Acquired (L : Layout) (mem : Word → Word) (taskCount tqOffset : ℕ) (cpu : Cpu) :
    Prop where
  /-- The spin branch is next. -/
  pc : cpu.pc=8
  /-- The bytes of the group's pointers. -/
  r10 : cpu.reg 10=BitVec.ofNat 32 (taskCount*4)
  /-- The lock operand. -/
  r12 : cpu.reg 12=L.enqueueLock
  /-- The address of the tail index. -/
  r20 : cpu.reg 20=L.tailIndex
  /-- The start of the group array. -/
  r22 : cpu.reg 22=L.index
  /-- The first descriptor. -/
  r25 : cpu.reg 25=L.desc tqOffset
  /-- The lock was free. -/
  r27 : cpu.reg 27=0
  /-- The lock is taken. -/
  mem : cpu.mem=Function.update mem L.enqueueLock 1
  /-- No line is maintained before the end. -/
  writtenBack : cpu.writtenBack=[]
  /-- No line is maintained before the end. -/
  invalidated : cpu.invalidated=[]

/-- The pointer variables are loaded and the free lock is exchanged. -/
theorem acquired {L : Layout} {mem : Word → Word} {tail : Word} (loaded : Loaded L mem tail)
    (reg : ℕ → Word) (taskCount tqOffset : ℕ) :
    Leads (inlineSection L) (entry L reg mem taskCount tqOffset)
      (Acquired L mem taskCount tqOffset) := by
  iterate 8 refine Leads.step rfl ?_
  refine Leads.here ?_
  constructor <;> simp [exec,Cpu.set,Cpu.get,entry,loaded.data,loaded.index,loaded.lock,
      Layout.desc,Nat.mul_comm]

/-- The prologue: load the tail and store the first pointer. -/
theorem stored_one {L : Layout} {mem : Word → Word} {tail : Word} {taskCount tqOffset : ℕ}
    {cpu : Cpu} (valid : L.Valid) (loaded : Loaded L mem tail)
    (h : Acquired L mem taskCount tqOffset cpu) :
    Leads (inlineSection L) cpu (Stored L mem tail taskCount tqOffset 1) := by
  have tailLock : L.tailIndex≠L.enqueueLock := fun hEq => by
    have distinct := valid.distinct
    simp [hEq] at distinct
  obtain ⟨reg,cpuMem,pc,wb,inv⟩ := cpu
  obtain ⟨rfl,r10,r12,r20,r22,r25,r27,rfl,rfl,rfl⟩ := h
  dsimp only at r10 r12 r20 r22 r25 r27
  refine Leads.step rfl ?_
  simp only [exec,Cpu.branch,Cpu.get,r27]
  iterate 6 refine Leads.step rfl ?_
  refine Leads.here ?_
  constructor <;> simp [exec,Cpu.set,Cpu.get,Cpu.store,r10,r12,r20,r22,r25,loaded.tail,
      inlineStores,tailLock]

/-- The unrolled block that stores pointer `k`. -/
theorem inlineSection_block (L : Layout) {k : ℕ} (hk : 1≤k) (hk8 : k<8) :
    (inlineSection L)[11+4*k]? =some (.beq 23 26 43) ∧
    (inlineSection L)[11+4*k+1]? =some (.addi 25 25 32) ∧
    (inlineSection L)[11+4*k+1+1]? =some (.stw 25 22 (BitVec.ofNat 32 (4*k))) ∧
    (inlineSection L)[11+4*k+1+1+1]? =some (.addi 23 23 4) := by
  interval_cases k <;> exact ⟨rfl,rfl,rfl,rfl⟩

/-- Slot pointers within one group differ. -/
theorem slotPointer_ne {base : Word} {k c : ℕ} (hkc : k < c) (hc : c≤8) :
    base+BitVec.ofNat 32 (4*k)≠base+BitVec.ofNat 32 (c*4) := by
  intro h
  have hNat := congrArg BitVec.toNat h
  simp only [BitVec.toNat_add,BitVec.toNat_ofNat] at hNat
  omega

/-- The successor of a descriptor address. -/
theorem desc_succ (L : Layout) (d : ℕ) : L.desc d+32#32=L.desc (d+1) := by
  unfold Layout.desc
  rw [BitVec.add_assoc,Nat.mul_add,BitVec.ofNat_add]

/-- One unrolled block: the test fails and the next pointer is stored. There are eight of them in
the assembly. -/
theorem stored_succ {L : Layout} {mem : Word → Word} {tail : Word} {taskCount tqOffset k : ℕ}
    {cpu : Cpu} (hk : 1≤k) (hkc : k<taskCount) (hc : taskCount≤8)
    (h : Stored L mem tail taskCount tqOffset k cpu) :
    Leads (inlineSection L) cpu (Stored L mem tail taskCount tqOffset (k+1)) := by
  obtain ⟨test,next,store,move⟩ := inlineSection_block L hk (hkc.trans_le hc)
  obtain ⟨reg,cpuMem,pc,wb,inv⟩ := cpu
  obtain ⟨hpc,r20,r22,r23,r25,r26,r12,rfl,rfl,rfl⟩ := h
  dsimp only at hpc r20 r22 r23 r25 r26 r12
  rw [if_neg (by omega)] at hpc
  subst hpc
  refine Leads.step test ?_
  have stay : (reg 23 == reg 26)=false := by
    rw [r23,r26]
    exact beq_eq_false_iff_ne.mpr (slotPointer_ne hkc hc)
  simp only [exec,Cpu.branch,Cpu.get,OfNat.ofNat_ne_zero,if_false,stay,Bool.false_eq_true]
  refine Leads.step next (Leads.step store (Leads.step move (Leads.here ?_)))
  have hdesc : L.desc (tqOffset+(k-1))+32#32=L.desc (tqOffset+k) := by
    rw [desc_succ]
    congr 1
    omega
  have hslot : BitVec.ofNat 32 (4*(k+1))=BitVec.ofNat 32 (4*k)+4 := by
    rw [Nat.mul_add,BitVec.ofNat_add]
    rfl
  constructor
  · simp only [exec,Cpu.set,Cpu.store]
    split <;> omega
  · simpa [exec,Cpu.set,Cpu.get,Cpu.store] using r20
  · simpa [exec,Cpu.set,Cpu.get,Cpu.store] using r22
  · simp [exec,Cpu.set,Cpu.get,Cpu.store,r23,hslot,BitVec.add_assoc]
  · simp [exec,Cpu.set,Cpu.get,Cpu.store,r25,hdesc]
  · simpa [exec,Cpu.set,Cpu.get,Cpu.store] using r26
  · simpa [exec,Cpu.set,Cpu.get,Cpu.store] using r12
  · have hk0 : k≠0 := by omega
    simp [exec,Cpu.set,Cpu.get,Cpu.store,r25,r22,hdesc,inlineStores,hk0,Layout.task]
  · rfl
  · rfl

/-- All pointers of the group are stored when the test of block `taskCount` is reached. -/
theorem stored_all {L : Layout} {mem : Word → Word} {tail : Word} {taskCount tqOffset : ℕ}
    (valid : L.Valid) (loaded : Loaded L mem tail) (hc1 : 1≤taskCount) (hc8 : taskCount≤8)
    (reg : ℕ → Word) :
    Leads (inlineSection L) (entry L reg mem taskCount tqOffset)
      (Stored L mem tail taskCount tqOffset taskCount) := by
  have blocks : ∀ k, 1≤k → k≤taskCount →
      Leads (inlineSection L) (entry L reg mem taskCount tqOffset)
        (Stored L mem tail taskCount tqOffset k) := by
    intro k hk
    induction k,hk using Nat.le_induction with
    | base =>
      intro _
      exact (acquired loaded reg taskCount tqOffset).trans fun _ h => stored_one valid loaded h
    | succ k hk ih =>
      intro hkc
      exact (ih (by omega)).trans fun _ h => stored_succ hk hkc hc8 h
  exact blocks taskCount hc1 le_rfl

/-- The memory that the assembly leaves: the first pointer in the slot of the tail, the others in
the first slot. -/
def inlineResult (L : Layout) (mem : Word → Word) (tail : Word) (taskCount tqOffset : ℕ) :
    Word → Word :=
  let locked := Function.update mem L.enqueueLock 1
  let filled := inlineStores L locked tail tqOffset taskCount
  let ended := Function.update filled (L.desc (tqOffset+(taskCount-1))+16) 0
  let published := Function.update ended L.tailIndex (ended L.tailIndex+1)
  Function.update published L.enqueueLock 0

/-- The epilogue: maintain the line of slot 0, end the list, advance the tail and
release the lock. -/
theorem stored_finish {L : Layout} {mem : Word → Word} {tail : Word} {taskCount tqOffset : ℕ}
    {cpu : Cpu} (hc1 : 1≤taskCount) (hc8 : taskCount≤8)
    (h : Stored L mem tail taskCount tqOffset taskCount cpu) :
    Leads (inlineSection L) cpu (fun out => out.pc=48 ∧
      out.mem=inlineResult L mem tail taskCount tqOffset ∧
      out.writtenBack=[lineOf L.index] ∧ out.invalidated=[lineOf L.index]) := by
  have leave : Leads (inlineSection L) cpu (fun out => out={cpu with pc := 43}) := by
    rcases eq_or_lt_of_le hc8 with rfl|hlt
    · refine Leads.here ?_
      have hpc := h.pc
      rw [if_pos rfl] at hpc
      rw [← hpc]
    · obtain ⟨test,-,-,-⟩ := inlineSection_block L hc1 hlt
      have hpc := h.pc
      rw [if_neg (by omega)] at hpc
      rw [← hpc] at test
      refine Leads.step test (Leads.here ?_)
      have equal : cpu.reg 23=cpu.reg 26 := by rw [h.r23,h.r26,Nat.mul_comm]
      simp [exec,Cpu.branch,Cpu.get,equal]
  refine leave.trans fun out hout => ?_
  subst hout
  iterate 5 refine Leads.step rfl ?_
  refine Leads.here ⟨rfl,?_,?_,?_⟩
  · simp [exec,Cpu.store,Cpu.get,h.r20,h.r22,h.r25,h.r12,h.mem,inlineResult]
  · simp [exec,Cpu.store,Cpu.get,h.r22,h.writtenBack]
  · simp [exec,Cpu.store,Cpu.get,h.r22,h.invalidated]

/-- The assembly ends from every loaded memory. -/
theorem inlineSection_ends {L : Layout} {mem : Word → Word} {tail : Word}
    {taskCount : ℕ} (valid : L.Valid) (loaded : Loaded L mem tail)
    (hc1 : 1≤taskCount) (hc8 : taskCount≤8) (tqOffset : ℕ) (reg : ℕ → Word) :
    ∃ fuel out, run (inlineSection L) fuel (entry L reg mem taskCount tqOffset)=some out ∧
      out.pc=48 ∧ out.mem=inlineResult L mem tail taskCount tqOffset ∧
      out.writtenBack=[lineOf L.index] ∧ out.invalidated=[lineOf L.index] := by
  refine Leads.finished ((stored_all valid loaded hc1 hc8 reg).trans
    fun _ h => stored_finish hc1 hc8 h) ?_
  rintro out ⟨hpc,-⟩
  rw [hpc]
  exact le_rfl

/-- Group words lie in the group array. -/
theorem task_toNat {L : Layout} (valid : L.Valid) {slot i : ℕ} (hslot : slot<groupSlots)
    (hi : i<8) : (L.task slot i).toNat=L.index.toNat+32*slot+4*i := by
  have fits := valid.index_fits
  simp only [Layout.task,BitVec.toNat_add,BitVec.toNat_ofNat]
  simp only [groupSlots] at *
  omega

/-- Descriptor words lie in the descriptor array. -/
theorem desc_toNat {L : Layout} (valid : L.Valid) {d w : ℕ} (hd : d<descriptors) (hw : w<8) :
    (L.desc d+BitVec.ofNat 32 (4*w)).toNat=L.data.toNat+32*d+4*w := by
  have fits := valid.data_fits
  simp only [Layout.desc,BitVec.toNat_add,BitVec.toNat_ofNat]
  simp only [descriptors] at *
  omega

/-- The line of an aligned address is the address. -/
theorem lineOf_aligned {a : Word} (h : a.toNat%32=0) : lineOf a=a := by
  apply BitVec.eq_of_toNat_eq
  simp only [lineOf,BitVec.toNat_shiftLeft,BitVec.toNat_ushiftRight,Nat.shiftLeft_eq,
    Nat.shiftRight_eq_div_pow]
  have bound := a.isLt
  omega

/-- Words of two groups are at distinct addresses. -/
theorem task_ne {L : Layout} (valid : L.Valid) {slot slot' i i' : ℕ} (hslot : slot<groupSlots)
    (hslot' : slot'<groupSlots) (hi : i<8) (hi' : i'<8) (h : slot≠slot' ∨ i≠i') :
    L.task slot i≠L.task slot' i' := by
  intro hEq
  have hNat := congrArg BitVec.toNat hEq
  rw [task_toNat valid hslot hi,task_toNat valid hslot' hi'] at hNat
  omega

/-- A group word is no descriptor word. -/
theorem task_ne_desc {L : Layout} (valid : L.Valid) {slot i d w : ℕ} (hslot : slot<groupSlots)
    (hi : i<8) (hd : d<descriptors) (hw : w<8) :
    L.task slot i≠L.desc d+BitVec.ofNat 32 (4*w) := by
  intro hEq
  have hNat := congrArg BitVec.toNat hEq
  rw [task_toNat valid hslot hi,desc_toNat valid hd hw] at hNat
  have disjoint := valid.arrays
  simp only [groupSlots,descriptors] at *
  omega

/-- A variable outside the arrays is no group word. -/
theorem task_ne_outside {L : Layout} (valid : L.Valid) {slot i : ℕ} {a : Word}
    (hslot : slot<groupSlots) (hi : i<8) (ha : L.Outside a) : L.task slot i≠a := by
  intro hEq
  have hNat := congrArg BitVec.toNat hEq
  rw [task_toNat valid hslot hi] at hNat
  have outside := ha.1
  simp only [groupSlots] at *
  omega

/-- A variable outside the arrays is no descriptor word. -/
theorem desc_ne_outside {L : Layout} (valid : L.Valid) {d w : ℕ} {a : Word}
    (hd : d<descriptors) (hw : w<8) (ha : L.Outside a) :
    L.desc d+BitVec.ofNat 32 (4*w)≠a := by
  intro hEq
  have hNat := congrArg BitVec.toNat hEq
  rw [desc_toNat valid hd hw] at hNat
  have outside := ha.2
  simp only [descriptors] at *
  omega

/-- A group word is no `next` field. -/
theorem task_ne_next {L : Layout} (valid : L.Valid) {slot i d : ℕ} (hslot : slot<groupSlots)
    (hi : i<8) (hd : d<descriptors) : L.task slot i≠L.desc d+16 :=
  task_ne_desc valid hslot hi hd (w := 4) (by decide)

/-- A variable outside the arrays is no `next` field. -/
theorem next_ne_outside {L : Layout} (valid : L.Valid) {d : ℕ} {a : Word} (hd : d<descriptors)
    (ha : L.Outside a) : L.desc d+16≠a :=
  desc_ne_outside valid (w := 4) hd (by decide) ha

/-- The C loop leaves every other word. -/
theorem storeTasks_other {L : Layout} {mem : Word → Word} {slot tqOffset c : ℕ} {a : Word}
    (h : ∀ i < c, a≠L.task slot i) : storeTasks L mem slot tqOffset c a=mem a := by
  induction c with
  | zero => rfl
  | succ c ih =>
    rw [storeTasks,Function.update_of_ne (h c (Nat.lt_succ_self c))]
    exact ih fun i hi => h i (Nat.lt_succ_of_lt hi)

/-- The C loop stores every pointer of the group. -/
theorem storeTasks_self {L : Layout} (valid : L.Valid) {mem : Word → Word} {slot tqOffset c i : ℕ}
    (hslot : slot<groupSlots) (hc : c≤8) (hi : i < c) :
    storeTasks L mem slot tqOffset c (L.task slot i)=L.desc (tqOffset+i) := by
  induction c with
  | zero => omega
  | succ c ih =>
    rw [storeTasks]
    rcases eq_or_lt_of_le (Nat.lt_succ_iff.mp hi) with rfl|hlt
    · exact Function.update_self ..
    · rw [Function.update_of_ne (task_ne valid hslot hslot (by omega) (by omega) (Or.inr hlt.ne))]
      exact ih (by omega) hlt

/-- The assembly leaves every other word. -/
theorem inlineStores_other {L : Layout} {mem : Word → Word} {tail : Word} {tqOffset c : ℕ}
    {a : Word} (first : a≠tail<<<5+L.index) (rest : ∀ i < c, i≠0 → a≠L.task 0 i) :
    inlineStores L mem tail tqOffset c a=mem a := by
  induction c with
  | zero => rfl
  | succ c ih =>
    have keep := ih fun i hi => rest i (Nat.lt_succ_of_lt hi)
    rw [inlineStores,Function.update_of_ne,keep]
    split
    · exact first
    · rename_i hc
      exact rest c (Nat.lt_succ_self c) hc

/-- With the shifted tail zero the stores are those of the C loop at slot 0. -/
theorem inlineStores_eq {L : Layout} {mem : Word → Word} {tail : Word} (h : tail<<<5=0)
    (tqOffset c : ℕ) : inlineStores L mem tail tqOffset c=storeTasks L mem 0 tqOffset c := by
  induction c with
  | zero => rfl
  | succ c ih =>
    rw [inlineStores,storeTasks,ih]
    congr 1
    split
    · rename_i hc
      subst hc
      simp [h,Layout.task]
    · rfl

/-- The shifted tail is zero when its low 27 bits are. -/
theorem shift_eq_zero_iff (tail : Word) : tail<<<5=0 ↔ tail.toNat%2^27=0 := by
  rw [← BitVec.toNat_inj]
  simp only [BitVec.toNat_shiftLeft,Nat.shiftLeft_eq,BitVec.ofNat_eq_ofNat,BitVec.toNat_ofNat]
  have bound := tail.isLt
  omega

/-- The C branch publishes the group at every tail, with all pointers in the slot of the tail. -/
theorem referenceSection_published {L : Layout} {mem : Word → Word} {tail : Word}
    {taskCount tqOffset : ℕ} (valid : L.Valid) (loaded : Loaded L mem tail)
    (hc1 : 1≤taskCount) (hc8 : taskCount≤8) (hoff : tqOffset+8≤descriptors) :
    ∃ ref, referenceSection L mem taskCount tqOffset=some ref ∧
      Published L mem ref tail taskCount tqOffset := by
  have tailLock : L.tailIndex≠L.enqueueLock := fun hEq => by
    have distinct := valid.distinct
    simp [hEq] at distinct
  have hslot : tail.toNat%groupSlots<groupSlots := Nat.mod_lt _ (by decide)
  have hlast : tqOffset+(taskCount-1)<descriptors := by omega
  have lockedTail : Function.update mem L.enqueueLock 1 L.tailIndex=tail := by
    rw [Function.update_of_ne tailLock,loaded.tail]
  have tailKept : ∀ slot<groupSlots,
      storeTasks L (Function.update mem L.enqueueLock 1) slot tqOffset taskCount L.tailIndex=tail :=
    fun slot hs => by
      rw [storeTasks_other fun i hi =>
        (task_ne_outside valid hs (hi.trans_le hc8) valid.tail_outside).symm,lockedTail]
  have lastNotTail : L.tailIndex≠L.desc (tqOffset+(taskCount-1))+16 :=
    (next_ne_outside valid hlast valid.tail_outside).symm
  rw [referenceSection,if_pos loaded.lock]
  refine ⟨_,rfl,?_⟩
  rw [lockedTail]
  -- a group word is neither the lock, nor the tail, nor the end of the list
  have groupWord : ∀ slot<groupSlots, ∀ i<8, ∀ base : Word → Word, ∀ v,
      Function.update (Function.update (Function.update base
        (L.desc (tqOffset+(taskCount-1))+16) 0) L.tailIndex v) L.enqueueLock 0 (L.task slot i)=
      base (L.task slot i) := by
    intro slot hs i hi base v
    rw [Function.update_of_ne (task_ne_outside valid hs hi valid.lock_outside),
      Function.update_of_ne (task_ne_outside valid hs hi valid.tail_outside),
      Function.update_of_ne (task_ne_next valid hs hi hlast)]
  constructor
  · intro i hi
    rw [groupWord _ hslot i (hi.trans_le hc8)]
    exact storeTasks_self valid hslot hc8 hi
  · rw [Function.update_of_ne (next_ne_outside valid hlast valid.lock_outside),
      Function.update_of_ne lastNotTail.symm,Function.update_self]
  · intro slot hs hne i hi
    rw [groupWord slot hs i hi,storeTasks_other fun j hj =>
      task_ne valid hs hslot hi (hj.trans_le hc8) (Or.inl hne),
      Function.update_of_ne (task_ne_outside valid hs hi valid.lock_outside)]
  · rw [Function.update_of_ne tailLock,Function.update_self,Function.update_of_ne lastNotTail,
      tailKept _ hslot]
  · exact Function.update_self ..

/-- A memory with the variables loaded and every other word zero. -/
def blankMemory (L : Layout) (tail : Word) : Word → Word :=
  Function.update (Function.update (Function.update (fun _ => 0) L.taskqueueData L.data)
    L.taskqueueIndex L.index) L.tailIndex tail

/-- The blank memory is loaded. -/
theorem blankMemory_loaded {L : Layout} (valid : L.Valid) (tail : Word) :
    Loaded L (blankMemory L tail) tail := by
  have distinct := valid.distinct
  simp only [List.nodup_cons,List.mem_cons,List.not_mem_nil,or_false,not_or,
    not_false_eq_true,and_true,List.nodup_nil] at distinct
  obtain ⟨⟨tl,td,ti⟩,⟨ld,li⟩,di⟩ := distinct
  constructor
  · simp [blankMemory,Ne.symm td,di]
  · simp [blankMemory,Ne.symm ti]
  · simp [blankMemory]
  · simp [blankMemory,Ne.symm tl,ld,li]

/-- The first group word of a blank memory is zero. -/
theorem blankMemory_index {L : Layout} (valid : L.Valid) (tail : Word) :
    blankMemory L tail (L.task 0 0)=0 := by
  have outside : ∀ {a}, L.Outside a → L.task 0 0≠a :=
    fun ha => task_ne_outside valid (by decide) (by decide) ha
  rw [blankMemory,Function.update_of_ne (outside valid.tail_outside),
    Function.update_of_ne (outside valid.index_outside),
    Function.update_of_ne (outside valid.data_outside)]

/-- With the shifted tail zero both branches leave one memory. -/
theorem referenceSection_eq_inlineResult {L : Layout} {mem : Word → Word} {tail : Word}
    (valid : L.Valid) (loaded : Loaded L mem tail) (h : tail.toNat%2^27=0)
    (taskCount tqOffset : ℕ) : referenceSection L mem taskCount tqOffset=
      some (inlineResult L mem tail taskCount tqOffset) := by
  have tailLock : L.tailIndex≠L.enqueueLock := fun hEq => by
    have distinct := valid.distinct
    simp [hEq] at distinct
  have slot : tail.toNat%groupSlots=0 := by
    simp only [groupSlots]
    omega
  rw [referenceSection,if_pos loaded.lock]
  simp only [inlineResult,inlineStores_eq ((shift_eq_zero_iff tail).mpr h),
    Function.update_of_ne tailLock,loaded.tail,slot]

/-- With a tail whose slot is the first the assembly refines the C branch, because slot 0 is the
slot of all pointers then. -/
theorem sectionRefines_of_shift {L : Layout} {tail : Word} {taskCount tqOffset : ℕ}
    (valid : L.Valid) (hc1 : 1≤taskCount) (hc8 : taskCount≤8) (hoff : tqOffset+8≤descriptors)
    (h : tail.toNat%2^27=0) : SectionRefines L tail taskCount tqOffset := by
  intro reg mem loaded
  obtain ⟨fuel,out,hrun,-,hmem,hwb,hinv⟩ := inlineSection_ends valid loaded hc1 hc8 tqOffset reg
  obtain ⟨ref,href,published⟩ := referenceSection_published valid loaded hc1 hc8 hoff
  have same := referenceSection_eq_inlineResult valid loaded h taskCount tqOffset
  rw [href,← hmem] at same
  obtain rfl := Option.some.inj same
  have line : L.task (tail.toNat%groupSlots) 0=L.index := by
    have slot : tail.toNat%groupSlots=0 := by
      simp only [groupSlots]
      omega
    rw [slot]
    simp [Layout.task]
  rw [← line] at hwb hinv
  exact ⟨fuel,out,out.mem,hrun,href,fun _ _ _ _ => rfl,fun _ _ _ _ => rfl,rfl,rfl,published,
    hwb,hinv⟩

/-- The maintained line is that of slot 0. -/
theorem slot_eq_zero_of_line {L : Layout} (valid : L.Valid) {slot : ℕ} (hslot : slot<groupSlots)
    (h : lineOf L.index=lineOf (L.task slot 0)) : slot=0 := by
  have aligned := valid.index_aligned
  have toNat := task_toNat valid hslot (by decide : 0<8)
  rw [lineOf_aligned aligned,lineOf_aligned (by omega)] at h
  rw [← h] at toNat
  omega

/-- With another tail the first word of slot 0 keeps its content: the first pointer goes to the slot
of the tail, and the others behind that word. -/
theorem inlineResult_index {L : Layout} {tail : Word} {taskCount tqOffset : ℕ} (valid : L.Valid)
    (hc1 : 1≤taskCount) (hc8 : taskCount≤8) (hoff : tqOffset+8≤descriptors)
    (mem : Word → Word) (h : tail.toNat%2^27≠0) :
    inlineResult L mem tail taskCount tqOffset (L.task 0 0)=mem (L.task 0 0) := by
  have slot : 0<groupSlots := by decide
  have outside : ∀ {a}, L.Outside a → L.task 0 0≠a :=
    fun ha => task_ne_outside valid slot (by decide) ha
  have first : L.task 0 0≠tail<<<5+L.index := by
    intro hEq
    have zero : L.task 0 0=0+L.index := by simp [Layout.task]
    rw [zero] at hEq
    exact h ((shift_eq_zero_iff tail).mp ((BitVec.add_left_inj _).mp hEq).symm)
  have hlast : tqOffset+(taskCount-1)<descriptors := by omega
  rw [inlineResult,Function.update_of_ne (outside valid.lock_outside),
    Function.update_of_ne (outside valid.tail_outside),
    Function.update_of_ne (task_ne_next valid slot (by decide) hlast),
    inlineStores_other first fun i hi h0 =>
      task_ne valid slot slot (by decide) (hi.trans_le hc8) (Or.inr (Ne.symm h0)),
    Function.update_of_ne (outside valid.lock_outside)]

/-- The assembly refines the C branch exactly when the tail index shifted by the
size of a group descriptor is zero: when its low 27 bits are. -/
theorem inline_section_refines_iff (L : Layout) (valid : L.Valid) (tail : Word)
    (taskCount tqOffset : ℕ) (hc1 : 1≤taskCount) (hc8 : taskCount≤8)
    (hoff : tqOffset+8≤descriptors) :
    SectionRefines L tail taskCount tqOffset ↔ tail.toNat%2^27=0 := by
  refine ⟨fun refines => ?_,sectionRefines_of_shift valid hc1 hc8 hoff⟩
  by_contra h
  have loaded := blankMemory_loaded valid tail
  obtain ⟨fuel,out,ref,hrun,-,-,-,-,-,published,hwb,-⟩ := refines (fun _ => 0) _ loaded
  obtain ⟨fuel',out',hrun',-,hmem,hwb',-⟩ := inlineSection_ends valid loaded
    hc1 hc8 tqOffset (fun _ => 0)
  obtain rfl := run_unique hrun hrun'
  have hslot : tail.toNat%groupSlots<groupSlots := Nat.mod_lt _ (by decide)
  rw [hwb'] at hwb
  have slot := slot_eq_zero_of_line valid hslot (List.cons.inj hwb).1
  have first := published.tasks 0 hc1
  rw [slot,hmem,inlineResult_index valid hc1 hc8 hoff _ h,blankMemory_index valid] at first
  have toNat := desc_toNat valid (d := tqOffset) (w := 0) (by omega) (by decide)
  have pos := valid.data_pos
  simp only [Nat.mul_zero,BitVec.ofNat_eq_ofNat,BitVec.add_zero,Nat.add_zero] at toNat first
  rw [← first] at toNat
  simp at toNat
  omega

/-- A layout as the allocator may give it: the variables first, then the descriptors and the
groups. -/
def sampleLayout : Layout where
  tailIndex := 0x100
  taskqueueData := 0x104
  taskqueueIndex := 0x108
  enqueueLock := 0x10c
  data := 0x1000000
  index := 0x2000000

/-- The sample layout is valid. -/
theorem sampleLayout_valid : sampleLayout.Valid := by
  constructor <;> decide

/-- The first group of all, with three tasks. -/
theorem inline_section_refines_first :
    SectionRefines sampleLayout 0 3 0 :=
  (inline_section_refines_iff sampleLayout sampleLayout_valid 0 3 0 (by decide) (by decide)
    (by decide)).mpr (by decide)

/-- At tail 1 with two tasks the second pointer is stored in slot 0 and the line of
slot 0 is maintained. -/
theorem inline_section_diverges :
    ¬(∀ L : Layout, L.Valid → ∀ (tail : Word) (taskCount tqOffset : ℕ), 1≤taskCount →
      taskCount≤8 → tqOffset+8≤descriptors → SectionRefines L tail taskCount tqOffset) := by
  intro refines
  have at1 := refines sampleLayout sampleLayout_valid 1 2 8 (by decide) (by decide) (by decide)
  obtain ⟨fuel,out,ref,hrun,-,-,-,-,-,-,hwb,-⟩ := at1 (fun _ => 0) _
    (blankMemory_loaded sampleLayout_valid 1)
  obtain ⟨fuel',out',hrun',-,-,hwb',-⟩ := inlineSection_ends sampleLayout_valid
    (blankMemory_loaded sampleLayout_valid 1) (by decide) (by decide : 2≤8) 8 (fun _ => 0)
  obtain rfl := run_unique hrun hrun'
  rw [hwb'] at hwb
  exact absurd (List.cons.inj hwb).1 (by decide)

end RigelTarget.EnqueueCriticalSection
