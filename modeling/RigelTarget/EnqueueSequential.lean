import RigelTarget.DoubleBuffer
import RigelTarget.EnqueueCriticalSection
import RigelTarget.X86TaskModel

/-!
# The sequential loop enqueue, in assembly and on x86

`SW_TaskQueue_Loop_SEQUENTIAL` writes the descriptors of a loop eight to a group, from the slot
of the tail index on, and publishes every group by an increment of the tail index. The loop is
inline assembly with byte offsets: a descriptor is 32 bytes, a group of eight is 256 bytes, and
the mask `0x007FFFE0` is the modulus of the array. It writes the descriptors that the loop of the
x86 task model passes to its enqueue, for every position of the tail. `sub d, a, b` is read as
`b-a`.

The instructions after the loop look like the end of a function that has saved its registers, but
nothing here saved any: they load registers 20 to 28 with whatever words are above the stack
pointer, and then leave it 44 bytes too high. The assembly declares those registers as changed, but
not the stack pointer, and the frame around it is made by the compiler. The model runs these
instructions like the others, and neither the end of the loop nor the stores depend on them; the
registers at the end of the assembly are not part of its result.
-/

namespace RigelTarget.EnqueueSequential

open DoubleBuffer RigelAssembly EnqueueCriticalSection

/-- Arguments of `SW_TaskQueue_Loop_SEQUENTIAL` whose tasks fit the array, which the function does
not test. -/
structure Call where
  /-- `tot_iters`. -/
  totIters : ℕ
  /-- `iters_per_task`. -/
  itersPerTask : ℕ
  /-- `tdesc->v1`. -/
  v1 : Word
  /-- `tdesc->v2`. -/
  v2 : Word
  /-- At least one iteration per task. -/
  per_pos : 0 < itersPerTask
  /-- The last addition does not overflow. -/
  sum_lt : totIters+itersPerTask<2^31
  /-- At most as many groups as the array has slots. -/
  groups_le : ((totIters+itersPerTask-1)/itersPerTask+7)/8≤groupSlots

/-- The number of tasks. -/
def Call.tasks (c : Call) : ℕ := (c.totIters+c.itersPerTask-1)/c.itersPerTask

/-- The number of groups. -/
def Call.groups (c : Call) : ℕ := (c.tasks+7)/8

/-- The first iteration of task `k`, and the end of task `k-1`. The last task is cut off at the end
of the loop. -/
def Call.start (c : Call) (k : ℕ) : ℕ := min (k*c.itersPerTask) c.totIters

/-- The inline assembly. The operands `%0` to `%3` are registers 10 to 13 and the stack pointer is
register 29; `enq_while` is instruction 8, `enq_for` 11, `tot_iters_lt` 26, `enq_for_end` 40 and
`enq_while_end` 44. -/
def inlineLoop (L : Layout) : List Instr :=
  [.la 20 L.tailIndex,
    .ldw 20 20 0,
    .slli 20 20 8,
    .la 21 L.taskqueueData,
    .ldw 21 21 0,
    .la 22 L.taskqueueIndex,
    .ldw 22 22 0,
    .xor 23 23 23,
    .sub 24 23 10,
    .ble 24 44,
    .xor 24 24 24,
    .addi 25 24 (-8),
    .bge 25 40,
    .sub 25 10 23,
    .bge 25 40,
    .mvui 26 0x007F,
    .ori 26 26 0xFFE0,
    .and 20 20 26,
    .add 26 21 20,
    .stw 12 26 0,
    .stw 13 26 4,
    .stw 23 26 8,
    .add 23 23 11,
    .sub 25 10 23,
    .blt 25 26,
    .addi 23 10 0,
    .stw 23 26 12,
    .addi 25 26 32,
    .stw 25 26 16,
    .lineWb 26,
    .srli 25 20 8,
    .slli 25 25 5,
    .add 25 25 22,
    .srli 27 20 3,
    .andi 27 27 0x001C,
    .add 25 27 25,
    .stw 26 25 0,
    .addi 20 20 32,
    .addi 24 24 1,
    .jmp 11,
    .stw 0 26 16,
    .la 28 L.tailIndex,
    .atomInc 28 28,
    .jmp 8,
    .ldw 20 29 4,
    .ldw 21 29 8,
    .ldw 22 29 12,
    .ldw 23 29 16,
    .ldw 24 29 20,
    .ldw 25 29 24,
    .ldw 26 29 28,
    .ldw 27 29 32,
    .ldw 28 29 36,
    .addi 29 29 44]

/-- The processor at the entry of the assembly: the operands are loaded and every other register
is arbitrary. -/
def entry (c : Call) (reg : ℕ → Word) (mem : Word → Word) : Cpu where
  reg := Function.update (Function.update (Function.update (Function.update reg
    10 (BitVec.ofNat 32 c.totIters)) 11 (BitVec.ofNat 32 c.itersPerTask)) 12 c.v1) 13 c.v2
  mem := mem
  pc := 0
  writtenBack := []
  invalidated := []

/-- `SW_TaskQueue_Loop_SEQUENTIAL`: every thread but thread 0 returns at once, and a lock that is
not free is never obtained. The result is the memory, without the registers at the end of the
assembly; `none` when the fuel does not suffice. -/
def loopSequential (L : Layout) (c : Call) (threadNum : ℕ) (reg : ℕ → Word) (fuel : ℕ)
    (mem : Word → Word) : Option (Word → Word) :=
  if threadNum≠0 then some mem
  else if mem L.enqueueLock≠0 then none
  else (run (inlineLoop L) fuel (entry c reg (Function.update mem L.enqueueLock 1))).map
    fun out => Function.update out.mem L.enqueueLock 0

/-- The descriptors that `TaskQueue_Loop` of the x86 task model passes to `TaskQueue_Enqueue`, from
iteration `start` on; `none` when the fuel does not suffice. -/
def taskQueueLoop (totIters itersPerTask : ℤ) (tdesc : X86TaskModel.TaskDesc) :
    ℕ → ℤ → Option (List X86TaskModel.TaskDesc)
  | 0, start => if start<totIters then none else some []
  | fuel+1, start =>
    match X86TaskModel.offered (.loop start totIters itersPerTask tdesc) with
    | some td => (taskQueueLoop totIters itersPerTask tdesc fuel td.last).map (td::·)
    | none => some []

section Words

/-- A word of an `int` that is not negative. -/
theorem sub_toInt {a b : ℕ} (ha : a<2^31) (hb : b<2^31) :
    (BitVec.ofNat 32 a-BitVec.ofNat 32 b).toInt=(a : ℤ)-b := by
  rw [BitVec.toInt_eq_toNat_cond,BitVec.toNat_sub,BitVec.toNat_ofNat,BitVec.toNat_ofNat,
    Nat.mod_eq_of_lt (by omega : a<2^32),Nat.mod_eq_of_lt (by omega : b<2^32)]
  split
  · omega
  · omega

/-- The test of the number of tasks in a group. -/
theorem sub_eight {k : ℕ} (hk : k≤8) : 0≤(BitVec.ofNat 32 k+(-8 : Word)).toInt ↔ k=8 := by
  have hsub : BitVec.ofNat 32 k+(-8 : Word)=BitVec.ofNat 32 k-BitVec.ofNat 32 8 := by
    rw [BitVec.sub_eq_add_neg]
    rfl
  rw [hsub,sub_toInt (by omega) (by omega)]
  omega

/-- A mask that starts at bit `k` takes a remainder and drops the bits below. -/
theorem and_mask {x k j : ℕ} (h : x%2^k=0) : x&&&(2^j-1)<<<k=x/2^k%2^j*2^k := by
  have hx : x=(x/2^k)<<<k := by
    rw [Nat.shiftLeft_eq]
    exact (Nat.div_mul_cancel (Nat.dvd_of_mod_eq_zero h)).symm
  conv_lhs => rw [hx]
  rw [←Nat.shiftLeft_and_distrib,Nat.and_two_pow_sub_one_eq_mod,Nat.shiftLeft_eq]

/-- The mask of the descriptor array. -/
theorem and_dataMask {x : Word} (h : x.toNat%32=0) :
    x&&&((0x007F : Word)<<<16|||0xFFE0)=BitVec.ofNat 32 (32*(x.toNat/32%descriptors)) := by
  apply BitVec.eq_of_toNat_eq
  have hmask : ((0x007F : Word)<<<16|||0xFFE0).toNat=(2^18-1)<<<5 := by decide
  rw [BitVec.toNat_and,hmask,and_mask (by exact h),BitVec.toNat_ofNat]
  unfold descriptors
  omega

/-- The position in the group of a descriptor. -/
theorem and_groupMask (d : ℕ) : 4*d&&&0x1C=4*(d%8) := by
  have h := and_mask (x := 4*d) (k := 2) (j := 3) (by omega)
  have hmask : (2^3-1)<<<2=0x1C := by decide
  rw [hmask] at h
  rw [h]
  omega

end Words

section Execution

variable (L : Layout) (c : Call) (tail : Word) (mem : Word → Word)

/-- The descriptor of task `k`. -/
def descOf (k : ℕ) : ℕ := (8*tail.toNat+k)%descriptors

/-- The stores of task `k`: the words of its descriptor, then its pointer in the slot of its
group. -/
def taskWrites (k : ℕ) : List (Word×Word) :=
  let d := descOf tail k
  [(L.desc d+0,c.v1),(L.desc d+4,c.v2),(L.desc d+8,BitVec.ofNat 32 (c.start k)),
    (L.desc d+12,BitVec.ofNat 32 (c.start (k+1))),(L.desc d+16,L.desc d+32),
    (L.task (d/8) (d%8),L.desc d)]

/-- The words of the descriptor of task `k`, as stored with the task: `v1`, `v2`, `begin`, `end`
and `next`. -/
def field (k : ℕ) : ℕ → Word
  | 0 => c.v1
  | 1 => c.v2
  | 2 => BitVec.ofNat 32 (c.start k)
  | 3 => BitVec.ofNat 32 (c.start (k+1))
  | _ => L.desc (descOf tail k)+32

/-- The stores of the first `n` tasks of group `g`. -/
def fillWrites (g n : ℕ) : List (Word×Word) :=
  (List.range n).flatMap fun i => taskWrites L c tail (8*g+i)

/-- The number of tasks of group `g`. -/
def Call.groupSize (g : ℕ) : ℕ := min 8 (c.tasks-8*g)

/-- The stores of group `g`: its tasks, the end of its list and the tail index, in this order. -/
def groupWrites (g : ℕ) : List (Word×Word) :=
  fillWrites L c tail g (c.groupSize g)++
    [(L.desc (descOf tail (8*g+c.groupSize g-1))+16,0),(L.tailIndex,tail+BitVec.ofNat 32 (g+1))]

/-- The stores of the first `g` groups. -/
def log (g : ℕ) : List (Word×Word) := (List.range g).flatMap (groupWrites L c tail)

/-- The registers that the loop does not change: the operands of the assembly and the addresses of
both arrays. -/
structure Operands (reg : ℕ → Word) : Prop where
  /-- `tot_iters`. -/
  r10 : reg 10=BitVec.ofNat 32 c.totIters
  /-- `iters_per_task`. -/
  r11 : reg 11=BitVec.ofNat 32 c.itersPerTask
  /-- `tdesc->v1`. -/
  r12 : reg 12=c.v1
  /-- `tdesc->v2`. -/
  r13 : reg 13=c.v2
  /-- The descriptor array. -/
  r21 : reg 21=L.data
  /-- The group array. -/
  r22 : reg 22=L.index

/-- `data_idx` before the mask: the next task is `k`. -/
def DataIdx (r : Word) (k : ℕ) : Prop := r.toNat%32=0 ∧ r.toNat/32%descriptors=descOf tail k

/-- The processor at `enq_while` with `g` groups published. It is the invariant of the outer
loop. -/
structure AtWhile (g : ℕ) (cpu : Cpu) : Prop where
  /-- The test of the while loop is next. -/
  pc : cpu.pc=8
  /-- The operands. -/
  operands : Operands L c cpu.reg
  /-- `data_idx`. -/
  r20 : 8*g ≤ c.tasks → DataIdx tail (cpu.reg 20) (8*g)
  /-- `start`. -/
  r23 : cpu.reg 23=BitVec.ofNat 32 (c.start (8*g))
  /-- The memory. -/
  mem : cpu.mem=stores mem (log L c tail g)

/-- The processor at `enq_for` with `i` tasks of group `g` written. It is the invariant of the inner
loop. -/
structure AtFor (g i : ℕ) (cpu : Cpu) : Prop where
  /-- The test of the for loop is next. -/
  pc : cpu.pc=11
  /-- The operands. -/
  operands : Operands L c cpu.reg
  /-- The tasks of the group. -/
  count : i ≤ c.groupSize g
  /-- `data_idx`. -/
  r20 : DataIdx tail (cpu.reg 20) (8*g+i)
  /-- `start`. -/
  r23 : cpu.reg 23=BitVec.ofNat 32 (c.start (8*g+i))
  /-- `task_count`. -/
  r24 : cpu.reg 24=BitVec.ofNat 32 i
  /-- The descriptor written last. -/
  r26 : 0 < i → cpu.reg 26=L.desc (descOf tail (8*g+i-1))
  /-- The memory. -/
  mem : cpu.mem=stores mem (log L c tail g++fillWrites L c tail g i)

/-- The processor inside the for loop, with the descriptor of the next task in its register and
the stores `ws` of the task made. -/
structure InTask (g i next first : ℕ) (ws : List (Word×Word)) (cpu : Cpu) : Prop where
  /-- The next instruction. -/
  pc : cpu.pc=next
  /-- The operands. -/
  operands : Operands L c cpu.reg
  /-- `data_idx`. -/
  r20 : cpu.reg 20=BitVec.ofNat 32 (32*descOf tail (8*g+i))
  /-- `start`. -/
  r23 : cpu.reg 23=BitVec.ofNat 32 first
  /-- `task_count`. -/
  r24 : cpu.reg 24=BitVec.ofNat 32 i
  /-- The descriptor. -/
  r26 : cpu.reg 26=L.desc (descOf tail (8*g+i))
  /-- The memory. -/
  mem : cpu.mem=stores mem (log L c tail g++fillWrites L c tail g i++ws)

variable {L c tail mem}

/-- The tasks are those that start below the total. -/
theorem Call.lt_tasks_iff {k : ℕ} : k < c.tasks ↔ k*c.itersPerTask < c.totIters := by
  have hper := c.per_pos
  unfold Call.tasks
  rw [Nat.lt_iff_add_one_le,Nat.le_div_iff_mul_le hper,Nat.add_mul,Nat.one_mul]
  omega

/-- A task starts at a multiple of the iterations per task. -/
theorem Call.start_eq {k : ℕ} (h : k < c.tasks) : c.start k=k*c.itersPerTask :=
  Nat.min_eq_left (Nat.le_of_lt (Call.lt_tasks_iff.1 h))

/-- Past the last task `start` is the total. -/
theorem Call.start_end {k : ℕ} (h : c.tasks≤k) : c.start k=c.totIters :=
  Nat.min_eq_right (Nat.le_of_not_lt fun hlt => absurd (Call.lt_tasks_iff.2 hlt) (Nat.not_lt.2 h))

/-- `start` is an `int`. -/
theorem Call.start_lt (k : ℕ) : c.start k<2^31 := by
  have h := c.sum_lt
  have hle : c.start k ≤ c.totIters := Nat.min_le_right _ _
  omega

/-- `start` is below the total for the tasks. -/
theorem Call.start_lt_iff {k : ℕ} : c.start k < c.totIters ↔ k < c.tasks := by
  rw [Call.lt_tasks_iff]
  unfold Call.start
  omega

/-- The operands do not depend on the other registers. -/
theorem Operands.update {reg : ℕ → Word} (h : Operands L c reg) {r : ℕ} (v : Word)
    (hr : r∉[10,11,12,13,21,22]) : Operands L c (Function.update reg r v) := by
  simp only [List.mem_cons,List.not_mem_nil,or_false,not_or] at hr
  obtain ⟨h10,h11,h12,h13,h21,h22⟩ := hr
  exact ⟨by rw [Function.update_of_ne (Ne.symm h10)]; exact h.r10,
    by rw [Function.update_of_ne (Ne.symm h11)]; exact h.r11,
    by rw [Function.update_of_ne (Ne.symm h12)]; exact h.r12,
    by rw [Function.update_of_ne (Ne.symm h13)]; exact h.r13,
    by rw [Function.update_of_ne (Ne.symm h21)]; exact h.r21,
    by rw [Function.update_of_ne (Ne.symm h22)]; exact h.r22⟩

/-- The prologue: the tail index in bytes and the arrays. -/
theorem entered (hdata : mem L.taskqueueData=L.data) (hindex : mem L.taskqueueIndex=L.index)
    (htail : mem L.tailIndex=tail) (reg : ℕ → Word) :
    Leads (inlineLoop L) (entry c reg mem) (AtWhile L c tail mem 0) := by
  iterate 8 refine Leads.step rfl ?_
  refine Leads.here ⟨rfl,?_,fun _ => ?_,?_,rfl⟩
  · constructor <;> simp [exec,Cpu.set,Cpu.get,entry,hdata,hindex]
  · have h20 : (tail<<<8).toNat=tail.toNat*256%2^32 := by
      rw [BitVec.toNat_shiftLeft,Nat.shiftLeft_eq]
    have hlt := tail.isLt
    unfold DataIdx descOf descriptors
    simp only [exec,Cpu.set,Cpu.get,entry]
    simp [htail]
    omega
  · have hstart : c.start (8*0)=0 := by simp [Call.start]
    rw [hstart]
    simp [exec,Cpu.set,Cpu.get,entry]

/-- The while loop is entered for a group that has tasks. -/
theorem while_for {g : ℕ} {cpu : Cpu} (h : AtWhile L c tail mem g cpu) (hg : 8*g < c.tasks) :
    Leads (inlineLoop L) cpu (AtFor L c tail mem g 0) := by
  obtain ⟨reg,cpuMem,pc,wb,inv⟩ := cpu
  obtain ⟨rfl,ops,r20,r23,rfl⟩ := h
  dsimp only at ops r20 r23
  have hlt := c.start_lt_iff.2 hg
  have htot := c.sum_lt
  have hdiff := sub_toInt (a := c.totIters) (b := c.start (8*g)) (by omega) (Call.start_lt _)
  refine Leads.step rfl (Leads.fall rfl rfl ?_ (Leads.step rfl (Leads.here ?_)))
  · apply decide_eq_false
    simp only [exec,Cpu.set,Cpu.get,Function.update_self,OfNat.ofNat_ne_zero,if_false,ops.r10,r23,
      hdiff]
    omega
  · refine ⟨rfl,?_,Nat.zero_le _,?_,?_,?_,fun h0 => absurd h0 (Nat.lt_irrefl 0),?_⟩
    · exact (ops.update _ (by decide)).update _ (by decide)
    · exact r20 (Nat.le_of_lt hg)
    · exact r23
    · simp [exec,Cpu.set,Cpu.get]
    · simp [fillWrites,exec,Cpu.set]

/-- A group has at most eight tasks, all below the number of tasks. -/
theorem Call.lt_groupSize {g i : ℕ} (h : i < c.groupSize g) : i<8 ∧ 8*g+i < c.tasks := by
  unfold Call.groupSize at h
  omega

/-- The for loop is entered for a task of the group. Its registers are those of the tasks before
it. -/
theorem for_task {g i : ℕ} {cpu : Cpu} (h : AtFor L c tail mem g i cpu) (hi : i < c.groupSize g) :
    Leads (inlineLoop L) cpu (InTask L c tail mem g i 19 (c.start (8*g+i)) []) := by
  obtain ⟨reg,cpuMem,pc,wb,inv⟩ := cpu
  obtain ⟨rfl,ops,-,r20,r23,r24,-,rfl⟩ := h
  dsimp only at ops r20 r23 r24
  obtain ⟨hi8,htask⟩ := Call.lt_groupSize hi
  have hlt := c.start_lt_iff.2 htask
  have htot := c.sum_lt
  have hcount := sub_eight (k := i) (by omega)
  have hdiff := sub_toInt (a := c.start (8*g+i)) (b := c.totIters) (Call.start_lt _) (by omega)
  have hmask := and_dataMask r20.1
  rw [r20.2] at hmask
  refine Leads.step rfl (Leads.fall rfl rfl ?_ (Leads.step rfl (Leads.fall rfl rfl ?_ ?_)))
  · apply decide_eq_false
    simp only [exec,Cpu.set,Cpu.get,Function.update_self,OfNat.ofNat_ne_zero,if_false,r24]
    omega
  · apply decide_eq_false
    simp [exec,Cpu.set,Cpu.get,ops.r10,r23,hdiff]
    omega
  · iterate 4 refine Leads.step rfl ?_
    refine Leads.here ⟨rfl,?_,?_,?_,?_,?_,?_⟩
    · iterate 6 refine Operands.update ?_ _ (by decide)
      exact ops
    · simpa [exec,Cpu.set,Cpu.get] using hmask
    · simpa [exec,Cpu.set,Cpu.get] using r23
    · simpa [exec,Cpu.set,Cpu.get] using r24
    · simpa [exec,Cpu.set,Cpu.get,ops.r21,Layout.desc] using hmask
    · simp [exec,Cpu.set]

/-- The first words of the descriptor, and the end of the task: the last iteration is cut to the
total. -/
theorem task_end {g i : ℕ} {cpu : Cpu}
    (h : InTask L c tail mem g i 19 (c.start (8*g+i)) [] cpu) (hi : i < c.groupSize g) :
    Leads (inlineLoop L) cpu (InTask L c tail mem g i 26 (c.start (8*g+i+1))
      ((taskWrites L c tail (8*g+i)).take 3)) := by
  obtain ⟨reg,cpuMem,pc,wb,inv⟩ := cpu
  obtain ⟨rfl,ops,r20,r23,r24,r26,hcpu⟩ := h
  rw [List.append_nil] at hcpu
  dsimp only at ops r20 r23 r24 r26 hcpu
  subst hcpu
  obtain ⟨-,htask⟩ := Call.lt_groupSize hi
  have htot := c.sum_lt
  have hstart := c.start_eq htask
  have hlt := c.start_lt_iff.2 htask
  have hdiff := sub_toInt (a := c.start (8*g+i)+c.itersPerTask) (b := c.totIters) (by omega)
    (by omega)
  have hnext : c.start (8*g+i+1)=min (c.start (8*g+i)+c.itersPerTask) c.totIters := by
    rw [hstart,Call.start,Nat.add_mul (8*g+i) 1,Nat.one_mul]
  have hmem : ∀ base : Word → Word, Function.update (Function.update (Function.update base
      (reg 26+0) (reg 12)) (reg 26+4) (reg 13)) (reg 26+8) (reg 23)=
      stores base ((taskWrites L c tail (8*g+i)).take 3) := by
    intro base
    rw [r26,ops.r12,ops.r13,r23]
    rfl
  iterate 5 refine Leads.step rfl ?_
  by_cases hclamp : c.start (8*g+i)+c.itersPerTask < c.totIters
  · rw [Nat.min_eq_left (Nat.le_of_lt hclamp)] at hnext
    refine Leads.taken rfl rfl ?_ (Leads.here ⟨rfl,?_,?_,?_,?_,?_,?_⟩)
    · apply decide_eq_true
      simp [exec,Cpu.set,Cpu.get,Cpu.store,ops.r10,ops.r11,r23,←BitVec.ofNat_add,hdiff]
      omega
    · exact (ops.update _ (by decide)).update _ (by decide)
    · simpa [exec,Cpu.set,Cpu.get,Cpu.store] using r20
    · simp [exec,Cpu.set,Cpu.get,Cpu.store,ops.r11,r23,hnext,BitVec.ofNat_add]
    · simpa [exec,Cpu.set,Cpu.get,Cpu.store] using r24
    · simpa [exec,Cpu.set,Cpu.get,Cpu.store] using r26
    · rw [stores_append mem _ (List.take _ _),←hmem]
      rfl
  · rw [Nat.min_eq_right (Nat.le_of_not_lt hclamp)] at hnext
    refine Leads.fall rfl rfl ?_ (Leads.step rfl (Leads.here ⟨rfl,?_,?_,?_,?_,?_,?_⟩))
    · apply decide_eq_false
      simp [exec,Cpu.set,Cpu.get,Cpu.store,ops.r10,ops.r11,r23,←BitVec.ofNat_add,hdiff]
      omega
    · exact ((ops.update _ (by decide)).update _ (by decide)).update _ (by decide)
    · simpa [exec,Cpu.set,Cpu.get,Cpu.store] using r20
    · simp [exec,Cpu.set,Cpu.get,Cpu.store,ops.r10,hnext]
    · simpa [exec,Cpu.set,Cpu.get,Cpu.store] using r24
    · simpa [exec,Cpu.set,Cpu.get,Cpu.store] using r26
    · rw [stores_append mem _ (List.take _ _),←hmem]
      rfl

/-- The address of the pointer of descriptor `d` from its byte offset. Eight pointers make a slot of
32 bytes. -/
theorem slot_address (L : Layout) {d : ℕ} (hd : d<descriptors) :
    (BitVec.ofNat 32 (32*d)>>>3&&&(0x1C : Word))+(BitVec.ofNat 32 (32*d)>>>8<<<5+L.index)=
      L.task (d/8) (d%8) := by
  have hd' : d<2^18 := hd
  have hlow : BitVec.ofNat 32 (32*d)>>>3&&&(0x1C : Word)=BitVec.ofNat 32 (4*(d%8)) := by
    apply BitVec.eq_of_toNat_eq
    rw [BitVec.toNat_and,BitVec.toNat_ushiftRight,BitVec.toNat_ofNat,BitVec.toNat_ofNat,
      Nat.shiftRight_eq_div_pow,Nat.mod_eq_of_lt (by omega)]
    have hdiv : 32*d/2^3=4*d := by omega
    rw [hdiv]
    exact (and_groupMask d).trans (Nat.mod_eq_of_lt (by omega)).symm
  have hhigh : BitVec.ofNat 32 (32*d)>>>8<<<5=BitVec.ofNat 32 (32*(d/8)) := by
    apply BitVec.eq_of_toNat_eq
    rw [BitVec.toNat_shiftLeft,BitVec.toNat_ushiftRight,BitVec.toNat_ofNat,BitVec.toNat_ofNat,
      Nat.shiftRight_eq_div_pow,Nat.shiftLeft_eq]
    omega
  rw [hlow,hhigh,Layout.task,BitVec.ofNat_add,BitVec.add_comm,BitVec.add_comm _ L.index,
    BitVec.add_assoc]

/-- The next task has the next descriptor. -/
theorem dataIdx_succ {k : ℕ} : DataIdx tail (BitVec.ofNat 32 (32*descOf tail k)+32) (k+1) := by
  have hd : descOf tail k<2^18 := Nat.mod_lt _ (by decide)
  have hval : (BitVec.ofNat 32 (32*descOf tail k)+32).toNat=32*descOf tail k+32 := by
    have h32 : (32 : Word).toNat=32 := rfl
    rw [BitVec.toNat_add,BitVec.toNat_ofNat,h32]
    omega
  rw [DataIdx,hval]
  unfold descOf descriptors
  omega

/-- One more task of a group. -/
theorem fillWrites_succ (L : Layout) (c : Call) (tail : Word) (g n : ℕ) :
    fillWrites L c tail g (n+1)=fillWrites L c tail g n++taskWrites L c tail (8*g+n) := by
  rw [fillWrites,List.range_succ,List.flatMap_append,List.flatMap_singleton]
  rfl

/-- The rest of the descriptor, its pointer in the slot, and the counters. Control is back at the
test of the loop. -/
theorem task_for {g i : ℕ} {cpu : Cpu}
    (h : InTask L c tail mem g i 26 (c.start (8*g+i+1)) ((taskWrites L c tail (8*g+i)).take 3) cpu)
    (hi : i < c.groupSize g) : Leads (inlineLoop L) cpu (AtFor L c tail mem g (i+1)) := by
  obtain ⟨reg,cpuMem,pc,wb,inv⟩ := cpu
  obtain ⟨rfl,ops,r20,r23,r24,r26,hcpu⟩ := h
  rw [stores_append] at hcpu
  dsimp only at ops r20 r23 r24 r26 hcpu
  subst hcpu
  have hd : descOf tail (8*g+i)<descriptors := Nat.mod_lt _ (by decide)
  have haddress := slot_address L hd
  rw [←r20,←ops.r22] at haddress
  have hmem : ∀ base : Word → Word, Function.update (Function.update (Function.update
      (stores base ((taskWrites L c tail (8*g+i)).take 3))
      (reg 26+12) (reg 23)) (reg 26+16) (reg 26+32))
      ((reg 20>>>3&&&(0x1C : Word))+(reg 20>>>8<<<5+reg 22)+0) (reg 26)=
      stores base (taskWrites L c tail (8*g+i)) := by
    intro base
    have hzero : ∀ a : Word, a+0=a := fun a => BitVec.add_zero a
    rw [haddress,hzero,r26,r23]
    rfl
  have hidx : DataIdx tail (reg 20+32) (8*g+(i+1)) := by
    rw [r20]
    exact dataIdx_succ
  rw [Nat.add_assoc] at r23
  iterate 14 refine Leads.step rfl ?_
  refine Leads.here ⟨rfl,?_,hi,?_,?_,?_,fun _ => ?_,?_⟩
  · iterate 9 refine Operands.update ?_ _ (by decide)
    exact ops
  · simpa [exec,Cpu.set,Cpu.get,Cpu.store] using hidx
  · simpa [exec,Cpu.set,Cpu.get,Cpu.store] using r23
  · simp [exec,Cpu.set,Cpu.get,Cpu.store,r24,BitVec.ofNat_add]
  · simpa [exec,Cpu.set,Cpu.get,Cpu.store] using r26
  · rw [fillWrites_succ,←List.append_assoc,stores_append mem _ (taskWrites _ _ _ _),←hmem]
    rfl

/-- All tasks of a group. -/
theorem for_group {g i : ℕ} {cpu : Cpu} (h : AtFor L c tail mem g 0 cpu) (hi : i ≤ c.groupSize g) :
    Leads (inlineLoop L) cpu (AtFor L c tail mem g i) := by
  induction i with
  | zero => exact Leads.here h
  | succ i ih =>
    exact (ih (by omega)).trans fun _ hfor => (for_task hfor hi).trans fun _ htask =>
      (task_end htask hi).trans fun _ hend => task_for hend hi

/-- A store of a task is a field of its descriptor or its pointer. -/
theorem mem_taskWrites {k : ℕ} {w : Word×Word} : w∈taskWrites L c tail k ↔
    (∃ f, f<5 ∧ w=(L.desc (descOf tail k)+BitVec.ofNat 32 (4*f),field L c tail k f)) ∨
      w=(L.task (descOf tail k/8) (descOf tail k%8),L.desc (descOf tail k)) := by
  simp only [taskWrites,List.mem_cons,List.not_mem_nil,or_false]
  constructor
  · rintro (rfl|rfl|rfl|rfl|rfl|rfl)
    · exact .inl ⟨0,by decide,rfl⟩
    · exact .inl ⟨1,by decide,rfl⟩
    · exact .inl ⟨2,by decide,rfl⟩
    · exact .inl ⟨3,by decide,rfl⟩
    · exact .inl ⟨4,by decide,rfl⟩
    · exact .inr rfl
  · rintro (⟨f,hf,rfl⟩|rfl)
    · match f,hf with
      | 0,_ => exact .inl rfl
      | 1,_ => exact .inr (.inl rfl)
      | 2,_ => exact .inr (.inr (.inl rfl))
      | 3,_ => exact .inr (.inr (.inr (.inl rfl)))
      | 4,_ => exact .inr (.inr (.inr (.inr (.inl rfl))))
    · exact .inr (.inr (.inr (.inr (.inr rfl))))

/-- Descriptors are in the array. -/
theorem descOf_lt (tail : Word) (k : ℕ) : descOf tail k<descriptors :=
  Nat.mod_lt _ (Nat.two_pow_pos 18)

/-- Descriptors are in the slots of the group array. -/
theorem descOf_slot (tail : Word) (k : ℕ) : descOf tail k/8<groupSlots := by
  have h := descOf_lt tail k
  unfold descriptors at h
  unfold groupSlots
  omega

/-- The tasks write to no variable. -/
theorem taskWrites_outside (valid : L.Valid) {a : Word} (ha : L.Outside a) {k : ℕ}
    {w : Word×Word} (h : w∈taskWrites L c tail k) : w.1≠a := by
  have hd := descOf_lt tail k
  obtain ⟨f,hf,rfl⟩|rfl := mem_taskWrites.1 h
  · exact desc_ne_outside valid hd (by omega) ha
  · exact task_ne_outside valid (descOf_slot tail k) (Nat.mod_lt _ (by decide)) ha

/-- The stores of one more group. -/
theorem log_succ (L : Layout) (c : Call) (tail : Word) (g : ℕ) :
    log L c tail (g+1)=log L c tail g++groupWrites L c tail g := by
  rw [log,List.range_succ,List.flatMap_append,List.flatMap_singleton]
  rfl

/-- The tail index counts the groups. -/
theorem log_tail (htail : mem L.tailIndex=tail) (g : ℕ) :
    stores mem (log L c tail g) L.tailIndex=tail+BitVec.ofNat 32 g := by
  cases g with
  | zero =>
    have hzero : tail+0=tail := BitVec.add_zero tail
    exact htail.trans hzero.symm
  | succ g =>
    rw [log_succ,groupWrites,←List.append_assoc,stores_append]
    exact Function.update_self ..

/-- The tasks of a group do not change the tail index. -/
theorem fill_tail (valid : L.Valid) (htail : mem L.tailIndex=tail) (g i : ℕ) :
    stores mem (log L c tail g++fillWrites L c tail g i) L.tailIndex=tail+BitVec.ofNat 32 g := by
  rw [stores_append,stores_keep,log_tail htail]
  intro w hw
  obtain ⟨j,-,hj⟩ := List.mem_flatMap.1 hw
  exact taskWrites_outside valid valid.tail_outside hj

/-- The for loop is left after the last task of the group, which is the eighth one or ends the
iterations. -/
theorem for_leave {g : ℕ} {cpu : Cpu} (h : AtFor L c tail mem g (c.groupSize g) cpu) :
    Leads (inlineLoop L) cpu fun out =>
      ∃ v, out={cpu with pc := 40,reg := Function.update cpu.reg 25 v} := by
  obtain ⟨reg,cpuMem,pc,wb,inv⟩ := cpu
  obtain ⟨rfl,ops,-,-,r23,r24,-,rfl⟩ := h
  dsimp only at ops r23 r24
  have htot := c.sum_lt
  have hle : c.groupSize g≤8 := Nat.min_le_left _ _
  have hcount := sub_eight hle
  by_cases hfull : c.groupSize g=8
  · refine Leads.step rfl (Leads.taken rfl rfl ?_ (Leads.here ⟨_,rfl⟩))
    apply decide_eq_true
    simp only [exec,Cpu.set,Cpu.get,Function.update_self,OfNat.ofNat_ne_zero,if_false,r24]
    exact hcount.2 hfull
  · have hend : c.tasks≤8*g+c.groupSize g := by
      unfold Call.groupSize at hfull ⊢
      omega
    rw [c.start_end hend] at r23
    refine Leads.step rfl (Leads.fall rfl rfl ?_ (Leads.step rfl (Leads.taken rfl rfl ?_
      (Leads.here ⟨reg 23-reg 10,?_⟩))))
    · apply decide_eq_false
      simp only [exec,Cpu.set,Cpu.get,Function.update_self,OfNat.ofNat_ne_zero,if_false,r24]
      exact fun hge => hfull (hcount.1 hge)
    · apply decide_eq_true
      simp [exec,Cpu.set,Cpu.get,ops.r10,r23]
    · simp [exec,Cpu.set,Cpu.get]

/-- The end of a group: its last descriptor ends the list and the group is published by the store of
the tail index. -/
theorem for_end {g : ℕ} {cpu : Cpu} (valid : L.Valid) (htail : mem L.tailIndex=tail)
    (h : AtFor L c tail mem g (c.groupSize g) cpu) (hg : 8*g < c.tasks) :
    Leads (inlineLoop L) cpu (AtWhile L c tail mem (g+1)) := by
  refine (for_leave h).trans ?_
  rintro _ ⟨v,rfl⟩
  obtain ⟨reg,cpuMem,pc,wb,inv⟩ := cpu
  obtain ⟨rfl,ops,-,r20,r23,r24,r26,rfl⟩ := h
  dsimp only at ops r20 r23 r24 r26
  have hsize : c.groupSize g=min 8 (c.tasks-8*g) := rfl
  have hlast := r26 (by omega)
  have htailVal := fill_tail (c := c) valid htail g (c.groupSize g)
  iterate 4 refine Leads.step rfl ?_
  refine Leads.here ⟨rfl,?_,fun hle => ?_,?_,?_⟩
  · iterate 3 refine Operands.update ?_ _ (by decide)
    exact ops
  · have hfull : 8*g+c.groupSize g=8*(g+1) := by omega
    rw [hfull] at r20
    simpa [exec,Cpu.set,Cpu.get,Cpu.store] using r20
  · have hstart : c.start (8*g+c.groupSize g)=c.start (8*(g+1)) := by
      by_cases hfull : 8*(g+1) ≤ c.tasks
      · congr 1
        omega
      · rw [c.start_end (by omega),c.start_end (by omega)]
    rw [hstart] at r23
    simpa [exec,Cpu.set,Cpu.get,Cpu.store] using r23
  · have hne := next_ne_outside valid (descOf_lt tail (8*g+c.groupSize g-1)) valid.tail_outside
    have hvalue : Function.update (stores mem (log L c tail g++
        fillWrites L c tail g (c.groupSize g))) (reg 26+16) 0 L.tailIndex+1=
        tail+BitVec.ofNat 32 (g+1) := by
      rw [hlast,Function.update_of_ne hne.symm,htailVal,BitVec.add_assoc,BitVec.ofNat_add]
      rfl
    rw [log_succ,groupWrites,←List.append_assoc,stores_append _ _ [_,_],←hvalue,←hlast]
    rfl

/-- The while loop is left when every task is written. -/
theorem while_end {g : ℕ} {cpu : Cpu} (h : AtWhile L c tail mem g cpu) (hg : c.tasks≤8*g) :
    Leads (inlineLoop L) cpu fun out => out.pc=54 ∧ out.mem=stores mem (log L c tail g) := by
  obtain ⟨reg,cpuMem,pc,wb,inv⟩ := cpu
  obtain ⟨rfl,ops,-,r23,rfl⟩ := h
  dsimp only at ops r23
  rw [c.start_end hg] at r23
  refine Leads.step rfl (Leads.taken rfl rfl ?_ ?_)
  · apply decide_eq_true
    simp [exec,Cpu.set,Cpu.get,ops.r10,r23]
  · iterate 10 refine Leads.step rfl ?_
    exact Leads.here ⟨rfl,rfl⟩

/-- The first `g` groups. -/
theorem while_groups {g : ℕ} {cpu : Cpu} (valid : L.Valid) (htail : mem L.tailIndex=tail)
    (h : AtWhile L c tail mem 0 cpu) (hg : g ≤ c.groups) :
    Leads (inlineLoop L) cpu (AtWhile L c tail mem g) := by
  induction g with
  | zero => exact Leads.here h
  | succ g ih =>
    have hlt : 8*g < c.tasks := by
      unfold Call.groups at hg
      omega
    exact (ih (by omega)).trans fun _ hwhile => (while_for hwhile hlt).trans fun _ hfor =>
      (for_group hfor le_rfl).trans fun _ hall => for_end valid htail hall hlt

/-- The assembly ends, and it has made the stores of all groups. -/
theorem inlineLoop_ends (valid : L.Valid) (hdata : mem L.taskqueueData=L.data)
    (hindex : mem L.taskqueueIndex=L.index) (htail : mem L.tailIndex=tail) (reg : ℕ → Word) :
    ∃ fuel out, run (inlineLoop L) fuel (entry c reg mem)=some out ∧
      out.mem=stores mem (log L c tail c.groups) := by
  have hall : c.tasks≤8*c.groups := by
    unfold Call.groups
    omega
  have hleads := (entered (c := c) hdata hindex htail reg).trans fun _ h =>
    (while_groups valid htail h le_rfl).trans fun _ hlast => while_end hlast hall
  obtain ⟨fuel,out,hrun,-,hmem⟩ := hleads.finished fun out hout => Nat.le_of_eq hout.1.symm
  exact ⟨fuel,out,hrun,hmem⟩

/-- Two descriptor words at one address. -/
theorem desc_inj (valid : L.Valid) {d e f k : ℕ} (hd : d<descriptors) (he : e<descriptors)
    (hf : f<8) (hk : k<8)
    (h : L.desc d+BitVec.ofNat 32 (4*f)=L.desc e+BitVec.ofNat 32 (4*k)) : d=e ∧ f=k := by
  have hval := congrArg BitVec.toNat h
  rw [desc_toNat valid hd hf,desc_toNat valid he hk] at hval
  omega

/-- The tasks of a call fit the array. -/
theorem Call.tasks_le (c : Call) : c.tasks≤2^18 := by
  have h : (c.tasks+7)/8≤2^15 := c.groups_le
  omega

/-- Tasks of a call have different descriptors. -/
theorem descOf_inj {k k' : ℕ} (hk : k < c.tasks) (hk' : k' < c.tasks)
    (h : descOf tail k=descOf tail k') : k=k' := by
  have hle := c.tasks_le
  unfold descOf descriptors at h
  omega

/-- The last task of its group. -/
def Call.LastOfGroup (c : Call) (k : ℕ) : Prop := (k+1)%8=0 ∨ k+1=c.tasks

/-- A store of a group: of one of its tasks, the end of its list, or the tail index. -/
theorem mem_groupWrites {g : ℕ} {w : Word×Word} (hg : g < c.groups)
    (h : w∈groupWrites L c tail g) :
    (∃ k, k < c.tasks ∧ k/8=g ∧ w∈taskWrites L c tail k) ∨
    (∃ k, k < c.tasks ∧ k/8=g ∧ c.LastOfGroup k ∧ w=(L.desc (descOf tail k)+16,0)) ∨
    w.1=L.tailIndex := by
  have hpos : 8*g < c.tasks := by
    unfold Call.groups at hg
    omega
  have hsize : c.groupSize g=min 8 (c.tasks-8*g) := rfl
  obtain hfill|hend := List.mem_append.1 h
  · obtain ⟨i,hi,hiw⟩ := List.mem_flatMap.1 hfill
    have hlt := List.mem_range.1 hi
    exact .inl ⟨8*g+i,by omega,by omega,hiw⟩
  · simp only [List.mem_cons,List.not_mem_nil,or_false] at hend
    obtain rfl|rfl := hend
    · refine .inr (.inl ⟨8*g+c.groupSize g-1,by omega,by omega,?_,rfl⟩)
      unfold Call.LastOfGroup
      omega
    · exact .inr (.inr rfl)

/-- A store of the call: of a task, the end of a list, or the tail index. -/
theorem mem_log {w : Word×Word} (h : w∈log L c tail c.groups) :
    (∃ k, k < c.tasks ∧ w∈taskWrites L c tail k) ∨
    (∃ k, k < c.tasks ∧ c.LastOfGroup k ∧ w=(L.desc (descOf tail k)+16,0)) ∨
    w.1=L.tailIndex := by
  obtain ⟨g,hg,hw⟩ := List.mem_flatMap.1 h
  obtain ⟨k,hk,-,hkw⟩|⟨k,hk,-,hlast⟩|htail := mem_groupWrites (List.mem_range.1 hg) hw
  · exact .inl ⟨k,hk,hkw⟩
  · exact .inr (.inl ⟨k,hk,hlast⟩)
  · exact .inr (.inr htail)

/-- The stores of a task are made. -/
theorem taskWrites_mem_log {k : ℕ} (hk : k < c.tasks) {w : Word×Word}
    (h : w∈taskWrites L c tail k) : w∈log L c tail c.groups := by
  have hgroup : k/8 < c.groups := by
    unfold Call.groups
    omega
  have hsize : k%8 < c.groupSize (k/8) := by
    unfold Call.groupSize
    omega
  refine List.mem_flatMap.2 ⟨k/8,List.mem_range.2 hgroup,List.mem_append_left _ ?_⟩
  refine List.mem_flatMap.2 ⟨k%8,List.mem_range.2 hsize,?_⟩
  rw [Nat.div_add_mod]
  exact h

/-- A field of a descriptor is written by its task, except that the end of the list is written
after its `next`. -/
theorem log_field (valid : L.Valid) {k f : ℕ} (hk : k < c.tasks) (hf : f<5)
    (hnext : f=4 → ¬c.LastOfGroup k) :
    stores mem (log L c tail c.groups) (L.desc (descOf tail k)+BitVec.ofNat 32 (4*f))=
      field L c tail k f := by
  have hd := descOf_lt tail k
  refine stores_value ⟨_,taskWrites_mem_log hk (mem_taskWrites.2 (.inl ⟨f,hf,rfl⟩)),rfl⟩ ?_
  intro w hw haddress
  obtain ⟨k',hk',hw'⟩|⟨k',hk',hlast,rfl⟩|htail := mem_log hw
  · have hd' := descOf_lt tail k'
    obtain ⟨f',hf',rfl⟩|rfl := mem_taskWrites.1 hw'
    · obtain ⟨hdd,rfl⟩ := desc_inj valid hd' hd (by omega) (by omega) haddress
      rw [descOf_inj hk' hk hdd]
    · exact absurd haddress (task_ne_desc valid (descOf_slot tail k') (Nat.mod_lt _ (by decide)) hd
        (by omega))
  · obtain ⟨hdd,hff⟩ := desc_inj valid (f := 4) (descOf_lt tail k') hd (by decide) (by omega)
      haddress
    rw [descOf_inj hk' hk hdd] at hlast
    exact absurd hlast (hnext hff.symm)
  · exact absurd (haddress.symm.trans htail) (desc_ne_outside valid hd (by omega)
      valid.tail_outside)

/-- The pointer of a task. -/
theorem log_task (valid : L.Valid) {k : ℕ} (hk : k < c.tasks) :
    stores mem (log L c tail c.groups) (L.task (descOf tail k/8) (descOf tail k%8))=
      L.desc (descOf tail k) := by
  have hslot := descOf_slot tail k
  have hpos : descOf tail k%8<8 := Nat.mod_lt _ (by decide)
  refine stores_value ⟨_,taskWrites_mem_log hk (mem_taskWrites.2 (.inr rfl)),rfl⟩ ?_
  intro w hw haddress
  obtain ⟨k',hk',hw'⟩|⟨k',hk',-,rfl⟩|htail := mem_log hw
  · obtain ⟨f',hf',rfl⟩|rfl := mem_taskWrites.1 hw'
    · exact absurd haddress.symm (task_ne_desc valid hslot hpos (descOf_lt tail k') (by omega))
    · by_contra hne
      refine task_ne valid (descOf_slot tail k') hslot (Nat.mod_lt _ (by decide)) hpos ?_ haddress
      have hdd : descOf tail k'≠descOf tail k := fun he => hne (by rw [he])
      omega
  · exact absurd haddress.symm (task_ne_next valid hslot hpos (descOf_lt tail k'))
  · exact absurd (haddress.symm.trans htail) (task_ne_outside valid hslot hpos valid.tail_outside)

/-- A store to a `next` field comes from the task. -/
theorem next_store (valid : L.Valid) {g k : ℕ} (hk : k < c.tasks) (hg : g < c.groups)
    {w : Word×Word} (h : w∈groupWrites L c tail g) (haddress : w.1=L.desc (descOf tail k)+16) :
    k/8=g := by
  have hd := descOf_lt tail k
  obtain ⟨k',hk',hkg,hw⟩|⟨k',hk',hkg,-,rfl⟩|htail := mem_groupWrites hg h
  · obtain ⟨f,hf,rfl⟩|rfl := mem_taskWrites.1 hw
    · obtain ⟨hdd,-⟩ := desc_inj valid (k := 4) (descOf_lt tail k') hd (by omega) (by decide)
        haddress
      rw [←descOf_inj hk' hk hdd]
      exact hkg
    · exact absurd haddress (task_ne_next valid (descOf_slot tail k') (Nat.mod_lt _ (by decide)) hd)
  · obtain ⟨hdd,-⟩ := desc_inj valid (f := 4) (k := 4) (descOf_lt tail k') hd (by decide)
      (by decide) haddress
    rw [←descOf_inj hk' hk hdd]
    exact hkg
  · exact absurd (haddress.symm.trans htail) (next_ne_outside valid hd valid.tail_outside)

/-- The last task of a group ends the list. -/
theorem log_last (valid : L.Valid) {k : ℕ} (hk : k < c.tasks) (hlast : c.LastOfGroup k) {n : ℕ}
    (hn : k/8<n) (hle : n ≤ c.groups) :
    stores mem (log L c tail n) (L.desc (descOf tail k)+16)=0 := by
  induction n with
  | zero => omega
  | succ n ih =>
    by_cases hlt : k/8<n
    · rw [log_succ,stores_append,stores_keep,ih hlt (by omega)]
      intro w hw haddress
      exact absurd (next_store valid hk (by omega) hw haddress) (by omega)
    · have htail := next_ne_outside valid (descOf_lt tail k) valid.tail_outside
      have hsize : c.groupSize n=min 8 (c.tasks-8*n) := rfl
      have hkn : 8*n+c.groupSize n-1=k := by
        unfold Call.LastOfGroup at hlast
        omega
      rw [log_succ,groupWrites,hkn,←List.append_assoc,stores_append _ _ [_,_]]
      simp only [stores]
      rw [Function.update_of_ne htail,Function.update_self]

/-- Every other word is kept. -/
theorem log_keep {a : Word} (htail : a≠L.tailIndex)
    (hfield : ∀ k, k < c.tasks → ∀ f, f<5 → a≠L.desc (descOf tail k)+BitVec.ofNat 32 (4*f))
    (htask : ∀ k, k < c.tasks → a≠L.task (descOf tail k/8) (descOf tail k%8)) :
    stores mem (log L c tail c.groups) a=mem a := by
  refine stores_keep fun w hw haddress => ?_
  obtain ⟨k,hk,hkw⟩|⟨k,hk,-,rfl⟩|hend := mem_log hw
  · obtain ⟨f,hf,rfl⟩|rfl := mem_taskWrites.1 hkw
    · exact hfield k hk f hf haddress.symm
    · exact htask k hk haddress.symm
  · exact hfield k hk 4 (by decide) haddress.symm
  · exact htail (haddress.symm.trans hend)

/-- The descriptor of task `k`. -/
def Call.chunk (c : Call) (k : ℕ) : X86TaskModel.TaskDesc :=
  ⟨c.v1.toInt,c.v2.toInt,c.start k,c.start (k+1)⟩

/-- The next task starts where this one ends. -/
theorem Call.start_succ {k : ℕ} (h : k < c.tasks) :
    c.start (k+1)=min (c.start k+c.itersPerTask) c.totIters := by
  rw [c.start_eq h,Call.start,Nat.add_mul k 1,Nat.one_mul]

/-- The loop of the x86 task model passes the descriptors of the tasks. -/
theorem taskQueueLoop_eq (c : Call) (first last : ℤ) {k m : ℕ} (h : k+m=c.tasks) :
    taskQueueLoop c.totIters c.itersPerTask ⟨c.v1.toInt,c.v2.toInt,first,last⟩ m (c.start k)=
      some ((List.range' k m).map c.chunk) := by
  induction m generalizing k with
  | zero =>
    rw [c.start_end (by omega),taskQueueLoop,if_neg (Int.lt_irrefl _)]
    rfl
  | succ m ih =>
    have hk : k < c.tasks := by omega
    have hlt := Int.ofNat_lt.2 (c.start_lt_iff.2 hk)
    have hnext : min ((c.start k : ℤ)+c.itersPerTask) c.totIters=c.start (k+1) := by
      rw [c.start_succ hk]
      omega
    rw [taskQueueLoop,X86TaskModel.offered,if_pos hlt]
    simp only [hnext]
    rw [ih (by omega)]
    rfl

/-- Consecutive chunks of at most `per` iterations that end at `tot`, as descriptors of the x86 task
model. -/
def Chunks (tot per : ℤ) : ℤ → List X86TaskModel.TaskDesc → Prop
  | start, [] => start=tot
  | start, td::tds =>
    td.first=start ∧ start<td.last ∧ td.last ≤ start+per ∧ Chunks tot per td.last tds

/-- The tasks partition the iterations. -/
theorem chunks_tasks (c : Call) {k m : ℕ} (h : k+m=c.tasks) :
    Chunks c.totIters c.itersPerTask (c.start k) ((List.range' k m).map c.chunk) := by
  induction m generalizing k with
  | zero => exact congrArg Int.ofNat (c.start_end (by omega))
  | succ m ih =>
    have hk : k < c.tasks := by omega
    have hlt := c.start_lt_iff.2 hk
    have hper := c.per_pos
    have hnext := c.start_succ hk
    refine ⟨rfl,?_,?_,ih (by omega)⟩
    · simp only [Call.chunk]
      omega
    · simp only [Call.chunk]
      omega

/-- The descriptor in memory at an index of the array. -/
def descriptor (L : Layout) (mem : Word → Word) (d : ℕ) : X86TaskModel.TaskDesc :=
  ⟨(mem (L.desc d)).toInt,(mem (L.desc d+4)).toInt,(mem (L.desc d+8)).toInt,
    (mem (L.desc d+12)).toInt⟩

/-- What a call leaves in memory: the descriptors from the slot of the tail on with their links, the
pointers in the slots, the tail index, and everything else as it was. -/
structure Enqueued (L : Layout) (before after : Word → Word) (tail : Word)
    (tds : List X86TaskModel.TaskDesc) : Prop where
  /-- The descriptors, in order from the slot of the tail on. -/
  descs : (List.range tds.length).map (fun k => descriptor L after (descOf tail k))=tds
  /-- Eight to a group, in the slots from the tail on. -/
  pointers : ∀ g i, i<8 → 8*g+i<tds.length →
    after (L.task ((tail.toNat+g)%groupSlots) i)=L.desc (descOf tail (8*g+i))
  /-- The list of a group is in order. -/
  next : ∀ g i, i+1<8 → 8*g+i+1<tds.length →
    after (L.desc (descOf tail (8*g+i))+16)=L.desc (descOf tail (8*g+i+1))
  /-- The list of a group ends after its last task. -/
  ended : ∀ k, k<tds.length → (k+1)%8=0 ∨ k+1=tds.length →
    after (L.desc (descOf tail k)+16)=0
  /-- The groups are published. -/
  published : after L.tailIndex=tail+BitVec.ofNat 32 ((tds.length+7)/8)
  /-- The lock is free. -/
  lock : after L.enqueueLock=0
  /-- No other slot is written. -/
  slots : ∀ slot, slot<groupSlots →
    (∀ g, g<(tds.length+7)/8 → slot≠(tail.toNat+g)%groupSlots) →
    ∀ i, i<8 → after (L.task slot i)=before (L.task slot i)
  /-- No other descriptor is written. -/
  others : ∀ d, d<descriptors → (∀ k, k<tds.length → d≠descOf tail k) →
    ∀ w, w<8 → after (L.desc d+BitVec.ofNat 32 (4*w))=before (L.desc d+BitVec.ofNat 32 (4*w))

/-- The slot of a task. -/
theorem descOf_div (tail : Word) (k : ℕ) : descOf tail k/8=(tail.toNat+k/8)%groupSlots := by
  unfold descOf descriptors groupSlots
  omega

/-- The position of a task in its group. -/
theorem descOf_mod (tail : Word) (k : ℕ) : descOf tail k%8=k%8 := by
  unfold descOf descriptors
  omega

/-- The descriptor of a task in memory. -/
theorem descriptor_task (valid : L.Valid) {k : ℕ} (hk : k < c.tasks) :
    descriptor L (stores mem (log L c tail c.groups)) (descOf tail k)=c.chunk k := by
  have hfield : ∀ f, f<4 → stores mem (log L c tail c.groups)
      (L.desc (descOf tail k)+BitVec.ofNat 32 (4*f))=field L c tail k f := fun f hf =>
    log_field valid hk (by omega) (by omega)
  have hint : ∀ j, (BitVec.ofNat 32 (c.start j)).toInt=(c.start j : ℤ) := by
    intro j
    have hlt := c.start_lt j
    rw [BitVec.toInt_eq_toNat_cond,BitVec.toNat_ofNat]
    omega
  have hzero : L.desc (descOf tail k)+BitVec.ofNat 32 (4*0)=L.desc (descOf tail k) :=
    BitVec.add_zero _
  have h0 := hfield 0 (by decide)
  rw [hzero] at h0
  have h1 : stores mem (log L c tail c.groups) (L.desc (descOf tail k)+4)=c.v2 :=
    hfield 1 (by decide)
  have h2 : stores mem (log L c tail c.groups) (L.desc (descOf tail k)+8)=_ := hfield 2 (by decide)
  have h3 : stores mem (log L c tail c.groups) (L.desc (descOf tail k)+12)=_ := hfield 3 (by decide)
  rw [descriptor,h0,h1,h2,h3]
  simp only [field,Call.chunk,hint]

/-- A descriptor depends on its words. -/
theorem descriptor_congr {mem mem' : Word → Word} {d : ℕ}
    (h : ∀ f, f<8 → mem (L.desc d+BitVec.ofNat 32 (4*f))=mem' (L.desc d+BitVec.ofNat 32 (4*f))) :
    descriptor L mem d=descriptor L mem' d := by
  have hzero : L.desc d+BitVec.ofNat 32 (4*0)=L.desc d := BitVec.add_zero _
  have h0 := h 0 (by decide)
  have h1 : mem (L.desc d+4)=mem' (L.desc d+4) := h 1 (by decide)
  have h2 : mem (L.desc d+8)=mem' (L.desc d+8) := h 2 (by decide)
  have h3 : mem (L.desc d+12)=mem' (L.desc d+12) := h 3 (by decide)
  rw [hzero] at h0
  rw [descriptor,descriptor,h0,h1,h2,h3]

/-- Inside a group the descriptors are consecutive. -/
theorem descOf_succ (tail : Word) {k : ℕ} (h : (k+1)%8≠0) :
    descOf tail (k+1)=descOf tail k+1 := by
  unfold descOf descriptors
  omega

/-- The stores of all groups leave the tasks enqueued, and the lock is free. A store is found in the
log by its address. -/
theorem enqueued (valid : L.Valid) (htail : mem L.tailIndex=tail) :
    Enqueued L mem (Function.update (stores (Function.update mem L.enqueueLock 1)
      (log L c tail c.groups)) L.enqueueLock 0) tail ((List.range c.tasks).map c.chunk) := by
  have tailLock : L.tailIndex≠L.enqueueLock := fun hEq => by
    have distinct := valid.distinct
    simp [hEq] at distinct
  have hlen : ((List.range c.tasks).map c.chunk).length=c.tasks := by
    rw [List.length_map,List.length_range]
  have hgroups : (c.tasks+7)/8=c.groups := rfl
  -- array words are not the lock
  have hdesc : ∀ d f, d<descriptors → f<8 → ∀ base : Word → Word, ∀ v,
      Function.update base L.enqueueLock v (L.desc d+BitVec.ofNat 32 (4*f))=
        base (L.desc d+BitVec.ofNat 32 (4*f)) := fun d f hd hf base v =>
    Function.update_of_ne (desc_ne_outside valid hd hf valid.lock_outside) _ _
  have htask : ∀ slot i, slot<groupSlots → i<8 → ∀ base : Word → Word, ∀ v,
      Function.update base L.enqueueLock v (L.task slot i)=base (L.task slot i) :=
    fun slot i hs hi base v =>
      Function.update_of_ne (task_ne_outside valid hs hi valid.lock_outside) _ _
  constructor
  · rw [hlen]
    refine List.map_congr_left fun k hk => ?_
    have hd := descOf_lt tail k
    have h : descriptor L (stores (Function.update mem L.enqueueLock 1) (log L c tail c.groups))
        (descOf tail k)=c.chunk k := descriptor_task valid (List.mem_range.1 hk)
    rw [←h]
    exact descriptor_congr fun f hf => hdesc _ f hd hf _ _
  · intro g i hi hk
    rw [hlen] at hk
    have hslot : (tail.toNat+g)%groupSlots<groupSlots := Nat.mod_lt _ (by decide)
    have hg : g=(8*g+i)/8 := by omega
    have hpos : i=(8*g+i)%8 := by omega
    have h : stores (Function.update mem L.enqueueLock 1) (log L c tail c.groups)
        (L.task (descOf tail (8*g+i)/8) (descOf tail (8*g+i)%8))=_ := log_task valid hk
    rw [descOf_div,descOf_mod,←hg,←hpos] at h
    rw [htask _ i hslot hi,h]
  · intro g i hi hk
    rw [hlen] at hk
    have hinside : (8*g+i+1)%8≠0 := by omega
    have hlast : ¬c.LastOfGroup (8*g+i) := by
      unfold Call.LastOfGroup
      omega
    have h : stores (Function.update mem L.enqueueLock 1) (log L c tail c.groups)
        (L.desc (descOf tail (8*g+i))+16)=L.desc (descOf tail (8*g+i))+32 :=
      log_field valid (f := 4) (Nat.lt_of_succ_lt hk) (by decide) fun _ => hlast
    rw [descOf_succ tail hinside,←desc_succ]
    exact (hdesc _ 4 (descOf_lt tail _) (by decide) _ _).trans h
  · intro k hk hlast
    rw [hlen] at hk hlast
    have hgroup : k/8 < c.groups := by
      rw [←hgroups]
      omega
    exact (hdesc _ 4 (descOf_lt tail _) (by decide) _ _).trans
      (log_last valid hk hlast hgroup le_rfl)
  · rw [hlen,hgroups,Function.update_of_ne tailLock]
    exact log_tail ((Function.update_of_ne tailLock _ _).trans htail) c.groups
  · exact Function.update_self ..
  · intro slot hs hother i hi
    rw [hlen,hgroups] at hother
    rw [htask slot i hs hi,log_keep,htask slot i hs hi]
    · exact task_ne_outside valid hs hi valid.tail_outside
    · exact fun k _ f hf => task_ne_desc valid hs hi (descOf_lt tail k) (by omega)
    · intro k hk
      have hgroup : k/8 < c.groups := by
        rw [←hgroups]
        omega
      have hne := hother (k/8) hgroup
      rw [←descOf_div] at hne
      exact task_ne valid hs (descOf_slot tail k) hi (Nat.mod_lt _ (by decide)) (.inl hne)
  · intro d hd hother w hw
    rw [hlen] at hother
    rw [hdesc d w hd hw,log_keep,hdesc d w hd hw]
    · exact desc_ne_outside valid hd hw valid.tail_outside
    · exact fun k hk f hf haddress =>
        hother k hk (desc_inj valid hd (descOf_lt tail k) hw (by omega) haddress).1
    · exact fun k _ => (task_ne_desc valid (descOf_slot tail k) (Nat.mod_lt _ (by decide)) hd
        hw).symm

end Execution

/-- Thread 0 enqueues the tasks of the loop: the call ends, and it leaves in memory exactly the
descriptors that the loop of the x86 task model passes to its enqueue, which partition the
iterations, eight to a group from the slot of the tail on. -/
theorem loopSequential_enqueues (L : Layout) (valid : L.Valid) (c : Call) (tail : Word)
    (mem : Word → Word) (loaded : Loaded L mem tail) (reg : ℕ → Word) (first last : ℤ) :
    ∃ fuel after tds, loopSequential L c 0 reg fuel mem=some after ∧
      taskQueueLoop c.totIters c.itersPerTask ⟨c.v1.toInt,c.v2.toInt,first,last⟩ c.tasks 0=
        some tds ∧
      Chunks c.totIters c.itersPerTask 0 tds ∧ Enqueued L mem after tail tds := by
  have distinct := valid.distinct
  simp only [List.nodup_cons,List.mem_cons,List.not_mem_nil,or_false,not_or] at distinct
  obtain ⟨⟨tl,-,-⟩,⟨ld,li⟩,-⟩ := distinct
  have hzero : c.start 0=0 := by simp [Call.start]
  have hx86 := taskQueueLoop_eq c first last (Nat.zero_add c.tasks)
  have hchunks := chunks_tasks c (Nat.zero_add c.tasks)
  rw [hzero,←List.range_eq_range'] at hx86 hchunks
  obtain ⟨fuel,out,hrun,hmem⟩ := inlineLoop_ends (c := c) valid
    ((Function.update_of_ne (Ne.symm ld) 1 mem).trans loaded.data)
    ((Function.update_of_ne (Ne.symm li) 1 mem).trans loaded.index)
    ((Function.update_of_ne tl 1 mem).trans loaded.tail) reg
  refine ⟨fuel,_,_,?_,hx86,hchunks,enqueued valid loaded.tail⟩
  rw [loopSequential,if_neg (by decide),if_neg (not_not.2 loaded.lock),hrun,Option.map_some,hmem]

/-- Eleven iterations in tasks of two, at a tail whose slot is the last. They make one group of six
tasks. -/
def sampleCall : Call where
  totIters := 11
  itersPerTask := 2
  v1 := 7
  v2 := 9
  per_pos := Nat.two_pos
  sum_lt := by decide
  groups_le := by decide

/-- The sample call. -/
theorem loopSequential_enqueues_wrapped :
    ∃ fuel after tds, loopSequential sampleLayout sampleCall 0 (fun _ => 0) fuel
        (blankMemory sampleLayout 0x7fff)=some after ∧
      taskQueueLoop 11 2 ⟨7,9,0,0⟩ 6 0=some tds ∧
      Chunks 11 2 0 tds ∧
      Enqueued sampleLayout (blankMemory sampleLayout 0x7fff) after 0x7fff tds :=
  loopSequential_enqueues sampleLayout sampleLayout_valid sampleCall 0x7fff _
    (blankMemory_loaded sampleLayout_valid 0x7fff) (fun _ => 0) 0 0

end RigelTarget.EnqueueSequential
