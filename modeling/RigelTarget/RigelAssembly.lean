import Mathlib.Logic.Function.Basic
import Mathlib.Tactic.Common

/-!
# The instructions of the inline assembly

A register machine with 32-bit words for the instructions that the task queue
writes inline. Register 0 always reads zero. Addresses are byte addresses of
aligned words; a cache line is 32 bytes. Labels are instruction numbers. A run
has fuel, since a spin loop may not end. Write-back and invalidate do not change
the memory of this machine; the lines they name are recorded.
-/

namespace RigelTarget.RigelAssembly

/-- A machine word or byte address. Arithmetic on it wraps around as that of the machine does. -/
abbrev Word := BitVec 32

/-- The address of the cache line that holds an address: the five low bits are dropped. -/
def lineOf (a : Word) : Word := a>>>5<<<5

/-- Instructions in the operand order of the source, those that the two inline sections are made
of. -/
inductive Instr where
  /-- `mvui rd, %hi(x); addi rd, rd, x`: the address of a symbol. -/
  | la (rd : ℕ) (address : Word)
  /-- `ldw rd, rs, off` and `g.ldw`. -/
  | ldw (rd rs : ℕ) (off : Word)
  /-- `stw rt, rs, off` and `g.stw`: `rt` to the word at `rs + off`. -/
  | stw (rt rs : ℕ) (off : Word)
  /-- `add rd, rs, rt`. -/
  | add (rd rs rt : ℕ)
  /-- `addi rd, rs, imm`. -/
  | addi (rd rs : ℕ) (imm : Word)
  /-- `slli rd, rs, amount`. -/
  | slli (rd rs amount : ℕ)
  /-- `ori rd, rs, imm`. -/
  | ori (rd rs : ℕ) (imm : Word)
  /-- `beq rs, rt, label`. -/
  | beq (rs rt label : ℕ)
  /-- `bne rs, rt, label`. -/
  | bne (rs rt label : ℕ)
  /-- `atom.xchg rd, rs, 0`: exchange `rd` with the word at `rs`. -/
  | atomXchg (rd rs : ℕ)
  /-- `atom.inc rd, rs, 0`: increment the word at `rs`; the result goes to `rd`. -/
  | atomInc (rd rs : ℕ)
  /-- `line.wb rs`. -/
  | lineWb (rs : ℕ)
  /-- `line.inv rs`. -/
  | lineInv (rs : ℕ)
  /-- `mvui rd, imm`: the upper half of a word. -/
  | mvui (rd : ℕ) (imm : Word)
  /-- `sub rd, rs, rt`: `rt` minus `rs`, as the comments of the source on the branches after it
  require. -/
  | sub (rd rs rt : ℕ)
  /-- `and rd, rs, rt`. -/
  | and (rd rs rt : ℕ)
  /-- `andi rd, rs, imm`. -/
  | andi (rd rs : ℕ) (imm : Word)
  /-- `xor rd, rs, rt`. -/
  | xor (rd rs rt : ℕ)
  /-- `srli rd, rs, amount`. -/
  | srli (rd rs amount : ℕ)
  /-- `ble rs, label`: branch if `rs` is not positive. -/
  | ble (rs label : ℕ)
  /-- `bge rs, label`: branch if `rs` is not negative. -/
  | bge (rs label : ℕ)
  /-- `blt rs, label`: branch if `rs` is negative. -/
  | blt (rs label : ℕ)
  /-- `jmp label`. -/
  | jmp (label : ℕ)

/-- Registers, memory, the next instruction and the lines maintained so far, of one core without the
others. -/
structure Cpu where
  /-- Register contents; register 0 is read through `get`. -/
  reg : ℕ → Word
  /-- Memory words by byte address. -/
  mem : Word → Word
  /-- Number of the next instruction. -/
  pc : ℕ
  /-- Lines written back, latest first. -/
  writtenBack : List Word
  /-- Lines invalidated, latest first. -/
  invalidated : List Word

/-- Read a register; register 0 is zero, whatever was written to it. -/
def Cpu.get (cpu : Cpu) (r : ℕ) : Word := if r=0 then 0 else cpu.reg r

/-- Write a register and continue with the next instruction. Memory and lines stay. -/
def Cpu.set (cpu : Cpu) (r : ℕ) (v : Word) : Cpu :=
  {cpu with reg := Function.update cpu.reg r v,pc := cpu.pc+1}

/-- Write a word and continue with the next instruction. Registers and lines stay. -/
def Cpu.store (cpu : Cpu) (a v : Word) : Cpu :=
  {cpu with mem := Function.update cpu.mem a v,pc := cpu.pc+1}

/-- Continue at a label if a condition holds, and else with the next instruction. Nothing else
changes. -/
def Cpu.branch (cpu : Cpu) (taken : Bool) (label : ℕ) : Cpu :=
  {cpu with pc := if taken=true then label else cpu.pc+1}

/-- The effect of one instruction. `sub d, a, b` gives `b-a`, and branches compare with zero as in
the source. -/
def exec (cpu : Cpu) : Instr → Cpu
  | .la rd address => cpu.set rd address
  | .ldw rd rs off => cpu.set rd (cpu.mem (cpu.get rs+off))
  | .stw rt rs off => cpu.store (cpu.get rs+off) (cpu.get rt)
  | .add rd rs rt => cpu.set rd (cpu.get rs+cpu.get rt)
  | .addi rd rs imm => cpu.set rd (cpu.get rs+imm)
  | .slli rd rs amount => cpu.set rd (cpu.get rs<<<amount)
  | .ori rd rs imm => cpu.set rd (cpu.get rs|||imm)
  | .beq rs rt label => cpu.branch (cpu.get rs == cpu.get rt) label
  | .bne rs rt label => cpu.branch (cpu.get rs != cpu.get rt) label
  | .atomXchg rd rs =>
    let old := cpu.mem (cpu.get rs)
    {cpu with
      mem := Function.update cpu.mem (cpu.get rs) (cpu.get rd)
      reg := Function.update cpu.reg rd old
      pc := cpu.pc+1}
  | .atomInc rd rs =>
    let new := cpu.mem (cpu.get rs)+1
    {cpu with
      mem := Function.update cpu.mem (cpu.get rs) new
      reg := Function.update cpu.reg rd new
      pc := cpu.pc+1}
  | .lineWb rs => {cpu with writtenBack := lineOf (cpu.get rs)::cpu.writtenBack,pc := cpu.pc+1}
  | .lineInv rs => {cpu with invalidated := lineOf (cpu.get rs)::cpu.invalidated,pc := cpu.pc+1}
  | .mvui rd imm => cpu.set rd (imm<<<16)
  | .sub rd rs rt => cpu.set rd (cpu.get rt-cpu.get rs)
  | .and rd rs rt => cpu.set rd (cpu.get rs&&&cpu.get rt)
  | .andi rd rs imm => cpu.set rd (cpu.get rs&&&imm)
  | .xor rd rs rt => cpu.set rd (cpu.get rs^^^cpu.get rt)
  | .srli rd rs amount => cpu.set rd (cpu.get rs>>>amount)
  | .ble rs label => cpu.branch (decide ((cpu.get rs).toInt≤0)) label
  | .bge rs label => cpu.branch (decide (0≤(cpu.get rs).toInt)) label
  | .blt rs label => cpu.branch (decide ((cpu.get rs).toInt<0)) label
  | .jmp label => {cpu with pc := label}

/-- Run until control leaves the program; `none` when the fuel does not suffice, as in a spin loop
that never ends. -/
def run (program : List Instr) : ℕ → Cpu → Option Cpu
  | 0, cpu => if program.length ≤ cpu.pc then some cpu else none
  | fuel+1, cpu =>
    match program[cpu.pc]? with
    | none => some cpu
    | some instr => run program fuel (exec cpu instr)

/-- A finished run stays finished with more fuel. -/
theorem run_add {program : List Instr} {fuel : ℕ} {cpu out : Cpu} (more : ℕ)
    (h : run program fuel cpu=some out) : run program (fuel+more) cpu=some out := by
  induction fuel generalizing cpu with
  | zero =>
    simp only [run] at h
    split at h
    · rename_i hle
      rw [Nat.zero_add]
      cases more with
      | zero => simpa only [run,if_pos hle] using h
      | succ more => simpa only [run,List.getElem?_eq_none hle] using h
    · cases h
  | succ fuel ih =>
    rw [Nat.succ_add]
    simp only [run] at h ⊢
    split at h
    · exact h
    · exact ih h

/-- Two finished runs from one processor agree. -/
theorem run_unique {program : List Instr} {fuel fuel' : ℕ} {cpu out out' : Cpu}
    (h : run program fuel cpu=some out) (h' : run program fuel' cpu=some out') : out=out' := by
  have left := run_add fuel' h
  have right := run_add fuel h'
  rw [Nat.add_comm,left] at right
  exact Option.some.inj right

/-- Some number of instructions leads from a processor to one with a property. Loops are proved by
such steps. -/
def Leads (program : List Instr) (cpu : Cpu) (Q : Cpu → Prop) : Prop :=
  ∃ k out, (∀ fuel, run program (fuel+k) cpu=run program fuel out) ∧ Q out

/-- No instruction. -/
theorem Leads.here {program : List Instr} {cpu : Cpu} {Q : Cpu → Prop} (h : Q cpu) :
    Leads program cpu Q :=
  ⟨0,cpu,fun _ => rfl,h⟩

/-- Two stretches of a run in sequence. -/
theorem Leads.trans {program : List Instr} {cpu : Cpu} {P Q : Cpu → Prop}
    (first : Leads program cpu P) (second : ∀ mid, P mid → Leads program mid Q) :
    Leads program cpu Q := by
  obtain ⟨k,mid,hk,hmid⟩ := first
  obtain ⟨j,out,hj,hout⟩ := second mid hmid
  refine ⟨j+k,out,fun fuel => ?_,hout⟩
  rw [← Nat.add_assoc,hk,hj]

/-- One instruction, then the rest. -/
theorem Leads.step {program : List Instr} {cpu : Cpu} {Q : Cpu → Prop} {instr : Instr}
    (h : program[cpu.pc]? =some instr) (rest : Leads program (exec cpu instr) Q) :
    Leads program cpu Q := by
  obtain ⟨k,out,hk,hout⟩ := rest
  refine ⟨k+1,out,fun fuel => ?_,hout⟩
  rw [← Nat.add_assoc,run,h]
  exact hk fuel

/-- A branch that is not taken, then the rest. -/
theorem Leads.fall {program : List Instr} {cpu : Cpu} {Q : Cpu → Prop} {instr : Instr}
    {taken : Bool} {label : ℕ} (h : program[cpu.pc]? =some instr)
    (hexec : exec cpu instr=cpu.branch taken label) (htaken : taken=false)
    (rest : Leads program {cpu with pc := cpu.pc+1} Q) : Leads program cpu Q := by
  refine Leads.step h ?_
  rw [hexec,Cpu.branch,htaken]
  exact rest

/-- A branch that is taken, then the rest from its label. -/
theorem Leads.taken {program : List Instr} {cpu : Cpu} {Q : Cpu → Prop} {instr : Instr}
    {taken : Bool} {label : ℕ} (h : program[cpu.pc]? =some instr)
    (hexec : exec cpu instr=cpu.branch taken label) (htaken : taken=true)
    (rest : Leads program {cpu with pc := label} Q) : Leads program cpu Q := by
  refine Leads.step h ?_
  rw [hexec,Cpu.branch,htaken]
  exact rest

/-- Control that gets to the end of the program is a finished run. -/
theorem Leads.finished {program : List Instr} {cpu : Cpu} {Q : Cpu → Prop}
    (h : Leads program cpu Q) (ended : ∀ out, Q out → program.length ≤ out.pc) :
    ∃ fuel out, run program fuel cpu=some out ∧ Q out := by
  obtain ⟨k,out,hk,hout⟩ := h
  refine ⟨k,out,?_,hout⟩
  have h0 := hk 0
  rwa [Nat.zero_add,run,if_pos (ended out hout)] at h0

end RigelTarget.RigelAssembly
