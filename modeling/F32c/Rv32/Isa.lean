import Mathlib.Tactic

/-!
# RV32I, one instruction at a time

The unprivileged integer instructions of RV32I without `FENCE`, `ECALL` and
`EBREAK`: their encoding, and a machine that executes them one at a time.  The
data memory is an array of bytes, read and written in little-endian order; the
instruction memory is a separate, constant array of words.

The program counter is a word address.  RV32I accepts only jump targets that are
a multiple of four; the machine drops the two low bits of a target, which are
zero for such a target.  A load or store that is not naturally aligned, or an
encoding outside the groups above, stops the machine.
-/

namespace F32c
namespace Rv32

abbrev Word := BitVec 32

abbrev Byte := BitVec 8

abbrev Reg := BitVec 5

inductive BranchOp where
  | beq
  | bne
  | blt
  | bge
  | bltu
  | bgeu
deriving DecidableEq, Repr

inductive LoadOp where
  | lb
  | lh
  | lw
  | lbu
  | lhu
deriving DecidableEq, Repr

inductive StoreOp where
  | sb
  | sh
  | sw
deriving DecidableEq, Repr

inductive AluOp where
  | add
  | sub
  | sll
  | slt
  | sltu
  | xor
  | srl
  | sra
  | or
  | and
deriving DecidableEq, Repr

inductive Instr where
  | lui (rd : Reg) (imm : Word)
  | auipc (rd : Reg) (imm : Word)
  | jal (rd : Reg) (imm : Word)
  | jalr (rd rs1 : Reg) (imm : Word)
  | branch (op : BranchOp) (rs1 rs2 : Reg) (imm : Word)
  | load (op : LoadOp) (rd rs1 : Reg) (imm : Word)
  | store (op : StoreOp) (rs1 rs2 : Reg) (imm : Word)
  | opImm (op : AluOp) (rd rs1 : Reg) (imm : Word)
  | op (op : AluOp) (rd rs1 rs2 : Reg)
deriving DecidableEq, Repr

section Encoding

def opcode (w : Word) : BitVec 7 := w.extractLsb 6 0
def funct3 (w : Word) : BitVec 3 := w.extractLsb 14 12
def funct7 (w : Word) : BitVec 7 := w.extractLsb 31 25
def rd (w : Word) : Reg := w.extractLsb 11 7
def rs1 (w : Word) : Reg := w.extractLsb 19 15
def rs2 (w : Word) : Reg := w.extractLsb 24 20

def immI (w : Word) : Word := (w.extractLsb 31 20).signExtend 32

def immS (w : Word) : Word := (w.extractLsb 31 25 ++ w.extractLsb 11 7).signExtend 32

def immB (w : Word) : Word :=
  (w.extractLsb 31 31 ++ w.extractLsb 7 7 ++ w.extractLsb 30 25 ++ w.extractLsb 11 8 ++
    0#1).signExtend 32

def immU (w : Word) : Word := w.extractLsb 31 12 ++ 0#12

def immJ (w : Word) : Word :=
  (w.extractLsb 31 31 ++ w.extractLsb 19 12 ++ w.extractLsb 20 20 ++ w.extractLsb 30 21 ++
    0#1).signExtend 32

def branchOp (w : Word) : Option BranchOp :=
  if funct3 w = 0b000#3 then some .beq
  else if funct3 w = 0b001#3 then some .bne
  else if funct3 w = 0b100#3 then some .blt
  else if funct3 w = 0b101#3 then some .bge
  else if funct3 w = 0b110#3 then some .bltu
  else if funct3 w = 0b111#3 then some .bgeu
  else none

def loadOp (w : Word) : Option LoadOp :=
  if funct3 w = 0b000#3 then some .lb
  else if funct3 w = 0b001#3 then some .lh
  else if funct3 w = 0b010#3 then some .lw
  else if funct3 w = 0b100#3 then some .lbu
  else if funct3 w = 0b101#3 then some .lhu
  else none

def storeOp (w : Word) : Option StoreOp :=
  if funct3 w = 0b000#3 then some .sb
  else if funct3 w = 0b001#3 then some .sh
  else if funct3 w = 0b010#3 then some .sw
  else none

/-- Operation of an instruction with an immediate operand. -/
def opImmOp (w : Word) : Option AluOp :=
  if funct3 w = 0b000#3 then some .add
  else if funct3 w = 0b010#3 then some .slt
  else if funct3 w = 0b011#3 then some .sltu
  else if funct3 w = 0b100#3 then some .xor
  else if funct3 w = 0b110#3 then some .or
  else if funct3 w = 0b111#3 then some .and
  else if funct3 w = 0b001#3 then
    if funct7 w = 0b0000000#7 then some .sll else none
  else
    if funct7 w = 0b0000000#7 then some .srl
    else if funct7 w = 0b0100000#7 then some .sra
    else none

/-- Operation of an instruction with two register operands. -/
def opOp (w : Word) : Option AluOp :=
  if funct7 w = 0b0000000#7 then
    if funct3 w = 0b000#3 then some .add
    else if funct3 w = 0b001#3 then some .sll
    else if funct3 w = 0b010#3 then some .slt
    else if funct3 w = 0b011#3 then some .sltu
    else if funct3 w = 0b100#3 then some .xor
    else if funct3 w = 0b101#3 then some .srl
    else if funct3 w = 0b110#3 then some .or
    else some .and
  else if funct7 w = 0b0100000#7 then
    if funct3 w = 0b000#3 then some .sub
    else if funct3 w = 0b101#3 then some .sra
    else none
  else none

def decode (w : Word) : Option Instr :=
  if opcode w = 0b0110111#7 then some (.lui (rd w) (immU w))
  else if opcode w = 0b0010111#7 then some (.auipc (rd w) (immU w))
  else if opcode w = 0b1101111#7 then some (.jal (rd w) (immJ w))
  else if opcode w = 0b1100111#7 then
    if funct3 w = 0b000#3 then some (.jalr (rd w) (rs1 w) (immI w)) else none
  else if opcode w = 0b1100011#7 then
    (branchOp w).map fun op => .branch op (rs1 w) (rs2 w) (immB w)
  else if opcode w = 0b0000011#7 then
    (loadOp w).map fun op => .load op (rd w) (rs1 w) (immI w)
  else if opcode w = 0b0100011#7 then
    (storeOp w).map fun op => .store op (rs1 w) (rs2 w) (immS w)
  else if opcode w = 0b0010011#7 then
    (opImmOp w).map fun op => .opImm op (rd w) (rs1 w) (immI w)
  else if opcode w = 0b0110011#7 then
    (opOp w).map fun op => .op op (rd w) (rs1 w) (rs2 w)
  else none

end Encoding

section Semantics

/-- Bytes written by one store, with their addresses. -/
abbrev Store := List (Word × Byte)

/-- Architectural state. -/
structure State where
  pc : BitVec 30
  regs : Reg → Word
  mem : Word → Byte

/-- What an instruction does: the state after it, a register written, bytes stored. -/
structure Effect where
  next : State
  write : Option (Reg × Word) := none
  store : Option Store := none

def writeBytes (mem : Word → Byte) (bytes : Store) : Word → Byte :=
  bytes.foldl (fun m p => Function.update m p.1 p.2) mem

/-- Register zero keeps its value. -/
def writeReg (regs : Reg → Word) (r : Reg) (v : Word) : Reg → Word :=
  if r = 0#5 then regs else Function.update regs r v

def AluOp.eval (op : AluOp) (a b : Word) : Word :=
  match op with
  | .add => a + b
  | .sub => a - b
  | .sll => a <<< (b.extractLsb 4 0).toNat
  | .slt => if a.slt b then 1#32 else 0#32
  | .sltu => if a.ult b then 1#32 else 0#32
  | .xor => a ^^^ b
  | .srl => a >>> (b.extractLsb 4 0).toNat
  | .sra => a.sshiftRight (b.extractLsb 4 0).toNat
  | .or => a ||| b
  | .and => a &&& b

def BranchOp.eval (op : BranchOp) (a b : Word) : Bool :=
  match op with
  | .beq => a == b
  | .bne => a != b
  | .blt => a.slt b
  | .bge => !a.slt b
  | .bltu => a.ult b
  | .bgeu => !a.ult b

def LoadOp.aligned (op : LoadOp) (a : Word) : Bool :=
  match op with
  | .lb | .lbu => true
  | .lh | .lhu => !a.getLsbD 0
  | .lw => a.extractLsb 1 0 == 0#2

def LoadOp.eval (op : LoadOp) (mem : Word → Byte) (a : Word) : Word :=
  match op with
  | .lb => (mem a).signExtend 32
  | .lbu => (mem a).setWidth 32
  | .lh => (mem (a + 1) ++ mem a).signExtend 32
  | .lhu => (mem (a + 1) ++ mem a).setWidth 32
  | .lw => mem (a + 3) ++ mem (a + 2) ++ mem (a + 1) ++ mem a

def StoreOp.aligned (op : StoreOp) (a : Word) : Bool :=
  match op with
  | .sb => true
  | .sh => !a.getLsbD 0
  | .sw => a.extractLsb 1 0 == 0#2

def StoreOp.bytes (op : StoreOp) (a v : Word) : Store :=
  match op with
  | .sb => [(a, v.extractLsb 7 0)]
  | .sh => [(a, v.extractLsb 7 0), (a + 1, v.extractLsb 15 8)]
  | .sw =>
      [(a, v.extractLsb 7 0), (a + 1, v.extractLsb 15 8), (a + 2, v.extractLsb 23 16),
        (a + 3, v.extractLsb 31 24)]

/-- The byte address of the instruction at a word address. -/
def byteAddr (pc : BitVec 30) : Word := pc ++ 0#2

/-- The word address of a jump target. -/
def target (a : Word) : BitVec 30 := a.extractLsb 31 2

/-- The effect of writing `v` to register `r` and going on at `pc`. -/
def Effect.ofReg (st : State) (pc : BitVec 30) (r : Reg) (v : Word) : Effect :=
  { next := { st with pc := pc, regs := writeReg st.regs r v }
    write := if r = 0#5 then none else some (r, v) }

/-- The effect of an instruction; `none` for a misaligned load or store. -/
def exec (st : State) : Instr → Option Effect
  | .lui rd imm => some (.ofReg st (st.pc + 1) rd imm)
  | .auipc rd imm => some (.ofReg st (st.pc + 1) rd (byteAddr st.pc + imm))
  | .jal rd imm =>
      some (.ofReg st (target (byteAddr st.pc + imm)) rd (byteAddr (st.pc + 1)))
  | .jalr rd rs1 imm =>
      some (.ofReg st (target (st.regs rs1 + imm)) rd (byteAddr (st.pc + 1)))
  | .branch op rs1 rs2 imm =>
      some
        { next :=
            { st with
              pc :=
                if op.eval (st.regs rs1) (st.regs rs2) then target (byteAddr st.pc + imm)
                else st.pc + 1 } }
  | .load op rd rs1 imm =>
      if op.aligned (st.regs rs1 + imm) then
        some (.ofReg st (st.pc + 1) rd (op.eval st.mem (st.regs rs1 + imm)))
      else none
  | .store op rs1 rs2 imm =>
      let bytes := op.bytes (st.regs rs1 + imm) (st.regs rs2)
      if op.aligned (st.regs rs1 + imm) then
        some
          { next := { st with pc := st.pc + 1, mem := writeBytes st.mem bytes }
            store := some bytes }
      else none
  | .opImm op rd rs1 imm => some (.ofReg st (st.pc + 1) rd (op.eval (st.regs rs1) imm))
  | .op op rd rs1 rs2 =>
      some (.ofReg st (st.pc + 1) rd (op.eval (st.regs rs1) (st.regs rs2)))

/-- A state together with everything written so far, in program order. -/
structure Run where
  st : State
  writes : List (Reg × Word)
  stores : List Store

/-- The effect of the next instruction of the program. -/
def effect (prog : BitVec 30 → Word) (st : State) : Option Effect :=
  (decode (prog st.pc)).bind (exec st)

def Run.apply (r : Run) (e : Effect) : Run :=
  { st := e.next
    writes := r.writes ++ e.write.toList
    stores := r.stores ++ e.store.toList }

/-- Execution of one instruction. -/
def Run.step (prog : BitVec 30 → Word) (r : Run) : Option Run :=
  (effect prog r.st).map r.apply

/-- Execution of `n` instructions. -/
def Run.steps (prog : BitVec 30 → Word) (r : Run) : Nat → Option Run
  | 0 => some r
  | n + 1 => (r.steps prog n).bind (Run.step prog)

end Semantics

end Rv32
end F32c
