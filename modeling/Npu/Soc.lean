import Npu.Dma
import Npu.Lib.Program
import Npu.UnitOwes

/-!
# Npu.Soc

The closed system: the driver on its bus, the memory, two DMA engines and the unit.

The driver's functions are programs of register accesses; a loop that polls a status register is
one access.  The DMA engines are parameters (`Dma`): the system asks them for the beat they present,
for the words they write and for their status, and shows them the writes to their slaves, the memory
and the stream of the unit.

A run of a program is a `Drives` of its accesses: the driver may wait before each of them, and a
poll waits until it finds its slave idle.  Nothing on the way from that poll to the latch pulse
waits for the last weight beat to meet every cell; `Leads` is about the runs whose pulses come late
enough (`LatchesLate`).
-/

namespace Npu

open ByteMem Lanes Machine

/-! ## the driver's accesses -/

/-- The slaves on the driver's bus. -/
inductive Slave where
  | npuCtrl
  | readCsr
  | readDescriptor
  | writeCsr
  | writeDescriptor
deriving DecidableEq, Repr

/-- What the driver does. -/
inductive Access where
  /-- `IOWR_32DIRECT`. -/
  | iowr (base : Slave) (offset : Nat) (data : BitVec 32)
  /-- `IORD` of a register of the unit; the driver keeps the answer. -/
  | iord (reg : Nat)
  /-- `while ((IORD_32DIRECT(base, offset) & 0x01) != 0)`. -/
  | poll (base : Slave) (offset : Nat)
  /-- Writes to memory. -/
  | memory (f : Mem → Mem)

namespace Access

/-- The register of the unit that is accessed. -/
def register : Access → BitVec 4
  | .iowr .npuCtrl offset _ => BitVec.ofNat 4 (offset / 4)
  | .iord reg => BitVec.ofNat 4 reg
  | .poll .npuCtrl offset => BitVec.ofNat 4 (offset / 4)
  | _ => 0

/-- What is written to it. -/
def written : Access → Option (BitVec 32)
  | .iowr .npuCtrl _ data => some data
  | _ => none

def reads : Access → Bool
  | .iord _ => true
  | .poll .npuCtrl _ => true
  | _ => false

/-- The driver keeps what it reads. -/
def keeps : Access → Bool
  | .iord _ => true
  | _ => false

/-- What is written to an engine with these two slaves. -/
def slaveWrite (csr descriptor : Slave) : Access → Option SlaveWrite
  | .iowr base offset data =>
      if base = csr then some (.csr offset data)
      else if base = descriptor then some (.descriptor offset data)
      else none
  | _ => none

/-- What is written to the engine on the read side. -/
def toRead : Access → Option SlaveWrite := slaveWrite .readCsr .readDescriptor

def toWrite : Access → Option SlaveWrite := slaveWrite .writeCsr .writeDescriptor

/-- What is left of the memory. -/
def onMemory : Access → Mem → Mem
  | .memory f => f
  | _ => id

end Access

def regCtrl : Nat := 0

def regStatus : Nat := 1

def regSeqRows : Nat := 6

/-- `IOWR`: registers are 4 bytes wide. -/
def iowrReg (base : Slave) (reg : Nat) (data : BitVec 32) : Access := .iowr base (reg * 4) data

def msgdmaInit (csrBase : Slave) : List Access :=
  [.iowr csrBase 0x00 0xFFFFFFFF, .iowr csrBase 0x04 0x00000000]

/-- `GO | GEN_EOP(9) | GEN_SOP(8)`. -/
def msgdmaReadStreamPush (descriptorBase : Slave) (srcAddr length : BitVec 32) : List Access :=
  [.iowr descriptorBase 0x00 srcAddr, .iowr descriptorBase 0x04 0x00000000,
    .iowr descriptorBase 0x08 length, .iowr descriptorBase 0x0C 0x80000300]

/-- `GO | End on EOP(12)`. -/
def msgdmaWriteStreamPush (descriptorBase : Slave) (dstAddr length : BitVec 32) : List Access :=
  [.iowr descriptorBase 0x00 0x00000000, .iowr descriptorBase 0x04 dstAddr,
    .iowr descriptorBase 0x08 length, .iowr descriptorBase 0x0C 0x80001000]

def npuLoadWeights (weightsAddr : BitVec 32) (numMatrices : Nat) : List Access :=
  [iowrReg .npuCtrl regCtrl 0x00000003] ++
    msgdmaReadStreamPush .readDescriptor weightsAddr (BitVec.ofNat 32 (npuMatBytes * numMatrices)) ++
    [.poll .readCsr 0, .poll .npuCtrl (regStatus * 4), iowrReg .npuCtrl 7 1, iowrReg .npuCtrl 7 0]

def npuGetMatrix (dstAddr : BitVec 32) (numMatrices : Nat) : List Access :=
  msgdmaWriteStreamPush .writeDescriptor dstAddr (BitVec.ofNat 32 (npuOutBytes * numMatrices))

def npuLoadMatrix (inputsAddr : BitVec 32) (numMatrices : Nat) : List Access :=
  iowrReg .npuCtrl regCtrl 0x00000001 ::
    msgdmaReadStreamPush .readDescriptor inputsAddr (BitVec.ofNat 32 (npuMatBytes * numMatrices))

def npuWaitExecution : List Access := [.poll .writeCsr 0, .poll .npuCtrl (regStatus * 4)]

/-! ## the system -/

/-- The words of flits, written to memory one after the other, highest byte first. -/
def storeAll (mem : Mem) (words : List (Nat × BitVec 64)) : Mem :=
  words.foldl (fun mem word => storeFlits mem word.1 [word.2]) mem

structure Soc (D : Dma) where
  unit : NpuUnit
  mem : Mem
  read : D.read.State
  write : D.write.State
  /-- What the driver read last. -/
  answer : BitVec 32
  /-- The cycles since a beat was accepted; nothing in the system reads it. -/
  quiet : Nat

namespace Soc

variable {D : Dma}

/-- What is free in a cycle: the driver's access, the pace of the two DMA engines and the two
wires without a driver. -/
structure In (D : Dma) where
  access : Option Access
  readPace : D.read.Pace
  writePace : D.write.Pace
  seqBusy : Bool
  seqDone : Bool

/-- The words still to be handed over. -/
def reading (s : Soc D) : List Nat := D.read.left s.read

/-- What is left to write. -/
def writing (s : Soc D) : List Transfer := D.write.left s.write

variable (s : Soc D) (i : In D)

def written : Option (BitVec 32) := i.access.bind Access.written

/-- The write to the read side. -/
def toRead : Option SlaveWrite := i.access.bind Access.toRead

def toWrite : Option SlaveWrite := i.access.bind Access.toWrite

/-- The beat that the read side presents. -/
def beat : Option (BitVec 64) := D.read.beat s.read i.readPace s.mem

/-- What the unit sees. -/
def unitIn : NpuUnit.In where
  avsAddress := i.access.elim 0 Access.register
  avsWrite := (written i).isSome
  avsWritedata := (written i).getD 0
  avsRead := i.access.elim false Access.reads
  stSinkData := (s.beat i).getD 0
  stSinkValid := (s.beat i).isSome
  stSourceReady := D.write.ready s.write i.writePace
  seqBusy := i.seqBusy
  seqDone := i.seqDone

/-- The read side hands a word over in this cycle. -/
def handsOver : Bool := s.unit.accepts (s.unitIn i)

/-- The flit that the write side takes in this cycle. -/
def flit : Option Flit := (s.unit.sentFlit (s.unitIn i)).head?

def step : Soc D where
  unit := s.unit.step (s.unitIn i)
  mem := i.access.elim id Access.onMemory (storeAll s.mem (D.write.stores s.write i.writePace))
  read := D.read.step s.read i.readPace s.mem (toRead i) (s.unit.stSinkReady (s.unitIn i))
  write := D.write.step s.write i.writePace (toWrite i) (s.flit i)
  answer :=
    if i.access.elim false Access.keeps then (s.unit.step (s.unitIn i)).ctrl.readdata
    else s.answer
  quiet := if s.handsOver i then 0 else s.quiet + 1

/-- Bit 0 of the status register that is polled. -/
def busy : Slave → Bool
  | .npuCtrl => (s.step i).unit.ctrl.readdata.getLsbD 0
  | .readCsr => D.read.busy s.read
  | .writeCsr => D.write.busy s.write
  | _ => false

/-- The cycle performs the access: a poll is performed when it finds the slave idle. -/
def Does (a : Access) (s : Soc D) (i : In D) : Prop :=
  i.access = some a ∧ ∀ base offset, a = .poll base offset → s.busy i base = false

/-- The driver waits: it does nothing, or its poll finds the slave busy. -/
def Waits (s : Soc D) (i : In D) : Prop :=
  i.access = none ∨ ∃ base offset, i.access = some (.poll base offset) ∧ s.busy i base = true

/-- A latch pulse comes late enough for the last weight beat to have met every cell. -/
def LatchesLate (s : Soc D) (_ : In D) : Prop := s.unit.ctrl.weightLatchEn = true → 14 ≤ s.quiet

/-- Every run of the program leads from `P` to `Q`, if its latch pulses come late enough. -/
abbrev Leads (P : Soc D → Prop) (as : List Access) (Q : Soc D → Prop) : Prop :=
  Machine.Leads step Waits Does LatchesLate P as Q

/-- The read side presents a word, or has none left. -/
def offers : Bool := (s.beat i).isSome || s.reading.isEmpty

/-- The write side takes a flit, or is through. -/
def takes : Bool := D.write.ready s.write i.writePace || s.writing.isEmpty

end Soc

end Npu
