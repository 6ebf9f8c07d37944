import Mathlib.Data.BitVec

/-!
# Npu.Ctrl

The register file: `npu_ctrl` with the sequencer registers, and inside it `mac_pe_ctrl`
with the registers of the single test cell.  Writes take effect at the edge; a read
answers one cycle later.

`weight_latch_en` and `seq_start` are pulses: they fall back to 0 at every edge that does
not write them.
-/

namespace Npu

/-- The registers of `mac_pe_ctrl`. -/
structure MacPeCtrl where
  loadWeight : Bool
  validIn : Bool
  xIn : BitVec 8
  yIn : BitVec 32
  regReaddata : BitVec 32
  regReaddatavalid : Bool
deriving DecidableEq, Repr

namespace MacPeCtrl

/-- The input ports of `mac_pe_ctrl`. -/
structure In where
  regAddr : BitVec 2
  regRead : Bool
  regWrite : Bool
  regWritedata : BitVec 32
  yOut : BitVec 32

def reset : MacPeCtrl := ⟨false, false, 0, 0, 0, false⟩

/-- What a read of register `regAddr` answers. -/
def readMux (c : MacPeCtrl) (inp : In) : BitVec 32 :=
  if inp.regAddr == 0 then
    (0 : BitVec 30) ++ BitVec.ofBool c.validIn ++ BitVec.ofBool c.loadWeight
  else if inp.regAddr == 1 then (0 : BitVec 24) ++ c.xIn
  else if inp.regAddr == 2 then c.yIn
  else inp.yOut

def step (c : MacPeCtrl) (inp : In) : MacPeCtrl where
  loadWeight :=
    if inp.regWrite && inp.regAddr == 0 then inp.regWritedata.getLsbD 0 else c.loadWeight
  validIn := if inp.regWrite && inp.regAddr == 0 then inp.regWritedata.getLsbD 1 else c.validIn
  xIn := if inp.regWrite && inp.regAddr == 1 then inp.regWritedata.extractLsb' 0 8 else c.xIn
  yIn := if inp.regWrite && inp.regAddr == 2 then inp.regWritedata else c.yIn
  regReaddata := if inp.regRead then c.readMux inp else c.regReaddata
  regReaddatavalid := inp.regRead

end MacPeCtrl

/-- The registers of `npu_ctrl`. -/
structure NpuCtrl where
  seqStart : Bool
  seqMode : BitVec 2
  seqTotalRows : BitVec 32
  weightLatchEn : Bool
  sysReaddata : BitVec 32
  sysReaddatavalid : Bool
  macPeCtrl : MacPeCtrl
deriving DecidableEq, Repr

namespace NpuCtrl

/-- The input ports of `npu_ctrl`. -/
structure In where
  address : BitVec 4
  write : Bool
  writedata : BitVec 32
  read : Bool
  seqBusy : Bool
  seqDone : Bool
  peYOut : BitVec 32

def reset : NpuCtrl where
  seqStart := false
  seqMode := 0
  seqTotalRows := 0
  weightLatchEn := false
  sysReaddata := 0
  sysReaddatavalid := false
  macPeCtrl := .reset

variable (c : NpuCtrl) (inp : In)

def selectPe : Bool := inp.address.getLsbD 3

def selectSys : Bool := !inp.address.getLsbD 3

/-- A write to system register `r`. -/
def writes (r : BitVec 3) : Bool :=
  inp.write && selectSys inp && inp.address.extractLsb' 0 3 == r

/-- What a read of a system register answers. -/
def sysReadMux : BitVec 32 :=
  if inp.address.extractLsb' 0 3 == 0 then (0 : BitVec 29) ++ c.seqMode ++ (0 : BitVec 1)
  else if inp.address.extractLsb' 0 3 == 1 then
    (0 : BitVec 30) ++ BitVec.ofBool inp.seqDone ++ BitVec.ofBool inp.seqBusy
  else if inp.address.extractLsb' 0 3 == 6 then c.seqTotalRows
  else if inp.address.extractLsb' 0 3 == 7 then (0 : BitVec 31) ++ BitVec.ofBool c.weightLatchEn
  else 0

def macPeIn : MacPeCtrl.In where
  regAddr := inp.address.extractLsb' 0 2
  regRead := inp.read && selectPe inp
  regWrite := inp.write && selectPe inp
  regWritedata := inp.writedata
  yOut := inp.peYOut

/-- The clock edge. -/
def step : NpuCtrl where
  seqStart := writes inp 0 && inp.writedata.getLsbD 0
  seqMode := if writes inp 0 then inp.writedata.extractLsb' 1 2 else c.seqMode
  seqTotalRows := if writes inp 6 then inp.writedata else c.seqTotalRows
  weightLatchEn := writes inp 7 && inp.writedata.getLsbD 0
  sysReaddata := if inp.read && selectSys inp then c.sysReadMux inp else c.sysReaddata
  sysReaddatavalid := inp.read && selectSys inp
  macPeCtrl := c.macPeCtrl.step (macPeIn inp)

/-- The combined answer: the system registers come first. -/
def readdata : BitVec 32 :=
  if c.sysReaddatavalid then c.sysReaddata
  else if c.macPeCtrl.regReaddatavalid then c.macPeCtrl.regReaddata
  else 0

def readdatavalid : Bool := c.sysReaddatavalid || c.macPeCtrl.regReaddatavalid

/-- A read of `SEQ_STATUS` answers in the next cycle with the two status wires. -/
theorem readdata_status (hread : inp.read = true) (haddr : inp.address = 1) :
    (c.step inp).readdatavalid = true ∧
      (c.step inp).readdata =
        (0 : BitVec 30) ++ BitVec.ofBool inp.seqDone ++ BitVec.ofBool inp.seqBusy := by
  have hsel : selectSys inp = true := by rw [selectSys, haddr]; rfl
  simp [readdatavalid, readdata, step, sysReadMux, hread, hsel, haddr]

end NpuCtrl

end Npu
