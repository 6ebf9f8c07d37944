import Npu.Lib.History
import Npu.PeSequence
import Npu.UnitPorts

/-!
# Npu.Registers

The registers of the bus, from outside: what a read answers, in terms of what was written.

Most registers keep some of the bits that were last written to them (`lastWritten`).  The latch
enable shows only a write of the cycle before.  The last register of the test cell answers with
the sum of the last cycle in which the cell multiplied: a cell that is told to load or to multiply
by its control register does so in every cycle (`cellWeight`, `cellSum`).

Two bits of an address select the register of the test cell, so each of them is found twice.
-/

namespace Npu

open History Machine

/-- The registers of the bus. -/
inductive Register where
  | seqCtrl
  | seqStatus
  | reserved
  | seqTotalRows
  | weightLatchEn
  | peCtrl
  | peXIn
  | peYIn
  | peYOut
deriving DecidableEq, Repr

/-- The register at an address. -/
def Register.ofAddress (address : BitVec 4) : Register :=
  match address.toNat with
  | 0 => .seqCtrl
  | 1 => .seqStatus
  | 6 => .seqTotalRows
  | 7 => .weightLatchEn
  | 8 | 12 => .peCtrl
  | 9 | 13 => .peXIn
  | 10 | 14 => .peYIn
  | 11 | 15 => .peYOut
  | _ => .reserved

namespace NpuUnit

variable {is : List In} {inp : In} {u : NpuUnit}

/-! ## what the history says -/

/-- What this cycle writes to a register. -/
def In.writtenTo (r : Register) (inp : In) : Option (BitVec 32) :=
  if inp.avsWrite && Register.ofAddress inp.avsAddress == r then some inp.avsWritedata else none

/-- What was last written to a register, 0 at the start. -/
def lastWritten (r : Register) (is : List In) : BitVec 32 := (latest (In.writtenTo r) is).getD 0

/-- The last cycle has set the latch enable. -/
def latchPulse (is : List In) : Bool :=
  (is.getLast?.bind (In.writtenTo .weightLatchEn)).elim false fun data => data.getLsbD 0

/-- The control register tells the cell to load a weight. -/
def cellLoads (is : List In) : Bool :=
  (lastWritten .peCtrl is).getLsbD 1 && (lastWritten .peCtrl is).getLsbD 0

/-- The control register tells the cell to multiply. -/
def cellMultiplies (is : List In) : Bool :=
  (lastWritten .peCtrl is).getLsbD 1 && !(lastWritten .peCtrl is).getLsbD 0

def cellX (is : List In) : BitVec 8 := (lastWritten .peXIn is).extractLsb' 0 8

/-- The weight: `PE_X_IN` as the last cycle found it in which the cell loaded. -/
def cellWeight (is : List In) : BitVec 8 :=
  (latestBefore (fun js => if cellLoads js then some (cellX js) else none) is).getD 0

/-- The sum of the last cycle in which the cell multiplied; the weight is a cycle old then. -/
def cellSum (is : List In) : BitVec 32 :=
  (latestBefore (fun js =>
    if cellMultiplies js then
      some (lastWritten .peYIn js +
        BitVec.ofInt 32 ((cellX js).toInt * (cellWeight js.dropLast).toInt))
    else none) is).getD 0

/-- What a read of the register answers behind the cycles `is`. -/
def answerOf (is : List In) (inp : In) : Register → BitVec 32
  | .seqCtrl => lastWritten .seqCtrl is &&& 0b110
  | .seqStatus => (0 : BitVec 30) ++ BitVec.ofBool inp.seqDone ++ BitVec.ofBool inp.seqBusy
  | .reserved => 0
  | .seqTotalRows => lastWritten .seqTotalRows is
  | .weightLatchEn => if latchPulse is then 1 else 0
  | .peCtrl => lastWritten .peCtrl is &&& 0b11
  | .peXIn => lastWritten .peXIn is &&& 0xFF
  | .peYIn => lastWritten .peYIn is
  | .peYOut => cellSum is

@[simp] theorem lastWritten_concat (r : Register) (is : List In) (inp : In) :
    lastWritten r (is ++ [inp]) = (inp.writtenTo r).getD (lastWritten r is) := by
  unfold lastWritten
  cases h : inp.writtenTo r <;> simp [h]

@[simp] theorem latchPulse_concat (is : List In) (inp : In) :
    latchPulse (is ++ [inp]) = (inp.writtenTo .weightLatchEn).elim false fun data =>
      data.getLsbD 0 := by
  simp [latchPulse]

@[simp] theorem cellWeight_concat (is : List In) (inp : In) :
    cellWeight (is ++ [inp]) = if cellLoads is then cellX is else cellWeight is := by
  unfold cellWeight
  by_cases h : cellLoads is = true <;> simp [h]

@[simp] theorem cellSum_concat (is : List In) (inp : In) :
    cellSum (is ++ [inp]) =
      if cellMultiplies is then
        lastWritten .peYIn is +
          BitVec.ofInt 32 ((cellX is).toInt * (cellWeight is.dropLast).toInt)
      else cellSum is := by
  unfold cellSum
  by_cases h : cellMultiplies is = true <;> simp [h]

/-! ## the addresses -/

/-- The decoding of the system registers. -/
theorem Register.ofAddress_sys : ∀ a : BitVec 4, a.getLsbD 3 = false →
    Register.ofAddress a =
      if a.extractLsb' 0 3 == 0 then .seqCtrl
      else if a.extractLsb' 0 3 == 1 then .seqStatus
      else if a.extractLsb' 0 3 == 6 then .seqTotalRows
      else if a.extractLsb' 0 3 == 7 then .weightLatchEn
      else .reserved := by
  decide

/-- The decoding of the registers of the test cell. -/
theorem Register.ofAddress_pe : ∀ a : BitVec 4, a.getLsbD 3 = true →
    Register.ofAddress a =
      if a.extractLsb' 0 2 == 0 then .peCtrl
      else if a.extractLsb' 0 2 == 1 then .peXIn
      else if a.extractLsb' 0 2 == 2 then .peYIn
      else .peYOut := by
  decide

theorem Register.ofAddress_eq : ∀ a : BitVec 4,
    (Register.ofAddress a == .seqCtrl) = (!a.getLsbD 3 && a.extractLsb' 0 3 == 0) ∧
      (Register.ofAddress a == .seqTotalRows) = (!a.getLsbD 3 && a.extractLsb' 0 3 == 6) ∧
      (Register.ofAddress a == .weightLatchEn) = (!a.getLsbD 3 && a.extractLsb' 0 3 == 7) ∧
      (Register.ofAddress a == .peCtrl) = (a.getLsbD 3 && a.extractLsb' 0 2 == 0) ∧
      (Register.ofAddress a == .peXIn) = (a.getLsbD 3 && a.extractLsb' 0 2 == 1) ∧
      (Register.ofAddress a == .peYIn) = (a.getLsbD 3 && a.extractLsb' 0 2 == 2) := by
  decide

theorem writtenTo_eq (inp : In) : inp.writtenTo .seqCtrl = inp.written 0 ∧
    inp.writtenTo .seqTotalRows = inp.written 6 ∧ inp.writtenTo .weightLatchEn = inp.written 7 := by
  obtain ⟨hctrl, hrows, hlatch, -⟩ := Register.ofAddress_eq inp.avsAddress
  simp only [In.writtenTo, In.written, In.writes, hctrl, hrows, hlatch, Bool.and_assoc, and_self]

/-! ## one edge -/

/-- One edge of the system registers. -/
theorem ctrl_step (u : NpuUnit) (inp : In) :
    (u.step inp).ctrl.seqMode =
        ((inp.writtenTo .seqCtrl).map fun data => data.extractLsb' 1 2).getD u.ctrl.seqMode ∧
      (u.step inp).ctrl.seqTotalRows = (inp.writtenTo .seqTotalRows).getD u.ctrl.seqTotalRows ∧
      (u.step inp).ctrl.weightLatchEn =
        (inp.writtenTo .weightLatchEn).elim false fun data => data.getLsbD 0 := by
  obtain ⟨hctrl, hrows, hlatch⟩ := writtenTo_eq inp
  rw [hctrl, hrows, hlatch, seqMode_step, seqTotalRows_step, weightLatchEn_step]
  unfold In.written
  refine ⟨?_, ?_, ?_⟩
  · split <;> rfl
  · split <;> rfl
  · cases inp.writes 7 <;> rfl

/-- One edge of the registers of the test cell. -/
theorem macPeCtrl_step (u : NpuUnit) (inp : In) :
    (u.step inp).ctrl.macPeCtrl.loadWeight =
        ((inp.writtenTo .peCtrl).map fun data => data.getLsbD 0).getD u.ctrl.macPeCtrl.loadWeight ∧
      (u.step inp).ctrl.macPeCtrl.validIn =
        ((inp.writtenTo .peCtrl).map fun data => data.getLsbD 1).getD u.ctrl.macPeCtrl.validIn ∧
      (u.step inp).ctrl.macPeCtrl.xIn =
        ((inp.writtenTo .peXIn).map fun data => data.extractLsb' 0 8).getD u.ctrl.macPeCtrl.xIn ∧
      (u.step inp).ctrl.macPeCtrl.yIn = (inp.writtenTo .peYIn).getD u.ctrl.macPeCtrl.yIn := by
  obtain ⟨-, -, -, hctrl, hx, hy⟩ := Register.ofAddress_eq inp.avsAddress
  simp only [step, ctrlIn, NpuCtrl.step, NpuCtrl.macPeIn, NpuCtrl.selectPe, MacPeCtrl.step,
    In.writtenTo, hctrl, hx, hy, Bool.and_assoc]
  refine ⟨?_, ?_, ?_, ?_⟩
  all_goals split <;> rfl

/-! ## the registers hold what the history says -/

/-- The bus side of the unit behind the cycles `is`. -/
structure Shows (is : List In) (u : NpuUnit) : Prop where
  seqMode : u.ctrl.seqMode = (lastWritten .seqCtrl is).extractLsb' 1 2
  seqTotalRows : u.ctrl.seqTotalRows = lastWritten .seqTotalRows is
  weightLatchEn : u.ctrl.weightLatchEn = latchPulse is
  loadWeight : u.ctrl.macPeCtrl.loadWeight = (lastWritten .peCtrl is).getLsbD 0
  validIn : u.ctrl.macPeCtrl.validIn = (lastWritten .peCtrl is).getLsbD 1
  xIn : u.ctrl.macPeCtrl.xIn = cellX is
  yIn : u.ctrl.macPeCtrl.yIn = lastWritten .peYIn is
  shadow : u.macPe.shadowWeightReg = cellWeight is
  active : u.macPe.activeWeightReg = cellWeight is.dropLast
  sum : u.macPe.yOut = cellSum is

theorem shows_reset (outFifo : BitVec 3 → BitVec 256) : Shows [] (reset outFifo) := by
  constructor <;> rfl

/-- A register keeps bits of what was last written to it. -/
theorem keeps_bits {g : BitVec 32 → α} {old : α} {r : Register}
    (h : old = g (lastWritten r is)) (inp : In) :
    ((inp.writtenTo r).map g).getD old = g (lastWritten r (is ++ [inp])) := by
  rw [lastWritten_concat, h]
  cases inp.writtenTo r <;> rfl

theorem Shows.step (h : Shows is u) (inp : In) : Shows (is ++ [inp]) (u.step inp) := by
  obtain ⟨hmode, hrows, hlatch⟩ := ctrl_step u inp
  obtain ⟨hload, hvalid, hx, hy⟩ := macPeCtrl_step u inp
  constructor
  · rw [hmode]
    exact keeps_bits h.seqMode inp
  · rw [hrows, h.seqTotalRows, lastWritten_concat]
  · rw [hlatch, latchPulse_concat]
  · rw [hload]
    exact keeps_bits (g := fun data => data.getLsbD 0) h.loadWeight inp
  · rw [hvalid]
    exact keeps_bits (g := fun data => data.getLsbD 1) h.validIn inp
  · rw [hx]
    exact keeps_bits h.xIn inp
  · rw [hy, h.yIn, lastWritten_concat]
  · rw [macPe_shadow_step, cellWeight_concat, cellLoads, h.validIn, h.loadWeight, h.xIn, h.shadow]
  · rw [macPe_active_step, h.shadow, List.dropLast_concat]
  · rw [macPe_yOut_step, cellSum_concat, cellMultiplies, h.validIn, h.loadWeight, h.xIn, h.yIn,
      h.active, h.sum]

theorem shows_run (outFifo : BitVec 3 → BitVec 256) (is : List In) :
    Shows is (run step (reset outFifo) is) := by
  induction is using List.reverseRecOn with
  | nil => exact shows_reset outFifo
  | append_singleton is inp ih =>
      rw [run_append]
      exact ih.step inp

/-! ## reads -/

/-- The two halves of the register file answer in turn. -/
theorem readdata_step (c : NpuCtrl) (inp : NpuCtrl.In) :
    (c.step inp).readdatavalid = inp.read ∧
      (c.step inp).readdata =
        if inp.read then
          if inp.address.getLsbD 3 then c.macPeCtrl.readMux (NpuCtrl.macPeIn inp)
          else c.sysReadMux inp
        else 0 := by
  cases hread : inp.read <;> cases hpe : inp.address.getLsbD 3
  all_goals
    simp only [NpuCtrl.readdatavalid, NpuCtrl.readdata, NpuCtrl.step, MacPeCtrl.step,
      NpuCtrl.selectSys, NpuCtrl.macPeIn, NpuCtrl.selectPe, hread, hpe]
    exact ⟨rfl, rfl⟩

/-- The read path of a register, bit by bit. -/
theorem readBits_eq (w : BitVec 32) :
    (0 : BitVec 29) ++ w.extractLsb' 1 2 ++ (0 : BitVec 1) = w &&& 0b110 ∧
      (0 : BitVec 30) ++ BitVec.ofBool (w.getLsbD 1) ++ BitVec.ofBool (w.getLsbD 0) =
        w &&& 0b11 ∧
      (0 : BitVec 24) ++ w.extractLsb' 0 8 = w &&& 0xFF := by
  have hmask : ∀ b, b < 32 → (0b110 : BitVec 32).getLsbD b = decide (b = 1 ∨ b = 2) ∧
      (0b11 : BitVec 32).getLsbD b = decide (b < 2) ∧
        (0xFF : BitVec 32).getLsbD b = decide (b < 8) := by decide
  refine ⟨?_, ?_, ?_⟩
  all_goals
    refine BitVec.eq_of_getLsbD_eq fun b hb => ?_
    obtain ⟨h6, h3, h255⟩ := hmask b hb
    simp only [BitVec.getLsbD_append, BitVec.getLsbD_and, BitVec.getLsbD_extractLsb',
      BitVec.getLsbD_ofBool, h6, h3, h255]
    grind

theorem Shows.sysReadMux_eq (h : Shows is u) (hsys : inp.avsAddress.getLsbD 3 = false) :
    u.ctrl.sysReadMux (u.ctrlIn inp) = answerOf is inp (.ofAddress inp.avsAddress) := by
  have hpulse : ∀ b : Bool, (0 : BitVec 31) ++ BitVec.ofBool b = (if b then 1 else 0 : BitVec 32) := by
    decide
  rw [NpuCtrl.sysReadMux, Register.ofAddress_sys _ hsys, h.seqMode, h.seqTotalRows, h.weightLatchEn, hpulse,
    (readBits_eq _).1]
  simp only [ctrlIn, BitVec.ofNat_eq_ofNat]
  split_ifs <;> simp [answerOf, *]

theorem Shows.readMux_eq (h : Shows is u) (hpe : inp.avsAddress.getLsbD 3 = true) :
    u.ctrl.macPeCtrl.readMux (NpuCtrl.macPeIn (u.ctrlIn inp)) = answerOf is inp (.ofAddress inp.avsAddress) := by
  rw [MacPeCtrl.readMux, Register.ofAddress_pe _ hpe, h.validIn, h.loadWeight, h.xIn, h.yIn, cellX, (readBits_eq _).2.1,
    (readBits_eq _).2.2]
  simp only [ctrlIn, NpuCtrl.macPeIn, h.sum, BitVec.ofNat_eq_ofNat]
  split_ifs <;> rfl

/-- **A read** answers in the next cycle, and only then the bus carries data. -/
theorem bus_answers (outFifo : BitVec 3 → BitVec 256) (is : List In) (inp : In) :
    (run step (reset outFifo) (is ++ [inp])).ctrl.readdatavalid = inp.avsRead ∧
      (run step (reset outFifo) (is ++ [inp])).ctrl.readdata =
        if inp.avsRead then answerOf is inp (.ofAddress inp.avsAddress) else 0 := by
  have h := shows_run outFifo is
  rw [run_append, run_cons, run_nil]
  generalize run step (reset outFifo) is = u at h
  obtain ⟨hvalid, hdata⟩ := readdata_step u.ctrl (u.ctrlIn inp)
  refine ⟨hvalid, hdata.trans ?_⟩
  show (if inp.avsRead then if inp.avsAddress.getLsbD 3 then _ else _ else _) = _
  cases hpe : inp.avsAddress.getLsbD 3 with
  | false => rw [if_neg Bool.false_ne_true, h.sysReadMux_eq hpe]
  | true => rw [if_pos rfl, h.readMux_eq hpe]

end NpuUnit

end Npu
