import Npu.Lib.Session
import Npu.NpuUnit

/-!
# Npu.PeSequence

The single cell of the unit, driven through its registers as `verify_mac_pe` does: load a
weight, multiply, read the sum.  `valid_in` and `load_weight` are levels, so the cell fires in
every cycle in which they are held; the latch of this cell is always on, one cycle behind the
shadow register.

Each write of the sequence has an assertion that holds from its edge to the next write
(`Offered` up to `Computed`), through any number of cycles without a write to the four
registers.  The firings in between repeat what the first one did.  Nothing is asked of the
state before the first write.
-/

namespace Npu

open Machine

/-- The registers of the cell, as the driver numbers them. -/
def regPeCtrl : BitVec 4 := 8

def regPeXIn : BitVec 4 := 9

def regPeYIn : BitVec 4 := 10

def regPeYOut : BitVec 4 := 11

namespace NpuUnit

/-- A bus write. -/
def In.Writes (access : BitVec 4 × BitVec 32) (inp : In) : Prop :=
  inp.avsWrite = true ∧ inp.avsAddress = access.1 ∧ inp.avsWritedata = access.2

/-- A cycle without a write to the registers of the cell. -/
def In.PeQuiet (inp : In) : Prop := inp.avsWrite = true → inp.avsAddress.getLsbD 3 = false

variable {u : NpuUnit} {inp : In} {d : BitVec 32} {w x : BitVec 8} {y : BitVec 32}

/-! ## one edge of the registers -/

theorem peRegs_of_quiet (h : inp.PeQuiet) :
    (u.step inp).ctrl.macPeCtrl.loadWeight = u.ctrl.macPeCtrl.loadWeight ∧
      (u.step inp).ctrl.macPeCtrl.validIn = u.ctrl.macPeCtrl.validIn ∧
      (u.step inp).ctrl.macPeCtrl.xIn = u.ctrl.macPeCtrl.xIn ∧
      (u.step inp).ctrl.macPeCtrl.yIn = u.ctrl.macPeCtrl.yIn := by
  have hwrite : (NpuCtrl.macPeIn (u.ctrlIn inp)).regWrite = false := by
    show (inp.avsWrite && inp.avsAddress.getLsbD 3) = false
    cases hw : inp.avsWrite with
    | false => rfl
    | true => rw [h hw, Bool.and_false]
  simp [step, NpuCtrl.step, MacPeCtrl.step, hwrite]

theorem peRegs_of_ctrl (h : inp.Writes (regPeCtrl, d)) :
    (u.step inp).ctrl.macPeCtrl.loadWeight = d.getLsbD 0 ∧
      (u.step inp).ctrl.macPeCtrl.validIn = d.getLsbD 1 ∧
      (u.step inp).ctrl.macPeCtrl.xIn = u.ctrl.macPeCtrl.xIn ∧
      (u.step inp).ctrl.macPeCtrl.yIn = u.ctrl.macPeCtrl.yIn := by
  obtain ⟨hw, ha, hd⟩ := h
  simp [step, ctrlIn, NpuCtrl.step, NpuCtrl.macPeIn, NpuCtrl.selectPe, MacPeCtrl.step, hw, ha, hd,
    regPeCtrl]

theorem peRegs_of_xIn (h : inp.Writes (regPeXIn, d)) :
    (u.step inp).ctrl.macPeCtrl.loadWeight = u.ctrl.macPeCtrl.loadWeight ∧
      (u.step inp).ctrl.macPeCtrl.validIn = u.ctrl.macPeCtrl.validIn ∧
      (u.step inp).ctrl.macPeCtrl.xIn = d.extractLsb' 0 8 ∧
      (u.step inp).ctrl.macPeCtrl.yIn = u.ctrl.macPeCtrl.yIn := by
  obtain ⟨hw, ha, hd⟩ := h
  simp [step, ctrlIn, NpuCtrl.step, NpuCtrl.macPeIn, NpuCtrl.selectPe, MacPeCtrl.step, hw, ha, hd,
    regPeXIn]

theorem peRegs_of_yIn (h : inp.Writes (regPeYIn, d)) :
    (u.step inp).ctrl.macPeCtrl.loadWeight = u.ctrl.macPeCtrl.loadWeight ∧
      (u.step inp).ctrl.macPeCtrl.validIn = u.ctrl.macPeCtrl.validIn ∧
      (u.step inp).ctrl.macPeCtrl.xIn = u.ctrl.macPeCtrl.xIn ∧
      (u.step inp).ctrl.macPeCtrl.yIn = d := by
  obtain ⟨hw, ha, hd⟩ := h
  simp [step, ctrlIn, NpuCtrl.step, NpuCtrl.macPeIn, NpuCtrl.selectPe, MacPeCtrl.step, hw, ha, hd,
    regPeYIn]

/-- A read of `REG_PE_Y_OUT` answers in the next cycle. -/
theorem readdata_peYOut (hread : inp.avsRead = true) (haddr : inp.avsAddress = regPeYOut) :
    (u.step inp).ctrl.readdatavalid = true ∧ (u.step inp).ctrl.readdata = u.macPe.yOut := by
  simp [step, ctrlIn, NpuCtrl.step, NpuCtrl.macPeIn, NpuCtrl.selectPe, NpuCtrl.selectSys,
    NpuCtrl.readdata, NpuCtrl.readdatavalid, MacPeCtrl.step, MacPeCtrl.readMux, hread, haddr,
    regPeYOut]

/-! ## one edge of the cell -/

/-- Both sides of the cell are always ready, so it fires at the levels of its registers. -/
theorem macPe_fireLoad (u : NpuUnit) :
    u.macPe.fireLoad u.macPeIn = (u.ctrl.macPeCtrl.validIn && u.ctrl.macPeCtrl.loadWeight) := by
  simp [MacPe.fireLoad, MacPe.stallX, macPeIn]

theorem macPe_fireCalc (u : NpuUnit) :
    u.macPe.fireCalc u.macPeIn = (u.ctrl.macPeCtrl.validIn && !u.ctrl.macPeCtrl.loadWeight) := by
  simp [MacPe.fireCalc, MacPe.stallX, MacPe.stallY, macPeIn]

theorem macPe_shadow_step :
    (u.step inp).macPe.shadowWeightReg =
      if u.ctrl.macPeCtrl.validIn && u.ctrl.macPeCtrl.loadWeight then u.ctrl.macPeCtrl.xIn
      else u.macPe.shadowWeightReg := by
  rw [← macPe_fireLoad]
  exact MacPe.shadowWeightReg_step _ _

/-- The latch is always on. -/
theorem macPe_active_step : (u.step inp).macPe.activeWeightReg = u.macPe.shadowWeightReg :=
  MacPe.activeWeightReg_step _ _

theorem macPe_yOut_step :
    (u.step inp).macPe.yOut =
      if u.ctrl.macPeCtrl.validIn && !u.ctrl.macPeCtrl.loadWeight then
        u.ctrl.macPeCtrl.yIn +
          BitVec.ofInt 32 (u.ctrl.macPeCtrl.xIn.toInt * u.macPe.activeWeightReg.toInt)
      else u.macPe.yOut := by
  rw [← macPe_fireCalc, ← MacPe.multExt_eq_ofInt]
  exact MacPe.yOut_step _ _

/-! ## the assertions of the sequence -/

/-- `PE_X_IN = w` is written. -/
def Offered (w : BitVec 8) (u : NpuUnit) : Prop := u.ctrl.macPeCtrl.xIn = w

/-- `PE_CTRL = 3`: the cell loads `w` in every cycle. -/
structure Loading (w : BitVec 8) (u : NpuUnit) : Prop where
  x : u.ctrl.macPeCtrl.xIn = w
  valid : u.ctrl.macPeCtrl.validIn = true
  load : u.ctrl.macPeCtrl.loadWeight = true

/-- `PE_CTRL = 0`: the weight is in the shadow register. -/
structure Shadowed (w : BitVec 8) (u : NpuUnit) : Prop where
  valid : u.ctrl.macPeCtrl.validIn = false
  shadow : u.macPe.shadowWeightReg = w

/-- `PE_X_IN = x`: the weight is active. -/
structure Primed (w x : BitVec 8) (u : NpuUnit) : Prop extends Shadowed w u where
  active : u.macPe.activeWeightReg = w
  x : u.ctrl.macPeCtrl.xIn = x

/-- `PE_Y_IN = y`. -/
structure Ready (w x : BitVec 8) (y : BitVec 32) (u : NpuUnit) : Prop extends Primed w x u where
  y : u.ctrl.macPeCtrl.yIn = y

/-- `PE_CTRL = 2`: the cell computes the sum in every cycle. -/
structure Computing (w x : BitVec 8) (y : BitVec 32) (u : NpuUnit) : Prop where
  valid : u.ctrl.macPeCtrl.validIn = true
  load : u.ctrl.macPeCtrl.loadWeight = false
  shadow : u.macPe.shadowWeightReg = w
  active : u.macPe.activeWeightReg = w
  x : u.ctrl.macPeCtrl.xIn = x
  y : u.ctrl.macPeCtrl.yIn = y

/-- `PE_CTRL = 0`: the sum is in the output register. -/
structure Computed (w x : BitVec 8) (y : BitVec 32) (u : NpuUnit) : Prop where
  valid : u.ctrl.macPeCtrl.validIn = false
  yOut : u.macPe.yOut = y + BitVec.ofInt 32 (x.toInt * w.toInt)

/-! ## quiet cycles keep the assertions -/

theorem offered_stable (w : BitVec 8) : Stable step In.PeQuiet (Offered w) := by
  intro u inp h hq
  obtain ⟨-, -, hx, -⟩ := peRegs_of_quiet (u := u) hq
  exact hx.trans h

theorem loading_stable (w : BitVec 8) : Stable step In.PeQuiet (Loading w) := by
  intro u inp h hq
  obtain ⟨hload, hvalid, hx, -⟩ := peRegs_of_quiet (u := u) hq
  exact ⟨hx.trans h.x, hvalid.trans h.valid, hload.trans h.load⟩

/-- Without `valid_in` the shadow register stays. -/
theorem shadow_step_of_not_valid (h : u.ctrl.macPeCtrl.validIn = false) :
    (u.step inp).macPe.shadowWeightReg = u.macPe.shadowWeightReg := by
  rw [macPe_shadow_step, h, Bool.false_and]
  rfl

theorem shadowed_stable (w : BitVec 8) : Stable step In.PeQuiet (Shadowed w) := by
  intro u inp h hq
  obtain ⟨-, hvalid, -, -⟩ := peRegs_of_quiet (u := u) hq
  exact ⟨hvalid.trans h.valid, (shadow_step_of_not_valid h.valid).trans h.shadow⟩

theorem primed_stable (w x : BitVec 8) : Stable step In.PeQuiet (Primed w x) := by
  intro u inp h hq
  obtain ⟨-, -, hx, -⟩ := peRegs_of_quiet (u := u) hq
  exact ⟨shadowed_stable w u inp h.toShadowed hq, macPe_active_step.trans h.shadow, hx.trans h.x⟩

theorem ready_stable (w x : BitVec 8) (y : BitVec 32) : Stable step In.PeQuiet (Ready w x y) := by
  intro u inp h hq
  obtain ⟨-, -, -, hy⟩ := peRegs_of_quiet (u := u) hq
  exact ⟨primed_stable w x u inp h.toPrimed hq, hy.trans h.y⟩

/-- While the cell computes, the sum and the weight do not change. -/
theorem Computing.step (h : Computing w x y u) (inp : In) :
    (u.step inp).macPe.shadowWeightReg = w ∧ (u.step inp).macPe.activeWeightReg = w ∧
      (u.step inp).macPe.yOut = y + BitVec.ofInt 32 (x.toInt * w.toInt) := by
  refine ⟨?_, macPe_active_step.trans h.shadow, ?_⟩
  · rw [macPe_shadow_step, h.valid, h.load]
    exact h.shadow
  · rw [macPe_yOut_step, h.valid, h.load, h.y, h.x, h.active]
    rfl

theorem computing_stable (w x : BitVec 8) (y : BitVec 32) :
    Stable step In.PeQuiet (Computing w x y) := by
  intro u inp h hq
  obtain ⟨hload, hvalid, hx, hy⟩ := peRegs_of_quiet (u := u) hq
  obtain ⟨hshadow, hactive, -⟩ := h.step inp
  exact ⟨hvalid.trans h.valid, hload.trans h.load, hshadow, hactive, hx.trans h.x, hy.trans h.y⟩

theorem computed_stable (w x : BitVec 8) (y : BitVec 32) :
    Stable step In.PeQuiet (Computed w x y) := by
  intro u inp h hq
  obtain ⟨-, hvalid, -, -⟩ := peRegs_of_quiet (u := u) hq
  refine ⟨hvalid.trans h.valid, ?_⟩
  rw [macPe_yOut_step, h.valid, Bool.false_and]
  exact h.yOut

/-! ## the writes lead from one assertion to the next -/

theorem offered_of_write (hi : inp.Writes (regPeXIn, d)) :
    Offered (d.extractLsb' 0 8) (u.step inp) := by
  obtain ⟨-, -, hx, -⟩ := peRegs_of_xIn (u := u) hi
  exact hx

theorem loading_of_write (h : Offered w u) (hi : inp.Writes (regPeCtrl, 3)) :
    Loading w (u.step inp) := by
  obtain ⟨hload, hvalid, hx, -⟩ := peRegs_of_ctrl (u := u) hi
  exact ⟨hx.trans h, hvalid, hload⟩

theorem shadowed_of_write (h : Loading w u) (hi : inp.Writes (regPeCtrl, 0)) :
    Shadowed w (u.step inp) := by
  obtain ⟨-, hvalid, -, -⟩ := peRegs_of_ctrl (u := u) hi
  refine ⟨hvalid, ?_⟩
  rw [macPe_shadow_step, h.valid, h.load]
  exact h.x

theorem primed_of_write (h : Shadowed w u) (hi : inp.Writes (regPeXIn, d)) :
    Primed w (d.extractLsb' 0 8) (u.step inp) := by
  obtain ⟨-, hvalid, hx, -⟩ := peRegs_of_xIn (u := u) hi
  exact ⟨⟨hvalid.trans h.valid, (shadow_step_of_not_valid h.valid).trans h.shadow⟩,
    macPe_active_step.trans h.shadow, hx⟩

theorem ready_of_write (h : Primed w x u) (hi : inp.Writes (regPeYIn, y)) :
    Ready w x y (u.step inp) := by
  obtain ⟨-, hvalid, hx, hy⟩ := peRegs_of_yIn (u := u) hi
  exact ⟨⟨⟨hvalid.trans h.valid, (shadow_step_of_not_valid h.valid).trans h.shadow⟩,
    macPe_active_step.trans h.shadow, hx.trans h.x⟩, hy⟩

theorem computing_of_write (h : Ready w x y u) (hi : inp.Writes (regPeCtrl, 2)) :
    Computing w x y (u.step inp) := by
  obtain ⟨hload, hvalid, hx, hy⟩ := peRegs_of_ctrl (u := u) hi
  exact ⟨hvalid, hload, (shadow_step_of_not_valid h.valid).trans h.shadow,
    macPe_active_step.trans h.shadow, hx.trans h.x, hy.trans h.y⟩

theorem computed_of_write (h : Computing w x y u) (hi : inp.Writes (regPeCtrl, 0)) :
    Computed w x y (u.step inp) := by
  obtain ⟨-, hvalid, -, -⟩ := peRegs_of_ctrl (u := u) hi
  exact ⟨hvalid, (h.step inp).2.2⟩

/-! ## the sequence -/

/-- The writes of `verify_mac_pe`; the registers of the operands take their low byte. -/
def verifyMacPe (w x y : BitVec 32) : List (BitVec 4 × BitVec 32) :=
  [(regPeXIn, w), (regPeCtrl, 3), (regPeCtrl, 0), (regPeXIn, x), (regPeYIn, y), (regPeCtrl, 2),
    (regPeCtrl, 0)]

/-- The chain of assertions. -/
theorem verifyMacPe_takes (w x y : BitVec 32) :
    Takes step In.PeQuiet In.Writes (fun _ => True) (verifyMacPe w x y)
      (Computed (w.extractLsb' 0 8) (x.extractLsb' 0 8) y) := by
  refine takes_cons (fun _ _ _ _ => trivial) (fun _ _ _ => offered_of_write) ?_
  refine takes_cons (offered_stable _) (fun _ _ => loading_of_write) ?_
  refine takes_cons (loading_stable _) (fun _ _ => shadowed_of_write) ?_
  refine takes_cons (shadowed_stable _) (fun _ _ => primed_of_write) ?_
  refine takes_cons (primed_stable _ _) (fun _ _ => ready_of_write) ?_
  refine takes_cons (ready_stable _ _ _) (fun _ _ => computing_of_write) ?_
  refine takes_cons (computing_stable _ _ _) (fun _ _ => computed_of_write) ?_
  exact takes_nil (computed_stable _ _ _)

/-- **The sequence of `verify_mac_pe`**: from any state, however its writes are spaced and
whatever else happens between them, a read of `REG_PE_Y_OUT` behind it answers `y + x * w`. -/
theorem verifyMacPe_reads (u : NpuUnit) (w x y : BitVec 32) {is : List In}
    (his : Session In.PeQuiet In.Writes (verifyMacPe w x y) is) {inp : In}
    (hread : inp.avsRead = true) (haddr : inp.avsAddress = regPeYOut) :
    let ctrl := ((run step u is).step inp).ctrl
    ctrl.readdatavalid = true ∧
      ctrl.readdata =
        y + BitVec.ofInt 32 ((x.extractLsb' 0 8).toInt * (w.extractLsb' 0 8).toInt) := by
  intro ctrl
  have hcomputed := verifyMacPe_takes w x y u is trivial his
  obtain ⟨hvalid, hdata⟩ := readdata_peYOut (u := run step u is) hread haddr
  exact ⟨hvalid, hdata.trans hcomputed.yOut⟩

/-- The driver's run, with its two writes to register 7, behind a weight write that nobody
used; operands 7, 3 and 10. -/
theorem verifyMacPe_reads_driver :
    let is := [In.write regPeCtrl 3, .idle true, .write regPeXIn 7, .write regPeCtrl 3, .idle true,
      .write regPeCtrl 0, .write 7 1, .write 7 0, .write regPeXIn 3, .write regPeYIn 10,
      .idle true, .write regPeCtrl 2, .write regPeCtrl 0]
    let read : In := { In.idle true with avsRead := true, avsAddress := regPeYOut }
    ((run step (reset fun _ => 0) is).step read).ctrl.readdata = 31 := by
  intro is read
  have his : Session In.PeQuiet In.Writes (verifyMacPe 7 3 10) (is.drop 2) := by
    have hidle : In.PeQuiet (.idle true) := fun h => by contradiction
    have hlatch (d : BitVec 32) : In.PeQuiet (.write 7 d) := by
      intro _
      show (7 : BitVec 4).getLsbD 3 = false
      decide
    refine .access ⟨rfl, rfl, rfl⟩ (.access ⟨rfl, rfl, rfl⟩ (.wait hidle ?_))
    refine .access ⟨rfl, rfl, rfl⟩ (.wait (hlatch 1) (.wait (hlatch 0) ?_))
    refine .access ⟨rfl, rfl, rfl⟩ (.access ⟨rfl, rfl, rfl⟩ (.wait hidle ?_))
    exact .access ⟨rfl, rfl, rfl⟩ (.access ⟨rfl, rfl, rfl⟩ .done)
  exact (verifyMacPe_reads (run step (reset fun _ => 0) (is.take 2)) 7 3 10 his rfl rfl).2

end NpuUnit

end Npu
