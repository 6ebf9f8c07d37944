import Mathlib.Data.BitVec
import Mathlib.Tactic.Linarith
import Mathlib.Tactic.NormNum
import Mathlib.Tactic.Positivity

/-!
# Npu.MacPe

The multiply-accumulate cell `mac_pe`: two weight registers (shadow and
active), an activation that passes from left to right, a partial sum that passes
from top to bottom, and a valid/ready handshake of its own on either axis.

`MacPe` is the cell's registers, `MacPe.In` its input ports; the wires of the
module are functions of both, and `step` is the clock edge.
-/

namespace Npu

/-- The registers of `mac_pe`. -/
structure MacPe (dw aw : Nat) where
  shadowWeightReg : BitVec dw
  activeWeightReg : BitVec dw
  xOut : BitVec dw
  yOut : BitVec aw
  validOutX : Bool
  validOutY : Bool
  weightShiftOut : Bool
deriving DecidableEq, Repr

namespace MacPe

/-- The input ports of `mac_pe`. -/
structure In (dw aw : Nat) where
  validInX : Bool
  weightShiftIn : Bool
  xIn : BitVec dw
  readyInX : Bool
  validInY : Bool
  yIn : BitVec aw
  readyInY : Bool
  weightLatchEn : Bool

/-- The registers while `rst_n` is low. -/
def reset (dw aw : Nat) : MacPe dw aw where
  shadowWeightReg := 0
  activeWeightReg := 0
  xOut := 0
  yOut := 0
  validOutX := false
  validOutY := false
  weightShiftOut := false

instance : Inhabited (MacPe dw aw) := ⟨reset dw aw⟩

/-! ## the datapath -/

/-- The product wire `mult_out`, twice the data width: both operands are signed, so
both are sign-extended to the width of the product. -/
def multOut (x w : BitVec dw) : BitVec (dw * 2) := x.signExtend (dw * 2) * w.signExtend (dw * 2)

/-- `mult_ext`, the product sign-extended to the accumulator width. -/
def multExt (aw : Nat) (x w : BitVec dw) : BitVec aw := (multOut x w).signExtend aw

variable (p : MacPe dw aw) (i : In dw aw)

def addOut : BitVec aw := i.yIn + multExt aw i.xIn p.activeWeightReg

/-! ## the handshake -/

def stallX : Bool := p.validOutX && !i.readyInX

def stallY : Bool := p.validOutY && !i.readyInY

/-- Weight phase: only the x side is asked. -/
def fireLoad : Bool := i.validInX && i.weightShiftIn && !p.stallX i

/-- MAC phase: both sides must be valid and free. -/
def fireCalc : Bool :=
  i.validInX && i.validInY && !i.weightShiftIn && !p.stallX i && !p.stallY i

def fire : Bool := p.fireLoad i || p.fireCalc i

def readyOutX : Bool := p.fire i

def readyOutY : Bool := p.fireCalc i

/-! ## the clock edge -/

/-- The latch copies the shadow register as it stands before the edge. -/
def nextActive : BitVec dw := if i.weightLatchEn then p.shadowWeightReg else p.activeWeightReg

def step : MacPe dw aw :=
  if p.fireLoad i then
    { activeWeightReg := p.nextActive i
      shadowWeightReg := i.xIn
      xOut := p.shadowWeightReg
      yOut := p.yOut
      validOutX := true
      validOutY := false
      weightShiftOut := true }
  else if p.fireCalc i then
    { activeWeightReg := p.nextActive i
      shadowWeightReg := p.shadowWeightReg
      xOut := i.xIn
      yOut := p.addOut i
      validOutX := true
      validOutY := true
      weightShiftOut := false }
  else
    { p with
      activeWeightReg := p.nextActive i
      validOutX := p.validOutX && !i.readyInX
      validOutY := p.validOutY && !i.readyInY }

/-! ## what an edge does -/

theorem step_of_fireLoad (h : p.fireLoad i = true) :
    (p.step i).shadowWeightReg = i.xIn ∧ (p.step i).xOut = p.shadowWeightReg ∧
      (p.step i).validOutX = true ∧ (p.step i).validOutY = false ∧
      (p.step i).weightShiftOut = true := by
  simp [step, h]

theorem step_of_fireCalc (h : p.fireCalc i = true) :
    (p.step i).shadowWeightReg = p.shadowWeightReg ∧ (p.step i).xOut = i.xIn ∧
      (p.step i).yOut = p.addOut i ∧ (p.step i).validOutX = true ∧
      (p.step i).validOutY = true ∧ (p.step i).weightShiftOut = false := by
  have hl : p.fireLoad i = false := by
    simp only [fireCalc, Bool.and_eq_true, Bool.not_eq_true'] at h
    simp [fireLoad, h]
  simp [step, h, hl]

theorem step_of_idle (h : p.fire i = false) :
    (p.step i).shadowWeightReg = p.shadowWeightReg ∧ (p.step i).xOut = p.xOut ∧
      (p.step i).yOut = p.yOut ∧ (p.step i).validOutX = p.stallX i ∧
      (p.step i).validOutY = p.stallY i ∧ (p.step i).weightShiftOut = p.weightShiftOut := by
  simp only [fire, Bool.or_eq_false_iff] at h
  simp [step, h, stallX, stallY]

theorem activeWeightReg_step : (p.step i).activeWeightReg = p.nextActive i := by
  cases hl : p.fireLoad i <;> cases hc : p.fireCalc i <;> simp [step, hl, hc]

theorem shadowWeightReg_step :
    (p.step i).shadowWeightReg = if p.fireLoad i then i.xIn else p.shadowWeightReg := by
  cases hl : p.fireLoad i <;> cases hc : p.fireCalc i <;> simp [step, hl, hc]

theorem yOut_step : (p.step i).yOut = if p.fireCalc i then p.addOut i else p.yOut := by
  cases hcalc : p.fireCalc i with
  | true => simp [p.step_of_fireCalc i hcalc]
  | false => cases hload : p.fireLoad i <;> simp [step, hload, hcalc]

/-! ## the product is exact -/

/-- A product of two signed `dw`-bit values fits in `2 * dw` bits. -/
theorem toInt_multOut (x w : BitVec dw) (hdw : 0 < dw) :
    (multOut x w).toInt = x.toInt * w.toInt := by
  have hle := BitVec.toInt_mul_toInt_le (x := x) (y := w)
  have hge := BitVec.le_toInt_mul_toInt (x := x) (y := w)
  have hpow : (2 : Int) ^ (dw * 2) = 4 * 2 ^ (dw * 2 - 2) := by
    rw [show (4 : Int) = 2 ^ 2 by norm_num, ← pow_add]
    congr 1
    omega
  have hpos : (0 : Int) < 2 ^ (dw * 2 - 2) := by positivity
  rw [multOut, BitVec.toInt_mul, BitVec.toInt_signExtend_of_le (by omega),
    BitVec.toInt_signExtend_of_le (by omega)]
  apply Int.bmod_eq_of_le_mul_two <;> push_cast <;> omega

/-- The cell adds the exact product, modulo the accumulator width. -/
theorem multExt_eq_ofInt (x w : BitVec dw) :
    multExt aw x w = BitVec.ofInt aw (x.toInt * w.toInt) := by
  rcases Nat.eq_zero_or_pos dw with rfl | hdw
  · simp [multExt, multOut, BitVec.signExtend, BitVec.eq_nil x, BitVec.eq_nil w]
  · rw [multExt, BitVec.signExtend, toInt_multOut x w hdw]

/-! ## the bounds of a product -/

/-- The least product of two signed `dw`-bit values. -/
def minProduct (dw : Nat) : Int := -(2 ^ (dw - 1) * (2 ^ (dw - 1) - 1))

/-- The largest one, that of the least value with itself. -/
def maxProduct (dw : Nat) : Int := 2 ^ (dw - 1) * 2 ^ (dw - 1)

theorem product_bounds (x w : BitVec dw) :
    minProduct dw ≤ x.toInt * w.toInt ∧ x.toInt * w.toInt ≤ maxProduct dw := by
  have hm : (1 : Int) ≤ 2 ^ (dw - 1) := one_le_pow₀ (by norm_num)
  have hx₁ : -2 ^ (dw - 1) ≤ x.toInt := x.le_toInt
  have hx₂ : x.toInt ≤ 2 ^ (dw - 1) - 1 := Int.le_sub_one_of_lt x.toInt_lt
  have hw₁ : -2 ^ (dw - 1) ≤ w.toInt := w.le_toInt
  have hw₂ : w.toInt ≤ 2 ^ (dw - 1) - 1 := Int.le_sub_one_of_lt w.toInt_lt
  unfold minProduct maxProduct
  generalize (2 : Int) ^ (dw - 1) = m at *
  constructor
  · rcases le_total 0 x.toInt with hx | hx <;> nlinarith
  · rcases le_total 0 x.toInt with hx | hx <;> nlinarith

end MacPe

end Npu
