import Npu.SystolicArray

/-!
# Npu.SystolicCore

The module `systolic_core`: input skew pipelines (row `i` is delayed by `i` stages),
the systolic array, and output deskew pipelines (column `j` is delayed by `n - 1 - j`
stages).  Every stage of a skew or deskew pipeline is a register with its own
valid/ready handshake; there is no global stall.
-/

namespace Npu

open Bank

/-- One `skew_stage`. -/
structure SkewReg (dw : Nat) where
  xReg : BitVec dw
  vReg : Bool
  lwReg : Bool
deriving DecidableEq, Repr

/-- One `deskew_stage`. -/
structure DeskewReg (aw : Nat) where
  yReg : BitVec aw
  vReg : Bool
deriving DecidableEq, Repr

/-- Reset: no valid bit. -/
def SkewReg.reset (dw : Nat) : SkewReg dw := ⟨0, false, false⟩

def DeskewReg.reset (aw : Nat) : DeskewReg aw := ⟨0, false⟩

instance : Inhabited (SkewReg dw) := ⟨SkewReg.reset dw⟩

instance : Inhabited (DeskewReg aw) := ⟨DeskewReg.reset aw⟩

/-- The registers of `systolic_core`. -/
structure SystolicCore (n dw aw : Nat) where
  /-- `skew[i][j]` is stage `j` of row `i`, for `j < i`. -/
  skew : List (List (SkewReg dw))
  array : SystolicArray n dw aw
  /-- `deskew[j][k]` is stage `k` of column `j`, for `k < n - 1 - j`. -/
  deskew : List (List (DeskewReg aw))
deriving DecidableEq, Repr

namespace SystolicCore

/-- The input ports of `systolic_core`. -/
structure In (dw aw : Nat) where
  loadWeightIn : Nat → Bool
  validIn : Bool
  xIn : Nat → BitVec dw
  yIn : Nat → BitVec aw
  weightLatchEn : Bool
  readyIn : Bool

/-- Reset: every register of its module. -/
def reset (n dw aw : Nat) : SystolicCore n dw aw where
  skew := gen n fun i => gen i fun _ => SkewReg.reset dw
  array := SystolicArray.reset n dw aw
  deskew := gen n fun j => gen (n - 1 - j) fun _ => DeskewReg.reset aw

variable (c : SystolicCore n dw aw) (inp : In dw aw)

/-- Stage `j` of the skew pipeline of row `i`. -/
def skewReg (i j : Nat) : SkewReg dw := sel (sel c.skew i) j

/-- Stage `k` of the deskew pipeline of column `j`. -/
def deskewReg (j k : Nat) : DeskewReg aw := sel (sel c.deskew j) k

/-- The cell of row `i`, column `j` of the array. -/
def pe (i j : Nat) : MacPe dw aw := c.array.pe i j

/-! ## input skew: the pipes -/

/-- `x_pipe` of row `i`: the port, then the stages. -/
def xPipe (i : Nat) : Nat → BitVec dw
  | 0 => inp.xIn i
  | j + 1 => (c.skewReg i j).xReg

/-- `valid_pipe` of row `i`. -/
def validPipe (i : Nat) : Nat → Bool
  | 0 => inp.validIn
  | j + 1 => (c.skewReg i j).vReg

/-- `lw_pipe` of row `i`. -/
def lwPipe (i : Nat) : Nat → Bool
  | 0 => inp.loadWeightIn i
  | j + 1 => (c.skewReg i j).lwReg

/-! ## output deskew: valid and ready -/

/-- `valid_pipe` of column `j`: the array, then the stages. -/
def yValidPipe (j : Nat) : Nat → Bool
  | 0 => c.array.validOutY j
  | k + 1 => (c.deskewReg j k).vReg

/-- `col_valid_out`: column `j` has a result at the end of its deskew pipeline. -/
def colValidOut (j : Nat) : Bool := c.yValidPipe j (n - 1 - j)

/-- A row leaves only when all columns have their part of it. -/
def validOut : Bool := (List.range n).all c.colValidOut

/-- `ready_pipe[DELAY - d]` of column `j`, from the output end backwards. -/
def yReadyBack (j : Nat) : (d : Nat) → Bool
  | 0 => (inp.readyIn && c.validOut) || !c.colValidOut j
  | d + 1 => yReadyBack j d || !(c.deskewReg j (n - 1 - j - (d + 1))).vReg

/-- `ready_pipe[k]` of column `j`. -/
def yReadyPipe (j k : Nat) : Bool := c.yReadyBack inp j (n - 1 - j - k)

/-! ## the array between them -/

/-- What the array sees: the ends of the skew pipelines and the heads of the deskew pipelines. -/
def arrayIn : SystolicArray.In dw aw where
  loadWeightIn i := c.lwPipe inp i i
  validIn i := c.validPipe inp i i
  xIn i := c.xPipe inp i i
  yIn := inp.yIn
  weightLatchEn := inp.weightLatchEn
  readyIn j := c.yReadyPipe inp j 0

/-- The inputs of cell `(i, j)`. -/
def pins (i j : Nat) : MacPe.In dw aw := c.array.pins (c.arrayIn inp) i j

/-- `y_pipe` of column `j`. -/
def yPipe (j : Nat) : Nat → BitVec aw
  | 0 => c.array.yOut (c.arrayIn inp) j
  | k + 1 => (c.deskewReg j k).yReg

/-! ## input skew: ready -/

/-- `ready_pipe[i - d]` of row `i`, from the array backwards. -/
def readyBack (i : Nat) : (d : Nat) → Bool
  | 0 => c.array.readyOut (c.arrayIn inp) i
  | d + 1 => readyBack i d || !(c.skewReg i (i - (d + 1))).vReg

/-- `ready_pipe[j]` of row `i`. -/
def readyPipe (i j : Nat) : Bool := c.readyBack inp i (i - j)

/-- `row_ready_out`: row `i` takes a beat. -/
def rowReadyOut (i : Nat) : Bool := c.readyPipe inp i 0

/-! ## ports -/

/-- The core takes a beat only when every row does. -/
def readyOut : Bool := (List.range n).all (c.rowReadyOut inp)

/-- The results at the ends of the deskew pipelines. -/
def yOut (j : Nat) : BitVec aw := c.yPipe inp j (n - 1 - j)

/-! ## the clock edge -/

/-- A stage takes what comes, or is emptied, or holds. -/
def skewStep (i j : Nat) : SkewReg dw :=
  if c.readyPipe inp i j && c.validPipe inp i j then
    { xReg := c.xPipe inp i j, vReg := true, lwReg := c.lwPipe inp i j }
  else if c.readyPipe inp i (j + 1) then
    { c.skewReg i j with vReg := false }
  else
    c.skewReg i j

/-- The same for a stage of a deskew pipeline. -/
def deskewStep (j k : Nat) : DeskewReg aw :=
  if c.yReadyPipe inp j k && c.yValidPipe j k then
    { yReg := c.yPipe inp j k, vReg := true }
  else if c.yReadyPipe inp j (k + 1) then
    { c.deskewReg j k with vReg := false }
  else
    c.deskewReg j k

/-- All registers at one edge. -/
def step : SystolicCore n dw aw where
  skew := gen n fun i => gen i fun j => c.skewStep inp i j
  array := c.array.step (c.arrayIn inp)
  deskew := gen n fun j => gen (n - 1 - j) fun k => c.deskewStep inp j k

/-! ## register and wire equations -/

@[simp] theorem skewReg_step {i j : Nat} (hi : i < n) (hj : j < i) :
    (c.step inp).skewReg i j = c.skewStep inp i j := by
  rw [skewReg, step, sel_gen _ hi, sel_gen _ hj]

@[simp] theorem deskewReg_step {j k : Nat} (hj : j < n) (hk : k < n - 1 - j) :
    (c.step inp).deskewReg j k = c.deskewStep inp j k := by
  rw [deskewReg, step, sel_gen _ hj, sel_gen _ hk]

@[simp] theorem pe_step {i j : Nat} (hi : i < n) (hj : j < n) :
    (c.step inp).pe i j = (c.pe i j).step (c.pins inp i j) :=
  SystolicArray.pe_step _ _ hi hj

@[simp] theorem skewReg_reset {i j : Nat} (hi : i < n) (hj : j < i) :
    (reset n dw aw).skewReg i j = SkewReg.reset dw := by
  rw [skewReg, reset, sel_gen _ hi, sel_gen _ hj]

@[simp] theorem deskewReg_reset {j k : Nat} (hj : j < n) (hk : k < n - 1 - j) :
    (reset n dw aw).deskewReg j k = DeskewReg.reset aw := by
  rw [deskewReg, reset, sel_gen _ hj, sel_gen _ hk]

@[simp] theorem pe_reset {i j : Nat} (hi : i < n) (hj : j < n) :
    (reset n dw aw).pe i j = MacPe.reset dw aw :=
  SystolicArray.pe_reset hi hj

theorem readyPipe_self (i : Nat) :
    c.readyPipe inp i i = c.array.readyOut (c.arrayIn inp) i := by
  simp [readyPipe, readyBack]

theorem readyPipe_of_lt {i j : Nat} (h : j < i) :
    c.readyPipe inp i j = (c.readyPipe inp i (j + 1) || !(c.skewReg i j).vReg) := by
  obtain ⟨d, hd⟩ : ∃ d, i - j = d + 1 := ⟨i - j - 1, by omega⟩
  have hd' : i - (j + 1) = d := by omega
  have hj : i - (d + 1) = j := by omega
  rw [readyPipe, readyPipe, hd, hd', readyBack, hj]

theorem yReadyPipe_last (j : Nat) :
    c.yReadyPipe inp j (n - 1 - j) = (inp.readyIn && c.validOut || !c.colValidOut j) := by
  simp [yReadyPipe, yReadyBack]

theorem yReadyPipe_of_lt {j k : Nat} (h : k < n - 1 - j) :
    c.yReadyPipe inp j k = (c.yReadyPipe inp j (k + 1) || !(c.deskewReg j k).vReg) := by
  obtain ⟨d, hd⟩ : ∃ d, n - 1 - j - k = d + 1 := ⟨n - 1 - j - k - 1, by omega⟩
  have hd' : n - 1 - j - (k + 1) = d := by omega
  have hk : n - 1 - j - (d + 1) = k := by omega
  rw [yReadyPipe, yReadyPipe, hd, hd', yReadyBack, hk]

theorem validOut_iff : c.validOut = true ↔ ∀ j, j < n → c.colValidOut j = true := by
  rw [validOut, all_range_iff]

theorem readyOut_iff :
    c.readyOut inp = true ↔ ∀ i, i < n → c.rowReadyOut inp i = true := by
  rw [readyOut, all_range_iff]

end SystolicCore

end Npu
