import Npu.Lib.Bank
import Npu.MacPe

/-!
# Npu.SystolicArray

The module `systolic_array`: an `n × n` grid of `mac_pe` cells.  Activations, weight
tokens and their valid bits run along the rows from left to right, partial sums
along the columns from top to bottom, and the ready wires run against both.

A bus of `n` lanes is a function of the lane number.  Only the lanes below `n` are
wired.
-/

namespace Npu

open Bank

/-- The registers of the grid: `pes[i][j]` is the cell of row `i`, column `j`. -/
structure SystolicArray (n dw aw : Nat) where
  pes : List (List (MacPe dw aw))
deriving DecidableEq, Repr

namespace SystolicArray

/-- The input ports of `systolic_array`. -/
structure In (dw aw : Nat) where
  loadWeightIn : Nat → Bool
  validIn : Nat → Bool
  xIn : Nat → BitVec dw
  yIn : Nat → BitVec aw
  weightLatchEn : Bool
  readyIn : Nat → Bool

def reset (n dw aw : Nat) : SystolicArray n dw aw where
  pes := gen n fun _ => gen n fun _ => MacPe.reset dw aw

variable (a : SystolicArray n dw aw) (inp : In dw aw)

/-- The cell of row `i`, column `j`. -/
def pe (i j : Nat) : MacPe dw aw := sel (sel a.pes i) j

/-! ## wires that run with the data -/

def xWire (i : Nat) : Nat → BitVec dw
  | 0 => inp.xIn i
  | j + 1 => (a.pe i j).xOut

def vWireX (i : Nat) : Nat → Bool
  | 0 => inp.validIn i
  | j + 1 => (a.pe i j).validOutX

def lwWire (i : Nat) : Nat → Bool
  | 0 => inp.loadWeightIn i
  | j + 1 => (a.pe i j).weightShiftOut

def yWire (j : Nat) : Nat → BitVec aw
  | 0 => inp.yIn j
  | i + 1 => (a.pe i j).yOut

/-- The top edge is always valid. -/
def vWireY (j : Nat) : Nat → Bool
  | 0 => true
  | i + 1 => (a.pe i j).validOutY

/-- The inputs of cell `(i, j)`, given the ready wires it sees. -/
def peIn (readyInX readyInY : Bool) (i j : Nat) : MacPe.In dw aw where
  validInX := a.vWireX inp i j
  weightShiftIn := a.lwWire inp i j
  xIn := a.xWire inp i j
  readyInX := readyInX
  validInY := a.vWireY j i
  yIn := a.yWire inp j i
  readyInY := readyInY
  weightLatchEn := inp.weightLatchEn

/-! ## ready wires, which run against the data -/

/-- `(pe_ready_out_x, pe_ready_out_y)` of cell `(i, j)`.  The ready wires form an acyclic
net towards the right and bottom edges; `fuel` bounds the distance to them, and
`2 * n - (i + j)` is enough. -/
def peReady : (fuel i j : Nat) → Bool × Bool
  | 0, _, _ => (false, false)
  | fuel + 1, i, j =>
      let readyInX := if j + 1 = n then true else (peReady fuel i (j + 1)).1
      let readyInY := if i + 1 = n then inp.readyIn j else (peReady fuel (i + 1) j).2
      let i' := a.peIn inp readyInX readyInY i j
      ((a.pe i j).readyOutX i', (a.pe i j).readyOutY i')

/-- The right boundary is always ready. -/
def rWireX (i j : Nat) : Bool :=
  if j = n then true else (a.peReady inp (2 * n - (i + j)) i j).1

/-- The bottom boundary stalls as the column below it does. -/
def rWireY (i j : Nat) : Bool :=
  if i = n then inp.readyIn j else (a.peReady inp (2 * n - (i + j)) i j).2

/-- The inputs of cell `(i, j)`. -/
def pins (i j : Nat) : MacPe.In dw aw :=
  a.peIn inp (a.rWireX inp i (j + 1)) (a.rWireY inp (i + 1) j) i j

/-! ## ports and clock edge -/

def readyOut (i : Nat) : Bool := a.rWireX inp i 0

def validOutY (j : Nat) : Bool := a.vWireY j n

def yOut (j : Nat) : BitVec aw := a.yWire inp j n

def step : SystolicArray n dw aw where
  pes := gen n fun i => gen n fun j => (a.pe i j).step (a.pins inp i j)

/-! ## wire equations -/

@[simp] theorem pe_reset {i j : Nat} (hi : i < n) (hj : j < n) :
    (reset n dw aw).pe i j = MacPe.reset dw aw := by
  simp [pe, reset, hi, hj]

@[simp] theorem pe_step {i j : Nat} (hi : i < n) (hj : j < n) :
    (a.step inp).pe i j = (a.pe i j).step (a.pins inp i j) := by
  rw [pe, step, sel_gen _ hi, sel_gen _ hj]

@[simp] theorem rWireX_right (i : Nat) : a.rWireX inp i n = true := by simp [rWireX]

@[simp] theorem rWireY_bottom (j : Nat) : a.rWireY inp n j = inp.readyIn j := by simp [rWireY]

/-- One level of the ready net, with the fuel of the wires. -/
theorem peReady_eq {i j : Nat} (hi : i < n) (hj : j < n) :
    a.peReady inp (2 * n - (i + j)) i j =
      ((a.pe i j).readyOutX (a.pins inp i j), (a.pe i j).readyOutY (a.pins inp i j)) := by
  obtain ⟨fuel, hf⟩ : ∃ fuel, 2 * n - (i + j) = fuel + 1 := ⟨2 * n - (i + j) - 1, by omega⟩
  have hfx : fuel = 2 * n - (i + (j + 1)) := by omega
  have hfy : fuel = 2 * n - (i + 1 + j) := by omega
  rw [hf, peReady, pins, rWireX, rWireY, ← hfx, ← hfy]

/-- The ready wire into the x output of a cell is the cell on its right asking. -/
theorem rWireX_eq {i j : Nat} (hi : i < n) (hj : j < n) :
    a.rWireX inp i j = (a.pe i j).fire (a.pins inp i j) := by
  rw [rWireX, if_neg (by omega), peReady_eq a inp hi hj, MacPe.readyOutX]

/-- The ready wire into the y output of a cell is the cell below it asking. -/
theorem rWireY_eq {i j : Nat} (hi : i < n) (hj : j < n) :
    a.rWireY inp i j = (a.pe i j).fireCalc (a.pins inp i j) := by
  rw [rWireY, if_neg (by omega), peReady_eq a inp hi hj, MacPe.readyOutY]

end SystolicArray

end Npu
