import Npu.Lib.Elastic
import Npu.Lib.Machine
import Npu.SystolicCore

/-!
# Npu.RowPipe

What the systolic core is for, without its cells: one linear elastic pipeline of
`2 * n - 1` stages that carries whole rows.  Stage `s` stands for the anti-diagonal
`s` of the core — skew registers `s`, the cells `(i, j)` with `i + j = s`, and the deskew
registers `k` of column `j` with `n + j + k = s`.

A token is an activation row or a weight beat.  On entering stage `s` an
activation row adds, in every column `j`, the product of its lane `s - j` with
the active weight of cell `(s - j, j)`; a weight beat swaps each of its lanes with the
shadow weight of the cell it meets.  Weight beats fall off the last stage
without waiting for the output.

The module also states when a weight beat *overruns* a row: it stands before a
stage of the last columns whose row cannot move.
-/

namespace Npu

/-- A token of the pipeline. -/
inductive Token (dw aw : Nat) where
  /-- An activation row: its lanes `x`, the initial sums `b` it has met so far at the
  top edge, and its partial sums `y`. -/
  | act (x : Nat → BitVec dw) (b y : Nat → BitVec aw)
  /-- A weight beat with its lanes. -/
  | wt (x : Nat → BitVec dw)

namespace Token

def isAct : Option (Token dw aw) → Bool
  | some (act ..) => true
  | _ => false

def isWt : Option (Token dw aw) → Bool
  | some (wt _) => true
  | _ => false

end Token

/-- The pipeline and the two weight matrices. -/
structure RowPipe (n dw aw : Nat) where
  stages : List (Option (Token dw aw))
  length_stages : stages.length = 2 * n - 1
  shadow : Nat → Nat → BitVec dw
  active : Nat → Nat → BitVec dw

namespace RowPipe

open Token

/-- The token an input beat stands for. -/
def beat (inp : SystolicCore.In dw aw) : Option (Token dw aw) :=
  if inp.validIn then
    some (if inp.loadWeightIn 0 then .wt inp.xIn else .act inp.xIn (fun _ => 0) (fun _ => 0))
  else
    none

/-- The empty pipeline over given weights. -/
def empty (n : Nat) (aw : Nat) (shadow active : Nat → Nat → BitVec dw) : RowPipe n dw aw where
  stages := List.replicate (2 * n - 1) none
  length_stages := List.length_replicate
  shadow
  active

variable (p : RowPipe n dw aw) (inp : SystolicCore.In dw aw)

def stage (s : Nat) : Option (Token dw aw) := p.stages.getD s none

/-- Whether the output end takes the last stage: a row needs `ready_in`, a weight
beat falls off. -/
def out : Bool := !isAct (p.stage (2 * n - 2)) || inp.readyIn

def freeAt (s : Nat) : Bool := Elastic.freeAt (p.out inp) p.stages s

def incoming (s : Nat) : Option (Token dw aw) := Elastic.incoming (beat inp) p.stages s

/-- What entering stage `s` does to a token. -/
def enter (s : Nat) : Token dw aw → Token dw aw
  | .act x b y =>
      .act x (fun j => if s = j then inp.yIn j else b j) fun j =>
        if j ≤ s ∧ s < j + n then
          (if s = j then inp.yIn j else y j) + MacPe.multExt aw (x (s - j)) (p.active (s - j) j)
        else
          y j
  | .wt x => .wt fun i => if i ≤ s ∧ s < i + n then p.shadow i (s - i) else x i

/-! ## ports and clock edge -/

def readyOut : Bool := inp.validIn && p.freeAt inp 0

def validOut : Bool := isAct (p.stage (2 * n - 2))

def yOut (j : Nat) : BitVec aw :=
  match p.stage (2 * n - 2) with
  | some (.act _ _ y) => y j
  | _ => 0

/-- The lane a weight beat brings to row `i` when it enters stage `s`. -/
def loads (i s : Nat) : Option (BitVec dw) :=
  match p.freeAt inp s, p.incoming inp s with
  | true, some (.wt x) => some (x i)
  | _, _ => none

def step : RowPipe n dw aw where
  stages := Elastic.advance (p.enter inp) (p.out inp) (beat inp) p.stages
  length_stages := by rw [Elastic.length_advance, p.length_stages]
  shadow i j := (p.loads inp i (i + j)).getD (p.shadow i j)
  active i j := if inp.weightLatchEn then p.shadow i j else p.active i j

/-- The weight beat before stage `s` overruns the row in it. -/
def overrunAt (s : Nat) : Bool :=
  isAct (p.stage s) && !p.freeAt inp (s + 1) && isWt (p.incoming inp s)

/-- Some weight beat overruns a row in this cycle.  Only the stages from `n - 1` on have
a cell in the last column, which passes weights on without asking. -/
def Overruns : Prop := ∃ s, n - 1 ≤ s ∧ s < 2 * n - 1 ∧ p.overrunAt inp s = true

/-- An activation row is inside. -/
def HoldsRow : Prop := ∃ s, s < 2 * n - 1 ∧ isAct (p.stage s) = true

/-! ## equations -/

@[simp] theorem isAct_act (x : Nat → BitVec dw) (b y : Nat → BitVec aw) :
    isAct (some (.act x b y)) = true := rfl

@[simp] theorem isAct_wt (x : Nat → BitVec dw) : isAct (some (.wt x) : Option (Token dw aw)) = false :=
  rfl

@[simp] theorem isAct_none : isAct (none : Option (Token dw aw)) = false := rfl

@[simp] theorem isWt_act (x : Nat → BitVec dw) (b y : Nat → BitVec aw) :
    isWt (some (.act x b y)) = false := rfl

@[simp] theorem isWt_wt (x : Nat → BitVec dw) : isWt (some (.wt x) : Option (Token dw aw)) = true :=
  rfl

@[simp] theorem isWt_none : isWt (none : Option (Token dw aw)) = false := rfl

theorem isAct_iff {t : Option (Token dw aw)} : isAct t = true ↔ ∃ x b y, t = some (.act x b y) := by
  rcases t with _ | ⟨x, b, y⟩ | x <;> simp

theorem isWt_iff {t : Option (Token dw aw)} : isWt t = true ↔ ∃ x, t = some (.wt x) := by
  rcases t with _ | ⟨x, b, y⟩ | x <;> simp

/-- Entering a stage does not turn a row into a weight beat or back. -/
theorem isAct_enter (s : Nat) (t : Option (Token dw aw)) :
    isAct (t.map (p.enter inp s)) = isAct t := by
  rcases t with _ | ⟨x, b, y⟩ | x <;> rfl

theorem isWt_enter (s : Nat) (t : Option (Token dw aw)) :
    isWt (t.map (p.enter inp s)) = isWt t := by
  rcases t with _ | ⟨x, b, y⟩ | x <;> rfl

@[simp] theorem stage_empty (shadow active : Nat → Nat → BitVec dw) (s : Nat) :
    (empty n aw shadow active).stage s = none := by
  rw [stage, empty, List.getD_eq_getElem?_getD, List.getElem?_replicate]
  split <;> rfl

@[simp] theorem incoming_zero : p.incoming inp 0 = beat inp := rfl

@[simp] theorem incoming_succ (s : Nat) : p.incoming inp (s + 1) = p.stage s := rfl

theorem freeAt_last : p.freeAt inp (2 * n - 1) = p.out inp := by
  rw [freeAt, ← p.length_stages, Elastic.freeAt_length]

theorem freeAt_of_lt {s : Nat} (hs : s < 2 * n - 1) :
    p.freeAt inp s = ((p.stage s).isNone || p.freeAt inp (s + 1)) :=
  Elastic.freeAt_of_lt (by rw [p.length_stages]; exact hs)

/-- Readiness only spreads upstream. -/
theorem freeAt_of_le {s t : Nat} (hst : s ≤ t) (ht : t ≤ 2 * n - 1) (h : p.freeAt inp t = true) :
    p.freeAt inp s = true :=
  Elastic.freeAt_of_le hst (by rw [p.length_stages]; exact ht) h

theorem freeAt_of_isNone {s : Nat} (hs : s < 2 * n - 1) (h : p.stage s = none) :
    p.freeAt inp s = true := by
  rw [freeAt_of_lt p inp hs, h]
  rfl

theorem freeAt_of_some {s : Nat} {t : Token dw aw} (hs : s < 2 * n - 1) (h : p.stage s = some t) :
    p.freeAt inp s = p.freeAt inp (s + 1) := by
  rw [freeAt_of_lt p inp hs, h]
  rfl

theorem step_stages :
    (p.step inp).stages = Elastic.advance (p.enter inp) (p.out inp) (beat inp) p.stages := rfl

/-- A free stage takes what stands before it, every other stage keeps its token. -/
theorem stage_step {s : Nat} (hs : s < 2 * n - 1) :
    (p.step inp).stage s =
      if p.freeAt inp s then (p.incoming inp s).map (p.enter inp s) else p.stage s :=
  Elastic.getD_advance _ _ _ _ (by rw [p.length_stages]; exact hs)

theorem isAct_stage_step {s : Nat} (hs : s < 2 * n - 1) :
    isAct ((p.step inp).stage s) =
      if p.freeAt inp s then isAct (p.incoming inp s) else isAct (p.stage s) := by
  rw [stage_step p inp hs]
  split
  · exact isAct_enter p inp s _
  · rfl

theorem isWt_stage_step {s : Nat} (hs : s < 2 * n - 1) :
    isWt ((p.step inp).stage s) =
      if p.freeAt inp s then isWt (p.incoming inp s) else isWt (p.stage s) := by
  rw [stage_step p inp hs]
  split
  · exact isWt_enter p inp s _
  · rfl

/-! ## the last columns -/

/-- No weight beat overruns a row in stage `s` or later. -/
def ClearFrom (s : Nat) : Prop :=
  ∀ t, s ≤ t → n - 1 ≤ t → t < 2 * n - 1 → p.overrunAt inp t = false

theorem clearFrom_zero : p.ClearFrom inp 0 ↔ ¬ p.Overruns inp := by
  simp only [ClearFrom, Overruns, not_exists, not_and, Bool.not_eq_true]
  exact ⟨fun h s => h s (Nat.zero_le s), fun h s _ => h s⟩

variable {p inp}

theorem ClearFrom.mono {s t : Nat} (h : p.ClearFrom inp s) (hst : s ≤ t) : p.ClearFrom inp t :=
  fun u hu => h u (hst.trans hu)

/-- From stage `n - 1` on a weight beat always moves, unless it or one ahead of it
overruns a row. -/
theorem free_of_wt {s : Nat} {x : Nat → BitVec dw} (hclear : p.ClearFrom inp (s + 1))
    (hn : n - 1 ≤ s) (hs : s < 2 * n - 1) (h : p.stage s = some (.wt x)) :
    p.freeAt inp (s + 1) = true := by
  obtain ⟨d, hd⟩ : ∃ d, 2 * n - 2 - s = d := ⟨_, rfl⟩
  induction d generalizing s x with
  | zero =>
      have hlast : s + 1 = 2 * n - 1 := by omega
      have hs2 : 2 * n - 2 = s := by omega
      rw [hlast, freeAt_last, out, hs2, h]
      rfl
  | succ d ih =>
      have hlt : s + 1 < 2 * n - 1 := by omega
      rcases hstage : p.stage (s + 1) with _ | ⟨x', b', y'⟩ | x'
      · exact freeAt_of_isNone p inp hlt hstage
      · have hover := hclear (s + 1) le_rfl (by omega) hlt
        rw [overrunAt, hstage, incoming_succ, h] at hover
        rw [freeAt_of_some p inp hlt hstage]
        simpa using hover
      · rw [freeAt_of_some p inp hlt hstage]
        exact ih (hclear.mono (Nat.le_succ _)) (by omega) hlt hstage (by omega)

/-- From stage `n - 1` on only a row can be held up. -/
theorem freeAt_eq_of_last {s : Nat} (hclear : p.ClearFrom inp (s + 1)) (hn : n - 1 ≤ s)
    (hs : s < 2 * n - 1) :
    p.freeAt inp s = !(isAct (p.stage s) && !p.freeAt inp (s + 1)) := by
  rcases hstage : p.stage s with _ | ⟨x, b, y⟩ | x
  · simp [freeAt_of_isNone p inp hs hstage]
  · simp [freeAt_of_some p inp hs hstage]
  · simp [freeAt_of_some p inp hs hstage, free_of_wt hclear hn hs hstage]

/-- From stage `n - 1` on a weight beat finds the next stage free. -/
theorem freeAt_of_incoming_wt {s : Nat} (hclear : p.ClearFrom inp s) (hn : n - 1 ≤ s)
    (hs : s < 2 * n - 1) (hin : isWt (p.incoming inp s) = true) : p.freeAt inp s = true := by
  have hover := hclear s le_rfl hn hs
  rw [overrunAt, hin, Bool.and_true] at hover
  rw [freeAt_eq_of_last (hclear.mono (Nat.le_succ _)) hn hs, hover]
  rfl

end RowPipe

end Npu
