import Mathlib.Algebra.BigOperators.Intervals
import Npu.ActTraffic
import Npu.MacPeResults

/-!
# Npu.RowResults

Rows in flight, whatever comes behind them.  While the active weights stay `W` and the top
edge shows 0, the result of a row is determined in every stage: what it has collected and
the products still to come (`result`).  Moving does not change it (`result_enter`), so the
results inside and those of the accepted rows leave in order (`results_step`), with
weight beats between the rows or not.

In the cells the only step that can spoil this is a weight load over a partial sum that waits
(`keepsWaiting_iff`).
-/

namespace Npu

open Token Machine

/-- Column `j` of a row before stage `s`, with the products of `W` still to come. -/
def finalSum (n : Nat) (W : Nat → Nat → BitVec dw) (s : Nat) (x : Nat → BitVec dw)
    (y : Nat → BitVec aw) (j : Nat) : BitVec aw :=
  (if s ≤ j then 0 else y j) +
    BitVec.ofInt aw (∑ i ∈ Finset.Ico (s - j) n, (x i).toInt * (W i j).toInt)

/-- What the row before stage `s` will leave as. -/
def Token.result (n : Nat) (W : Nat → Nat → BitVec dw) (s : Nat) :
    Token dw aw → Option (Fin n → BitVec aw)
  | .act x _ y => some fun j => finalSum n W s x y j
  | .wt _ => none

/-- Before the first stage all products are to come. -/
theorem finalSum_zero (W : Nat → Nat → BitVec dw) (x : Nat → BitVec dw) (y : Nat → BitVec aw)
    (j : Nat) : finalSum n W 0 x y j = rowSum n W (fun _ => 0) x j := by
  rw [finalSum, rowSum, partialSum, if_pos (Nat.zero_le j), Nat.zero_sub, Finset.range_eq_Ico,
    BitVec.ofInt_add, BitVec.ofInt_toInt]

/-- Behind the last stage a column has collected all products. -/
theorem finalSum_last (W : Nat → Nat → BitVec dw) (x : Nat → BitVec dw) (y : Nat → BitVec aw)
    {s j : Nat} (hs : j + n ≤ s) (hn : 0 < n) : finalSum n W s x y j = y j := by
  rw [finalSum, if_neg (by omega), Finset.Ico_eq_empty (by omega), Finset.sum_empty]
  simp

/-- A cell adds the next one of the products to come. -/
theorem finalSum_succ (W : Nat → Nat → BitVec dw) (x : Nat → BitVec dw) (y y' : Nat → BitVec aw)
    {s j : Nat} (hlo : j ≤ s) (hhi : s < j + n)
    (hy : y' j = (if s ≤ j then 0 else y j) + MacPe.multExt aw (x (s - j)) (W (s - j) j)) :
    finalSum n W (s + 1) x y' j = finalSum n W s x y j := by
  have hk : s + 1 - j = s - j + 1 := by omega
  rw [finalSum, finalSum, if_neg (by omega), hy, hk,
    Finset.sum_eq_sum_Ico_succ_bot (by omega : s - j < n), BitVec.ofInt_add,
    MacPe.multExt_eq_ofInt, BitVec.add_assoc]

namespace RowPipe

variable {p : RowPipe n dw aw} {inp : SystolicCore.In dw aw} {W : Nat → Nat → BitVec dw}

/-- The results of the rows inside, oldest first. -/
def results (W : Nat → Nat → BitVec dw) (p : RowPipe n dw aw) : List (Fin n → BitVec aw) :=
  Elastic.tokensAt (result n W) p.stages

/-- Moving to the next stage does not change the result of a row. -/
theorem result_enter (hW : ∀ i j, i < n → j < n → p.active i j = W i j)
    (hshow : inp.Shows n fun _ => 0) (s : Nat) (t : Token dw aw) :
    result n W (s + 1) (p.enter inp s t) = result n W s t := by
  rcases t with ⟨x, b, y⟩ | x
  · simp only [enter, result, Option.some.injEq]
    funext j
    have hj := j.isLt
    have hy := hshow j hj
    by_cases hlo : j.val ≤ s
    · by_cases hhi : s < j.val + n
      · refine finalSum_succ W x y _ hlo hhi ?_
        rw [if_pos ⟨hlo, hhi⟩, hW _ _ (by omega) hj]
        by_cases hs : s = j.val
        · rw [if_pos hs, if_pos hs.le, hy]
        · rw [if_neg hs, if_neg (by omega : ¬ s ≤ j.val)]
      · rw [finalSum_last W x _ (by omega) (by omega), finalSum_last W x _ (by omega) (by omega),
          if_neg (by omega)]
    · -- the row has not reached the column
      have hs : s + 1 - j.val = s - j.val := by omega
      rw [finalSum, finalSum, if_pos (by omega), if_pos (by omega), hs]
  · rfl

/-- **Results, one edge**: those inside and that of the accepted row are the row taken and
those inside afterwards. -/
theorem results_step (hn : 0 < n) (hW : ∀ i j, i < n → j < n → p.active i j = W i j)
    (hshow : inp.Shows n fun _ => 0) :
    p.results W ++ (p.acceptedRow inp).map (fun i => outRow n W (fun _ => 0) i.xIn) =
      p.takenRow inp ++ (p.step inp).results W := by
  have hcons := Elastic.tokensAt_advance (result_enter hW hshow) (p.out inp) (beat inp) p.stages
  have haccept : (if Elastic.free (p.out inp) p.stages then beat inp else none).toList.filterMap
      (result n W 0) = (p.acceptedRow inp).map fun i => outRow n W (fun _ => 0) i.xIn := by
    have hfree : Elastic.free (p.out inp) p.stages = p.freeAt inp 0 := rfl
    have hzero : ∀ (x : Nat → BitVec dw) (y : Nat → BitVec aw),
        (fun j : Fin n => finalSum n W 0 x y j) = outRow n W (fun _ => 0) x :=
      fun x y => funext fun j => finalSum_zero W x y j
    rw [hfree, acceptedRow, beat]
    cases p.freeAt inp 0 <;> cases inp.validIn <;> cases inp.loadWeightIn 0 <;>
      simp [result, hzero, List.filterMap_cons]
  have htake : (Elastic.departing (p.out inp) (beat inp) p.stages).toList.filterMap
      (result n W p.stages.length) = p.takenRow inp := by
    rw [departing_key (fun _ => rfl) hn, leaving, takenRow, p.length_stages]
    cases hv : p.validOut with
    | false => rfl
    | true =>
        obtain ⟨x, b, y, hstage⟩ := isAct_iff.mp hv
        have hlast : (fun j : Fin n => finalSum n W (2 * n - 1) x y j) = fun j : Fin n => p.yOut j := by
          funext j
          rw [finalSum_last W x y (by have := j.isLt; omega) hn, yOut, hstage]
        cases inp.readyIn with
        | false => rfl
        | true => simp [hstage, result, hlast]
  rw [haccept, htake] at hcons
  exact hcons

theorem length_results : (p.results W).length = p.rows.length := by
  refine Elastic.length_tokensAt (fun s t => ?_) p.stages
  cases t <;> rfl

/-- **Results along a run** without a latch. -/
theorem results_run (hn : 0 < n) (hW : ∀ i j, i < n → j < n → p.active i j = W i j)
    {is : List (SystolicCore.In dw aw)}
    (his : ∀ i ∈ is, i.weightLatchEn = false ∧ i.Shows n fun _ => 0) :
    p.results W ++
        (emits RowPipe.step acceptedRow p is).map (fun i => outRow n W (fun _ => 0) i.xIn) =
      emits RowPipe.step takenRow p is ++ (Machine.run RowPipe.step p is).results W := by
  let Inv : RowPipe n dw aw → Prop := fun p => ∀ i j, i < n → j < n → p.active i j = W i j
  have hstep : ∀ (p : RowPipe n dw aw) (i : SystolicCore.In dw aw), Inv p →
      i.weightLatchEn = false ∧ i.Shows n (fun _ => 0) → Inv (p.step i) := by
    intro p i hp hi i' j' hi' hj'
    rw [RowPipe.step, hi.1]
    exact hp i' j' hi' hj'
  rw [← emits_map]
  exact emits_lossless hstep (fun _ _ hp hi => results_step hn hp hi.2) hW
    (always_of_forall_mem his)

end RowPipe

/-! ## results that wait -/

namespace SystolicCore

variable {c : SystolicCore n dw aw} {p : RowPipe n dw aw} {inp : SystolicCore.In dw aw}

/-- Every result that waits, at the output of a cell or of the core, is there unchanged in the
next cycle. -/
structure KeepsWaiting (c : SystolicCore n dw aw) (inp : In dw aw) : Prop where
  cell : ∀ i j, i < n → j < n → (c.pe i j).stallY (c.pins inp i j) = true →
    ((c.step inp).pe i j).validOutY = true ∧ ((c.step inp).pe i j).yOut = (c.pe i j).yOut
  out : c.validOut = true → inp.readyIn = false →
    (c.step inp).validOut = true ∧ ∀ j, j < n → ∀ inp', (c.step inp).yOut inp' j = c.yOut inp j

/-- In lock step with the pipeline, results that wait are kept iff no cell drops one. -/
theorem keepsWaiting_iff (h : Refines c p) (hn : 0 < n) (hu : inp.Uniform n) :
    c.KeepsWaiting inp ↔ ¬ c.Drops inp := by
  constructor
  · rintro hkeep ⟨i, hi, j, hj, hdrop⟩
    have hcell := hkeep.cell i j hi hj
    rw [pe_step c inp hi hj] at hcell
    exact (MacPe.kept_iff _ _).mp hcell hdrop
  · intro hno
    refine ⟨fun i j hi hj => ?_, h.output_held hn ⟨hu, hno⟩⟩
    rw [pe_step c inp hi hj]
    exact (MacPe.kept_iff _ _).mpr fun hdrop => hno ⟨i, hi, j, hj, hdrop⟩

end SystolicCore

end Npu
