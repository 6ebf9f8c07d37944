import Npu.Lib.Machine
import Npu.MacPe

/-!
# Npu.MacPeResults

One cell on its own, with any traffic on its two input channels and any stalls on its two
output channels: what becomes of the partial sums it computes.

A sum is computed by a firing calculation, stands in `yOut` while `validOutY` is high, and is
delivered in the first such cycle with `readyInY`.  One step spoils this.  A weight load asks
the x side only, and clears `validOutY` while the y side may still wait (`kept_iff`).  The
runs without such a load are exactly those that deliver every sum once and in order
(`delivers_sums_iff`).
-/

namespace Npu

namespace MacPe

open Machine

variable (p : MacPe dw aw) (i : In dw aw)

/-- The partial sum computed in a cycle: the product is that of the signed operands. -/
def computed : List (BitVec aw) :=
  if p.readyOutY i then
    [i.yIn + BitVec.ofInt aw (i.xIn.toInt * p.activeWeightReg.toInt)]
  else []

/-- The partial sum that leaves on the y side in a cycle. -/
def delivered : List (BitVec aw) := if p.validOutY && i.readyInY then [p.yOut] else []

/-- The partial sum that stands in the cell. -/
def undelivered : List (BitVec aw) := if p.validOutY then [p.yOut] else []

/-! ## one edge -/

theorem stallY_iff : p.stallY i = true ↔ p.validOutY = true ∧ i.readyInY = false := by
  simp [stallY]

/-- A cell keeps its waiting partial sum unless it loads a weight over it. -/
theorem kept_iff :
    (p.stallY i = true → (p.step i).validOutY = true ∧ (p.step i).yOut = p.yOut) ↔
      ¬ (p.fireLoad i = true ∧ p.stallY i = true) := by
  cases hstall : p.stallY i with
  | false => simp
  | true =>
      cases hload : p.fireLoad i with
      | true => simp [p.step_of_fireLoad i hload]
      | false =>
          have hidle : p.fire i = false := by simp [fire, fireCalc, hload, hstall]
          simp [p.step_of_idle i hidle, hstall]

/-- A calculation fires only when the y side is free. -/
theorem stallY_of_fireCalc (h : p.fireCalc i = true) : p.stallY i = false := by
  simp only [fireCalc, Bool.and_eq_true, Bool.not_eq_true'] at h
  exact h.2

/-- The sum of a cycle is what the adder shows. -/
theorem computed_eq : p.computed i = if p.fireCalc i then [p.addOut i] else [] := by
  rw [computed, readyOutY, addOut, multExt_eq_ofInt]

/-- A free y side delivers what stands in the cell. -/
theorem delivered_of_not_stallY (h : p.stallY i = false) : p.delivered i = p.undelivered := by
  unfold stallY at h
  unfold delivered undelivered
  cases hv : p.validOutY <;> cases hr : i.readyInY <;> simp [hv, hr] at h ⊢

/-- A stalled y side delivers nothing. -/
theorem delivered_of_stallY (h : p.stallY i = true) : p.delivered i = [] := by
  have hready : i.readyInY = false := ((p.stallY_iff i).mp h).2
  simp [delivered, hready]

/-- **One edge**: the sum in the cell and the one computed are the one delivered and the sum
in the cell afterwards. -/
theorem undelivered_step (h : ¬ (p.fireLoad i = true ∧ p.stallY i = true)) :
    p.undelivered ++ p.computed i = p.delivered i ++ (p.step i).undelivered := by
  rw [computed_eq]
  cases hcalc : p.fireCalc i with
  | true =>
      obtain ⟨-, -, hy, -, hv, -⟩ := p.step_of_fireCalc i hcalc
      rw [p.delivered_of_not_stallY i (p.stallY_of_fireCalc i hcalc)]
      simp [undelivered, hy, hv]
  | false =>
      cases hstall : p.stallY i with
      | true =>
          obtain ⟨hv, hy⟩ := (p.kept_iff i).mpr h hstall
          have hvalid : p.validOutY = true := ((p.stallY_iff i).mp hstall).1
          rw [p.delivered_of_stallY i hstall]
          simp [undelivered, hv, hy, hvalid]
      | false =>
          -- neither a load nor an idle edge leaves a sum behind
          have hnext : (p.step i).validOutY = false := by
            cases hload : p.fireLoad i with
            | true => exact (p.step_of_fireLoad i hload).2.2.2.1
            | false =>
                have hidle : p.fire i = false := by simp [fire, hload, hcalc]
                rw [(p.step_of_idle i hidle).2.2.2.2.1, hstall]
          rw [p.delivered_of_not_stallY i hstall]
          simp [undelivered, hnext]

/-! ## runs -/

/-- The partial sums of a run: at every moment those delivered are the first of those computed,
in order, at most one is left over, and that one stands in the cell, valid and unchanged until
the y side takes it. -/
structure DeliversSums (p : MacPe dw aw) (is : List (In dw aw)) : Prop where
  in_order : ∀ as, as <+: is → emits step delivered p as <+: emits step computed p as
  at_most_one : ∀ as, as <+: is →
    (emits step computed p as).length ≤ (emits step delivered p as).length + 1
  waits : ∀ as v, as <+: is → emits step computed p as = emits step delivered p as ++ [v] →
    (run step p as).validOutY = true ∧ (run step p as).yOut = v
  kept : Always step (fun p i => p.validOutY = true → i.readyInY = false →
    (p.step i).validOutY = true ∧ (p.step i).yOut = p.yOut) p is

variable {p}

/-- **Conservation along a run** without a load over a waiting sum. -/
theorem undelivered_run {is : List (In dw aw)}
    (h : Always step (fun p i => ¬ (p.fireLoad i = true ∧ p.stallY i = true)) p is) :
    p.undelivered ++ emits step computed p is =
      emits step delivered p is ++ (run step p is).undelivered := by
  let Inv : MacPe dw aw → Prop := fun _ => True
  have hp : Inv p := trivial
  have hstep : ∀ (p : MacPe dw aw) (i : In dw aw), Inv p →
      ¬ (p.fireLoad i = true ∧ p.stallY i = true) → Inv (p.step i) := fun _ _ _ _ => trivial
  exact emits_lossless hstep (fun p i _ hi => p.undelivered_step i hi) hp h

/-- **A cell delivers its partial sums**, each once and in order, in exactly those runs from
reset in which it never loads a weight while a sum waits. -/
theorem delivers_sums_iff (is : List (In dw aw)) :
    DeliversSums (reset dw aw) is ↔
      Always step (fun p i => ¬ (p.fireLoad i = true ∧ p.stallY i = true)) (reset dw aw) is := by
  constructor
  · intro h
    refine h.kept.imp fun p i hkept => (p.kept_iff i).mp fun hstall => ?_
    obtain ⟨hv, hr⟩ := (p.stallY_iff i).mp hstall
    exact hkept hv hr
  · intro h
    have hruns : ∀ as, as <+: is → emits step computed (reset dw aw) as =
        emits step delivered (reset dw aw) as ++ (run step (reset dw aw) as).undelivered := by
      rintro as ⟨bs, rfl⟩
      exact undelivered_run (always_append.mp h).1
    constructor
    · intro as has
      rw [hruns as has]
      exact List.prefix_append _ _
    · intro as has
      have hone : (run step (reset dw aw) as).undelivered.length ≤ 1 := by
        unfold undelivered
        split <;> simp
      rw [hruns as has, List.length_append]
      omega
    · intro as v has hv
      rw [hruns as has, List.append_cancel_left_eq] at hv
      unfold undelivered at hv
      split at hv
      · next hvalid => exact ⟨hvalid, List.singleton_inj.mp hv⟩
      · simp at hv
    · refine h.imp fun p i hno hv hr => (p.kept_iff i).mpr hno ?_
      exact (p.stallY_iff i).mpr ⟨hv, hr⟩

/-- A weight beat while the sum 5 waits: 5 is never delivered, the sum 7 behind it is. -/
theorem load_loses_waiting_sum :
    let mac (y : BitVec 32) : In 8 32 :=
      { validInX := true, weightShiftIn := false, xIn := 0, readyInX := true, validInY := true,
        yIn := y, readyInY := true, weightLatchEn := false }
    let is := [mac 5, { mac 0 with weightShiftIn := true, readyInY := false }, mac 7, mac 9]
    emits step computed (reset 8 32) is = [5, 7, 9] ∧
      emits step delivered (reset 8 32) is = [7] ∧ ¬ DeliversSums (reset 8 32) is := by
  intro mac is
  have hcomputed : emits step computed (reset 8 32) is = [5, 7, 9] := by decide
  have hdelivered : emits step delivered (reset 8 32) is = [7] := by decide
  refine ⟨hcomputed, hdelivered, fun h => ?_⟩
  have hprefix := h.in_order is List.prefix_rfl
  rw [hcomputed, hdelivered] at hprefix
  exact absurd hprefix (by decide)

end MacPe

end Npu
