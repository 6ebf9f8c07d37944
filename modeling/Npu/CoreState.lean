import Npu.CoreRefines

/-!
# Npu.CoreState

Predicates on the registers of the core, and what they are in the row pipeline:

* `Drained` — no valid bit is set anywhere;
* `HoldsRow` — some register holds a valid part of an activation row;
* `Drops` — some cell takes a weight while its own partial sum waits, the one branch
  of `mac_pe` that loses data.
-/

namespace Npu

open Token

namespace SystolicCore

variable (c : SystolicCore n dw aw) (inp : SystolicCore.In dw aw)

/-- No valid bit is set. -/
structure Drained : Prop where
  skew : ∀ {i s}, i < n → s < i → (c.skewReg i s).vReg = false
  cellX : ∀ {i j}, i < n → j < n → (c.pe i j).validOutX = false
  cellY : ∀ {i j}, i < n → j < n → (c.pe i j).validOutY = false
  deskew : ∀ {j k}, j < n → k < n - 1 - j → (c.deskewReg j k).vReg = false

/-- A valid part of an activation row is inside. -/
def HoldsRow : Prop :=
  (∃ i < n, ∃ s < i, (c.skewReg i s).vReg = true ∧ (c.skewReg i s).lwReg = false) ∨
  (∃ i < n, ∃ j < n, (c.pe i j).validOutX = true ∧ (c.pe i j).weightShiftOut = false) ∨
  (∃ i < n, ∃ j < n, (c.pe i j).validOutY = true) ∨
  (∃ j < n, ∃ k < n - 1 - j, (c.deskewReg j k).vReg = true)

/-- Some cell loads a weight over a partial sum that the cell below does not take. -/
def Drops : Prop :=
  ∃ i < n, ∃ j < n, (c.pe i j).fireLoad (c.pins inp i j) = true ∧
    (c.pe i j).stallY (c.pins inp i j) = true

instance : Decidable c.Drained :=
  decidable_of_iff ((∀ i < n, ∀ s < i, (c.skewReg i s).vReg = false) ∧
      (∀ i < n, ∀ j < n, (c.pe i j).validOutX = false) ∧
      (∀ i < n, ∀ j < n, (c.pe i j).validOutY = false) ∧
      ∀ j < n, ∀ k < n - 1 - j, (c.deskewReg j k).vReg = false)
    ⟨fun h => ⟨fun hi hs => h.1 _ hi _ hs, fun hi hj => h.2.1 _ hi _ hj,
        fun hi hj => h.2.2.1 _ hi _ hj, fun hj hk => h.2.2.2 _ hj _ hk⟩,
      fun h => ⟨fun _ hi _ => h.skew hi, fun _ hi _ => h.cellX hi, fun _ hi _ => h.cellY hi,
        fun _ hj _ => h.deskew hj⟩⟩

instance : Decidable c.HoldsRow := inferInstanceAs (Decidable (_ ∨ _ ∨ _ ∨ _))

instance : Decidable (c.Drops inp) := inferInstanceAs (Decidable (∃ i < n, _))

theorem drained_reset (n dw aw : Nat) : (reset n dw aw).Drained where
  skew hi hs := by rw [skewReg_reset hi hs]; rfl
  cellX hi hj := by rw [pe_reset hi hj]; rfl
  cellY hi hj := by rw [pe_reset hi hj]; rfl
  deskew hj hk := by rw [deskewReg_reset hj hk]; rfl

/-- The shadow weights of the cells. -/
def shadowWeights (i j : Nat) : BitVec dw := (c.pe i j).shadowWeightReg

/-- The active weights of the cells. -/
def activeWeights (i j : Nat) : BitVec dw := (c.pe i j).activeWeightReg

end SystolicCore

namespace Refines

variable {c : SystolicCore n dw aw} {p : RowPipe n dw aw} {inp : SystolicCore.In dw aw}

/-- A drained core is the empty pipeline over its weights. -/
theorem of_drained (h : c.Drained) :
    Refines c (RowPipe.empty n aw c.shadowWeights c.activeWeights) where
  skew hi hs := by rw [RowPipe.stage_empty]; exact h.skew hi hs
  cellX hi hj _ := by rw [RowPipe.stage_empty]; exact h.cellX hi hj
  cellY hi hj := by rw [RowPipe.stage_empty]; exact h.cellY hi hj
  deskew hj hk := by rw [RowPipe.stage_empty]; exact h.deskew hj hk
  shadow _ _ := rfl
  active _ _ := rfl

/-- After reset all weights are 0. -/
theorem reset (n dw aw : Nat) :
    Refines (SystolicCore.reset n dw aw) (RowPipe.empty n aw (fun _ _ => 0) (fun _ _ => 0)) :=
  have h := of_drained (SystolicCore.drained_reset n dw aw)
  { skew := h.skew
    cellX := h.cellX
    cellY := h.cellY
    deskew := h.deskew
    shadow := fun hi hj => by rw [SystolicCore.pe_reset hi hj]; rfl
    active := fun hi hj => by rw [SystolicCore.pe_reset hi hj]; rfl }

/-- Over an empty pipeline no valid bit is set. -/
theorem drained (h : Refines c p) (he : ∀ s, s < 2 * n - 1 → p.stage s = none) : c.Drained where
  skew {i s} hi hs := by rw [(h.skew hi hs).valid_eq, he s (by omega)]; rfl
  cellX {i j} hi hj := by
    have hs := he (i + j) (by omega)
    rw [(h.cellX hi hj (by simp [hs])).valid_eq, hs]
    rfl
  cellY {i j} hi hj := by rw [(h.cellY hi hj).valid_eq, he (i + j) (by omega)]; rfl
  deskew {j k} hj hk := by rw [(h.deskew hj hk).valid_eq, he (n + j + k) (by omega)]; rfl

/-- Every stage has a partial sum in the core. -/
theorem exists_cell {s : Nat} (hs : s < 2 * n - 1) :
    (∃ i j, i < n ∧ j < n ∧ i + j = s) := by
  rcases Nat.lt_or_ge s n with hlt | hge
  · exact ⟨s, 0, hlt, by omega, rfl⟩
  · exact ⟨n - 1, s - (n - 1), by omega, by omega, by omega⟩

theorem stage_of_drained (h : Refines c p) (hd : c.Drained) {s : Nat} (hs : s < 2 * n - 1) :
    p.stage s = none := by
  obtain ⟨i, j, hi, hj, rfl⟩ := exists_cell hs
  have hy := (h.cellY hi hj).valid_eq
  rw [hd.cellY hi hj] at hy
  have hx := (h.cellX hi hj (by simp [← hy])).valid_eq
  rw [hd.cellX hi hj] at hx
  simpa using hx.symm

/-- The core is drained exactly when the pipeline is empty. -/
theorem drained_iff (h : Refines c p) : c.Drained ↔ ∀ s, s < 2 * n - 1 → p.stage s = none :=
  ⟨fun hd _ hs => h.stage_of_drained hd hs, h.drained⟩

theorem holdsRow_iff (h : Refines c p) : c.HoldsRow ↔ p.HoldsRow := by
  constructor
  · rintro (⟨i, hi, s, hs, hv, hl⟩ | ⟨i, hi, j, hj, hv, hl⟩ | ⟨i, hi, j, hj, hv⟩ | ⟨j, hj, k, hk, hv⟩)
    · refine ⟨s, by omega, ?_⟩
      rw [← (h.skew hi hs).calc_eq, hv, hl]
      rfl
    · refine ⟨i + j, by omega, ?_⟩
      by_contra hact
      have hx := (h.cellX hi hj fun ha => absurd ha hact).calc_eq
      rw [hv, hl] at hx
      exact hact hx.symm
    · exact ⟨i + j, by omega, by rw [← (h.cellY hi hj).valid_eq, hv]⟩
    · exact ⟨n + j + k, by omega, by rw [← (h.deskew hj hk).valid_eq, hv]⟩
  · rintro ⟨s, hs, hact⟩
    obtain ⟨i, j, hi, hj, rfl⟩ := exists_cell hs
    exact .inr (.inr (.inl ⟨i, hi, j, hj, by rw [(h.cellY hi hj).valid_eq, hact]⟩))

/-! ## drops are overruns -/

/-- A core in lock step drops nothing. -/
theorem not_drops (h : Refines c p) (hu : inp.Uniform n) (hno : ¬ p.Overruns inp) :
    ¬ c.Drops inp := by
  have hclear := (p.clearFrom_zero inp).mpr hno
  rintro ⟨i, hi, j, hj, hload, hstall⟩
  rw [(cellFires h hu hi hj (hclear.mono (Nat.zero_le _))).load, Bool.and_eq_true] at hload
  rw [cell_stallY h hu hi hj hclear, hload.2, Bool.not_true, Bool.and_false] at hstall
  cases hstall

/-- At the last stage in which a weight beat overruns a row, the cell of the last
column drops its partial sum. -/
theorem drops_of_overrunAt (h : Refines c p) (hu : inp.Uniform n) {s : Nat} (hn : n - 1 ≤ s)
    (hs : s < 2 * n - 1) (hover : p.overrunAt inp s = true) (hclear : p.ClearFrom inp (s + 1)) :
    c.Drops inp := by
  obtain ⟨i, rfl⟩ : ∃ i, s = i + (n - 1) := ⟨s - (n - 1), by omega⟩
  have hi : i < n := by omega
  have hj : n - 1 < n := by omega
  simp only [RowPipe.overrunAt, Bool.and_eq_true, Bool.not_eq_true'] at hover
  refine ⟨i, hi, n - 1, hj, ?_, ?_⟩
  · rw [MacPe.fireLoad, (wireX_agrees h hu hi hj).load_eq, hover.2, stallX_right (by omega)]
    rfl
  · have hb : i + 1 < n → CellFires c p inp (i + 1) (n - 1) := fun hlt =>
      cellFires h hu hlt hj (hclear.mono (by omega))
    rw [stallY_eq h hi hj hclear hb, hover.1.1, hover.1.2]
    rfl

/-- A core that drops nothing has no overrun in its pipeline. -/
theorem not_overruns (h : Refines c p) (hu : inp.Uniform n) (hno : ¬ c.Drops inp) :
    ¬ p.Overruns inp := by
  rw [← p.clearFrom_zero inp]
  -- from the last stage backwards
  have hback : ∀ d s, 2 * n - 1 - s = d → p.ClearFrom inp s := by
    intro d
    induction d with
    | zero =>
        intro s hd t hst hn ht
        omega
    | succ d ih =>
        intro s hd t hst hn ht
        have hclear : p.ClearFrom inp (s + 1) := ih (s + 1) (by omega)
        rcases Nat.eq_or_lt_of_le hst with rfl | hlt
        · by_contra hover
          exact hno (h.drops_of_overrunAt hu hn ht (by simpa using hover) hclear)
        · exact hclear t hlt hn ht
  exact hback _ 0 rfl

/-- A row leaves the core with the partial sums of the last stage. -/
theorem yOut_eq (h : Refines c p) {j : Nat} (hj : j < n) (hv : p.validOut = true) :
    c.yOut inp j = p.yOut j := by
  have hy := yPipe_agrees h inp hj le_rfl
  have hs : n + j + (n - 1 - j) = 2 * n - 2 + 1 := by omega
  obtain ⟨x, b, y, hstage⟩ := RowPipe.isAct_iff.mp hv
  rw [hs, RowPipe.incoming_succ, hstage] at hy
  rw [SystolicCore.yOut, hy.2, RowPipe.yOut, hstage]

end Refines

end Npu
