import Npu.RowPipe

/-!
# Npu.CoreRefines

The systolic core refines the row pipeline: `Refines c p` ties every register of the
core to the token in the stage of its anti-diagonal, and one clock edge keeps the
tie as long as no weight beat overruns a row (`Refines.step`).

The proof goes against the data flow.  From the output end backwards, every
stall and ready wire of a cell is read off the pipeline (`stallX_eq`, `stallY_eq`,
`cellFires`); what the cell then captures is what the stage takes (`cell_step`).

The one exception to the lock step is the x output of the last column: the right
edge takes it whether or not the row moves.
-/

namespace Npu

open Token

/-! ## registers and tokens -/

/-- A valid bit, a load bit and lane `i` of a pipeline against a token. -/
def XAgrees (valid lw : Bool) (x : BitVec dw) (i : Nat) : Option (Token dw aw) → Prop
  | none => valid = false
  | some (.act x' _ _) => valid = true ∧ lw = false ∧ x = x' i
  | some (.wt x') => valid = true ∧ lw = true ∧ x = x' i

/-- A valid bit and a partial sum of column `j` against a token. -/
def YAgrees (valid : Bool) (y : BitVec aw) (j : Nat) : Option (Token dw aw) → Prop
  | some (.act _ _ y') => valid = true ∧ y = y' j
  | _ => valid = false

/-- The registers of the core hold the tokens of the pipeline, each on its own
anti-diagonal. -/
structure Refines (c : SystolicCore n dw aw) (p : RowPipe n dw aw) : Prop where
  skew : ∀ {i s}, i < n → s < i →
    XAgrees (c.skewReg i s).vReg (c.skewReg i s).lwReg (c.skewReg i s).xReg i (p.stage s)
  /-- The right edge may have taken the x output of a row in the last column. -/
  cellX : ∀ {i j}, i < n → j < n → (isAct (p.stage (i + j)) = true → j + 1 < n) →
    XAgrees (c.pe i j).validOutX (c.pe i j).weightShiftOut (c.pe i j).xOut i (p.stage (i + j))
  cellY : ∀ {i j}, i < n → j < n →
    YAgrees (c.pe i j).validOutY (c.pe i j).yOut j (p.stage (i + j))
  deskew : ∀ {j k}, j < n → k < n - 1 - j →
    YAgrees (c.deskewReg j k).vReg (c.deskewReg j k).yReg j (p.stage (n + j + k))
  shadow : ∀ {i j}, i < n → j < n → (c.pe i j).shadowWeightReg = p.shadow i j
  active : ∀ {i j}, i < n → j < n → (c.pe i j).activeWeightReg = p.active i j

/-- Every lane of a beat carries the same load bit. -/
def SystolicCore.In.Uniform (n : Nat) (inp : SystolicCore.In dw aw) : Prop :=
  inp.validIn = true → ∀ i, i < n → inp.loadWeightIn i = inp.loadWeightIn 0

namespace XAgrees

variable {valid lw : Bool} {x : BitVec dw} {i : Nat} {t : Option (Token dw aw)}

theorem valid_eq (h : XAgrees valid lw x i t) : valid = t.isSome := by
  rcases t with _ | ⟨x', b, y⟩ | x'
  · exact h
  · exact h.1
  · exact h.1

theorem load_eq (h : XAgrees valid lw x i t) : (valid && lw) = isWt t := by
  rcases t with _ | ⟨x', b, y⟩ | x'
  · rw [show valid = false from h]; rfl
  · rw [h.1, h.2.1]; rfl
  · rw [h.1, h.2.1]; rfl

theorem calc_eq (h : XAgrees valid lw x i t) : (valid && !lw) = isAct t := by
  rcases t with _ | ⟨x', b, y⟩ | x'
  · rw [show valid = false from h]; rfl
  · rw [h.1, h.2.1]; rfl
  · rw [h.1, h.2.1]; rfl

end XAgrees

theorem YAgrees.valid_eq {valid : Bool} {y : BitVec aw} {j : Nat} {t : Option (Token dw aw)}
    (h : YAgrees valid y j t) : valid = isAct t := by
  rcases t with _ | ⟨x', b, y⟩ | x'
  · exact h
  · exact h.1
  · exact h

theorem YAgrees.of_not_act {y : BitVec aw} {j : Nat} {t : Option (Token dw aw)}
    (h : isAct t = false) : YAgrees false y j t := by
  rcases t with _ | ⟨x', b, y⟩ | x'
  · exact rfl
  · cases h
  · exact rfl

theorem isSome_eq (t : Option (Token dw aw)) : t.isSome = (isWt t || isAct t) := by
  rcases t with _ | ⟨x', b, y⟩ | x' <;> rfl

namespace Refines

variable {c : SystolicCore n dw aw} {p : RowPipe n dw aw} {inp : SystolicCore.In dw aw}

/-! ## wires that run with the data -/

theorem beat_agrees (hu : inp.Uniform n) {i : Nat} (hi : i < n) :
    XAgrees inp.validIn (inp.loadWeightIn i) (inp.xIn i) i (RowPipe.beat inp) := by
  unfold RowPipe.beat
  cases hv : inp.validIn with
  | false => exact rfl
  | true =>
      rw [hu hv i hi]
      cases hl : inp.loadWeightIn 0 <;> simp [XAgrees]

/-- Pipe stage `s` of row `i` carries what stands before stage `s`. -/
theorem pipe_agrees (h : Refines c p) (hu : inp.Uniform n) {i s : Nat} (hi : i < n) (hs : s ≤ i) :
    XAgrees (c.validPipe inp i s) (c.lwPipe inp i s) (c.xPipe inp i s) i (p.incoming inp s) := by
  cases s with
  | zero => exact beat_agrees hu hi
  | succ s => exact h.skew hi (by omega)

/-- The x wires into cell `(i, j)` carry what stands before its stage. -/
theorem wireX_agrees (h : Refines c p) (hu : inp.Uniform n) {i j : Nat} (hi : i < n) (hj : j < n) :
    XAgrees (c.pins inp i j).validInX (c.pins inp i j).weightShiftIn (c.pins inp i j).xIn i
      (p.incoming inp (i + j)) := by
  cases j with
  | zero => exact pipe_agrees h hu hi le_rfl
  | succ j => exact h.cellX hi (by omega) fun _ => hj

/-- The y wires into a cell below the top row carry what stands before its stage. -/
theorem wireY_agrees (h : Refines c p) (inp : SystolicCore.In dw aw) {i j : Nat} (hi : i + 1 < n) (hj : j < n) :
    YAgrees (c.pins inp (i + 1) j).validInY (c.pins inp (i + 1) j).yIn j
      (p.incoming inp (i + 1 + j)) := by
  rw [show i + 1 + j = i + j + 1 by omega]
  exact h.cellY (by omega) hj

/-- Deskew pipe `k` of column `j` carries what stands before stage `n + j + k`. -/
theorem yPipe_agrees (h : Refines c p) (inp : SystolicCore.In dw aw) {j k : Nat} (hj : j < n)
    (hk : k ≤ n - 1 - j) :
    YAgrees (c.yValidPipe j k) (c.yPipe inp j k) j (p.incoming inp (n + j + k)) := by
  cases k with
  | zero =>
      obtain ⟨m, rfl⟩ : ∃ m, n = m + 1 := ⟨n - 1, by omega⟩
      have hcell := h.cellY (i := m) (by omega) hj
      rw [show m + 1 + j + 0 = m + j + 1 by omega]
      exact hcell
  | succ k => exact h.deskew hj (by omega)

theorem colValidOut_eq (h : Refines c p) {j : Nat} (hj : j < n) :
    c.colValidOut j = p.validOut := by
  have hpipe := (yPipe_agrees h ⟨fun _ => false, false, fun _ => 0, fun _ => 0, false, false⟩ hj
    le_rfl).valid_eq
  have hs : n + j + (n - 1 - j) = 2 * n - 2 + 1 := by omega
  rw [hs] at hpipe
  exact hpipe

/-- The core offers a row exactly when the last stage holds one. -/
theorem validOut_eq (h : Refines c p) (hn : 0 < n) : c.validOut = p.validOut := by
  rw [Bool.eq_iff_iff, SystolicCore.validOut_iff]
  constructor
  · intro hall
    rw [← colValidOut_eq h hn]
    exact hall 0 hn
  · intro hv j hj
    rw [colValidOut_eq h hj, hv]

/-! ## wires that run against the data -/

theorem yReadyPipe_eq (h : Refines c p) {j k : Nat} (hj : j < n) (hk : k ≤ n - 1 - j)
    (hclear : p.ClearFrom inp (n + j + k + 1)) :
    c.yReadyPipe inp j k = p.freeAt inp (n + j + k) := by
  obtain ⟨d, hd⟩ : ∃ d, n - 1 - j - k = d := ⟨_, rfl⟩
  induction d generalizing k with
  | zero =>
      have hk' : k = n - 1 - j := by omega
      subst hk'
      have hs : n + j + (n - 1 - j) = 2 * n - 1 := by omega
      rw [SystolicCore.yReadyPipe_last, colValidOut_eq h hj, validOut_eq h (by omega), hs,
        p.freeAt_last, RowPipe.out, RowPipe.validOut]
      cases isAct (p.stage (2 * n - 2)) <;> simp
  | succ d ih =>
      have hlt : n + j + k < 2 * n - 1 := by omega
      have hreg := h.deskew hj (k := k) (by omega)
      rw [SystolicCore.yReadyPipe_of_lt _ _ (by omega), hreg.valid_eq,
        ih (by omega) (hclear.mono (by omega)) (by omega), show n + j + (k + 1) = n + j + k + 1 by omega]
      rcases hstage : p.stage (n + j + k) with _ | ⟨x, b, y⟩ | x
      · simp [p.freeAt_of_isNone inp hlt hstage]
      · simp [p.freeAt_of_some inp hlt hstage]
      · have hfree := RowPipe.free_of_wt hclear (by omega) hlt hstage
        simp [p.freeAt_of_some inp hlt hstage, hfree]

/-- What one cell shows to its left and upper neighbours. -/
structure CellFires (c : SystolicCore n dw aw) (p : RowPipe n dw aw) (inp : SystolicCore.In dw aw)
    (i j : Nat) : Prop where
  load : (c.pe i j).fireLoad (c.pins inp i j) =
    (isWt (p.incoming inp (i + j)) && p.freeAt inp (i + j))
  mac : (c.pe i j).fireCalc (c.pins inp i j) =
    (isAct (p.incoming inp (i + j)) && p.freeAt inp (i + j))

theorem CellFires.fire {i j : Nat} (h : CellFires c p inp i j) :
    (c.pe i j).fire (c.pins inp i j) =
      ((p.incoming inp (i + j)).isSome && p.freeAt inp (i + j)) := by
  rw [MacPe.fire, h.load, h.mac, isSome_eq, Bool.and_or_distrib_right]

theorem readyInX_eq {i j : Nat} (hi : i < n) (hj : j + 1 < n) (hr : CellFires c p inp i (j + 1)) :
    (c.pins inp i j).readyInX = ((p.stage (i + j)).isSome && p.freeAt inp (i + j + 1)) := by
  have hfire := hr.fire
  rw [show i + (j + 1) = i + j + 1 by omega, RowPipe.incoming_succ] at hfire
  rw [← hfire]
  exact SystolicArray.rWireX_eq _ _ hi hj

theorem readyInX_right {i j : Nat} (hj : j + 1 = n) : (c.pins inp i j).readyInX = true := by
  subst hj
  exact SystolicArray.rWireX_right _ _ i

/-- Below a cell that holds a row, ready means that the next stage is free. -/
theorem readyInY_eq (h : Refines c p) {i j : Nat} (hi : i < n) (hj : j < n)
    (hclear : p.ClearFrom inp (i + j + 1)) (hact : isAct (p.stage (i + j)) = true)
    (hb : i + 1 < n → CellFires c p inp (i + 1) j) :
    (c.pins inp i j).readyInY = p.freeAt inp (i + j + 1) := by
  rcases Nat.lt_or_ge (i + 1) n with hlt | hge
  · have hmac := (hb hlt).mac
    rw [show i + 1 + j = i + j + 1 by omega, RowPipe.incoming_succ, hact, Bool.true_and] at hmac
    rw [← hmac]
    exact SystolicArray.rWireY_eq _ _ hlt hj
  · obtain rfl : n = i + 1 := by omega
    have hbot : (c.pins inp i j).readyInY = c.yReadyPipe inp j 0 :=
      SystolicArray.rWireY_bottom _ _ j
    rw [hbot, yReadyPipe_eq h hj (Nat.zero_le _) (hclear.mono (by omega)),
      show i + 1 + j + 0 = i + j + 1 by omega]

theorem stallX_eq (h : Refines c p) {i j : Nat} (hi : i < n) (hj : j + 1 < n)
    (hr : CellFires c p inp i (j + 1)) :
    (c.pe i j).stallX (c.pins inp i j) = !p.freeAt inp (i + j) := by
  have hx := (h.cellX hi (by omega : j < n) fun _ => hj).valid_eq
  have hs : i + j < 2 * n - 1 := by omega
  rw [MacPe.stallX, hx, readyInX_eq hi hj hr]
  rcases hstage : p.stage (i + j) with _ | t
  · simp [p.freeAt_of_isNone inp hs hstage]
  · simp [p.freeAt_of_some inp hs hstage]

theorem stallX_right {i j : Nat} (hj : j + 1 = n) :
    (c.pe i j).stallX (c.pins inp i j) = false := by
  simp [MacPe.stallX, readyInX_right hj]

theorem stallY_eq (h : Refines c p) {i j : Nat} (hi : i < n) (hj : j < n)
    (hclear : p.ClearFrom inp (i + j + 1)) (hb : i + 1 < n → CellFires c p inp (i + 1) j) :
    (c.pe i j).stallY (c.pins inp i j) =
      (isAct (p.stage (i + j)) && !p.freeAt inp (i + j + 1)) := by
  rw [MacPe.stallY, (h.cellY hi hj).valid_eq]
  cases hact : isAct (p.stage (i + j)) with
  | false => simp
  | true => rw [readyInY_eq h hi hj hclear hact hb]

/-- A cell stalls on neither side iff its stage is free. -/
theorem no_stall_eq (h : Refines c p) {i j : Nat} (hi : i < n) (hj : j < n)
    (hclear : p.ClearFrom inp (i + j + 1)) (hr : j + 1 < n → CellFires c p inp i (j + 1))
    (hb : i + 1 < n → CellFires c p inp (i + 1) j) :
    (!(c.pe i j).stallX (c.pins inp i j) && !(c.pe i j).stallY (c.pins inp i j)) =
      p.freeAt inp (i + j) := by
  have hs : i + j < 2 * n - 1 := by omega
  rw [stallY_eq h hi hj hclear hb]
  rcases Nat.lt_or_ge (j + 1) n with hlt | hge
  · rw [stallX_eq h hi hlt (hr hlt), Bool.not_not]
    rcases hstage : p.stage (i + j) with _ | t
    · simp
    · cases hfree : p.freeAt inp (i + j + 1) <;> simp [p.freeAt_of_some inp hs hstage, hfree]
  · rw [stallX_right (by omega), RowPipe.freeAt_eq_of_last hclear (by omega) hs]
    rfl

/-- The partial sum a row needs is always there with it. -/
theorem validInY_of_act (h : Refines c p) {i j : Nat} (hi : i < n) (hj : j < n)
    (hact : isAct (p.incoming inp (i + j)) = true) : (c.pins inp i j).validInY = true := by
  cases i with
  | zero => rfl
  | succ i => rw [(wireY_agrees h inp hi hj).valid_eq, hact]

/-- **Firing of a cell**: it fires with what stands before its stage iff the stage is
free.  The induction runs from the bottom right cell backwards. -/
theorem cellFires (h : Refines c p) (hu : inp.Uniform n) {i j : Nat} (hi : i < n) (hj : j < n)
    (hclear : p.ClearFrom inp (i + j)) : CellFires c p inp i j := by
  obtain ⟨d, hd⟩ : ∃ d, 2 * n - 2 - (i + j) = d := ⟨_, rfl⟩
  induction d using Nat.strong_induction_on generalizing i j with
  | _ d ih =>
      have hr : j + 1 < n → CellFires c p inp i (j + 1) := fun hlt =>
        ih _ (by omega) hi hlt (hclear.mono (by omega)) rfl
      have hb : i + 1 < n → CellFires c p inp (i + 1) j := fun hlt =>
        ih _ (by omega) hlt hj (hclear.mono (by omega)) rfl
      have hx := wireX_agrees h hu hi hj
      have hstall := no_stall_eq h hi hj (hclear.mono (Nat.le_succ _)) hr hb
      constructor
      · rw [MacPe.fireLoad, hx.load_eq]
        rcases Nat.lt_or_ge (j + 1) n with hlt | hge
        · rw [stallX_eq h hi hlt (hr hlt), Bool.not_not]
        · rw [stallX_right (by omega)]
          cases hin : isWt (p.incoming inp (i + j)) with
          | false => rfl
          | true => rw [RowPipe.freeAt_of_incoming_wt hclear (by omega) (by omega) hin]; rfl
      · cases hact : isAct (p.incoming inp (i + j)) with
        | false =>
            rw [← hx.calc_eq] at hact
            rw [MacPe.fireCalc]
            grind
        | true =>
            have hy := validInY_of_act h hi hj hact
            rw [← hx.calc_eq] at hact
            rw [MacPe.fireCalc, hy, ← hstall]
            grind

/-! ## skew ready -/

/-- Stage `s` of a skew pipeline takes a beat iff the stage is free. -/
theorem readyPipe_eq (h : Refines c p) (hu : inp.Uniform n) {i s : Nat} (hi : i < n) (hs : s < i)
    (hclear : p.ClearFrom inp 0) : c.readyPipe inp i s = p.freeAt inp s := by
  obtain ⟨d, hd⟩ : ∃ d, i - s = d + 1 := ⟨i - s - 1, by omega⟩
  have hlt : s < 2 * n - 1 := by omega
  induction d generalizing s with
  | zero =>
      obtain rfl : i = s + 1 := by omega
      have hfire := (cellFires h hu hi (by omega : 0 < n) (hclear.mono (Nat.zero_le _))).fire
      have hready : c.array.readyOut (c.arrayIn inp) (s + 1) =
          (c.pe (s + 1) 0).fire (c.pins inp (s + 1) 0) :=
        SystolicArray.rWireX_eq _ _ hi (by omega)
      rw [SystolicCore.readyPipe_of_lt _ _ hs, SystolicCore.readyPipe_self, hready, hfire,
        (h.skew hi hs).valid_eq, Nat.add_zero, RowPipe.incoming_succ]
      rcases hstage : p.stage s with _ | t
      · simp [p.freeAt_of_isNone inp hlt hstage]
      · simp [p.freeAt_of_some inp hlt hstage]
  | succ d ih =>
      rw [SystolicCore.readyPipe_of_lt _ _ hs, ih (by omega) (by omega) (by omega),
        (h.skew hi hs).valid_eq]
      rcases hstage : p.stage s with _ | t
      · simp [p.freeAt_of_isNone inp hlt hstage]
      · simp [p.freeAt_of_some inp hlt hstage]

/-- At the array, a skew pipeline is ready only for a beat that is there. -/
theorem readyPipe_self_eq (h : Refines c p) (hu : inp.Uniform n) {i : Nat} (hi : i < n)
    (hclear : p.ClearFrom inp 0) :
    c.readyPipe inp i i = ((p.incoming inp i).isSome && p.freeAt inp i) := by
  have hfire := (cellFires h hu hi (by omega : 0 < n) (hclear.mono (Nat.zero_le _))).fire
  rw [Nat.add_zero] at hfire
  rw [SystolicCore.readyPipe_self, ← hfire]
  exact SystolicArray.rWireX_eq _ _ hi (by omega)

/-- Every row takes a presented beat, or none does. -/
theorem rowReadyOut_eq (h : Refines c p) (hu : inp.Uniform n) {i : Nat} (hi : i < n)
    (hclear : p.ClearFrom inp 0) (hv : inp.validIn = true) :
    c.rowReadyOut inp i = p.freeAt inp 0 := by
  rcases Nat.eq_zero_or_pos i with rfl | hpos
  · rw [SystolicCore.rowReadyOut, readyPipe_self_eq h hu hi hclear, RowPipe.incoming_zero,
      RowPipe.beat, if_pos hv]
    rfl
  · exact readyPipe_eq h hu hi hpos hclear

theorem readyOut_eq (h : Refines c p) (hn : 0 < n) (hu : inp.Uniform n)
    (hclear : p.ClearFrom inp 0) : c.readyOut inp = p.readyOut inp := by
  cases hv : inp.validIn with
  | false =>
      have hrow : c.rowReadyOut inp 0 = false := by
        rw [SystolicCore.rowReadyOut, readyPipe_self_eq h hu hn hclear, RowPipe.incoming_zero,
          RowPipe.beat, hv]
        rfl
      have hcore : ¬ c.readyOut inp = true := by
        rw [SystolicCore.readyOut_iff]
        intro hall
        simp [hall 0 hn] at hrow
      simp [RowPipe.readyOut, hv, hcore]
  | true =>
      rw [RowPipe.readyOut, hv, Bool.true_and, Bool.eq_iff_iff, SystolicCore.readyOut_iff]
      constructor
      · intro hall
        rw [← rowReadyOut_eq h hu hn hclear hv]
        exact hall 0 hn
      · intro hfree i hi
        rw [rowReadyOut_eq h hu hi hclear hv, hfree]

/-! ## one clock edge -/

theorem stage_step_of_free {s : Nat} (hs : s < 2 * n - 1) (hf : p.freeAt inp s = true) :
    (p.step inp).stage s = (p.incoming inp s).map (p.enter inp s) := by
  rw [p.stage_step inp hs, if_pos hf]

theorem stage_step_of_held {s : Nat} (hs : s < 2 * n - 1) (hf : p.freeAt inp s = false) :
    (p.step inp).stage s = p.stage s := by
  rw [p.stage_step inp hs, if_neg (by simp [hf])]

/-- Behind a skew register that holds a beat, ready means that its stage moves. -/
theorem readyPipe_succ_eq (h : Refines c p) (hu : inp.Uniform n) {i s : Nat} (hi : i < n)
    (hs : s < i) (hclear : p.ClearFrom inp 0) (hsome : (p.stage s).isSome = true) :
    c.readyPipe inp i (s + 1) = p.freeAt inp s := by
  obtain ⟨t, ht⟩ := Option.isSome_iff_exists.mp hsome
  rw [p.freeAt_of_some inp (by omega) ht]
  rcases Nat.lt_or_ge (s + 1) i with hlt | hge
  · exact readyPipe_eq h hu hi hlt hclear
  · obtain rfl : i = s + 1 := by omega
    rw [readyPipe_self_eq h hu hi hclear, RowPipe.incoming_succ, hsome, Bool.true_and]

theorem skew_step (h : Refines c p) (hu : inp.Uniform n) {i s : Nat} (hi : i < n) (hs : s < i)
    (hclear : p.ClearFrom inp 0) :
    XAgrees (c.skewStep inp i s).vReg (c.skewStep inp i s).lwReg (c.skewStep inp i s).xReg i
      ((p.step inp).stage s) := by
  have hlt : s < 2 * n - 1 := by omega
  have hin := pipe_agrees h hu hi (by omega : s ≤ i)
  have hreg := h.skew hi hs
  have hready := readyPipe_eq h hu hi hs hclear
  have hbehind := readyPipe_succ_eq h hu hi hs hclear
  cases hf : p.freeAt inp s with
  | true =>
      rw [stage_step_of_free hlt hf]
      rcases hinc : p.incoming inp s with _ | ⟨x, b, y⟩ | x
      · -- nothing follows: a beat that was here has moved on
        have hv : c.validPipe inp i s = false := by rw [hin.valid_eq, hinc]; rfl
        rw [SystolicCore.skewStep, hready, hv]
        rcases hstage : p.stage s with _ | t
        · have hempty : (c.skewReg i s).vReg = false := by rw [hreg.valid_eq, hstage]; rfl
          cases hb : c.readyPipe inp i (s + 1) <;> simp [XAgrees, hempty]
        · rw [hbehind (by rw [hstage]; rfl), hf]
          simp [XAgrees]
      · rw [hinc] at hin
        obtain ⟨hv, hl, hx⟩ := hin
        rw [SystolicCore.skewStep, hready, hv, hf]
        exact ⟨rfl, hl, hx⟩
      · rw [hinc] at hin
        obtain ⟨hv, hl, hx⟩ := hin
        rw [SystolicCore.skewStep, hready, hv, hf]
        refine ⟨rfl, hl, ?_⟩
        simp [hx, hs]
  | false =>
      rw [stage_step_of_held hlt hf]
      have hsome : (p.stage s).isSome = true := by
        rcases hstage : p.stage s with _ | t
        · rw [p.freeAt_of_isNone inp hlt hstage] at hf
          cases hf
        · rfl
      rw [SystolicCore.skewStep, hready, hbehind hsome, hf]
      exact hreg

theorem deskew_step (h : Refines c p) {j k : Nat} (hj : j < n) (hk : k < n - 1 - j)
    (hclear : p.ClearFrom inp 0) :
    YAgrees (c.deskewStep inp j k).vReg (c.deskewStep inp j k).yReg j
      ((p.step inp).stage (n + j + k)) := by
  have hlt : n + j + k < 2 * n - 1 := by omega
  have hin := yPipe_agrees h inp hj (by omega : k ≤ n - 1 - j)
  have hreg := h.deskew hj hk
  have hready := yReadyPipe_eq h hj (by omega : k ≤ n - 1 - j) (hclear.mono (Nat.zero_le _))
  have hbehind := yReadyPipe_eq h hj (by omega : k + 1 ≤ n - 1 - j) (hclear.mono (Nat.zero_le _))
  cases hact : isAct (p.incoming inp (n + j + k)) && p.freeAt inp (n + j + k) with
  | true =>
      rw [Bool.and_eq_true] at hact
      obtain ⟨x, b, y, hinc⟩ := RowPipe.isAct_iff.mp hact.1
      rw [hinc] at hin
      rw [SystolicCore.deskewStep, hready, hin.1, hact.2, stage_step_of_free hlt hact.2, hinc]
      refine ⟨rfl, ?_⟩
      have hout : ¬ n + j + k < j + n := by omega
      simp [hin.2, hout]
  | false =>
      have hnot : (c.yReadyPipe inp j k && c.yValidPipe j k) = false := by
        rw [hready, hin.valid_eq, Bool.and_comm, hact]
      rw [SystolicCore.deskewStep, hnot, hbehind]
      cases hf : p.freeAt inp (n + j + k) with
      | true =>
          have hnone : isAct ((p.step inp).stage (n + j + k)) = false := by
            rw [p.isAct_stage_step inp hlt, if_pos hf]
            simpa [hf] using hact
          have hv : (c.deskewReg j k).vReg = false ∨ p.freeAt inp (n + j + k + 1) = true := by
            rw [p.freeAt_of_lt inp hlt, Bool.or_eq_true] at hf
            refine hf.imp (fun hn => ?_) id
            rw [hreg.valid_eq, Option.isNone_iff_eq_none.mp hn]
            rfl
          have hnext : n + j + (k + 1) = n + j + k + 1 := by omega
          rcases hv with hv | hv
          · rw [hnext]
            cases p.freeAt inp (n + j + k + 1)
            · simpa [hv] using YAgrees.of_not_act hnone
            · exact YAgrees.of_not_act hnone
          · rw [hnext, hv]
            exact YAgrees.of_not_act hnone
      | false =>
          rw [stage_step_of_held hlt hf]
          have hheld : p.freeAt inp (n + j + (k + 1)) = false := by
            rw [p.freeAt_of_lt inp hlt, Bool.or_eq_false_iff] at hf
            exact hf.2
          rw [hheld]
          exact hreg

/-- A cell keeps its partial sum iff its stage holds a row that does not move. -/
theorem cell_stallY (h : Refines c p) (hu : inp.Uniform n) {i j : Nat} (hi : i < n) (hj : j < n)
    (hclear : p.ClearFrom inp 0) :
    (c.pe i j).stallY (c.pins inp i j) =
      (isAct (p.stage (i + j)) && !p.freeAt inp (i + j)) := by
  rw [stallY_eq h hi hj (hclear.mono (Nat.zero_le _))
    fun hlt => cellFires h hu hlt hj (hclear.mono (Nat.zero_le _))]
  rcases hstage : p.stage (i + j) with _ | t
  · rfl
  · rw [p.freeAt_of_some inp (by omega) hstage]

/-- A cell keeps its x output iff its stage does not move. -/
theorem cell_stallX (h : Refines c p) (hu : inp.Uniform n) {i j : Nat} (hi : i < n)
    (hj : j + 1 < n) (hclear : p.ClearFrom inp 0) :
    (c.pe i j).stallX (c.pins inp i j) = !p.freeAt inp (i + j) :=
  stallX_eq h hi hj (cellFires h hu hi hj (hclear.mono (Nat.zero_le _)))

/-- A cell that does not fire keeps exactly what its stage keeps. -/
theorem cellY_idle (h : Refines c p) (hu : inp.Uniform n) {i j : Nat} (hi : i < n) (hj : j < n)
    (hclear : p.ClearFrom inp 0)
    (hidle : p.freeAt inp (i + j) = true → p.incoming inp (i + j) = none) :
    YAgrees ((c.pe i j).stallY (c.pins inp i j)) (c.pe i j).yOut j ((p.step inp).stage (i + j)) := by
  have hlt : i + j < 2 * n - 1 := by omega
  rw [cell_stallY h hu hi hj hclear]
  cases hf : p.freeAt inp (i + j) with
  | true =>
      rw [stage_step_of_free hlt hf, hidle hf, Bool.not_true, Bool.and_false]
      exact rfl
  | false =>
      have hreg := h.cellY hi hj
      rw [stage_step_of_held hlt hf, Bool.not_false, Bool.and_true, ← hreg.valid_eq]
      exact hreg

theorem cellX_idle (h : Refines c p) (hu : inp.Uniform n) {i j : Nat} (hi : i < n) (hj : j < n)
    (hclear : p.ClearFrom inp 0)
    (hidle : p.freeAt inp (i + j) = true → p.incoming inp (i + j) = none)
    (hedge : isAct ((p.step inp).stage (i + j)) = true → j + 1 < n) :
    XAgrees ((c.pe i j).stallX (c.pins inp i j)) (c.pe i j).weightShiftOut (c.pe i j).xOut i
      ((p.step inp).stage (i + j)) := by
  have hlt : i + j < 2 * n - 1 := by omega
  cases hf : p.freeAt inp (i + j) with
  | true =>
      rw [stage_step_of_free hlt hf, hidle hf]
      rcases Nat.lt_or_ge (j + 1) n with hj1 | hj1
      · rw [cell_stallX h hu hi hj1 hclear, hf]
        exact rfl
      · rw [stallX_right (by omega)]
        exact rfl
  | false =>
      rw [stage_step_of_held hlt hf] at hedge ⊢
      -- in the last column only a row is held up, and there its x output is not asked for
      have hj1 : j + 1 < n := by
        by_contra hge
        have hfree := RowPipe.freeAt_eq_of_last (hclear.mono (Nat.zero_le (i + j + 1)))
          (by omega) hlt
        rw [hf, eq_comm, Bool.not_eq_false', Bool.and_eq_true] at hfree
        exact hge (hedge hfree.1)
      have hreg := h.cellX hi hj hedge
      have hvalid : (c.pe i j).validOutX = true := by
        rw [hreg.valid_eq]
        rcases hstage : p.stage (i + j) with _ | t
        · rw [p.freeAt_of_isNone inp hlt hstage] at hf
          cases hf
        · rfl
      rw [cell_stallX h hu hi hj1 hclear, hf, Bool.not_false, ← hvalid]
      exact hreg

/-- What the cell computes is what the row pipeline adds on entering the stage. -/
theorem addOut_eq (h : Refines c p) (hu : inp.Uniform n) {i j : Nat} (hi : i < n) (hj : j < n)
    {x : Nat → BitVec dw} {b y : Nat → BitVec aw}
    (hinc : p.incoming inp (i + j) = some (.act x b y)) :
    (c.pe i j).addOut (c.pins inp i j) =
      (if i + j = j then inp.yIn j else y j) + MacPe.multExt aw (x i) (p.active i j) := by
  have hx := wireX_agrees h hu hi hj
  rw [hinc] at hx
  rw [MacPe.addOut, hx.2.2, h.active hi hj]
  congr 1
  cases i with
  | zero =>
      rw [if_pos (Nat.zero_add j)]
      rfl
  | succ i =>
      have hy := wireY_agrees h inp hi hj
      rw [hinc] at hy
      rw [if_neg (by omega), hy.2]

theorem cell_step (h : Refines c p) (hu : inp.Uniform n) {i j : Nat} (hi : i < n) (hj : j < n)
    (hclear : p.ClearFrom inp 0) :
    YAgrees ((c.step inp).pe i j).validOutY ((c.step inp).pe i j).yOut j
        ((p.step inp).stage (i + j)) ∧
      ((isAct ((p.step inp).stage (i + j)) = true → j + 1 < n) →
        XAgrees ((c.step inp).pe i j).validOutX ((c.step inp).pe i j).weightShiftOut
          ((c.step inp).pe i j).xOut i ((p.step inp).stage (i + j))) := by
  have hlt : i + j < 2 * n - 1 := by omega
  have hfires := cellFires h hu hi hj (hclear.mono (Nat.zero_le _))
  have hx := wireX_agrees h hu hi hj
  rw [SystolicCore.pe_step _ _ hi hj]
  by_cases hidle : p.freeAt inp (i + j) = true → p.incoming inp (i + j) = none
  · have hno : (c.pe i j).fire (c.pins inp i j) = false := by
      rw [hfires.fire]
      cases hf : p.freeAt inp (i + j) with
      | true => rw [hidle hf]; rfl
      | false => rw [Bool.and_false]
    obtain ⟨-, hxo, hyo, hvx, hvy, hws⟩ := MacPe.step_of_idle _ _ hno
    rw [hxo, hyo, hvx, hvy, hws]
    exact ⟨cellY_idle h hu hi hj hclear hidle, cellX_idle h hu hi hj hclear hidle⟩
  · obtain ⟨hf, hne⟩ := Classical.not_imp.mp hidle
    rw [stage_step_of_free hlt hf]
    rcases hinc : p.incoming inp (i + j) with _ | ⟨x, b, y⟩ | x
    · exact absurd hinc hne
    · have hmac : (c.pe i j).fireCalc (c.pins inp i j) = true := by
        rw [hfires.mac, hinc, hf]; rfl
      rw [hinc] at hx
      obtain ⟨-, hxo, hyo, hvx, hvy, hws⟩ := MacPe.step_of_fireCalc _ _ hmac
      rw [hxo, hyo, hvx, hvy, hws]
      refine ⟨⟨rfl, ?_⟩, fun _ => ⟨rfl, rfl, hx.2.2⟩⟩
      rw [addOut_eq h hu hi hj hinc]
      simp [Nat.add_comm i j, hi]
    · have hload : (c.pe i j).fireLoad (c.pins inp i j) = true := by
        rw [hfires.load, hinc, hf]; rfl
      obtain ⟨-, hxo, hvx, hvy, hws⟩ := MacPe.step_of_fireLoad _ _ hload
      rw [hxo, hvx, hvy, hws]
      refine ⟨rfl, fun _ => ⟨rfl, rfl, ?_⟩⟩
      simp [h.shadow hi hj, hj]

theorem shadow_step (h : Refines c p) (hu : inp.Uniform n) {i j : Nat} (hi : i < n) (hj : j < n)
    (hclear : p.ClearFrom inp 0) :
    ((c.step inp).pe i j).shadowWeightReg = (p.step inp).shadow i j := by
  have hfires := cellFires h hu hi hj (hclear.mono (Nat.zero_le _))
  have hx := wireX_agrees h hu hi hj
  rw [SystolicCore.pe_step _ _ hi hj, MacPe.shadowWeightReg_step, hfires.load, h.shadow hi hj]
  simp only [RowPipe.step, RowPipe.loads]
  rcases hinc : p.incoming inp (i + j) with _ | ⟨x, b, y⟩ | x
  · simp
  · simp
  · rw [hinc] at hx
    cases hf : p.freeAt inp (i + j) with
    | true => simp [hx.2.2]
    | false => simp

theorem active_step (h : Refines c p) {i j : Nat} (hi : i < n) (hj : j < n) :
    ((c.step inp).pe i j).activeWeightReg = (p.step inp).active i j := by
  have hlatch : (c.pins inp i j).weightLatchEn = inp.weightLatchEn := rfl
  rw [SystolicCore.pe_step _ _ hi hj, MacPe.activeWeightReg_step, MacPe.nextActive, hlatch,
    h.shadow hi hj, h.active hi hj]
  rfl

/-- **Refinement, one edge**: as long as no weight beat overruns a row, the core moves
in lock step with the row pipeline. -/
theorem step (h : Refines c p) (hu : inp.Uniform n) (hno : ¬ p.Overruns inp) :
    Refines (c.step inp) (p.step inp) := by
  have hclear := (p.clearFrom_zero inp).mpr hno
  constructor
  · intro i s hi hs
    rw [SystolicCore.skewReg_step _ _ hi hs]
    exact skew_step h hu hi hs hclear
  · intro i j hi hj
    exact (cell_step h hu hi hj hclear).2
  · intro i j hi hj
    exact (cell_step h hu hi hj hclear).1
  · intro j k hj hk
    rw [SystolicCore.deskewReg_step _ _ hj hk]
    exact deskew_step h hj hk hclear
  · intro i j hi hj
    exact shadow_step h hu hi hj hclear
  · intro i j hi hj
    exact active_step h hi hj

end Refines

end Npu
