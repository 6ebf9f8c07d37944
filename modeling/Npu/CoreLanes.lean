import Npu.ActTraffic
import Npu.Weights

/-!
# Npu.CoreLanes

The input of the core forks to `n` rows, each with a ready of its own, while the outside only
sees the AND of them.  With loading and computing apart no stall makes the rows disagree: a
beat is taken by all of them or by none (`captures_eq`), and an activation row is on all cells
of its anti-diagonal or on none (`InStep.holdsStage`).

Both are read off the row pipeline, where a row is one token.  Only the x outputs at the right
edge need an invariant of their own: they are flushed while their row still waits, but keep
its lane (`EdgeAgrees`).
-/

namespace Npu

open Token Machine

namespace SystolicCore

variable (c : SystolicCore n dw aw) (inp : SystolicCore.In dw aw)

/-- Row `i` takes the presented beat into its first register: that of its skew pipeline, or the
first cell of row 0, which has none. -/
def captures (i : Nat) : Bool :=
  if i = 0 then (c.pe 0 0).fire (c.pins inp 0 0) else c.readyPipe inp i 0 && c.validPipe inp i 0

/-- Some cell of anti-diagonal `s` holds a valid part of an activation row. -/
def HoldsPart (s : Nat) : Prop :=
  (∃ i, i < n ∧ s < i ∧ (c.skewReg i s).vReg = true ∧ (c.skewReg i s).lwReg = false) ∨
  (∃ i j, i < n ∧ j < n ∧ i + j = s ∧
    (c.pe i j).validOutX = true ∧ (c.pe i j).weightShiftOut = false) ∨
  (∃ i j, i < n ∧ j < n ∧ i + j = s ∧ (c.pe i j).validOutY = true) ∨
  (∃ j k, j < n ∧ k < n - 1 - j ∧ n + j + k = s ∧ (c.deskewReg j k).vReg = true)

/-- Every cell of anti-diagonal `s` holds its part of the row with the lanes `x` and the partial
sums `y`.  In the last column the x output may have been flushed. -/
structure HoldsStage (s : Nat) (x : Nat → BitVec dw) (y : Nat → BitVec aw) : Prop where
  skew : ∀ i, i < n → s < i →
    (c.skewReg i s).vReg = true ∧ (c.skewReg i s).lwReg = false ∧ (c.skewReg i s).xReg = x i
  cellX : ∀ i j, i < n → j < n → i + j = s →
    ((c.pe i j).validOutX = true ∨ j + 1 = n) ∧ (c.pe i j).weightShiftOut = false ∧
      (c.pe i j).xOut = x i
  cellY : ∀ i j, i < n → j < n → i + j = s →
    (c.pe i j).validOutY = true ∧ (c.pe i j).yOut = y j
  deskew : ∀ j k, j < n → k < n - 1 - j → n + j + k = s →
    (c.deskewReg j k).vReg = true ∧ (c.deskewReg j k).yReg = y j

end SystolicCore

theorem SystolicCore.HoldsPart.lt {c : SystolicCore n dw aw} {s : Nat} (h : c.HoldsPart s) :
    s < 2 * n - 1 := by
  rcases h with ⟨i, hi, hs, -⟩ | ⟨i, j, hi, hj, rfl, -⟩ | ⟨i, j, hi, hj, rfl, -⟩ |
    ⟨j, k, hj, hk, rfl, -⟩ <;> omega

/-! ## the rows ahead of a stage -/

namespace RowPipe

variable {p : RowPipe n dw aw}

/-- The activation rows in the stages behind stage `s`, oldest first. -/
def rowsAhead (p : RowPipe n dw aw) (s : Nat) : List (Nat → BitVec dw) :=
  (Elastic.tokens (p.stages.drop (s + 1))).filterMap lanes?

/-- A row inside comes right behind those ahead of it. -/
theorem rows_getElem_ahead {s : Nat} {x : Nat → BitVec dw} {b y : Nat → BitVec aw}
    (hs : s < 2 * n - 1) (hst : p.stage s = some (.act x b y)) :
    p.rows[(p.rowsAhead s).length]? = some x := by
  have hlt : s < p.stages.length := by rw [p.length_stages]; exact hs
  have hsplit : p.stages = p.stages.take s ++ some (.act x b y) :: p.stages.drop (s + 1) := by
    rw [stage, List.getD_eq_getElem _ _ hlt] at hst
    rw [← hst, ← List.drop_eq_getElem_cons hlt, List.take_append_drop]
  have hrows : p.rows =
      p.rowsAhead s ++ x :: (Elastic.tokens (p.stages.take s)).filterMap lanes? := by
    have htokens := congrArg (fun st => (Elastic.tokens st).filterMap lanes?) hsplit
    simp only [Elastic.tokens_append, Elastic.tokens_cons, List.filterMap_append] at htokens
    rw [rows, rowsAhead, htokens, List.append_assoc]
    rfl
  rw [hrows, List.getElem?_append_right le_rfl, Nat.sub_self]
  rfl

end RowPipe

/-! ## the right edge -/

/-- In the last column `x_out` keeps the lane of the row in its stage. -/
def EdgeAgrees (c : SystolicCore n dw aw) (p : RowPipe n dw aw) : Prop :=
  ∀ i j x b y, i < n → j + 1 = n → p.stage (i + j) = some (.act x b y) →
    (c.pe i j).weightShiftOut = false ∧ (c.pe i j).xOut = x i

namespace Refines

variable {c : SystolicCore n dw aw} {p : RowPipe n dw aw} {inp : SystolicCore.In dw aw}

theorem edgeAgrees_step (h : Refines c p) (he : EdgeAgrees c p) (hu : inp.Uniform n)
    (hclear : p.ClearFrom inp 0) : EdgeAgrees (c.step inp) (p.step inp) := by
  intro i j x b y hi hj hst
  have hjn : j < n := by omega
  have hlt : i + j < 2 * n - 1 := by omega
  have hfires := cellFires h hu hi hjn (hclear.mono (Nat.zero_le _))
  rw [SystolicCore.pe_step _ _ hi hjn]
  cases hf : p.freeAt inp (i + j) with
  | true =>
      -- the row has just entered the stage
      rw [stage_step_of_free hlt hf] at hst
      obtain ⟨t, hinc, ht⟩ := Option.map_eq_some_iff.mp hst
      rcases t with ⟨x', b', y'⟩ | x'
      · have hx := wireX_agrees h hu hi hjn
        rw [hinc] at hx
        have hmac : (c.pe i j).fireCalc (c.pins inp i j) = true := by
          rw [hfires.mac, hinc, hf]
          rfl
        obtain ⟨-, hxo, -, -, -, hws⟩ := MacPe.step_of_fireCalc _ _ hmac
        have hlane : x' = x := by
          simp only [RowPipe.enter, Token.act.injEq] at ht
          exact ht.1
        rw [hws, hxo, hx.2.2, hlane]
        exact ⟨rfl, rfl⟩
      · cases ht
  | false =>
      rw [stage_step_of_held hlt hf] at hst
      have hidle : (c.pe i j).fire (c.pins inp i j) = false := by
        rw [hfires.fire, hf, Bool.and_false]
      obtain ⟨-, hxo, -, -, -, hws⟩ := MacPe.step_of_idle _ _ hidle
      rw [hws, hxo]
      exact he i j x b y hi hj hst

/-- `Apart`, and the right edge keeps the lanes of the rows. -/
structure InStep (c : SystolicCore n dw aw) (p : RowPipe n dw aw) : Prop extends Apart c p where
  edge : EdgeAgrees c p

theorem inStep_reset (n dw aw : Nat) :
    InStep (SystolicCore.reset n dw aw)
      (RowPipe.empty n aw (fun _ _ => (0 : BitVec dw)) fun _ _ => 0) where
  refines := Refines.reset n dw aw
  ordered := (RowPipe.loaded_empty fun _ _ => 0).ordered
  edge i j x b y hi hj hst := by
    rw [RowPipe.stage_empty] at hst
    cases hst

theorem InStep.step (h : InStep c p) (ha : c.WeightsApart inp) :
    InStep (c.step inp) (p.step inp) where
  toApart := h.toApart.step ha
  edge := by
    have hl := h.refines.lockstep_of_apart h.ordered ha
    have hclear := (p.clearFrom_zero inp).mpr (h.refines.not_overruns hl.1 hl.2)
    exact h.refines.edgeAgrees_step h.edge ha.uniform hclear

/-! ## one stage, one row -/

theorem isAct_of_holdsPart (h : Refines c p) {s : Nat} (hpart : c.HoldsPart s) :
    isAct (p.stage s) = true := by
  rcases hpart with ⟨i, hi, hs, hv, hl⟩ | ⟨i, j, hi, hj, rfl, hv, hl⟩ | ⟨i, j, hi, hj, rfl, hv⟩ |
    ⟨j, k, hj, hk, rfl, hv⟩
  · rw [← (h.skew hi hs).calc_eq, hv, hl]
    rfl
  · by_contra hact
    have hx := (h.cellX hi hj fun ha => absurd ha hact).calc_eq
    rw [hv, hl] at hx
    exact hact hx.symm
  · rw [← (h.cellY hi hj).valid_eq, hv]
  · rw [← (h.deskew hj hk).valid_eq, hv]

/-- The row in stage `s` is on all cells of its anti-diagonal. -/
theorem InStep.holdsStage (h : InStep c p) {s : Nat} {x : Nat → BitVec dw}
    {b y : Nat → BitVec aw} (hst : p.stage s = some (.act x b y)) : c.HoldsStage s x y where
  skew i hi hs := by
    have hreg := h.refines.skew hi hs
    rw [hst] at hreg
    exact hreg
  cellX i j hi hj hij := by
    subst hij
    by_cases hedge : j + 1 = n
    · exact ⟨.inr hedge, h.edge i j x b y hi hedge hst⟩
    · have hreg := h.refines.cellX hi hj fun _ => by omega
      rw [hst] at hreg
      exact ⟨.inl hreg.1, hreg.2⟩
  cellY i j hi hj hij := by
    subst hij
    have hreg := h.refines.cellY hi hj
    rw [hst] at hreg
    exact hreg
  deskew j k hj hk hjk := by
    subst hjk
    have hreg := h.refines.deskew hj hk
    rw [hst] at hreg
    exact hreg

/-! ## all rows or none -/

/-- Every row shows the ready of the core and takes the beat iff the core does. -/
theorem captures_eq (h : Refines c p) (hn : 0 < n) (hu : inp.Uniform n)
    (hclear : p.ClearFrom inp 0) (hv : inp.validIn = true) {i : Nat} (hi : i < n) :
    c.rowReadyOut inp i = c.readyOut inp ∧ c.captures inp i = c.readyOut inp := by
  have hready : c.readyOut inp = p.freeAt inp 0 := by
    rw [h.readyOut_eq hn hu hclear, RowPipe.readyOut, hv, Bool.true_and]
  have hrow := h.rowReadyOut_eq hu hi hclear hv
  rw [hready]
  refine ⟨hrow, ?_⟩
  by_cases hzero : i = 0
  · subst hzero
    rw [SystolicCore.captures, if_pos rfl, ← hrow]
    exact (SystolicArray.rWireX_eq _ _ hi hn).symm
  · have hvalid : c.validPipe inp i 0 = true := hv
    rw [SystolicCore.captures, if_neg hzero, hvalid, Bool.and_true]
    exact hrow

/-- The row in stage `s` is the accepted one that follows those taken and those ahead. -/
theorem accepted_getElem_ahead (h : Refines c p) (hn : 0 < n) (hrows : p.rows = [])
    {is : List (SystolicCore.In dw aw)} (hl : Always SystolicCore.step Lockstep c is) {s : Nat}
    {x : Nat → BitVec dw} {b y : Nat → BitVec aw} (hs : s < 2 * n - 1)
    (hst : (Machine.run RowPipe.step p is).stage s = some (.act x b y)) :
    ((emits SystolicCore.step SystolicCore.acceptedRow c is).map (·.xIn))[
      (emits SystolicCore.step SystolicCore.takenRow c is).length +
        ((Machine.run RowPipe.step p is).rowsAhead s).length]? = some x := by
  have hlen : (emits SystolicCore.step SystolicCore.takenRow c is).length =
      ((emits RowPipe.step RowPipe.leavingRow p is).map (·.1)).length := by
    rw [h.emits_takenRow hn hl, RowPipe.length_emits_takenRow, List.length_map]
  rw [h.emits_acceptedRow hn hl, RowPipe.lanes_run hn hrows, hlen,
    List.getElem?_append_right (Nat.le_add_right _ _), Nat.add_sub_cancel_left]
  exact RowPipe.rows_getElem_ahead hs hst

end Refines

/-- **A beat is taken by all rows or by none**, in every state reached from reset by traffic
that keeps loading and computing apart:

* while a beat is presented all rows show the same ready, that of the core, and take the beat
  into their first registers iff the core accepts it;
* if some cell of an anti-diagonal holds a valid part of an activation row, then the row
  pipeline has a row in that stage, each of the cells holds its part of it, and it is the
  accepted row that follows those taken and those ahead of it. -/
theorem beats_taken_together (hn : 0 < n) {is : List (SystolicCore.In dw aw)}
    (his : Always SystolicCore.step SystolicCore.WeightsApart (SystolicCore.reset n dw aw) is) :
    let c := run SystolicCore.step (SystolicCore.reset n dw aw) is
    let p := run RowPipe.step (RowPipe.empty n aw (fun _ _ => (0 : BitVec dw)) fun _ _ => 0) is
    let accepted := emits SystolicCore.step SystolicCore.acceptedRow (.reset n dw aw) is
    let taken := emits SystolicCore.step SystolicCore.takenRow (.reset n dw aw) is
    (∀ inp, c.WeightsApart inp → inp.validIn = true → ∀ i, i < n →
      c.rowReadyOut inp i = c.readyOut inp ∧ c.captures inp i = c.readyOut inp) ∧
    ∀ s, c.HoldsPart s → ∃ x b y, p.stage s = some (.act x b y) ∧
      c.HoldsStage s x y ∧
      (accepted.map (·.xIn))[taken.length + (p.rowsAhead s).length]? = some x := by
  intro c p accepted taken
  have hreset := Refines.inStep_reset n dw aw
  have hin : Refines.InStep c p := Machine.run_sim (fun _ _ _ h ha => h.step ha) hreset his
  constructor
  · intro inp ha hv i hi
    have hl := hin.refines.lockstep_of_apart hin.ordered ha
    have hclear := (p.clearFrom_zero inp).mpr (hin.refines.not_overruns hl.1 hl.2)
    exact hin.refines.captures_eq hn ha.uniform hclear hv hi
  · intro s hpart
    obtain ⟨x, b, y, hst⟩ := RowPipe.isAct_iff.mp (hin.refines.isAct_of_holdsPart hpart)
    refine ⟨x, b, y, hst, hin.holdsStage hst, ?_⟩
    exact hreset.refines.accepted_getElem_ahead hn (RowPipe.rows_empty _ _)
      (hreset.always_lockstep his) hpart.lt hst

/-- A weight beat, three rows right behind it and a stalled output: the first row fills its
anti-diagonal, flushed at the right edge, and the fifth beat is taken by no row. -/
theorem beats_taken_together_two :
    let is := [SystolicCore.In.wt 32 [1, 2], .act [3, 4] [] false, .act [5, 6] [] false,
      .act [7, 8] [] false, .act [9, 9] [] false]
    let c := run SystolicCore.step (SystolicCore.reset 2 8 32) is
    let inp := SystolicCore.In.act [9, 9] [] false
    (c.captures inp 0 = false ∧ c.captures inp 1 = false) ∧ (c.pe 1 1).validOutX = false ∧
      ∃ x y, c.HoldsStage 2 x y ∧ x 1 = 4 := by
  intro is c inp
  have his : Always SystolicCore.step SystolicCore.WeightsApart (SystolicCore.reset 2 8 32) is := by
    decide +kernel
  have hpart : c.HoldsPart 2 :=
    .inr (.inr (.inl ⟨1, 1, by decide, by decide, rfl, by decide +kernel⟩))
  have hfull : c.readyOut inp = false := by decide +kernel
  obtain ⟨hrows, hstages⟩ := beats_taken_together (by decide) his
  have hlanes := hrows inp (by decide +kernel) rfl
  obtain ⟨x, b, y, -, hstage, -⟩ := hstages 2 hpart
  refine ⟨⟨?_, ?_⟩, by decide +kernel, x, y, hstage, ?_⟩
  · exact (hlanes 0 (by decide)).2.trans hfull
  · exact (hlanes 1 (by decide)).2.trans hfull
  · have hlane := (hstage.cellX 1 1 (by decide) (by decide) rfl).2.2
    have hout : (c.pe 1 1).xOut = 4 := by decide +kernel
    rw [← hlane, hout]

end Npu
