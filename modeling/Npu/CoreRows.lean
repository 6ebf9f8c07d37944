import Npu.CoreState
import Npu.RowSums

/-!
# Npu.CoreRows

Runs of the systolic core, seen at its ports: the beats it accepts and the rows
taken at its output.

The runs are carried by the row pipeline (`Refines.run`, `Refines.emits_acceptedRow`,
`Refines.emits_takenRow`).  There no row is lost, repeated or reordered
(`RowPipe.rows_step`), and each leaves as the sum it stands for.
-/

namespace Npu

open Token Machine

/-! ## what happens at the ports in one cycle -/

namespace SystolicCore

variable (c : SystolicCore n dw aw) (inp : SystolicCore.In dw aw)

/-- The beat accepted in this cycle, if it is an activation row. -/
def acceptedRow : List (In dw aw) :=
  if inp.validIn && c.readyOut inp && !inp.loadWeightIn 0 then [inp] else []

/-- The beat accepted in this cycle, if it is a weight beat. -/
def acceptedWeight : List (Nat → BitVec dw) :=
  if inp.validIn && c.readyOut inp && inp.loadWeightIn 0 then [inp.xIn] else []

/-- The row taken at the output in this cycle. -/
def takenRow : List (Fin n → BitVec aw) :=
  if c.validOut && inp.readyIn then [fun j => c.yOut inp j] else []

/-- The initial sum that the top cell of column `j` consumes in this cycle. -/
def topSample (j : Nat) : List (BitVec aw) :=
  if (c.pe 0 j).fireCalc (c.pins inp 0 j) then [inp.yIn j] else []

end SystolicCore

namespace RowPipe

variable (p : RowPipe n dw aw) (inp : SystolicCore.In dw aw)

def acceptedRow : List (SystolicCore.In dw aw) :=
  if inp.validIn && p.freeAt inp 0 && !inp.loadWeightIn 0 then [inp] else []

def acceptedWeight : List (Nat → BitVec dw) :=
  if inp.validIn && p.freeAt inp 0 && inp.loadWeightIn 0 then [inp.xIn] else []

/-- The row that leaves in this cycle. -/
def leaving : Option (Token dw aw) :=
  if p.validOut && inp.readyIn then p.stage (2 * n - 2) else none

def takenRow : List (Fin n → BitVec aw) :=
  if p.validOut && inp.readyIn then [fun j => p.yOut j] else []

end RowPipe

/-- A row that leaves: its lanes and the initial sums it has met. -/
def Token.row? : Token dw aw → Option ((Nat → BitVec dw) × (Nat → BitVec aw))
  | .act x b _ => some (x, b)
  | .wt _ => none

/-- The lanes of an activation row. -/
def Token.lanes? : Token dw aw → Option (Nat → BitVec dw)
  | .act x _ _ => some x
  | .wt _ => none

/-- The activation rows inside, oldest first. -/
def RowPipe.rows (p : RowPipe n dw aw) : List (Nat → BitVec dw) :=
  (Elastic.tokens p.stages).filterMap lanes?

namespace RowPipe

variable {p : RowPipe n dw aw} {inp : SystolicCore.In dw aw}

theorem lanes?_enter (s : Nat) (t : Token dw aw) : lanes? (p.enter inp s t) = lanes? t := by
  cases t <;> rfl

/-- The accepted beat is what enters the first stage. -/
theorem accepted_lanes :
    (if Elastic.free (p.out inp) p.stages then beat inp else none).toList.filterMap lanes? =
      (p.acceptedRow inp).map (·.xIn) := by
  have hfree : Elastic.free (p.out inp) p.stages = p.freeAt inp 0 := rfl
  rw [hfree, acceptedRow, beat]
  cases p.freeAt inp 0 <;> cases inp.validIn <;> cases inp.loadWeightIn 0 <;>
    simp [lanes?, List.filterMap_cons]

/-- The row that leaves in this cycle, with the initial sums it has met. -/
def leavingRow (p : RowPipe n dw aw) (inp : SystolicCore.In dw aw) :
    List ((Nat → BitVec dw) × (Nat → BitVec aw)) :=
  (p.leaving inp).toList.filterMap row?

/-- Seen through a `key` of rows, what departs is the row that leaves. -/
theorem departing_key {key : Token dw aw → Option β} (hkey : ∀ x, key (.wt x) = none)
    (hn : 0 < n) :
    (Elastic.departing (p.out inp) (beat inp) p.stages).toList.filterMap key =
      (p.leaving inp).toList.filterMap key := by
  have hfinal : Elastic.final (beat inp) p.stages = p.stage (2 * n - 2) := by
    have hlen : p.stages.length = 2 * n - 2 + 1 := by rw [p.length_stages]; omega
    rw [Elastic.final, hlen]
    rfl
  rw [Elastic.departing, hfinal, leaving, validOut, out]
  rcases p.stage (2 * n - 2) with _ | ⟨x, b, y⟩ | x
  · simp
  · simp
  · simp [hkey]

/-- **Conservation of rows, one edge**: the rows inside and the one accepted are the
one leaving and the rows inside afterwards. -/
theorem rows_step (p : RowPipe n dw aw) (inp : SystolicCore.In dw aw) (hn : 0 < n) :
    p.rows ++ (p.acceptedRow inp).map (·.xIn) =
      (p.leaving inp).toList.filterMap lanes? ++ (p.step inp).rows := by
  have hcons := Elastic.tokens_advance lanes? (p.enter inp) (p.out inp) (beat inp) p.stages
    lanes?_enter
  rw [accepted_lanes, departing_key (fun _ => rfl) hn] at hcons
  exact hcons

theorem rows_empty (shadow active : Nat → Nat → BitVec dw) :
    (empty n aw shadow active).rows = [] := by
  simp [rows, empty]

/-- A stage that holds a row holds one of the rows inside. -/
theorem rows_pos_of_isAct {s : Nat} (hs : s < 2 * n - 1) (h : isAct (p.stage s) = true) :
    0 < p.rows.length := by
  obtain ⟨x, b, y, hst⟩ := isAct_iff.mp h
  have hlen := p.length_stages
  have hmem : some (.act x b y) ∈ p.stages := by
    rw [← hst, stage, List.getD_eq_getElem _ _ (by omega)]
    exact List.getElem_mem _
  have hrow : x ∈ p.rows :=
    List.mem_filterMap.mpr ⟨.act x b y, Elastic.mem_tokens.mpr hmem, rfl⟩
  exact List.length_pos_of_mem hrow

/-- A row that leaves shows its sum. -/
theorem takenRow_eq {W : Nat → Nat → BitVec dw} {b₀ : Nat → BitVec aw}
    (hsum : p.Holds (SumsTo n W)) (hbias : p.Holds (MetBias n b₀)) :
    p.takenRow inp =
      ((p.leaving inp).toList.filterMap lanes?).map (outRow n W b₀) := by
  rw [takenRow, leaving]
  cases hv : p.validOut with
  | false => rfl
  | true =>
      obtain ⟨x, b, y, hstage⟩ := isAct_iff.mp hv
      cases inp.readyIn with
      | false => rfl
      | true =>
          rw [hstage]
          simp only [Bool.and_self, if_true, Option.toList_some, lanes?]
          congr 1
          funext j
          have hlt : j.val ≤ 2 * n - 2 := by have := j.isLt; omega
          have hb := hbias.get (by have := j.isLt; omega) hstage j j.isLt hlt
          rw [yOut_eq_rowSum hsum hstage j.isLt, outRow, rowSum, rowSum, hb]

theorem length_takenRow : (p.takenRow inp).length = (p.leavingRow inp).length := by
  rw [takenRow, leavingRow, leaving]
  cases hv : p.validOut with
  | false => rfl
  | true =>
      obtain ⟨x, b, y, hstage⟩ := isAct_iff.mp hv
      cases inp.readyIn <;> simp [hstage, row?]

/-- The rows that have left and those inside are those accepted. -/
theorem lanes_run (hn : 0 < n) (hrows : p.rows = []) (is : List (SystolicCore.In dw aw)) :
    (emits RowPipe.step acceptedRow p is).map (·.xIn) =
      (emits RowPipe.step leavingRow p is).map (·.1) ++
        (Machine.run RowPipe.step p is).rows := by
  have hstep : ∀ (q : RowPipe n dw aw) (i : SystolicCore.In dw aw),
      q.rows ++ (q.acceptedRow i).map (·.xIn) =
        (q.leavingRow i).map (·.1) ++ (q.step i).rows := by
    intro q i
    have hleave : (q.leaving i).toList.filterMap lanes? = (q.leavingRow i).map (·.1) := by
      rw [leavingRow]
      rcases q.leaving i with _ | ⟨x, b, y⟩ | x <;> rfl
    rw [q.rows_step i hn, hleave]
  have hcons := emits_conserved hstep p is
  rw [hrows, List.nil_append, emits_map, emits_map] at hcons
  exact hcons

/-- As many rows are taken as leave. -/
theorem length_emits_takenRow (p : RowPipe n dw aw) (is : List (SystolicCore.In dw aw)) :
    (Machine.emits RowPipe.step takenRow p is).length =
      (Machine.emits RowPipe.step leavingRow p is).length := by
  induction is generalizing p with
  | nil => rfl
  | cons i is ih => simp [length_takenRow, ih]

end RowPipe

/-! ## the core along a run -/

namespace Refines

variable {c : SystolicCore n dw aw} {p : RowPipe n dw aw} {inp : SystolicCore.In dw aw}

/-- The cycles in which the refinement goes on. -/
def Lockstep (c : SystolicCore n dw aw) (inp : SystolicCore.In dw aw) : Prop :=
  inp.Uniform n ∧ ¬ c.Drops inp

theorem step_of_lockstep (h : Refines c p) (hl : Lockstep c inp) :
    Refines (c.step inp) (p.step inp) :=
  h.step hl.1 (h.not_overruns hl.1 hl.2)

theorem acceptedRow_eq (h : Refines c p) (hn : 0 < n) (hl : Lockstep c inp) :
    c.acceptedRow inp = p.acceptedRow inp := by
  have hclear := (p.clearFrom_zero inp).mpr (h.not_overruns hl.1 hl.2)
  rw [SystolicCore.acceptedRow, RowPipe.acceptedRow, h.readyOut_eq hn hl.1 hclear,
    RowPipe.readyOut]
  cases inp.validIn <;> rfl

theorem acceptedWeight_eq (h : Refines c p) (hn : 0 < n) (hl : Lockstep c inp) :
    c.acceptedWeight inp = p.acceptedWeight inp := by
  have hclear := (p.clearFrom_zero inp).mpr (h.not_overruns hl.1 hl.2)
  rw [SystolicCore.acceptedWeight, RowPipe.acceptedWeight, h.readyOut_eq hn hl.1 hclear,
    RowPipe.readyOut]
  cases inp.validIn <;> rfl

theorem takenRow_eq (h : Refines c p) (hn : 0 < n) : c.takenRow inp = p.takenRow inp := by
  rw [SystolicCore.takenRow, RowPipe.takenRow, h.validOut_eq hn]
  cases hv : p.validOut with
  | false => rfl
  | true =>
      have hrow : (fun j : Fin n => c.yOut inp j) = fun j : Fin n => p.yOut j :=
        funext fun j => h.yOut_eq j.isLt hv
      rw [hrow]

/-- **Refinement along a run.** -/
theorem run (h : Refines c p) {is : List (SystolicCore.In dw aw)}
    (hl : Machine.Always SystolicCore.step Lockstep c is) :
    Refines (Machine.run SystolicCore.step c is) (Machine.run RowPipe.step p is) :=
  Machine.run_sim (fun _ _ _ => step_of_lockstep) h hl

theorem emits_acceptedRow (h : Refines c p) (hn : 0 < n) {is : List (SystolicCore.In dw aw)}
    (hl : Machine.Always SystolicCore.step Lockstep c is) :
    Machine.emits SystolicCore.step SystolicCore.acceptedRow c is =
      Machine.emits RowPipe.step RowPipe.acceptedRow p is :=
  Machine.emits_sim (fun _ _ _ => step_of_lockstep) (fun _ _ _ h => acceptedRow_eq h hn) h hl

theorem emits_acceptedWeight (h : Refines c p) (hn : 0 < n) {is : List (SystolicCore.In dw aw)}
    (hl : Machine.Always SystolicCore.step Lockstep c is) :
    Machine.emits SystolicCore.step SystolicCore.acceptedWeight c is =
      Machine.emits RowPipe.step RowPipe.acceptedWeight p is :=
  Machine.emits_sim (fun _ _ _ => step_of_lockstep) (fun _ _ _ h => acceptedWeight_eq h hn) h hl

theorem emits_takenRow (h : Refines c p) (hn : 0 < n) {is : List (SystolicCore.In dw aw)}
    (hl : Machine.Always SystolicCore.step Lockstep c is) :
    Machine.emits SystolicCore.step SystolicCore.takenRow c is =
      Machine.emits RowPipe.step RowPipe.takenRow p is :=
  Machine.emits_sim (fun _ _ _ => step_of_lockstep) (fun _ _ _ h _ => takenRow_eq h hn) h hl

/-- Every accepted row is taken or inside. -/
theorem length_acceptedRow (h : Refines c p) (hn : 0 < n) (hrows : p.rows = [])
    {is : List (SystolicCore.In dw aw)}
    (hl : Machine.Always SystolicCore.step Lockstep c is) :
    (Machine.emits SystolicCore.step SystolicCore.acceptedRow c is).length =
      (Machine.emits SystolicCore.step SystolicCore.takenRow c is).length +
        (Machine.run RowPipe.step p is).rows.length := by
  have hlanes := congrArg List.length (RowPipe.lanes_run hn hrows is)
  rw [List.length_map, List.length_append, List.length_map] at hlanes
  rw [h.emits_acceptedRow hn hl, h.emits_takenRow hn hl, RowPipe.length_emits_takenRow, hlanes]

/-- A row that is not taken stays at the output. -/
theorem output_held (h : Refines c p) (hn : 0 < n) (hl : Lockstep c inp)
    (hv : c.validOut = true) (hr : inp.readyIn = false) :
    (c.step inp).validOut = true ∧
      ∀ j, j < n → ∀ inp', (c.step inp).yOut inp' j = c.yOut inp j := by
  have hstep := h.step_of_lockstep hl
  rw [h.validOut_eq hn] at hv
  obtain ⟨x, b, y, hstage⟩ := RowPipe.isAct_iff.mp hv
  have hlast : 2 * n - 2 + 1 = 2 * n - 1 := by omega
  have hheld : p.freeAt inp (2 * n - 2) = false := by
    rw [p.freeAt_of_some inp (by omega) hstage, hlast, p.freeAt_last, RowPipe.out, hstage, hr]
    rfl
  have hsame : (p.step inp).stage (2 * n - 2) = p.stage (2 * n - 2) :=
    stage_step_of_held (by omega) hheld
  have hv' : (p.step inp).validOut = true := by rw [RowPipe.validOut, hsame]; exact hv
  refine ⟨by rw [hstep.validOut_eq hn, hv'], fun j hj inp' => ?_⟩
  rw [hstep.yOut_eq hj hv', h.yOut_eq hj hv, RowPipe.yOut, RowPipe.yOut, hsame]

end Refines

end Npu
