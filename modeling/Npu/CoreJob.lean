import Npu.ActTraffic
import Npu.Weights

/-!
# Npu.CoreJob

One job of the core: from a drained state the beats of a matrix `W` are loaded, the pipeline
runs dry, the latch makes `W` active, and rows stream through.

Loading leaves an empty pipeline over `W` (`core_loaded`), and from there on every
row that leaves is `b + x * W` (`Settled.rows_run`).  Further latches change nothing, since the
shadow weights are `W` too.
-/

namespace Npu

open Token Machine

/-- Only weight beats are presented. -/
structure SystolicCore.In.LoadOnly (n : Nat) (inp : SystolicCore.In dw aw) : Prop where
  uniform : inp.Uniform n
  load : inp.validIn = true → inp.loadWeightIn 0 = true

theorem SystolicCore.In.LoadOnly.of_idle {inp : SystolicCore.In dw aw}
    (h : inp.validIn = false) : inp.LoadOnly n where
  uniform hv := by simp [h] at hv
  load hv := by simp [h] at hv

/-- Only activation rows are presented, over the initial sums `b`.  Latches are free. -/
structure SystolicCore.In.Streams (n : Nat) (b : Nat → BitVec aw) (inp : SystolicCore.In dw aw) :
    Prop where
  load : inp.NoLoad n
  shows : inp.Shows n b

namespace RowPipe

variable {p : RowPipe n dw aw} {inp : SystolicCore.In dw aw}
variable {W : Nat → Nat → BitVec dw} {b : Nat → BitVec aw}

/-! ## loading -/

/-- No activation row is inside. -/
def NoAct (p : RowPipe n dw aw) : Prop := ∀ s, s < 2 * n - 1 → isAct (p.stage s) = false

theorem NoAct.step (h : p.NoAct) (hin : inp.LoadOnly n) : (p.step inp).NoAct := by
  intro s hs
  rw [isAct_stage_step p inp hs]
  split
  · cases s with
    | zero =>
        rw [incoming_zero, beat]
        cases hv : inp.validIn with
        | false => rfl
        | true => simp [hin.load hv]
    | succ s => exact h s (by omega)
  · exact h s hs

theorem noAct_empty (shadow active : Nat → Nat → BitVec dw) :
    (empty n aw shadow active).NoAct := by
  intro s _
  simp

/-- Over any weights the empty pipeline is a shift chain of its own columns. -/
theorem exists_loaded_empty (shadow active : Nat → Nat → BitVec dw) :
    ∃ history, (empty n aw shadow active).Loaded history := by
  refine ⟨(List.range n).map fun j i => shadow i j, ⟨?_, ?_⟩, ?_⟩
  · intro i j hi hj
    have hnone : (empty n aw shadow active).wtsBefore (i + j) = 0 :=
      wtsBefore_eq_zero fun t _ => by simp
    rw [hnone, Nat.zero_add, nthBeat, List.getD_eq_getElem?_getD]
    simp [hj, empty]
  · intro s x i _ hx
    simp at hx
  · intro s t _ _ hwt
    simp at hwt

/-- An empty pipeline: neither rows nor weight beats. -/
theorem stage_eq_none (ha : p.NoAct) (hw : p.QuietFor (2 * n - 1)) {s : Nat}
    (hs : s < 2 * n - 1) : p.stage s = none := by
  have hact := ha s hs
  have hwt := hw s hs hs
  cases hst : p.stage s with
  | none => rfl
  | some t => cases t <;> simp [hst] at hact hwt

theorem holds_of_none (h : ∀ s, s < 2 * n - 1 → p.stage s = none) (P : Nat → Token dw aw → Prop) :
    p.Holds P := by
  intro s t hs ht
  rw [p.length_stages] at hs
  have hnone : p.stages.getD s none = none := h s hs
  rw [hnone] at ht
  cases ht

theorem rows_of_none (h : ∀ s, s < 2 * n - 1 → p.stage s = none) : p.rows = [] := by
  have hstages : p.stages = List.replicate (2 * n - 1) none := by
    refine List.eq_replicate_iff.mpr ⟨p.length_stages, fun t ht => ?_⟩
    obtain ⟨s, hs, rfl⟩ := List.mem_iff_getElem.mp ht
    have hnone := h s (by rw [← p.length_stages]; exact hs)
    rwa [stage, List.getD_eq_getElem _ _ hs] at hnone
  rw [rows, hstages, Elastic.tokens_replicate_none, List.filterMap_nil]

/-- Nothing is inside iff there are neither rows nor weight beats. -/
theorem stage_none_iff :
    (∀ s, s < 2 * n - 1 → p.stage s = none) ↔ p.rows = [] ∧ p.QuietFor (2 * n - 1) := by
  constructor
  · intro h
    exact ⟨rows_of_none h, fun s _ hs => by rw [h s hs]; rfl⟩
  · rintro ⟨hrows, hq⟩ s hs
    refine stage_eq_none (fun t ht => ?_) hq hs
    by_contra hact
    have hpos := rows_pos_of_isAct ht (by simpa using hact)
    simp [hrows] at hpos

/-- Without weight beats and rows nothing is inside. -/
theorem NoWt.stage_eq_none (h : p.NoWt) (hr : p.rows = []) {s : Nat} (hs : s < 2 * n - 1) :
    p.stage s = none :=
  stage_none_iff.mpr ⟨hr, fun t _ ht => h.stage t ht⟩ s hs

/-! ## streaming -/

/-- `SteadyOver`, and the shadow weights are `W` too. -/
structure Settled (W : Nat → Nat → BitVec dw) (b : Nat → BitVec aw) (p : RowPipe n dw aw) : Prop
    extends p.SteadyOver W b where
  shadow : ∀ i j, i < n → j < n → p.shadow i j = W i j

theorem Settled.step (h : p.Settled W b) (hn : 0 < n) (hin : inp.Streams n b) :
    (p.step inp).Settled W b where
  noWt := noWt_step hn hin.load h.noWt
  active i j hi hj := by
    have hstep : (p.step inp).active i j = if inp.weightLatchEn then p.shadow i j else p.active i j :=
      rfl
    rw [hstep, h.shadow i j hi hj, h.active i j hi hj, ite_self]
  sums := sumsTo_step h.active h.sums
  bias := metBias_step hin.shows h.bias
  shadow i j hi hj := by
    have hstep : (p.step inp).shadow i j = (p.loads inp i (i + j)).getD (p.shadow i j) := rfl
    have hwt : isWt (p.incoming inp (i + j)) = false := by
      cases hs : i + j with
      | zero =>
          rw [incoming_zero, beat, hin.load 0 hn]
          cases inp.validIn <;> rfl
      | succ s => exact h.noWt.stage s (by omega)
    rw [hstep, loads_of_not_wt hwt, Option.getD_none, h.shadow i j hi hj]

theorem Settled.run (h : p.Settled W b) (hn : 0 < n) {is : List (SystolicCore.In dw aw)}
    (his : ∀ i ∈ is, i.Streams n b) : (Machine.run RowPipe.step p is).Settled W b :=
  run_invariant (fun _ _ hs hi => Settled.step hs hn hi) h (always_of_forall_mem his)

/-- **Rows of a job**: those inside and those accepted have left as `b + x * W` or are
still inside. -/
theorem Settled.rows_run (h : p.Settled W b) (hn : 0 < n) {is : List (SystolicCore.In dw aw)}
    (his : ∀ i ∈ is, i.Streams n b) :
    p.rows.map (outRow n W b) ++
        (emits RowPipe.step acceptedRow p is).map (fun i => outRow n W b i.xIn) =
      emits RowPipe.step takenRow p is ++
        (Machine.run RowPipe.step p is).rows.map (outRow n W b) := by
  rw [← emits_map]
  exact emits_lossless (fun _ _ hs hi => Settled.step hs hn hi)
    (fun _ _ hs _ => hs.toSteadyOver.rows_step hn) h (always_of_forall_mem his)

end RowPipe

/-! ## the core -/

namespace Refines

variable {c : SystolicCore n dw aw} {p : RowPipe n dw aw}
variable {W : Nat → Nat → BitVec dw} {b : Nat → BitVec aw}

/-- The pipeline of a drained core, as a shift chain without rows. -/
theorem exists_loaded (hc : c.Drained) :
    ∃ (p : RowPipe n dw aw) (history : List (Nat → BitVec dw)),
      Refines c p ∧ p.Loaded history ∧ p.NoAct ∧ p.rows = [] := by
  obtain ⟨history, hload⟩ : ∃ history,
      (RowPipe.empty n aw c.shadowWeights c.activeWeights).Loaded history :=
    RowPipe.exists_loaded_empty _ _
  exact ⟨_, history, of_drained hc, hload, RowPipe.noAct_empty _ _, RowPipe.rows_empty _ _⟩

/-- Weight beats to a core without rows are accepted in lock step, and nothing leaves. -/
theorem Apart.loadOnly_run (h : Apart c p) (hn : 0 < n) (ha : p.NoAct)
    {is : List (SystolicCore.In dw aw)} (his : ∀ i ∈ is, i.LoadOnly n) :
    Always SystolicCore.step SystolicCore.WeightsApart c is ∧
      (Machine.run RowPipe.step p is).NoAct ∧
      emits SystolicCore.step SystolicCore.acceptedRow c is = [] ∧
      emits SystolicCore.step SystolicCore.takenRow c is = [] := by
  induction is generalizing c p with
  | nil => exact ⟨trivial, ha, rfl, rfl⟩
  | cons i is ih =>
      have hin := his i List.mem_cons_self
      have hapart : c.WeightsApart i :=
        { uniform := hin.uniform
          apart := fun _ _ hrow => by
            obtain ⟨s, hs, hact⟩ := h.refines.holdsRow_iff.mp hrow
            simp [ha s hs] at hact }
      have haccept : c.acceptedRow i = [] := by
        rw [SystolicCore.acceptedRow]
        cases hv : i.validIn with
        | false => rfl
        | true => simp [hin.load hv]
      have htake : c.takenRow i = [] := by
        rw [SystolicCore.takenRow, h.refines.validOut_eq hn, RowPipe.validOut,
          ha (2 * n - 2) (by omega)]
        rfl
      obtain ⟨h1, h2, h3, h4⟩ := ih (h.step hapart) (ha.step hin)
        fun j hj => his j (List.mem_cons_of_mem i hj)
      rw [emits_cons, emits_cons, haccept, htake]
      exact ⟨⟨hapart, h1⟩, h2, h3, h4⟩

/-- Over a pipeline without weight beats the core is drained iff no row is inside. -/
theorem drained_iff_rows (h : Refines c p) (hw : p.NoWt) : c.Drained ↔ p.rows = [] :=
  ⟨fun hd => RowPipe.rows_of_none fun _ hs => h.stage_of_drained hd hs,
    fun hr => h.drained fun _ hs => hw.stage_eq_none hr hs⟩

/-- Streaming keeps a settled core in lock step. -/
theorem streams_lockstep (h : Refines c p) (hn : 0 < n) (hs : p.Settled W b)
    {is : List (SystolicCore.In dw aw)} (his : ∀ i ∈ is, i.Streams n b) :
    Always SystolicCore.step Lockstep c is := by
  induction is generalizing c p with
  | nil => trivial
  | cons i is ih =>
      have hin := his i List.mem_cons_self
      have hu := hin.load.uniform hn
      have hl : Lockstep c i := ⟨hu, h.not_drops hu (hs.noWt.not_overruns hn hin.load)⟩
      exact ⟨hl, ih (h.step_of_lockstep hl) (hs.step hn hin)
        fun j hj => his j (List.mem_cons_of_mem i hj)⟩

end Refines

theorem SystolicCore.emits_acceptedWeight_idle (c : SystolicCore n dw aw)
    {is : List (SystolicCore.In dw aw)} (his : ∀ i ∈ is, i.validIn = false) :
    emits SystolicCore.step SystolicCore.acceptedWeight c is = [] := by
  induction is generalizing c with
  | nil => rfl
  | cons i is ih =>
      have hv := his i List.mem_cons_self
      rw [emits_cons, ih _ fun j hj => his j (List.mem_cons_of_mem i hj), acceptedWeight, hv]
      rfl

section
variable {c : SystolicCore n dw aw} {W : Nat → Nat → BitVec dw}
variable {load gap : List (SystolicCore.In dw aw)}

/-- The beats of `W` and `2 * n - 2` cycles without beats leave `W` in the shadow weights. -/
theorem shadowWeights_loaded (hn : 0 < n) (hc : c.Drained) (hload : ∀ i ∈ load, i.LoadOnly n)
    (hW : LoadsMatrix n W (emits SystolicCore.step SystolicCore.acceptedWeight c load))
    (hgap : ∀ i ∈ gap, i.validIn = false) (hlen : 2 * n - 2 ≤ gap.length) {i j : Nat} (hi : i < n)
    (hj : j < n) :
    (run SystolicCore.step c (load ++ gap)).shadowWeights i j = W i j := by
  obtain ⟨p, history, hR, hhist, hact, -⟩ := Refines.exists_loaded hc
  have hall : ∀ i ∈ load ++ gap, i.LoadOnly n := by
    intro i hi
    cases List.mem_append.mp hi with
    | inl h => exact hload i h
    | inr h => exact .of_idle (hgap i h)
  have hap : Refines.Apart c p := ⟨hR, hhist.ordered⟩
  obtain ⟨his, -⟩ := hap.loadOnly_run hn hact hall
  have hidle := (run SystolicCore.step c load).emits_acceptedWeight_idle hgap
  have hflow := hap.flowing his
  have hquiet := hR.quietFor_append hn hflow hidle
  have hshadow := hR.shadowWeights_eq hn hhist.toChained hflow (fun s hs => hquiet s (by omega)) hi hj
  rw [emits_append, hidle, List.append_nil] at hshadow
  rw [hshadow, ← hW.nthBeat_eq history.reverse hi hj, List.reverse_append, List.reverse_reverse]

/-- While a drained core loads, no row is accepted and none leaves. -/
theorem no_rows_loading (hn : 0 < n) (hc : c.Drained) (hload : ∀ i ∈ load, i.LoadOnly n) :
    emits SystolicCore.step SystolicCore.acceptedRow c load = [] ∧
      emits SystolicCore.step SystolicCore.takenRow c load = [] := by
  obtain ⟨p, history, hR, hhist, hact, -⟩ := Refines.exists_loaded hc
  have hap : Refines.Apart c p := ⟨hR, hhist.ordered⟩
  exact (hap.loadOnly_run hn hact hload).2.2

/-- **Loading**: from a drained core, the beats of `W`, `2 * n - 2` cycles without beats and a
latch leave an empty pipeline over `W`. -/
theorem core_loaded (hn : 0 < n) (hc : c.Drained) (b : Nat → BitVec aw)
    {latch : SystolicCore.In dw aw} (hload : ∀ i ∈ load, i.LoadOnly n)
    (hW : LoadsMatrix n W (emits SystolicCore.step SystolicCore.acceptedWeight c load))
    (hgap : ∀ i ∈ gap, i.validIn = false) (hlen : 2 * n - 2 ≤ gap.length)
    (hidle : latch.validIn = false) (hlatch : latch.weightLatchEn = true) :
    ∃ p : RowPipe n dw aw,
      Refines (run SystolicCore.step c (load ++ (gap ++ [latch]))) p ∧ p.Settled W b ∧
        p.rows = [] := by
  obtain ⟨p, history, hR, hhist, hact, -⟩ := Refines.exists_loaded hc
  have hgap' : ∀ i ∈ gap ++ [latch], i.validIn = false := by
    intro i hi
    cases List.mem_append.mp hi with
    | inl h => exact hgap i h
    | inr h => rwa [List.mem_singleton.mp h]
  have hall : ∀ i ∈ load ++ (gap ++ [latch]), i.LoadOnly n := by
    intro i hi
    cases List.mem_append.mp hi with
    | inl h => exact hload i h
    | inr h => exact .of_idle (hgap' i h)
  have hap : Refines.Apart c p := ⟨hR, hhist.ordered⟩
  obtain ⟨his, hact', -⟩ := hap.loadOnly_run hn hact hall
  have hflow := hap.flowing his
  have hrun := hR.run hflow.lockstep
  -- the pipeline has run dry
  have hquiet := hR.quietFor_append hn hflow
    ((run SystolicCore.step c load).emits_acceptedWeight_idle hgap')
  rw [List.length_append, List.length_singleton] at hquiet
  have hnone : ∀ s, s < 2 * n - 1 → _ := fun s hs =>
    RowPipe.stage_eq_none hact' (fun t ht => hquiet t (by omega)) hs
  have hholds : ∀ P : Nat → Token dw aw → Prop, RowPipe.Holds _ P := RowPipe.holds_of_none hnone
  refine ⟨_, hrun, ?_, RowPipe.rows_of_none hnone⟩
  refine ⟨⟨⟨hholds _, fun i j hi hj => ?_, hholds _⟩, hholds _⟩, fun i j hi hj => ?_⟩
  · -- the latch has copied the shadow weights as they stood before its edge
    rw [← hrun.active hi hj, ← List.append_assoc, run_append]
    exact (SystolicCore.activeWeights_latch hlatch hi hj).trans
      (shadowWeights_loaded hn hc hload hW hgap hlen hi hj)
  · rw [← hrun.shadow hi hj]
    exact shadowWeights_loaded hn hc hload hW hgap' (by rw [List.length_append]; omega) hi hj

end

end Npu
