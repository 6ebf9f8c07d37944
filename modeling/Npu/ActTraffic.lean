import Npu.CoreRows

/-!
# Npu.ActTraffic

Activation-only traffic: no weight beat, no latch.  On it the core is the linear
elastic pipeline of `2 * n - 1` row registers (`core_is_row_pipeline`).

The initial sums are not part of a beat, though: column `j` reads its lane of `y_in`
when the row reaches stage `j`, not when the row is accepted.
`outRow_iff_initial_sums_held` says exactly when a run still adds the accepted sums.
-/

namespace Npu

open Token Machine

/-- No weight beat is presented. -/
def SystolicCore.In.NoLoad (n : Nat) (inp : SystolicCore.In dw aw) : Prop :=
  ∀ i, i < n → inp.loadWeightIn i = false

/-- An input of activation-only traffic. -/
structure SystolicCore.In.ActOnly (n : Nat) (inp : SystolicCore.In dw aw) : Prop where
  load : inp.NoLoad n
  latch : inp.weightLatchEn = false

/-- The top edge shows `b`. -/
def SystolicCore.In.Shows (n : Nat) (b : Nat → BitVec aw) (inp : SystolicCore.In dw aw) : Prop :=
  ∀ j, j < n → inp.yIn j = b j

/-- An activation beat with the lanes `xs` and the initial sums `ys`. -/
def SystolicCore.In.act (xs : List (BitVec dw)) (ys : List (BitVec aw)) (readyIn : Bool) :
    SystolicCore.In dw aw where
  loadWeightIn _ := false
  validIn := true
  xIn i := xs.getD i 0
  yIn j := ys.getD j 0
  weightLatchEn := false
  readyIn

theorem SystolicCore.In.ActOnly.of_act (xs : List (BitVec dw)) (ys : List (BitVec aw)) (r : Bool) :
    (In.act xs ys r).ActOnly n :=
  ⟨fun _ _ => rfl, rfl⟩

/-- A linear chain of row registers in which a stage moves iff the next stage is
empty or moving. -/
def rowChainStep (chain : List (Option (Nat → BitVec dw))) (inp : SystolicCore.In dw aw) :
    List (Option (Nat → BitVec dw)) :=
  Elastic.advance (fun _ x => x) inp.readyIn (if inp.validIn then some inp.xIn else none) chain

namespace RowPipe

variable {p : RowPipe n dw aw} {inp : SystolicCore.In dw aw}

/-- No weight beat is inside. -/
def NoWt (p : RowPipe n dw aw) : Prop := p.Holds fun _ t => isWt (some t) = false

theorem noWt_step (hn : 0 < n) (hin : inp.NoLoad n) (h : p.NoWt) : (p.step inp).NoWt := by
  refine Elastic.Holds.advance h (fun t ht => ?_) fun s t _ ht => ?_
  · rw [← Option.map_some, isWt_enter, ← ht, beat, hin 0 hn]
    cases inp.validIn <;> rfl
  · rw [← Option.map_some, isWt_enter]
    exact ht

theorem NoWt.stage (h : p.NoWt) (s : Nat) (hs : s < 2 * n - 1) : isWt (p.stage s) = false := by
  rcases hst : p.stage s with _ | t
  · rfl
  · exact h.get hs hst

theorem NoWt.not_overruns (h : p.NoWt) (hn : 0 < n) (hin : inp.NoLoad n) : ¬ p.Overruns inp := by
  rintro ⟨s, -, hs, hover⟩
  simp only [overrunAt, Bool.and_eq_true] at hover
  cases s with
  | zero =>
      rw [incoming_zero, beat, hin 0 hn] at hover
      cases hv : inp.validIn <;> simp [hv] at hover
  | succ s =>
      rw [incoming_succ, h.stage s (by omega)] at hover
      cases hover.2

/-- The lanes of a token. -/
def lanes : Token dw aw → Nat → BitVec dw
  | .act x _ _ => x
  | .wt _ => fun _ => 0

/-- Without weight beats the output end is what `ready_in` says, wherever it matters. -/
theorem NoWt.last (h : p.NoWt) (inp : SystolicCore.In dw aw) (hn : 0 < n) :
    (∃ st, p.stages = st ++ [none]) ∨ p.out inp = inp.readyIn := by
  have hne : p.stages ≠ [] := by
    intro hnil
    have hlen := p.length_stages
    rw [hnil, List.length_nil] at hlen
    omega
  have hlast : p.stage (2 * n - 2) = p.stages.getLast hne := by
    have hlen := p.length_stages
    have hidx : 2 * n - 2 = p.stages.length - 1 := by omega
    rw [RowPipe.stage, hidx, List.getD_eq_getElem _ _ (by omega), List.getLast_eq_getElem]
  rcases hst : p.stage (2 * n - 2) with _ | t
  · left
    refine ⟨p.stages.dropLast, ?_⟩
    rw [← hst, hlast, List.dropLast_append_getLast]
  · right
    have hnot := h.stage (2 * n - 2) (by omega)
    rw [hst] at hnot
    rw [out, hst]
    cases t with
    | act x b y => rfl
    | wt x => cases hnot

theorem NoWt.free_eq (h : p.NoWt) (hn : 0 < n) :
    p.freeAt inp 0 = Elastic.free inp.readyIn p.stages := by
  rw [freeAt, Elastic.freeAt_zero]
  rcases h.last inp hn with ⟨st, hst⟩ | hout
  · rw [hst, Elastic.free_of_last_none, Elastic.free_of_last_none]
  · rw [hout]

/-- Without weight beats the pipeline moves its rows as the chain of row registers. -/
theorem NoWt.stages_step (h : p.NoWt) (hn : 0 < n) (hin : inp.NoLoad n) :
    (p.step inp).stages.map (Option.map lanes) =
      rowChainStep (p.stages.map (Option.map lanes)) inp := by
  have hkey : ∀ s t, lanes (p.enter inp s t) = lanes t := by
    intro s t
    cases t <;> rfl
  have hbeat : (beat inp).map lanes = if inp.validIn then some inp.xIn else none := by
    rw [beat, hin 0 hn]
    cases inp.validIn <;> rfl
  rw [rowChainStep, ← hbeat, ← Elastic.map_advance hkey]
  rcases h.last inp hn with ⟨st, hst⟩ | hout
  · rw [step_stages, hst, Elastic.advance_of_last_none _ _ inp.readyIn]
  · rw [step_stages, hout]

/-- Every token inside is a row. -/
theorem NoWt.rows_eq (h : p.NoWt) : p.rows = (Elastic.tokens p.stages).map lanes := by
  have hlanes : ∀ st : List (Option (Token dw aw)),
      Elastic.Holds (fun _ t => isWt (some t) = false) st →
      (Elastic.tokens st).filterMap lanes? = (Elastic.tokens st).map lanes := by
    intro st hst
    induction st with
    | nil => rfl
    | cons x st ih =>
        have hx : x.toList.filterMap lanes? = x.toList.map lanes := by
          rcases x with _ | ⟨x, b, y⟩ | x
          · rfl
          · rfl
          · cases hst 0 (.wt x) (by simp) rfl
        have htl := ih fun s a hs ha => hst (s + 1) a (by simpa using hs) (by simpa using ha)
        rw [Elastic.tokens_cons, List.filterMap_append, List.map_append, htl, hx]
  exact hlanes p.stages h

/-- The output is that of the chain. -/
theorem NoWt.validOut_eq (h : p.NoWt) (hn : 0 < n) :
    p.validOut = ((p.stages.map (Option.map lanes)).getD (2 * n - 2) none).isSome := by
  have hst := h.stage (2 * n - 2) (by omega)
  have hget : (p.stages.map (Option.map lanes)).getD (2 * n - 2) none =
      (p.stage (2 * n - 2)).map lanes := by
    exact List.getD_map _ none (Option.map lanes)
  rw [hget, validOut]
  rcases hs : p.stage (2 * n - 2) with _ | ⟨x, b, y⟩ | x
  · rfl
  · rfl
  · rw [hs] at hst
    cases hst

end RowPipe

/-! ## what activation-only traffic keeps -/

namespace RowPipe

variable {p : RowPipe n dw aw} {inp : SystolicCore.In dw aw} {W : Nat → Nat → BitVec dw}

/-- No weight beats, the active weights `W`, and rows that sum up over `W`. -/
structure Steady (W : Nat → Nat → BitVec dw) (p : RowPipe n dw aw) : Prop where
  noWt : p.NoWt
  active : ∀ i j, i < n → j < n → p.active i j = W i j
  sums : p.Holds (SumsTo n W)

theorem steady_empty (shadow : Nat → Nat → BitVec dw) : (empty n aw shadow W).Steady W where
  noWt := holds_empty _ shadow W
  active _ _ _ _ := rfl
  sums := holds_empty _ shadow W

theorem Steady.step (h : p.Steady W) (hn : 0 < n) (hin : inp.ActOnly n) :
    (p.step inp).Steady W where
  noWt := noWt_step hn hin.load h.noWt
  active i j hi hj := by
    rw [RowPipe.step, hin.latch]
    exact h.active i j hi hj
  sums := sumsTo_step h.active h.sums

/-- `Steady`, and the rows inside have met the initial sums `b₀`. -/
structure SteadyOver (W : Nat → Nat → BitVec dw) (b₀ : Nat → BitVec aw) (p : RowPipe n dw aw) : Prop
    extends p.Steady W where
  bias : p.Holds (MetBias n b₀)

theorem SteadyOver.step {b₀ : Nat → BitVec aw} (h : p.SteadyOver W b₀) (hn : 0 < n)
    (hin : inp.ActOnly n ∧ inp.Shows n b₀) : (p.step inp).SteadyOver W b₀ where
  toSteady := h.toSteady.step hn hin.1
  bias := metBias_step hin.2 h.bias

/-- Over constant initial sums the rows inside stand for their results. -/
theorem SteadyOver.rows_step {b₀ : Nat → BitVec aw} (h : p.SteadyOver W b₀) (hn : 0 < n) :
    p.rows.map (outRow n W b₀) ++ (p.acceptedRow inp).map (fun i => outRow n W b₀ i.xIn) =
      p.takenRow inp ++ (p.step inp).rows.map (outRow n W b₀) := by
  have hrows := congrArg (List.map (outRow n W b₀)) (RowPipe.rows_step p inp hn)
  rw [List.map_append, List.map_append, List.map_map] at hrows
  rw [takenRow_eq h.sums h.bias]
  exact hrows

theorem Steady.run (h : p.Steady W) (hn : 0 < n) {is : List (SystolicCore.In dw aw)}
    (his : ∀ i ∈ is, i.ActOnly n) : (Machine.run RowPipe.step p is).Steady W :=
  run_invariant (fun _ _ hs hi => Steady.step hs hn hi) h (always_of_forall_mem his)

/-- **Rows along a run**: those inside and those accepted have left as their sums or are
still inside. -/
theorem SteadyOver.rows_run {b₀ : Nat → BitVec aw} (h : p.SteadyOver W b₀) (hn : 0 < n)
    {is : List (SystolicCore.In dw aw)} (his : ∀ i ∈ is, i.ActOnly n ∧ i.Shows n b₀) :
    p.rows.map (outRow n W b₀) ++
        (emits RowPipe.step acceptedRow p is).map (fun i => outRow n W b₀ i.xIn) =
      emits RowPipe.step takenRow p is ++
        (Machine.run RowPipe.step p is).rows.map (outRow n W b₀) := by
  rw [← emits_map]
  exact emits_lossless
    (fun _ _ hs hi => SteadyOver.step hs hn hi) (fun _ _ hs _ => SteadyOver.rows_step hs hn) h
    (always_of_forall_mem his)

/-- `chain` holds the lanes of the rows. -/
structure ChainOf (p : RowPipe n dw aw) (chain : List (Option (Nat → BitVec dw))) : Prop where
  noWt : p.NoWt
  stages : p.stages.map (Option.map lanes) = chain

theorem ChainOf.step {chain : List (Option (Nat → BitVec dw))} (h : p.ChainOf chain) (hn : 0 < n)
    (hin : inp.NoLoad n) : (p.step inp).ChainOf (rowChainStep chain inp) where
  noWt := noWt_step hn hin h.noWt
  stages := by rw [h.noWt.stages_step hn hin, h.stages]

theorem chainOf_empty (shadow active : Nat → Nat → BitVec dw) :
    (empty n aw shadow active).ChainOf (List.replicate (2 * n - 1) none) where
  noWt := holds_empty _ shadow active
  stages := by rw [empty, List.map_replicate, Option.map_none]

theorem ChainOf.run {chain : List (Option (Nat → BitVec dw))} (h : p.ChainOf chain) (hn : 0 < n)
    {is : List (SystolicCore.In dw aw)} (his : ∀ i ∈ is, i.NoLoad n) :
    (Machine.run RowPipe.step p is).ChainOf (Machine.run rowChainStep chain is) :=
  run_sim (fun _ _ _ hs hi => ChainOf.step hs hn hi) h (always_of_forall_mem his)

end RowPipe

/-! ## the core on activation-only traffic -/

theorem SystolicCore.In.NoLoad.uniform {inp : SystolicCore.In dw aw} (h : inp.NoLoad n)
    (hn : 0 < n) : inp.Uniform n :=
  fun _ i hi => by rw [h i hi, h 0 hn]

/-- The core is a row pipeline that keeps `Steady`. -/
def SystolicCore.Steady (W : Nat → Nat → BitVec dw) (c : SystolicCore n dw aw) : Prop :=
  ∃ p, Refines c p ∧ p.Steady W

namespace SystolicCore

variable {c : SystolicCore n dw aw} {inp : SystolicCore.In dw aw} {W : Nat → Nat → BitVec dw}

theorem steady_of_drained (h : c.Drained) : c.Steady c.activeWeights :=
  ⟨_, Refines.of_drained h, RowPipe.steady_empty c.shadowWeights⟩

theorem Steady.lockstep (h : c.Steady W) (hn : 0 < n) (hin : inp.ActOnly n) :
    Refines.Lockstep c inp := by
  obtain ⟨p, hR, hp⟩ := h
  have hu := hin.load.uniform hn
  exact ⟨hu, hR.not_drops hu (hp.noWt.not_overruns hn hin.load)⟩

theorem Steady.step (h : c.Steady W) (hn : 0 < n) (hin : inp.ActOnly n) :
    (c.step inp).Steady W := by
  have hl := h.lockstep hn hin
  obtain ⟨p, hR, hp⟩ := h
  exact ⟨_, hR.step_of_lockstep hl, hp.step hn hin⟩

/-- Activation-only traffic keeps the core in lock step with its pipeline. -/
theorem Steady.always_lockstep (h : c.Steady W) (hn : 0 < n) {is : List (SystolicCore.In dw aw)}
    (his : ∀ i ∈ is, i.ActOnly n) : Always SystolicCore.step Refines.Lockstep c is :=
  always_of_invariant (fun _ _ hs hi => Steady.step hs hn hi)
    (fun _ _ hs hi => Steady.lockstep hs hn hi) h (always_of_forall_mem his)

end SystolicCore

/-- **The core is a row pipeline**: on activation-only traffic from a drained state, with
`b` at the top edge, after any run `is` and for any next input `inp`

* a beat is accepted iff fewer than `2 * n - 1` accepted rows are still inside or a
  row may leave;
* `valid_out` is the last stage of a linear chain of `2 * n - 1` row registers;
* the rows taken at the output are `b + x * W`, over the accepted rows `x` in order;
* an output that is not taken stays. -/
theorem core_is_row_pipeline (hn : 0 < n) {c : SystolicCore n dw aw} (hc : c.Drained)
    {b : Nat → BitVec aw} {is : List (SystolicCore.In dw aw)} {inp : SystolicCore.In dw aw}
    (his : ∀ i ∈ is ++ [inp], i.ActOnly n ∧ i.Shows n b) :
    let c' := run SystolicCore.step c is
    let accepted := emits SystolicCore.step SystolicCore.acceptedRow c is
    let taken := emits SystolicCore.step SystolicCore.takenRow c is
    let chain := run rowChainStep (List.replicate (2 * n - 1) none) is
    (c'.readyOut inp = true ↔
      inp.validIn = true ∧
        (accepted.length - taken.length < 2 * n - 1 ∨ inp.readyIn = true)) ∧
    c'.validOut = (chain.getD (2 * n - 2) none).isSome ∧
    taken <+: accepted.map (fun i => outRow n c.activeWeights b i.xIn) ∧
    (c'.validOut = true → inp.readyIn = false →
      (c'.step inp).validOut = true ∧
        ∀ j, j < n → ∀ inp', (c'.step inp).yOut inp' j = c'.yOut inp j) := by
  intro c' accepted taken chain
  have hrun : ∀ i ∈ is, i.ActOnly n ∧ i.Shows n b := fun i hi => his i (List.mem_append_left _ hi)
  have hact : ∀ i ∈ is, i.ActOnly n := fun i hi => (hrun i hi).1
  have hin : inp.ActOnly n := (his inp (by simp)).1
  have hc0 := SystolicCore.steady_of_drained hc
  have hl := hc0.always_lockstep hn hact
  -- the pipeline that runs along
  have hR0 := Refines.of_drained hc
  obtain ⟨p₀, hp₀⟩ : ∃ p₀, p₀ = RowPipe.empty n aw c.shadowWeights c.activeWeights := ⟨_, rfl⟩
  have hover : p₀.SteadyOver c.activeWeights b :=
    { toSteady := hp₀ ▸ RowPipe.steady_empty c.shadowWeights
      bias := hp₀ ▸ RowPipe.holds_empty _ _ _ }
  have hchain : p₀.ChainOf (List.replicate (2 * n - 1) none) := hp₀ ▸ RowPipe.chainOf_empty _ _
  rw [← hp₀] at hR0
  obtain ⟨p', hp'⟩ : ∃ p', p' = run RowPipe.step p₀ is := ⟨_, rfl⟩
  have hR : Refines c' p' := hp' ▸ hR0.run hl
  have hp : p'.Steady c.activeWeights := hp' ▸ hover.toSteady.run hn hact
  have hu := hin.load.uniform hn
  have hno := hp.noWt.not_overruns hn hin.load
  -- what was accepted has left or is inside
  have hrows := hover.rows_run hn hrun
  rw [← hR0.emits_acceptedRow hn hl, ← hR0.emits_takenRow hn hl, ← hp'] at hrows
  have hnone : p₀.rows = [] := by rw [hp₀, RowPipe.rows_empty]
  rw [hnone, List.map_nil, List.nil_append] at hrows
  have hlen : accepted.length = taken.length + p'.rows.length := by
    simpa using congrArg List.length hrows
  refine ⟨?_, ?_, ?_, fun hv hr => hR.output_held hn ⟨hu, hR.not_drops hu hno⟩ hv hr⟩
  · rw [hR.readyOut_eq hn hu ((p'.clearFrom_zero inp).mpr hno), RowPipe.readyOut,
      hp.noWt.free_eq hn, Elastic.free_eq, p'.length_stages, hlen, hp.noWt.rows_eq,
      List.length_map]
    simp
  · have hstages := (hchain.run hn fun i hi => (hact i hi).load).stages
    rw [← hp'] at hstages
    rw [hR.validOut_eq hn, hp.noWt.validOut_eq hn, hstages]
  · rw [hrows]
    exact List.prefix_append _ _

/-- A 2 × 2 core that has loaded a matrix and latched it. -/
def loadedCore : SystolicCore 2 8 32 :=
  let column xs := { SystolicCore.In.act xs [] true with loadWeightIn := fun _ => true }
  let pause := { SystolicCore.In.act [] [] true with validIn := false }
  run SystolicCore.step (SystolicCore.reset 2 8 32)
    [column [2, 4], column [1, 3], pause, pause, { pause with weightLatchEn := true }]

/-- Two rows have left a loaded core when its output is stalled. -/
theorem core_is_row_pipeline_two :
    let is := [.act [1, 2] [5, 5] true, .act [3, 4] [5, 5] true, .act [0, 9] [5, 5] true,
      .act [6, 7] [5, 5] true, .act [1, 1] [5, 5] true, .act [8, 8] [5, 5] false]
    let c' := run SystolicCore.step loadedCore is
    let accepted := emits SystolicCore.step SystolicCore.acceptedRow loadedCore is
    let taken := emits SystolicCore.step SystolicCore.takenRow loadedCore is
    taken.length = 2 ∧
      (c'.readyOut (.act [7, 7] [5, 5] false) = true ↔
        accepted.length - taken.length < 3 ∨ false = true) ∧
      taken <+: accepted.map (fun i => outRow 2 loadedCore.activeWeights (fun _ => 5) i.xIn) := by
  intro is c' accepted taken
  have hin : ∀ i ∈ is ++ [.act [7, 7] [5, 5] false], i.ActOnly 2 ∧ i.Shows 2 fun _ => 5 := by
    simp only [is, List.cons_append, List.nil_append, List.forall_mem_cons]
    refine ⟨⟨.of_act .., ?_⟩, ⟨.of_act .., ?_⟩, ⟨.of_act .., ?_⟩, ⟨.of_act .., ?_⟩,
      ⟨.of_act .., ?_⟩, ⟨.of_act .., ?_⟩, ⟨.of_act .., ?_⟩, by simp⟩ <;>
        (unfold SystolicCore.In.Shows; decide)
  have hdrained : loadedCore.Drained := by decide +kernel
  have h := core_is_row_pipeline (by decide) hdrained hin
  refine ⟨by decide +kernel, ?_, h.2.2.1⟩
  rw [h.1]
  exact ⟨fun hr => hr.2, fun hr => ⟨rfl, hr⟩⟩

/-! ## initial sums that change from beat to beat -/

/-- The initial sum that a row has met in column `j`. -/
def Token.met? (j : Nat) : Token dw aw → Option (BitVec aw)
  | .act _ b _ => some (b j)
  | .wt _ => none

namespace RowPipe

variable {p : RowPipe n dw aw} {inp : SystolicCore.In dw aw} {W : Nat → Nat → BitVec dw}

/-- The initial sum that a row meets in column `j` in this cycle. -/
def topSample (j : Nat) (p : RowPipe n dw aw) (inp : SystolicCore.In dw aw) : List (BitVec aw) :=
  if isAct (p.incoming inp j) && p.freeAt inp j then [inp.yIn j] else []

/-- The initial sums in column `j` of the rows that have reached it, oldest first. -/
def metSums (p : RowPipe n dw aw) (j : Nat) : List (BitVec aw) :=
  (Elastic.tokens (p.stages.drop j)).filterMap (met? j)

/-- A row keeps the initial sum it has met. -/
theorem met?_enter {j s : Nat} (hs : s ≠ j) (t : Token dw aw) :
    met? j (p.enter inp s t) = met? j t := by
  cases t with
  | act x b y => simp [met?, enter, hs]
  | wt x => rfl

/-- **Conservation of initial sums, one edge**: the stages from `j` on take a sum at the top of
column `j` and give one up with the row that leaves. -/
theorem metSums_step (p : RowPipe n dw aw) (inp : SystolicCore.In dw aw) {j : Nat} (hj : j < n) :
    p.metSums j ++ p.topSample j inp =
      (p.leavingRow inp).map (fun t => t.2 j) ++ (p.step inp).metSums j := by
  have hlen := p.length_stages
  have hjlen : (p.stages.take j).length = j := List.length_take_of_le (by omega)
  have hfinal : Elastic.final (beat inp) (p.stages.take j) = p.incoming inp j :=
    Elastic.final_take _ _ (by omega)
  -- the back of the pipeline, fed by stage `j - 1`
  have hback : (p.step inp).stages.drop j =
      Elastic.advance (fun s => p.enter inp (s + j)) (p.out inp) (p.incoming inp j)
        (p.stages.drop j) := by
    have hsplit := Elastic.advance_append (p.enter inp) (p.out inp) (beat inp)
      (p.stages.take j) (p.stages.drop j)
    rw [List.take_append_drop, hfinal, hjlen] at hsplit
    rw [step_stages, hsplit, List.drop_left' (by rw [Elastic.length_advance, hjlen])]
  have hdep : Elastic.departing (p.out inp) (p.incoming inp j) (p.stages.drop j) =
      Elastic.departing (p.out inp) (beat inp) p.stages := by
    rw [← hfinal, ← Elastic.departing_append, List.take_append_drop]
  have hleave : (p.leaving inp).toList.filterMap (met? j) =
      (p.leavingRow inp).map (fun t => t.2 j) := by
    rw [leavingRow]
    rcases p.leaving inp with _ | ⟨x, b, y⟩ | x <;> rfl
  have hsample : ((if p.freeAt inp j then p.incoming inp j else none).map
      (p.enter inp j)).toList.filterMap (met? j) = p.topSample j inp := by
    rw [topSample]
    rcases p.incoming inp j with _ | ⟨x, b, y⟩ | x <;> cases p.freeAt inp j <;>
      simp [enter, met?]
  obtain ⟨x, st, hst⟩ : ∃ x st, p.stages.drop j = x :: st :=
    List.exists_cons_of_ne_nil (by rw [← List.length_pos_iff, List.length_drop]; omega)
  have hfree : Elastic.free (p.out inp) (x :: st) = p.freeAt inp j := by rw [← hst]; rfl
  have hcons := Elastic.tokens_advance_of_entered (met? j) (fun s => p.enter inp (s + j))
    (p.out inp) (p.incoming inp j) x st fun s t => met?_enter (by omega) t
  rw [← hst, hdep, ← hback, hst, hfree, departing_key (fun _ => rfl) (by omega), hleave,
    Nat.zero_add, hsample, ← hst] at hcons
  exact hcons

/-- A row that leaves shows the sum over the initial sums it has met. -/
theorem takenRow_eq_leavingRow (h : p.Steady W) :
    p.takenRow inp = (p.leavingRow inp).map fun t => outRow n W t.2 t.1 := by
  rw [takenRow, leavingRow, leaving]
  cases hv : p.validOut with
  | false => rfl
  | true =>
      obtain ⟨x, b, y, hstage⟩ := isAct_iff.mp hv
      cases inp.readyIn with
      | false => rfl
      | true =>
          have hrow : (fun j : Fin n => p.yOut j) = outRow n W b x :=
            funext fun j => yOut_eq_rowSum h.sums hstage j.isLt
          rw [hstage, hrow]
          rfl

/-! ### along a run -/

/-- In every column, the sums met by the rows that have left and by those inside are the
ones taken at the top. -/
theorem metSums_run {j : Nat} (hj : j < n) (hnone : p.metSums j = [])
    (is : List (SystolicCore.In dw aw)) :
    emits RowPipe.step (topSample j) p is =
      (emits RowPipe.step leavingRow p is).map (fun t => t.2 j) ++
        (Machine.run RowPipe.step p is).metSums j := by
  have hcons := emits_conserved (fun q i => metSums_step q i hj) p is
  rw [hnone, List.nil_append, emits_map] at hcons
  exact hcons

/-- Every row that has left shows its sum. -/
theorem Steady.emits_takenRow (h : p.Steady W) (hn : 0 < n) {is : List (SystolicCore.In dw aw)}
    (his : ∀ i ∈ is, i.ActOnly n) :
    emits RowPipe.step takenRow p is =
      (emits RowPipe.step leavingRow p is).map fun t => outRow n W t.2 t.1 := by
  induction is generalizing p with
  | nil => rfl
  | cons i is ih =>
      have htl := ih (h.step hn (his i List.mem_cons_self))
        fun j hj => his j (List.mem_cons_of_mem i hj)
      rw [emits_cons, emits_cons, List.map_append, htl, takenRow_eq_leavingRow h]

end RowPipe

/-- Rows keep the accepted sums exactly when they have met them in every column. -/
theorem map_outRow_eq_iff {W : Nat → Nat → BitVec dw}
    {left : List ((Nat → BitVec dw) × (Nat → BitVec aw))} {accepted : List (SystolicCore.In dw aw)}
    (hx : accepted.map (·.xIn) = left.map (·.1)) :
    left.map (fun t => outRow n W t.2 t.1) =
        accepted.map (fun i => outRow n W i.yIn i.xIn) ↔
      ∀ j, j < n → left.map (fun t => t.2 j) = accepted.map (fun i => i.yIn j) := by
  induction left generalizing accepted with
  | nil =>
      obtain rfl : accepted = [] := by simpa using hx
      simp
  | cons t left ih =>
      obtain ⟨i, accepted, rfl⟩ : ∃ i is, accepted = i :: is := by
        cases accepted with
        | nil => cases hx
        | cons i is => exact ⟨i, is, rfl⟩
      obtain ⟨hi, htl⟩ := List.cons.inj hx
      have hrow : outRow n W t.2 t.1 = outRow n W i.yIn i.xIn ↔ ∀ j, j < n → t.2 j = i.yIn j := by
        have hfst : i.xIn = t.1 := hi
        rw [funext_iff, hfst]
        simp only [outRow, rowSum, partialSum_inj]
        exact ⟨fun h j hj => h ⟨j, hj⟩, fun h j => h j j.isLt⟩
      simp only [List.map_cons, List.cons.injEq, hrow, ih htl, ← forall_and]

/-- The top cells sample as the pipeline does. -/
theorem Refines.emits_topSample {c : SystolicCore n dw aw} {p : RowPipe n dw aw}
    {is : List (SystolicCore.In dw aw)} (h : Refines c p)
    (hl : Always SystolicCore.step Lockstep c is) {j : Nat} (hj : j < n) :
    emits SystolicCore.step (fun c i => c.topSample i j) c is =
      emits RowPipe.step (RowPipe.topSample j) p is := by
  refine Machine.emits_sim (fun _ _ _ => step_of_lockstep) (fun c p i h hl => ?_) h hl
  have hclear := (p.clearFrom_zero i).mpr (h.not_overruns hl.1 hl.2)
  have hfire := (cellFires h hl.1 (by omega : 0 < n) hj (hclear.mono (Nat.zero_le _))).mac
  rw [Nat.zero_add] at hfire
  rw [SystolicCore.topSample, RowPipe.topSample, hfire]

/-- **Initial sums**: on activation-only traffic the rows taken at the output are
`y + x * W` for the beats `(x, y)` accepted, exactly when in every column `j` the values
that `y_in` showed while the top cell fired are those it showed at acceptance. -/
theorem outRow_iff_initial_sums_held (hn : 0 < n) {c : SystolicCore n dw aw} (hc : c.Drained)
    {is : List (SystolicCore.In dw aw)} (his : ∀ i ∈ is, i.ActOnly n) :
    let accepted := emits SystolicCore.step SystolicCore.acceptedRow c is
    let taken := emits SystolicCore.step SystolicCore.takenRow c is
    let sampled j := emits SystolicCore.step (fun c i => c.topSample i j) c is
    taken = (accepted.take taken.length).map (fun i => outRow n c.activeWeights i.yIn i.xIn) ↔
      ∀ j, j < n →
        (sampled j).take taken.length = (accepted.take taken.length).map (fun i => i.yIn j) := by
  intro accepted taken sampled
  have hR := Refines.of_drained hc
  have hl := (SystolicCore.steady_of_drained hc).always_lockstep hn his
  have hp : (RowPipe.empty n aw c.shadowWeights c.activeWeights).Steady c.activeWeights :=
    RowPipe.steady_empty c.shadowWeights
  obtain ⟨p, hp₀⟩ : ∃ p, p = RowPipe.empty n aw c.shadowWeights c.activeWeights := ⟨_, rfl⟩
  rw [← hp₀] at hR hp
  obtain ⟨left, hleft⟩ : ∃ left, left = emits RowPipe.step RowPipe.leavingRow p is := ⟨_, rfl⟩
  have htaken : taken = left.map fun t => outRow n c.activeWeights t.2 t.1 := by
    rw [hleft, ← hp.emits_takenRow hn his, ← hR.emits_takenRow hn hl]
  have hlen : taken.length = left.length := by rw [htaken, List.length_map]
  -- the accepted beats that have left, and what they met
  have hx : (accepted.take left.length).map (·.xIn) = left.map (·.1) := by
    have hnone : p.rows = [] := by rw [hp₀, RowPipe.rows_empty]
    have hlanes := RowPipe.lanes_run hn hnone is
    rw [← hR.emits_acceptedRow hn hl, ← hleft] at hlanes
    rw [List.map_take, hlanes, List.take_left' (List.length_map _)]
  have hsampled : ∀ j, j < n → (sampled j).take left.length = left.map (fun t => t.2 j) := by
    intro j hj
    have hnone : p.metSums j = [] := by simp [hp₀, RowPipe.metSums, RowPipe.empty]
    have hmet : sampled j = _ := (hR.emits_topSample hl hj).trans (RowPipe.metSums_run hj hnone is)
    rw [hmet, ← hleft, List.take_left' (List.length_map _)]
  rw [hlen, htaken, map_outRow_eq_iff hx]
  exact forall₂_congr fun j hj => by rw [hsampled j hj]

/-- The second column adds the initial sum of the beat after its own. -/
theorem initial_sums_not_held :
    ¬ ∀ is : List (SystolicCore.In 8 32), (∀ i ∈ is, i.ActOnly 2) →
      let c := SystolicCore.reset 2 8 32
      let accepted := emits SystolicCore.step SystolicCore.acceptedRow c is
      let taken := emits SystolicCore.step SystolicCore.takenRow c is
      taken = (accepted.take taken.length).map (fun i => outRow 2 c.activeWeights i.yIn i.xIn) := by
  intro h
  have hrun := h [.act [0, 0] [1, 1] true, .act [0, 0] [2, 2] true, .act [0, 0] [3, 3] true,
    .act [0, 0] [4, 4] true] (by simp [SystolicCore.In.ActOnly.of_act])
  revert hrun
  decide +kernel

/-- The second lane of `y_in` does not change, so both columns add the sums of the beats. -/
theorem outRow_iff_initial_sums_held_two :
    let is := [.act [1, 2] [1, 9] true, .act [3, 4] [2, 9] true, .act [5, 6] [3, 9] true,
      .act [7, 8] [4, 9] true, .act [0, 0] [5, 9] true]
    let accepted := emits SystolicCore.step SystolicCore.acceptedRow loadedCore is
    let taken := emits SystolicCore.step SystolicCore.takenRow loadedCore is
    taken.length = 2 ∧ taken = (accepted.take taken.length).map fun i =>
      outRow 2 loadedCore.activeWeights i.yIn i.xIn := by
  intro is accepted taken
  have hin : ∀ i ∈ is, i.ActOnly 2 := by simp [is, SystolicCore.In.ActOnly.of_act]
  have hdrained : loadedCore.Drained := by decide +kernel
  exact ⟨by decide +kernel,
    (outRow_iff_initial_sums_held (by decide) hdrained hin).mpr (by decide +kernel)⟩

end Npu
