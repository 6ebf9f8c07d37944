import Npu.Accelerator
import Npu.RowResults
import Npu.UnitStatus

/-!
# Npu.UnitRefines

The unit refines the accelerator.  In each cycle the unit stands for the `commands` of its
latch register and of the beat it accepts.  As long as loading and computing are kept apart and
a latch pulse finds the columns settled and no row under way, the unit answers as the
accelerator does, word by word (`unit_refines_accelerator`).

`Tracks` is the relation, `Tracks.step` its step lemma.
-/

namespace Npu

open Lanes Machine

/-- Without an activation row in any stage there are no rows inside. -/
theorem RowPipe.rows_of_not_holdsRow {p : RowPipe n dw aw} (h : ¬ p.HoldsRow) : p.rows = [] := by
  refine List.eq_nil_iff_forall_not_mem.mpr fun x hx => h ?_
  obtain ⟨t, ht, hlanes⟩ := List.mem_filterMap.mp hx
  obtain ⟨s, hs, hget⟩ := List.mem_iff_getElem.mp (Elastic.mem_tokens.mp ht)
  refine ⟨s, by rwa [p.length_stages] at hs, ?_⟩
  rw [stage, List.getD_eq_getElem _ _ hs, hget]
  cases t with
  | act x b y => rfl
  | wt x => cases hlanes

namespace NpuUnit

/-- The commands of a cycle: first that of the latch register, then that of the beat. -/
def commands (u : NpuUnit) (inp : In) : List (Command 8 (BitVec 8)) :=
  (if u.ctrl.weightLatchEn then [.latch] else []) ++
    (u.acceptedWeightBeat inp).map (fun data => .column (lanes data)) ++
      (u.acceptedRowBeat inp).map fun data => .row (lanes data)

/-- A latch pulse in this cycle finds the columns settled and no row under way: none inside and
none presented, and no weight beat accepted in the last 14 cycles. -/
structure LatchSettled (u₀ : NpuUnit) (before : List In) (inp : In) : Prop where
  inside : ¬ (run step u₀ before).core.HoldsRow
  presented : inp.stSinkValid = true → (run step u₀ before).ctrl.seqMode.getLsbD 0 = true
  columns : u₀.NoWeightFor 14 before

/-- Every latch pulse of the run does. -/
def LatchesSettled (u₀ : NpuUnit) (is : List In) : Prop :=
  ∀ before inp after, is = before ++ inp :: after →
    (run step u₀ before).ctrl.weightLatchEn = true → u₀.LatchSettled before inp

/-- What the accelerator computes from a row. -/
abbrev answers : Accelerator 8 (BitVec 8) → Command 8 (BitVec 8) → List (Fin 8 → BitVec 32) :=
  Accelerator.answers product

variable {u : NpuUnit} {inp : In} {p : RowPipe 8 8 32} {history : List (Nat → BitVec 8)}
variable {a : Accelerator 8 (BitVec 8)}

/-- The unit's core is the pipeline `p`, whose weights are those of the accelerator `a`. -/
structure Tracks (u : NpuUnit) (p : RowPipe 8 8 32) (history : List (Nat → BitVec 8))
    (a : Accelerator 8 (BitVec 8)) : Prop where
  refines : Refines u.core p
  loaded : p.Loaded history
  columns : a.columns = history.map fun x (i : Fin 8) => x i
  matrix : ∀ i j, i < 8 → j < 8 → p.active i j = weightsOf a.matrix i j

theorem tracks_reset (outFifo : BitVec 3 → BitVec 256) :
    Tracks (reset outFifo) (.empty 8 32 (fun _ _ => 0) fun _ _ => 0) [] .init where
  refines := Refines.reset 8 8 32
  loaded := RowPipe.loaded_empty fun _ _ => 0
  columns := rfl
  matrix _ _ _ _ := rfl

theorem Tracks.loaded_eq (h : Tracks u p history a) (i j : Fin 8) :
    a.loaded i j = nthBeat history j i := by
  rw [Accelerator.loaded, nthBeat, h.columns, List.getD_eq_getElem?_getD, List.getElem?_map,
    List.getD_eq_getElem?_getD]
  cases history[j.val]? <;> rfl

/-! ## one cycle -/

/-- The beat accepted in a cycle is a column, a row or nothing. -/
theorem run_commands (u : NpuUnit) (inp : In) (a : Accelerator 8 (BitVec 8)) :
    run Accelerator.step a (u.commands inp) =
      { columns := (u.acceptedWeightBeat inp).map lanes ++ a.columns
        matrix := if u.ctrl.weightLatchEn then a.loaded else a.matrix } := by
  rw [commands, run_append, run_append, acceptedWeightBeat, acceptedRowBeat]
  cases u.ctrl.weightLatchEn <;> cases inp.stSinkValid && u.stSinkReady inp <;>
    cases u.ctrl.seqMode.getLsbD 0 <;> rfl

/-- In a cycle without a latch pulse the accepted row is answered with the matrix in use. -/
theorem answers_commands (u : NpuUnit) (inp : In) (a : Accelerator 8 (BitVec 8))
    (hlatch : u.ctrl.weightLatchEn = true → u.acceptedRowBeat inp = []) :
    emits Accelerator.step answers a (u.commands inp) =
      (u.acceptedRowBeat inp).map fun data => product a.matrix (lanes data) := by
  cases hen : u.ctrl.weightLatchEn with
  | true =>
      rw [commands, hen, hlatch hen, acceptedWeightBeat]
      cases inp.stSinkValid && u.stSinkReady inp && u.ctrl.seqMode.getLsbD 0 <;> rfl
  | false =>
      rw [commands, hen, acceptedWeightBeat, acceptedRowBeat]
      cases inp.stSinkValid && u.stSinkReady inp <;> cases u.ctrl.seqMode.getLsbD 0 <;> rfl

/-- The result of an accepted row is the product with the matrix. -/
theorem acceptedRow_outRow (u : NpuUnit) (inp : In) (W : Fin 8 → Fin 8 → BitVec 8) :
    (u.core.acceptedRow (u.coreIn inp)).map
        (fun i => outRow 8 (weightsOf W) (fun _ => (0 : BitVec 32)) i.xIn) =
      (u.acceptedRowBeat inp).map fun data => product W (lanes data) := by
  have hlanes : (u.core.acceptedRow (u.coreIn inp)).map (·.xIn) =
      (u.acceptedRowBeat inp).map (lane 8) := acceptedRow_core
  have hrow := congrArg (List.map (outRow 8 (weightsOf W) fun _ => (0 : BitVec 32))) hlanes
  rw [List.map_map, List.map_map] at hrow
  exact hrow.trans (List.map_congr_left fun data _ => outRow_lane W data)

/-- What a latch pulse asks of the pipeline. -/
structure Settled (u : NpuUnit) (inp : In) (p : RowPipe 8 8 32) : Prop where
  inside : ¬ u.core.HoldsRow
  presented : u.acceptedRowBeat inp = []
  columns : p.QuietFor 14

/-- **One cycle**: the accelerator follows, and the results under way and the answers given in the
cycle are the row that leaves and the results under way behind it. -/
theorem Tracks.step (h : Tracks u p history a) (hapart : u.LoadsApart inp)
    (hlatch : u.ctrl.weightLatchEn = true → u.Settled inp p) :
    Tracks (u.step inp) (p.step (u.coreIn inp)) (p.acceptedWeight (u.coreIn inp) ++ history)
        (run Accelerator.step a (u.commands inp)) ∧
      p.results (weightsOf a.matrix) ++ emits Accelerator.step answers a (u.commands inp) =
        u.core.takenRow (u.coreIn inp) ++ (p.step (u.coreIn inp)).results
          (weightsOf (run Accelerator.step a (u.commands inp)).matrix) := by
  have hpos : 0 < 8 := by decide
  have hw := weightsApart_coreIn hapart
  have hpipe := h.refines.weightsApart hw
  have hl := h.refines.lockstep_of_apart h.loaded.ordered hw
  have hweight : p.acceptedWeight (u.coreIn inp) = (u.acceptedWeightBeat inp).map (lane 8) := by
    rw [← h.refines.acceptedWeight_eq hpos hl, acceptedWeight_core]
  have hrow : u.ctrl.weightLatchEn = true → u.acceptedRowBeat inp = [] :=
    fun hen => (hlatch hen).presented
  have hshow : (u.coreIn inp).Shows 8 fun _ => 0 := fun _ _ => rfl
  have hresults := p.results_step hpos h.matrix hshow
  rw [← h.refines.acceptedRow_eq hpos hl, ← h.refines.takenRow_eq hpos, acceptedRow_outRow] at hresults
  rw [answers_commands u inp a hrow, hresults, run_commands]
  constructor
  · refine ⟨h.refines.step_of_lockstep hl, RowPipe.loaded_step h.loaded hpipe, ?_, ?_⟩
    · rw [hweight, h.columns, List.map_append, List.map_map]
      rfl
    · intro i j hi hj
      have hactive : (p.step (u.coreIn inp)).active i j =
          if u.ctrl.weightLatchEn then p.shadow i j else p.active i j := rfl
      rw [hactive, weightsOf_of_lt _ hi hj]
      cases hen : u.ctrl.weightLatchEn with
      | false =>
          rw [if_neg Bool.false_ne_true, if_neg Bool.false_ne_true, h.matrix i j hi hj,
            weightsOf_of_lt _ hi hj]
      | true =>
          have hcolumn := h.loaded_eq ⟨i, hi⟩ ⟨j, hj⟩
          rw [if_pos rfl, if_pos rfl]
          exact (h.loaded.shadow_eq (hlatch hen).columns hi hj).trans hcolumn.symm
  · congr 1
    cases hen : u.ctrl.weightLatchEn with
    | false => rw [if_neg Bool.false_ne_true]
    | true =>
        -- no row is under way, before or after
        have hsettled := hlatch hen
        have hbefore : p.results (weightsOf a.matrix) = [] := by
          rw [← List.length_eq_zero_iff, RowPipe.length_results,
            RowPipe.rows_of_not_holdsRow (h.refines.holdsRow_iff.not.mp hsettled.inside),
            List.length_nil]
        rw [hbefore, hsettled.presented] at hresults
        have hafter : ((p.step (u.coreIn inp)).results (weightsOf a.matrix)).length = 0 :=
          congrArg List.length (List.append_eq_nil_iff.mp hresults.symm).2
        rw [RowPipe.length_results] at hafter
        have hnil : ∀ W, (p.step (u.coreIn inp)).results W = [] := fun W => by
          rw [← List.length_eq_zero_iff, RowPipe.length_results, hafter]
        rw [hnil, hnil]

/-! ## along a run -/

/-- **Along a run** the accelerator follows, and the rows that have left and the results under way
are its answers. -/
theorem Tracks.run {is : List In} (h : Tracks u p history a) (hquiet : p.QuietFor 14)
    (hrows : p.rows = []) (hapart : Always NpuUnit.step LoadsApart u is)
    (hlatch : u.LatchesSettled is) :
    (∃ history', Tracks (Machine.run NpuUnit.step u is)
        (Machine.run RowPipe.step p (u.coreIns is)) history'
        (Machine.run Accelerator.step a (emits NpuUnit.step commands u is))) ∧
      emits Accelerator.step answers a (emits NpuUnit.step commands u is) =
        emits SystolicCore.step SystolicCore.takenRow u.core (u.coreIns is) ++
          (Machine.run RowPipe.step p (u.coreIns is)).results
            (weightsOf (Machine.run Accelerator.step a
              (emits NpuUnit.step commands u is)).matrix) := by
  induction is using List.reverseRecOn with
  | nil =>
      have hnil : p.results (weightsOf a.matrix) = [] := by
        rw [← List.length_eq_zero_iff, RowPipe.length_results, hrows, List.length_nil]
      exact ⟨⟨history, h⟩, hnil.symm⟩
  | append_singleton is i ih =>
      obtain ⟨his, hi⟩ := always_append.mp hapart
      have hbefore : u.LatchesSettled is := by
        rintro before j after rfl
        exact hlatch before j (after ++ [i]) (by rw [List.append_assoc, List.cons_append])
      obtain ⟨⟨history', htracks⟩, hanswers⟩ := ih his hbefore
      obtain ⟨hstep, hout⟩ := htracks.step hi.1 fun hen => by
        have hsettled := hlatch is i [] rfl hen
        refine ⟨hsettled.inside, ?_, ?_⟩
        · rw [acceptedRowBeat]
          cases hv : i.stSinkValid with
          | false => rfl
          | true => simp [hsettled.presented hv]
        · exact quietFor_of_noWeightFor h.refines hquiet
            (flowing_coreIns h.refines h.loaded his) hsettled.columns
      have hcore : u.coreIns (is ++ [i]) =
          u.coreIns is ++ [(Machine.run NpuUnit.step u is).coreIn i] := coreIns_append u is [i]
      have hcommands : emits NpuUnit.step commands u (is ++ [i]) =
          emits NpuUnit.step commands u is ++ (Machine.run NpuUnit.step u is).commands i := by
        rw [emits_append, emits_cons, emits_nil, List.append_nil]
      rw [hcore, hcommands]
      constructor
      · simp only [run_append]
        exact ⟨_, hstep⟩
      · rw [emits_append, hanswers, List.append_assoc, hout, emits_append, run_append, run_append,
          emits_cons, emits_nil, List.append_nil, ← run_core, List.append_assoc]
        rfl

/-- **Words along a run** from an empty unit: those sent and those to come are those of the
accelerator's answers. -/
theorem Tracks.words_run {is : List In} (h : Tracks u p history a) (hempty : u.Empty)
    (hwf : u.stream.Wf) (hapart : Always NpuUnit.step LoadsApart u is)
    (hlatch : u.LatchesSettled is) :
    ∃ rest,
      (emits Accelerator.step answers a (emits NpuUnit.step commands u is)).flatMap rowWords =
          emits NpuUnit.step sentWord u is ++ rest ∧
        ((Machine.run NpuUnit.step u is).Empty → rest = []) := by
  obtain ⟨hrows, hquiet⟩ := RowPipe.stage_none_iff.mp fun s hs =>
    h.refines.stage_of_drained hempty.drained hs
  obtain ⟨⟨history', htracks⟩, hanswers⟩ :=
    h.run (fun s hs => hquiet s (by omega)) hrows hapart hlatch
  have hwords := NpuUnit.words_run hwf is
  rw [hempty.pendingWords hwf, List.nil_append] at hwords
  rw [hanswers, List.flatMap_append, hwords, List.append_assoc]
  refine ⟨_, rfl, fun hempty' => ?_⟩
  have hnone := RowPipe.rows_of_none fun s hs =>
    htracks.refines.stage_of_drained hempty'.drained hs
  have hresults : ∀ W, (Machine.run RowPipe.step p (u.coreIns is)).results W = [] := fun W => by
    rw [← List.length_eq_zero_iff, RowPipe.length_results, hnone, List.length_nil]
  rw [hempty'.pendingWords (wf_run hwf is), hresults, List.flatMap_nil, List.append_nil]

end NpuUnit

/-- **The unit refines the accelerator**: on every run from reset, whatever the FIFO slots hold,
that keeps loading and computing apart and in which every latch pulse finds the columns settled
and no row under way,

* the words sent are those of the accelerator's answers, in order, and all of them once the
  unit is empty;
* the active weights are at all times the accelerator's matrix. -/
theorem unit_refines_accelerator (outFifo : BitVec 3 → BitVec 256) {is : List NpuUnit.In}
    (hapart : Always NpuUnit.step NpuUnit.LoadsApart (NpuUnit.reset outFifo) is)
    (hlatch : (NpuUnit.reset outFifo).LatchesSettled is) :
    let u := NpuUnit.reset outFifo
    let u' := run NpuUnit.step u is
    let commands := emits NpuUnit.step NpuUnit.commands u is
    let answers := emits Accelerator.step NpuUnit.answers .init commands
    emits NpuUnit.step NpuUnit.sentWord u is <+: answers.flatMap NpuUnit.rowWords ∧
      (u'.Empty →
        emits NpuUnit.step NpuUnit.sentWord u is = answers.flatMap NpuUnit.rowWords) ∧
      ∀ i j : Fin 8, u'.core.activeWeights i j = (run Accelerator.step .init commands).matrix i j := by
  intro u u' commands answers
  have htracks := NpuUnit.tracks_reset outFifo
  obtain ⟨rest, hwords, hrest⟩ := htracks.words_run (NpuUnit.empty_reset outFifo)
    (StreamCtrl.wf_reset outFifo) hapart hlatch
  have hall : answers.flatMap NpuUnit.rowWords = emits NpuUnit.step NpuUnit.sentWord u is ++ rest :=
    hwords
  refine ⟨?_, fun hempty => ?_, fun i j => ?_⟩
  · rw [hall]
    exact List.prefix_append _ _
  · rw [hall, hrest hempty, List.append_nil]
  · have hquiet : (RowPipe.empty 8 32 (fun _ _ => (0 : BitVec 8)) fun _ _ => 0).QuietFor 14 :=
      fun s _ _ => by simp
    obtain ⟨⟨history, htracks'⟩, -⟩ := htracks.run hquiet (RowPipe.rows_empty _ _) hapart hlatch
    have hactive := htracks'.matrix i j i.isLt j.isLt
    rw [weightsOf_of_lt _ i.isLt j.isLt] at hactive
    exact (htracks'.refines.active i.isLt j.isLt).trans hactive

/-! ## jobs -/

namespace NpuUnit

variable {u : NpuUnit}

/-- A run with one latch pulse. -/
theorem latchesSettled_of_once {before after : List In} {inp : In}
    (hbefore : Always step (fun u _ => u.ctrl.weightLatchEn = false) u before)
    (hafter : Always step (fun u _ => u.ctrl.weightLatchEn = false)
      (run step u (before ++ [inp])) after)
    (hsettled : u.LatchSettled before inp) : u.LatchesSettled (before ++ inp :: after) := by
  intro as i bs hsplit hen
  rcases List.append_eq_append_iff.mp hsplit with ⟨cs, rfl, hcs⟩ | ⟨cs, rfl, hcs⟩
  · cases cs with
    | nil =>
        obtain ⟨rfl, rfl⟩ := List.cons.inj (by simpa using hcs)
        simpa using hsettled
    | cons c cs =>
        -- behind the pulse
        obtain ⟨rfl, rfl⟩ := List.cons.inj hcs
        have hrun : run step u (before ++ inp :: cs) = run step (run step u (before ++ [inp])) cs := by
          rw [← run_append, List.append_assoc, List.singleton_append]
        have hfalse := (always_append.mp hafter).2.1
        rw [← hrun] at hfalse
        cases hfalse.symm.trans hen
  · cases cs with
    | nil =>
        obtain ⟨rfl, rfl⟩ := List.cons.inj (by simpa using hcs)
        simpa using hsettled
    | cons c cs =>
        obtain ⟨rfl, rfl⟩ := List.cons.inj hcs
        have hfalse := (always_append.mp hbefore).2.1
        cases hfalse.symm.trans hen

variable {t : JobInputs}

/-- Up to the latch the cycles of a job present only weight beats. -/
theorem JobTiming.loading_mode (h : u.JobTiming t) :
    Always step (fun u i => i.stSinkValid = true → u.ctrl.seqMode.getLsbD 0 = true) u t.loading := by
  have hidle : ∀ i ∈ t.gap ++ [t.latch], i.stSinkValid = false := by
    intro i hi
    rcases List.mem_append.mp hi with hgap | hlatch
    · exact h.gap_idle i hgap
    · rw [List.mem_singleton.mp hlatch, h.latch_idle]
  rw [JobInputs.loading, always_append]
  exact ⟨h.load_mode, (always_of_forall_mem hidle).imp fun _ _ hi hv => by simp [hi] at hv⟩

/-- Only weight beats from an empty unit keep loading and computing apart. -/
theorem Empty.loadsApart (h : u.Empty) {is : List In}
    (his : Always step (fun u i => i.stSinkValid = true → u.ctrl.seqMode.getLsbD 0 = true) u is) :
    Always step LoadsApart u is := by
  obtain ⟨p, history, hR, hload, hact, -⟩ := Refines.exists_loaded h.drained
  have hap : Refines.Apart u.core p := ⟨hR, hload.ordered⟩
  have hw := (hap.loadOnly_run (by decide) hact (loadOnly_coreIns his)).1
  rw [coreIns, ← always_proj core_step] at hw
  exact hw.imp fun u i hwi hv hmode => hwi.apart hv (by rw [coreIn_loadWeightIn, hmode]; exact hv)

/-- From an empty unit the cycles of a job keep loading and computing apart. -/
theorem JobTiming.loadsApart (h : u.JobTiming t) (he : u.Empty) :
    Always step LoadsApart u t.all := by
  rw [JobInputs.all, always_append]
  refine ⟨he.loadsApart h.loading_mode, h.stream_mode.imp fun u i hmode hv hone => ?_⟩
  rw [hmode hv] at hone
  cases hone

/-- A job with a single latch pulse is a run of accelerator commands. -/
theorem JobTiming.refines (h : u.JobTiming t) (he : u.Empty)
    (hload : Always step (fun u _ => u.ctrl.weightLatchEn = false) u (t.load ++ t.gap))
    (hstream : Always step (fun u _ => u.ctrl.weightLatchEn = false) (run step u t.loading) t.stream) :
    Always step LoadsApart u t.all ∧ u.LatchesSettled t.all := by
  have hsplit : t.all = (t.load ++ t.gap) ++ t.latch :: t.stream := by
    rw [JobInputs.all, JobInputs.loading]
    simp
  have hloading : t.loading = t.load ++ t.gap ++ [t.latch] := by
    rw [JobInputs.loading, List.append_assoc]
  constructor
  · exact h.loadsApart he
  · rw [hsplit]
    refine latchesSettled_of_once hload (by rwa [← hloading]) ⟨?_, ?_, ?_⟩
    · obtain ⟨p, history, hR, hhist, hact, -⟩ := Refines.exists_loaded he.drained
      have hmode := h.loading_mode
      rw [hloading, always_append] at hmode
      have hap : Refines.Apart u.core p := ⟨hR, hhist.ordered⟩
      obtain ⟨his, hnoact, -⟩ := hap.loadOnly_run (by decide) hact (loadOnly_coreIns hmode.1)
      have hrun := hR.run (hap.always_lockstep his)
      rw [run_core, hrun.holdsRow_iff]
      rintro ⟨s, hs, hrow⟩
      rw [hnoact s hs] at hrow
      cases hrow
    · intro hv
      rw [h.latch_idle] at hv
      cases hv
    · exact noWeightFor_append_idle t.load h.gap_idle h.gap_length

end NpuUnit

/-- The small job, as commands: the columns of the identity, a latch and two rows. -/
theorem unit_refines_smallJob :
    let u := NpuUnit.reset fun _ => 0
    let answers := emits Accelerator.step NpuUnit.answers .init
      (emits NpuUnit.step NpuUnit.commands u smallJob.2.all)
    emits NpuUnit.step NpuUnit.sentWord u smallJob.2.all <+: answers.flatMap NpuUnit.rowWords := by
  intro u answers
  obtain ⟨hapart, hlatch⟩ := runsJob_smallJob.toJobTiming.refines (NpuUnit.empty_reset _)
    (by decide +kernel) (by decide +kernel)
  exact (unit_refines_accelerator (fun _ => 0) hapart hlatch).1

end Npu
