import Npu.RowResults
import Npu.UnitApart
import Npu.UnitJobs

/-!
# Npu.UnitOverlap

Loading the next weights behind a computation.  A weight beat does not ask the partial sum in
its cell: where that sum waits for the cell below, the load drops it.  A run computes all its
rows and keeps all its waiting results exactly when this never happens
(`rows_survive_loads_iff`).
-/

namespace Npu

open Lanes Machine

namespace NpuUnit

variable {u : NpuUnit} {is : List In}

/-- Some cell loads a weight over a partial sum that waits. -/
def Drops (u : NpuUnit) (inp : In) : Prop := u.core.Drops (u.coreIn inp)

/-- Every result that waits in the core is kept. -/
def KeepsWaiting (u : NpuUnit) (inp : In) : Prop := u.core.KeepsWaiting (u.coreIn inp)

theorem lockstep_of_not_drops (his : Always step (fun u i => ¬ u.Drops i) u is) :
    Always SystolicCore.step Refines.Lockstep u.core (u.coreIns is) := by
  rw [coreIns, ← always_proj core_step]
  exact his.imp fun _ _ hno => ⟨uniform_coreIn, hno⟩

/-- A run keeps its waiting results iff no cell drops one. -/
theorem always_keepsWaiting_iff {p : RowPipe 8 8 32} (hR : Refines u.core p) :
    Always step KeepsWaiting u is ↔ Always step (fun u i => ¬ u.Drops i) u is := by
  induction is generalizing u p with
  | nil => exact Iff.rfl
  | cons i is ih =>
      have hone : u.KeepsWaiting i ↔ ¬ u.Drops i :=
        SystolicCore.keepsWaiting_iff hR (by decide) uniform_coreIn
      rw [always_cons, always_cons, hone]
      refine and_congr_right fun hno => ?_
      have hl : Refines.Lockstep u.core (u.coreIn i) := ⟨uniform_coreIn, hno⟩
      exact ih (hR.step_of_lockstep hl)

/-- The words of a run without drops: `old` are the rows from before, the other ones are the
products of the rows accepted since. -/
structure Computes (u : NpuUnit) (before since : List In) (W : Fin 8 → Fin 8 → BitVec 8)
    (old : List (Fin 8 → BitVec 32)) : Prop where
  length_old : old.length = (emits step acceptedRowBeat u before).length
  sent_order : emits step sentWord u (before ++ since) <+:
    (old ++ (emits step acceptedRowBeat (run step u before) since).map
      fun data => product W (lanes data)).flatMap rowWords
  sent_all : (run step u (before ++ since)).Empty →
    emits step sentWord u (before ++ since) =
      (old ++ (emits step acceptedRowBeat (run step u before) since).map
        fun data => product W (lanes data)).flatMap rowWords

/-- The rows of a run without drops, left or inside: `old` are those accepted before, the other
ones are the products of the rows accepted since. -/
theorem rows_of_not_drops {before since : List In} {W : Fin 8 → Fin 8 → BitVec 8}
    {p : RowPipe 8 8 32} (hR : Refines u.core p) (hrows : p.rows = [])
    (hW : ∀ i j : Fin 8, (run step u before).core.activeWeights i j = W i j)
    (hlatch : Always step (fun u _ => u.ctrl.weightLatchEn = false) (run step u before) since)
    (hno : Always step (fun u i => ¬ u.Drops i) u (before ++ since)) :
    ∃ old, old.length = (emits step acceptedRowBeat u before).length ∧
      old ++ (emits step acceptedRowBeat (run step u before) since).map
          (fun data => product W (lanes data)) =
        emits SystolicCore.step SystolicCore.takenRow u.core (u.coreIns (before ++ since)) ++
          (run RowPipe.step p (u.coreIns (before ++ since))).results (weightsOf W) := by
  have hl := lockstep_of_not_drops hno
  rw [coreIns_append, always_append, ← run_core] at hl
  obtain ⟨hlb, hls⟩ := hl
  obtain ⟨q, hq⟩ : ∃ q, q = run RowPipe.step p (u.coreIns before) := ⟨_, rfl⟩
  have hRq : Refines (run step u before).core q := by
    rw [run_core, hq]
    exact hR.run hlb
  have hactive : ∀ i j, i < 8 → j < 8 → q.active i j = weightsOf W i j := by
    intro i j hi hj
    rw [← hRq.active hi hj, weightsOf_of_lt W hi hj]
    exact hW ⟨i, hi⟩ ⟨j, hj⟩
  -- since then the results inside and those of the accepted rows leave in order
  have hshow : ∀ i ∈ (run step u before).coreIns since,
      i.weightLatchEn = false ∧ i.Shows 8 fun _ => 0 :=
    forall_mem_fed.mpr (hlatch.imp fun _ _ hlatch => ⟨hlatch, fun _ _ => rfl⟩)
  have hresults := q.results_run (by decide) hactive hshow
  rw [← hRq.emits_acceptedRow (by decide) hls, ← hRq.emits_takenRow (by decide) hls,
    map_outRow_acceptedRow] at hresults
  have haccepted := congrArg List.length (emits_acceptedRow u before)
  rw [List.length_map, List.length_map, hR.length_acceptedRow (by decide) hrows hlb, ← hq]
    at haccepted
  refine ⟨emits SystolicCore.step SystolicCore.takenRow u.core (u.coreIns before) ++
    q.results (weightsOf W), ?_, ?_⟩
  · rw [List.length_append, q.length_results, haccepted]
  · rw [List.append_assoc, hresults, coreIns_append, emits_append, run_append, ← run_core, ← hq,
      List.append_assoc]

/-- In an empty unit no results are left inside. -/
theorem results_of_empty {p : RowPipe 8 8 32} {W : Nat → Nat → BitVec 8} (hR : Refines u.core p)
    (hno : Always step (fun u i => ¬ u.Drops i) u is) (hempty : (run step u is).Empty) :
    (run RowPipe.step p (u.coreIns is)).results W = [] := by
  have hR' := hR.run (lockstep_of_not_drops hno)
  rw [← run_core] at hR'
  have hnone := (RowPipe.stage_none_iff.mp (hR'.drained_iff.mp hempty.drained)).1
  rw [← List.length_eq_zero_iff, RowPipe.length_results, hnone, List.length_nil]

theorem computes_of_not_drops {before since : List In} {W : Fin 8 → Fin 8 → BitVec 8}
    (hu : u.Empty) (hwf : u.stream.Wf)
    (hW : ∀ i j : Fin 8, (run step u before).core.activeWeights i j = W i j)
    (hlatch : Always step (fun u _ => u.ctrl.weightLatchEn = false) (run step u before) since)
    (hno : Always step (fun u i => ¬ u.Drops i) u (before ++ since)) :
    ∃ old, u.Computes before since W old := by
  obtain ⟨p, -, hR, -, -, hrows⟩ := Refines.exists_loaded hu.drained
  obtain ⟨old, hlen, hold⟩ := rows_of_not_drops hR hrows hW hlatch hno
  have hwords := words_run hwf (before ++ since)
  rw [hu.pendingWords hwf, List.nil_append] at hwords
  have hall : (old ++ (emits step acceptedRowBeat (run step u before) since).map
      fun data => product W (lanes data)).flatMap rowWords =
      emits step sentWord u (before ++ since) ++
        ((run step u (before ++ since)).stream.pendingWords ++
          ((run RowPipe.step p (u.coreIns (before ++ since))).results
            (weightsOf W)).flatMap rowWords) := by
    rw [hold, List.flatMap_append, hwords, List.append_assoc]
  refine ⟨old, hlen, ?_, fun hempty => ?_⟩
  · rw [hall]
    exact List.prefix_append _ _
  · rw [hall, hempty.pendingWords (wf_run hwf _),
      results_of_empty hR hno hempty]
    simp

end NpuUnit

/-- **Loads behind rows**: take any run from reset in which no latch comes after `before`, with
any beats of either kind.  All rows accepted come out once, in order, those accepted since
as products with the active weights, and no waiting result is lost, iff no cell ever
loads a weight over a partial sum that waits. -/
theorem rows_survive_loads_iff (outFifo : BitVec 3 → BitVec 256) (before : List NpuUnit.In)
    {since : List NpuUnit.In}
    (hlatch : Always NpuUnit.step (fun u _ => u.ctrl.weightLatchEn = false)
      (run NpuUnit.step (NpuUnit.reset outFifo) before) since) :
    let u := NpuUnit.reset outFifo
    let W : Fin 8 → Fin 8 → BitVec 8 := fun i j =>
      (run NpuUnit.step u before).core.activeWeights i j
    (∃ old, u.Computes before since W old) ∧
        Always NpuUnit.step NpuUnit.KeepsWaiting u (before ++ since) ↔
      Always NpuUnit.step (fun u i => ¬ u.Drops i) u (before ++ since) := by
  intro u W
  have hkeep : Always NpuUnit.step NpuUnit.KeepsWaiting u (before ++ since) ↔ _ :=
    NpuUnit.always_keepsWaiting_iff (Refines.reset 8 8 32)
  rw [hkeep]
  refine ⟨fun h => h.2, fun hno => ⟨?_, hno⟩⟩
  exact NpuUnit.computes_of_not_drops (NpuUnit.empty_reset outFifo) (StreamCtrl.wf_reset outFifo)
    (fun _ _ => rfl) hlatch hno

/-- Where the row unit overruns no row, nothing is dropped. -/
theorem Simulates.always_not_drops {u : NpuUnit} {r : RowUnit} {is : List NpuUnit.In}
    (h : Simulates u r) (hno : Always RowUnit.step RowUnit.NoOverrun r is) :
    Always NpuUnit.step (fun u i => ¬ u.Drops i) u is := by
  induction is generalizing u r with
  | nil => trivial
  | cons i is ih =>
      have hover : ¬ r.pipe.Overruns (u.coreIn i) := by
        rw [h.coreIn_eq]
        exact hno.1
      exact ⟨h.core.not_drops NpuUnit.uniform_coreIn hover, ih (h.step hno.1) hno.2⟩

/-- Eight weight beats right behind a row: with the source ready nothing is lost. -/
theorem rows_survive_loads_open :
    let u := NpuUnit.reset fun _ => 0
    let since := NpuUnit.In.beat 0x0807060504030201 true :: .write 0 3 ::
      List.replicate 8 (.beat 0xff00ff00ff00ff00 true) ++ List.replicate 20 (.idle true)
    (∃ old, u.Computes smallJob.2.loading since (fun i j => if i = j then 1 else 0) old) ∧
      Always NpuUnit.step NpuUnit.KeepsWaiting u (smallJob.2.loading ++ since) := by
  intro u since
  have hsim := Simulates.reset fun _ => 0
  have hno : Always RowUnit.step RowUnit.NoOverrun (RowUnit.reset fun _ => 0)
      (smallJob.2.loading ++ since) := by decide +kernel
  have hlatch : Always NpuUnit.step (fun u _ => u.ctrl.weightLatchEn = false)
      (run NpuUnit.step u smallJob.2.loading) since := by decide +kernel
  have hactive : (fun i j : Fin 8 =>
      (run NpuUnit.step u smallJob.2.loading).core.activeWeights i j) =
      fun i j => if i = j then 1 else 0 := by
    obtain ⟨p, hR, hp, -⟩ := runsJob_smallJob.loaded (NpuUnit.empty_reset _)
    funext i j
    rw [SystolicCore.activeWeights, hR.active i.isLt j.isLt, hp.active i j i.isLt j.isLt,
      weightsOf_of_lt _ i.isLt j.isLt]
    rfl
  have h := (rows_survive_loads_iff (fun _ => 0) smallJob.2.loading hlatch).mpr
    (hsim.always_not_drops hno)
  rw [hactive] at h
  exact h

/-- Ten rows fill the FIFO, the serializer and the end of the core under back-pressure; the weight
beat behind them drops a partial sum of the tenth one. -/
theorem load_drops_waiting_result :
    let u := NpuUnit.reset fun _ => 0
    let is := List.replicate 10 (NpuUnit.In.beat 0x0101010101010101 false) ++
      List.replicate 18 (.idle false) ++
      { NpuUnit.In.write 0 3 with stSourceReady := false } :: .beat 5 false ::
        List.replicate 13 (.idle false)
    let v := run NpuUnit.step u is
    Always NpuUnit.step (fun u _ => u.ctrl.weightLatchEn = false) u (is ++ [.idle false]) ∧
      (emits NpuUnit.step NpuUnit.acceptedRowBeat u is).length = 10 ∧
      emits NpuUnit.step NpuUnit.sentFlit u is = [] ∧
      ∃ i < 8, ∃ j < 8, (v.core.pe i j).stallY (v.core.pins (v.coreIn (.idle false)) i j) = true ∧
        ((v.step (.idle false)).core.pe i j).validOutY = false := by
  intro u is v
  have hsim := Simulates.reset fun _ => 0
  have hno : Always RowUnit.step RowUnit.NoOverrun (RowUnit.reset fun _ => 0) is := by
    decide +kernel
  have hv := hsim.run hno
  have hover : (run RowUnit.step (RowUnit.reset fun _ => 0) is).pipe.overrunAt
      ((run RowUnit.step (RowUnit.reset fun _ => 0) is).coreIn (.idle false)) 14 = true := by
    decide +kernel
  rw [← hv.coreIn_eq] at hover
  have hdrop : v.core.Drops (v.coreIn (.idle false)) :=
    hv.core.drops_of_overrunAt NpuUnit.uniform_coreIn (by decide) (by decide) hover
      fun t hlo _ hhi => by omega
  obtain ⟨i, hi, j, hj, hload, hstall⟩ := hdrop
  refine ⟨by decide +kernel, ?_, ?_, i, hi, j, hj, hstall, ?_⟩
  · rw [hsim.emits_acceptedRowBeat hno]
    decide +kernel
  · rw [hsim.emits_sentFlit hno]
    decide +kernel
  · rw [NpuUnit.core_step, SystolicCore.pe_step _ _ hi hj]
    exact (MacPe.step_of_fireLoad _ _ hload).2.2.2.1

end Npu
