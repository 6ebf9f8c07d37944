import Npu.RowUnit
import Npu.UnitFlow

/-!
# Npu.UnitStatus

The status poll.  `seq_busy` has no driver, so a read of `SEQ_STATUS` answers with whatever
the wire shows, and says nothing about the unit.  An idle answer is true exactly when the
ports show that nothing is left inside (`status_poll_iff`), and a latch that follows the
last weight beat copies the new matrix for sure only from the 15th cycle on.
-/

namespace Npu

open Machine

namespace NpuUnit

variable {u : NpuUnit} {inp : In}

/-- A read of `SEQ_STATUS` answers with the wire `seq_busy`. -/
theorem seqBusy_readdata (hread : inp.avsRead = true) (haddr : inp.avsAddress = 1) :
    (u.step inp).ctrl.readdata.getLsbD 0 = inp.seqBusy := by
  have hctrl : (u.step inp).ctrl = u.ctrl.step (u.ctrlIn inp) := rfl
  have hin : (u.ctrlIn inp).seqBusy = inp.seqBusy := rfl
  rw [hctrl, (NpuCtrl.readdata_status u.ctrl (u.ctrlIn inp) hread haddr).2, hin]
  cases inp.seqBusy <;> cases (u.ctrlIn inp).seqDone <;> rfl

/-- The cycles of a weight load: `last` accepts the last of the beats, `latch` latches. -/
structure WeightLoad where
  before : List In
  load : List In
  last : In
  gap : List In
  latch : In

namespace WeightLoad

/-- The cycles up to the latch. -/
def cycles (t : WeightLoad) : List In := t.before ++ (t.load ++ [t.last]) ++ t.gap

/-- From reset, after any cycles `before`, the beats of `W` are accepted, then none up to the
latch, without drops and with the rows out of the core in the end. -/
structure Loads (t : WeightLoad) (outFifo : BitVec 3 → BitVec 256)
    (W : Fin 8 → Fin 8 → BitVec 8) : Prop where
  kept : Always step (fun u i => ¬ u.Drops i) (reset outFifo) t.cycles
  rows_out : ¬ (run step (reset outFifo) t.cycles).core.HoldsRow
  beats : (emits step acceptedWeightBeat (run step (reset outFifo) t.before)
    (t.load ++ [t.last])).map lanes = weightBeats W
  last_beat : t.last.stSinkValid = true
  gap_idle : ∀ i ∈ t.gap, i.stSinkValid = false
  latch_en : (run step (reset outFifo) t.cycles).ctrl.weightLatchEn = true

/-- The active weights after the latch. -/
def latched (t : WeightLoad) (outFifo : BitVec 3 → BitVec 256) (i j : Nat) : BitVec 8 :=
  (run step (reset outFifo) (t.cycles ++ [t.latch])).core.activeWeights i j

variable {t : WeightLoad} {outFifo : BitVec 3 → BitVec 256} {W : Fin 8 → Fin 8 → BitVec 8}

/-- From the 15th cycle after the last beat on the latch copies the new matrix. -/
theorem Loads.latched_eq (h : t.Loads outFifo W) (hgap : 14 ≤ t.gap.length) {i j : Nat}
    (hi : i < 8) (hj : j < 8) : t.latched outFifo i j = weightsOf W i j := by
  obtain ⟨u, hu⟩ : ∃ u, u = reset outFifo := ⟨_, rfl⟩
  have hR : Refines u.core (RowPipe.empty 8 32 (fun _ _ => 0) fun _ _ => 0) :=
    hu ▸ Refines.reset 8 8 32
  have hload : (RowPipe.empty 8 32 (fun _ _ => (0 : BitVec 8)) fun _ _ => 0).Loaded [] :=
    RowPipe.loaded_empty fun _ _ => 0
  obtain ⟨as, has⟩ : ∃ as, as = t.before ++ (t.load ++ [t.last]) := ⟨_, rfl⟩
  have hcycles : u.coreIns t.cycles = u.coreIns as ++ (run step u as).coreIns t.gap := by
    rw [cycles, ← has, coreIns_append]
  have hflow := flowing_of_not_holdsRow (StreamCtrl.wf_reset outFifo) (hu ▸ hR) h.kept h.rows_out
  rw [← hu, hcycles] at hflow
  have hidle : emits SystolicCore.step SystolicCore.acceptedWeight
      (run SystolicCore.step u.core (u.coreIns as)) ((run step u as).coreIns t.gap) = [] :=
    SystolicCore.emits_acceptedWeight_idle _ (idle_coreIns h.gap_idle)
  have hlen : ((run step u as).coreIns t.gap).length = t.gap.length := by rw [coreIns, length_fed]
  have hquiet := hR.quietFor_append (by decide) hflow hidle
  have hshadow := hR.shadowWeights_eq (by decide) hload.toChained hflow
    (fun s hs => hquiet s (by omega)) hi hj
  have hbeats : LoadsMatrix 8 (weightsOf W) _ := loadsMatrix_of_beats (hu ▸ h.beats)
  rw [emits_append, hidle, List.append_nil, emits_acceptedWeight, List.append_nil, has,
    emits_append, List.map_append, hbeats.nthBeat_eq _ hi hj] at hshadow
  rw [latched, run_append, run_cons, run_nil, core_step]
  rw [SystolicCore.activeWeights_latch h.latch_en hi hj, run_core, ← hu, hcycles, has]
  exact hshadow

end WeightLoad

/-- An early latch: the matrix of ones, loaded from reset without a pause, and a write of
`weight_latch_en` in every cycle from the last beat on. -/
def earlyLatch (d : Nat) : WeightLoad where
  before := [.write 0 3]
  load := List.replicate 7 (.beat 0x0101010101010101 true)
  last := { In.write 7 1 with stSinkData := 0x0101010101010101, stSinkValid := true }
  gap := List.replicate d (.write 7 1)
  latch := .idle true

theorem earlyLatch_loads {d : Nat} (hd : d < 14) :
    (earlyLatch d).Loads (fun _ => 0) (fun _ _ => 1) ∧
      (earlyLatch d).latched (fun _ => 0) 7 7 = 0 := by
  have hsim := Simulates.reset fun _ => 0
  have hno : ∀ d < 14, Always RowUnit.step RowUnit.NoOverrun (RowUnit.reset fun _ => 0)
      ((earlyLatch d).cycles ++ [(earlyLatch d).latch]) := by decide +kernel
  have hrows : ∀ d < 14, ∀ s < 15, Token.isAct ((run RowUnit.step (RowUnit.reset fun _ => 0)
      (earlyLatch d).cycles).pipe.stage s) = false := by decide +kernel
  have hen : ∀ d < 14, (run step (reset fun _ => 0)
      (earlyLatch d).cycles).ctrl.weightLatchEn = true := by decide +kernel
  have hzero : ∀ d < 14, (run RowUnit.step (RowUnit.reset fun _ => 0)
      ((earlyLatch d).cycles ++ [(earlyLatch d).latch])).pipe.active 7 7 = 0 := by decide +kernel
  have hbeats : ∀ d < 14, (emits RowUnit.step RowUnit.acceptedWeightBeat
      (run RowUnit.step (RowUnit.reset fun _ => 0) (earlyLatch d).before)
      ((earlyLatch d).load ++ [(earlyLatch d).last])).map lanes = weightBeats fun _ _ => 1 := by
    decide +kernel
  have hrun := hno d hd
  obtain ⟨hcycles, -⟩ := always_append.mp hrun
  constructor
  · refine ⟨hsim.always_not_drops hcycles, ?_, ?_, rfl, ?_, hen d hd⟩
    · rw [(hsim.run hcycles).core.holdsRow_iff]
      rintro ⟨s, hs, hact⟩
      rw [hrows d hd s hs] at hact
      cases hact
    · rw [WeightLoad.cycles, List.append_assoc, always_append, always_append] at hcycles
      rw [(hsim.run hcycles.1).emits_acceptedWeightBeat hcycles.2.1]
      exact hbeats d hd
    · intro i hi
      rw [List.eq_of_mem_replicate hi]
      rfl
  · rw [WeightLoad.latched, SystolicCore.activeWeights,
      (hsim.run hrun).core.active (by decide) (by decide)]
    exact hzero d hd

end NpuUnit

/-- **The status poll**: after any run from reset in which no cell loads a weight over a partial
sum that waits, an idle answer of `SEQ_STATUS` means an empty unit iff the undriven wire happens
to be 1, or no weight beat was accepted in the last 15 cycles and all flits of the accepted rows
are sent.  A latch `d` cycles after the last weight beat, with the rows out of the core, is sure to
copy the new matrix iff `14 ≤ d`. -/
theorem status_poll_iff (outFifo : BitVec 3 → BitVec 256) {is : List NpuUnit.In}
    {inp : NpuUnit.In}
    (hno : Always NpuUnit.step (fun u i => ¬ u.Drops i) (NpuUnit.reset outFifo) is)
    (hread : inp.avsRead = true) (haddr : inp.avsAddress = 1) (d : Nat) :
    let u := NpuUnit.reset outFifo
    let u' := run NpuUnit.step u is
    (((u'.step inp).ctrl.readdata.getLsbD 0 = false → u'.Empty) ↔
        inp.seqBusy = true ∨
          (u.NoWeightFor 15 is ∧
            (emits NpuUnit.step NpuUnit.sentFlit u is).length =
              4 * (emits NpuUnit.step NpuUnit.acceptedRowBeat u is).length)) ∧
      ((∀ (t : NpuUnit.WeightLoad) slots W, t.Loads slots W → t.gap.length = d →
        ∀ i j : Fin 8, t.latched slots i j = W i j) ↔ 14 ≤ d) := by
  intro u u'
  constructor
  · have hempty := NpuUnit.empty_iff_of_not_drops (NpuUnit.empty_reset outFifo)
      (StreamCtrl.wf_reset outFifo) hno
    rw [NpuUnit.seqBusy_readdata hread haddr, ← hempty]
    cases inp.seqBusy <;> simp [u', u]
  · constructor
    · intro h
      by_contra hd
      obtain ⟨hloads, hzero⟩ := NpuUnit.earlyLatch_loads (Nat.lt_of_not_le hd)
      have hone := h (NpuUnit.earlyLatch d) (fun _ => 0) (fun _ _ => 1) hloads
        List.length_replicate 7 7
      exact absurd (hzero.symm.trans hone) (by decide)
    · rintro hd t slots W h rfl i j
      rw [h.latched_eq hd i.isLt j.isLt, weightsOf_of_lt W i.isLt j.isLt]

/-- A read of `SEQ_STATUS`. -/
def statusPoll : NpuUnit.In := { NpuUnit.In.idle true with avsRead := true, avsAddress := 1 }

/-- Eight weight beats right behind a row: forty cycles later the idle answer is right. -/
theorem status_poll_behind_row :
    let is := (.beat 5 true :: .write 0 3 ::
      List.replicate 8 (NpuUnit.In.beat 0x0101010101010101 true)) ++
        List.replicate 40 (NpuUnit.In.idle true)
    let u := run NpuUnit.step (NpuUnit.reset fun _ => 0) is
    (u.step statusPoll).ctrl.readdata.getLsbD 0 = false → u.Empty := by
  intro is u
  have hsim := Simulates.reset fun _ => 0
  have hno : Always RowUnit.step RowUnit.NoOverrun (RowUnit.reset fun _ => 0) is := by
    decide +kernel
  have hquiet : (NpuUnit.reset fun _ => 0).NoWeightFor 15 is := by
    refine NpuUnit.noWeightFor_append_idle _ (fun i hi => ?_) (by decide)
    rw [List.eq_of_mem_replicate hi]
    rfl
  have hsent : (emits NpuUnit.step NpuUnit.sentFlit (NpuUnit.reset fun _ => 0) is).length =
      4 * (emits NpuUnit.step NpuUnit.acceptedRowBeat (NpuUnit.reset fun _ => 0) is).length := by
    rw [hsim.emits_sentFlit hno, hsim.emits_acceptedRowBeat hno]
    decide +kernel
  have hpoll := status_poll_iff (fun _ => 0) (hsim.always_not_drops hno)
    (rfl : statusPoll.avsRead = true) rfl 14
  exact hpoll.1.mpr (.inr ⟨hquiet, hsent⟩)

/-- The poll answers idle in the cycle after the last beat, with weight beats still inside;
the latch that follows leaves the old weight in the last cell. -/
theorem status_idle_while_loading :
    let is := .write 0 3 :: List.replicate 8 (NpuUnit.In.beat 0x0101010101010101 true)
    let u := run NpuUnit.step (NpuUnit.reset fun _ => 0) is
    let u' := run NpuUnit.step u [statusPoll, .idle true, .write 7 1, .idle true]
    Always NpuUnit.step (fun u i => ¬ u.Drops i) (NpuUnit.reset fun _ => 0) is ∧
      (u.step statusPoll).ctrl.readdatavalid = true ∧
      (u.step statusPoll).ctrl.readdata.getLsbD 0 = false ∧ ¬ u.Empty ∧
      (emits NpuUnit.step NpuUnit.acceptedWeightBeat (NpuUnit.reset fun _ => 0) is).map lanes =
        weightBeats (fun _ _ => 1) ∧
      u'.core.activeWeights 7 7 = 0 := by
  intro is u u'
  have hsim := Simulates.reset fun _ => 0
  have hno : Always RowUnit.step RowUnit.NoOverrun (RowUnit.reset fun _ => 0)
      (is ++ [statusPoll, .idle true, .write 7 1, .idle true]) := by decide +kernel
  obtain ⟨hnois, hnorest⟩ := always_append.mp hno
  have hu := hsim.run hnois
  refine ⟨hsim.always_not_drops hnois, by decide +kernel, by decide +kernel, ?_, ?_, ?_⟩
  · rw [hu.empty_iff]
    decide +kernel
  · rw [hsim.emits_acceptedWeightBeat hnois]
    decide +kernel
  · rw [SystolicCore.activeWeights, (hu.run hnorest).core.active (by decide) (by decide)]
    decide +kernel

end Npu
