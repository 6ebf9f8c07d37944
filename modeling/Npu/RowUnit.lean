import Npu.NpuUnit

/-!
# Npu.RowUnit

The unit over the row pipeline: `npu_unit` with the 8 × 8 core replaced by what it refines.
As long as no weight beat overruns a row, both accept the same beats and send the
same flits (`Simulates.step`).
-/

namespace Npu

open Lanes Machine

/-- The unit with a row pipeline for its core. -/
structure RowUnit where
  ctrl : NpuCtrl
  stream : StreamCtrl
  pipe : RowPipe 8 8 32
  macPe : MacPe 8 32

namespace RowUnit

/-- Reset, over an empty pipeline. -/
def reset (outFifo : BitVec 3 → BitVec 256) : RowUnit where
  ctrl := .reset
  stream := .reset outFifo
  pipe := .empty 8 32 (fun _ _ => 0) (fun _ _ => 0)
  macPe := .reset 8 32

variable (r : RowUnit) (inp : NpuUnit.In)

/-- The unit around the pipeline, over a core that nothing below looks at. -/
def shell : NpuUnit where
  ctrl := r.ctrl
  stream := r.stream
  core := .reset 8 8 32
  macPe := r.macPe

/-- What the pipeline sees is what a core in its place sees. -/
def coreIn : SystolicCore.In 8 32 := r.shell.coreIn inp

/-- What the source side of the stream controller sees: the row at the end of the pipeline. -/
def streamIn : StreamCtrl.In :=
  { r.shell.streamIn inp with
    peDout := pack 8 r.pipe.yOut
    peValidOut := r.pipe.validOut }

/-- The clock edge. -/
def step : RowUnit where
  ctrl := r.ctrl.step (r.shell.ctrlIn inp)
  stream := r.stream.step (r.streamIn inp)
  pipe := r.pipe.step (r.coreIn inp)
  macPe := r.macPe.step r.shell.macPeIn

/-- The flit transferred in this cycle. -/
def sentFlit : List Flit := r.stream.sentFlit (r.streamIn inp)

/-- The weight beat that the pipeline accepts in this cycle. -/
def acceptedWeightBeat : List (BitVec 64) :=
  if inp.stSinkValid && r.pipe.readyOut (r.coreIn inp) && r.ctrl.seqMode.getLsbD 0 then
    [inp.stSinkData]
  else []

/-- The activation beat that the pipeline accepts in this cycle. -/
def acceptedRowBeat : List (BitVec 64) :=
  if inp.stSinkValid && r.pipe.readyOut (r.coreIn inp) && !r.ctrl.seqMode.getLsbD 0 then
    [inp.stSinkData]
  else []

/-- No weight beat overruns a row in the row unit. -/
def NoOverrun : Prop := ¬ r.pipe.Overruns (r.coreIn inp)

/-- Nothing is inside. -/
def Empty : Prop :=
  (∀ s < 2 * 8 - 1, (r.pipe.stage s).isNone = true) ∧ r.stream.fifoCount = 0 ∧
    r.stream.txActive = false

end RowUnit

instance (r : RowUnit) : Decidable r.Empty := inferInstanceAs (Decidable (_ ∧ _ ∧ _))

instance (p : RowPipe n dw aw) (inp : SystolicCore.In dw aw) : Decidable (p.Overruns inp) :=
  decidable_of_iff (∃ s < 2 * n - 1, n - 1 ≤ s ∧ p.overrunAt inp s = true)
    ⟨fun ⟨s, hs, hn, h⟩ => ⟨s, hn, hs, h⟩, fun ⟨s, hn, hs, h⟩ => ⟨s, hs, hn, h⟩⟩

instance (r : RowUnit) (inp : NpuUnit.In) : Decidable (r.NoOverrun inp) :=
  inferInstanceAs (Decidable (¬ _))

/-- Without a row at its port the stream controller ignores the bus. -/
theorem StreamCtrl.step_of_not_valid (c : StreamCtrl) {i j : StreamCtrl.In}
    (hready : i.stSourceReady = j.stSourceReady) (htotal : i.seqTotalRows = j.seqTotalRows)
    (hi : i.peValidOut = false) (hj : j.peValidOut = false) : c.step i = c.step j := by
  have hpush : c.fifoPush i = false ∧ c.fifoPush j = false := by
    simp [fifoPush, hi, hj]
  have hpop : c.fifoPop i = c.fifoPop j := by rw [fifoPop, fifoPop, hready]
  have htx : c.txStep i = c.txStep j := by rw [txStep, txStep, hready, htotal]
  rw [step, step, hpush.1, hpush.2, hpop, htx]
  rfl

theorem StreamCtrl.sentFlit_congr (c : StreamCtrl) {i j : StreamCtrl.In}
    (hready : i.stSourceReady = j.stSourceReady) (htotal : i.seqTotalRows = j.seqTotalRows) :
    c.sentFlit i = c.sentFlit j := by
  rw [sentFlit, sentFlit, hready, htotal]

/-- The unit and its row unit. -/
structure Simulates (u : NpuUnit) (r : RowUnit) : Prop where
  ctrl : u.ctrl = r.ctrl
  stream : u.stream = r.stream
  macPe : u.macPe = r.macPe
  core : Refines u.core r.pipe

namespace Simulates

variable {u : NpuUnit} {r : RowUnit} {inp : NpuUnit.In}

theorem reset (outFifo : BitVec 3 → BitVec 256) :
    Simulates (NpuUnit.reset outFifo) (RowUnit.reset outFifo) where
  ctrl := rfl
  stream := rfl
  macPe := rfl
  core := Refines.reset 8 8 32

theorem coreIn_eq (h : Simulates u r) : u.coreIn inp = r.coreIn inp := by
  rw [NpuUnit.coreIn, h.ctrl, h.stream]
  rfl

theorem stream_step_eq (h : Simulates u r) :
    u.stream.step (u.streamIn inp) = r.stream.step (r.streamIn inp) := by
  have hvalid : u.core.validOut = r.pipe.validOut := h.core.validOut_eq (by decide)
  rw [h.stream]
  cases hv : r.pipe.validOut with
  | false =>
      have htotal : (u.streamIn inp).seqTotalRows = (r.streamIn inp).seqTotalRows :=
        congrArg NpuCtrl.seqTotalRows h.ctrl
      exact StreamCtrl.step_of_not_valid _ rfl htotal (hvalid.trans hv) hv
  | true =>
      have hrow : pack 8 (u.core.yOut (u.coreIn inp)) = pack 8 r.pipe.yOut :=
        pack_congr fun j hj => h.core.yOut_eq hj hv
      rw [NpuUnit.streamIn, hrow, hvalid, h.ctrl]
      rfl

theorem sentFlit_eq (h : Simulates u r) : u.sentFlit inp = r.sentFlit inp := by
  have htotal : (u.streamIn inp).seqTotalRows = (r.streamIn inp).seqTotalRows :=
    congrArg NpuCtrl.seqTotalRows h.ctrl
  rw [NpuUnit.sentFlit, RowUnit.sentFlit, h.stream]
  exact StreamCtrl.sentFlit_congr _ rfl htotal

theorem step (h : Simulates u r) (hno : r.NoOverrun inp) :
    Simulates (u.step inp) (r.step inp) where
  ctrl := by
    have hin : u.ctrlIn inp = r.shell.ctrlIn inp := by
      rw [NpuUnit.ctrlIn, h.macPe]
      rfl
    rw [NpuUnit.step, RowUnit.step, h.ctrl, hin]
  stream := h.stream_step_eq
  macPe := by
    have hin : u.macPeIn = r.shell.macPeIn := by
      rw [NpuUnit.macPeIn, h.ctrl]
      rfl
    rw [NpuUnit.step, RowUnit.step, h.macPe, hin]
  core := by
    rw [NpuUnit.core_step, h.coreIn_eq]
    exact h.core.step (h.coreIn_eq ▸ NpuUnit.uniform_coreIn) hno

theorem readyOut_eq (h : Simulates u r) (hno : r.NoOverrun inp) :
    u.stSinkReady inp = r.pipe.readyOut (r.coreIn inp) := by
  rw [NpuUnit.stSinkReady, StreamCtrl.stSinkReady, h.coreIn_eq]
  exact h.core.readyOut_eq (by decide) (h.coreIn_eq ▸ NpuUnit.uniform_coreIn)
    ((r.pipe.clearFrom_zero _).mpr hno)

theorem acceptedWeightBeat_eq (h : Simulates u r) (hno : r.NoOverrun inp) :
    u.acceptedWeightBeat inp = r.acceptedWeightBeat inp := by
  rw [NpuUnit.acceptedWeightBeat, RowUnit.acceptedWeightBeat, h.readyOut_eq hno, h.ctrl]

theorem acceptedRowBeat_eq (h : Simulates u r) (hno : r.NoOverrun inp) :
    u.acceptedRowBeat inp = r.acceptedRowBeat inp := by
  rw [NpuUnit.acceptedRowBeat, RowUnit.acceptedRowBeat, h.readyOut_eq hno, h.ctrl]

theorem empty_iff (h : Simulates u r) : u.Empty ↔ r.Empty := by
  have hdrained : u.core.Drained ↔ ∀ s < 2 * 8 - 1, (r.pipe.stage s).isNone = true := by
    simp only [h.core.drained_iff, Option.isNone_iff_eq_none]
  rw [RowUnit.Empty, ← hdrained, ← h.stream]
  exact ⟨fun he => ⟨he.drained, he.fifo, he.serializer⟩, fun ⟨hd, hf, hs⟩ => ⟨hd, hf, hs⟩⟩

end Simulates

section
variable {u : NpuUnit} {r : RowUnit} {is : List NpuUnit.In}

/-- **The row unit runs along.** -/
theorem Simulates.run (h : Simulates u r) (hno : Always RowUnit.step RowUnit.NoOverrun r is) :
    Simulates (Machine.run NpuUnit.step u is) (Machine.run RowUnit.step r is) := by
  induction is generalizing u r with
  | nil => exact h
  | cons i is ih => exact ih (h.step hno.1) hno.2

/-- What the row unit sees at its ports is what the unit sees. -/
theorem Simulates.emits {ω : Type} (h : Simulates u r)
    (hno : Always RowUnit.step RowUnit.NoOverrun r is) {obs : NpuUnit → NpuUnit.In → List ω}
    {obs' : RowUnit → NpuUnit.In → List ω}
    (hobs : ∀ u r i, Simulates u r → r.NoOverrun i → obs u i = obs' r i) :
    Machine.emits NpuUnit.step obs u is = Machine.emits RowUnit.step obs' r is := by
  induction is generalizing u r with
  | nil => rfl
  | cons i is ih => rw [emits_cons, emits_cons, hobs u r i h hno.1, ih (h.step hno.1) hno.2]

theorem Simulates.emits_acceptedWeightBeat (h : Simulates u r)
    (hno : Always RowUnit.step RowUnit.NoOverrun r is) :
    Machine.emits NpuUnit.step NpuUnit.acceptedWeightBeat u is =
      Machine.emits RowUnit.step RowUnit.acceptedWeightBeat r is :=
  h.emits hno fun _ _ _ h hno => h.acceptedWeightBeat_eq hno

theorem Simulates.emits_acceptedRowBeat (h : Simulates u r)
    (hno : Always RowUnit.step RowUnit.NoOverrun r is) :
    Machine.emits NpuUnit.step NpuUnit.acceptedRowBeat u is =
      Machine.emits RowUnit.step RowUnit.acceptedRowBeat r is :=
  h.emits hno fun _ _ _ h hno => h.acceptedRowBeat_eq hno

theorem Simulates.emits_sentFlit (h : Simulates u r)
    (hno : Always RowUnit.step RowUnit.NoOverrun r is) :
    Machine.emits NpuUnit.step NpuUnit.sentFlit u is =
      Machine.emits RowUnit.step RowUnit.sentFlit r is :=
  h.emits hno fun _ _ _ h _ => h.sentFlit_eq

end

end Npu
