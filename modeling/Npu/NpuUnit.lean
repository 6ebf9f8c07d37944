import Npu.CoreRows
import Npu.Ctrl
import Npu.Lib.Lanes
import Npu.StreamOrder

/-!
# Npu.NpuUnit

The top module `npu_unit`: the register file, the stream controller, the 8 × 8 core and the
single test cell, wired together.  The status wires `seq_busy` and `seq_done` have no
driver in the module, so their values are inputs of every cycle.

A run of the unit is a run of each of its components on what the others feed it
(`run_core`, `run_stream`).  Rows enter at the sink (`acceptedRowBeat`), pass from the core
to the FIFO (`takenRow_stream`) and leave as flits.
-/

namespace Npu

open Lanes Machine

/-- The registers of `npu_unit`. -/
structure NpuUnit where
  ctrl : NpuCtrl
  stream : StreamCtrl
  core : SystolicCore 8 8 32
  macPe : MacPe 8 32

namespace NpuUnit

/-- A row of the core's output on its 256-bit bus. -/
def packRow (y : Fin 8 → BitVec 32) : BitVec 256 := pack 8 fun j => y (Fin.ofNat 8 j)

/-- The four words of a row: two columns in each, the lower one in the lower half. -/
def rowWords (y : Fin 8 → BitVec 32) : List (BitVec 64) :=
  [y 1 ++ y 0, y 3 ++ y 2, y 5 ++ y 4, y 7 ++ y 6]

/-- The input ports of `npu_unit`, and the two wires without a driver. -/
structure In where
  avsAddress : BitVec 4
  avsWrite : Bool
  avsWritedata : BitVec 32
  avsRead : Bool
  stSinkData : BitVec 64
  stSinkValid : Bool
  stSourceReady : Bool
  seqBusy : Bool
  seqDone : Bool

namespace In

/-- A cycle without a beat or a bus access. -/
def idle (stSourceReady : Bool) : In where
  avsAddress := 0
  avsWrite := false
  avsWritedata := 0
  avsRead := false
  stSinkData := 0
  stSinkValid := false
  stSourceReady
  seqBusy := false
  seqDone := false

/-- The beat `data` at the sink. -/
def beat (data : BitVec 64) (stSourceReady : Bool) : In :=
  { idle stSourceReady with stSinkData := data, stSinkValid := true }

/-- A write to a system register. -/
def write (address : BitVec 4) (data : BitVec 32) : In :=
  { idle true with avsAddress := address, avsWrite := true, avsWritedata := data }

end In

/-- Reset leaves the slots of the FIFO as they are. -/
def reset (outFifo : BitVec 3 → BitVec 256) : NpuUnit where
  ctrl := .reset
  stream := .reset outFifo
  core := .reset 8 8 32
  macPe := .reset 8 32

variable (u : NpuUnit) (inp : In)

/-- What the register file sees. -/
def ctrlIn : NpuCtrl.In where
  address := inp.avsAddress
  write := inp.avsWrite
  writedata := inp.avsWritedata
  read := inp.avsRead
  seqBusy := inp.seqBusy
  seqDone := inp.seqDone
  peYOut := u.macPe.yOut

/-- What the core sees. -/
def coreIn : SystolicCore.In 8 32 where
  loadWeightIn _ := u.ctrl.seqMode.getLsbD 0 && StreamCtrl.peValidIn inp.stSinkValid
  validIn := StreamCtrl.peValidIn inp.stSinkValid
  xIn := lane 8 (StreamCtrl.peDin inp.stSinkData)
  yIn _ := 0
  weightLatchEn := u.ctrl.weightLatchEn
  readyIn := u.stream.peReadyOut

/-- What the source side of the stream controller sees. -/
def streamIn : StreamCtrl.In where
  stSourceReady := inp.stSourceReady
  seqTotalRows := u.ctrl.seqTotalRows
  peDout := pack 8 (u.core.yOut (u.coreIn inp))
  peValidOut := u.core.validOut

/-- What the test cell sees. -/
def macPeIn : MacPe.In 8 32 where
  validInX := u.ctrl.macPeCtrl.validIn
  weightShiftIn := u.ctrl.macPeCtrl.loadWeight
  xIn := u.ctrl.macPeCtrl.xIn
  readyInX := true
  validInY := u.ctrl.macPeCtrl.validIn
  yIn := u.ctrl.macPeCtrl.yIn
  readyInY := true
  weightLatchEn := true

/-- The clock edge. -/
def step : NpuUnit where
  ctrl := u.ctrl.step (u.ctrlIn inp)
  stream := u.stream.step (u.streamIn inp)
  core := u.core.step (u.coreIn inp)
  macPe := u.macPe.step (u.macPeIn)

/-! ## ports -/

def stSinkReady : Bool := StreamCtrl.stSinkReady (u.core.readyOut (u.coreIn inp))

/-- The flit transferred at the source in this cycle. -/
def sentFlit : List Flit := u.stream.sentFlit (u.streamIn inp)

/-- The word transferred at the source in this cycle. -/
def sentWord : List (BitVec 64) := (u.sentFlit inp).map (·.data)

/-- The weight beat accepted at the sink in this cycle. -/
def acceptedWeightBeat : List (BitVec 64) :=
  if inp.stSinkValid && u.stSinkReady inp && u.ctrl.seqMode.getLsbD 0 then [inp.stSinkData] else []

/-- The activation beat accepted at the sink in this cycle. -/
def acceptedRowBeat : List (BitVec 64) :=
  if inp.stSinkValid && u.stSinkReady inp && !u.ctrl.seqMode.getLsbD 0 then [inp.stSinkData]
  else []

/-! ## components -/

theorem core_step (u : NpuUnit) (inp : In) : (u.step inp).core = u.core.step (u.coreIn inp) := rfl

theorem stream_step (u : NpuUnit) (inp : In) :
    (u.step inp).stream = u.stream.step (u.streamIn inp) := rfl

/-- What the core sees along a run. -/
def coreIns (u : NpuUnit) (is : List In) : List (SystolicCore.In 8 32) := fed step coreIn u is

/-- What the stream controller sees along a run. -/
def streamIns (u : NpuUnit) (is : List In) : List StreamCtrl.In := fed step streamIn u is

theorem coreIns_append (u : NpuUnit) (as bs : List In) :
    u.coreIns (as ++ bs) = u.coreIns as ++ (run step u as).coreIns bs :=
  fed_append u as bs

theorem run_core (u : NpuUnit) (is : List In) :
    (run step u is).core = run SystolicCore.step u.core (u.coreIns is) :=
  run_proj core_step u is

theorem run_stream (u : NpuUnit) (is : List In) :
    (run step u is).stream = run StreamCtrl.step u.stream (u.streamIns is) :=
  run_proj stream_step u is

theorem emits_sentFlit (u : NpuUnit) (is : List In) :
    emits step sentFlit u is = emits StreamCtrl.step StreamCtrl.sentFlit u.stream (u.streamIns is) :=
  emits_proj stream_step StreamCtrl.sentFlit u is

theorem emits_sentWord (u : NpuUnit) (is : List In) :
    emits step sentWord u is = (emits step sentFlit u is).map (·.data) :=
  emits_map _ _ u is

variable {u inp}

theorem uniform_coreIn : (u.coreIn inp).Uniform 8 := fun _ _ _ => rfl

theorem words_packRow (y : Fin 8 → BitVec 32) : StreamCtrl.words (packRow y) = rowWords y := by
  have hlane : ∀ j : Fin 8, lane 32 (packRow y) j = y j := by
    intro j
    rw [packRow, lane_pack _ j.isLt, Fin.ofNat_val_eq_self]
  have hword : ∀ (f : Nat) (a b : Fin 8), a.val = 2 * f + 1 → b.val = 2 * f →
      (packRow y).extractLsb' (64 * f) 64 = y a ++ y b := by
    intro f a b ha hb
    have hstart : 64 * f = 2 * f * 32 := by omega
    rw [hstart, ← hlane a, ← hlane b, ha, hb]
    exact pair_eq 32 (packRow y) f
  have hwords : StreamCtrl.words (packRow y) =
      [(packRow y).extractLsb' (64 * 0) 64, (packRow y).extractLsb' (64 * 1) 64,
        (packRow y).extractLsb' (64 * 2) 64, (packRow y).extractLsb' (64 * 3) 64] := rfl
  rw [hwords, hword 0 1 0 rfl rfl, hword 1 3 2 rfl rfl, hword 2 5 4 rfl rfl, hword 3 7 6 rfl rfl,
    rowWords]

theorem length_flatMap_rowWords (rows : List (Fin 8 → BitVec 32)) :
    (rows.flatMap rowWords).length = 4 * rows.length := by
  simp [List.length_flatMap, rowWords, Nat.mul_comm]

/-- The rows that the FIFO takes are those that leave the core. -/
theorem takenRow_stream :
    u.stream.takenRow (u.streamIn inp) = (u.core.takenRow (u.coreIn inp)).map packRow := by
  have hrow : pack 8 (u.core.yOut (u.coreIn inp)) =
      packRow fun j => u.core.yOut (u.coreIn inp) j :=
    pack_congr fun j hj => congrArg _ (Nat.mod_eq_of_lt hj).symm
  have htaken : u.stream.takenRow (u.streamIn inp) =
      if u.core.validOut && u.stream.peReadyOut then [pack 8 (u.core.yOut (u.coreIn inp))]
      else [] := rfl
  have hready : (u.coreIn inp).readyIn = u.stream.peReadyOut := rfl
  rw [htaken, SystolicCore.takenRow, hrow, hready]
  split <;> rfl

@[simp] theorem coreIn_validIn : (u.coreIn inp).validIn = inp.stSinkValid := rfl

@[simp] theorem coreIn_loadWeightIn (i : Nat) :
    (u.coreIn inp).loadWeightIn i = (u.ctrl.seqMode.getLsbD 0 && inp.stSinkValid) := rfl

@[simp] theorem coreIn_xIn : (u.coreIn inp).xIn = lane 8 inp.stSinkData := rfl

/-- The rows that the core accepts are the lanes of the activation beats. -/
theorem acceptedRow_core :
    (u.core.acceptedRow (u.coreIn inp)).map (·.xIn) = (u.acceptedRowBeat inp).map (lane 8) := by
  rw [SystolicCore.acceptedRow, acceptedRowBeat, stSinkReady, StreamCtrl.stSinkReady, coreIn_validIn,
    coreIn_loadWeightIn]
  cases inp.stSinkValid <;> cases u.ctrl.seqMode.getLsbD 0 <;>
    cases u.core.readyOut (u.coreIn inp) <;> rfl

theorem acceptedWeight_core :
    u.core.acceptedWeight (u.coreIn inp) = (u.acceptedWeightBeat inp).map (lane 8) := by
  rw [SystolicCore.acceptedWeight, acceptedWeightBeat, stSinkReady, StreamCtrl.stSinkReady,
    coreIn_validIn, coreIn_loadWeightIn]
  cases inp.stSinkValid <;> cases u.ctrl.seqMode.getLsbD 0 <;>
    cases u.core.readyOut (u.coreIn inp) <;> rfl

/-! ## along a run -/

theorem emits_acceptedRow (u : NpuUnit) (is : List In) :
    (emits SystolicCore.step SystolicCore.acceptedRow u.core (u.coreIns is)).map (·.xIn) =
      (emits step acceptedRowBeat u is).map (lane 8) := by
  rw [coreIns, ← emits_proj core_step, ← emits_map, ← emits_map]
  exact congrArg (fun obs => emits step obs u is) (funext₂ fun u i => acceptedRow_core)

theorem emits_acceptedWeight (u : NpuUnit) (is : List In) :
    emits SystolicCore.step SystolicCore.acceptedWeight u.core (u.coreIns is) =
      (emits step acceptedWeightBeat u is).map (lane 8) := by
  rw [coreIns, ← emits_proj core_step, ← emits_map]
  exact congrArg (fun obs => emits step obs u is) (funext₂ fun u i => acceptedWeight_core)

theorem emits_takenRow (u : NpuUnit) (is : List In) :
    emits StreamCtrl.step StreamCtrl.takenRow u.stream (u.streamIns is) =
      (emits SystolicCore.step SystolicCore.takenRow u.core (u.coreIns is)).map packRow := by
  rw [streamIns, coreIns, ← emits_proj core_step, ← emits_proj stream_step, ← emits_map]
  exact congrArg (fun obs => emits step obs u is) (funext₂ fun u i => takenRow_stream)

/-- **Words along a run**: those pending in the stream controller and those of the rows that
leave the core have been sent, in order, or are pending. -/
theorem words_run (h : u.stream.Wf) (is : List In) :
    u.stream.pendingWords ++
        (emits SystolicCore.step SystolicCore.takenRow u.core (u.coreIns is)).flatMap rowWords =
      emits step sentWord u is ++ (run step u is).stream.pendingWords := by
  have hwords := StreamCtrl.words_run h (u.streamIns is)
  rw [emits_takenRow, ← run_stream, ← emits_sentFlit, ← emits_sentWord, List.flatMap_map] at hwords
  have hrow : (fun y => StreamCtrl.words (packRow y)) = rowWords := funext words_packRow
  rw [hrow] at hwords
  exact hwords

/-! ## the empty unit -/

/-- No beat is inside the core and no row in the FIFO or the serializer. -/
structure Empty (u : NpuUnit) : Prop where
  drained : u.core.Drained
  fifo : u.stream.fifoCount = 0
  serializer : u.stream.txActive = false

theorem empty_reset (outFifo : BitVec 3 → BitVec 256) : (reset outFifo).Empty where
  drained := SystolicCore.drained_reset 8 8 32
  fifo := rfl
  serializer := rfl

theorem wf_run (h : u.stream.Wf) (is : List In) : (run step u is).stream.Wf := by
  rw [run_stream]
  exact h.run _

end NpuUnit

end Npu
