import Npu.UnitFrames

/-!
# Npu.UnitPorts

The two sides of `npu_unit` and what passes between them.  The stream ports see of the bus only
the writes to registers 0, 6 and 7; the bus sees nothing of the stream (`ports_isolated`).

The datapath captures no data without a valid bit, so two cycles with the same beat (`Same`) have
the same effect on a cell (`MacPe.step_same`), on the array, on the core and on the unit.
-/

namespace Npu

open Machine

/-! ## one cell -/

namespace MacPe

/-- The same inputs but for the data of a cycle without a beat. -/
structure In.Same (i i' : In dw aw) : Prop where
  validInX : i.validInX = i'.validInX
  beat : i.validInX = true → i.xIn = i'.xIn ∧ i.weightShiftIn = i'.weightShiftIn
  readyInX : i.readyInX = i'.readyInX
  validInY : i.validInY = i'.validInY
  yIn : i.yIn = i'.yIn
  readyInY : i.readyInY = i'.readyInY
  weightLatchEn : i.weightLatchEn = i'.weightLatchEn

variable {i i' : In dw aw}

theorem In.Same.eq_of_valid (h : i.Same i') (hv : i.validInX = true) : i = i' := by
  obtain ⟨hx, hw⟩ := h.beat hv
  cases i
  cases i'
  simp only [In.mk.injEq]
  exact ⟨h.validInX, hw, hx, h.readyInX, h.validInY, h.yIn, h.readyInY, h.weightLatchEn⟩

theorem In.Same.fire_eq (h : i.Same i') (p : MacPe dw aw) :
    p.fireLoad i = p.fireLoad i' ∧ p.fireCalc i = p.fireCalc i' := by
  cases hv : i.validInX with
  | true => simp [h.eq_of_valid hv]
  | false => simp [fireLoad, fireCalc, hv, ← h.validInX]

theorem step_same (h : i.Same i') (p : MacPe dw aw) : p.step i = p.step i' := by
  obtain ⟨hload, hcalc⟩ := h.fire_eq p
  cases hv : i.validInX with
  | true => rw [h.eq_of_valid hv]
  | false =>
      have hidle : p.fireLoad i = false ∧ p.fireCalc i = false := by simp [fireLoad, fireCalc, hv]
      simp [step, ← hload, ← hcalc, hidle, nextActive, h.readyInX, h.readyInY, h.weightLatchEn]

end MacPe

/-! ## the array -/

namespace SystolicArray

/-- The same inputs but for the data of rows without a beat. -/
structure In.Same (inp inp' : In dw aw) : Prop where
  validIn : inp.validIn = inp'.validIn
  beat (i : Nat) : inp.validIn i = true →
    inp.xIn i = inp'.xIn i ∧ inp.loadWeightIn i = inp'.loadWeightIn i
  yIn : inp.yIn = inp'.yIn
  weightLatchEn : inp.weightLatchEn = inp'.weightLatchEn
  readyIn : inp.readyIn = inp'.readyIn

variable {inp inp' : In dw aw} (a : SystolicArray n dw aw)

theorem In.Same.peIn (h : inp.Same inp') (rx ry : Bool) (i j : Nat) :
    (a.peIn inp rx ry i j).Same (a.peIn inp' rx ry i j) where
  validInX := by cases j <;> simp [SystolicArray.peIn, vWireX, h.validIn]
  beat hv := by
    cases j with
    | zero => exact h.beat i hv
    | succ j => exact ⟨rfl, rfl⟩
  readyInX := rfl
  validInY := rfl
  yIn := by cases i <;> simp [SystolicArray.peIn, yWire, h.yIn]
  readyInY := rfl
  weightLatchEn := h.weightLatchEn

theorem In.Same.peReady_eq (h : inp.Same inp') (fuel i j : Nat) :
    a.peReady inp fuel i j = a.peReady inp' fuel i j := by
  induction fuel generalizing i j with
  | zero => rfl
  | succ fuel ih =>
      obtain ⟨hload, hcalc⟩ := (h.peIn a (if j + 1 = n then true else (a.peReady inp' fuel i (j + 1)).1)
        (if i + 1 = n then inp'.readyIn j else (a.peReady inp' fuel (i + 1) j).2) i j).fire_eq (a.pe i j)
      simp only [peReady, ih, h.readyIn, MacPe.readyOutX, MacPe.readyOutY, MacPe.fire, hload, hcalc]

theorem In.Same.rWireX_eq (h : inp.Same inp') (i j : Nat) : a.rWireX inp i j = a.rWireX inp' i j := by
  rw [rWireX, rWireX, h.peReady_eq]

theorem In.Same.rWireY_eq (h : inp.Same inp') (i j : Nat) : a.rWireY inp i j = a.rWireY inp' i j := by
  rw [rWireY, rWireY, h.peReady_eq, h.readyIn]

theorem step_same (h : inp.Same inp') : a.step inp = a.step inp' := by
  have hpe (i j : Nat) : (a.pe i j).step (a.pins inp i j) = (a.pe i j).step (a.pins inp' i j) := by
    rw [pins, pins, h.rWireX_eq, h.rWireY_eq]
    exact MacPe.step_same (h.peIn a _ _ i j) _
  simp only [step, hpe]

end SystolicArray

/-! ## the core -/

namespace SystolicCore

/-- The same inputs but for the data of a cycle without a beat. -/
structure In.Same (inp inp' : In dw aw) : Prop where
  validIn : inp.validIn = inp'.validIn
  beat : inp.validIn = true → inp.xIn = inp'.xIn ∧ inp.loadWeightIn = inp'.loadWeightIn
  yIn : inp.yIn = inp'.yIn
  weightLatchEn : inp.weightLatchEn = inp'.weightLatchEn
  readyIn : inp.readyIn = inp'.readyIn

variable {inp inp' : In dw aw} (c : SystolicCore n dw aw)

theorem In.Same.validPipe_eq (h : inp.Same inp') (i j : Nat) :
    c.validPipe inp i j = c.validPipe inp' i j := by
  cases j <;> simp [validPipe, h.validIn]

theorem In.Same.pipes_eq (h : inp.Same inp') (i j : Nat) (hv : c.validPipe inp i j = true) :
    c.xPipe inp i j = c.xPipe inp' i j ∧ c.lwPipe inp i j = c.lwPipe inp' i j := by
  cases j with
  | zero =>
      obtain ⟨hx, hl⟩ := h.beat hv
      simp [xPipe, lwPipe, hx, hl]
  | succ j => exact ⟨rfl, rfl⟩

theorem In.Same.yReadyBack_eq (h : inp.Same inp') (j d : Nat) :
    c.yReadyBack inp j d = c.yReadyBack inp' j d := by
  induction d with
  | zero => simp [yReadyBack, h.readyIn]
  | succ d ih => simp [yReadyBack, ih]

theorem In.Same.arrayIn (h : inp.Same inp') : (c.arrayIn inp).Same (c.arrayIn inp') where
  validIn := funext fun i => h.validPipe_eq c i i
  beat i hv := h.pipes_eq c i i hv
  yIn := h.yIn
  weightLatchEn := h.weightLatchEn
  readyIn := funext fun j => h.yReadyBack_eq c j _

theorem In.Same.readyBack_eq (h : inp.Same inp') (i d : Nat) :
    c.readyBack inp i d = c.readyBack inp' i d := by
  induction d with
  | zero => exact (h.arrayIn c).rWireX_eq _ i 0
  | succ d ih => simp [readyBack, ih]

theorem In.Same.readyOut_eq (h : inp.Same inp') : c.readyOut inp = c.readyOut inp' := by
  have hrow : c.rowReadyOut inp = c.rowReadyOut inp' := funext fun i => h.readyBack_eq c i _
  rw [readyOut, readyOut, hrow]

theorem In.Same.yPipe_eq (h : inp.Same inp') (j k : Nat) : c.yPipe inp j k = c.yPipe inp' j k := by
  cases k with
  | zero =>
      have hy : (c.arrayIn inp).yIn = (c.arrayIn inp').yIn := h.yIn
      cases n <;> simp [yPipe, SystolicArray.yOut, SystolicArray.yWire, hy]
  | succ k => rfl

theorem In.Same.skewStep_eq (h : inp.Same inp') (i j : Nat) :
    c.skewStep inp i j = c.skewStep inp' i j := by
  unfold skewStep readyPipe
  rw [h.readyBack_eq, h.readyBack_eq, ← h.validPipe_eq]
  by_cases hv : c.validPipe inp i j = true
  · obtain ⟨hx, hl⟩ := h.pipes_eq c i j hv
    rw [hx, hl]
  · simp [hv]

theorem In.Same.deskewStep_eq (h : inp.Same inp') (j k : Nat) :
    c.deskewStep inp j k = c.deskewStep inp' j k := by
  unfold deskewStep yReadyPipe
  rw [h.yReadyBack_eq, h.yReadyBack_eq, h.yPipe_eq]

/-- The core captures no data without a valid bit. -/
theorem step_same (h : inp.Same inp') : c.step inp = c.step inp' := by
  simp only [step, h.skewStep_eq, h.deskewStep_eq, SystolicArray.step_same _ (h.arrayIn c)]

end SystolicCore

/-! ## the stream controller -/

namespace StreamCtrl

variable {c d : StreamCtrl} {f : BitVec 3 → BitVec 256}

/-- The same registers with other words in the slots of the FIFO. -/
def withSlots (c : StreamCtrl) (f : BitVec 3 → BitVec 256) : StreamCtrl := { c with outFifo := f }

/-- The same registers and the same rows in the FIFO; its free slots do not count. -/
def Same (c d : StreamCtrl) : Prop := ∃ f, d = c.withSlots f ∧ (c.withSlots f).fifo = c.fifo

/-- The row that is read next. -/
theorem head_withSlots (h : (c.withSlots f).fifo = c.fifo) (hne : c.fifoEmpty = false) :
    f c.fifoRdPtr = c.outFifo c.fifoRdPtr := by
  rw [fifoEmpty_eq, decide_eq_false_iff_not] at hne
  obtain ⟨m, hm⟩ := Nat.exists_eq_succ_of_ne_zero hne
  have hcontents : RingBuffer.contents f c.fifoRdPtr c.fifoCount.toNat =
      RingBuffer.contents c.outFifo c.fifoRdPtr c.fifoCount.toNat := h
  rw [hm, RingBuffer.contents_succ, RingBuffer.contents_succ, List.cons.injEq] at hcontents
  exact hcontents.1

theorem txStep_withSlots (h : (c.withSlots f).fifo = c.fifo) (inp : In) :
    (c.withSlots f).txStep inp = (c.txStep inp).withSlots f := by
  have hhead := head_withSlots h
  unfold txStep withSlots fifoEmpty at *
  dsimp only
  split_ifs with hactive hne hgo hlast hne'
  · rw [hhead (by simpa using hne)]
  · rfl
  · rw [hhead (by simpa using hne')]
    rfl
  · rfl
  · rfl
  · rfl

theorem step_withSlots (h : (c.withSlots f).fifo = c.fifo) (inp : In) :
    (c.withSlots f).step inp = (c.step inp).withSlots
      (if c.fifoPush inp then Function.update f c.fifoWrPtr inp.peDout else f) := by
  rw [step, txStep_withSlots h]
  rfl

theorem Same.step (h : c.Same d) (hwf : c.Wf) (inp : In) : (c.step inp).Same (d.step inp) := by
  obtain ⟨f, rfl, hfifo⟩ := h
  have hstep := step_withSlots hfifo inp
  have hwf' : (c.withSlots f).Wf := ⟨hwf.wrPtr, hwf.count, hwf.flit, hwf.sending⟩
  refine ⟨_, hstep, ?_⟩
  -- what a push adds and a pop takes is the same on both sides
  have hpopped : (c.withSlots f).poppedRow inp = c.poppedRow inp := by
    cases hpop : c.fifoPop inp with
    | false =>
        have hpop' : (c.withSlots f).fifoPop inp = false := hpop
        rw [poppedRow, poppedRow, hpop, hpop', if_neg Bool.false_ne_true, if_neg Bool.false_ne_true]
    | true =>
        have hpop' : (c.withSlots f).fifoPop inp = true := hpop
        have hne : c.fifoEmpty = false := by
          rw [fifoEmpty_eq, decide_eq_false_iff_not]
          exact (pos_of_pop hpop).ne'
        rw [poppedRow, poppedRow, hpop, hpop', if_pos rfl, if_pos rfl]
        exact congrArg (fun row => [row]) (head_withSlots hfifo hne)
  have hboth := (fifo_step hwf' inp).symm.trans
    ((congrArg (· ++ c.takenRow inp) hfifo).trans (fifo_step hwf inp))
  rw [hpopped] at hboth
  rw [← hstep]
  exact List.append_cancel_left hboth

end StreamCtrl

/-! ## the register file -/

namespace NpuCtrl

variable {inp inp' : In}

/-- A cycle without a write, or without a read, does not see the wires of one. -/
theorem step_same (hwrite : inp.write = inp'.write)
    (hwritten : inp.write = true → inp.address = inp'.address ∧ inp.writedata = inp'.writedata)
    (hread : inp.read = inp'.read)
    (hasked : inp.read = true →
      inp.address = inp'.address ∧ inp.seqBusy = inp'.seqBusy ∧ inp.seqDone = inp'.seqDone)
    (hy : inp.peYOut = inp'.peYOut) (c : NpuCtrl) : c.step inp = c.step inp' := by
  obtain ⟨address, write, writedata, read, seqBusy, seqDone, peYOut⟩ := inp
  obtain ⟨address', write', writedata', read', seqBusy', seqDone', peYOut'⟩ := inp'
  obtain rfl : write = write' := hwrite
  obtain rfl : read = read' := hread
  obtain rfl : peYOut = peYOut' := hy
  dsimp only at hwritten hasked
  cases write <;> cases read
  · simp [step, writes, macPeIn, MacPeCtrl.step]
  · obtain ⟨rfl, rfl, rfl⟩ := hasked rfl
    simp [step, writes, macPeIn, MacPeCtrl.step, selectSys, selectPe, sysReadMux, MacPeCtrl.readMux]
  · obtain ⟨rfl, rfl⟩ := hwritten rfl
    simp [step, writes, macPeIn, MacPeCtrl.step, selectSys, selectPe]
  · obtain ⟨rfl, rfl⟩ := hwritten rfl
    obtain ⟨-, rfl, rfl⟩ := hasked rfl
    rfl

end NpuCtrl

/-! ## the unit -/

namespace NpuUnit

/-- The word written to system register `r` in this cycle. -/
def In.written (inp : In) (r : BitVec 3) : Option (BitVec 32) :=
  if inp.writes r then some inp.avsWritedata else none

/-- The beat presented in this cycle. -/
def In.presented (inp : In) : Option (BitVec 64) :=
  if inp.stSinkValid then some inp.stSinkData else none

/-- What the stream side sees of a cycle. -/
def In.traffic (inp : In) : Option (BitVec 64) × Bool × List (Option (BitVec 32)) :=
  (inp.presented, inp.stSourceReady, [0, 6, 7].map inp.written)

/-- What the bus side sees of a cycle: a write, and a read with the status wires. -/
def In.access (inp : In) : Option (BitVec 4 × BitVec 32) × Option (BitVec 4 × Bool × Bool) :=
  (if inp.avsWrite then some (inp.avsAddress, inp.avsWritedata) else none,
    if inp.avsRead then some (inp.avsAddress, inp.seqBusy, inp.seqDone) else none)

/-- The output ports of the stream side: `st_sink_ready` and those of `st_source`. -/
def streamPorts (u : NpuUnit) (inp : In) : List (Bool × Bool × Flit) :=
  [(u.stSinkReady inp, u.stream.stSourceValid,
    { data := u.stream.stSourceData
      startofpacket := u.stream.stSourceStartofpacket
      endofpacket := u.stream.stSourceEndofpacket u.ctrl.seqTotalRows })]

/-- The output ports of the bus. -/
def busPorts (u : NpuUnit) (_ : In) : List (Bool × BitVec 32) :=
  [(u.ctrl.readdatavalid, u.ctrl.readdata)]

variable {u v : NpuUnit} {i j : In}

/-- A register that is written with `g` of the bus word. -/
theorem In.elim_written (inp : In) (r : BitVec 3) (old : α) (g : BitVec 32 → α) :
    (if inp.writes r then g inp.avsWritedata else old) = (inp.written r).elim old g := by
  unfold written
  split <;> rfl

theorem seqMode_step : (u.step i).ctrl.seqMode =
    if i.writes 0 then i.avsWritedata.extractLsb' 1 2 else u.ctrl.seqMode := rfl

theorem weightLatchEn_step : (u.step i).ctrl.weightLatchEn =
    (i.writes 7 && i.avsWritedata.getLsbD 0) := rfl

/-! ### two units with the same stream side -/

/-- The same stream side. -/
structure SameStream (u v : NpuUnit) : Prop where
  core : u.core = v.core
  stream : u.stream.Same v.stream
  wf : u.stream.Wf
  seqMode : u.ctrl.seqMode = v.ctrl.seqMode
  seqTotalRows : u.ctrl.seqTotalRows = v.ctrl.seqTotalRows
  weightLatchEn : u.ctrl.weightLatchEn = v.ctrl.weightLatchEn

theorem sameStream_reset (f g : BitVec 3 → BitVec 256) : (reset f).SameStream (reset g) where
  core := rfl
  stream := ⟨g, rfl, rfl⟩
  wf := StreamCtrl.wf_reset f
  seqMode := rfl
  seqTotalRows := rfl
  weightLatchEn := rfl

theorem SameStream.coreIn (h : u.SameStream v) (hin : i.presented = j.presented) :
    (u.coreIn i).Same (v.coreIn j) := by
  obtain ⟨f, hstream, -⟩ := h.stream
  have hready : u.stream.peReadyOut = v.stream.peReadyOut := by rw [hstream]; rfl
  unfold In.presented at hin
  have hvalid : i.stSinkValid = j.stSinkValid := by
    cases hi : i.stSinkValid <;> cases hj : j.stSinkValid <;> simp_all
  refine ⟨hvalid, fun hv => ?_, rfl, h.weightLatchEn, hready⟩
  have hi : i.stSinkValid = true := hv
  have hdata : i.stSinkData = j.stSinkData := by simpa [hi, ← hvalid] using hin
  have hload (l : Nat) : (u.coreIn i).loadWeightIn l = (v.coreIn j).loadWeightIn l := by
    simp [h.seqMode, hvalid]
  exact ⟨by simp [hdata], funext hload⟩

theorem SameStream.streamIn (h : u.SameStream v) (hin : i.traffic = j.traffic) :
    u.streamIn i = v.streamIn j := by
  have hcore := h.coreIn (congrArg (·.1) hin)
  have hready : i.stSourceReady = j.stSourceReady := congrArg (·.2.1) hin
  have hy : u.core.yOut (u.coreIn i) = v.core.yOut (v.coreIn j) := by
    rw [h.core]
    exact funext fun c => hcore.yPipe_eq v.core c _
  have hvalid : u.core.validOut = v.core.validOut := by rw [h.core]
  rw [NpuUnit.streamIn, NpuUnit.streamIn, hy, hvalid, h.seqTotalRows, hready]

theorem SameStream.step (h : u.SameStream v) (hin : i.traffic = j.traffic) :
    (u.step i).SameStream (v.step j) := by
  have hwritten : [0, 6, 7].map i.written = [0, 6, 7].map j.written := congrArg (·.2.2) hin
  simp only [List.map_cons, List.map_nil, List.cons.injEq, and_true] at hwritten
  obtain ⟨hmode, hrows, hlatch⟩ := hwritten
  refine ⟨?_, ?_, h.wf.step, ?_, ?_, ?_⟩
  · rw [core_step, core_step, h.core]
    exact SystolicCore.step_same _ (h.coreIn (congrArg (·.1) hin))
  · rw [stream_step, stream_step, h.streamIn hin]
    exact h.stream.step h.wf _
  · rw [seqMode_step, seqMode_step, i.elim_written, j.elim_written, hmode, h.seqMode]
  · have hi := i.elim_written 6 u.ctrl.seqTotalRows id
    have hj := j.elim_written 6 u.ctrl.seqTotalRows id
    rw [← hrows, ← hi] at hj
    rw [seqTotalRows_step, seqTotalRows_step, ← h.seqTotalRows]
    exact hj.symm
  · have hpulse (k : In) : (k.writes 7 && k.avsWritedata.getLsbD 0) =
        (k.written 7).elim false (BitVec.getLsbD · 0) := by
      rw [← k.elim_written]
      cases k.writes 7 <;> rfl
    rw [weightLatchEn_step, weightLatchEn_step, hpulse, hpulse, hlatch]

theorem SameStream.ports_eq (h : u.SameStream v) (hin : i.traffic = j.traffic) :
    u.streamPorts i = v.streamPorts j := by
  have hcore := h.coreIn (congrArg (·.1) hin)
  have hready : u.stSinkReady i = v.stSinkReady j := by
    rw [stSinkReady, stSinkReady, h.core, hcore.readyOut_eq]
  obtain ⟨f, hstream, -⟩ := h.stream
  rw [streamPorts, streamPorts, hready, hstream, h.seqTotalRows]
  rfl

/-! ### two units with the same bus side -/

/-- The same bus side. -/
structure SameBus (u v : NpuUnit) : Prop where
  ctrl : u.ctrl = v.ctrl
  macPe : u.macPe = v.macPe

theorem SameBus.step (h : u.SameBus v) (hin : i.access = j.access) :
    (u.step i).SameBus (v.step j) := by
  have hw := congrArg (·.1) hin
  have hr := congrArg (·.2) hin
  simp only [In.access] at hw hr
  have hwrite : i.avsWrite = j.avsWrite := by
    cases hi : i.avsWrite <;> cases hj : j.avsWrite <;> simp_all
  have hread : i.avsRead = j.avsRead := by
    cases hi : i.avsRead <;> cases hj : j.avsRead <;> simp_all
  constructor
  · show u.ctrl.step (u.ctrlIn i) = v.ctrl.step (v.ctrlIn j)
    rw [h.ctrl]
    have hy : u.macPe.yOut = v.macPe.yOut := by rw [h.macPe]
    refine NpuCtrl.step_same hwrite (fun hi => ?_) hread (fun hi => ?_) hy _
    · have hi' : i.avsWrite = true := hi
      simpa [hi', ← hwrite, ctrlIn] using hw
    · have hi' : i.avsRead = true := hi
      simpa [hi', ← hread, ctrlIn] using hr
  · show u.macPe.step u.macPeIn = v.macPe.step v.macPeIn
    rw [macPeIn, macPeIn, h.ctrl, h.macPe]

theorem SameBus.ports_eq (h : u.SameBus v) : u.busPorts i = v.busPorts j := by
  rw [busPorts, busPorts, h.ctrl]

end NpuUnit

open NpuUnit in
/-- **The two sides of the unit are apart.**  Runs from reset with the same traffic, whatever else
passes at the bus, whatever the data wires carry in cycles without a beat, whatever the FIFO held at
power-up, show the same stream ports in every cycle.  Runs with the same accesses show the same bus
ports in every cycle, whatever is streamed. -/
theorem ports_isolated (f g : BitVec 3 → BitVec 256) (is js : List NpuUnit.In) :
    (is.map In.traffic = js.map In.traffic →
      emits NpuUnit.step streamPorts (NpuUnit.reset f) is =
        emits NpuUnit.step streamPorts (NpuUnit.reset g) js) ∧
    (is.map In.access = js.map In.access →
      emits NpuUnit.step busPorts (NpuUnit.reset f) is =
        emits NpuUnit.step busPorts (NpuUnit.reset g) js) := by
  have hstream (u v : NpuUnit) (i j : NpuUnit.In) (h : u.SameStream v) (hin : i.traffic = j.traffic) :=
    SameStream.step h hin
  have hbus (u v : NpuUnit) (i j : NpuUnit.In) (h : u.SameBus v) (hin : i.access = j.access) :=
    SameBus.step h hin
  constructor
  · exact emits_same hstream (fun _ _ _ _ h hin => h.ports_eq hin) (sameStream_reset f g)
  · exact emits_same hbus (fun _ _ _ _ h _ => h.ports_eq) ⟨rfl, rfl⟩

open NpuUnit in
/-- A beat while the test cell is set up and the status is read, with a dirty bus and FIFO. -/
theorem ports_isolated_sample :
    let is : List NpuUnit.In := [.beat 5 true, .write 9 7, .write 8 3]
    let js : List NpuUnit.In := [{ In.beat 5 true with avsRead := true, avsAddress := 1, seqBusy := true },
      { In.idle true with stSinkData := 77 }, .idle true]
    emits NpuUnit.step streamPorts (NpuUnit.reset fun _ => 0) is =
        emits NpuUnit.step streamPorts (NpuUnit.reset fun _ => 9) js ∧
      emits NpuUnit.step busPorts (NpuUnit.reset fun _ => 0) is =
        emits NpuUnit.step busPorts (NpuUnit.reset fun _ => 9) [.idle false, .write 9 7, .write 8 3] :=
  ⟨(ports_isolated _ _ _ _).1 rfl, (ports_isolated _ _ _ _).2 rfl⟩

end Npu
