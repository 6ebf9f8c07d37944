import Npu.Lib.Machine
import Npu.Lib.RingBuffer

/-!
# Npu.StreamCtrl

The module `npu_stream_ctrl`.  The sink side only passes beats on; the source side is a
FIFO of eight 256-bit rows and a serializer that sends a row as four 64-bit flits, least
significant first, with packet flags from a row counter.

`Wf` is the invariant of the registers.  Under it the FIFO is a queue of rows
(`fifo_step`) and the serializer a queue of words (`serial_step`).
-/

namespace Npu

/-- The columns of a row are numbered in `Fin 8`. -/
instance neZeroEight : NeZero 8 := ⟨by decide⟩

/-- The registers of `npu_stream_ctrl`. -/
structure StreamCtrl where
  outFifo : BitVec 3 → BitVec 256
  fifoWrPtr : BitVec 3
  fifoRdPtr : BitVec 3
  fifoCount : BitVec 4
  txShiftReg : BitVec 256
  /-- 0 to 3, the flit of the row that is being sent. -/
  txCount : BitVec 3
  txActive : Bool
  txSendingFlit : Bool
  txRowCount : BitVec 32

/-- A transfer on the source interface. -/
structure Flit where
  data : BitVec 64
  startofpacket : Bool
  endofpacket : Bool
deriving DecidableEq, Repr

namespace StreamCtrl

/-- The input ports of the source side. -/
structure In where
  stSourceReady : Bool
  seqTotalRows : BitVec 32
  peDout : BitVec 256
  peValidOut : Bool

/-- Reset leaves the slots of the FIFO as they are. -/
def reset (outFifo : BitVec 3 → BitVec 256) : StreamCtrl where
  outFifo
  fifoWrPtr := 0
  fifoRdPtr := 0
  fifoCount := 0
  txShiftReg := 0
  txCount := 0
  txActive := false
  txSendingFlit := false
  txRowCount := 0

/-! ## sink side: only wires -/

def peDin (stSinkData : BitVec 64) : BitVec 64 := stSinkData

def peValidIn (stSinkValid : Bool) : Bool := stSinkValid

def stSinkReady (peReadyIn : Bool) : Bool := peReadyIn

/-! ## source side -/

variable (c : StreamCtrl) (inp : In)

def fifoFull : Bool := decide (8 ≤ c.fifoCount)

def fifoEmpty : Bool := c.fifoCount == 0

def fifoPush : Bool := inp.peValidOut && !c.fifoFull

def fifoPop : Bool :=
  (!c.txActive && !c.fifoEmpty) ||
    (c.txActive && inp.stSourceReady && c.txSendingFlit && c.txCount == 3 && !c.fifoEmpty)

def peReadyOut : Bool := !c.fifoFull

def stSourceData : BitVec 64 := c.txShiftReg.extractLsb' 0 64

def stSourceValid : Bool := c.txSendingFlit

def stSourceStartofpacket : Bool := c.txSendingFlit && c.txCount == 0 && c.txRowCount == 0

def stSourceEndofpacket (seqTotalRows : BitVec 32) : Bool :=
  decide (0 < seqTotalRows) &&
    (c.txSendingFlit && c.txCount == 3 && c.txRowCount == seqTotalRows - 1)

/-- The row tracker after the last flit of a row. -/
def nextRowCount (seqTotalRows : BitVec 32) : BitVec 32 :=
  if decide (0 < seqTotalRows) && c.txRowCount == seqTotalRows - 1 then 0 else c.txRowCount + 1

/-- The clock edge of the serializer and the read pointer. -/
def txStep : StreamCtrl :=
  if !c.txActive then
    if !c.fifoEmpty then
      { c with
        txShiftReg := c.outFifo c.fifoRdPtr
        fifoRdPtr := c.fifoRdPtr + 1
        txCount := 0
        txActive := true
        txSendingFlit := true }
    else
      c
  else if inp.stSourceReady && c.txSendingFlit then
    if c.txCount == 3 then
      if !c.fifoEmpty then
        { c with
          txRowCount := c.nextRowCount inp.seqTotalRows
          txShiftReg := c.outFifo c.fifoRdPtr
          fifoRdPtr := c.fifoRdPtr + 1
          txCount := 0 }
      else
        { c with
          txRowCount := c.nextRowCount inp.seqTotalRows
          txActive := false
          txSendingFlit := false }
    else
      { c with
        txShiftReg := (0 : BitVec 64) ++ c.txShiftReg.extractLsb' 64 192
        txCount := c.txCount + 1 }
  else
    c

/-- The clock edge. -/
def step : StreamCtrl :=
  { c.txStep inp with
    outFifo :=
      if c.fifoPush inp then Function.update c.outFifo c.fifoWrPtr inp.peDout else c.outFifo
    fifoWrPtr := if c.fifoPush inp then c.fifoWrPtr + 1 else c.fifoWrPtr
    fifoCount :=
      if c.fifoPush inp && !c.fifoPop inp then c.fifoCount + 1
      else if !c.fifoPush inp && c.fifoPop inp then c.fifoCount - 1
      else c.fifoCount }

/-! ## what happens at the ports in one cycle -/

/-- The row taken from the core in this cycle. -/
def takenRow : List (BitVec 256) :=
  if inp.peValidOut && c.peReadyOut then [inp.peDout] else []

/-- The flit transferred in this cycle. -/
def sentFlit : List Flit :=
  if c.stSourceValid && inp.stSourceReady then
    [{ data := c.stSourceData
       startofpacket := c.stSourceStartofpacket
       endofpacket := c.stSourceEndofpacket inp.seqTotalRows }]
  else
    []

/-! ## the queues -/

/-- The lowest `m` words of a row, least significant first. -/
def lowWords (row : BitVec 256) (m : Nat) : List (BitVec 64) :=
  (List.range m).map fun i => row.extractLsb' (64 * i) 64

/-- The four words of a row. -/
def words (row : BitVec 256) : List (BitVec 64) := lowWords row 4

/-- The rows in the FIFO, oldest first. -/
def fifo : List (BitVec 256) := RingBuffer.contents c.outFifo c.fifoRdPtr c.fifoCount.toNat

/-- The words that the serializer still has to send. -/
def serial : List (BitVec 64) :=
  if c.txActive then lowWords c.txShiftReg (4 - c.txCount.toNat) else []

/-- The row that moves from the FIFO to the serializer in this cycle. -/
def poppedRow : List (BitVec 256) := if c.fifoPop inp then [c.outFifo c.fifoRdPtr] else []

/-- The invariant of the registers. -/
structure Wf (c : StreamCtrl) : Prop where
  wrPtr : c.fifoWrPtr = c.fifoRdPtr + BitVec.ofNat 3 c.fifoCount.toNat
  count : c.fifoCount.toNat ≤ 8
  flit : c.txCount.toNat ≤ 3
  sending : c.txSendingFlit = c.txActive

theorem wf_reset (outFifo : BitVec 3 → BitVec 256) : (reset outFifo).Wf where
  wrPtr := rfl
  count := Nat.zero_le 8
  flit := Nat.zero_le 3
  sending := rfl

variable {c inp}

/-! ## one edge -/

theorem fifoFull_eq : c.fifoFull = decide (8 ≤ c.fifoCount.toNat) := rfl

theorem fifoEmpty_eq : c.fifoEmpty = decide (c.fifoCount.toNat = 0) := by
  rw [fifoEmpty, Bool.eq_iff_iff, beq_iff_eq, decide_eq_true_iff, BitVec.toNat_eq]
  rfl

theorem pos_of_pop (h : c.fifoPop inp = true) : 0 < c.fifoCount.toNat := by
  have hne : c.fifoEmpty = false := by
    simp only [fifoPop, Bool.or_eq_true, Bool.and_eq_true, Bool.not_eq_true'] at h
    rcases h with h | h <;> exact h.2
  rw [fifoEmpty_eq, decide_eq_false_iff_not] at hne
  omega

theorem lt_of_push (h : c.fifoPush inp = true) : c.fifoCount.toNat < 8 := by
  simp only [fifoPush, fifoFull_eq, Bool.and_eq_true, Bool.not_eq_true',
    decide_eq_false_iff_not] at h
  omega

/-- The branches that advance the read pointer are those of `fifo_pop`. -/
theorem fifoRdPtr_step :
    (c.step inp).fifoRdPtr = if c.fifoPop inp then c.fifoRdPtr + 1 else c.fifoRdPtr := by
  rw [step, txStep, fifoPop]
  cases c.txActive <;> cases c.fifoEmpty <;> cases inp.stSourceReady <;> cases c.txSendingFlit <;>
    cases c.txCount == 3 <;> rfl

theorem toNat_fifoCount_step (h : c.Wf) (inp : In) :
    (c.step inp).fifoCount.toNat + (c.fifoPop inp).toNat =
      c.fifoCount.toNat + (c.fifoPush inp).toNat := by
  have hcount := h.count
  have hstep : (c.step inp).fifoCount =
      if c.fifoPush inp && !c.fifoPop inp then c.fifoCount + 1
      else if !c.fifoPush inp && c.fifoPop inp then c.fifoCount - 1
      else c.fifoCount := rfl
  rw [hstep]
  cases hpush : c.fifoPush inp <;> cases hpop : c.fifoPop inp
  · rfl
  · have hpos := pos_of_pop hpop
    simp
    omega
  · have hlt := lt_of_push hpush
    simp
    omega
  · rfl

theorem wrPtr_step (h : c.Wf) :
    (c.step inp).fifoWrPtr =
      (c.step inp).fifoRdPtr + BitVec.ofNat 3 (c.step inp).fifoCount.toNat := by
  have hwr : (c.step inp).fifoWrPtr = if c.fifoPush inp then c.fifoWrPtr + 1 else c.fifoWrPtr := rfl
  have hcount := toNat_fifoCount_step h inp
  rw [hwr, fifoRdPtr_step, h.wrPtr]
  cases hpush : c.fifoPush inp <;> cases hpop : c.fifoPop inp <;>
    simp only [hpush, hpop, Bool.toNat_false, Bool.toNat_true, Nat.add_zero] at hcount
  · rw [hcount]
    rfl
  · rw [← hcount]
    exact RingBuffer.wrPtr_pop _ _
  · rw [hcount]
    exact RingBuffer.wrPtr_push _ _
  · rw [Nat.add_right_cancel hcount]
    exact (RingBuffer.wrPtr_push _ _).trans (RingBuffer.wrPtr_pop _ _)

/-- Before the last flit the flit counter only counts. -/
theorem toNat_txCount_succ (h : c.Wf) (hne : (c.txCount == 3) = false) :
    c.txCount.toNat < 3 ∧ (c.txCount + 1).toNat = c.txCount.toNat + 1 := by
  have hflit := h.flit
  have hne' : c.txCount.toNat ≠ 3 := by
    intro heq
    have hthree : c.txCount = 3 := BitVec.eq_of_toNat_eq heq
    simp [hthree] at hne
  have hone : (1 : BitVec 3).toNat = 1 := rfl
  rw [BitVec.toNat_add, hone]
  omega

theorem Wf.step (h : c.Wf) : (c.step inp).Wf where
  wrPtr := wrPtr_step h
  count := by
    have hcount := toNat_fifoCount_step h inp
    have hle := h.count
    cases hpush : c.fifoPush inp
    · rw [hpush, Bool.toNat_false] at hcount
      omega
    · have hlt := lt_of_push hpush
      rw [hpush, Bool.toNat_true] at hcount
      omega
  flit := by
    have hflit := h.flit
    simp only [StreamCtrl.step, txStep]
    split_ifs with _ _ _ h3
    · exact Nat.zero_le 3
    · exact hflit
    · exact Nat.zero_le 3
    · exact hflit
    · have hnext := toNat_txCount_succ h (by simpa using h3)
      rw [hnext.2]
      exact hnext.1
    · exact hflit
  sending := by
    have hsending := h.sending
    simp only [StreamCtrl.step, txStep]
    split_ifs
    · rfl
    · exact hsending
    · exact hsending
    · rfl
    · exact hsending
    · exact hsending

/-- **The FIFO is a queue of rows, one edge.** -/
theorem fifo_step (h : c.Wf) (inp : In) :
    c.fifo ++ c.takenRow inp = c.poppedRow inp ++ (c.step inp).fifo := by
  have hmem : (c.step inp).outFifo =
      if c.fifoPush inp then Function.update c.outFifo c.fifoWrPtr inp.peDout else c.outFifo := rfl
  have htaken : c.takenRow inp = if c.fifoPush inp then [inp.peDout] else [] := rfl
  have hcount := toNat_fifoCount_step h inp
  rw [fifo, fifo, htaken, poppedRow, hmem, fifoRdPtr_step, h.wrPtr]
  cases hpush : c.fifoPush inp <;> cases hpop : c.fifoPop inp <;>
    simp only [hpush, hpop, Bool.toNat_false, Bool.toNat_true, Nat.add_zero] at hcount
  · rw [hcount]
    simp
  · rw [← hcount, RingBuffer.contents_succ]
    simp
  · have hlt := lt_of_push hpush
    rw [hcount]
    exact (RingBuffer.contents_push _ _ (by omega) _).symm
  · -- the head of the queue is not the slot that is written
    have hlt := lt_of_push hpush
    obtain ⟨m, hm⟩ : ∃ m, c.fifoCount.toNat = m + 1 :=
      ⟨c.fifoCount.toNat - 1, by have := pos_of_pop hpop; omega⟩
    have hback := RingBuffer.contents_push c.outFifo c.fifoRdPtr (by omega : m + 1 < 2 ^ 3) inp.peDout
    have hfront := RingBuffer.contents_update c.outFifo c.fifoRdPtr (by omega : m + 1 < 2 ^ 3) inp.peDout
    rw [RingBuffer.contents_succ, RingBuffer.contents_succ, List.cons.injEq] at hfront
    rw [RingBuffer.contents_succ, hfront.1] at hback
    rw [Nat.add_right_cancel hcount, hm]
    exact hback.symm

/-! ## the serializer -/

theorem lowWords_succ (row : BitVec 256) {m : Nat} (hm : m ≤ 3) :
    lowWords row (m + 1) =
      row.extractLsb' 0 64 :: lowWords ((0 : BitVec 64) ++ row.extractLsb' 64 192) m := by
  have hshift : ∀ i, i < 3 → row.extractLsb' (64 * (i + 1)) 64 =
      ((0 : BitVec 64) ++ row.extractLsb' 64 192).extractLsb' (64 * i) 64 := by
    intro i hi
    refine BitVec.eq_of_getLsbD_eq fun b hb => ?_
    have hlow : 64 * i + b < 192 := by omega
    have hbit : 64 * (i + 1) + b = 64 + (64 * i + b) := by omega
    have happend : ((0 : BitVec 64) ++ row.extractLsb' 64 192).getLsbD (64 * i + b) =
        row.getLsbD (64 + (64 * i + b)) := by
      rw [BitVec.getLsbD_append, if_pos hlow, BitVec.getLsbD_extractLsb', decide_eq_true hlow,
        Bool.true_and]
    rw [BitVec.getLsbD_extractLsb', BitVec.getLsbD_extractLsb', hbit]
    exact congrArg (decide (b < 64) && ·) happend.symm
  rw [lowWords, List.range_succ_eq_map, List.map_cons, List.map_map]
  congr 1
  exact List.map_congr_left fun i hi => hshift i (by rw [List.mem_range] at hi; omega)

/-- **The serializer is a queue of words, one edge.** -/
theorem serial_step (h : c.Wf) (inp : In) :
    c.serial ++ (c.poppedRow inp).flatMap words =
      (c.sentFlit inp).map (·.data) ++ (c.step inp).serial := by
  have hflit := h.flit
  have hserial : (c.step inp).serial = (c.txStep inp).serial := rfl
  rw [hserial, sentFlit, stSourceValid, h.sending]
  simp only [poppedRow, fifoPop, txStep, h.sending]
  cases hactive : c.txActive with
  | false =>
      cases hempty : c.fifoEmpty <;> simp [serial, hactive, words]
  | true =>
      cases hready : inp.stSourceReady with
      | false => simp [serial, hactive]
      | true =>
          cases hlast : c.txCount == 3 with
          | true =>
              have hthree : c.txCount = 3 := by simpa using hlast
              cases hempty : c.fifoEmpty <;>
                simp [serial, hactive, words, hthree, stSourceData, lowWords]
          | false =>
              obtain ⟨hlt, hnext⟩ := toNat_txCount_succ h hlast
              have hm : 4 - c.txCount.toNat = 4 - (c.txCount.toNat + 1) + 1 := by omega
              simp only [serial, hactive, hnext, hm, stSourceData, Bool.not_true, Bool.false_eq_true,
                if_false, if_true, Bool.and_false, Bool.false_and, Bool.or_false,
                Bool.and_self, List.flatMap_nil, List.append_nil, List.map_cons, List.map_nil,
                List.cons_append, List.nil_append]
              exact lowWords_succ _ (by omega)

/-- A flit that is not taken stays. -/
theorem txStep_of_held (h : c.Wf) (hvalid : c.stSourceValid = true)
    (hready : inp.stSourceReady = false) : c.txStep inp = c := by
  have hactive : c.txActive = true := by
    rw [← h.sending]
    exact hvalid
  simp [txStep, hactive, hready]

end StreamCtrl

end Npu
