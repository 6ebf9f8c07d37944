import Npu.StreamCtrl

/-!
# Npu.StreamOrder

FIFO and serializer together are one queue: the rows taken from the core are sent word by
word, in order, without loss and without repetition (`stream_lossless`).
-/

namespace Npu

open Machine

namespace StreamCtrl

variable {c : StreamCtrl} {inp : In}

/-- The words taken but not sent. -/
def pendingWords (c : StreamCtrl) : List (BitVec 64) := c.serial ++ c.fifo.flatMap words

/-- **Conservation of words, one edge.** -/
theorem pendingWords_step (h : c.Wf) (inp : In) :
    c.pendingWords ++ (c.takenRow inp).flatMap words =
      (c.sentFlit inp).map (·.data) ++ (c.step inp).pendingWords := by
  have hfifo := congrArg (List.flatMap words) (fifo_step h inp)
  rw [List.flatMap_append, List.flatMap_append] at hfifo
  rw [pendingWords, pendingWords, List.append_assoc, hfifo, ← List.append_assoc, serial_step h inp,
    List.append_assoc]

/-! ## along a run -/

theorem Wf.run (h : c.Wf) (is : List In) : (Machine.run StreamCtrl.step c is).Wf :=
  run_invariant (fun _ _ hs _ => Wf.step hs) h (always_of_forall_mem fun _ _ => trivial)

theorem words_run (h : c.Wf) (is : List In) :
    c.pendingWords ++ (emits step takenRow c is).flatMap words =
      (emits step sentFlit c is).map (·.data) ++ (Machine.run step c is).pendingWords := by
  induction is generalizing c with
  | nil => simp
  | cons i is ih =>
      have hstep := pendingWords_step h i
      rw [emits_cons, emits_cons, run_cons, List.flatMap_append, List.map_append,
        ← List.append_assoc, hstep, List.append_assoc, ih h.step, List.append_assoc]

theorem fifo_run (h : c.Wf) (is : List In) :
    c.fifo ++ emits step takenRow c is =
      emits step poppedRow c is ++ (Machine.run step c is).fifo := by
  exact emits_lossless (fun _ _ hs _ => Wf.step hs) (fun _ i hs _ => fifo_step hs i) h
    (always_of_forall_mem fun _ _ => trivial)

theorem length_words (row : BitVec 256) : (words row).length = 4 := rfl

theorem length_flatMap_words (rows : List (BitVec 256)) :
    (rows.flatMap words).length = 4 * rows.length := by
  simp [List.length_flatMap, length_words, Nat.mul_comm]

/-- Four words are pending for every row in the FIFO or the serializer, less those sent. -/
theorem length_pendingWords (h : c.Wf) :
    c.pendingWords.length + (if c.txActive then c.txCount.toNat else 0) =
      4 * (c.fifoCount.toNat + c.txActive.toNat) := by
  have hflit := h.flit
  have hfifo : c.fifo.length = c.fifoCount.toNat := RingBuffer.length_contents _ _ _
  have hserial : c.serial.length + (if c.txActive then c.txCount.toNat else 0) =
      4 * c.txActive.toNat := by
    cases hactive : c.txActive with
    | false => simp [serial, hactive]
    | true =>
        simp only [serial, hactive, lowWords, if_true, List.length_map, List.length_range,
          Bool.toNat_true]
        omega
  rw [pendingWords, List.length_append, length_flatMap_words, hfifo]
  omega

/-- Nothing is pending iff FIFO and serializer are empty. -/
theorem pendingWords_eq_nil_iff (h : c.Wf) :
    c.pendingWords = [] ↔ c.fifoCount = 0 ∧ c.txActive = false := by
  have hlen := length_pendingWords h
  have hflit := h.flit
  have hcount : c.fifoCount = 0 ↔ c.fifoCount.toNat = 0 := BitVec.toNat_eq
  rw [← List.length_eq_zero_iff, hcount]
  cases hactive : c.txActive with
  | false =>
      simp only [hactive, Bool.toNat_false, Bool.false_eq_true, if_false] at hlen
      simp only [and_true]
      omega
  | true =>
      simp only [hactive, Bool.toNat_true, if_true] at hlen
      simp only [Bool.true_eq_false, and_false, iff_false]
      omega

end StreamCtrl

/-- **FIFO and serializer are lossless**: on every run from reset, whatever the FIFO slots
hold, and for any next input,

* the flits sent are the words of the rows taken, in order;
* the rows not yet completely sent are those in the FIFO and the one in the serializer, at
  most nine;
* a row that moves to the serializer is the oldest row taken that has not moved;
* a flit that is not taken stays. -/
theorem stream_lossless (outFifo : BitVec 3 → BitVec 256) (is : List StreamCtrl.In)
    (inp : StreamCtrl.In) :
    let c := StreamCtrl.reset outFifo
    let c' := run StreamCtrl.step c is
    let rows := emits StreamCtrl.step StreamCtrl.takenRow c is
    let flits := emits StreamCtrl.step StreamCtrl.sentFlit c is
    flits.map (·.data) <+: rows.flatMap StreamCtrl.words ∧
      (flits.length / 4 + (c'.fifoCount.toNat + c'.txActive.toNat) = rows.length ∧
        c'.fifoCount.toNat + c'.txActive.toNat ≤ 9) ∧
      (c'.fifoPop inp = true →
        rows[rows.length - c'.fifoCount.toNat]? = some (c'.outFifo c'.fifoRdPtr)) ∧
      (c'.stSourceValid = true → inp.stSourceReady = false →
        (c'.step inp).stSourceValid = true ∧ (c'.step inp).stSourceData = c'.stSourceData) := by
  intro c c' rows flits
  have hwf := StreamCtrl.wf_reset outFifo
  have hwf' : c'.Wf := hwf.run is
  have hwords : rows.flatMap StreamCtrl.words = flits.map (·.data) ++ c'.pendingWords :=
    StreamCtrl.words_run hwf is
  have hfifo : rows = emits StreamCtrl.step StreamCtrl.poppedRow c is ++ c'.fifo :=
    StreamCtrl.fifo_run hwf is
  have hlen : c'.fifo.length = c'.fifoCount.toNat := RingBuffer.length_contents _ _ _
  refine ⟨?_, ⟨?_, ?_⟩, fun hpop => ?_, fun hvalid hready => ?_⟩
  · rw [hwords]
    exact List.prefix_append _ _
  · have hcount := congrArg List.length hwords
    have hpending := StreamCtrl.length_pendingWords hwf'
    have hflit := hwf'.flit
    rw [StreamCtrl.length_flatMap_words, List.length_append, List.length_map] at hcount
    cases hactive : c'.txActive <;>
      simp only [hactive, Bool.toNat_true, Bool.toNat_false, if_true, Bool.false_eq_true,
        if_false] at hpending ⊢ <;> omega
  · have hle := hwf'.count
    have hactive := Bool.toNat_le c'.txActive
    omega
  · have hpos := StreamCtrl.pos_of_pop hpop
    obtain ⟨m, hm⟩ : ∃ m, c'.fifoCount.toNat = m + 1 := ⟨c'.fifoCount.toNat - 1, by omega⟩
    have hdrop : rows.length - c'.fifoCount.toNat =
        (emits StreamCtrl.step StreamCtrl.poppedRow c is).length := by
      rw [hfifo, List.length_append, hlen, Nat.add_sub_cancel]
    rw [hdrop, hfifo, List.getElem?_append_right le_rfl, Nat.sub_self, StreamCtrl.fifo, hm,
      RingBuffer.contents_succ]
    rfl
  · have hsame : (c'.step inp).stSourceValid = (c'.txStep inp).stSourceValid ∧
        (c'.step inp).stSourceData = (c'.txStep inp).stSourceData := ⟨rfl, rfl⟩
    rw [StreamCtrl.txStep_of_held hwf' hvalid hready] at hsame
    exact ⟨hsame.1.trans hvalid, hsame.2⟩

end Npu
