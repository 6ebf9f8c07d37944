import Npu.RowUnit
import Npu.StreamFrames
import Npu.UnitApart

/-!
# Npu.UnitFrames

Packets of a batch.  Writing `SEQ_TOTAL_ROWS` sets the packet length, but not the row
counter of the stream controller, so the flags of a batch depend on what was streamed before
it: they are right exactly when that counter stands at 0 (`packet_of_batch_iff`).
-/

namespace Npu

open Machine

namespace StreamCtrl

variable {c : StreamCtrl} {inp : In}

/-- An empty stream controller has nothing to do. -/
theorem txStep_of_empty (hfifo : c.fifoCount = 0) (hactive : c.txActive = false) :
    c.txStep inp = c := by
  simp [txStep, fifoEmpty, hfifo, hactive]

/-- Up to the first flit of a row the row counter does not change, so it decides whether that
flit carries SOP. -/
theorem startofpacket_first (h : c.Wf) (hstart : c.txActive = true → c.txCount = 0) {is : List In}
    {f : Flit} (hf : (emits step sentFlit c is)[0]? = some f) :
    f.startofpacket = (c.txRowCount == 0) := by
  induction is generalizing c with
  | nil => cases hf
  | cons i is ih =>
      have hrow : (c.step i).txRowCount = (c.txStep i).txRowCount := rfl
      have hnext : (c.step i).txActive = (c.txStep i).txActive ∧
          (c.step i).txCount = (c.txStep i).txCount := ⟨rfl, rfl⟩
      rw [emits_cons, sentFlit, stSourceValid, h.sending] at hf
      cases hactive : c.txActive with
      | false =>
          rw [hactive, Bool.false_and, if_neg Bool.false_ne_true, List.nil_append] at hf
          have hzero : (c.step i).txActive = true → (c.step i).txCount = 0 := by
            rw [hnext.1, hnext.2]
            cases hempty : c.fifoEmpty <;> simp [txStep, hactive, hempty]
          rw [ih h.step hzero hf, hrow, (position_txStep_of_idle i hactive).1]
      | true =>
          cases hready : i.stSourceReady with
          | false =>
              have hheld : c.txStep i = c :=
                txStep_of_held h (by rw [stSourceValid, h.sending, hactive]) hready
              rw [hactive, hready, Bool.and_false, if_neg Bool.false_ne_true, List.nil_append] at hf
              have hzero : (c.step i).txActive = true → (c.step i).txCount = 0 := by
                rw [hnext.1, hnext.2, hheld]
                exact hstart
              rw [ih h.step hzero hf, hrow, hheld]
          | true =>
              rw [hactive, hready, Bool.and_self, if_pos rfl, List.singleton_append,
                List.getElem?_cons_zero, Option.some.injEq] at hf
              rw [← hf]
              simp [stSourceStartofpacket, h.sending, hactive, hstart hactive]

end StreamCtrl

namespace NpuUnit

/-- A bus write to system register `r`. -/
def In.writes (inp : In) (r : BitVec 3) : Bool :=
  inp.avsWrite && !inp.avsAddress.getLsbD 3 && inp.avsAddress.extractLsb' 0 3 == r

variable {u : NpuUnit} {inp w : In} {is : List In} {R : BitVec 32}

theorem seqTotalRows_step :
    (u.step inp).ctrl.seqTotalRows = if inp.writes 6 then inp.avsWritedata else u.ctrl.seqTotalRows :=
  rfl

/-- Without a write to `SEQ_TOTAL_ROWS` the stream controller sees one packet length. -/
theorem seqTotalRows_streamIns (hR : u.ctrl.seqTotalRows = R)
    (his : ∀ i ∈ is, i.writes 6 = false) : ∀ i ∈ u.streamIns is, i.seqTotalRows = R := by
  let Inv : NpuUnit → Prop := fun u => u.ctrl.seqTotalRows = R
  have hkeep : ∀ u i, Inv u → i.writes 6 = false → Inv (u.step i) := by
    intro u i hu hi
    change (u.step i).ctrl.seqTotalRows = R
    rw [seqTotalRows_step, hi]
    exact hu
  have hsees : ∀ u i, Inv u → i.writes 6 = false → (u.streamIn i).seqTotalRows = R :=
    fun _ _ hu _ => hu
  exact forall_mem_fed.mpr (always_of_invariant hkeep hsees hR (always_of_forall_mem his))

/-- In an empty unit the stream controller sends nothing and keeps its counters. -/
theorem Empty.sentFlit (h : u.Empty) (hwf : u.stream.Wf) : u.sentFlit inp = [] := by
  rw [NpuUnit.sentFlit, StreamCtrl.sentFlit, StreamCtrl.stSourceValid, hwf.sending, h.serializer]
  rfl

theorem Empty.stream_step (h : u.Empty) (inp : In) :
    (u.step inp).stream.txRowCount = u.stream.txRowCount ∧
      (u.step inp).stream.txActive = false := by
  have hrow : (u.step inp).stream.txRowCount = (u.stream.txStep (u.streamIn inp)).txRowCount := rfl
  have hact : (u.step inp).stream.txActive = (u.stream.txStep (u.streamIn inp)).txActive := rfl
  rw [hrow, hact, StreamCtrl.txStep_of_empty h.fifo h.serializer]
  exact ⟨rfl, h.serializer⟩

/-- A batch of at most `R` rows sends at most `4 * R` flits. -/
theorem length_sentFlit_le (h : u.Empty) (hwf : u.stream.Wf) (his : Always step LoadsApart u is) :
    (emits step NpuUnit.sentFlit u is).length ≤ 4 * (emits step acceptedRowBeat u is).length := by
  obtain ⟨p, history, hR, hload, -, hrows⟩ := Refines.exists_loaded h.drained
  have hbalance := balance hR hrows hwf (h.pendingWords hwf) (lockstep_coreIns hR hload his)
  omega

end NpuUnit

/-- **Packet of a batch**: after any run from reset that left the unit empty, write `R > 0` to
`SEQ_TOTAL_ROWS` and stream up to `R` rows, weights loaded apart from them.  The flits carry
SOP on the first one and EOP on the last one only, exactly when the row counter stood at 0. -/
theorem packet_of_batch_iff (outFifo : BitVec 3 → BitVec 256) (before : List NpuUnit.In)
    {w : NpuUnit.In} {is : List NpuUnit.In} (hR : 0 < w.avsWritedata) (hw : w.writes 6 = true)
    (his : ∀ i ∈ is, i.writes 6 = false) :
    let u := run NpuUnit.step (NpuUnit.reset outFifo) before
    let flits := emits NpuUnit.step NpuUnit.sentFlit u (w :: is)
    let R := w.avsWritedata.toNat
    u.Empty → Always NpuUnit.step NpuUnit.LoadsApart u (w :: is) →
      (emits NpuUnit.step NpuUnit.acceptedRowBeat u (w :: is)).length ≤ R → flits ≠ [] →
      ((∀ k f, flits[k]? = some f →
          (f.startofpacket = true ↔ k = 0) ∧ (f.endofpacket = true ↔ k = 4 * R - 1)) ↔
        u.stream.txRowCount = 0) := by
  intro u flits R hempty hapart hrows hsome
  have hwf : u.stream.Wf := NpuUnit.wf_run (StreamCtrl.wf_reset outFifo) before
  have hwf' : (u.step w).stream.Wf := hwf.step
  obtain ⟨hcount, hidle⟩ := hempty.stream_step w
  have hflits : flits =
      emits StreamCtrl.step StreamCtrl.sentFlit (u.step w).stream ((u.step w).streamIns is) := by
    rw [← NpuUnit.emits_sentFlit]
    exact (congrArg (· ++ _) (hempty.sentFlit hwf)).trans (List.nil_append _)
  constructor
  · intro hflags
    obtain ⟨f, hf⟩ : ∃ f, flits[0]? = some f :=
      ⟨flits.head hsome, by rw [← List.head?_eq_getElem?, List.head?_eq_some_head]⟩
    have hsop : f.startofpacket = true := (hflags 0 f hf).1.mpr rfl
    rw [hflits] at hf
    have hfirst := StreamCtrl.startofpacket_first hwf'
      (fun hactive => absurd hactive (by simp [hidle])) hf
    rw [hsop, hcount] at hfirst
    exact beq_iff_eq.mp hfirst.symm
  · intro hzero k f hf
    have hlt : k < 4 * R := by
      have hk : k < flits.length := (List.getElem?_eq_some_iff.mp hf).1
      have hle : flits.length ≤ 4 * _ := NpuUnit.length_sentFlit_le hempty hwf hapart
      omega
    have htotal : (u.step w).ctrl.seqTotalRows = w.avsWritedata := by
      rw [NpuUnit.seqTotalRows_step, hw, if_pos rfl]
    have hin : (u.step w).stream.InPacket w.avsWritedata :=
      { toWf := hwf'
        row_lt := by rw [hcount, hzero]; exact hR }
    have hpos : (u.step w).stream.position = 0 := by
      rw [StreamCtrl.position, hcount, hzero, hidle]
      rfl
    rw [hflits] at hf
    have hflags := StreamCtrl.flags_run hin (NpuUnit.seqTotalRows_streamIns htotal his) hf
    rw [hpos, Nat.zero_add, Nat.mod_eq_of_lt hlt] at hflags
    exact hflags

/-- One row, and time to send it. -/
def oneRow : List NpuUnit.In := .beat 5 true :: List.replicate 22 (.idle true)

/-- Behind a packet of one row, two rows are framed as a packet of two. -/
theorem packet_of_oneRow :
    let u := run NpuUnit.step (NpuUnit.reset fun _ => 0) (.write 6 1 :: oneRow)
    let is := NpuUnit.In.write 6 2 :: .beat 7 true :: oneRow ++ List.replicate 4 (.idle true)
    (emits NpuUnit.step NpuUnit.sentFlit u is).length = 8 ∧
      ∀ k f, (emits NpuUnit.step NpuUnit.sentFlit u is)[k]? = some f →
        (f.startofpacket = true ↔ k = 0) ∧ (f.endofpacket = true ↔ k = 7) := by
  intro u is
  have hbefore : Always RowUnit.step RowUnit.NoOverrun (RowUnit.reset fun _ => 0)
      (.write 6 1 :: oneRow) := by decide +kernel
  have hsim := (Simulates.reset fun _ => 0).run hbefore
  have hempty : u.Empty := by
    rw [hsim.empty_iff]
    decide +kernel
  have hno : Always RowUnit.step RowUnit.NoOverrun
      (run RowUnit.step (RowUnit.reset fun _ => 0) (.write 6 1 :: oneRow)) is := by decide +kernel
  have hlen : (emits NpuUnit.step NpuUnit.sentFlit u is).length = 8 := by
    rw [hsim.emits_sentFlit hno]
    decide +kernel
  have hrows : (emits NpuUnit.step NpuUnit.acceptedRowBeat u is).length ≤ 2 := by
    rw [hsim.emits_acceptedRowBeat hno]
    decide +kernel
  have hsome : emits NpuUnit.step NpuUnit.sentFlit u is ≠ [] :=
    List.ne_nil_of_length_eq_add_one hlen
  have hcount : u.stream.txRowCount = 0 := by
    rw [hsim.stream]
    decide +kernel
  have hR : 0 < (NpuUnit.In.write 6 2).avsWritedata := by decide
  have h := packet_of_batch_iff (fun _ => 0) (.write 6 1 :: oneRow) hR rfl (by decide) hempty
    (by decide +kernel) hrows hsome
  exact ⟨hlen, h.mpr hcount⟩

/-- After a row under `SEQ_TOTAL_ROWS` 0 the same row has neither SOP nor EOP. -/
theorem packet_depends_on_history :
    let u := run NpuUnit.step (NpuUnit.reset fun _ => 0) oneRow
    let is := NpuUnit.In.write 6 1 :: oneRow
    u.Empty ∧ Always NpuUnit.step NpuUnit.LoadsApart u is ∧
      (emits NpuUnit.step NpuUnit.acceptedRowBeat u is).length = 1 ∧
      (emits NpuUnit.step NpuUnit.sentFlit u is).map
          (fun f => (f.startofpacket, f.endofpacket)) =
        List.replicate 4 (false, false) := by
  intro u is
  have hbefore : Always RowUnit.step RowUnit.NoOverrun (RowUnit.reset fun _ => 0) oneRow := by
    decide +kernel
  have hsim := (Simulates.reset fun _ => 0).run hbefore
  have hno : Always RowUnit.step RowUnit.NoOverrun
      (run RowUnit.step (RowUnit.reset fun _ => 0) oneRow) is := by decide +kernel
  have hempty : u.Empty := by
    rw [hsim.empty_iff]
    decide +kernel
  refine ⟨hempty, by decide +kernel, ?_, ?_⟩
  · rw [hsim.emits_acceptedRowBeat hno]
    decide +kernel
  · rw [hsim.emits_sentFlit hno]
    decide +kernel

end Npu
