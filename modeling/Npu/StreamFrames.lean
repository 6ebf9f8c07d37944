import Npu.StreamOrder

/-!
# Npu.StreamFrames

Packet flags.  The row counter and the flit counter together are the position of the next
flit in its packet of `4 * R` flits (`position`), which every transfer advances by one,
modulo the packet length (`position_step`).
-/

namespace Npu

open Machine

namespace StreamCtrl

variable {c : StreamCtrl} {inp : In} {R : BitVec 32}

/-- The position of the next flit in its packet. -/
def position (c : StreamCtrl) : Nat :=
  4 * c.txRowCount.toNat + if c.txActive then c.txCount.toNat else 0

/-- The invariant under a constant packet length of `R` rows. -/
structure InPacket (R : BitVec 32) (c : StreamCtrl) : Prop extends c.Wf where
  row_lt : c.txRowCount.toNat < R.toNat

theorem inPacket_reset (outFifo : BitVec 3 → BitVec 256) (hR : 0 < R) :
    (reset outFifo).InPacket R where
  toWf := wf_reset outFifo
  row_lt := hR

theorem eq_sub_one_iff {x : BitVec 32} (hR : 0 < R.toNat) : x = R - 1 ↔ x.toNat + 1 = R.toNat := by
  have hx := x.isLt
  have hlt := R.isLt
  have hone : (1 : BitVec 32).toNat = 1 := rfl
  rw [BitVec.toNat_eq, BitVec.toNat_sub, hone]
  omega

theorem toNat_nextRowCount (h : c.txRowCount.toNat < R.toNat) :
    (c.nextRowCount R).toNat = (c.txRowCount.toNat + 1) % R.toNat := by
  have hlt := R.isLt
  have hpos : decide (0 < R) = true := decide_eq_true (by rw [BitVec.lt_def]; exact Nat.zero_lt_of_lt h)
  have hone : (1 : BitVec 32).toNat = 1 := rfl
  rw [nextRowCount, hpos, Bool.true_and]
  rcases Nat.eq_or_lt_of_le (h : c.txRowCount.toNat + 1 ≤ R.toNat) with heq | hne
  · have hlast : (c.txRowCount == R - 1) = true :=
      beq_iff_eq.mpr ((eq_sub_one_iff (by omega)).mpr heq)
    have hwrap : c.txRowCount.toNat + 1 = R.toNat := heq
    rw [hlast, if_pos rfl, hwrap, Nat.mod_self]
    rfl
  · have hmid : (c.txRowCount == R - 1) = false := by
      rw [beq_eq_false_iff_ne, ne_eq, eq_sub_one_iff (by omega)]
      omega
    rw [hmid, if_neg Bool.false_ne_true, BitVec.toNat_add, hone, Nat.mod_eq_of_lt hne,
      Nat.mod_eq_of_lt (by omega)]

theorem InPacket.position_lt (h : c.InPacket R) : c.position < 4 * R.toNat := by
  have hlt := h.row_lt
  have hflit := h.flit
  rw [position]
  split <;> omega

/-- SOP marks the first flit of a packet. -/
theorem stSourceStartofpacket_iff (h : c.Wf) (hv : c.stSourceValid = true) :
    c.stSourceStartofpacket = true ↔ c.position = 0 := by
  have hactive : c.txActive = true := by rw [← h.sending]; exact hv
  have hcount : c.txCount = 0 ↔ c.txCount.toNat = 0 := BitVec.toNat_eq
  have hrow : c.txRowCount = 0 ↔ c.txRowCount.toNat = 0 := BitVec.toNat_eq
  rw [stSourceStartofpacket, position, h.sending, hactive, Bool.true_and, Bool.and_eq_true,
    beq_iff_eq, beq_iff_eq, hcount, hrow, if_pos rfl]
  omega

/-- EOP marks the last flit of a packet. -/
theorem stSourceEndofpacket_iff (h : c.InPacket R) (hv : c.stSourceValid = true) :
    c.stSourceEndofpacket R = true ↔ c.position = 4 * R.toNat - 1 := by
  have hactive : c.txActive = true := by rw [← h.sending]; exact hv
  have hlt := h.row_lt
  have hflit := h.flit
  have hpos : decide (0 < R) = true :=
    decide_eq_true (by rw [BitVec.lt_def]; exact Nat.zero_lt_of_lt hlt)
  have hcount : c.txCount = 3 ↔ c.txCount.toNat = 3 := BitVec.toNat_eq
  rw [stSourceEndofpacket, position, h.sending, hactive, hpos, Bool.true_and, Bool.true_and,
    Bool.and_eq_true, beq_iff_eq, beq_iff_eq, hcount, eq_sub_one_iff (by omega), if_pos rfl]
  omega

/-- An idle serializer starts a row with its first flit. -/
theorem position_txStep_of_idle (inp : In) (hactive : c.txActive = false) :
    (c.txStep inp).txRowCount = c.txRowCount ∧ (c.txStep inp).position = c.position := by
  cases hempty : c.fifoEmpty <;> simp [txStep, position, hactive, hempty]

/-- After the last flit of a row comes the first flit of the next one. -/
theorem position_txStep_of_last (h : c.Wf) (hactive : c.txActive = true)
    (hready : inp.stSourceReady = true) (hlast : (c.txCount == 3) = true) :
    (c.txStep inp).txRowCount = c.nextRowCount inp.seqTotalRows ∧
      (c.txStep inp).position = 4 * (c.nextRowCount inp.seqTotalRows).toNat := by
  have hsending := h.sending
  have hthree : c.txCount = 3 := beq_iff_eq.mp hlast
  cases hempty : c.fifoEmpty <;>
    simp [txStep, position, hactive, hready, hthree, hempty, hsending]

theorem position_txStep_of_next (h : c.Wf) (hactive : c.txActive = true)
    (hready : inp.stSourceReady = true) (hlast : (c.txCount == 3) = false) :
    (c.txStep inp).txRowCount = c.txRowCount ∧ (c.txStep inp).position = c.position + 1 := by
  obtain ⟨-, hnext⟩ := toNat_txCount_succ h hlast
  simp only [txStep, position, hactive, hready, hlast, h.sending, hnext, Bool.not_true,
    Bool.false_eq_true, if_false, if_true, Bool.and_self, Nat.add_assoc, and_self]

/-- **Position, one edge.** -/
theorem position_step (h : c.InPacket R) (hR : inp.seqTotalRows = R) :
    (c.step inp).InPacket R ∧
      (c.step inp).position = (c.position + (c.sentFlit inp).length) % (4 * R.toNat) := by
  have hlt := h.row_lt
  have hflit := h.flit
  have hnext := toNat_nextRowCount hlt
  have hpos : (c.step inp).position = (c.txStep inp).position := rfl
  have hrow : (c.step inp).txRowCount = (c.txStep inp).txRowCount := rfl
  suffices (c.txStep inp).txRowCount.toNat < R.toNat ∧
      (c.txStep inp).position = (c.position + (c.sentFlit inp).length) % (4 * R.toNat) from
    ⟨⟨h.toWf.step, by rw [hrow]; exact this.1⟩, by rw [hpos]; exact this.2⟩
  have hsame := Nat.mod_eq_of_lt h.position_lt
  rw [sentFlit, stSourceValid, h.sending]
  cases hactive : c.txActive with
  | false =>
      obtain ⟨hrc, hp⟩ := position_txStep_of_idle inp hactive
      rw [hrc, hp, Bool.false_and, if_neg Bool.false_ne_true, List.length_nil, Nat.add_zero, hsame]
      exact ⟨hlt, rfl⟩
  | true =>
      cases hready : inp.stSourceReady with
      | false =>
          have hheld : c.txStep inp = c :=
            txStep_of_held h.toWf (by rw [stSourceValid, h.sending, hactive]) hready
          rw [hheld, Bool.and_false, if_neg Bool.false_ne_true, List.length_nil, Nat.add_zero, hsame]
          exact ⟨hlt, rfl⟩
      | true =>
          rw [Bool.and_self, if_pos rfl, List.length_singleton]
          cases hlast : c.txCount == 3 with
          | true =>
              obtain ⟨hrc, hp⟩ := position_txStep_of_last h.toWf hactive hready hlast
              have hthree : c.txCount = 3 := beq_iff_eq.mp hlast
              have hpos' : c.position + 1 = 4 * (c.txRowCount.toNat + 1) := by
                rw [position, hactive, if_pos rfl, hthree]
                rfl
              rw [hrc, hp, hR, hnext, hpos', Nat.mul_mod_mul_left]
              exact ⟨Nat.mod_lt _ (by omega), rfl⟩
          | false =>
              obtain ⟨hrc, hp⟩ := position_txStep_of_next h.toWf hactive hready hlast
              obtain ⟨htc, -⟩ := toNat_txCount_succ h.toWf hlast
              have hmid : c.position + 1 < 4 * R.toNat := by
                rw [position, hactive, if_pos rfl]
                omega
              rw [hrc, hp, Nat.mod_eq_of_lt hmid]
              exact ⟨hlt, rfl⟩

/-! ## along a run -/

/-- The flags of the `k`-th flit of a run. -/
theorem flags_run (h : c.InPacket R) {is : List In} (hR : ∀ i ∈ is, i.seqTotalRows = R)
    {k : Nat} {f : Flit} (hf : (emits step sentFlit c is)[k]? = some f) :
    (f.startofpacket = true ↔ (c.position + k) % (4 * R.toNat) = 0) ∧
      (f.endofpacket = true ↔ (c.position + k) % (4 * R.toNat) = 4 * R.toNat - 1) := by
  induction is generalizing c k with
  | nil => cases hf
  | cons i is ih =>
      have hRi := hR i List.mem_cons_self
      obtain ⟨hin, hpos⟩ := position_step h hRi
      have hRs : ∀ j ∈ is, j.seqTotalRows = R := fun j hj => hR j (List.mem_cons_of_mem i hj)
      rw [emits_cons] at hf
      rcases Nat.lt_or_ge k (c.sentFlit i).length with hk | hk
      · -- the flit of this cycle
        rw [List.getElem?_append_left hk] at hf
        rw [sentFlit] at hf hk
        split at hf
        · rename_i hsent
          rw [if_pos hsent, List.length_singleton, Nat.lt_one_iff] at hk
          rw [hk, List.getElem?_cons_zero, Option.some.injEq] at hf
          have hv : c.stSourceValid = true := (Bool.and_eq_true_iff.mp hsent).1
          rw [hk, Nat.add_zero, Nat.mod_eq_of_lt h.position_lt, ← hf, hRi]
          exact ⟨stSourceStartofpacket_iff h.toWf hv, stSourceEndofpacket_iff h hv⟩
        · cases hf
      · rw [List.getElem?_append_right hk] at hf
        have hmod : ((c.step i).position + (k - (c.sentFlit i).length)) % (4 * R.toNat) =
            (c.position + k) % (4 * R.toNat) := by
          rw [hpos, Nat.mod_add_mod, Nat.add_assoc, Nat.add_sub_cancel' hk]
        rw [← hmod]
        exact ih hin hRs hf

theorem InPacket.run (h : c.InPacket R) {is : List In} (hR : ∀ i ∈ is, i.seqTotalRows = R) :
    (Machine.run StreamCtrl.step c is).InPacket R := by
  refine run_invariant (fun _ _ hs hi => ?_) h (always_of_forall_mem hR)
  exact (position_step hs hi).1

end StreamCtrl

/-- `NPU_OUT_BYTES` of the driver: the bytes of one output matrix. -/
def npuOutBytes : Nat := 8 * 32

/-- **Framing**: with the packet length held at `R > 0` from reset on, on every run,

* the `k`-th flit carries SOP iff it is the first of a packet of `4 * R` flits and EOP
  iff it is the last;
* the flags of a flit that is not taken stay;
* for `R = 8 * b` the EOP of the first packet is on the flit that completes `b` matrices. -/
theorem stream_frames (outFifo : BitVec 3 → BitVec 256) {R : BitVec 32} (hR : 0 < R)
    {is : List StreamCtrl.In} {inp : StreamCtrl.In}
    (his : ∀ i ∈ is ++ [inp], i.seqTotalRows = R) :
    let c := StreamCtrl.reset outFifo
    let c' := run StreamCtrl.step c is
    let flits := emits StreamCtrl.step StreamCtrl.sentFlit c is
    (∀ k f, flits[k]? = some f →
        (f.startofpacket = true ↔ k % (4 * R.toNat) = 0) ∧
          (f.endofpacket = true ↔ k % (4 * R.toNat) = 4 * R.toNat - 1)) ∧
      (c'.stSourceValid = true → inp.stSourceReady = false →
        (c'.step inp).stSourceValid = true ∧
          (c'.step inp).stSourceStartofpacket = c'.stSourceStartofpacket ∧
          (c'.step inp).stSourceEndofpacket R = c'.stSourceEndofpacket R) ∧
      ∀ b, R.toNat = 8 * b → ∀ k f, flits[k]? = some f → 8 * (k + 1) ≤ npuOutBytes * b →
        (f.endofpacket = true ↔ 8 * (k + 1) = npuOutBytes * b) := by
  intro c c' flits
  have hin := StreamCtrl.inPacket_reset outFifo hR
  have hrun : ∀ i ∈ is, i.seqTotalRows = R := fun i hi => his i (List.mem_append_left _ hi)
  have hflags : ∀ k f, flits[k]? = some f →
      (f.startofpacket = true ↔ k % (4 * R.toNat) = 0) ∧
        (f.endofpacket = true ↔ k % (4 * R.toNat) = 4 * R.toNat - 1) := by
    intro k f hf
    have hpos : c.position = 0 := rfl
    have hk := StreamCtrl.flags_run hin hrun hf
    rwa [hpos, Nat.zero_add] at hk
  refine ⟨hflags, fun hvalid hready => ?_, fun b hb k f hf hk => ?_⟩
  · have hheld := StreamCtrl.txStep_of_held (hin.run hrun).toWf hvalid hready
    have hsame : (c'.step inp).stSourceValid = (c'.txStep inp).stSourceValid ∧
        (c'.step inp).stSourceStartofpacket = (c'.txStep inp).stSourceStartofpacket ∧
        (c'.step inp).stSourceEndofpacket R = (c'.txStep inp).stSourceEndofpacket R :=
      ⟨rfl, rfl, rfl⟩
    rw [hheld] at hsame
    exact ⟨hsame.1.trans hvalid, hsame.2⟩
  · have hlt : 0 < R.toNat := hR
    rw [(hflags k f hf).2, Nat.mod_eq_of_lt (by rw [npuOutBytes] at hk; omega), npuOutBytes]
    omega

/-- Packets of one row, back to back. -/
theorem stream_frames_one :
    let i : StreamCtrl.In :=
      { stSourceReady := true, seqTotalRows := 1, peDout := 7, peValidOut := true }
    let flits := emits StreamCtrl.step StreamCtrl.sentFlit (StreamCtrl.reset fun _ => 0)
      (List.replicate 12 i)
    (0 : BitVec 32) < 1 ∧ flits.length = 10 ∧
      ∀ k f, flits[k]? = some f →
        (f.startofpacket = true ↔ k % 4 = 0) ∧ (f.endofpacket = true ↔ k % 4 = 3) := by
  intro i flits
  have h := stream_frames (fun _ => 0) (by decide : (0 : BitVec 32) < 1)
    (by simp [i] : ∀ j ∈ List.replicate 12 i ++ [i], j.seqTotalRows = 1)
  exact ⟨by decide, by decide, h.1⟩

end Npu
