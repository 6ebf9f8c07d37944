import Npu.SocBatch
import Npu.UnitStatus

/-!
# Npu.SocRuns

A whole batch: what every run of it leaves in memory, whatever the DMA engines are (`leads_batch`),
and that it has runs.

On a system with plain engines the programs of the driver come to their end.  Most accesses can be
done in any state (`Access.free`); a latch pulse may have to wait at rest until the last beat has
met every cell (`finishes_latch`), and the poll of an engine waits for as long as it is at work
(`finishes_poll`).  How long that is at most, for any engines, say `leads_weightsGo_bounded` and
`leads_batchGo_bounded`.
-/

namespace Npu

open ByteMem Lanes Machine

/-- The access can be done in any state, and leaves the latch register clear. -/
def Access.free : Access → Bool
  | .iowr .npuCtrl offset data => !(BitVec.ofNat 4 (offset / 4) == 7 && data.getLsbD 0)
  | .poll .npuCtrl offset => BitVec.ofNat 4 (offset / 4) == 1
  | .poll _ _ => false
  | _ => true

namespace Soc

/-- A system with plain engines. -/
abbrev Plain (π : Equiv.Perm (Fin 8)) := Soc (.plain π)

variable {π : Equiv.Perm (Fin 8)} {s : Plain π} {i : In (.plain π)} {r : Rest}
variable {words : List Nat} {B o : Nat} {P Q : Plain π → Prop}

/-- The latch register is clear, or the last beat has met every cell. -/
def Late (s : Plain π) : Prop := s.unit.ctrl.weightLatchEn = true → 14 ≤ s.quiet

/-- From `P` the program has a run. -/
def Finishes (P : Plain π → Prop) (as : List Access) : Prop :=
  MayLead step Waits Does LatchesLate (fun s => P s ∧ Late s) as Late

theorem finishes_append {as bs : List Access} (has : Finishes P as) (hleads : Leads P as Q)
    (hbs : Finishes Q bs) : Finishes P (as ++ bs) :=
  mayLead_append
    ((has.and_leads hleads).mono (fun _ h => ⟨h, h.1⟩) fun _ h => ⟨h.2, h.1⟩) hbs

theorem late_of_latch (h : s.unit.ctrl.weightLatchEn = false) : Late s := fun hen => by
  rw [h] at hen
  cases hen

/-- The system as it is started, with the memory `mem`. -/
def started (mem : Mem) : Plain (Equiv.refl _) where
  unit := .reset fun _ => 0
  mem := mem
  read := ⟨⟨0, 0, 0⟩, []⟩
  write := ⟨⟨0, 0, 0⟩, [], []⟩
  answer := 0
  quiet := 0

theorem starts_started (mem : Mem) : Starts (started mem) := ⟨⟨rfl, trivial⟩, ⟨_, rfl⟩, rfl, rfl⟩

theorem Starts.late (h : Starts s) : Late s := by
  obtain ⟨outFifo, hunit⟩ := h.unit
  exact late_of_latch (by rw [hunit]; rfl)

/-! ## free accesses -/

/-- The driver does `a`; the DMA engines rest. -/
def In.doing (a : Access) : In (.plain π) := ⟨some a, false, false, false, false⟩

/-- Only the latch pulse sets the latch register. -/
theorem latch_of_free {a : Access} (ha : a.free = true) (h : i.access = some a) :
    (s.step i).unit.ctrl.weightLatchEn = false := by
  have hen : (s.step i).unit.ctrl.weightLatchEn =
      ((s.unitIn i).writes 7 && ((written i).getD 0).getLsbD 0) := rfl
  rw [hen, unitIn_writes, written, h]
  cases a with
  | iowr base offset data =>
      cases base
      case npuCtrl =>
        have hfree : (BitVec.ofNat 4 (offset / 4) == 7 && data.getLsbD 0) = false := by
          simpa only [Access.free, Bool.not_eq_true'] using ha
        exact hfree
      all_goals rfl
  | iord | poll | memory => rfl

theorem does_of_free {a : Access} (ha : a.free = true) : Does a s (.doing a) := by
  refine ⟨rfl, ?_⟩
  rintro base offset rfl
  cases base
  case npuCtrl =>
    -- without a driver for it `seq_busy` is low
    have hread : (s.unitIn (.doing (.poll .npuCtrl offset))).avsRead = true := rfl
    have haddr : (s.unitIn (.doing (.poll .npuCtrl offset))).avsAddress = 1 := by
      have hfree : (BitVec.ofNat 4 (offset / 4) == 1) = true := ha
      exact beq_iff_eq.mp hfree
    exact NpuUnit.seqBusy_readdata hread haddr
  case readCsr | writeCsr => cases ha
  all_goals rfl

/-- **Free accesses** can be done at once. -/
theorem finishes_free (as : List Access) (has : ∀ a ∈ as, a.free = true) : Finishes P as := by
  rintro s ⟨-, hlate⟩
  induction as generalizing s with
  | nil => exact ⟨[], .done, trivial, hlate⟩
  | cons a as ih =>
      have ha := has a List.mem_cons_self
      have hlatch := late_of_latch (latch_of_free (π := π) (s := s) ha (i := .doing a) rfl)
      obtain ⟨is, his, hok, hlate'⟩ := ih (fun b hb => has b (List.mem_cons_of_mem a hb)) _ hlatch
      exact ⟨.doing a :: is, .access (does_of_free ha) his, ⟨hlate, hok⟩, hlate'⟩

/-! ## the latch pulse -/

/-- At rest nothing is handed over. -/
theorem Rests.quiet_step (h : Rests r [] s) (i : In (.plain π)) :
    (s.step i).quiet = s.quiet + 1 := by
  have hquiet : (s.step i).quiet = if s.handsOver i then 0 else s.quiet + 1 := rfl
  have hover : s.handsOver i = false := by
    have hv : (s.unitIn i).stSinkValid = false := by
      show (s.beat i).isSome = false
      rw [beat_of_idle h.reading]
      rfl
    rw [handsOver, NpuUnit.accepts, hv, Bool.false_and]
  rw [hquiet, hover, if_neg Bool.false_ne_true]

/-- Any number of cycles at rest. -/
theorem rests_idle (h : Rests r [] s) (hlate : Late s) (n : Nat) : ∃ is,
    Always step Waits s is ∧ Always step LatchesLate s is ∧
      Rests r [] (run step s is) ∧ Late (run step s is) ∧
        n ≤ (run step s is).quiet := by
  suffices hn : ∃ is, Always step Waits s is ∧ Always step LatchesLate s is ∧
      Rests r [] (run step s is) ∧ Late (run step s is) ∧
        n + s.quiet ≤ (run step s is).quiet by
    obtain ⟨is, hwaits, hok, hrests, hlate', hquiet⟩ := hn
    exact ⟨is, hwaits, hok, hrests, hlate', by omega⟩
  induction n generalizing s with
  | zero => exact ⟨[], trivial, trivial, h, hlate, by rw [Nat.zero_add]; rfl⟩
  | succ n ih =>
      obtain ⟨idle, hidle⟩ : ∃ idle : In (.plain π), idle.access = none :=
        ⟨⟨none, false, false, false, false⟩, rfl⟩
      have hwait : Waits s idle := .inl hidle
      have hnext := rests_waits r s idle h hlate hwait
      have hquiet := h.quiet_step idle
      have hlatch : Late (s.step idle) := by
        refine late_of_latch ?_
        exact (step_of_polls (s := s) (.of_waits hwait)).2.2.2
      obtain ⟨is, hwaits, hok, hrests, hlate', hlong⟩ := ih hnext hlatch
      exact ⟨idle :: is, ⟨hwait, hwaits⟩, ⟨hlate, hok⟩, hrests, hlate', by rw [run_cons]; omega⟩

/-- **The latch pulse** can be given at rest. -/
theorem finishes_latch (data : BitVec 32) :
    Finishes (π := π) (Rests r []) [iowrReg .npuCtrl 7 data] := by
  rintro s ⟨h, hlate⟩
  obtain ⟨is, hwaits, hok, hrests, hlate', hquiet⟩ := rests_idle h hlate 14
  refine ⟨is ++ [.doing (iowrReg .npuCtrl 7 data)],
    (Drives.waiting hwaits).append (.access ⟨rfl, fun _ _ h => ?_⟩ .done),
    always_append.mpr ⟨hok, hlate', trivial⟩, fun _ => ?_⟩
  · cases h
  · rw [run_append]
    have hstep := hrests.quiet_step (.doing (iowrReg .npuCtrl 7 data))
    have hlong : 14 ≤ ((run step s is).step (.doing (iowrReg .npuCtrl 7 data))).quiet := by
      omega
    exact hlong

/-! ## the polls of the DMA engines -/

/-- The DMA engines are willing. -/
def In.willing (a : Option Access) : In (.plain π) := ⟨a, true, true, false, false⟩

theorem polls_willing : (In.willing (π := π) none).Polls := fun _ h => by cases h

theorem polls_replicate (n : Nat) : ∀ i ∈ List.replicate n (In.willing (π := π) none), i.Polls := by
  intro i hi
  rw [List.eq_of_mem_replicate hi]
  exact polls_willing

/-- A plain engine that is willing presents a word as long as it has one. -/
theorem offers_willing (s : Plain π) : s.offers (.willing none) = true := by
  have hoffers : s.offers (.willing none) =
      ((s.read.left.head?.map (readBeat π s.mem)).isSome || s.read.left.isEmpty) := rfl
  rw [hoffers, Option.isSome_map]
  cases s.read.left <;> rfl

/-- It takes a flit as long as it has a transfer. -/
theorem takes_willing (s : Plain π) : s.takes (.willing none) = true := by
  have htakes : s.takes (.willing none) =
      ((true && !s.write.left.isEmpty) || s.write.left.isEmpty) := rfl
  rw [htakes]
  cases s.write.left <;> rfl

theorem willing_both (s : Plain π) :
    (s.offers (.willing none) && s.takes (.willing none)) = true := by
  rw [offers_willing, takes_willing]
  rfl

/-- A poll of an engine that is done at last. -/
theorem finishes_poll {base : Slave} {offset : Nat}
    (hpolls : ∀ s i, P s → i.Polls → P (s.step i)) (hlatch : ∀ s, P s → Late s)
    (hdone : ∀ s, P s → ∃ n, (run step s (List.replicate n (.willing none))).busy
      (.willing (some (.poll base offset))) base = false) :
    Finishes P [.poll base offset] := by
  rintro s ⟨hs, -⟩
  obtain ⟨n, hidle⟩ := hdone s hs
  have hpoll : (In.willing (π := π) (some (.poll base offset))).Polls := by
    intro a ha
    cases ha
    exact ⟨base, offset, rfl⟩
  have hwaiting : ∀ i ∈ List.replicate n (In.willing (π := π) none), i = .willing none :=
    fun _ hi => List.eq_of_mem_replicate hi
  have hkeeps : ∀ s i, P s → i = In.willing none → P (s.step i) :=
    fun s i hs hi => hpolls s i hs (hi ▸ polls_willing)
  have hrun : P (run step s (List.replicate n (.willing none))) :=
    run_invariant hkeeps hs (always_of_forall_mem hwaiting)
  refine ⟨List.replicate n (.willing none) ++ [.willing (some (.poll base offset))],
    (Drives.waiting ?_).append (.access ⟨rfl, fun _ _ h => ?_⟩ .done), ?_, ?_⟩
  · exact (always_of_forall_mem hwaiting).imp fun _ _ hi => .inl (by rw [hi]; rfl)
  · cases h
    exact hidle
  · exact always_append.mpr ⟨always_of_invariant hkeeps (fun s _ hs _ => hlatch s hs) hs
      (always_of_forall_mem hwaiting), hlatch _ hrun, trivial⟩
  · rw [run_append]
    exact hlatch _ (hpolls _ _ hrun hpoll)

/-- The read side is done at last. -/
theorem finishes_pollRead (r : Rest) (words : List Nat) :
    Finishes (fun s : Plain π => ∃ B, Loads r words B s) [.poll .readCsr 0] := by
  refine finishes_poll (fun s i ⟨B, h⟩ hi => ⟨_, h.step hi⟩)
    (fun s ⟨B, h⟩ => late_of_latch h.latch) fun s ⟨B, h⟩ => ⟨B, ?_⟩
  have hrun := h.run (polls_replicate B)
  rw [count_replicate offers_willing, Nat.sub_self] at hrun
  have hnil : (run step s (List.replicate B (.willing none))).read.left = [] := hrun.reading_eq_nil
  show (!(run step s (List.replicate B (.willing none))).read.left.isEmpty) = false
  rw [hnil]
  rfl

/-- The write side is done at last: a cycle behind its last flit. -/
theorem finishes_pollWrite (hapart : Apart words o) (hn : words.length < 2 ^ 32) :
    Finishes (π := π) (Streams r words o B) [.poll .writeCsr 0] := by
  refine finishes_poll (fun s i h hi => (h.step hapart hn hi).mono (Nat.sub_le _ _))
    (fun s h => late_of_latch h.latch) fun s h => ⟨B + 1, ?_⟩
  have hrun := h.run hapart hn (polls_replicate B)
  rw [count_replicate willing_both, Nat.sub_self] at hrun
  rw [List.replicate_succ', run_append, run_cons, run_nil]
  generalize run step s (List.replicate B (.willing none)) = s' at hrun
  have hnil : s'.write.left = [] := hrun.writing_eq_nil
  have hwriting := (step_of_polls (s := s') polls_willing).2.1
  have hnext : (s'.step (.willing none)).write.left = [] :=
    hwriting.trans (by rw [hrun.writing_eq_nil, afterFlit_nil])
  have htaken : (s'.step (.willing none)).write.taken =
      placed s'.write.left (s'.flit (.willing none)) := rfl
  show (!(s'.step (.willing none)).write.left.isEmpty ||
    !(s'.step (.willing none)).write.taken.isEmpty) = false
  rw [hnext, htaken, hnil, placed_nil]
  rfl

/-! ## a batch -/

theorem finishes_weightsLatch (r : Rest) : Finishes (π := π) (Rests r []) weightsLatch := by
  have hpoll := finishes_free (π := π) (P := Rests r []) [.poll .npuCtrl (regStatus * 4)] (by decide)
  have hpulse : Finishes (π := π) (Rests r []) ([iowrReg .npuCtrl 7 1] ++ [iowrReg .npuCtrl 7 0]) :=
    finishes_append (Q := fun _ => True) (finishes_latch 1) (fun _ _ _ _ _ => trivial)
      (finishes_free _ (by decide))
  have hrests := leads_rest (D := .plain π) r [.poll .npuCtrl (regStatus * 4)] (by simp [Access.plain])
  rw [List.foldl_cons, List.foldl_nil, Rest.access_poll] at hrests
  exact finishes_append hpoll hrests hpulse

theorem finishes_npuLoadWeights (r : Rest) (addr : BitVec 32) {n : Nat}
    (hn : Fits addr.toNat (npuMatBytes * n)) {W : Matrix8} {before : List (Fin 8 → BitVec 8)}
    (hW : (matrixWords addr n).map (rowAt π r.mem) = before ++ weightBeats W) :
    Finishes (π := π) (Rests r []) (npuLoadWeights addr n) := by
  have hloads := (leads_weightsGo (D := .plain π) r addr hn).mono (fun _ => id)
    (R := fun s => ∃ B, Loads (weightsRest r addr n) (matrixWords addr n) B s)
    fun _ ⟨B, _, h⟩ => ⟨B, h⟩
  have hread : Leads (fun s : Plain π => ∃ B, Loads (weightsRest r addr n) (matrixWords addr n) B s)
      [.poll .readCsr 0] (Rests { weightsRest r addr n with loaded := W } []) :=
    leads_pollRead (weightsRest r addr n) _ hW
  rw [npuLoadWeights_eq]
  refine finishes_append (finishes_free _ ?_) hloads ?_
  · simp [weightsGo, msgdmaReadStreamPush, iowrReg, Access.free, regCtrl]
  · refine finishes_append (finishes_pollRead _ _) hread ?_
    exact finishes_weightsLatch _

theorem finishes_npuWaitExecution (hapart : Apart words o) (hn : words.length < 2 ^ 32) :
    Finishes (π := π) (Streams r words o B) npuWaitExecution :=
  finishes_append (Q := fun _ => True) (finishes_pollWrite hapart hn) (fun _ _ _ _ _ => trivial)
    (finishes_free [.poll .npuCtrl (regStatus * 4)] (by decide))

section
variable {R c : BitVec 32} {mem : Mem} {W : Matrix8} {weights src dst : BitVec 32} {b : Nat}

theorem finishes_batchGo (seqRows : Option (BitVec 32)) (hbuffers : Buffers weights src dst b)
    (hweights : HoldsWeights mem weights.toNat W) :
    Finishes (π := π) (Ready R c mem) (batchGo weights src dst seqRows b) := by
  rintro s ⟨⟨r, hrests, rfl, rfl, rfl, -⟩, hlate⟩
  have hbeats : (matrixWords weights 1).map (rowAt π r.mem) =
      [] ++ weightBeats fun i j => W (π i) j := by
    rw [map_rowAt_matrixWords]
    exact readBeats_weights π hweights
  have hload : Finishes (π := π) (Rests r []) (npuLoadWeights weights 1 ++
      (seqRows.toList.map (iowrReg .npuCtrl regSeqRows) ++
        (npuGetMatrix dst b ++ npuLoadMatrix src b))) := by
    refine finishes_append (finishes_npuLoadWeights r weights hbuffers.fits_weights hbeats)
      (leads_npuLoadWeights r weights hbuffers.fits_weights hbeats) (finishes_free _ ?_)
    cases seqRows <;> simp [npuGetMatrix, npuLoadMatrix, msgdmaReadStreamPush,
      msgdmaWriteStreamPush, iowrReg, Access.free, regCtrl, regSeqRows]
  rw [← List.append_assoc] at hload
  exact hload s ⟨hrests, hlate⟩

/-- **Every batch has a run.** -/
theorem finishes_batch (seqRows : Option (BitVec 32)) (hbuffers : Buffers weights src dst b)
    (hweights : HoldsWeights mem weights.toNat W) :
    Finishes (π := π) (Ready R c mem) (batchAccesses weights src dst seqRows b) := by
  refine finishes_append (finishes_batchGo seqRows hbuffers hweights)
    (leads_batchGo seqRows hbuffers hweights) ?_
  rintro s ⟨⟨r, h, -⟩, hlate⟩
  exact finishes_npuWaitExecution hbuffers.apart_words hbuffers.length_lt s ⟨h, hlate⟩

/-- **A batch on the system**, with any DMA engines: if its latch pulse comes late enough it leaves
the outputs of the rows up to the first EOP; if these are all, the system is ready for the next
batch. -/
theorem leads_batch {D : Dma} {inputs : Nat → Matrix8} (seqRows : Option (BitVec 32))
    (hbuffers : Buffers weights src dst b) (hweights : HoldsWeights mem weights.toNat W)
    (hinputs : HoldsInputs mem src.toNat inputs b) :
    Leads (Ready (D := D) R c mem) (batchAccesses weights src dst seqRows b) fun s =>
      Outputs mem s.mem dst.toNat W inputs b (rowsDelivered (seqRows.getD R) c (8 * b)) ∧
        (rowsDelivered (seqRows.getD R) c (8 * b) = 8 * b →
          Ready (seqRows.getD R) (rowCountAfter (seqRows.getD R) c (8 * b)) s.mem s) :=
  (leads_batchDone seqRows hbuffers hweights).mono (fun _ => id) fun _ h =>
    h.1.outputs h.2 hinputs

end

/-- Weights and two matrices, as `npu_format_weights` and `npu_format_inputs` leave them. -/
def sampleMem : Mem :=
  formatBatch (npuFormatWeights (fun _ => 0) 0x100 fun i j => BitVec.ofNat 8 (i * 16 + j)) 0x1000
    (fun m r c => BitVec.ofNat 8 (m * 100 + r * 8 + c)) 2

theorem holdsWeights_sampleMem :
    HoldsWeights sampleMem (0x100#32).toNat fun i j => BitVec.ofNat 8 (i * 16 + j) := by
  intro t r
  have ht := t.isLt
  have hr := r.isLt
  have haddr : (0x100#32).toNat = 0x100 := rfl
  rw [sampleMem, formatBatch_frame _ _ (by omega)]
  exact formatWords_add _ _ _ t r

theorem holdsInputs_sampleMem : HoldsInputs sampleMem (0x1000#32).toNat
    (fun m r c => BitVec.ofNat 8 (m * 100 + r * 8 + c)) 2 :=
  fun _ hm r c => formatBatch_add _ _ _ hm r c

theorem buffers_sample : Buffers 0x100 0x1000 0x2000 2 where
  fits_weights := by decide
  fits_src := by decide
  fits_dst := by decide
  apart := .inl (by decide)

/-- With an EOP behind the twelfth row the second output is cut short. -/
theorem leads_batch_sample : ∃ is,
    Drives step Waits Does (batchAccesses 0x100 0x1000 0x2000 (some 12) 2) (started sampleMem) is ∧
      Outputs sampleMem (run step (started sampleMem) is).mem 0x2000
        (fun i j => BitVec.ofNat 8 (i * 16 + j)) (fun m r c => BitVec.ofNat 8 (m * 100 + r * 8 + c))
        2 12 := by
  have hstarts := starts_started sampleMem
  obtain ⟨is, hdrives, hok, -⟩ := finishes_batch (some 12) buffers_sample holdsWeights_sampleMem
    (started sampleMem) ⟨hstarts.ready, hstarts.late⟩
  exact ⟨is, hdrives, (leads_batch (some 12) buffers_sample holdsWeights_sampleMem
    holdsInputs_sampleMem _ is hstarts.ready hdrives hok).1⟩

/-! ## the waits are bounded -/

/-- **The wait of `npu_load_weights`**: the read side is through after 344 + 184 `n` cycles in which
it presents a word or has none left, whatever else happens in between. -/
theorem leads_weightsGo_bounded {D : Dma} {R c : BitVec 32} {mem : Mem} (addr : BitVec 32) {n : Nat}
    (hn : Fits addr.toNat (npuMatBytes * n)) :
    Leads (Ready (D := D) R c mem) (weightsGo addr n) fun s => ∀ is : List (In D),
      (∀ i ∈ is, i.Polls) → 344 + 184 * n ≤ count step offers s is →
        (run step s is).reading = [] := by
  rintro s is ⟨r, hrests, -⟩ hdrives hlate js hjs hoffers
  obtain ⟨B, hB, h⟩ := leads_weightsGo r addr hn s is hrests hdrives hlate
  have hrun := h.run hjs
  have hzero : B - count step offers (run step s is) js = 0 := by omega
  rw [hzero] at hrun
  exact hrun.reading_eq_nil

/-- Three matrices, and 896 cycles of a willing engine behind GO. -/
theorem leads_weightsGo_bounded_sample : ∃ is,
    Drives step Waits Does (weightsGo 0x100 3) (started sampleMem) is ∧
      (run step (run step (started sampleMem) is) (List.replicate 896 (.willing none))).reading =
        [] := by
  have hstarts := starts_started sampleMem
  obtain ⟨is, hdrives, hok, -⟩ := finishes_free (P := Ready 0 0 sampleMem) (weightsGo 0x100 3)
    (by decide) (started sampleMem) ⟨hstarts.ready, hstarts.late⟩
  refine ⟨is, hdrives, leads_weightsGo_bounded 0x100 (by decide) _ is hstarts.ready hdrives hok _
    (polls_replicate 896) ?_⟩
  rw [count_replicate offers_willing]

/-- **The wait of `npu_wait_execution`**: the write side has taken all flits of its transfer after
344 + 184 `b` cycles in which both DMA engines are willing. -/
theorem leads_batchGo_bounded {D : Dma} {R c : BitVec 32} {mem : Mem} {W : Matrix8}
    {weights src dst : BitVec 32} (seqRows : Option (BitVec 32)) {b : Nat}
    (hbuffers : Buffers weights src dst b) (hweights : HoldsWeights mem weights.toNat W) :
    Leads (Ready (D := D) R c mem) (batchGo weights src dst seqRows b) fun s => ∀ is : List (In D),
      (∀ i ∈ is, i.Polls) → 344 + 184 * b ≤ count step (fun s i => s.offers i && s.takes i) s is →
        (run step s is).writing = [] := by
  intro s is hs hdrives hlate js hjs hwilling
  obtain ⟨r, h, -⟩ := leads_batchGo seqRows hbuffers hweights s is hs hdrives hlate
  have hrun := h.run hbuffers.apart_words hbuffers.length_lt hjs
  have hzero : 344 + 23 * (8 * b) -
      count step (fun s i => s.offers i && s.takes i) (run step s is) js = 0 := by omega
  rw [hzero] at hrun
  exact hrun.writing_eq_nil

/-- Two matrices, and 712 cycles of willing engines behind GO. -/
theorem leads_batchGo_bounded_sample : ∃ is,
    Drives step Waits Does (batchGo 0x100 0x1000 0x2000 (some 12) 2) (started sampleMem) is ∧
      (run step (run step (started sampleMem) is) (List.replicate 712 (.willing none))).writing =
        [] := by
  have hstarts := starts_started sampleMem
  obtain ⟨is, hdrives, hok, -⟩ := finishes_batchGo (some 12) buffers_sample holdsWeights_sampleMem
    (started sampleMem) ⟨hstarts.ready, hstarts.late⟩
  refine ⟨is, hdrives, leads_batchGo_bounded (some 12) buffers_sample holdsWeights_sampleMem _ is
    hstarts.ready hdrives hok _ (polls_replicate 712) ?_⟩
  rw [count_replicate willing_both]

end Soc

end Npu
