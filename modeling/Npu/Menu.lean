import Npu.SocRuns

/-!
# Npu.Menu

The test program: the items of the menu of `main`, as programs of accesses, and what each of
them reports.

A session is any sequence of items.  What one item leaves behind for the next is the row counter
of the unit, which no register shows and no write resets, and `SEQ_TOTAL_ROWS`: `MenuItem.next`.
An item `Fits` if its rows do not meet an EOP before the last one.  The tests that stream a batch
are a `BatchTest` each: a setup that leaves the unit alone, and a batch whose data it has put
in place.
-/

namespace Npu

open ByteMem Lanes Machine

/-! ## memory -/

def physicalBase : BitVec 32 := 0x20000000

/-- Clears `n` words of 32 bits. -/
def clearWords (mem : Mem) (addr n : Nat) : Mem :=
  (List.range n).foldl (fun mem i => iowr32Direct mem addr (i * 4) 0) mem

theorem clearWords_frame (mem : Mem) {addr n a : Nat} (h : ¬ (addr ≤ a ∧ a < addr + 4 * n)) :
    clearWords mem addr n a = mem a := by
  let R : Nat → Nat → Prop := fun i a => addr + i * 4 ≤ a ∧ a < addr + i * 4 + 4
  have hframe : ∀ mem i a, ¬ R i a → iowr32Direct mem addr (i * 4) 0 a = mem a :=
    fun mem i a ha => store_of_not_mem _ _ ha
  refine foldl_frame hframe (fun i hi => ?_) mem
  rw [List.mem_range] at hi
  show ¬ (_ ∧ _)
  omega

theorem clearWords_hit (mem : Mem) {addr n k : Nat} (h : k < 4 * n) :
    clearWords mem addr n (addr + k) = 0 := by
  let R : Nat → Nat → Prop := fun i a => addr + i * 4 ≤ a ∧ a < addr + i * 4 + 4
  have hframe : ∀ mem i a, ¬ R i a → iowr32Direct mem addr (i * 4) 0 a = mem a :=
    fun mem i a ha => store_of_not_mem _ _ ha
  have hzero : ∀ i, i < 4 → lane 8 (0 : BitVec 32) i = 0 := by decide
  refine foldl_hit hframe (i := k / 4) (fun mem => ?_) (List.mem_range.mpr (by omega))
    (fun j _ hj => ?_) mem
  · have haddr : addr + k = addr + k / 4 * 4 + k % 4 := by omega
    rw [iowr32Direct, haddr, store_add _ _ _ (Nat.mod_lt k (by decide)), hzero _ (Nat.mod_lt k (by decide))]
  · have hj' : addr + j * 4 ≤ addr + k ∧ addr + k < addr + j * 4 + 4 := hj
    omega

/-- The mismatches that a test counts in `b` output matrices. -/
def totalErrors (mem : Mem) (outputsAddr : Nat) (expected : Nat → Fin 8 → Fin 8 → BitVec 32)
    (b : Nat) : Nat :=
  ((List.range b).flatMap fun m => (List.finRange 8).flatMap fun r =>
    (List.finRange 8).map fun c => (m, r, c)).countP fun p =>
      npuParseOutput mem (outputsAddr + p.1 * npuOutBytes) p.2.1 p.2.2 != expected p.1 p.2.1 p.2.2

theorem totalErrors_eq_zero_iff {mem : Mem} {outputsAddr b : Nat}
    {expected : Nat → Fin 8 → Fin 8 → BitVec 32} : totalErrors mem outputsAddr expected b = 0 ↔
      ∀ m, m < b → ∀ r c,
        npuParseOutput mem (outputsAddr + m * npuOutBytes) r c = expected m r c := by
  rw [totalErrors, List.countP_eq_zero]
  simp only [List.mem_flatMap, List.mem_range, List.mem_map, List.mem_finRange, true_and,
    bne_iff_ne, ne_eq, not_not]
  constructor
  · intro h m hm r c
    exact h (m, r, c) ⟨m, hm, r, c, rfl⟩
  · rintro h _ ⟨m, hm, r, c, rfl⟩
    exact h m hm r c

/-! ## the items -/

/-- The identity. -/
def identity8 : Matrix8 := fun i j => if i = j then 1 else 0

theorem cpuMatmul8x8_identity (A : Matrix8) (i j : Fin 8) :
    cpuMatmul8x8 A identity8 i j = (A i j).signExtend 32 := by
  have hone : ∀ k, (identity8 k j).toInt = if k = j then 1 else 0 := by
    intro k
    rw [identity8]
    split <;> rfl
  rw [cpuMatmul8x8_eq, product, dotProduct]
  simp only [hone, mul_ite, mul_one, mul_zero, Finset.sum_ite_eq', Finset.mem_univ, if_true]
  rfl

/-- The items of the menu; the last one draws its data at random. -/
inductive MenuItem where
  | macPe
  | fullSystem
  | streamingBatch
  | performance (weights : Matrix8) (inputs : Nat → Matrix8) (batchCount : Int)

namespace MenuItem

/-- `verify_mac_pe`. -/
def macPeProgram : List Access :=
  [iowrReg .npuCtrl 9 7, iowrReg .npuCtrl 8 3, iowrReg .npuCtrl 8 0, iowrReg .npuCtrl 7 1,
    iowrReg .npuCtrl 7 0, iowrReg .npuCtrl 9 3, iowrReg .npuCtrl 10 10, iowrReg .npuCtrl 8 2,
    iowrReg .npuCtrl 8 0, .iord 11]

def dmaInit : List Access := msgdmaInit .readCsr ++ msgdmaInit .writeCsr

def testInputs : Matrix8 := fun r c => BitVec.ofNat 8 (r * 8 + c + 1)

/-- 256 bytes of each region. -/
def clearRegions (mem : Mem) : Mem :=
  (List.range 64).foldl (fun mem i =>
    iowr32Direct
      (iowr32Direct
        (iowr32Direct mem physicalBase.toNat (i * 4) 0) (physicalBase + 0x1000).toNat (i * 4) 0)
      (physicalBase + 0x2000).toNat (i * 4) 0) mem

/-- What `verify_full_system` writes to memory. -/
def fullSystemMemory (mem : Mem) : Mem :=
  npuFormatInputs (npuFormatWeights (clearRegions mem) physicalBase.toNat identity8)
    (physicalBase + 0x1000).toNat testInputs

/-- `verify_full_system`. -/
def fullSystemProgram : List Access :=
  dmaInit ++ [iowrReg .npuCtrl regCtrl 0, iowrReg .npuCtrl regCtrl 0,
    .poll .npuCtrl (regStatus * 4), .memory fullSystemMemory] ++
    npuLoadWeights physicalBase 1 ++ npuGetMatrix (physicalBase + 0x2000) 1 ++
    npuLoadMatrix (physicalBase + 0x1000) 1 ++ npuWaitExecution

def streamInputs (i : Nat) : Matrix8 := fun r c =>
  BitVec.ofInt 8 (((i * 10 + r * 8 + c) % 256 : Nat) - 128)

/-- What `verify_streaming_batch` writes to memory. -/
def streamingMemory (mem : Mem) : Mem :=
  clearWords
    (formatBatch (npuFormatWeights mem physicalBase.toNat identity8)
      (physicalBase + 0x100000).toNat streamInputs 10)
    (physicalBase + 0x200000).toNat (10 * npuOutBytes / 4)

/-- `verify_streaming_batch`. -/
def streamingBatchProgram : List Access :=
  dmaInit ++ [.memory streamingMemory] ++ npuLoadWeights physicalBase 1 ++
    [iowrReg .npuCtrl regSeqRows (BitVec.ofNat 32 (10 * 8))] ++
    npuGetMatrix (physicalBase + 0x200000) 10 ++ npuLoadMatrix (physicalBase + 0x100000) 10 ++
    npuWaitExecution

/-- What `verify_performance_cpu_vs_npu` writes to memory. -/
def performanceMemory (weights : Matrix8) (inputs : Nat → Matrix8) (b : Nat) (mem : Mem) : Mem :=
  formatBatch (npuFormatWeights mem physicalBase.toNat weights) (physicalBase + 0x100000).toNat
    inputs b

/-- `verify_performance_cpu_vs_npu`: counts out of range are refused. -/
def performanceProgram (weights : Matrix8) (inputs : Nat → Matrix8) (batchCount : Int) :
    List Access :=
  if batchCount ≤ 0 then []
  else if 4000 < batchCount then []
  else
    let b := batchCount.toNat
    dmaInit ++ [.memory (performanceMemory weights inputs b)] ++ npuLoadWeights physicalBase 1 ++
      [iowrReg .npuCtrl regSeqRows (BitVec.ofNat 32 (b * 8))] ++
      npuGetMatrix (physicalBase + 0x200000) b ++ npuLoadMatrix (physicalBase + 0x100000) b ++
      npuWaitExecution

def program : MenuItem → List Access
  | .macPe => macPeProgram
  | .fullSystem => fullSystemProgram
  | .streamingBatch => streamingBatchProgram
  | .performance weights inputs batchCount => performanceProgram weights inputs batchCount

/-- The item reports a pass, if it runs its test. -/
def Passes {D : Dma} : MenuItem → Soc D → Prop
  | .macPe, s => s.answer = 31
  | .fullSystem, s =>
      totalErrors s.mem (physicalBase + 0x2000).toNat
        (fun _ r c => BitVec.ofNat 32 (r * 8 + c + 1)) 1 = 0
  | .streamingBatch, s =>
      totalErrors s.mem (physicalBase + 0x200000).toNat
        (fun i r c => (streamInputs i r c).signExtend 32) 10 = 0
  | .performance weights inputs batchCount, s =>
      0 < batchCount → batchCount ≤ 4000 →
        totalErrors s.mem (physicalBase + 0x200000).toNat
          (fun m => cpuMatmul8x8 (inputs m) weights) batchCount.toNat = 0

/-! ## what an item leaves to the next -/

/-- `SEQ_TOTAL_ROWS` and the row counter behind the item. -/
def next : MenuItem → BitVec 32 × BitVec 32 → BitVec 32 × BitVec 32
  | .macPe, rc => rc
  | .fullSystem, (R, c) => (R, rowCountAfter R c 8)
  | .streamingBatch, (_, c) => (80, rowCountAfter 80 c 80)
  | .performance _ _ batchCount, (R, c) =>
      if batchCount ≤ 0 ∨ 4000 < batchCount then (R, c)
      else
        let rows := 8 * batchCount.toNat
        (BitVec.ofNat 32 rows, rowCountAfter (BitVec.ofNat 32 rows) c rows)

/-- All rows of the item are delivered. -/
def Fits : MenuItem → BitVec 32 × BitVec 32 → Prop
  | .macPe, _ => True
  | .fullSystem, (R, c) => rowsDelivered R c 8 = 8
  | .streamingBatch, (_, c) => rowsDelivered 80 c 80 = 80
  | .performance _ _ batchCount, (_, c) =>
      0 < batchCount → batchCount ≤ 4000 →
        rowsDelivered (BitVec.ofNat 32 (8 * batchCount.toNat)) c (8 * batchCount.toNat) =
          8 * batchCount.toNat

/-- Every item of the session fits what the ones before leave. -/
abbrev AllFit (items : List MenuItem) (rc : BitVec 32 × BitVec 32) : Prop :=
  Always (fun rc item => item.next rc) (fun rc item => item.Fits rc) rc items

end MenuItem

/-! ## tests of a batch -/

/-- A test of the menu: what it does to set up its batch, and the batch. -/
structure BatchTest where
  setup : List Access
  onMemory : Mem → Mem
  weights : BitVec 32
  src : BitVec 32
  dst : BitVec 32
  /-- What it writes to `SEQ_TOTAL_ROWS`, if it does. -/
  seqRows : Option (BitVec 32)
  weightMatrix : Matrix8
  inputs : Nat → Matrix8
  batchCount : Nat
  plain_setup : ∀ a ∈ setup, a.plain = true
  free_setup : ∀ a ∈ setup, a.free = true
  /-- The setup leaves all but the memory to the unit. -/
  access_setup : ∀ r : Rest, (setup.foldl Rest.access r).seqTotalRows = r.seqTotalRows ∧
    (setup.foldl Rest.access r).txRowCount = r.txRowCount ∧
      (setup.foldl Rest.access r).mem = onMemory r.mem ∧
        (setup.foldl Rest.access r).writing = r.writing
  buffers : Soc.Buffers weights src dst batchCount
  holdsWeights : ∀ mem, Soc.HoldsWeights (onMemory mem) weights.toNat weightMatrix
  holdsInputs : ∀ mem, Soc.HoldsInputs (onMemory mem) src.toNat inputs batchCount

namespace BatchTest

open Soc

variable {D : Dma} {π : Equiv.Perm (Fin 8)} {R c : BitVec 32} (t : BatchTest)

def program : List Access :=
  t.setup ++ batchAccesses t.weights t.src t.dst t.seqRows t.batchCount

/-- The rows that the test gets. -/
def delivered (R c : BitVec 32) : Nat := rowsDelivered (t.seqRows.getD R) c (8 * t.batchCount)

/-- What the test leaves to the next. -/
def next (R c : BitVec 32) : BitVec 32 × BitVec 32 :=
  (t.seqRows.getD R, rowCountAfter (t.seqRows.getD R) c (8 * t.batchCount))

theorem leads_setup (mem : Mem) :
    Leads (Ready (D := D) R c mem) t.setup (Ready R c (t.onMemory mem)) := by
  rintro s is ⟨r, hrests, rfl, rfl, rfl, hwriting⟩ hdrives hlate
  obtain ⟨hrows, hcount, hmem, hwrite⟩ := t.access_setup r
  exact ⟨_, leads_rest r t.setup t.plain_setup s is hrests hdrives hlate, hrows, hcount, hmem,
    hwrite.trans hwriting⟩

/-- **A test** leaves the outputs of the rows delivered, and is ready for the next if it has got
all. -/
theorem leads (mem : Mem) : Leads (Ready (D := D) R c mem) t.program fun s =>
    Outputs (t.onMemory mem) s.mem t.dst.toNat t.weightMatrix t.inputs t.batchCount
        (t.delivered R c) ∧
      (t.delivered R c = 8 * t.batchCount → Ready (t.next R c).1 (t.next R c).2 s.mem s) :=
  leads_append (t.leads_setup mem)
    ((leads_batchDone t.seqRows t.buffers (t.holdsWeights mem)).mono (fun _ => id) fun _ h =>
      h.1.outputs h.2 (t.holdsInputs mem))

/-- **A test has a run**, whatever it gets. -/
theorem finishes (mem : Mem) : Finishes (π := π) (Ready R c mem) t.program :=
  finishes_append (finishes_free _ t.free_setup) (t.leads_setup mem)
    (finishes_batch t.seqRows t.buffers (t.holdsWeights mem))

end BatchTest

namespace Soc

/-- All rows delivered, all outputs right. -/
theorem Outputs.parsed_all {mem mem' : Mem} {dst b d : Nat} {W : Matrix8} {inputs : Nat → Matrix8}
    (h : Outputs mem mem' dst W inputs b d) (hd : d = 8 * b) {m : Nat} (hm : m < b) (r c : Fin 8) :
    npuParseOutput mem' (dst + m * npuOutBytes) r c = cpuMatmul8x8 (inputs m) W r c :=
  h.parsed m hm r c (by have := r.isLt; omega)

end Soc

namespace MenuItem

open Soc

/-! ## the data in memory -/

theorem base_toNat : physicalBase.toNat = 0x20000000 ∧
    (physicalBase + 0x1000).toNat = 0x20001000 ∧ (physicalBase + 0x2000).toNat = 0x20002000 ∧
      (physicalBase + 0x100000).toNat = 0x20100000 ∧
        (physicalBase + 0x200000).toNat = 0x20200000 := by decide

theorem holdsInputs_performance (W : Matrix8) (inputs : Nat → Matrix8) (b : Nat) (mem : Mem) :
    HoldsInputs (performanceMemory W inputs b mem) (physicalBase + 0x100000).toNat inputs b :=
  fun _ hm r c => formatBatch_add _ _ inputs hm r c

theorem holdsWeights_performance (W : Matrix8) (inputs : Nat → Matrix8) (b : Nat) (mem : Mem) :
    HoldsWeights (performanceMemory W inputs b mem) physicalBase.toNat W := by
  intro t r
  obtain ⟨hbase, -, -, hinputs, -⟩ := base_toNat
  have ht := t.isLt
  have hr := r.isLt
  rw [performanceMemory, formatBatch_frame _ inputs (by rw [hbase, hinputs]; omega)]
  exact formatWords_add mem _ _ t r

theorem holdsInputs_streaming (mem : Mem) :
    HoldsInputs (streamingMemory mem) (physicalBase + 0x100000).toNat streamInputs 10 := by
  intro m hm r c
  obtain ⟨-, -, -, hinputs, houtputs⟩ := base_toNat
  have hr := r.isLt
  have hc := c.isLt
  have hbytes : npuOutBytes = 256 ∧ npuMatBytes = 64 := ⟨rfl, rfl⟩
  rw [streamingMemory, clearWords_frame _ (by rw [hinputs, houtputs, hbytes.1, hbytes.2]; omega)]
  exact formatBatch_add _ _ streamInputs hm r c

theorem holdsWeights_streaming (mem : Mem) :
    HoldsWeights (streamingMemory mem) physicalBase.toNat identity8 := by
  intro t r
  obtain ⟨hbase, -, -, -, houtputs⟩ := base_toNat
  have ht := t.isLt
  have hr := r.isLt
  have hbytes : npuOutBytes = 256 := rfl
  rw [streamingMemory, clearWords_frame _ (by rw [hbase, houtputs, hbytes]; omega)]
  exact holdsWeights_performance identity8 streamInputs 10 mem t r

theorem holdsInputs_fullSystem (mem : Mem) :
    HoldsInputs (fullSystemMemory mem) (physicalBase + 0x1000).toNat (fun _ => testInputs) 1 := by
  intro m hm r c
  obtain rfl : m = 0 := by omega
  rw [Nat.zero_mul, Nat.add_zero, fullSystemMemory, npuFormatInputs]
  exact formatWords_add _ _ (fun r c => testInputs r c) r c

theorem holdsWeights_fullSystem (mem : Mem) :
    HoldsWeights (fullSystemMemory mem) physicalBase.toNat identity8 := by
  intro t r
  obtain ⟨hbase, hinputs, -⟩ := base_toNat
  have ht := t.isLt
  have hr := r.isLt
  rw [fullSystemMemory, npuFormatInputs, formatWords_frame _ _ (by rw [hbase, hinputs, npuMatBytes]; omega)]
  exact formatWords_add (clearRegions mem) _ _ t r

/-! ## the items as tests -/

/-- Both DMA engines and the memory are set up, nothing else. -/
theorem plain_dmaSetup (f : Mem → Mem) : ∀ a ∈ dmaInit ++ [.memory f], a.plain = true := by
  simp [dmaInit, msgdmaInit, Access.plain]

theorem free_dmaSetup (f : Mem → Mem) : ∀ a ∈ dmaInit ++ [.memory f], a.free = true := by
  simp [dmaInit, msgdmaInit, Access.free]

/-- The buffers of a batch that `verify_performance_cpu_vs_npu` does not refuse: 4000 outputs are
less than 1 MB. -/
theorem performance_buffers {b : Nat} (hpos : 0 < b) (hb : b ≤ 4000) :
    Soc.Buffers physicalBase (physicalBase + 0x100000) (physicalBase + 0x200000) b := by
  have hbytes : npuOutBytes = 256 ∧ npuMatBytes = 64 ∧ maxTransfer = 1048576 := ⟨rfl, rfl, rfl⟩
  obtain ⟨hbase, -, -, hinputs, houtputs⟩ := base_toNat
  refine ⟨by rw [hbase]; decide, ?_, ?_, .inl ?_⟩ <;> simp only [Npu.Fits, hinputs, houtputs, hbytes] <;>
    omega

theorem fullSystem_buffers :
    Soc.Buffers physicalBase (physicalBase + 0x1000) (physicalBase + 0x2000) 1 :=
  ⟨by decide, by decide, by decide, .inl (by decide)⟩

def fullSystemTest : BatchTest where
  setup := dmaInit ++ [iowrReg .npuCtrl regCtrl 0, iowrReg .npuCtrl regCtrl 0,
    .poll .npuCtrl (regStatus * 4), .memory fullSystemMemory]
  onMemory := fullSystemMemory
  weights := physicalBase
  src := physicalBase + 0x1000
  dst := physicalBase + 0x2000
  seqRows := none
  weightMatrix := identity8
  inputs := fun _ => testInputs
  batchCount := 1
  plain_setup := by simp [dmaInit, msgdmaInit, Access.plain, iowrReg]
  free_setup := by
    simp [dmaInit, msgdmaInit, Access.free, iowrReg, regCtrl, regStatus]
  access_setup := by simp [dmaInit, msgdmaInit]
  buffers := fullSystem_buffers
  holdsWeights := holdsWeights_fullSystem
  holdsInputs := holdsInputs_fullSystem

def streamingTest : BatchTest where
  setup := dmaInit ++ [.memory streamingMemory]
  onMemory := streamingMemory
  weights := physicalBase
  src := physicalBase + 0x100000
  dst := physicalBase + 0x200000
  seqRows := some 80
  weightMatrix := identity8
  inputs := streamInputs
  batchCount := 10
  plain_setup := plain_dmaSetup streamingMemory
  free_setup := free_dmaSetup streamingMemory
  access_setup := by simp [dmaInit, msgdmaInit]
  buffers := performance_buffers (by decide) (by decide)
  holdsWeights := holdsWeights_streaming
  holdsInputs := holdsInputs_streaming

def performanceTest (W : Matrix8) (inputs : Nat → Matrix8) (b : Nat) (hpos : 0 < b) (hb : b ≤ 4000) :
    BatchTest where
  setup := dmaInit ++ [.memory (performanceMemory W inputs b)]
  onMemory := performanceMemory W inputs b
  weights := physicalBase
  src := physicalBase + 0x100000
  dst := physicalBase + 0x200000
  seqRows := some (BitVec.ofNat 32 (b * 8))
  weightMatrix := W
  inputs := inputs
  batchCount := b
  plain_setup := plain_dmaSetup (performanceMemory W inputs b)
  free_setup := free_dmaSetup (performanceMemory W inputs b)
  access_setup := by simp [dmaInit, msgdmaInit]
  buffers := performance_buffers hpos hb
  holdsWeights := holdsWeights_performance W inputs b
  holdsInputs := holdsInputs_performance W inputs b

/-- A count out of range is refused; the others are a test. -/
theorem performance_cases (W : Matrix8) (inputs : Nat → Matrix8) (batchCount : Int) :
    ((batchCount ≤ 0 ∨ 4000 < batchCount) ∧ (performance W inputs batchCount).program = [] ∧
        ∀ rc, (performance W inputs batchCount).next rc = rc) ∨
      ∃ b hpos hb, batchCount = (b : Nat) ∧
        (performance W inputs batchCount).program = (performanceTest W inputs b hpos hb).program ∧
        ∀ R c, (performance W inputs batchCount).next (R, c) =
          (performanceTest W inputs b hpos hb).next R c := by
  by_cases hlo : batchCount ≤ 0
  · exact .inl ⟨.inl hlo, if_pos hlo, fun _ => if_pos (.inl hlo)⟩
  · by_cases hhi : 4000 < batchCount
    · refine .inl ⟨.inr hhi, ?_, fun _ => if_pos (.inr hhi)⟩
      rw [program, performanceProgram, if_neg hlo, if_pos hhi]
    · obtain ⟨b, rfl⟩ : ∃ b : Nat, batchCount = b := ⟨batchCount.toNat, by omega⟩
      refine .inr ⟨b, by omega, by omega, rfl, ?_, fun R c => ?_⟩
      · rw [program, performanceProgram, if_neg hlo, if_neg hhi]
        rfl
      · rw [next, if_neg (by omega), BatchTest.next, performanceTest, Option.getD_some, Nat.mul_comm b,
          Int.toNat_natCast]

end MenuItem

end Npu
