import Npu.SocStream

/-!
# Npu.SocBatch

A whole batch on the system: weights, `SEQ_TOTAL_ROWS` or not, `npu_get_matrix`,
`npu_load_matrix` and `npu_wait_execution`, with `Buffers` that the DMA engines take.

When the wait is over, the outputs of the rows delivered are the reference products and all other
bytes are as before (`Streaming.outputs`); if all rows are delivered the system is ready for the
next batch.
-/

namespace Npu

open ByteMem Lanes Machine

namespace Soc

variable {D : Dma} {s : Soc D} {i : In D} {r : Rest} {words : List Nat} {B o n : Nat}

/-- Between two batches: the system is at rest without a transfer, at row `c` under
`SEQ_TOTAL_ROWS` `R`, with the memory `mem`. -/
def Ready (R c : BitVec 32) (mem : Mem) (s : Soc D) : Prop :=
  ∃ r, Rests r [] s ∧ r.seqTotalRows = R ∧ r.txRowCount = c ∧ r.mem = mem ∧ r.writing = []

/-- The system as it is started: the unit is reset, the DMA engines are idle. -/
structure Starts (s : Soc D) : Prop extends Settled s where
  unit : ∃ outFifo, s.unit = .reset outFifo
  reading : s.reading = []
  writing : s.writing = []

theorem Starts.ready (h : Starts s) : Ready 0 0 s.mem s := by
  obtain ⟨outFifo, hunit⟩ := h.unit
  refine ⟨⟨false, 0, 0, (.init : Accelerator 8 (BitVec 8)).loaded,
    (.init : Accelerator 8 (BitVec 8)).matrix, s.mem, D.read.regs s.read, D.write.regs s.write, []⟩,
    ⟨⟨?_, ?_, rfl, rfl⟩, h.toSettled, ?_, ?_, rfl, h.writing, h.reading,
      D.read.fetched_of_idle h.reading⟩, rfl, rfl, rfl, rfl⟩
  · simp [hunit, NpuUnit.reset, NpuCtrl.reset]
  · rw [hunit]
    rfl
  · rw [hunit]
    exact ⟨.init, NpuUnit.owes_reset outFifo s.quiet, rfl, rfl⟩
  · rw [hunit]
    rfl

theorem length_matrixWords (addr : BitVec 32) (n : Nat) : (matrixWords addr n).length = 8 * n := by
  rw [matrixWords, List.length_map, List.length_range]

/-! ## buffers -/

/-- The buffers of a batch of `b` matrices: those of descriptors, the outputs apart from the
inputs. -/
structure Buffers (weights src dst : BitVec 32) (b : Nat) : Prop where
  fits_weights : Fits weights.toNat (npuMatBytes * 1)
  fits_src : Fits src.toNat (npuMatBytes * b)
  fits_dst : Fits dst.toNat (npuOutBytes * b)
  apart : src.toNat + npuMatBytes * b ≤ dst.toNat ∨ dst.toNat + npuOutBytes * b ≤ src.toNat

variable {weights src dst : BitVec 32} {b : Nat}

theorem Buffers.pos (h : Buffers weights src dst b) : 0 < b := by
  obtain ⟨hpos, -⟩ := h.fits_src
  exact Nat.pos_of_mul_pos_left hpos

/-- The rows are read from outside of the outputs. -/
theorem Buffers.apart_words (h : Buffers weights src dst b) :
    Apart (matrixWords src b) dst.toNat := by
  have hapart := h.apart
  intro addr haddr
  rw [length_matrixWords]
  obtain ⟨t, ht, rfl⟩ := List.mem_map.mp haddr
  rw [List.mem_range] at ht
  rw [npuMatBytes, npuOutBytes] at hapart
  omega

theorem Buffers.length_lt (h : Buffers weights src dst b) : (matrixWords src b).length < 2 ^ 32 := by
  obtain ⟨-, hle, -⟩ := h.fits_src
  rw [npuMatBytes, maxTransfer] at hle
  rw [length_matrixWords]
  omega

/-! ## streaming -/

/-- The rest in which the rows of `b` matrices are to stream. -/
def batchRest (r : Rest) (dst src : BitVec 32) (b : Nat) : Rest :=
  { r with
    mode := false
    readRegs := ⟨src, 0, BitVec.ofNat 32 (npuMatBytes * b)⟩
    writeRegs := ⟨0, dst, BitVec.ofNat 32 (npuOutBytes * b)⟩
    writing := [{ address := dst.toNat, length := npuOutBytes * b }] }

/-- **`npu_get_matrix`** commits a transfer for the outputs. -/
theorem leads_npuGetMatrix (r : Rest) (hwriting : r.writing = []) (dst : BitVec 32) {b : Nat}
    (hdst : Fits dst.toNat (npuOutBytes * b)) :
    Leads (Rests (D := D) r []) (npuGetMatrix dst b) (Rests { r with
      writeRegs := ⟨0, dst, BitVec.ofNat 32 (npuOutBytes * b)⟩
      writing := [{ address := dst.toNat, length := npuOutBytes * b }] } []) := by
  obtain ⟨writeGo, hwriteGo⟩ : ∃ writeGo, writeGo = Access.iowr .writeDescriptor 0x0C 0x80001000 :=
    ⟨_, rfl⟩
  obtain ⟨pushed, hpushed⟩ : ∃ pushed : Rest, pushed =
      { r with writeRegs := ⟨0, dst, BitVec.ofNat 32 (npuOutBytes * b)⟩ } := ⟨_, rfl⟩
  have hprog : npuGetMatrix dst b = [.iowr .writeDescriptor 0x00 0, .iowr .writeDescriptor 0x04 dst,
      .iowr .writeDescriptor 0x08 (BitVec.ofNat 32 (npuOutBytes * b))] ++ [writeGo] := by
    rw [hwriteGo]
    rfl
  have hrest : [Access.iowr .writeDescriptor 0x00 0, .iowr .writeDescriptor 0x04 dst,
      .iowr .writeDescriptor 0x08 (BitVec.ofNat 32 (npuOutBytes * b))].foldl Rest.access r =
      pushed := by
    simp [hpushed, Descriptor.write, commits]
  have hallows : pushed.Allows writeGo := by
    rw [hwriteGo, hpushed]
    refine ⟨trivial, fun _ => ⟨rfl, hwriting, ?_⟩⟩
    show Fits dst.toNat (BitVec.ofNat 32 (npuOutBytes * b)).toNat
    rwa [Fits.toNat_ofNat hdst]
  have hgo : pushed.access writeGo = { pushed with
      writing := [{ address := dst.toNat, length := npuOutBytes * b }] } := by
    simp [hwriteGo, hpushed, Descriptor.write, Descriptor.transfer, commits, hwriting,
      Fits.toNat_ofNat hdst]
  rw [hprog]
  refine leads_append (leads_rest r _ (by simp [Access.plain, commits])) ?_
  rw [hrest, hpushed] at *
  refine leads_cons (rests_waits _) (fun s i h hlate hdoes => ?_) (leads_nil (rests_waits _))
  have hstep := h.does hlate hdoes hallows
  rw [hgo] at hstep
  rwa [hwriteGo] at hstep

/-- **`npu_load_matrix`** starts streaming. -/
theorem leads_npuLoadMatrix (r : Rest) (hwriting : r.writing = [])
    (hbuffers : Buffers weights src dst b) {as : List Access} {Q : Soc D → Prop}
    (h : Leads (Streams (batchRest r dst src b) (matrixWords src b) dst.toNat (344 + 23 * (8 * b)))
      as Q) :
    Leads (Rests r []) (npuGetMatrix dst b ++ npuLoadMatrix src b ++ as) Q := by
  have hprog : npuLoadMatrix src b ++ as =
      [iowrReg .npuCtrl regCtrl 1, .iowr .readDescriptor 0x00 src, .iowr .readDescriptor 0x04 0,
        .iowr .readDescriptor 0x08 (BitVec.ofNat 32 (npuMatBytes * b))] ++ (readGo :: as) := rfl
  rw [List.append_assoc, hprog]
  refine leads_append (leads_npuGetMatrix r hwriting dst hbuffers.fits_dst)
    (leads_append (leads_rest _ _ (by simp [Access.plain, iowrReg, commits])) ?_)
  have hrest : [iowrReg .npuCtrl regCtrl 1, .iowr .readDescriptor 0x00 src,
      .iowr .readDescriptor 0x04 0, .iowr .readDescriptor 0x08 (BitVec.ofNat 32 (npuMatBytes * b))].foldl
        Rest.access { r with
          writeRegs := ⟨0, dst, BitVec.ofNat 32 (npuOutBytes * b)⟩
          writing := [{ address := dst.toNat, length := npuOutBytes * b }] } =
      batchRest r dst src b := by
    simp [Descriptor.write, batchRest]
  rw [hrest]
  refine leads_cons (rests_waits _) (fun s i hs hlate hdoes => ?_) h
  have hallows : (batchRest r dst src b).Allows readGo := by
    refine ⟨fun _ => ⟨rfl, trivial, ?_⟩, trivial⟩
    show Fits src.toNat (BitVec.ofNat 32 (npuMatBytes * b)).toNat
    rw [Fits.toNat_ofNat hbuffers.fits_src]
    exact hbuffers.fits_src
  have hwords : (batchRest r dst src b).readRegs.words = matrixWords src b :=
    words_eq_matrixWords src 0 hbuffers.fits_src
  have htransfer : (batchRest r dst src b).writing =
      [{ address := dst.toNat, length := 32 * (matrixWords src b).length }] := by
    have hbatch : npuOutBytes * b = 32 * (8 * b) := by rw [npuOutBytes]; omega
    rw [length_matrixWords, ← hbatch]
    rfl
  have hpos := hbuffers.pos
  have hstreams := streams_of_go hs rfl hlate hallows hdoes hwords htransfer
    (by rw [length_matrixWords]; omega)
  have hgo : (batchRest r dst src b).access readGo = batchRest r dst src b := by
    simp [readGo, Descriptor.write, batchRest]
  rwa [length_matrixWords, hgo] at hstreams

theorem streams_waits (hapart : Apart words o) (hn : words.length < 2 ^ 32) :
    Keeps step Waits LatchesLate (Streams (D := D) r words o B) :=
  fun _ _ h _ hwaits => (h.step hapart hn (.of_waits hwaits)).mono (Nat.sub_le _ _)

/-- **`npu_wait_execution`** returns with the write side through. -/
theorem leads_npuWaitExecution (hapart : Apart words o) (hn : words.length < 2 ^ 32) :
    Leads (Streams (D := D) r words o B) npuWaitExecution
      fun s => Streams r words o B s ∧ Through s := by
  have hdone : ∀ (s : Soc D) i, Streams r words o B s ∧ Through s → i.Polls →
      Streams r words o B (s.step i) ∧ Through (s.step i) :=
    fun s i ⟨h, hthrough⟩ hpolls =>
      ⟨(h.step hapart hn hpolls).mono (Nat.sub_le _ _), hthrough.step hpolls⟩
  have hkeeps : Keeps step Waits LatchesLate
      fun s : Soc D => Streams r words o B s ∧ Through s :=
    fun s i h _ hwaits => hdone s i h (.of_waits hwaits)
  refine leads_cons (streams_waits hapart hn) (fun s i h _ hdoes => ?_)
    (leads_cons hkeeps (fun s i h _ hdoes => ?_) (leads_nil hkeeps))
  · -- the poll finds the write side idle
    exact hdone s i ⟨h, through_of_idle (hdoes.2 .writeCsr 0 rfl)⟩ (.of_does hdoes)
  · exact hdone s i h (.of_does hdoes)

/-! ## the outputs -/

/-- Parsing reads 32 bytes for a row. -/
theorem npuParseOutput_congr {mem mem' : Mem} {addr : Nat} {row : Fin 8}
    (h : ∀ k, k < 32 → mem (addr + row * 32 + k) = mem' (addr + row * 32 + k)) (c : Fin 8) :
    npuParseOutput mem addr row c = npuParseOutput mem' addr row c := by
  obtain ⟨col, hcol⟩ : ∃ col, col = c.val ^^^ 1 := ⟨_, rfl⟩
  have hlt : col < 8 := by
    have hxor : ∀ c : Fin 8, c.val ^^^ 1 < 8 := by decide
    exact hcol ▸ hxor c
  rw [npuParseOutput, npuParseOutput, ← hcol, iord32Direct, iord32Direct, load, load]
  refine congrArg bswap32 (pack_congr fun i hi => ?_)
  have haddr : addr + (row.val * 8 + col) * 4 + i = addr + row.val * 32 + (col * 4 + i) := by omega
  rw [haddr]
  exact h _ (by omega)

/-- The memory holds the inputs of a batch from `src` on. -/
def HoldsInputs (mem : Mem) (src : Nat) (inputs : Nat → Matrix8) (b : Nat) : Prop :=
  ∀ m, m < b → ∀ r c : Fin 8, mem (src + m * npuMatBytes + 8 * r + c) = inputs m r c

/-- The memory holds the weights from `src` on: columns, from the last to the first. -/
def HoldsWeights (mem : Mem) (src : Nat) (W : Matrix8) : Prop :=
  ∀ t r : Fin 8, mem (src + 8 * t + r) = W r (7 - t)

/-- The results of a batch, by row. -/
theorem map_resultAt {π : Equiv.Perm (Fin 8)} {W : Matrix8} {inputs : Nat → Matrix8}
    (hW : r.matrix = fun i j => W (π i) j) (hin : HoldsInputs r.mem src.toNat inputs b) :
    (matrixWords src b).map (resultAt π r) =
      (List.range (8 * b)).map fun k => product W (inputs (k / 8) (Fin.ofNat 8 (k % 8))) := by
  have hrows : (matrixWords src b).map (rowAt π r.mem) = (batchJob π W inputs b).rows := by
    rw [map_rowAt_matrixWords]
    exact readBeats_inputs π hin
  have hcomp : resultAt π r = product r.matrix ∘ rowAt π r.mem := rfl
  rw [hcomp, ← List.map_map, hrows, batchJob, List.map_map]
  refine List.map_congr_left fun k _ => ?_
  rw [Function.comp_apply, hW]
  exact product_perm π W _

/-- **The outputs of a batch**: those of the rows delivered are the reference products, the others
are what stood there before. -/
theorem npuParseOutput_memAfter {π : Equiv.Perm (Fin 8)} {W : Matrix8} {inputs : Nat → Matrix8}
    (hW : r.matrix = fun i j => W (π i) j) (hin : HoldsInputs r.mem src.toNat inputs b) {m : Nat}
    (hm : m < b) (row c : Fin 8) :
    npuParseOutput (memAfter π r (matrixWords src b) o) (o + m * npuOutBytes) row c =
      if 8 * m + row < rowsDelivered r.seqTotalRows r.txRowCount (8 * b) then
        cpuMatmul8x8 (inputs m) W row c
      else npuParseOutput r.mem (o + m * npuOutBytes) row c := by
  obtain ⟨d, hd⟩ : ∃ d, d = rowsDelivered r.seqTotalRows r.txRowCount (8 * b) := ⟨_, rfl⟩
  rw [memAfter, length_matrixWords, ← hd]
  have hrow := row.isLt
  split
  · rename_i hlt
    have hwords : resultWords π r (matrixWords src b) =
        ((List.range (8 * b)).map fun k =>
          product W (inputs (k / 8) (Fin.ofNat 8 (k % 8)))).flatMap NpuUnit.rowWords := by
      rw [resultWords, map_resultAt hW hin]
    rw [cpuMatmul8x8_eq]
    refine npuParseOutput_eq _ _ _ _ _ fun f hf => ?_
    rw [List.getElem?_take_of_lt (by omega), hwords]
    refine getElem?_flatMap_rowWords ?_ _ _
    have hdiv : (8 * m + row.val) / 8 = m := by omega
    have hmod : Fin.ofNat 8 ((8 * m + row.val) % 8) = row := by
      ext
      simp only [Fin.val_ofNat]
      omega
    rw [List.getElem?_map, List.getElem?_range (by omega), Option.map_some, hdiv, hmod]
  · -- nothing is stored there
    rename_i hge
    refine npuParseOutput_congr (fun k hk => storeFlits_frame_ge _ _ ?_) c
    rw [List.length_take, npuOutBytes]
    omega

/-- Outside of the rows delivered nothing is stored. -/
theorem memAfter_frame {π : Equiv.Perm (Fin 8)} {a : Nat}
    (ha : a < o ∨ o + 32 * rowsDelivered r.seqTotalRows r.txRowCount (8 * b) ≤ a) :
    memAfter π r (matrixWords src b) o a = r.mem a := by
  rw [memAfter, length_matrixWords]
  rcases ha with hlt | hge
  · exact storeFlits_frame _ _ hlt
  · refine storeFlits_frame_ge _ _ ?_
    rw [List.length_take]
    omega

/-! ## a batch -/

/-- What a batch leaves of the memory: the outputs of the first `d` rows are the reference
products, all else is as before. -/
structure Outputs (mem mem' : Mem) (dst : Nat) (W : Matrix8) (inputs : Nat → Matrix8) (b d : Nat) :
    Prop where
  parsed : ∀ m, m < b → ∀ row c : Fin 8, 8 * m + row.val < d →
    npuParseOutput mem' (dst + m * npuOutBytes) row c = cpuMatmul8x8 (inputs m) W row c
  frame : ∀ a, a < dst ∨ dst + 32 * d ≤ a → mem' a = mem a

/-- The accesses of a batch up to its wait; `seqRows` is what it writes to `SEQ_TOTAL_ROWS`, if it
does. -/
def batchGo (weights src dst : BitVec 32) (seqRows : Option (BitVec 32)) (b : Nat) : List Access :=
  npuLoadWeights weights 1 ++ seqRows.toList.map (iowrReg .npuCtrl regSeqRows) ++
    (npuGetMatrix dst b ++ npuLoadMatrix src b)

def batchAccesses (weights src dst : BitVec 32) (seqRows : Option (BitVec 32)) (b : Nat) :
    List Access :=
  batchGo weights src dst seqRows b ++ npuWaitExecution

/-- The rows of a batch stream, with the weights `W`, at row `c` under `SEQ_TOTAL_ROWS` `R`. -/
def Streaming (R c : BitVec 32) (mem : Mem) (W : Matrix8) (src dst : BitVec 32) (b : Nat)
    (s : Soc D) : Prop :=
  ∃ r, Streams r (matrixWords src b) dst.toNat (344 + 23 * (8 * b)) s ∧
    r.matrix = (fun i j => W (D.read.order i) j) ∧ r.mem = mem ∧ r.seqTotalRows = R ∧ r.txRowCount = c

/-- The rest once weights and `SEQ_TOTAL_ROWS` are written. -/
def weightedRest (r : Rest) (weights : BitVec 32) (seqRows : Option (BitVec 32)) (W : Matrix8) :
    Rest :=
  { r with
    mode := true, loaded := W, matrix := W, seqTotalRows := seqRows.getD r.seqTotalRows
    readRegs := ⟨weights, 0, BitVec.ofNat 32 (npuMatBytes * 1)⟩ }

/-- The weights come first. -/
theorem leads_weights (r : Rest) (weights : BitVec 32) (seqRows : Option (BitVec 32)) {W : Matrix8}
    (hfits : Fits weights.toNat (npuMatBytes * 1)) (hweights : HoldsWeights r.mem weights.toNat W) :
    Leads (Rests (D := D) r [])
      (npuLoadWeights weights 1 ++ seqRows.toList.map (iowrReg .npuCtrl regSeqRows))
      (Rests (weightedRest r weights seqRows fun i j => W (D.read.order i) j) []) := by
  obtain ⟨W', hW'⟩ : ∃ W' : Matrix8, W' = fun i j => W (D.read.order i) j := ⟨_, rfl⟩
  have hbeats : (matrixWords weights 1).map (rowAt D.read.order r.mem) = [] ++ weightBeats W' := by
    rw [map_rowAt_matrixWords, hW']
    exact readBeats_weights D.read.order hweights
  rw [← hW']
  refine leads_append (leads_npuLoadWeights r weights hfits hbeats) ?_
  have hseq := leads_rest (D := D) { r with
    mode := true, loaded := W', matrix := W'
    readRegs := ⟨weights, 0, BitVec.ofNat 32 (npuMatBytes * 1)⟩ }
    (seqRows.toList.map (iowrReg .npuCtrl regSeqRows))
    (by cases seqRows <;> simp [Access.plain, iowrReg])
  have hset : (seqRows.toList.map (iowrReg .npuCtrl regSeqRows)).foldl Rest.access { r with
      mode := true, loaded := W', matrix := W'
      readRegs := ⟨weights, 0, BitVec.ofNat 32 (npuMatBytes * 1)⟩ } =
      weightedRest r weights seqRows W' := by
    cases seqRows <;> simp [weightedRest]
  rwa [hset] at hseq

/-- From ready to streaming. -/
theorem leads_batchGo {R c : BitVec 32} {mem : Mem} {W : Matrix8} (seqRows : Option (BitVec 32))
    (hbuffers : Buffers weights src dst b) (hweights : HoldsWeights mem weights.toNat W) :
    Leads (Ready (D := D) R c mem) (batchGo weights src dst seqRows b)
      (Streaming (seqRows.getD R) c mem W src dst b) := by
  rintro s is ⟨r, hrests, rfl, rfl, rfl, hwriting⟩ hdrives hlate
  obtain ⟨weighted, hweighted⟩ : ∃ weighted, weighted =
      weightedRest r weights seqRows fun i j => W (D.read.order i) j := ⟨_, rfl⟩
  have hload := leads_weights (D := D) r weights seqRows hbuffers.fits_weights hweights
  rw [← hweighted] at hload
  have hstream := leads_npuLoadMatrix (D := D) weighted (by rw [hweighted]; exact hwriting) hbuffers
    (leads_nil (streams_waits hbuffers.apart_words hbuffers.length_lt))
  rw [List.append_nil] at hstream
  refine ⟨_, leads_append hload hstream s is hrests hdrives hlate, ?_⟩
  rw [hweighted]
  exact ⟨rfl, rfl, rfl, rfl⟩

/-- What is there once the write side is through. -/
theorem Streaming.outputs {R c : BitVec 32} {mem : Mem} {W : Matrix8} {inputs : Nat → Matrix8}
    (h : Streaming R c mem W src dst b s) (hthrough : Through s)
    (hinputs : HoldsInputs mem src.toNat inputs b) :
    Outputs mem s.mem dst.toNat W inputs b (rowsDelivered R c (8 * b)) ∧
      (rowsDelivered R c (8 * b) = 8 * b → Ready R (rowCountAfter R c (8 * b)) s.mem s) := by
  obtain ⟨r, h, hmatrix, rfl, rfl, rfl⟩ := h
  refine ⟨⟨fun m hm row c hlt => ?_, fun a ha => ?_⟩, fun hall => ?_⟩
  · rw [h.mem_eq hthrough, npuParseOutput_memAfter hmatrix hinputs hm, if_pos hlt]
  · rw [h.mem_eq hthrough, memAfter_frame ha]
  · have hready := h.rests hthrough (by rw [length_matrixWords]; exact hall)
    rw [length_matrixWords] at hready
    exact ⟨_, hready, rfl, rfl, hready.mem.symm, rfl⟩

/-- The wait keeps a batch streaming and ends with the write side through. -/
theorem leads_streamingWait {R c : BitVec 32} {mem : Mem} {W : Matrix8}
    (hbuffers : Buffers weights src dst b) :
    Leads (Streaming (D := D) R c mem W src dst b) npuWaitExecution
      fun s => Streaming R c mem W src dst b s ∧ Through s := by
  rintro s is ⟨r, h, hr⟩ hdrives hlate
  obtain ⟨h', hdone⟩ := leads_npuWaitExecution hbuffers.apart_words hbuffers.length_lt s is h hdrives
    hlate
  exact ⟨⟨r, h', hr⟩, hdone⟩

/-- From ready to the end of the wait. -/
theorem leads_batchDone {R c : BitVec 32} {mem : Mem} {W : Matrix8} (seqRows : Option (BitVec 32))
    (hbuffers : Buffers weights src dst b) (hweights : HoldsWeights mem weights.toNat W) :
    Leads (Ready (D := D) R c mem) (batchAccesses weights src dst seqRows b)
      fun s => Streaming (seqRows.getD R) c mem W src dst b s ∧ Through s :=
  leads_append (leads_batchGo seqRows hbuffers hweights) (leads_streamingWait hbuffers)

end Soc

end Npu
