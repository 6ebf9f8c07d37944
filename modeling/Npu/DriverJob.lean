import Npu.Driver
import Npu.UnitOwes

/-!
# Npu.DriverJob

The driver against the reference.  Formatting, the DMA's byte order, the unit and parsing
compose: what the driver reads back is the product that the CPU computes
(`driver_agrees_with_cpu`).  A byte order of the read side permutes the rows of the weights
and the lanes of the inputs alike, so it cancels in the product (`product_perm`).
-/

namespace Npu

open ByteMem Lanes Machine

/-! ## the reference product -/

/-- The reference computes the product, row by row. -/
theorem cpuMatmul8x8_eq (A B : Matrix8) (i j : Fin 8) :
    cpuMatmul8x8 A B i j = product B (A i) j := by
  have hterm : ∀ k, (A i k).signExtend 32 * (B k j).signExtend 32 =
      BitVec.ofInt 32 ((A i k).toInt * (B k j).toInt) := by
    intro k
    rw [BitVec.ofInt_mul]
    rfl
  have hlist : List.finRange 8 = [0, 1, 2, 3, 4, 5, 6, 7] := rfl
  simp only [cpuMatmul8x8, hterm, hlist, List.foldl_cons, List.foldl_nil, product, dotProduct,
    Fin.sum_univ_eight, BitVec.ofInt_add, zero_add]

/-- One permutation of the rows of the weights and the lanes of the row cancels. -/
theorem product_perm (π : Equiv.Perm (Fin 8)) (W : Matrix8) (x : Fin 8 → BitVec 8) :
    product (fun i j => W (π i) j) (fun i => x (π i)) = product W x := by
  funext j
  rw [product, product, dotProduct, dotProduct]
  congr 1
  exact Equiv.sum_comp π fun i => (x i).toInt * (W i j).toInt

/-! ## the job of a batch -/

/-- What a batch is to the unit. -/
def batchJob (π : Equiv.Perm (Fin 8)) (W : Matrix8) (inputs : Nat → Matrix8) (b : Nat) : Job where
  weights i j := W (π i) j
  rows := (List.range (8 * b)).map fun k i => inputs (k / 8) (Fin.ofNat 8 (k % 8)) (π i)

/-- The lanes of the beats that the DMA reads. -/
theorem lanes_readBeats (π : Equiv.Perm (Fin 8)) (mem : Mem) (addr k : Nat) :
    (readBeats π mem addr k).map lanes =
      (List.range k).map fun t i => mem (addr + 8 * t + π i) := by
  rw [readBeats, List.map_map]
  refine List.map_congr_left fun t _ => funext fun i => ?_
  exact (lane_pack _ i.isLt).trans (by rw [Fin.ofNat_val_eq_self])

theorem readBeats_weights (π : Equiv.Perm (Fin 8)) {mem : Mem} {addr : Nat} {W : Matrix8}
    (h : ∀ t r : Fin 8, mem (addr + 8 * t + r) = W r (7 - t)) :
    (readBeats π mem addr 8).map lanes = weightBeats fun i j => W (π i) j := by
  have hrev : ∀ t : Fin 8, 7 - t = t.rev := by decide
  rw [lanes_readBeats, ← List.map_coe_finRange_eq_range, List.map_map, weightBeats]
  refine List.map_congr_left fun t _ => funext fun i => ?_
  exact (h t (π i)).trans (by rw [hrev])

theorem readBeats_inputs (π : Equiv.Perm (Fin 8)) {mem : Mem} {addr b : Nat} {W : Matrix8}
    {inputs : Nat → Matrix8} (h : ∀ m, m < b → ∀ r c : Fin 8,
      mem (addr + m * npuMatBytes + 8 * r + c) = inputs m r c) :
    (readBeats π mem addr (8 * b)).map lanes = (batchJob π W inputs b).rows := by
  rw [lanes_readBeats, batchJob]
  refine List.map_congr_left fun k hk => funext fun i => ?_
  rw [List.mem_range] at hk
  have haddr : addr + 8 * k + (π i).val =
      addr + k / 8 * npuMatBytes + 8 * (Fin.ofNat 8 (k % 8)).val + (π i).val := by
    simp only [npuMatBytes, Fin.val_ofNat]
    omega
  rw [haddr]
  exact h (k / 8) (by omega) _ (π i)

/-- The flits of row `k`. -/
theorem getElem?_flatMap_rowWords {rows : List (Fin 8 → BitVec 32)} {k f : Nat}
    {y : Fin 8 → BitVec 32} (hk : rows[k]? = some y) (hhi : 2 * f + 1 < 8) (hlo : 2 * f < 8) :
    (rows.flatMap NpuUnit.rowWords)[4 * k + f]? =
      some (y ⟨2 * f + 1, hhi⟩ ++ y ⟨2 * f, hlo⟩) := by
  induction rows generalizing k with
  | nil => cases hk
  | cons x rows ih =>
      have hlen : (NpuUnit.rowWords x).length = 4 := rfl
      rw [List.flatMap_cons]
      cases k with
      | zero =>
          obtain rfl : x = y := by simpa using hk
          rw [List.getElem?_append_left (by omega)]
          have hflit : f = 0 ∨ f = 1 ∨ f = 2 ∨ f = 3 := by omega
          rcases hflit with rfl | rfl | rfl | rfl <;> rfl
      | succ k =>
          have hidx : 4 * (k + 1) + f - 4 = 4 * k + f := by omega
          rw [List.getElem?_append_right (by omega), hlen, hidx]
          exact ih (by simpa using hk)

/-- **The driver agrees with the CPU**: from any reachable empty unit, format the weights `W`
and `b` inputs into disjoint buffers, run them as a job with the beats that the DMA reads, and
store its flits until 344 cycles without a beat have found the source ready; then the parsed
outputs are the reference products, whatever the order `π` of the bytes on the read side. -/
theorem driver_agrees_with_cpu (outFifo : BitVec 3 → BitVec 256) (before : List NpuUnit.In)
    (π : Equiv.Perm (Fin 8)) (W : Matrix8) (inputs : Nat → Matrix8) (b : Nat) (mem : Mem)
    (weightsAddr inputsAddr outputsAddr : Nat)
    (hdisjoint : weightsAddr + npuMatBytes ≤ inputsAddr ∨
      inputsAddr + b * npuMatBytes ≤ weightsAddr) {t : JobInputs} {drain : List NpuUnit.In} :
    let u := run NpuUnit.step (NpuUnit.reset outFifo) before
    let formatted := formatBatch (npuFormatWeights mem weightsAddr W) inputsAddr inputs b
    let flits := emits NpuUnit.step NpuUnit.sentWord u (t.all ++ drain)
    u.Empty → u.JobTiming t →
      emits NpuUnit.step NpuUnit.acceptedWeightBeat u t.load =
        readBeats π formatted weightsAddr 8 →
      emits NpuUnit.step NpuUnit.acceptedRowBeat (run NpuUnit.step u t.loading) t.stream =
        readBeats π formatted inputsAddr (8 * b) →
      (∀ i ∈ drain, i.stSinkValid = false) → 344 ≤ drain.countP NpuUnit.In.stSourceReady →
      ∀ m, m < b → ∀ r c : Fin 8,
        npuParseOutput (storeFlits formatted outputsAddr flits) (outputsAddr + m * npuOutBytes)
            r c = cpuMatmul8x8 (inputs m) W r c := by
  intro u formatted flits hempty htiming hweights hrows hidle hready m hm r c
  have hwf : u.stream.Wf := NpuUnit.wf_run (StreamCtrl.wf_reset outFifo) before
  have hjob : u.RunsJob (batchJob π W inputs b) { t with stream := t.stream ++ drain } :=
    { toJobTiming := htiming.append_idle hidle
      load_beats := by
        rw [hweights]
        refine readBeats_weights π fun t r => ?_
        have ht := t.isLt
        have hr := r.isLt
        rw [npuMatBytes] at hdisjoint
        exact (formatBatch_frame _ inputs (by rw [npuMatBytes]; omega)).trans
          (formatWords_add mem weightsAddr _ t r)
      stream_rows := by
        have hnone : emits NpuUnit.step NpuUnit.acceptedRowBeat
            (run NpuUnit.step u t.loading) (t.stream ++ drain) =
              readBeats π formatted inputsAddr (8 * b) := by
          rw [emits_append, hrows, NpuUnit.acceptedRowBeat_of_idle hidle, List.append_nil]
        refine (congrArg (List.map lanes) hnone).trans ?_
        exact readBeats_inputs π fun m hm r c => formatBatch_add _ inputsAddr inputs hm r c }
  -- the unit drains, so its flits are the words of the job
  have hall : JobInputs.all { t with stream := t.stream ++ drain } = t.all ++ drain :=
    (List.append_assoc _ _ _).symm
  obtain ⟨rest, hwords, hrest⟩ := hjob.words hempty hwf
  have hdrained := hempty.empty_of_ready hwf (htiming.loadsApart hempty) hidle hready
  rw [hall] at hwords hrest
  rw [hrest.mpr hdrained, List.append_nil] at hwords
  rw [cpuMatmul8x8_eq]
  refine npuParseOutput_eq _ _ _ _ _ fun f hf => ?_
  have hflits : flits = ((batchJob π W inputs b).rows.map
      (product (batchJob π W inputs b).weights)).flatMap NpuUnit.rowWords := by
    rw [List.flatMap_map]
    exact hwords.symm
  rw [hflits]
  refine getElem?_flatMap_rowWords ?_ _ _
  have hr := r.isLt
  have hrow : (batchJob π W inputs b).rows[8 * m + r.val]? = some fun i => inputs m r (π i) := by
    have hdiv : (8 * m + r.val) / 8 = m := by omega
    have hmod : Fin.ofNat 8 ((8 * m + r.val) % 8) = r := by
      ext
      simp only [Fin.val_ofNat]
      omega
    rw [batchJob, List.getElem?_map, List.getElem?_range (by omega), Option.map_some, hdiv, hmod]
  rw [List.getElem?_map, hrow, Option.map_some]
  exact congrArg some (product_perm π W (inputs m r))

/-- The inputs of a batch of two matrices. -/
def smallInputs (m : Nat) : Matrix8 := fun r c => BitVec.ofNat 8 (8 * r + c + 3 * m)

/-- The batch, formatted. -/
def smallBatch : Mem :=
  formatBatch (npuFormatWeights (fun _ => 0) 0 fun i j => if i = j then 2 else 255) 64 smallInputs 2

/-- The cycles of the batch, read with the bytes of every word reversed. -/
def smallBatchInputs : JobInputs where
  load := .write 0 3 :: (readBeats Fin.revPerm smallBatch 0 8).map fun beat => .beat beat true
  gap := List.replicate 13 (.idle true) ++ [.write 7 1]
  latch := .write 0 1
  stream := (readBeats Fin.revPerm smallBatch 64 16).flatMap fun beat =>
    [.beat beat true, .idle false, .idle true, .idle true, .idle true]

theorem driver_agrees_on_smallBatch :
    let flits := emits NpuUnit.step NpuUnit.sentWord (NpuUnit.reset fun _ => 0)
      (smallBatchInputs.all ++ List.replicate 344 (.idle true))
    ∀ m, m < 2 → ∀ r c : Fin 8,
      npuParseOutput (storeFlits smallBatch 192 flits) (192 + m * npuOutBytes) r c =
        cpuMatmul8x8 (smallInputs m) (fun i j => if i = j then 2 else 255) r c := by
  intro flits
  have hsim := Simulates.reset fun _ => 0
  have hloading : Always RowUnit.step RowUnit.NoOverrun (RowUnit.reset fun _ => 0)
      smallBatchInputs.loading := by decide +kernel
  have hload := hloading
  rw [JobInputs.loading, always_append] at hload
  have hstream : Always RowUnit.step RowUnit.NoOverrun
      (Machine.run RowUnit.step (RowUnit.reset fun _ => 0) smallBatchInputs.loading)
      smallBatchInputs.stream := by decide +kernel
  have htiming : (NpuUnit.reset fun _ => 0).JobTiming smallBatchInputs :=
    ⟨by decide +kernel, by decide, by decide, by decide, by decide +kernel, by decide +kernel⟩
  exact driver_agrees_with_cpu (fun _ => 0) [] Fin.revPerm (fun i j => if i = j then 2 else 255)
    smallInputs 2 (fun _ => 0) 0 64 192 (.inl (by decide)) (NpuUnit.empty_reset _) htiming
    (by
      rw [run_nil, hsim.emits_acceptedWeightBeat hload.1]
      decide +kernel)
    (by
      rw [run_nil, (hsim.run hloading).emits_acceptedRowBeat hstream]
      decide +kernel)
    (by decide +kernel) (by decide +kernel)

end Npu
