import Mathlib.Algebra.BigOperators.Fin
import Npu.Lib.ByteMem
import Npu.StreamFrames

/-!
# Npu.Driver

The data formatting functions of the driver, over a byte memory.  A formatted matrix is
eight words of eight bytes (`formatWords_add`): the rows of an input, the columns of the
weights from the last to the first.

The DMA is not part of the sources.  Its read side hands over the bytes of a word in a fixed
order `π`, its write side stores the bytes of a flit reversed.
-/

namespace Npu

open ByteMem Lanes

/-- `IOWR_32DIRECT`. -/
def iowr32Direct (mem : Mem) (base offset : Nat) (data : BitVec 32) : Mem :=
  store 4 mem (base + offset) data

/-- `IORD_32DIRECT`. -/
def iord32Direct (mem : Mem) (base offset : Nat) : BitVec 32 := load 4 mem (base + offset)

/-- `__builtin_bswap32`. -/
def bswap32 (x : BitVec 32) : BitVec 32 :=
  lane 8 x 0 ++ lane 8 x 1 ++ lane 8 x 2 ++ lane 8 x 3

/-- An 8 × 8 matrix of signed bytes. -/
abbrev Matrix8 := Fin 8 → Fin 8 → BitVec 8

/-- `NPU_MAT_BYTES`: the bytes of one input or weight matrix. -/
def npuMatBytes : Nat := 8 * 8

/-! ## formatting -/

/-- Four bytes in a word, the first one lowest. -/
def wordOfBytes (bytes : Fin 4 → BitVec 8) : BitVec 32 :=
  (List.finRange 4).foldl (fun word c => word ||| ((bytes c).setWidth 32 <<< (c.val * 8))) 0

/-- Word `r` of a formatted matrix: two 32-bit writes. -/
def formatWord (dstAddr : Nat) (bytes : Matrix8) (mem : Mem) (r : Fin 8) : Mem :=
  let low32 := wordOfBytes fun c => bytes r (c.castLE (by decide))
  let high32 := wordOfBytes fun c => bytes r (c.natAdd 4)
  iowr32Direct (iowr32Direct mem dstAddr (r.val * 8 + 0) low32) dstAddr (r.val * 8 + 4) high32

/-- The loop of the two formatting functions: byte `c` of word `r` is `bytes r c`. -/
def formatWords (mem : Mem) (dstAddr : Nat) (bytes : Matrix8) : Mem :=
  (List.finRange 8).foldl (formatWord dstAddr bytes) mem

def npuFormatInputs (mem : Mem) (dstAddr : Nat) (srcMatrix : Matrix8) : Mem :=
  formatWords mem dstAddr fun r c => srcMatrix r c

def npuFormatWeights (mem : Mem) (dstAddr : Nat) (srcMatrix : Matrix8) : Mem :=
  formatWords mem dstAddr fun t r => srcMatrix r (7 - t)

/-- The inputs of a batch of `b` matrices, one after the other. -/
def formatBatch (mem : Mem) (inputsAddr : Nat) (inputs : Nat → Matrix8) (b : Nat) : Mem :=
  (List.range b).foldl
    (fun mem m => npuFormatInputs mem (inputsAddr + m * npuMatBytes) (inputs m)) mem

/-- Column `c` of row `r` of the output. -/
def npuParseOutput (mem : Mem) (srcAddr : Nat) (r c : Fin 8) : BitVec 32 :=
  let hwC := c.val ^^^ 1
  bswap32 (iord32Direct mem srcAddr ((r.val * 8 + hwC) * 4))

/-- The reference product. -/
def cpuMatmul8x8 (A B : Matrix8) (i j : Fin 8) : BitVec 32 :=
  (List.finRange 8).foldl (fun sum k => sum + (A i k).signExtend 32 * (B k j).signExtend 32) 0

/-! ## the DMA -/

/-- The beats of `k` words from `addr` on: lane `l` is byte `π l` of the word. -/
def readBeats (π : Equiv.Perm (Fin 8)) (mem : Mem) (addr k : Nat) : List (BitVec 64) :=
  (List.range k).map fun t => pack 8 fun l => mem (addr + 8 * t + π (Fin.ofNat 8 l))

/-- The flits, stored one after the other from `addr` on with their bytes reversed. -/
def storeFlits (mem : Mem) (addr : Nat) : List (BitVec 64) → Mem
  | [] => mem
  | flit :: flits =>
      storeFlits (store 8 mem addr (pack 8 fun l => lane 8 flit (7 - l))) (addr + 8) flits

/-! ## layouts -/

/-- The lanes of four bytes. -/
theorem lane_bytes (x3 x2 x1 x0 : BitVec 8) :
    lane 8 (x3 ++ x2 ++ x1 ++ x0) 0 = x0 ∧ lane 8 (x3 ++ x2 ++ x1 ++ x0) 1 = x1 ∧
      lane 8 (x3 ++ x2 ++ x1 ++ x0) 2 = x2 ∧ lane 8 (x3 ++ x2 ++ x1 ++ x0) 3 = x3 := by
  refine ⟨?_, ?_, ?_, ?_⟩
  all_goals
    refine BitVec.eq_of_getLsbD_eq fun b hb => ?_
    simp only [getLsbD_lane, BitVec.getLsbD_append]
    grind

theorem wordOfBytes_eq (bytes : Fin 4 → BitVec 8) :
    wordOfBytes bytes = bytes 3 ++ bytes 2 ++ bytes 1 ++ bytes 0 := by
  have hfold : wordOfBytes bytes = 0 ||| (bytes 0).setWidth 32 <<< 0 |||
      (bytes 1).setWidth 32 <<< 8 ||| (bytes 2).setWidth 32 <<< 16 |||
      (bytes 3).setWidth 32 <<< 24 := rfl
  have hbyte : ∀ (x : BitVec 8) k, 8 ≤ k → x.getLsbD k = false :=
    fun x k hk => BitVec.getLsbD_of_ge x k hk
  rw [hfold]
  refine BitVec.eq_of_getLsbD_eq fun b hb => ?_
  simp only [BitVec.getLsbD_or, BitVec.getLsbD_append, BitVec.getLsbD_shiftLeft,
    BitVec.getLsbD_setWidth]
  grind

theorem lane_wordOfBytes (bytes : Fin 4 → BitVec 8) (c : Fin 4) :
    lane 8 (wordOfBytes bytes) c = bytes c := by
  obtain ⟨h0, h1, h2, h3⟩ := lane_bytes (bytes 3) (bytes 2) (bytes 1) (bytes 0)
  rw [wordOfBytes_eq]
  match c with
  | 0 => exact h0
  | 1 => exact h1
  | 2 => exact h2
  | 3 => exact h3

theorem formatWord_add (dstAddr : Nat) (bytes : Matrix8) (mem : Mem) (r c : Fin 8) :
    formatWord dstAddr bytes mem r (dstAddr + 8 * r + c) = bytes r c := by
  obtain ⟨low, hlow⟩ : ∃ low, low = wordOfBytes fun c => bytes r (c.castLE (by decide)) := ⟨_, rfl⟩
  obtain ⟨high, hhigh⟩ : ∃ high, high = wordOfBytes fun c => bytes r (c.natAdd 4) := ⟨_, rfl⟩
  rw [formatWord, ← hlow, ← hhigh, iowr32Direct, iowr32Direct]
  by_cases hc : c.val < 4
  · have hlo : dstAddr + 8 * r.val + c.val = dstAddr + (r.val * 8 + 0) + c.val := by omega
    rw [hlo, store_of_not_mem _ _ (by omega), store_add _ _ _ hc, hlow]
    exact lane_wordOfBytes _ ⟨c.val, hc⟩
  · have hk : c.val - 4 < 4 := by have := c.isLt; omega
    have hhi : dstAddr + 8 * r.val + c.val = dstAddr + (r.val * 8 + 4) + (c.val - 4) := by omega
    have hcol : Fin.natAdd 4 ⟨c.val - 4, hk⟩ = c := by
      ext
      simp only [Fin.val_natAdd]
      omega
    rw [hhi, store_add _ _ _ hk, hhigh, lane_wordOfBytes _ ⟨c.val - 4, hk⟩, hcol]

theorem formatWord_frame (dstAddr : Nat) (bytes : Matrix8) (mem : Mem) (r : Fin 8) (a : Nat)
    (h : ¬ (dstAddr + 8 * r ≤ a ∧ a < dstAddr + 8 * r + 8)) :
    formatWord dstAddr bytes mem r a = mem a := by
  rw [formatWord, iowr32Direct, iowr32Direct, store_of_not_mem _ _ (by omega),
    store_of_not_mem _ _ (by omega)]

/-- The layout of a formatted matrix. -/
theorem formatWords_add (mem : Mem) (dstAddr : Nat) (bytes : Matrix8) (r c : Fin 8) :
    formatWords mem dstAddr bytes (dstAddr + 8 * r + c) = bytes r c := by
  refine foldl_hit (formatWord_frame dstAddr bytes)
    (fun mem => formatWord_add dstAddr bytes mem r c) (List.mem_finRange r) (fun s _ hs => ?_) mem
  have hc := c.isLt
  ext
  omega

theorem formatWords_frame (mem : Mem) {dstAddr : Nat} (bytes : Matrix8) {a : Nat}
    (h : ¬ (dstAddr ≤ a ∧ a < dstAddr + npuMatBytes)) : formatWords mem dstAddr bytes a = mem a := by
  refine foldl_frame (formatWord_frame dstAddr bytes) (fun r _ => ?_) mem
  have hr := r.isLt
  rw [npuMatBytes] at h
  omega

/-- The bytes of matrix `m` of a batch. -/
def InMatrix (inputsAddr m a : Nat) : Prop :=
  inputsAddr + m * npuMatBytes ≤ a ∧ a < inputsAddr + m * npuMatBytes + npuMatBytes

theorem npuFormatInputs_frame (inputsAddr : Nat) (inputs : Nat → Matrix8) (mem : Mem) (m a : Nat)
    (h : ¬ InMatrix inputsAddr m a) :
    npuFormatInputs mem (inputsAddr + m * npuMatBytes) (inputs m) a = mem a :=
  formatWords_frame mem (inputs m) h

/-- Where byte `c` of row `r` of matrix `m` of a formatted batch stands. -/
theorem formatBatch_add (mem : Mem) (inputsAddr : Nat) (inputs : Nat → Matrix8) {b m : Nat}
    (hm : m < b) (r c : Fin 8) :
    formatBatch mem inputsAddr inputs b (inputsAddr + m * npuMatBytes + 8 * r + c) =
      inputs m r c := by
  refine foldl_hit (npuFormatInputs_frame inputsAddr inputs)
    (fun mem => formatWords_add mem _ _ r c) (List.mem_range.mpr hm) (fun k _ hk => ?_) mem
  have hr := r.isLt
  have hc := c.isLt
  simp only [InMatrix, npuMatBytes] at hk
  omega

theorem formatBatch_frame (mem : Mem) {inputsAddr b : Nat} (inputs : Nat → Matrix8) {a : Nat}
    (h : ¬ (inputsAddr ≤ a ∧ a < inputsAddr + b * npuMatBytes)) :
    formatBatch mem inputsAddr inputs b a = mem a := by
  refine foldl_frame (npuFormatInputs_frame inputsAddr inputs) (fun k hk => ?_) mem
  rw [List.mem_range] at hk
  simp only [InMatrix, npuMatBytes] at h ⊢
  omega

/-! ## flits and output -/

theorem storeFlits_frame (mem : Mem) {addr : Nat} (flits : List (BitVec 64)) {a : Nat}
    (h : a < addr) : storeFlits mem addr flits a = mem a := by
  induction flits generalizing mem addr with
  | nil => rfl
  | cons flit flits ih => rw [storeFlits, ih _ (by omega), store_of_not_mem _ _ (by omega)]

/-- Byte `b` of the `k`-th flit. -/
theorem storeFlits_add (mem : Mem) (addr : Nat) {flits : List (BitVec 64)} {k b : Nat}
    {flit : BitVec 64} (hk : flits[k]? = some flit) (hb : b < 8) :
    storeFlits mem addr flits (addr + 8 * k + b) = lane 8 flit (7 - b) := by
  induction flits generalizing mem addr k with
  | nil => cases hk
  | cons f flits ih =>
      cases k with
      | zero =>
          obtain rfl : f = flit := by simpa using hk
          rw [storeFlits, storeFlits_frame _ _ (by omega), Nat.mul_zero, Nat.add_zero,
            store_add _ _ _ hb, lane_pack _ hb]
      | succ k =>
          have haddr : addr + 8 * (k + 1) + b = addr + 8 + 8 * k + b := by omega
          rw [storeFlits, haddr]
          exact ih _ _ (by simpa using hk)

/-- `bswap32` reverses the bytes of a word in memory. -/
theorem bswap32_iord {mem : Mem} {base offset : Nat} {x : BitVec 32}
    (h : ∀ i, i < 4 → mem (base + offset + i) = lane 8 x (3 - i)) :
    bswap32 (iord32Direct mem base offset) = x := by
  have hread : ∀ i, i < 4 → lane 8 (iord32Direct mem base offset) i = lane 8 x (3 - i) :=
    fun i hi => (lane_load mem _ hi).trans (h i hi)
  obtain ⟨h0, h1, h2, h3⟩ := lane_bytes (lane 8 x 3) (lane 8 x 2) (lane 8 x 1) (lane 8 x 0)
  have hswap : bswap32 (iord32Direct mem base offset) =
      lane 8 x 3 ++ lane 8 x 2 ++ lane 8 x 1 ++ lane 8 x 0 := by
    rw [bswap32, hread 0 (by decide), hread 1 (by decide), hread 2 (by decide),
      hread 3 (by decide)]
  rw [hswap]
  refine eq_of_lane_eq (n := 4) (w := 8) fun i hi => ?_
  match i, hi with
  | 0, _ => exact h0
  | 1, _ => exact h1
  | 2, _ => exact h2
  | 3, _ => exact h3

/-- Two columns in every flit, four flits in every row: what is stored is parsed back. -/
theorem npuParseOutput_eq (mem : Mem) (addr m : Nat) (r c : Fin 8) {y : Fin 8 → BitVec 32}
    {flits : List (BitVec 64)} (h : ∀ f (hf : f < 4), flits[4 * (8 * m + r.val) + f]? =
      some (y ⟨2 * f + 1, by omega⟩ ++ y ⟨2 * f, by omega⟩)) :
    npuParseOutput (storeFlits mem addr flits) (addr + m * npuOutBytes) r c = y c := by
  obtain ⟨f, hf⟩ : ∃ f, f = c.val / 2 := ⟨_, rfl⟩
  have hc := c.isLt
  have hhw : ∀ c : Fin 8, c.val ^^^ 1 = 2 * (c.val / 2) + (1 - c.val % 2) := by decide
  have hflit := h f (by omega)
  rw [npuParseOutput, hhw, ← hf]
  refine bswap32_iord fun i hi => ?_
  have haddr : addr + m * npuOutBytes + (r.val * 8 + (2 * f + (1 - c.val % 2))) * 4 + i =
      addr + 8 * (4 * (8 * m + r.val) + f) + (4 * (1 - c.val % 2) + i) := by
    rw [npuOutBytes]
    omega
  rw [haddr, storeFlits_add _ _ hflit (by omega)]
  by_cases hodd : c.val % 2 = 1
  · -- the upper half of the flit comes first in memory
    have hcol : (⟨2 * f + 1, by omega⟩ : Fin 8) = c := by
      ext
      simp only
      omega
    have hbyte : 7 - (4 * (1 - c.val % 2) + i) = 4 + (3 - i) := by omega
    rw [hcol, hbyte]
    exact lane_append_hi (k := 4) (w := 8) _ _ _
  · have hcol : (⟨2 * f, by omega⟩ : Fin 8) = c := by
      ext
      simp only
      omega
    have hbyte : 7 - (4 * (1 - c.val % 2) + i) = 3 - i := by omega
    rw [hcol, hbyte]
    exact lane_append_lo _ _ (by omega)

end Npu
