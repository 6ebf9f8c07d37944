import Npu.MenuPasses

/-!
# Npu.NiosMenu

The test program on the Nios II, and both test programs on one system.

Both processors are masters of the unit and of the DMA engines.  The Nios II reaches the memory
through the window of an address span extender, the DMA engines by its addresses; so what its
program writes and reads is a `Window.through` and a `Window.view` of the memory.  Its menu has
three of the items, two of them with a layout of their own.

What an item leaves to the next does not depend on the processor that runs it (`NiosItem.twin`), so
the sessions of both programs, one item at a time, pass as those of one do (`menus_pass`).
-/

namespace Npu

open ByteMem Machine

/-- `DDR3_WINDOW_BASE`: the window, with the bit that bypasses the data cache. -/
def ddr3WindowBase : BitVec 32 := 0x8000000 ||| 0x80000000

/-- The span extender, with its base set to 0x20000000. -/
def ddr3Window : Window where
  base := ddr3WindowBase.toNat
  target := physicalBase.toNat
  span := 134217728

/-- The items of the menu. -/
inductive NiosItem where
  | macPe
  | fullSystem
  | streamingBatch
deriving DecidableEq, Repr

namespace NiosItem

open MenuItem (dmaInit testInputs streamInputs macPeProgram)

/-! ## the items -/

/-- 256 bytes of each region. -/
def clearRegions (mem : Mem) : Mem :=
  (List.range 64).foldl (fun mem i =>
    iowr32Direct
      (iowr32Direct
        (iowr32Direct mem ddr3WindowBase.toNat (i * 4) 0) (ddr3WindowBase + 0x1000).toNat (i * 4) 0)
      (ddr3WindowBase + 0x2000).toNat (i * 4) 0) mem

/-- What `verify_full_system` writes to memory. -/
def fullSystemMemory (mem : Mem) : Mem :=
  npuFormatInputs (npuFormatWeights (clearRegions mem) ddr3WindowBase.toNat identity8)
    (ddr3WindowBase + 0x1000).toNat testInputs

/-- `verify_full_system`. -/
def fullSystemProgram : List Access :=
  dmaInit ++ [iowrReg .npuCtrl regCtrl 0, iowrReg .npuCtrl regCtrl 0,
    .poll .npuCtrl (regStatus * 4), .memory (ddr3Window.through fullSystemMemory)] ++
    npuLoadWeights physicalBase 1 ++ npuGetMatrix (physicalBase + 0x2000) 1 ++
    npuLoadMatrix (physicalBase + 0x1000) 1 ++ npuWaitExecution

/-- What `verify_streaming_batch` writes to memory. -/
def streamingMemory (mem : Mem) : Mem :=
  clearWords
    (formatBatch (npuFormatWeights mem ddr3WindowBase.toNat identity8)
      (ddr3WindowBase + 0x1000).toNat streamInputs 10)
    (ddr3WindowBase + 0x8000).toNat (10 * npuOutBytes / 4)

/-- `verify_streaming_batch`. -/
def streamingBatchProgram : List Access :=
  dmaInit ++ [.memory (ddr3Window.through streamingMemory)] ++ npuLoadWeights physicalBase 1 ++
    [iowrReg .npuCtrl regSeqRows (BitVec.ofNat 32 (10 * 8))] ++
    npuGetMatrix (physicalBase + 0x8000) 10 ++ npuLoadMatrix (physicalBase + 0x1000) 10 ++
    npuWaitExecution

def program : NiosItem → List Access
  | .macPe => macPeProgram
  | .fullSystem => fullSystemProgram
  | .streamingBatch => streamingBatchProgram

/-- The item reports a pass. -/
def Passes {D : Dma} : NiosItem → Soc D → Prop
  | .macPe, s => s.answer = 31
  | .fullSystem, s =>
      totalErrors (ddr3Window.view s.mem) (ddr3WindowBase + 0x2000).toNat
        (fun _ r c => BitVec.ofNat 32 (r * 8 + c + 1)) 1 = 0
  | .streamingBatch, s =>
      totalErrors (ddr3Window.view s.mem) (ddr3WindowBase + 0x8000).toNat
        (fun i r c => (streamInputs i r c).signExtend 32) 10 = 0

/-- The item of the other program that leaves the same behind. -/
def twin : NiosItem → MenuItem
  | .macPe => .macPe
  | .fullSystem => .fullSystem
  | .streamingBatch => .streamingBatch

/-! ## the window -/

/-- The addresses of the processor and of the DMA engines. -/
theorem window_toNat : ddr3WindowBase.toNat = ddr3Window.base ∧
    (ddr3WindowBase + 0x1000).toNat = ddr3Window.base + 0x1000 ∧
      (ddr3WindowBase + 0x2000).toNat = ddr3Window.base + 0x2000 ∧
        (ddr3WindowBase + 0x8000).toNat = ddr3Window.base + 0x8000 := by decide

theorem physical_toNat : physicalBase.toNat = ddr3Window.target ∧
    (physicalBase + 0x1000).toNat = ddr3Window.target + 0x1000 ∧
      (physicalBase + 0x2000).toNat = ddr3Window.target + 0x2000 ∧
        (physicalBase + 0x8000).toNat = ddr3Window.target + 0x8000 := by decide

/-- Weights that are written through a window stand where it shows. -/
theorem holdsWeights_through {w : Window} {f : Mem → Mem} {W : Matrix8} {k : Nat}
    (hk : k + npuMatBytes ≤ w.span) (h : ∀ mem, Soc.HoldsWeights (f mem) (w.base + k) W) (mem : Mem) :
    Soc.HoldsWeights (w.through f mem) (w.target + k) W := by
  intro t r
  have ht := t.isLt
  have hr := r.isLt
  rw [npuMatBytes] at hk
  rw [Nat.add_assoc, Nat.add_assoc, w.through_add f mem (by omega), ← Nat.add_assoc, ← Nat.add_assoc]
  exact h _ t r

theorem holdsInputs_through {w : Window} {f : Mem → Mem} {inputs : Nat → Matrix8} {k b : Nat}
    (hk : k + b * npuMatBytes ≤ w.span)
    (h : ∀ mem, Soc.HoldsInputs (f mem) (w.base + k) inputs b) (mem : Mem) :
    Soc.HoldsInputs (w.through f mem) (w.target + k) inputs b := by
  intro m hm r c
  have hr := r.isLt
  have hc := c.isLt
  have haddr (a : Nat) : a + k + m * npuMatBytes + 8 * r.val + c.val =
      a + (k + m * npuMatBytes + 8 * r.val + c.val) := by omega
  have hlt : k + m * npuMatBytes + 8 * r.val + c.val < w.span := by
    rw [npuMatBytes] at hk ⊢
    omega
  have hin := h (w.view mem) m hm r c
  rw [haddr] at hin ⊢
  rw [w.through_add f mem hlt]
  exact hin

theorem npuParseOutput_view (w : Window) (mem : Mem) (k : Nat) (r c : Fin 8) :
    npuParseOutput (w.view mem) (w.base + k) r c = npuParseOutput mem (w.target + k) r c := by
  rw [npuParseOutput, npuParseOutput, iord32Direct, iord32Direct, Nat.add_assoc, w.load_view,
    ← Nat.add_assoc]

/-! ## the items as tests -/

theorem holdsWeights_fullSystem (mem : Mem) :
    Soc.HoldsWeights (fullSystemMemory mem) (ddr3Window.base + 0) identity8 := by
  intro t r
  obtain ⟨hbase, hinputs, -⟩ := window_toNat
  have ht := t.isLt
  have hr := r.isLt
  rw [fullSystemMemory, npuFormatInputs, Nat.add_zero, ← hbase,
    formatWords_frame _ _ (by rw [hinputs, hbase, npuMatBytes]; omega)]
  exact formatWords_add (clearRegions mem) _ _ t r

theorem holdsInputs_fullSystem (mem : Mem) :
    Soc.HoldsInputs (fullSystemMemory mem) (ddr3Window.base + 0x1000) (fun _ => testInputs) 1 := by
  intro m hm r c
  obtain rfl : m = 0 := by omega
  rw [fullSystemMemory, npuFormatInputs, Nat.zero_mul, Nat.add_zero, ← window_toNat.2.1]
  exact formatWords_add _ _ (fun r c => testInputs r c) r c

theorem holdsWeights_streaming (mem : Mem) :
    Soc.HoldsWeights (streamingMemory mem) (ddr3Window.base + 0) identity8 := by
  intro t r
  obtain ⟨hbase, hinputs, -, houtputs⟩ := window_toNat
  have ht := t.isLt
  have hr := r.isLt
  have hbytes : npuOutBytes = 256 ∧ npuMatBytes = 64 := ⟨rfl, rfl⟩
  rw [streamingMemory, Nat.add_zero, ← hbase,
    clearWords_frame _ (by rw [hbase, houtputs, hbytes.1]; omega),
    formatBatch_frame _ streamInputs (by rw [hbase, hinputs, hbytes.2]; omega)]
  exact formatWords_add mem _ _ t r

theorem holdsInputs_streaming (mem : Mem) :
    Soc.HoldsInputs (streamingMemory mem) (ddr3Window.base + 0x1000) streamInputs 10 := by
  intro m hm r c
  obtain ⟨-, hinputs, -, houtputs⟩ := window_toNat
  have hr := r.isLt
  have hc := c.isLt
  have hbytes : npuOutBytes = 256 ∧ npuMatBytes = 64 := ⟨rfl, rfl⟩
  rw [← hinputs, streamingMemory,
    clearWords_frame _ (by rw [hinputs, houtputs, hbytes.1, hbytes.2]; omega)]
  exact formatBatch_add _ _ streamInputs hm r c

/-- The weights of a test stand at the start of the window, its inputs behind them. -/
theorem holds_physical {f : Mem → Mem} {W : Matrix8} {inputs : Nat → Matrix8} {b : Nat}
    (hb : 0x1000 + b * npuMatBytes ≤ ddr3Window.span)
    (hW : ∀ mem, Soc.HoldsWeights (f mem) (ddr3Window.base + 0) W)
    (hin : ∀ mem, Soc.HoldsInputs (f mem) (ddr3Window.base + 0x1000) inputs b) (mem : Mem) :
    Soc.HoldsWeights (ddr3Window.through f mem) physicalBase.toNat W ∧
      Soc.HoldsInputs (ddr3Window.through f mem) (physicalBase + 0x1000).toNat inputs b := by
  rw [physical_toNat.2.1]
  exact ⟨holdsWeights_through (by decide) hW mem, holdsInputs_through hb hin mem⟩

/-- Behind the setup of the DMA engines the unit is told to rest. -/
theorem setup_fullSystem (f : Mem → Mem) (a : Access)
    (ha : a ∈ dmaInit ++ [iowrReg .npuCtrl regCtrl 0, iowrReg .npuCtrl regCtrl 0,
      .poll .npuCtrl (regStatus * 4), .memory f]) : a.plain = true ∧ a.free = true := by
  revert a
  simp [dmaInit, msgdmaInit, Access.plain, Access.free, iowrReg, regCtrl, regStatus]

def fullSystemTest : BatchTest where
  setup := dmaInit ++ [iowrReg .npuCtrl regCtrl 0, iowrReg .npuCtrl regCtrl 0,
    .poll .npuCtrl (regStatus * 4), .memory (ddr3Window.through fullSystemMemory)]
  onMemory := ddr3Window.through fullSystemMemory
  weights := physicalBase
  src := physicalBase + 0x1000
  dst := physicalBase + 0x2000
  seqRows := none
  weightMatrix := identity8
  inputs := fun _ => testInputs
  batchCount := 1
  plain_setup a ha := (setup_fullSystem _ a ha).1
  free_setup a ha := (setup_fullSystem _ a ha).2
  access_setup := by simp [dmaInit, msgdmaInit]
  buffers := MenuItem.fullSystemTest.buffers
  holdsWeights mem :=
    (holds_physical (by decide) holdsWeights_fullSystem holdsInputs_fullSystem mem).1
  holdsInputs mem :=
    (holds_physical (by decide) holdsWeights_fullSystem holdsInputs_fullSystem mem).2

def streamingTest : BatchTest where
  setup := dmaInit ++ [.memory (ddr3Window.through streamingMemory)]
  onMemory := ddr3Window.through streamingMemory
  weights := physicalBase
  src := physicalBase + 0x1000
  dst := physicalBase + 0x8000
  seqRows := some 80
  weightMatrix := identity8
  inputs := streamInputs
  batchCount := 10
  plain_setup := MenuItem.plain_dmaSetup _
  free_setup := MenuItem.free_dmaSetup _
  access_setup := by simp [dmaInit, msgdmaInit]
  buffers := ⟨by decide, by decide, by decide, .inl (by decide)⟩
  holdsWeights mem :=
    (holds_physical (by decide) holdsWeights_streaming holdsInputs_streaming mem).1
  holdsInputs mem :=
    (holds_physical (by decide) holdsWeights_streaming holdsInputs_streaming mem).2

/-! ## one item -/

/-- What the processor finds through the window is what the DMA engine has stored. -/
theorem totalErrors_view {mem : Mem} {k b : Nat} {expected : Nat → Fin 8 → Fin 8 → BitVec 32}
    (h : ∀ m, m < b → ∀ r c,
      npuParseOutput mem (ddr3Window.target + k + m * npuOutBytes) r c = expected m r c) :
    totalErrors (ddr3Window.view mem) (ddr3Window.base + k) expected b = 0 := by
  refine totalErrors_eq_zero_iff.mpr fun m hm r c => ?_
  rw [Nat.add_assoc, npuParseOutput_view, ← Nat.add_assoc]
  exact h m hm r c

section
open Soc MenuItem

variable {D : Dma} {π : Equiv.Perm (Fin 8)} {rc : BitVec 32 × BitVec 32}

theorem leads_fullSystem (hfit : MenuItem.fullSystem.Fits rc) :
    Leads (ReadyAt (D := D) rc) fullSystem.program fun s =>
      fullSystem.Passes s ∧ ReadyAt (MenuItem.fullSystem.next rc) s := by
  have hall : fullSystemTest.delivered rc.1 rc.2 = 8 * fullSystemTest.batchCount := hfit
  refine (leads_batchTest fullSystemTest hall).mono (fun _ => id) ?_
  rintro s ⟨hparsed, hready⟩
  refine ⟨?_, hready⟩
  rw [Passes, window_toNat.2.2.1]
  refine totalErrors_view fun m hm r c => ?_
  rw [← signExtend_testInputs, ← cpuMatmul8x8_identity, ← physical_toNat.2.2.1]
  exact hparsed m hm r c

theorem leads_streamingBatch (hfit : MenuItem.streamingBatch.Fits rc) :
    Leads (ReadyAt (D := D) rc) streamingBatch.program fun s =>
      streamingBatch.Passes s ∧ ReadyAt (MenuItem.streamingBatch.next rc) s := by
  have hall : streamingTest.delivered rc.1 rc.2 = 8 * streamingTest.batchCount := hfit
  refine (leads_batchTest streamingTest hall).mono (fun _ => id) ?_
  rintro s ⟨hparsed, hready⟩
  refine ⟨?_, hready⟩
  rw [Passes, window_toNat.2.2.2]
  refine totalErrors_view fun m hm r c => ?_
  rw [← cpuMatmul8x8_identity, ← physical_toNat.2.2.2]
  exact hparsed m hm r c

/-- **An item that fits** passes, and leaves to the next what its twin leaves. -/
theorem leads_item (item : NiosItem) (hfit : item.twin.Fits rc) :
    Leads (ReadyAt (D := D) rc) item.program fun s => item.Passes s ∧ ReadyAt (item.twin.next rc) s := by
  cases item with
  | macPe => exact leads_macPe
  | fullSystem => exact leads_fullSystem hfit
  | streamingBatch => exact leads_streamingBatch hfit

theorem finishes_item (item : NiosItem) : Finishes (π := π) (ReadyAt rc) item.program := by
  cases item with
  | macPe => exact finishes_macPe
  | fullSystem => exact finishes_batchTest fullSystemTest
  | streamingBatch => exact finishes_batchTest streamingTest

end

end NiosItem

/-! ## both programs -/

/-- An item of one of the two menus. -/
abbrev EitherItem := MenuItem ⊕ NiosItem

namespace EitherItem

open Soc

open MenuItem (ReadyAt leads_session session_finishes finishes_item)

variable {D : Dma} {π : Equiv.Perm (Fin 8)}

def program (item : EitherItem) : List Access := item.elim MenuItem.program NiosItem.program

def Passes (item : EitherItem) : Soc D → Prop := item.elim MenuItem.Passes NiosItem.Passes

/-- The item of the first program that leaves the same behind. -/
def twin (item : EitherItem) : MenuItem := item.elim id NiosItem.twin

theorem leads_item (rc : BitVec 32 × BitVec 32) (item : EitherItem) (hfit : item.twin.Fits rc) :
    Leads (ReadyAt (D := D) rc) item.program fun s => item.Passes s ∧ ReadyAt (item.twin.next rc) s := by
  cases item with
  | inl item => exact item.leads_item hfit
  | inr item => exact item.leads_item hfit

theorem allFit_twin_iff {items : List EitherItem} {rc : BitVec 32 × BitVec 32} :
    MenuItem.AllFit (items.map twin) rc ↔
      Always (fun rc item => item.twin.next rc) (fun rc item => item.twin.Fits rc) rc items :=
  always_map

/-- **Two programs, one accelerator**: a session from the start in which the items of both menus
alternate at will passes, item by item, if the rows fit and the latch pulses come late enough. -/
theorem menus_pass (items : List EitherItem) (item : EitherItem)
    (hfit : MenuItem.AllFit ((items ++ [item]).map twin) (0, 0)) :
    Leads (Starts (D := D)) ((items ++ [item]).flatMap program) item.Passes :=
  leads_session (fun rc item => leads_item rc item) (allFit_twin_iff.mp hfit)

/-- **Every session has a run** if all its items but the last fit. -/
theorem menus_finish (items : List EitherItem) (item : EitherItem)
    (hfit : MenuItem.AllFit (items.map twin) (0, 0)) {s : Plain π} (hs : Starts s) :
    ∃ is, Drives step Waits Does ((items ++ [item]).flatMap program) s is ∧
      Always step LatchesLate s is := by
  refine session_finishes (fun rc item => leads_item rc item) (fun rc item => ?_) item
    (allFit_twin_iff.mp hfit) hs
  cases item with
  | inl item => exact item.finishes_item
  | inr item => exact item.finishes_item

/-- The streaming tests of both programs, then a matrix of the first and the other test of the
second. -/
theorem menus_pass_session :
    let items : List EitherItem := [.inl .streamingBatch, .inr .streamingBatch, .inr .macPe,
      .inl (.performance identity8 MenuItem.streamInputs 1)]
    let item : EitherItem := .inr .fullSystem
    ∃ is, Drives step Waits Does
        ((items ++ [item]).flatMap program) (started fun _ => 0) is ∧
      item.Passes (run step (started fun _ => 0) is) := by
  intro items item
  have hfit : MenuItem.AllFit (items.map twin) (0, 0) :=
    ⟨(by decide : rowsDelivered 80 0 80 = 80), (by decide : rowsDelivered 80 0 80 = 80), trivial,
      fun _ _ => (by decide : rowsDelivered 8 0 8 = 8), trivial⟩
  have hitem : MenuItem.AllFit ((items ++ [item]).map twin) (0, 0) :=
    ⟨hfit.1, hfit.2.1, trivial, hfit.2.2.2.1, (by decide : rowsDelivered 8 0 8 = 8), trivial⟩
  obtain ⟨is, hdrives, hlate⟩ := menus_finish items item hfit (starts_started _)
  exact ⟨is, hdrives,
    menus_pass items item hitem (started fun _ => 0) is (starts_started _) hdrives hlate⟩

end EitherItem

end Npu
