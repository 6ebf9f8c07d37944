import Npu.Menu
import Npu.PeSequence

/-!
# Npu.MenuPasses

The reports of the menu.  In a session whose items all fit every item passes, on every run whose
latch pulses come late enough (`menu_passes`).  The rows of `verify_full_system` count towards the
first EOP of the next batch, so behind it `verify_streaming_batch` may not fit, and it passes
exactly if it does (`leads_streamingBatch_iff`).
-/

namespace Npu

open ByteMem Lanes Machine

namespace Soc

variable {D : Dma} {s : Soc D} {i : In D}

/-- What the access writes to the registers of the single cell. -/
def peWrite (a : Access) : Option (BitVec 4 × BitVec 32) :=
  if a.register.getLsbD 3 then a.written.map fun data => (a.register, data) else none

theorem peQuiet_of_waits (h : Waits s i) : (s.unitIn i).PeQuiet := by
  intro hwrite
  have hnone : written i = none := by
    obtain hnone | ⟨base, offset, hpoll, -⟩ := h
    · simp [written, hnone]
    · simp [written, hpoll, Access.written]
  have hwrite' : (written i).isSome = true := hwrite
  rw [hnone] at hwrite'
  cases hwrite'

theorem peQuiet_of_does {a : Access} (ha : peWrite a = none) (h : Does a s i) :
    (s.unitIn i).PeQuiet := by
  intro hwrite
  have hwritten : written i = a.written := by rw [written, h.1]; rfl
  have hwrite' : (written i).isSome = true := hwrite
  rw [hwritten] at hwrite'
  show (i.access.elim 0 Access.register).getLsbD 3 = false
  rw [h.1]
  by_contra hreg
  have hreg' : a.register.getLsbD 3 = true := by simpa using hreg
  rw [peWrite, if_pos hreg', Option.map_eq_none_iff] at ha
  rw [ha] at hwrite'
  cases hwrite'

theorem writes_of_does {a : Access} {b : BitVec 4 × BitVec 32} (ha : peWrite a = some b)
    (h : Does a s i) : (s.unitIn i).Writes b := by
  have hwritten : written i = a.written := by rw [written, h.1]; rfl
  rw [peWrite] at ha
  split at ha
  · obtain ⟨data, hdata, rfl⟩ := Option.map_eq_some_iff.mp ha
    refine ⟨?_, ?_, ?_⟩
    · show (written i).isSome = true
      rw [hwritten, hdata]
      rfl
    · show i.access.elim 0 Access.register = a.register
      rw [h.1]
      rfl
    · show (written i).getD 0 = data
      rw [hwritten, hdata]
      rfl
  · cases ha

/-- **The registers of the single cell on the system**: what a program does to the cell is the
session of its writes to them. -/
theorem leads_pe {as : List Access} {P Q : NpuUnit → Prop}
    (h : Takes NpuUnit.step NpuUnit.In.PeQuiet NpuUnit.In.Writes P (as.filterMap peWrite) Q) :
    Leads (fun s : Soc D => P s.unit) as fun s => Q s.unit :=
  h.leads (fun _ _ => rfl) (fun _ _ => peQuiet_of_waits) (fun _ _ _ => peQuiet_of_does)
    fun _ _ _ _ => writes_of_does

theorem answer_step : (s.step i).answer =
    if i.access.elim false Access.keeps then (s.unit.step (s.unitIn i)).ctrl.readdata
    else s.answer := rfl

/-- A read of `REG_PE_Y_OUT`. -/
theorem leads_peYOut {w x : BitVec 8} {y : BitVec 32} :
    Leads (fun s : Soc D => s.unit.Computed w x y) [.iord 11] fun s =>
      s.answer = y + BitVec.ofInt 32 (x.toInt * w.toInt) := by
  refine leads_cons (fun s i h _ hwaits => ?_) (fun s i h _ hdoes => ?_) (leads_nil ?_)
  · exact NpuUnit.computed_stable w x y _ _ h (peQuiet_of_waits hwaits)
  · have hread : (s.unitIn i).avsRead = true ∧ (s.unitIn i).avsAddress = regPeYOut := by
      simp [unitIn, hdoes.1, Access.reads, Access.register, regPeYOut]
    rw [answer_step, hdoes.1]
    exact (NpuUnit.readdata_peYOut hread.1 hread.2).2.trans h.yOut
  · rintro s i h _ (hnone | ⟨base, offset, hpoll, -⟩)
    · rwa [answer_step, hnone]
    · rwa [answer_step, hpoll]

end Soc

namespace MenuItem

open Soc

variable {D : Dma} {π : Equiv.Perm (Fin 8)} {rc : BitVec 32 × BitVec 32}

/-- Between two items, with `SEQ_TOTAL_ROWS` and the row counter. -/
def ReadyAt (rc : BitVec 32 × BitVec 32) (s : Soc D) : Prop := ∃ mem, Ready rc.1 rc.2 mem s

theorem readyAt_waits (rc : BitVec 32 × BitVec 32) :
    Keeps step Waits LatchesLate (ReadyAt (D := D) rc) :=
  fun s i ⟨mem, r, hrests, h⟩ hlate hwaits => ⟨mem, r, rests_waits r s i hrests hlate hwaits, h⟩

/-! ## one item -/

theorem leads_macPe :
    Leads (ReadyAt (D := D) rc) macPe.program fun s => macPe.Passes s ∧ ReadyAt rc s := by
  have hprog : macPe.program = macPeProgram.dropLast ++ [.iord 11] := rfl
  have hwrites : macPeProgram.dropLast.filterMap peWrite = NpuUnit.verifyMacPe 7 3 10 := by decide
  have hcomputed := leads_pe (D := D) (hwrites ▸ NpuUnit.verifyMacPe_takes 7 3 10)
  have hpasses := leads_append hcomputed leads_peYOut
  rw [← hprog] at hpasses
  intro s is ⟨mem, r, hrests, hrows, hcount, hmem, hwriting⟩ hdrives hlate
  have hrest := leads_rest r _ (by simp [program, macPeProgram, Access.plain, iowrReg]) s is hrests
    hdrives hlate
  exact ⟨hpasses s is trivial hdrives hlate, mem, _, hrest, by simp [program, macPeProgram, *]⟩

/-- A test that gets all rows is ready for the next. -/
theorem leads_batchTest (t : BatchTest) {R c : BitVec 32}
    (hfit : t.delivered R c = 8 * t.batchCount) : Leads (ReadyAt (D := D) (R, c)) t.program fun s =>
      (∀ m, m < t.batchCount → ∀ row col, npuParseOutput s.mem (t.dst.toNat + m * npuOutBytes) row col =
        cpuMatmul8x8 (t.inputs m) t.weightMatrix row col) ∧ ReadyAt (t.next R c) s := by
  rintro s is ⟨mem, hready⟩ hdrives hlate
  obtain ⟨houtputs, hnext⟩ := t.leads mem s is hready hdrives hlate
  exact ⟨fun m hm row col => houtputs.parsed_all hfit hm row col, _, hnext hfit⟩

theorem signExtend_testInputs : ∀ r c,
    (testInputs r c).signExtend 32 = BitVec.ofNat 32 (r * 8 + c + 1) := by decide

theorem leads_fullSystem (hfit : fullSystem.Fits rc) :
    Leads (ReadyAt (D := D) rc) fullSystem.program fun s =>
      fullSystem.Passes s ∧ ReadyAt (fullSystem.next rc) s := by
  have hall : fullSystemTest.delivered rc.1 rc.2 = 8 * fullSystemTest.batchCount := hfit
  refine (leads_batchTest fullSystemTest hall).mono (fun _ => id) ?_
  rintro s ⟨hparsed, hready⟩
  refine ⟨totalErrors_eq_zero_iff.mpr fun m hm r c => ?_, hready⟩
  rw [← signExtend_testInputs, ← cpuMatmul8x8_identity]
  exact hparsed m hm r c

/-- What the first EOP cuts off is still cleared, and no expected value of the last row is 0. -/
theorem passes_streamingBatch_iff {s : Soc D} {mem : Mem} {d : Nat} (hd : d ≤ 80)
    (h : Outputs (streamingMemory mem) s.mem (physicalBase + 0x200000).toNat identity8
      streamInputs 10 d) : streamingBatch.Passes s ↔ d = 80 := by
  have hpasses : streamingBatch.Passes s ↔ ∀ m, m < 10 → ∀ r c, npuParseOutput s.mem
      ((physicalBase + 0x200000).toNat + m * npuOutBytes) r c =
        (streamInputs m r c).signExtend 32 := totalErrors_eq_zero_iff
  rw [hpasses]
  constructor
  · intro hall
    by_contra hne
    have hlast : (streamInputs 9 7 0).signExtend 32 = 18 := by decide
    let cleared : Mem := fun _ => 0
    have hzero : ∀ k, k < 32 → s.mem ((physicalBase + 0x200000).toNat + 9 * npuOutBytes +
        (7 : Fin 8) * 32 + k) = cleared ((physicalBase + 0x200000).toNat + 9 * npuOutBytes +
          (7 : Fin 8) * 32 + k) := by
      intro k hk
      have haddr : (physicalBase + 0x200000).toNat + 9 * npuOutBytes + (7 : Fin 8).val * 32 + k =
          (physicalBase + 0x200000).toNat + (9 * 256 + 7 * 32 + k) := by
        show _ + 9 * 256 + 7 * 32 + k = _
        omega
      rw [haddr, h.frame _ (by omega), streamingMemory]
      exact clearWords_hit _ (by show _ < 4 * (10 * 256 / 4); omega)
    have hparse := npuParseOutput_congr hzero 0
    rw [hall 9 (by decide) 7 0, hlast] at hparse
    revert hparse
    decide
  · rintro rfl m hm r c
    rw [h.parsed_all rfl hm, cpuMatmul8x8_identity]

/-- **Exactly the batches that fit pass.** -/
theorem leads_streamingBatch_iff : Leads (ReadyAt (D := D) rc) streamingBatch.program fun s =>
    streamingBatch.Passes s ↔ streamingBatch.Fits rc := by
  rintro s is ⟨mem, hready⟩ hdrives hlate
  obtain ⟨houtputs, -⟩ := streamingTest.leads mem s is hready hdrives hlate
  simp only [BatchTest.delivered, streamingTest, Option.getD_some] at houtputs
  exact passes_streamingBatch_iff (rowsDelivered_le 80 rc.2 80) houtputs

theorem leads_streamingBatch (hfit : streamingBatch.Fits rc) :
    Leads (ReadyAt (D := D) rc) streamingBatch.program fun s =>
      streamingBatch.Passes s ∧ ReadyAt (streamingBatch.next rc) s := by
  have hall : streamingTest.delivered rc.1 rc.2 = 8 * streamingTest.batchCount := hfit
  intro s is hready hdrives hlate
  exact ⟨(leads_streamingBatch_iff s is hready hdrives hlate).mpr hfit,
    (leads_batchTest streamingTest hall s is hready hdrives hlate).2⟩

theorem leads_performance {W : Matrix8} {inputs : Nat → Matrix8} {batchCount : Int}
    (hfit : (performance W inputs batchCount).Fits rc) :
    Leads (ReadyAt (D := D) rc) (performance W inputs batchCount).program fun s =>
      (performance W inputs batchCount).Passes s ∧
        ReadyAt ((performance W inputs batchCount).next rc) s := by
  obtain ⟨hrange, hprog, hnext⟩ | ⟨b, hpos, hb, rfl, hprog, hnext⟩ :=
    performance_cases W inputs batchCount
  · rw [hprog, hnext]
    exact (leads_nil (readyAt_waits rc)).mono (fun _ => id) fun s h => ⟨fun _ _ => by omega, h⟩
  · have hall : (performanceTest W inputs b hpos hb).delivered rc.1 rc.2 = 8 * b := by
      have hfit' := hfit (by omega) (by omega)
      rw [BatchTest.delivered, performanceTest, Option.getD_some, Nat.mul_comm b]
      simpa only [Int.toNat_natCast] using hfit'
    have hready : (performance W inputs b).next rc =
        (performanceTest W inputs b hpos hb).next rc.1 rc.2 := hnext rc.1 rc.2
    rw [hprog, hready]
    refine (leads_batchTest (performanceTest W inputs b hpos hb) hall).mono (fun _ => id) ?_
    rintro s ⟨hparsed, hready⟩
    refine ⟨fun _ _ => totalErrors_eq_zero_iff.mpr fun m hm r c => ?_, hready⟩
    have hm' : m < b := by simpa using hm
    exact hparsed m hm' r c

/-- **An item that fits** passes and leaves the system ready for the next. -/
theorem leads_item (item : MenuItem) (hfit : item.Fits rc) :
    Leads (ReadyAt (D := D) rc) item.program fun s => item.Passes s ∧ ReadyAt (item.next rc) s := by
  cases item with
  | macPe => exact leads_macPe
  | fullSystem => exact leads_fullSystem hfit
  | streamingBatch => exact leads_streamingBatch hfit
  | performance W inputs batchCount => exact leads_performance hfit

/-! ## every item has a run -/

theorem finishes_macPe : Finishes (π := π) (ReadyAt rc) macPe.program := by
  rintro s ⟨⟨mem, r, hrests, -⟩, hlate⟩
  have hprog : macPe.program = macPeProgram.take 3 ++
      ([iowrReg .npuCtrl 7 1] ++ macPeProgram.drop 4) := rfl
  have hload := leads_rest (D := .plain π) r (macPeProgram.take 3)
    (by simp [macPeProgram, Access.plain, iowrReg])
  have hrun : Finishes (π := π) (Rests r []) macPe.program := by
    rw [hprog]
    refine finishes_append (finishes_free _ (by decide)) hload ?_
    exact finishes_append (Q := fun _ => True) (finishes_latch 1) (fun _ _ _ _ _ => trivial)
      (finishes_free _ (by decide))
  exact hrun s ⟨hrests, hlate⟩

theorem finishes_batchTest (t : BatchTest) : Finishes (π := π) (ReadyAt rc) t.program := by
  rintro s ⟨⟨mem, hready⟩, hlate⟩
  exact t.finishes mem s ⟨hready, hlate⟩

/-- **Every item has a run**, also one that does not fit. -/
theorem finishes_item (item : MenuItem) : Finishes (π := π) (ReadyAt rc) item.program := by
  cases item with
  | macPe => exact finishes_macPe
  | fullSystem => exact finishes_batchTest fullSystemTest
  | streamingBatch => exact finishes_batchTest streamingTest
  | performance W inputs batchCount =>
      obtain ⟨-, hprog, -⟩ | ⟨b, hpos, hb, rfl, hprog, -⟩ := performance_cases W inputs batchCount
      · rw [hprog]
        exact finishes_free [] (by simp)
      · rw [hprog]
        exact finishes_batchTest (performanceTest W inputs b hpos hb)

/-! ## sessions -/

section
variable {ι : Type*} {program : ι → List Access} {passes : ι → Soc D → Prop}
variable {next : BitVec 32 × BitVec 32 → ι → BitVec 32 × BitVec 32}
variable {fits : BitVec 32 × BitVec 32 → ι → Prop}

/-- A session of any items that pass where they fit. -/
theorem leads_session (hitem : ∀ rc item, fits rc item → Leads (ReadyAt (D := D) rc) (program item)
      fun s => passes item s ∧ ReadyAt (next rc item) s)
    {items : List ι} {item : ι} (hfits : Always next fits (0, 0) (items ++ [item])) :
    Leads Starts ((items ++ [item]).flatMap program) (passes item) := by
  obtain ⟨hitems, hlast, -⟩ := always_append.mp hfits
  have hready := leads_flatMap readyAt_waits
    (fun rc item h => (hitem rc item h).mono (fun _ => id) fun _ => And.right) hitems
  rw [List.flatMap_append, List.flatMap_singleton]
  exact (leads_append hready (hitem _ item hlast)).mono (fun s h => ⟨s.mem, h.ready⟩) fun _ => And.left

/-- It has a run, whatever its last item finds. -/
theorem session_finishes {passes : ι → Plain π → Prop}
    (hitem : ∀ rc item, fits rc item → Leads (ReadyAt rc) (program item)
      fun s => passes item s ∧ ReadyAt (next rc item) s)
    (hfinishes : ∀ rc item, Finishes (π := π) (ReadyAt rc) (program item)) {items : List ι} (item : ι)
    (hfits : Always next fits (0, 0) items) {s : Plain π} (hs : Starts s) :
    ∃ is, Drives step Waits Does ((items ++ [item]).flatMap program) s is ∧
      Always step LatchesLate s is := by
  have hready : MayLead step Waits Does LatchesLate (fun s => ReadyAt (0, 0) s ∧ Late s)
      (items.flatMap program) fun s => ReadyAt (run next (0, 0) items) s ∧ Late s :=
    mayLead_flatMap (P := fun rc s => ReadyAt rc s ∧ Late s) (fun rc item h =>
      ((hfinishes rc item).and_leads (hitem rc item h)).mono (fun _ h => ⟨h, h.1⟩)
        fun _ h => ⟨h.2.2, h.1⟩) hfits
  rw [List.flatMap_append, List.flatMap_singleton]
  obtain ⟨is, hdrives, hok, -⟩ := mayLead_append hready (hfinishes _ item) s ⟨⟨s.mem, hs.ready⟩, hs.late⟩
  exact ⟨is, hdrives, hok⟩

end

/-- A session of items that fit leaves the system ready. -/
theorem leads_items (items : List MenuItem) (hfit : AllFit items rc) :
    Leads (ReadyAt (D := D) rc) (items.flatMap program)
      (ReadyAt (items.foldl (fun rc item => item.next rc) rc)) :=
  leads_flatMap readyAt_waits
    (fun _ item h => (leads_item item h).mono (fun _ => id) fun _ => And.right) hfit

/-- **Every session has a run** if all its items but the last fit. -/
theorem menu_finishes (items : List MenuItem) (item : MenuItem) (hfit : AllFit items (0, 0))
    {s : Plain π} (hs : Starts s) :
    ∃ is, Drives step Waits Does ((items ++ [item]).flatMap program) s is ∧
      Always step LatchesLate s is :=
  session_finishes (fun _ item => leads_item item) (fun _ item => finishes_item item) item
    hfit hs

/-- **The menu**: in a session from the start whose items all fit and whose latch pulses come late
enough, every item passes when it is through. -/
theorem menu_passes (items : List MenuItem) (item : MenuItem)
    (hfit : AllFit (items ++ [item]) (0, 0)) :
    Leads (Starts (D := D)) ((items ++ [item]).flatMap program) item.Passes :=
  leads_session (fun _ item => leads_item item) hfit

/-- The single cell, the streaming test, a refused count and three matrices. -/
theorem menu_passes_session :
    let items := [macPe, streamingBatch, performance identity8 streamInputs 4001]
    let item := performance (fun i j => BitVec.ofNat 8 (i * 16 + j)) streamInputs 3
    ∃ is, Drives step Waits Does
        ((items ++ [item]).flatMap program) (started fun _ => 0) is ∧
      item.Passes (run step (started fun _ => 0) is) := by
  intro items item
  have hfit : AllFit items (0, 0) := by
    refine ⟨trivial, ?_, fun _ hle => ?_, trivial⟩
    · exact (by decide : rowsDelivered 80 0 80 = 80)
    · omega
  have hitem : AllFit (items ++ [item]) (0, 0) :=
    always_append.mpr ⟨hfit, fun _ _ => (by decide : rowsDelivered 24 0 24 = 24), trivial⟩
  obtain ⟨is, hdrives, hlate⟩ := menu_finishes items item hfit (starts_started _)
  exact ⟨is, hdrives,
    menu_passes items item hitem (started fun _ => 0) is (starts_started _) hdrives hlate⟩

/-! ## which sessions fit -/

/-- `verify_full_system` from the start on, `k` times. -/
theorem fullSystem_replicate (k : Nat) (c : BitVec 32) :
    AllFit (List.replicate k fullSystem) (0, c) ∧
      (List.replicate k fullSystem).foldl (fun rc item => item.next rc) (0, c) =
        (0, c + BitVec.ofNat 32 (8 * k)) := by
  induction k generalizing c with
  | zero => simp
  | succ k ih =>
      have hnext : fullSystem.next (0, c) = (0, c + 8) := by simp [next, rowCountAfter]
      obtain ⟨hfit, hfold⟩ := ih (c + 8)
      rw [List.replicate_succ, List.foldl_cons, hnext]
      have hrest : AllFit (List.replicate k fullSystem) (fullSystem.next (0, c)) := by rwa [hnext]
      refine ⟨⟨by simp [Fits, rowsDelivered], hrest⟩, hfold.trans ?_⟩
      rw [Nat.mul_succ, Nat.add_comm, BitVec.ofNat_add, BitVec.add_assoc]
      rfl

/-! ## `verify_streaming_batch` -/

theorem fits_streamingBatch_iff {R : BitVec 32} {n : Nat} :
    streamingBatch.Fits (R, BitVec.ofNat 32 n) ↔ n % 2 ^ 32 = 0 ∨ 80 ≤ n % 2 ^ 32 := by
  have hlast : (80 - 1 - BitVec.ofNat 32 n).toNat = (2 ^ 32 - n % 2 ^ 32 + 79) % 2 ^ 32 := by
    rw [BitVec.toNat_sub, BitVec.toNat_ofNat]
    rfl
  have hfits : streamingBatch.Fits (R, BitVec.ofNat 32 n) ↔
      min 80 ((80 - 1 - BitVec.ofNat 32 n).toNat + 1) = 80 := by
    rw [Fits, rowsDelivered, if_neg (by decide)]
  rw [hfits, hlast]
  omega

/-- **The two tests do not mix**: after `k` runs of `verify_full_system` from the start, and with
latch pulses that come late enough, `verify_streaming_batch` reports a pass iff `k` is 0 or at
least 10, modulo the wrap of the row counter. -/
theorem streamingBatch_after_fullSystem (k : Nat) :
    Leads (Starts (D := D)) ((List.replicate k fullSystem ++ [streamingBatch]).flatMap program) fun s =>
      streamingBatch.Passes s ↔ k % 2 ^ 29 = 0 ∨ 10 ≤ k % 2 ^ 29 := by
  obtain ⟨hfit, hfold⟩ := fullSystem_replicate k 0
  have hitems := leads_items (D := D) _ hfit
  have hzero : 0 + BitVec.ofNat 32 (8 * k) = BitVec.ofNat 32 (8 * k) := by simp
  rw [hfold, hzero] at hitems
  rw [List.flatMap_append, List.flatMap_singleton]
  refine (leads_append hitems leads_streamingBatch_iff).mono (fun s h => ⟨s.mem, h.ready⟩) ?_
  intro s hpasses
  refine hpasses.trans ((fits_streamingBatch_iff (R := 0)).trans ?_)
  omega

/-- After one run of `verify_full_system` a run of `verify_streaming_batch` fails. -/
theorem streamingBatch_after_fullSystem_once :
    ∃ is, Drives step Waits Does
        ((List.replicate 1 fullSystem ++ [streamingBatch]).flatMap program) (started fun _ => 0) is ∧
      ¬ streamingBatch.Passes (run step (started fun _ => 0) is) := by
  obtain ⟨is, hdrives, hlate⟩ := menu_finishes (List.replicate 1 fullSystem)
    streamingBatch (fullSystem_replicate 1 0).1 (starts_started _)
  have hpasses := streamingBatch_after_fullSystem 1 (started fun _ => 0) is (starts_started _)
    hdrives hlate
  exact ⟨is, hdrives, fun h => absurd (hpasses.mp h) (by decide)⟩

end MenuItem

end Npu
