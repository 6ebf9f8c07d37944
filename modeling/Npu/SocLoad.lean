import Npu.DriverJob
import Npu.SocRest

/-!
# Npu.SocLoad

`npu_load_weights` on the system.  While the read side hands over the words of the weights
(`Loads`) the columns in the unit are those handed over so far; once it is idle the last eight
of them are what a latch pulse copies (`leads_npuLoadWeights`).  With the read side offering
its words the wait is bounded (`Loads.run`).
-/

namespace Npu

open ByteMem Lanes Machine

/-- Behind the columns of `W`, from the last to the first, a latch would copy `W`. -/
theorem Accelerator.loaded_of_columns {a : Accelerator 8 (BitVec 8)} {W : Matrix8}
    {older : List (Fin 8 → BitVec 8)} (h : a.columns = (weightBeats W).reverse ++ older) :
    a.loaded = W := by
  have hload := matrix_load (⟨older, a.matrix⟩ : Accelerator 8 (BitVec 8)) W
  have hcolumns : (List.finRange 8).map (fun t => Command.column fun i => W i t.rev) =
      (weightBeats W).map .column := by
    rw [weightBeats, List.map_map]
    rfl
  rw [load, hcolumns, run_append, columns_run] at hload
  refine Eq.trans ?_ hload
  show a.loaded = (⟨(weightBeats W).reverse ++ older, a.matrix⟩ : Accelerator 8 (BitVec 8)).loaded
  rw [← h]

namespace Soc

variable {D : Dma} {s : Soc D} {i : In D} {r : Rest} {words : List Nat} {B : Nat}

/-- The lanes of the word at `addr`. -/
def rowAt (π : Equiv.Perm (Fin 8)) (mem : Mem) (addr : Nat) : Fin 8 → BitVec 8 :=
  fun l => mem (addr + π l)

theorem lanes_readBeat (π : Equiv.Perm (Fin 8)) (mem : Mem) (addr : Nat) :
    lanes (readBeat π mem addr) = rowAt π mem addr := by
  funext l
  rw [lanes, readBeat, lane_pack _ l.isLt, Fin.ofNat_val_eq_self, rowAt]

/-! ## the read side -/

/-- A word that is handed over is the first of those left. -/
theorem reading_of_handsOver {mem : Mem} (h : s.handsOver i = true)
    (hfetched : D.read.Fetched s.read mem) (hagree : AgreeOn s.reading s.mem mem) :
    ∃ addr rest, s.reading = addr :: rest ∧
      (s.unitIn i).stSinkData = readBeat D.read.order mem addr := by
  rw [handsOver, NpuUnit.accepts, Bool.and_eq_true] at h
  obtain ⟨data, hdata⟩ : ∃ data, s.beat i = some data := Option.isSome_iff_exists.mp h.1
  obtain ⟨addr, rest, hleft, rfl⟩ := D.read.beat_eq hfetched hagree hdata
  exact ⟨addr, rest, hleft, by simp [unitIn, hdata]⟩

theorem acceptedWeightBeat_eq : s.unit.acceptedWeightBeat (s.unitIn i) =
    if s.handsOver i && s.unit.ctrl.seqMode.getLsbD 0 then [(s.unitIn i).stSinkData] else [] :=
  rfl

theorem acceptedRowBeat_eq : s.unit.acceptedRowBeat (s.unitIn i) =
    if s.handsOver i && !s.unit.ctrl.seqMode.getLsbD 0 then [(s.unitIn i).stSinkData] else [] :=
  rfl

/-- A cycle of polls, or without an access. -/
def In.Polls (i : In D) : Prop := ∀ a, i.access = some a → ∃ base offset, a = .poll base offset

theorem In.Polls.of_waits (h : Waits s i) : i.Polls := by
  intro a ha
  obtain hnone | ⟨base, offset, hpoll, -⟩ := h
  · rw [hnone] at ha
    cases ha
  · rw [hpoll, Option.some.injEq] at ha
    exact ⟨base, offset, ha.symm⟩

theorem In.Polls.of_does {base : Slave} {offset : Nat} (h : Does (.poll base offset) s i) :
    i.Polls := by
  intro a ha
  rw [h.1, Option.some.injEq] at ha
  exact ⟨base, offset, ha.symm⟩

theorem In.Polls.writes_nothing (hi : i.Polls) : toRead i = none ∧ toWrite i = none := by
  rw [toRead, toWrite]
  cases hacc : i.access with
  | none => exact ⟨rfl, rfl⟩
  | some a =>
      obtain ⟨base, offset, rfl⟩ := hi a hacc
      exact ⟨rfl, rfl⟩

theorem In.Polls.allowed (hi : i.Polls) : s.Allowed i := by
  refine .of_access (fun a hacc => ?_) fun a hacc => ?_ <;>
    (obtain ⟨base, offset, rfl⟩ := hi a hacc; trivial)

theorem assigns_of_polls (hi : i.Polls) (r : Rest) : i.assigns r = r := by
  rw [In.assigns]
  cases hacc : i.access with
  | none => rfl
  | some a =>
      obtain ⟨base, offset, rfl⟩ := hi a hacc
      exact r.access_poll base offset

/-- Polls leave everything to the DMA and the unit. -/
theorem step_of_polls (hi : i.Polls) :
    (s.step i).reading = (if s.handsOver i then s.reading.tail else s.reading) ∧
      (s.step i).writing = afterFlit s.writing (s.flit i) ∧
      (s.step i).mem = storeAll s.mem (D.write.stores s.write i.writePace) ∧
      (s.step i).unit.ctrl.weightLatchEn = false := by
  obtain ⟨hreading, hwriting, -⟩ := engines_step (hi.allowed (s := s))
  have hmem : (s.step i).mem = i.access.elim id Access.onMemory
      (storeAll s.mem (D.write.stores s.write i.writePace)) := rfl
  have hen : (s.step i).unit.ctrl.weightLatchEn =
      ((s.unitIn i).writes 7 && ((written i).getD 0).getLsbD 0) := rfl
  rw [hreading, hwriting, hmem, hen, unitIn_writes, hi.writes_nothing.1, hi.writes_nothing.2, written]
  rcases hacc : i.access with _ | a
  · exact ⟨List.append_nil _, List.append_nil _, rfl, rfl⟩
  · obtain ⟨base, offset, rfl⟩ := hi a hacc
    exact ⟨List.append_nil _, List.append_nil _, rfl, rfl⟩

/-- What is fetched meanwhile is what the memory holds. -/
theorem fetched_of_polls {mem : Mem} (hi : i.Polls) (hfetched : D.read.Fetched s.read mem)
    (hagree : AgreeOn s.reading s.mem mem) : D.read.Fetched (s.step i).read mem := by
  refine D.read.fetched_step hi.allowed.read hfetched ?_
  rw [hi.writes_nothing.1]
  show AgreeOn (s.reading ++ []) s.mem mem
  rwa [List.append_nil]

/-! ## loading -/

/-- The read side hands over `words` as weights; within `B` cycles in which it offers them it is
done. -/
structure Loads (r : Rest) (words : List Nat) (B : Nat) (s : Soc D) : Prop
    extends Agrees r s, Settled s where
  load : r.mode = true
  latch : s.unit.ctrl.weightLatchEn = false
  unit : ∃ a b done older, s.unit.Owes a s.quiet [] b ∧ a.matrix = r.matrix ∧
    words = done ++ s.reading ∧ a.columns = (done.map (rowAt D.read.order r.mem)).reverse ++ older ∧
      b + 23 * s.reading.length ≤ B
  txRowCount : s.unit.stream.txRowCount = r.txRowCount
  mem : s.mem = r.mem
  writing : s.writing = r.writing
  fetched : D.read.Fetched s.read r.mem

/-- **One cycle of loading.** -/
theorem Loads.step (h : Loads r words B s) (hi : i.Polls) :
    Loads r words (B - (s.offers i).toNat) (s.step i) := by
  obtain ⟨a, b, done, older, howes, hmatrix, hwords, hcolumns, hB⟩ := h.unit
  obtain ⟨hreading, hwriting, hmem, hlatch⟩ := step_of_polls (s := s) hi
  have hmode : s.unit.ctrl.seqMode.getLsbD 0 = true := h.mode.trans h.load
  have hagree : AgreeOn s.reading s.mem r.mem := fun _ _ _ => by rw [h.mem]
  obtain ⟨howes', hsent⟩ := howes.loads (s.unitIn i) (fun _ => hmode)
    (fun hen => by rw [h.latch] at hen; cases hen)
  have hflit : s.flit i = none := by rw [flit, hsent, List.head?_nil]
  obtain ⟨hsettled, hstores⟩ := h.toSettled.step hi.allowed hflit
  have hlatched : s.unit.latched a = r.matrix := by
    rw [NpuUnit.latched, h.latch, if_neg Bool.false_ne_true, hmatrix]
  rw [acceptedWeightBeat_eq, hmode, Bool.and_true, hlatched] at howes'
  have hagrees := h.toAgrees.step (hi.allowed (s := s))
  rw [assigns_of_polls hi] at hagrees
  rw [hflit, afterFlit_none] at hwriting
  rw [hstores, storeAll, List.foldl_nil] at hmem
  refine ⟨hagrees, hsettled, h.load, hlatch, ?_, (howes.txRowCount_step _).trans h.txRowCount,
    hmem.trans h.mem, hwriting.trans h.writing, fetched_of_polls hi h.fetched hagree⟩
  have hoffers := (s.offers i).toNat_le
  rw [hreading]
  cases hover : s.handsOver i with
  | true =>
      obtain ⟨addr, rest, hrest, hdata⟩ := reading_of_handsOver hover h.fetched hagree
      have haccepts : s.unit.accepts (s.unitIn i) = true := hover
      rw [hover, if_pos rfl, hdata] at howes'
      refine ⟨_, _, done ++ [addr], older, howes', rfl, ?_, ?_, ?_⟩
      · rw [hwords, hrest, if_pos rfl, List.tail_cons, List.append_assoc, List.singleton_append]
      · show [lanes (readBeat D.read.order r.mem addr)] ++ a.columns = _
        rw [hcolumns, lanes_readBeat, List.map_append, List.reverse_append]
        rfl
      · rw [haccepts]
        rw [hrest, List.length_cons] at hB
        simp only [hrest, if_true, List.tail_cons, Bool.toNat_true]
        omega
  | false =>
      have haccepts : s.unit.accepts (s.unitIn i) = false := hover
      rw [hover, if_neg Bool.false_ne_true] at howes'
      refine ⟨_, _, done, older, howes', rfl, hwords, hcolumns, ?_⟩
      rw [haccepts]
      simp only [Bool.false_eq_true, if_false, Bool.toNat_false]
      by_cases hb : b = 0
      · -- a unit of rank 0 would have accepted a word
        subst hb
        have hready := (howes.of_rank_zero (s.unitIn i)).2
        have hv : (s.beat i).isSome = false := hready.symm.trans haccepts
        cases hreading : s.reading with
        | nil => exact Nat.zero_le _
        | cons addr rest =>
            have hoffer : s.offers i = false := by rw [offers, hv, hreading]; rfl
            rw [hreading] at hB
            rw [hoffer]
            exact hB
      · omega

/-- Once all words are handed over the system is at rest, with the last eight columns loaded. -/
theorem Loads.rests (h : Loads r words B s) (hdone : s.reading = []) {W : Matrix8}
    {before : List (Fin 8 → BitVec 8)}
    (hW : words.map (rowAt D.read.order r.mem) = before ++ weightBeats W) :
    Rests { r with loaded := W } [] s := by
  obtain ⟨a, b, done, older, howes, hmatrix, hwords, hcolumns, -⟩ := h.unit
  rw [hdone, List.append_nil] at hwords
  refine ⟨⟨h.mode, h.seqTotalRows, h.readRegs, h.writeRegs⟩, h.toSettled,
    ⟨a, howes.le_344, ?_, ?_⟩, h.txRowCount, h.mem, h.writing, hdone, h.fetched⟩
  · rw [← hwords, hW, List.reverse_append, List.append_assoc] at hcolumns
    exact Accelerator.loaded_of_columns hcolumns
  · rw [NpuUnit.latched, h.latch, if_neg Bool.false_ne_true, hmatrix]

/-- A write that starts the read side leaves the latch register clear. -/
theorem weightLatchEn_of_descriptor {base : Slave} {offset : Nat} {data : BitVec 32}
    (hbase : base ≠ .npuCtrl) (h : i.access = some (.iowr base offset data)) :
    (s.step i).unit.ctrl.weightLatchEn = false := by
  have hen : (s.step i).unit.ctrl.weightLatchEn =
      ((s.unitIn i).writes 7 && ((written i).getD 0).getLsbD 0) := rfl
  have hnone : written i = none := by
    rw [written, h]
    cases base
    case npuCtrl => exact absurd rfl hbase
    all_goals rfl
  rw [hen, unitIn_writes, hnone]
  rfl

/-- The driver's write of GO to the read side. -/
def readGo : Access := .iowr .readDescriptor 0x0C 0x80000300

/-- From rest the write of GO starts loading. -/
theorem loads_of_go (h : Rests r [] s) (hload : r.mode = true) (hlate : s.LatchesLate i)
    (hallows : r.Allows readGo) (hdoes : Does readGo s i) :
    Loads (r.access readGo) r.readRegs.words (344 + 23 * r.readRegs.words.length) (s.step i) := by
  have hstep : Rests (r.access readGo) r.readRegs.words (s.step i) := h.does hlate hdoes hallows
  obtain ⟨a, howes, -, hlatched⟩ := hstep.unit
  have hlatch : (s.step i).unit.ctrl.weightLatchEn = false :=
    weightLatchEn_of_descriptor (by decide) hdoes.1
  rw [NpuUnit.latched, hlatch, if_neg Bool.false_ne_true] at hlatched
  refine ⟨hstep.toAgrees, hstep.toSettled, hload, hlatch,
    ⟨a, _, [], a.columns, howes, hlatched, ?_, rfl, ?_⟩, hstep.txRowCount, hstep.mem, hstep.writing,
    hstep.fetched⟩
  · rw [hstep.reading, List.nil_append]
  · rw [hstep.reading]

/-- **While the read side offers its words** they are handed over, one after the other. -/
theorem Loads.run (h : Loads r words B s) {is : List (In D)} (his : ∀ i ∈ is, i.Polls) :
    Loads r words (B - count Soc.step offers s is) (Machine.run Soc.step s is) :=
  countdown_run (p := fun _ i => i.Polls) (fun _ _ _ h hi => Loads.step h hi) h
    (always_of_forall_mem his)

theorem Loads.reading_eq_nil (h : Loads r words 0 s) : s.reading = [] := by
  obtain ⟨a, b, done, older, -, -, -, -, hB⟩ := h.unit
  exact List.length_eq_zero_iff.mp (by omega)

/-- Waiting goes on loading. -/
theorem loads_waits (r : Rest) (words : List Nat) :
    Keeps step Waits LatchesLate fun s : Soc D => ∃ B, Loads r words B s :=
  fun _ _ ⟨_, h⟩ _ hwaits => ⟨_, h.step (.of_waits hwaits)⟩

/-- The words of `n` matrices from `addr` on. -/
def matrixWords (addr : BitVec 32) (n : Nat) : List Nat :=
  (List.range (8 * n)).map fun t => addr.toNat + 8 * t

theorem words_eq_matrixWords (addr write : BitVec 32) {n : Nat}
    (hn : Fits addr.toNat (npuMatBytes * n)) :
    (Descriptor.mk addr write (BitVec.ofNat 32 (npuMatBytes * n))).words = matrixWords addr n := by
  have hlen : (BitVec.ofNat 32 (npuMatBytes * n)).toNat / 8 = 8 * n := by
    rw [Fits.toNat_ofNat hn, npuMatBytes]
    omega
  rw [Descriptor.words, hlen, matrixWords]

theorem map_rowAt_matrixWords (π : Equiv.Perm (Fin 8)) (mem : Mem) (addr : BitVec 32) (n : Nat) :
    (matrixWords addr n).map (rowAt π mem) = (readBeats π mem addr.toNat (8 * n)).map lanes := by
  rw [matrixWords, List.map_map, Npu.lanes_readBeats]
  rfl

/-- What `npu_load_weights` does before it waits. -/
def weightsGo (addr : BitVec 32) (n : Nat) : List Access :=
  iowrReg .npuCtrl regCtrl 0x00000003 ::
    msgdmaReadStreamPush .readDescriptor addr (BitVec.ofNat 32 (npuMatBytes * n))

/-- What it does behind the wait for the read side. -/
def weightsLatch : List Access :=
  [.poll .npuCtrl (regStatus * 4), iowrReg .npuCtrl 7 1, iowrReg .npuCtrl 7 0]

theorem npuLoadWeights_eq (addr : BitVec 32) (n : Nat) :
    npuLoadWeights addr n = weightsGo addr n ++ ([.poll .readCsr 0] ++ weightsLatch) := rfl

/-- The rest behind `weightsGo`. -/
def weightsRest (r : Rest) (addr : BitVec 32) (n : Nat) : Rest :=
  { r with mode := true, readRegs := ⟨addr, 0, BitVec.ofNat 32 (npuMatBytes * n)⟩ }

/-- The write of GO starts loading. -/
theorem leads_weightsGo (r : Rest) (addr : BitVec 32) {n : Nat}
    (hn : Fits addr.toNat (npuMatBytes * n)) :
    Leads (Rests (D := D) r []) (weightsGo addr n) fun s =>
      ∃ B, B ≤ 344 + 23 * (8 * n) ∧ Loads (weightsRest r addr n) (matrixWords addr n) B s := by
  obtain ⟨len, hlen⟩ : ∃ len, len = BitVec.ofNat 32 (npuMatBytes * n) := ⟨_, rfl⟩
  obtain ⟨pushed, hpushed⟩ : ∃ pushed, pushed = weightsRest r addr n := ⟨_, rfl⟩
  have hprog : weightsGo addr n =
      [iowrReg .npuCtrl regCtrl 3, .iowr .readDescriptor 0x00 addr, .iowr .readDescriptor 0x04 0,
        .iowr .readDescriptor 0x08 len] ++ [readGo] := by
    rw [hlen]
    rfl
  have hrest : [iowrReg .npuCtrl regCtrl 3, .iowr .readDescriptor 0x00 addr,
      .iowr .readDescriptor 0x04 0, .iowr .readDescriptor 0x08 len].foldl Rest.access r = pushed := by
    rw [hpushed, weightsRest, ← hlen]
    simp [Descriptor.write]
  have hgo : pushed.access readGo = pushed := by
    simp [readGo, hpushed, weightsRest, Descriptor.write]
  have hallows : pushed.Allows readGo := by
    refine ⟨fun _ => ⟨rfl, trivial, ?_⟩, trivial⟩
    rw [hpushed]
    show Fits addr.toNat (BitVec.ofNat 32 (npuMatBytes * n)).toNat
    rwa [Fits.toNat_ofNat hn]
  have hwords : pushed.readRegs.words = matrixWords addr n := by
    rw [hpushed]
    exact words_eq_matrixWords addr 0 hn
  have hlength : (matrixWords addr n).length = 8 * n := by
    rw [matrixWords, List.length_map, List.length_range]
  rw [hprog, ← hpushed]
  refine leads_append (leads_rest r _ (by simp [Access.plain, iowrReg, commits])) ?_
  rw [hrest]
  refine leads_cons (rests_waits pushed) (fun s i h hlate hdoes => ?_) (leads_nil ?_)
  · have hloads := loads_of_go h (by rw [hpushed]; rfl) hlate hallows hdoes
    rw [hgo, hwords, hlength] at hloads
    exact ⟨_, le_rfl, hloads⟩
  · rintro s i ⟨B, hB, h⟩ - hwaits
    exact ⟨_, by omega, h.step (.of_waits hwaits)⟩

/-- The poll finds the read side idle: the last eight columns are loaded. -/
theorem leads_pollRead (r : Rest) (words : List Nat) {W : Matrix8} {before : List (Fin 8 → BitVec 8)}
    (hW : words.map (rowAt D.read.order r.mem) = before ++ weightBeats W) :
    Leads (fun s : Soc D => ∃ B, Loads r words B s) [.poll .readCsr 0]
      (Rests { r with loaded := W } []) := by
  refine leads_cons (loads_waits r words) (fun s i ⟨B, h⟩ hlate hdoes => ?_) (leads_nil (rests_waits _))
  have hidle : D.read.busy s.read = false := hdoes.2 .readCsr 0 rfl
  have hdone : s.reading = [] := by
    by_contra hleft
    have hbusy := D.read.busy_of_left hleft
    rw [hidle] at hbusy
    cases hbusy
  have hstep := (h.rests hdone hW).does hlate hdoes (Rest.allows_of_plain _ rfl).1
  rwa [Rest.access_poll] at hstep

/-- The latch pulse copies what is loaded. -/
theorem leads_weightsLatch (r : Rest) :
    Leads (Rests (D := D) r []) weightsLatch (Rests { r with matrix := r.loaded } []) := by
  have hlatch := leads_rest (D := D) r weightsLatch (by simp [weightsLatch, Access.plain, iowrReg])
  have hfinal : weightsLatch.foldl Rest.access r = { r with matrix := r.loaded } := by
    simp [weightsLatch]
  rwa [hfinal] at hlatch

/-- **`npu_load_weights`**: of `n` matrices from `addr` on the last one is in use behind it. -/
theorem leads_npuLoadWeights (r : Rest) (addr : BitVec 32) {n : Nat}
    (hn : Fits addr.toNat (npuMatBytes * n)) {W : Matrix8} {before : List (Fin 8 → BitVec 8)}
    (hW : (matrixWords addr n).map (rowAt D.read.order r.mem) = before ++ weightBeats W) :
    Leads (Rests (D := D) r []) (npuLoadWeights addr n)
      (Rests { r with
        mode := true, loaded := W, matrix := W
        readRegs := ⟨addr, 0, BitVec.ofNat 32 (npuMatBytes * n)⟩ } []) := by
  rw [npuLoadWeights_eq]
  exact leads_append
    ((leads_weightsGo r addr hn).mono (fun _ => id) fun _ ⟨B, _, h⟩ => ⟨B, h⟩)
    (leads_append (leads_pollRead (weightsRest r addr n) _ hW) (leads_weightsLatch _))

end Soc

end Npu
