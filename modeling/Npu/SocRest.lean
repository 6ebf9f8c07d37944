import Npu.Soc
import Npu.UnitPorts

/-!
# Npu.SocRest

The system at rest: nothing is owed, the read side has no word left and the write side holds no
flit.  At rest the driver may take its accesses for assignments: `Rest` holds what they assign to,
`Rest.access` is the assignment, and every run of a program of plain accesses does just these
(`leads_rest`), however long it waits.  The two accesses that commit a descriptor are not plain;
they have steps of their own (`Rests.does`).

A latch pulse works a cycle after its write, so `matrix` is the matrix once it has.
-/

namespace Npu

open ByteMem Lanes Machine

/-! ## cycles of the unit without answers -/

namespace NpuUnit

variable {u : NpuUnit} {inp : In} {a : Accelerator 8 (BitVec 8)} {d b : Nat} {ws : List (BitVec 64)}

/-- The matrix once a pulse that is under way has been obeyed. -/
def latched (u : NpuUnit) (a : Accelerator 8 (BitVec 8)) : Matrix8 :=
  if u.ctrl.weightLatchEn then a.loaded else a.matrix

/-- Nothing owed and no row presented: nothing is sent, the columns of the cycle are loaded. -/
theorem Owes.loads (h : u.Owes a d [] b) (inp : In)
    (hmode : inp.stSinkValid = true → u.ctrl.seqMode.getLsbD 0 = true)
    (hlate : u.ctrl.weightLatchEn = true → 14 ≤ d) :
    (u.step inp).Owes
        { columns := (u.acceptedWeightBeat inp).map lanes ++ a.columns, matrix := u.latched a }
        (if u.accepts inp then 0 else d + 1) [] (b - 1 + 22 * (u.accepts inp).toNat) ∧
      u.sentFlit inp = [] := by
  have hrow : u.acceptedRowBeat inp = [] := by
    rw [acceptedRowBeat]
    cases hv : inp.stSinkValid with
    | false => rfl
    | true => simp [hmode hv]
  obtain ⟨ws', howes, hsent⟩ := h.step inp
    ⟨fun _ _ => rfl, fun hen => ⟨rfl, hrow, hlate hen⟩⟩
  rw [answers_commands u inp a fun _ => hrow, hrow, List.map_nil, List.flatMap_nil,
    List.append_nil, eq_comm, List.append_eq_nil_iff] at hsent
  rw [hsent.2, run_commands, if_pos (Or.inr rfl)] at howes
  exact ⟨howes, List.map_eq_nil_iff.mp hsent.1⟩

/-- An empty stream controller keeps its row counter. -/
theorem Owes.txRowCount_step (h : u.Owes a d [] b) (inp : In) :
    (u.step inp).stream.txRowCount = u.stream.txRowCount := by
  obtain ⟨hfifo, hactive⟩ := (StreamCtrl.pendingWords_eq_nil_iff h.wf).mp h.pendingWords_eq_nil
  have hrow : (u.step inp).stream.txRowCount = (u.stream.txStep (u.streamIn inp)).txRowCount := rfl
  rw [hrow, StreamCtrl.txStep_of_empty hfifo hactive]

/-- A write to system register `r`, by its full address. -/
theorem In.writes_eq (inp : In) (r : BitVec 3) :
    inp.writes r = (inp.avsWrite && inp.avsAddress == (0 : BitVec 1) ++ r) := by
  have haddr : ∀ (a : BitVec 4) (r : BitVec 3),
      (!a.getLsbD 3 && a.extractLsb' 0 3 == r) = (a == (0 : BitVec 1) ++ r) := by decide
  rw [writes, Bool.and_assoc, haddr]

end NpuUnit

/-! ## what the driver assigns to -/

structure Rest where
  /-- Bit 0 of the mode: the unit loads weights. -/
  mode : Bool
  seqTotalRows : BitVec 32
  txRowCount : BitVec 32
  /-- The matrix that a latch pulse would copy. -/
  loaded : Matrix8
  matrix : Matrix8
  mem : Mem
  readRegs : Descriptor
  writeRegs : Descriptor
  writing : List Transfer

namespace Rest

/-- An access to a system at rest. -/
def access (r : Rest) (a : Access) : Rest where
  mode := if a.written.isSome && a.register == 0 then (a.written.getD 0).getLsbD 1 else r.mode
  seqTotalRows := if a.written.isSome && a.register == 6 then a.written.getD 0 else r.seqTotalRows
  txRowCount := r.txRowCount
  loaded := r.loaded
  matrix :=
    if a.written.isSome && a.register == 7 && (a.written.getD 0).getLsbD 0 then r.loaded
    else r.matrix
  mem := a.onMemory r.mem
  readRegs := r.readRegs.write a.toRead
  writeRegs := r.writeRegs.write a.toWrite
  writing := r.writing ++ if commits a.toWrite then [r.writeRegs.transfer] else []

/-- A poll assigns nothing. -/
@[simp] theorem access_poll (r : Rest) (base : Slave) (offset : Nat) :
    r.access (.poll base offset) = r := by
  show { r with writing := r.writing ++ [] } = r
  rw [List.append_nil]

@[simp] theorem access_ctrl (r : Rest) (data : BitVec 32) :
    r.access (iowrReg .npuCtrl regCtrl data) = { r with mode := data.getLsbD 1 } := by
  show { r with mode := data.getLsbD 1, writing := r.writing ++ [] } = _
  rw [List.append_nil]

@[simp] theorem access_seqRows (r : Rest) (data : BitVec 32) :
    r.access (iowrReg .npuCtrl regSeqRows data) = { r with seqTotalRows := data } := by
  show { r with seqTotalRows := data, writing := r.writing ++ [] } = _
  rw [List.append_nil]

/-- A write to register 7 latches what is loaded, if bit 0 is set. -/
@[simp] theorem access_latch (r : Rest) (data : BitVec 32) : r.access (iowrReg .npuCtrl 7 data) =
    { r with matrix := if data.getLsbD 0 then r.loaded else r.matrix } := by
  show { r with matrix := if data.getLsbD 0 then r.loaded else r.matrix, writing := r.writing ++ [] }
    = _
  rw [List.append_nil]

/-- The registers of the single cell, by their full address. -/
@[simp] theorem access_pe (r : Rest) {reg : Nat} (hlo : 8 ≤ reg) (hhi : reg < 12) (data : BitVec 32) :
    r.access (iowrReg .npuCtrl reg data) = r := by
  have hnil : { r with writing := r.writing ++ [] } = r := by rw [List.append_nil]
  obtain rfl | rfl | rfl | rfl : reg = 8 ∨ reg = 9 ∨ reg = 10 ∨ reg = 11 := by omega
  all_goals exact hnil

@[simp] theorem access_iord (r : Rest) (reg : Nat) : r.access (.iord reg) = r := by
  show { r with writing := r.writing ++ [] } = r
  rw [List.append_nil]

@[simp] theorem access_readDescriptor (r : Rest) (offset : Nat) (data : BitVec 32) :
    r.access (.iowr .readDescriptor offset data) =
      { r with readRegs := r.readRegs.write (some (.descriptor offset data)) } := by
  show { r with
    readRegs := r.readRegs.write (some (.descriptor offset data))
    writing := r.writing ++ [] } = _
  rw [List.append_nil]

@[simp] theorem access_writeDescriptor (r : Rest) (offset : Nat) (data : BitVec 32) :
    r.access (.iowr .writeDescriptor offset data) =
      { r with
        writeRegs := r.writeRegs.write (some (.descriptor offset data))
        writing := r.writing ++
          if commits (some (.descriptor offset data)) then [r.writeRegs.transfer] else [] } := rfl

@[simp] theorem access_readCsr (r : Rest) (offset : Nat) (data : BitVec 32) :
    r.access (.iowr .readCsr offset data) = r := by
  show { r with writing := r.writing ++ [] } = _
  rw [List.append_nil]

@[simp] theorem access_writeCsr (r : Rest) (offset : Nat) (data : BitVec 32) :
    r.access (.iowr .writeCsr offset data) = r := by
  show { r with writing := r.writing ++ [] } = _
  rw [List.append_nil]

@[simp] theorem access_memory (r : Rest) (f : Mem → Mem) :
    r.access (.memory f) = { r with mem := f r.mem } := by
  show { r with mem := f r.mem, writing := r.writing ++ [] } = _
  rw [List.append_nil]

/-- The driver may do this at rest. -/
def Allows (r : Rest) (a : Access) : Prop :=
  Npu.Allows 0x80000300 r.readRegs.readAddress r.readRegs.length True a.toRead ∧
    Npu.Allows 0x80001000 r.writeRegs.writeAddress r.writeRegs.length (r.writing = []) a.toWrite

end Rest

/-- The access commits no descriptor and does not stop an engine. -/
def Access.plain : Access → Bool
  | .iowr base offset data =>
      match base with
      | .npuCtrl => true
      | .readCsr | .writeCsr => offset == 0x00 || (offset == 0x04 && data == 0)
      | .readDescriptor | .writeDescriptor => !commits (some (.descriptor offset data))
  | _ => true

/-- A plain access may always be done, and commits nothing. -/
theorem Rest.allows_of_plain (r : Rest) {a : Access} (h : a.plain = true) :
    r.Allows a ∧ commits a.toRead = false := by
  cases a with
  | iowr base offset data =>
      cases base with
      | npuCtrl => exact ⟨⟨trivial, trivial⟩, rfl⟩
      | readCsr =>
          have hcsr : offset = 0x00 ∨ offset = 0x04 ∧ data = 0 := by simpa [Access.plain] using h
          exact ⟨⟨hcsr, trivial⟩, rfl⟩
      | writeCsr =>
          have hcsr : offset = 0x00 ∨ offset = 0x04 ∧ data = 0 := by simpa [Access.plain] using h
          exact ⟨⟨trivial, hcsr⟩, rfl⟩
      | readDescriptor =>
          have hno : commits (some (.descriptor offset data)) = false := by
            simpa only [Access.plain, Bool.not_eq_true'] using h
          exact ⟨⟨fun hyes => absurd (hno.symm.trans hyes) (by decide), trivial⟩, hno⟩
      | writeDescriptor =>
          have hno : commits (some (.descriptor offset data)) = false := by
            simpa only [Access.plain, Bool.not_eq_true'] using h
          exact ⟨⟨trivial, fun hyes => absurd (hno.symm.trans hyes) (by decide)⟩, rfl⟩
  | iord | poll | memory => exact ⟨⟨trivial, trivial⟩, rfl⟩

/-- The access of the cycle, if it is one, to a system at rest. -/
def Soc.In.assigns {D : Dma} (i : Soc.In D) (r : Rest) : Rest := i.access.elim r r.access

namespace Soc

variable {D : Dma} {s : Soc D} {i : In D} {r : Rest}

/-- The registers are those of `r`. -/
structure Agrees (r : Rest) (s : Soc D) : Prop where
  mode : s.unit.ctrl.seqMode.getLsbD 0 = r.mode
  seqTotalRows : s.unit.ctrl.seqTotalRows = r.seqTotalRows
  readRegs : D.read.regs s.read = r.readRegs
  writeRegs : D.write.regs s.write = r.writeRegs

/-- Nothing but a transfer is left to the write side. -/
structure Settled (s : Soc D) : Prop where
  buffered : D.write.buffered s.write = []
  clean : D.write.Clean s.write

/-- The system is at rest in `r`, but for `words` that the read side is to hand over. -/
structure Rests (r : Rest) (words : List Nat) (s : Soc D) : Prop extends Agrees r s, Settled s where
  unit : ∃ a, s.unit.Owes a s.quiet [] 344 ∧ a.loaded = r.loaded ∧ s.unit.latched a = r.matrix
  txRowCount : s.unit.stream.txRowCount = r.txRowCount
  mem : s.mem = r.mem
  writing : s.writing = r.writing
  reading : s.reading = words
  fetched : D.read.Fetched s.read r.mem

/-! ## one cycle -/

theorem unitIn_writes (r : BitVec 3) : (s.unitIn i).writes r =
    ((written i).isSome && i.access.elim 0 Access.register == (0 : BitVec 1) ++ r) :=
  NpuUnit.In.writes_eq _ r

/-- What the driver and the unit do is in order for the DMA engines. -/
structure Allowed (s : Soc D) (i : In D) : Prop where
  read : D.read.Allowed s.read (toRead i)
  write : D.write.Allowed s.write i.writePace (toWrite i) (s.flit i)

/-- The unit sends only what the write side takes. -/
theorem ready_of_flit (h : (s.flit i).isSome = true) : D.write.ready s.write i.writePace = true := by
  rw [flit, NpuUnit.sentFlit, StreamCtrl.sentFlit] at h
  split at h
  · rename_i hsent
    exact (Bool.and_eq_true_iff.mp hsent).2
  · cases h

theorem Allowed.of_access (hread : ∀ a, i.access = some a → D.read.Allowed s.read a.toRead)
    (hwrite : ∀ a, i.access = some a → Allows 0x80001000 (D.write.regs s.write).writeAddress
      (D.write.regs s.write).length
      (D.write.left s.write = [] ∧ D.write.buffered s.write = [] ∧ D.write.Clean s.write) a.toWrite) :
    s.Allowed i := by
  constructor
  · rw [toRead]
    cases hacc : i.access with
    | none => trivial
    | some a => exact hread a hacc
  · refine ⟨?_, ready_of_flit⟩
    rw [toWrite]
    cases hacc : i.access with
    | none => trivial
    | some a => exact hwrite a hacc

theorem Rests.allowed (h : Rests r [] s) (hallows : ∀ a, i.access = some a → r.Allows a) :
    s.Allowed i := by
  refine .of_access (fun a hacc => ?_) fun a hacc => ?_
  · have hidle : (D.read.left s.read = []) = True := eq_true h.reading
    rw [ReadPorts.Allowed, h.readRegs, hidle]
    exact (hallows a hacc).1
  · have hwriting : D.write.left s.write = r.writing := h.writing
    have hidle : (D.write.left s.write = [] ∧ D.write.buffered s.write = [] ∧ D.write.Clean s.write) =
        (r.writing = []) := by simp [hwriting, h.buffered, h.clean]
    rw [h.writeRegs, hidle]
    exact (hallows a hacc).2

/-- The registers follow the accesses, whatever the rest of the system does. -/
theorem Agrees.step (h : Agrees r s) (hallowed : s.Allowed i) : Agrees (i.assigns r) (s.step i) where
  mode := by
    have hstep : (s.step i).unit.ctrl.seqMode = if (s.unitIn i).writes 0 then
        ((written i).getD 0).extractLsb' 1 2 else s.unit.ctrl.seqMode := rfl
    rw [hstep, unitIn_writes, apply_ite (BitVec.getLsbD · 0), BitVec.getLsbD_extractLsb', h.mode]
    rw [written, In.assigns]
    cases i.access <;> rfl
  seqTotalRows := by
    have hstep : (s.step i).unit.ctrl.seqTotalRows = if (s.unitIn i).writes 6 then
        (written i).getD 0 else s.unit.ctrl.seqTotalRows := rfl
    rw [hstep, unitIn_writes, h.seqTotalRows, written, In.assigns]
    cases i.access <;> rfl
  readRegs := by
    refine (D.read.regs_step hallowed.read).trans ?_
    rw [h.readRegs, toRead, In.assigns]
    cases i.access <;> rfl
  writeRegs := by
    refine (D.write.regs_step hallowed.write).trans ?_
    rw [h.writeRegs, toWrite, In.assigns]
    cases i.access <;> rfl

/-- What is left to the two engines, and the words that are written. -/
theorem engines_step (hallowed : s.Allowed i) :
    (s.step i).reading = (if s.handsOver i then s.reading.tail else s.reading) ++
        (if commits (toRead i) then (D.read.regs s.read).words else []) ∧
      (s.step i).writing = afterFlit s.writing (s.flit i) ++
        (if commits (toWrite i) then [(D.write.regs s.write).transfer] else []) ∧
      D.write.buffered s.write ++ placed s.writing (s.flit i) =
        D.write.stores s.write i.writePace ++ D.write.buffered (s.step i).write :=
  ⟨D.read.left_step hallowed.read, D.write.left_step hallowed.write,
    D.write.stores_step hallowed.write⟩

/-- Without a flit nothing is stored. -/
theorem Settled.step (h : Settled s) (hallowed : s.Allowed i) (hflit : s.flit i = none) :
    Settled (s.step i) ∧ D.write.stores s.write i.writePace = [] := by
  obtain ⟨-, -, hstores⟩ := engines_step hallowed
  rw [h.buffered, hflit, placed_none, List.append_nil, eq_comm, List.append_eq_nil_iff] at hstores
  refine ⟨⟨hstores.2, D.write.clean_step hallowed.write h.clean fun hsome => ?_⟩, hstores.1⟩
  rw [hflit] at hsome
  cases hsome

/-- Without a word left no beat is presented. -/
theorem beat_of_idle (h : s.reading = []) : s.beat i = none := by
  cases hbeat : s.beat i with
  | none => rfl
  | some data =>
      have hagree : AgreeOn (D.read.left s.read) s.mem s.mem := fun _ _ _ => rfl
      obtain ⟨addr, rest, hleft, -⟩ := D.read.beat_eq (D.read.fetched_of_idle h) hagree hbeat
      cases h.symm.trans hleft

/-- A commit leaves the memory alone. -/
theorem assigns_mem_of_commits (h : commits (toRead i) = true) : (i.assigns r).mem = r.mem := by
  rw [toRead] at h
  rw [In.assigns]
  cases hacc : i.access with
  | none => rfl
  | some a =>
      rw [hacc] at h
      cases a with
      | memory f => cases h
      | iowr | iord | poll => rfl

/-- **One cycle at rest.** -/
theorem Rests.step (h : Rests r [] s) (hlate : s.LatchesLate i)
    (hallows : ∀ a, i.access = some a → r.Allows a) :
    Rests (i.assigns r) (if commits (toRead i) then r.readRegs.words else []) (s.step i) := by
  have hallowed := h.allowed hallows
  obtain ⟨a, howes, hloaded, hlatched⟩ := h.unit
  obtain ⟨hreading, hwriting, -⟩ := engines_step hallowed
  have hv : (s.unitIn i).stSinkValid = false := by
    show (s.beat i).isSome = false
    rw [beat_of_idle h.reading]
    rfl
  have hover : s.handsOver i = false := by rw [handsOver, NpuUnit.accepts, hv, Bool.false_and]
  obtain ⟨howes', hsent⟩ := howes.loads (s.unitIn i)
    (fun hv' => by rw [hv] at hv'; cases hv') hlate
  have hflit : s.flit i = none := by rw [flit, hsent, List.head?_nil]
  obtain ⟨hsettled, hstores⟩ := h.toSettled.step hallowed hflit
  have hbeat : s.unit.acceptedWeightBeat (s.unitIn i) = [] := by
    rw [NpuUnit.acceptedWeightBeat, hv]
    rfl
  rw [hbeat, List.map_nil, List.nil_append] at howes'
  refine ⟨h.toAgrees.step hallowed, hsettled, ⟨_, howes'.le_344, hloaded.trans ?_, ?_⟩, ?_, ?_, ?_, ?_,
    ?_⟩
  · rw [In.assigns]
    cases i.access <;> rfl
  · -- a pulse under way is obeyed; a new one copies what is loaded
    have hen : (s.step i).unit.ctrl.weightLatchEn =
        ((s.unitIn i).writes 7 && ((written i).getD 0).getLsbD 0) := rfl
    have hsame : ({ columns := a.columns, matrix := s.unit.latched a } :
        Accelerator 8 (BitVec 8)).loaded = a.loaded := rfl
    rw [NpuUnit.latched, hen, unitIn_writes, hsame, hloaded]
    show (if _ then r.loaded else s.unit.latched a) = _
    rw [hlatched, written, In.assigns]
    cases i.access <;> rfl
  · rw [In.assigns]
    have hrow := howes.txRowCount_step (s.unitIn i)
    refine hrow.trans (h.txRowCount.trans ?_)
    cases i.access <;> rfl
  · have hmem : (s.step i).mem = i.access.elim id Access.onMemory
        (storeAll s.mem (D.write.stores s.write i.writePace)) := rfl
    rw [hmem, hstores, storeAll, List.foldl_nil, h.mem, In.assigns]
    cases i.access <;> rfl
  · rw [hwriting, hflit, afterFlit_none, h.writing, h.writeRegs, toWrite, In.assigns]
    cases i.access with
    | none => exact List.append_nil _
    | some a => rfl
  · rw [hreading, hover, h.reading, h.readRegs]
    rfl
  · cases hcommits : commits (toRead i) with
    | false =>
        refine D.read.fetched_of_idle (hreading.trans ?_)
        rw [hover, hcommits, h.reading]
        rfl
    | true =>
        have hmem : (i.assigns r).mem = r.mem := assigns_mem_of_commits hcommits
        have hfetched := h.fetched
        rw [← h.mem] at hmem hfetched
        rw [hmem]
        exact D.read.fetched_step hallowed.read hfetched fun _ _ _ => rfl

/-! ## programs -/

/-- Waiting does nothing at rest. -/
theorem assigns_of_waits (h : Waits s i) : i.assigns r = r := by
  obtain hnone | ⟨base, offset, hpoll, -⟩ := h
  · rw [In.assigns, hnone]
    rfl
  · rw [In.assigns, hpoll]
    exact r.access_poll base offset

theorem rests_waits (r : Rest) : Keeps (step (D := D)) Waits LatchesLate (Rests r []) := by
  intro s i h hlate hwaits
  have hallows : ∀ a, i.access = some a → r.Allows a := by
    rintro a hacc
    obtain hnone | ⟨base, offset, hpoll, -⟩ := hwaits
    · rw [hnone] at hacc
      cases hacc
    · rw [hpoll] at hacc
      cases hacc
      exact (r.allows_of_plain rfl).1
  have hstep := h.step hlate hallows
  rw [assigns_of_waits hwaits] at hstep
  obtain hnone | ⟨base, offset, hpoll, -⟩ := hwaits
  · rwa [toRead, hnone] at hstep
  · rwa [toRead, hpoll] at hstep

/-- **An access at rest** is an assignment, and may start the read side. -/
theorem Rests.does {a : Access} (h : Rests r [] s) (hlate : s.LatchesLate i) (hdoes : Does a s i)
    (hallows : r.Allows a) :
    Rests (r.access a) (if commits a.toRead then r.readRegs.words else []) (s.step i) := by
  have hstep := h.step hlate fun b hb => by
    rw [hdoes.1] at hb
    cases hb
    exact hallows
  rw [In.assigns, toRead, hdoes.1] at hstep
  exact hstep

/-- **At rest** a program of plain accesses does its assignments. -/
theorem leads_rest (r : Rest) (as : List Access) (has : ∀ a ∈ as, a.plain = true) :
    Leads (Rests (D := D) r []) as (Rests (as.foldl Rest.access r) []) := by
  induction as generalizing r with
  | nil => exact leads_nil (rests_waits r)
  | cons a as ih =>
      obtain ⟨hallows, hcommits⟩ := r.allows_of_plain (has a List.mem_cons_self)
      refine leads_cons (rests_waits r) (fun _ _ h hlate hdoes => ?_)
        (ih (r.access a) fun b hb => has b (List.mem_cons_of_mem a hb))
      have hstep := h.does hlate hdoes hallows
      rwa [hcommits] at hstep

end Soc

end Npu
