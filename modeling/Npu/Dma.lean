import Npu.Driver

/-!
# Npu.Dma

The two DMA engines, as parameters.  They are instances of a vendor's core that is not part of the
sources; the driver counts on what the register map and the system description say of it:

* a write to the control register of a descriptor that sets GO commits the descriptor;
* the read side hands over the words of the descriptor, in order;
* the write side stores the flits it takes, in order, and is through with a descriptor at its
  length or at EOP, whichever comes first;
* bit 0 of the status is set until all of this is done;
* a transfer is of words of 8 bytes, aligned, and has at most 1 MB.

A `ReadEngine` and a `WriteEngine` have any state and any pace that obey these laws.  The read
side may fetch words ahead, the write side may keep flits back and may take flits that belong to
no descriptor.  The laws are for what the driver writes (`Allows`): descriptors of two kinds,
committed to an engine that is idle, for buffers that `Fits` describes.

`Dma.plain` is a pair of engines without a buffer, but for one flit.
-/

namespace Npu

open ByteMem Lanes

/-! ## descriptors -/

/-- A write to one of the two slaves of an engine. -/
inductive SlaveWrite where
  | csr (offset : Nat) (data : BitVec 32)
  | descriptor (offset : Nat) (data : BitVec 32)
deriving DecidableEq, Repr

/-- The registers of a descriptor slave. -/
structure Descriptor where
  readAddress : BitVec 32
  writeAddress : BitVec 32
  length : BitVec 32
deriving DecidableEq, Repr

/-- The registers after a write to the slaves, if there is one. -/
def Descriptor.write (d : Descriptor) : Option SlaveWrite → Descriptor
  | some (.descriptor offset data) =>
      { readAddress := if offset = 0x00 then data else d.readAddress
        writeAddress := if offset = 0x04 then data else d.writeAddress
        length := if offset = 0x08 then data else d.length }
  | _ => d

/-- A write to the control register with GO set commits the descriptor. -/
def commits : Option SlaveWrite → Bool
  | some (.descriptor offset data) => offset == 0x0C && data.getLsbD 31
  | _ => false

/-- The addresses of the words of a buffer, 8 bytes each. -/
def Descriptor.words (d : Descriptor) : List Nat :=
  (List.range (d.length.toNat / 8)).map fun t => d.readAddress.toNat + 8 * t

/-- What is left of a descriptor of the write side. -/
structure Transfer where
  address : Nat
  length : Nat
deriving DecidableEq, Repr

def Descriptor.transfer (d : Descriptor) : Transfer where
  address := d.writeAddress.toNat
  length := d.length.toNat

/-- What is left after one more flit: the transfer ends with its length or with EOP. -/
def Transfer.next (t : Transfer) (flit : Flit) : List Transfer :=
  if t.length ≤ 8 || flit.endofpacket then []
  else [{ address := t.address + 8, length := t.length - 8 }]

/-- `MAX_BYTE` of both engines in the system description. -/
def maxTransfer : Nat := 1048576

/-- A buffer that a descriptor may name: words of 8 bytes, and no more than a transfer has. -/
def Fits (address length : Nat) : Prop :=
  0 < length ∧ length ≤ maxTransfer ∧ 8 ∣ length ∧ 8 ∣ address ∧ address + length ≤ 2 ^ 32

instance (address length : Nat) : Decidable (Fits address length) :=
  inferInstanceAs (Decidable (_ ∧ _))

/-- A length that fits is not cut. -/
theorem Fits.toNat_ofNat {address length : Nat} (h : Fits address length) :
    (BitVec.ofNat 32 length).toNat = length := by
  obtain ⟨-, hle, -⟩ := h
  rw [BitVec.toNat_ofNat, Nat.mod_eq_of_lt (hle.trans_lt (by decide))]

/-- What the driver may write to an engine.  It clears the status and the control register; it
commits a descriptor of the kind `control`, for a buffer that fits, to an engine that is `idle`. -/
def Allows (control address length : BitVec 32) (idle : Prop) : Option SlaveWrite → Prop
  | none => True
  | some (.csr offset data) => offset = 0x00 ∨ offset = 0x04 ∧ data = 0
  | some (.descriptor offset data) => commits (some (.descriptor offset data)) = true →
      data = control ∧ idle ∧ Fits address.toNat length.toNat

/-! ## the read side -/

/-- The beat of the word at `addr`. -/
def readBeat (π : Equiv.Perm (Fin 8)) (mem : Mem) (addr : Nat) : BitVec 64 :=
  pack 8 fun l => mem (addr + π (Fin.ofNat 8 l))

/-- The words at `addrs` are the same in both memories. -/
def AgreeOn (addrs : List Nat) (mem mem' : Mem) : Prop :=
  ∀ addr ∈ addrs, ∀ l : Fin 8, mem (addr + l) = mem' (addr + l)

/-- An engine that reads memory and hands its words to the unit. -/
structure ReadPorts where
  State : Type
  /-- What decides in each cycle how fast it goes. -/
  Pace : Type
  /-- How it orders the bytes of a word. -/
  order : Equiv.Perm (Fin 8)
  /-- The beat it presents. -/
  beat : State → Pace → Mem → Option (BitVec 64)
  /-- Bit 0 of the status. -/
  busy : State → Bool
  /-- A cycle, with the write to its slaves and with the unit ready or not. -/
  step : State → Pace → Mem → Option SlaveWrite → Bool → State
  regs : State → Descriptor
  /-- The words of the descriptor that are not handed over yet. -/
  left : State → List Nat
  /-- What it has fetched of them is what the memory holds. -/
  Fetched : State → Mem → Prop

/-- `GO | GEN_EOP(9) | GEN_SOP(8)`, for a descriptor with a buffer to read. -/
def ReadPorts.Allowed (E : ReadPorts) (e : E.State) : Option SlaveWrite → Prop :=
  Allows 0x80000300 (E.regs e).readAddress (E.regs e).length (E.left e = [])

/-- What is known of it. -/
structure ReadEngine extends ReadPorts where
  fetched_of_idle {e mem} : left e = [] → Fetched e mem
  /-- It presents the first word that is left, as the memory holds it. -/
  beat_eq {e pace mem mem' data} : Fetched e mem' → AgreeOn (left e) mem mem' →
    beat e pace mem = some data → ∃ addr rest, left e = addr :: rest ∧ data = readBeat order mem' addr
  /-- What it fetches it fetches from memory. -/
  fetched_step {e pace mem mem' w ready} : toReadPorts.Allowed e w → Fetched e mem' →
    AgreeOn (left e ++ if commits w then (regs e).words else []) mem mem' →
      Fetched (step e pace mem w ready) mem'
  /-- A beat that meets a ready unit is handed over; GO adds the words of the descriptor. -/
  left_step {e pace mem w ready} : toReadPorts.Allowed e w → left (step e pace mem w ready) =
    (if (beat e pace mem).isSome && ready then (left e).tail else left e) ++
      if commits w then (regs e).words else []
  regs_step {e pace mem w ready} : toReadPorts.Allowed e w →
    regs (step e pace mem w ready) = (regs e).write w
  /-- The driver waits for this bit before it latches the weights. -/
  busy_of_left {e} : left e ≠ [] → busy e = true

/-! ## the write side -/

/-- What is left of the transfers once a flit is taken, if one is. -/
def afterFlit : List Transfer → Option Flit → List Transfer
  | t :: ts, some flit => t.next flit ++ ts
  | ts, _ => ts

/-- Where the flit goes; without a transfer it goes nowhere. -/
def placed : List Transfer → Option Flit → List (Nat × BitVec 64)
  | t :: _, some flit => [(t.address, flit.data)]
  | _, _ => []

@[simp] theorem afterFlit_none (ts : List Transfer) : afterFlit ts none = ts := by cases ts <;> rfl

@[simp] theorem afterFlit_nil (flit : Option Flit) : afterFlit [] flit = [] := rfl

@[simp] theorem placed_none (ts : List Transfer) : placed ts none = [] := by cases ts <;> rfl

@[simp] theorem placed_nil (flit : Option Flit) : placed [] flit = [] := rfl

/-- An engine that takes flits from the unit and writes them to memory. -/
structure WritePorts where
  State : Type
  Pace : Type
  /-- It takes a flit. -/
  ready : State → Pace → Bool
  /-- The words that it writes to memory. -/
  stores : State → Pace → List (Nat × BitVec 64)
  busy : State → Bool
  /-- A cycle, with the write to its slaves and the flit it takes. -/
  step : State → Pace → Option SlaveWrite → Option Flit → State
  regs : State → Descriptor
  left : State → List Transfer
  /-- The words taken that are not in memory yet. -/
  buffered : State → List (Nat × BitVec 64)
  /-- It holds no flit that belongs to no descriptor. -/
  Clean : State → Prop

/-- `GO | End on EOP(12)`, for a descriptor with a buffer to write; and flits only when it is
ready. -/
def WritePorts.Allowed (E : WritePorts) (e : E.State) (pace : E.Pace) (w : Option SlaveWrite)
    (flit : Option Flit) : Prop :=
  Allows 0x80001000 (E.regs e).writeAddress (E.regs e).length
      (E.left e = [] ∧ E.buffered e = [] ∧ E.Clean e) w ∧
    (flit.isSome = true → E.ready e pace = true)

/-- What is known of it. -/
structure WriteEngine extends WritePorts where
  /-- A descriptor ends with its length or with EOP; GO adds one. -/
  left_step {e pace w flit} : toWritePorts.Allowed e pace w flit → left (step e pace w flit) =
    afterFlit (left e) flit ++ if commits w then [(regs e).transfer] else []
  /-- Every flit of a descriptor is written once, in order. -/
  stores_step {e pace w flit} : toWritePorts.Allowed e pace w flit →
    buffered e ++ placed (left e) flit = stores e pace ++ buffered (step e pace w flit)
  clean_step {e pace w flit} : toWritePorts.Allowed e pace w flit → Clean e →
    (flit.isSome = true → left e ≠ []) → Clean (step e pace w flit)
  regs_step {e pace w flit} : toWritePorts.Allowed e pace w flit →
    regs (step e pace w flit) = (regs e).write w
  /-- The driver waits for this bit before it reads the outputs. -/
  busy_of_work {e} : left e ≠ [] ∨ buffered e ≠ [] → busy e = true

/-- The engines `DDR_READ_ST` and `DDR_WRITE_ST`. -/
structure Dma where
  read : ReadEngine
  write : WriteEngine

/-! ## plain engines -/

structure PlainRead where
  regs : Descriptor
  left : List Nat

/-- It reads a word when it presents it. -/
def PlainRead.beat (π : Equiv.Perm (Fin 8)) (e : PlainRead) (pace : Bool) (mem : Mem) :
    Option (BitVec 64) :=
  if pace then e.left.head?.map (readBeat π mem) else none

structure PlainWrite where
  regs : Descriptor
  left : List Transfer
  /-- The flit taken in the last cycle. -/
  taken : List (Nat × BitVec 64)

theorem readBeat_congr {π : Equiv.Perm (Fin 8)} {addrs : List Nat} {mem mem' : Mem} {addr : Nat}
    (h : AgreeOn addrs mem mem') (haddr : addr ∈ addrs) :
    readBeat π mem addr = readBeat π mem' addr :=
  pack_congr fun _ _ => h addr haddr _

theorem PlainRead.beat_eq {π : Equiv.Perm (Fin 8)} {e : PlainRead} {pace : Bool} {mem mem' : Mem}
    {data : BitVec 64} (hagree : AgreeOn e.left mem mem') (h : e.beat π pace mem = some data) :
    ∃ addr rest, e.left = addr :: rest ∧ data = readBeat π mem' addr := by
  obtain ⟨regs, left⟩ := e
  cases pace with
  | false => cases h
  | true =>
      cases left with
      | nil => cases h
      | cons addr rest =>
          have hdata : readBeat π mem addr = data := Option.some.inj h
          exact ⟨addr, rest, rfl, hdata ▸ readBeat_congr hagree List.mem_cons_self⟩

/-- The pace is whether it presents a word. -/
def ReadEngine.plain (π : Equiv.Perm (Fin 8)) : ReadEngine where
  State := PlainRead
  Pace := Bool
  order := π
  beat := PlainRead.beat π
  busy e := !e.left.isEmpty
  step e pace mem w ready :=
    { regs := e.regs.write w
      left := (if (e.beat π pace mem).isSome && ready then e.left.tail else e.left) ++
        if commits w then e.regs.words else [] }
  regs := PlainRead.regs
  left := PlainRead.left
  Fetched _ _ := True
  fetched_of_idle _ := trivial
  beat_eq _ := PlainRead.beat_eq
  fetched_step _ _ _ := trivial
  left_step _ := rfl
  regs_step _ := rfl
  busy_of_left h := by simpa using h

/-- It writes a flit in the cycle after it has taken it; the pace is whether it takes one. -/
def WriteEngine.plain : WriteEngine where
  State := PlainWrite
  Pace := Bool
  ready e pace := pace && !e.left.isEmpty
  stores e _ := e.taken
  busy e := !e.left.isEmpty || !e.taken.isEmpty
  step e _ w flit :=
    { regs := e.regs.write w
      left := afterFlit e.left flit ++ if commits w then [e.regs.transfer] else []
      taken := placed e.left flit }
  regs := PlainWrite.regs
  left := PlainWrite.left
  buffered := PlainWrite.taken
  Clean _ := True
  left_step _ := rfl
  stores_step _ := rfl
  clean_step _ _ _ := trivial
  regs_step _ := rfl
  busy_of_work h := by simpa [or_iff_not_imp_left] using h

def Dma.plain (π : Equiv.Perm (Fin 8)) : Dma where
  read := .plain π
  write := .plain

end Npu
