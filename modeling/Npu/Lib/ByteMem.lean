import Npu.Lib.Lanes

/-!
# Npu.Lib.ByteMem

Byte-addressed memory.  `store` and `load` access `n` bytes, lowest byte first.  A buffer is
filled by a fold of writers, each with its own region: `foldl_frame` reads outside of all
regions, `foldl_hit` inside of one.

A `Window` shows a stretch of the memory at other addresses: `view` is the memory as it is read
through the window, `through` what a writer leaves that works on the view.
-/

namespace ByteMem

open Lanes

/-- A memory of bytes. -/
abbrev Mem := Nat → BitVec 8

/-- Write the lowest `n` bytes of `data` from `addr` on. -/
def store (n : Nat) (mem : Mem) (addr : Nat) (data : BitVec m) : Mem := fun a =>
  if addr ≤ a ∧ a < addr + n then lane 8 data (a - addr) else mem a

/-- Read `n` bytes from `addr` on. -/
def load (n : Nat) (mem : Mem) (addr : Nat) : BitVec (n * 8) := pack n fun i => mem (addr + i)

theorem store_add (mem : Mem) (addr : Nat) (data : BitVec m) {i : Nat} (hi : i < n) :
    store n mem addr data (addr + i) = lane 8 data i := by
  rw [store, if_pos ⟨Nat.le_add_right _ _, by omega⟩, Nat.add_sub_cancel_left]

theorem store_of_not_mem (mem : Mem) {addr : Nat} (data : BitVec m) {a : Nat}
    (h : ¬ (addr ≤ a ∧ a < addr + n)) : store n mem addr data a = mem a := by
  rw [store, if_neg h]

theorem lane_load (mem : Mem) (addr : Nat) {i : Nat} (hi : i < n) :
    lane 8 (load n mem addr) i = mem (addr + i) :=
  lane_pack _ hi

section
variable {f : Mem → ι → Mem} {R : ι → Nat → Prop} {l : List ι} {a : Nat}

/-- Outside of all regions a fold of writers changes nothing. -/
theorem foldl_frame (hf : ∀ mem i a, ¬ R i a → f mem i a = mem a)
    (h : ∀ i ∈ l, ¬ R i a) (mem : Mem) : l.foldl f mem a = mem a := by
  induction l generalizing mem with
  | nil => rfl
  | cons i l ih =>
      rw [List.foldl_cons, ih fun j hj => h j (List.mem_cons_of_mem i hj),
        hf mem i a (h i List.mem_cons_self)]

/-- In the region of `i` a fold of writers leaves what the writer of `i` leaves. -/
theorem foldl_hit (hf : ∀ mem i a, ¬ R i a → f mem i a = mem a) {i : ι} {v : BitVec 8}
    (hhit : ∀ mem, f mem i a = v) (hi : i ∈ l) (hother : ∀ j ∈ l, R j a → j = i) (mem : Mem) :
    l.foldl f mem a = v := by
  induction l generalizing mem with
  | nil => cases hi
  | cons j l ih =>
      have hother' : ∀ k ∈ l, R k a → k = i := fun k hk => hother k (List.mem_cons_of_mem j hk)
      rw [List.foldl_cons]
      by_cases hmem : i ∈ l
      · exact ih hmem hother' _
      · have hij : i = j := (List.mem_cons.mp hi).resolve_right hmem
        rw [foldl_frame hf fun k hk hk' => hmem (hother' k hk hk' ▸ hk), ← hij]
        exact hhit mem

end

/-! ## windows -/

/-- What stands from `target` on is seen from `base` on, `span` bytes of it. -/
structure Window where
  base : Nat
  target : Nat
  span : Nat

namespace Window

variable (w : Window)

/-- The memory, seen through the window. -/
def view (mem : Mem) : Mem := fun a => mem (w.target + (a - w.base))

/-- The memory behind a writer that works through the window. -/
def through (f : Mem → Mem) (mem : Mem) : Mem := fun a =>
  if w.target ≤ a ∧ a < w.target + w.span then f (w.view mem) (w.base + (a - w.target)) else mem a

theorem load_view (n : Nat) (mem : Mem) (k : Nat) :
    load n (w.view mem) (w.base + k) = load n mem (w.target + k) := by
  refine pack_congr fun i _ => ?_
  rw [view, Nat.add_assoc, Nat.add_sub_cancel_left, Nat.add_assoc]

theorem through_add (f : Mem → Mem) (mem : Mem) {k : Nat} (hk : k < w.span) :
    w.through f mem (w.target + k) = f (w.view mem) (w.base + k) := by
  rw [through, if_pos ⟨Nat.le_add_right _ _, by omega⟩, Nat.add_sub_cancel_left]

end Window

end ByteMem
