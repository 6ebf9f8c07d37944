import Mathlib.Data.BitVec
import Mathlib.Logic.Function.Basic

/-!
# Npu.Lib.RingBuffer

A ring buffer of `2 ^ k` slots, addressed by `k`-bit pointers that wrap around.
`contents mem rd c` is the queue of the `c` slots from the read pointer on, oldest first.

Popping moves the read pointer over the head of the queue (`contents_succ`), pushing
writes the slot behind its end (`contents_push`); a write pointer that is `c` slots ahead
of the read pointer stays so (`wrPtr_push`, `wrPtr_pop`).
-/

namespace RingBuffer

variable {k : Nat} {α : Type*}

/-- The `c` slots from `rd` on, oldest first. -/
def contents (mem : BitVec k → α) (rd : BitVec k) (c : Nat) : List α :=
  (List.range c).map fun i => mem (rd + BitVec.ofNat k i)

@[simp] theorem length_contents (mem : BitVec k → α) (rd : BitVec k) (c : Nat) :
    (contents mem rd c).length = c := by
  simp [contents]

/-- Popping takes the slot under the read pointer. -/
theorem contents_succ (mem : BitVec k → α) (rd : BitVec k) (c : Nat) :
    contents mem rd (c + 1) = mem rd :: contents mem (rd + 1) c := by
  have hnext : ∀ i, rd + BitVec.ofNat k (i + 1) = rd + 1 + BitVec.ofNat k i := by
    intro i
    rw [BitVec.add_assoc, Nat.add_comm i 1, BitVec.ofNat_add]
    rfl
  have hzero : rd + BitVec.ofNat k 0 = rd := BitVec.add_zero rd
  rw [contents, List.range_succ_eq_map, List.map_cons, List.map_map, hzero]
  congr 1
  exact List.map_congr_left fun i _ => congrArg mem (hnext i)

theorem contents_succ' (mem : BitVec k → α) (rd : BitVec k) (c : Nat) :
    contents mem rd (c + 1) = contents mem rd c ++ [mem (rd + BitVec.ofNat k c)] := by
  simp [contents, List.range_succ]

/-- The slot behind the end is none of the queue's. -/
theorem contents_update (mem : BitVec k → α) (rd : BitVec k) {c : Nat} (hc : c < 2 ^ k) (x : α) :
    contents (Function.update mem (rd + BitVec.ofNat k c) x) rd c = contents mem rd c := by
  unfold contents
  refine List.map_congr_left fun i hi => Function.update_of_ne ?_ _ _
  rw [List.mem_range] at hi
  intro heq
  have hi' := congrArg BitVec.toNat ((BitVec.add_right_inj rd).mp heq)
  rw [BitVec.toNat_ofNat, BitVec.toNat_ofNat, Nat.mod_eq_of_lt (by omega),
    Nat.mod_eq_of_lt hc] at hi'
  omega

/-- Pushing writes the slot behind the end. -/
theorem contents_push (mem : BitVec k → α) (rd : BitVec k) {c : Nat} (hc : c < 2 ^ k) (x : α) :
    contents (Function.update mem (rd + BitVec.ofNat k c) x) rd (c + 1) =
      contents mem rd c ++ [x] := by
  rw [contents_succ', contents_update mem rd hc, Function.update_self]

theorem wrPtr_push (rd : BitVec k) (c : Nat) :
    rd + BitVec.ofNat k c + 1 = rd + BitVec.ofNat k (c + 1) := by
  rw [BitVec.ofNat_add, ← BitVec.add_assoc]
  rfl

theorem wrPtr_pop (rd : BitVec k) (c : Nat) :
    rd + BitVec.ofNat k (c + 1) = rd + 1 + BitVec.ofNat k c := by
  rw [← wrPtr_push, BitVec.add_assoc, BitVec.add_assoc, BitVec.add_comm 1]

end RingBuffer
