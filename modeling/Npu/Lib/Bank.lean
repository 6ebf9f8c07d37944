import Mathlib.Data.List.Basic

/-!
# Npu.Lib.Bank

Banks of registers, as a generate loop declares them: `gen n f` is the list of
the `n` instances `f 0, ..., f (n - 1)`, and `sel` reads one instance.  A read
outside the loop's range gives the default register.
-/

namespace Bank

/-- The instances of a generate loop over `0, ..., n - 1`. -/
def gen (n : Nat) (f : Nat → α) : List α := (List.range n).map f

/-- Instance `i` of a bank. -/
def sel [Inhabited α] (bank : List α) (i : Nat) : α := bank.getD i default

@[simp] theorem sel_gen [Inhabited α] {n i : Nat} (f : Nat → α) (h : i < n) :
    sel (gen n f) i = f i := by
  simp [sel, gen, List.getD_eq_getElem?_getD, h]

/-- A conjunction over a generated range, as a statement about every index. -/
theorem all_range_iff {n : Nat} {p : Nat → Bool} :
    (List.range n).all p = true ↔ ∀ i, i < n → p i = true := by
  simp [List.all_eq_true]

end Bank
