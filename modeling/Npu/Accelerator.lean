import Npu.Lib.Machine

/-!
# Npu.Accelerator

What the unit is for, as a machine of its own: a weight-stationary accelerator that takes
commands.  `column` shifts a column in behind those loaded before, `latch` makes the last `n`
columns the matrix, `row` is answered with `mul matrix row`.

The columns of a matrix, from the last to the first, and a latch leave that matrix, whatever was
loaded before (`matrix_load`).

Entries and answers are of any type.
-/

namespace Npu

open Machine

/-- What the accelerator takes. -/
inductive Command (n : Nat) (α : Type*) where
  | column (x : Fin n → α)
  | latch
  | row (x : Fin n → α)

/-- The columns loaded so far, the newest first, and the matrix in use. -/
structure Accelerator (n : Nat) (α : Type*) where
  columns : List (Fin n → α)
  matrix : Fin n → Fin n → α

namespace Accelerator

variable {n : Nat} {α β : Type*} [Zero α]

def init : Accelerator n α where
  columns := []
  matrix _ _ := 0

/-- The matrix a latch would copy: column `j` is the `j`-th last column loaded. -/
def loaded (a : Accelerator n α) (i j : Fin n) : α := a.columns.getD j (fun _ => 0) i

def step (a : Accelerator n α) : Command n α → Accelerator n α
  | .column x => { a with columns := x :: a.columns }
  | .latch => { a with matrix := a.loaded }
  | .row _ => a

/-- The answer to a command. -/
def answers (mul : (Fin n → Fin n → α) → (Fin n → α) → β) (a : Accelerator n α) :
    Command n α → List β
  | .row x => [mul a.matrix x]
  | _ => []

/-- The commands that load `W`: its columns from the last to the first, and the latch. -/
def load (W : Fin n → Fin n → α) : List (Command n α) :=
  ((List.finRange n).map fun t => .column fun i => W i t.rev) ++ [.latch]

theorem columns_run (a : Accelerator n α) (xs : List (Fin n → α)) :
    run step a (xs.map .column) = { a with columns := xs.reverse ++ a.columns } := by
  induction xs generalizing a with
  | nil => rfl
  | cons x xs ih =>
      rw [List.map_cons, run_cons, ih, List.reverse_cons, List.append_assoc]
      rfl

/-- **Loading** leaves the matrix, whatever was loaded before. -/
theorem matrix_load (a : Accelerator n α) (W : Fin n → Fin n → α) :
    (run step a (load W)).matrix = W := by
  have hcolumns : (List.finRange n).map (fun t => Command.column fun i => W i t.rev) =
      ((List.finRange n).map fun t i => W i t.rev).map .column := by
    rw [List.map_map]
    rfl
  funext i j
  obtain ⟨xs, hxs⟩ : ∃ xs, xs = (List.finRange n).map fun t i => W i t.rev := ⟨_, rfl⟩
  have hlen : xs.length = n := by simp [hxs]
  have hlast : n - 1 - j.val < xs.length := by omega
  have hget : xs[n - 1 - j.val] = fun i => W i j := by
    have hcol : (⟨n - 1 - j.val, by omega⟩ : Fin n).rev = j := by
      ext
      simp only [Fin.val_rev]
      omega
    simp only [hxs, List.getElem_map, List.getElem_finRange, Fin.cast_mk, hcol]
  have hnewest : (xs.reverse ++ a.columns).getD j (fun _ => 0) = fun i => W i j := by
    rw [List.getD_eq_getElem?_getD,
      List.getElem?_append_left (by rw [List.length_reverse, hlen]; exact j.isLt),
      List.getElem?_reverse (by omega), hlen, List.getElem?_eq_getElem hlast, hget,
      Option.getD_some]
  rw [load, run_append, hcolumns, ← hxs, columns_run]
  exact congrFun hnewest i

end Accelerator

end Npu
