import Mathlib.Data.List.Basic

/-!
# Npu.Lib.History

Histories: what the inputs of a machine so far say about its state.

`latest f is` is what the last input says that says something, `latestBefore f is` what the last
history says that some input of `is` found.  A history grows at its end, so both come with a
recursion on the last input (`latest_concat`, `latestBefore_concat`).
-/

namespace History

variable {α β : Type*}

/-- What the latest input says, of those that say something. -/
def latest (f : α → Option β) (is : List α) : Option β := is.reverse.findSome? f

/-- The history that each input finds. -/
def befores (is : List α) : List (List α) := (List.range is.length).map is.take

/-- What the latest history says that an input found. -/
def latestBefore (f : List α → Option β) (is : List α) : Option β := latest f (befores is)

@[simp] theorem latest_nil (f : α → Option β) : latest f [] = none := rfl

@[simp] theorem latest_concat (f : α → Option β) (is : List α) (i : α) :
    latest f (is ++ [i]) = (f i).or (latest f is) := by
  cases h : f i <;> simp [latest, h]

theorem befores_concat (is : List α) (i : α) : befores (is ++ [i]) = befores is ++ [is] := by
  have htake : ∀ k ∈ List.range is.length, (is ++ [i]).take k = is.take k := by
    intro k hk
    rw [List.mem_range] at hk
    exact List.take_append_of_le_length (Nat.le_of_lt hk)
  rw [befores, List.length_append, List.length_singleton, List.range_succ, List.map_append,
    List.map_congr_left htake]
  simp [befores]

@[simp] theorem latestBefore_nil (f : List α → Option β) : latestBefore f [] = none := rfl

@[simp] theorem latestBefore_concat (f : List α → Option β) (is : List α) (i : α) :
    latestBefore f (is ++ [i]) = (f is).or (latestBefore f is) := by
  rw [latestBefore, befores_concat, latest_concat]
  rfl

end History
