import Mathlib.Order.Lattice
import Mathlib.Order.MinMax
import Mathlib.Algebra.Order.Group.Nat
import Mathlib.Data.List.Basic

/-!
# Npu.Lib.Server

A server that takes its jobs in order, `m` cycles for each.  A job starts as soon as it is there
and the one before it is through: `starts m free as` are the cycles in which the jobs start that
are there in the cycles `as`, when the server is free from cycle `free` on.

Seen a cycle later all of this is a cycle earlier (`starts_map_succ`), but for jobs that are there
already (`starts_waiting`); and when behind a long queue, it does not count at all when a job comes
(`starts_congr`).
-/

namespace Server

/-- When the jobs start that are there in the cycles `as`. -/
def starts (m : Nat) : (free : Nat) → (as : List Nat) → List Nat
  | _, [] => []
  | free, a :: as => max a free :: starts m (max a free + m) as

/-- The cycles of a job that starts in cycle `d`. -/
def service (m d : Nat) : List Nat := (List.range m).map (d + ·)

@[simp] theorem starts_nil (m free : Nat) : starts m free [] = [] := rfl

@[simp] theorem starts_cons (m free a : Nat) (as : List Nat) :
    starts m free (a :: as) = max a free :: starts m (max a free + m) as := rfl

theorem starts_map_succ (m free : Nat) (as : List Nat) :
    starts m (free + 1) (as.map (· + 1)) = (starts m free as).map (· + 1) := by
  induction as generalizing free with
  | nil => rfl
  | cons a as ih =>
      have hmax : max (a + 1) (free + 1) = max a free + 1 := by omega
      have hnext : max a free + 1 + m = max a free + m + 1 := by omega
      simp [hmax, hnext, ih]

/-- A server that is free stays free. -/
theorem starts_zero_map_succ (m : Nat) (as : List Nat) :
    starts m 0 (as.map (· + 1)) = (starts m 0 as).map (· + 1) := by
  cases as with
  | nil => rfl
  | cons a as =>
      have hnext : a + 1 + m = a + m + 1 := by omega
      simp [hnext, starts_map_succ]

/-- Behind a busy server it does not count that jobs are there already. -/
theorem starts_waiting {m free : Nat} (hfree : 0 < free) (k : Nat) (as : List Nat) :
    starts m (free + 1) (List.replicate k 1 ++ as.map (· + 1)) =
      (starts m free (List.replicate k 1 ++ as)).map (· + 1) := by
  induction k generalizing free with
  | zero => exact starts_map_succ m free as
  | succ k ih =>
      have hmax : max 1 free = free := by omega
      have hnext : free + 1 + m = free + m + 1 := by omega
      simp [List.replicate_succ, hmax, hnext, ih (Nat.add_pos_left hfree m)]

/-- Jobs that start a cycle later. -/
theorem flatMap_service_succ (m : Nat) (ds : List Nat) :
    (ds.map (· + 1)).flatMap (service m) = (ds.flatMap (service m)).map (· + 1) := by
  have hone (d : Nat) : service m (d + 1) = (service m d).map (· + 1) := by
    simp [service, Nat.add_right_comm]
  rw [List.flatMap_map, List.map_flatMap]
  exact congrArg (ds.flatMap ·) (funext hone)

/-- While the server is busy it does not count when a job comes. -/
theorem starts_of_le {m free : Nat} {as bs : List Nat} (cs : List Nat) (hlen : as.length = bs.length)
    (has : ∀ a ∈ as, a ≤ free) (hbs : ∀ b ∈ bs, b ≤ free) :
    starts m free (as ++ cs) = starts m free (bs ++ cs) := by
  induction as generalizing free bs with
  | nil => rw [List.eq_nil_of_length_eq_zero hlen.symm]
  | cons a as ih =>
      obtain ⟨b, bs, rfl⟩ := List.exists_cons_of_length_eq_add_one hlen.symm
      have ha : max a free = free := max_eq_right (has a List.mem_cons_self)
      have hb : max b free = free := max_eq_right (hbs b List.mem_cons_self)
      have hrest := @ih (free + m) bs (Nat.succ.inj hlen)
        (fun c hc => (has c (List.mem_cons_of_mem a hc)).trans (Nat.le_add_right _ _))
        (fun c hc => (hbs c (List.mem_cons_of_mem b hc)).trans (Nat.le_add_right _ _))
      simp [ha, hb, hrest]

/-- Behind `xs.length` jobs it does not count when a job comes in the `m` cycles of each. -/
theorem starts_congr {m free : Nat} (xs : List Nat) {as bs : List Nat} (cs : List Nat)
    (hlen : as.length = bs.length) (has : ∀ a ∈ as, a ≤ free + m * xs.length)
    (hbs : ∀ b ∈ bs, b ≤ free + m * xs.length) :
    starts m free (xs ++ (as ++ cs)) = starts m free (xs ++ (bs ++ cs)) := by
  induction xs generalizing free with
  | nil => exact starts_of_le cs hlen has hbs
  | cons x xs ih =>
      have hle : free + m * (x :: xs).length ≤ max x free + m + m * xs.length := by
        rw [List.length_cons, Nat.mul_succ]
        omega
      simp [ih (fun a ha => (has a ha).trans hle) fun b hb => (hbs b hb).trans hle]

/-! ## without a gap -/

/-- `k` jobs one right behind the other, from `g` on. -/
def steps (m g : Nat) : Nat → List Nat
  | 0 => []
  | k + 1 => g :: steps m (g + m) k

@[simp] theorem length_steps (m g k : Nat) : (steps m g k).length = k := by
  induction k generalizing g with
  | zero => rfl
  | succ k ih => simp [steps, ih]

theorem length_starts (m free : Nat) (as : List Nat) : (starts m free as).length = as.length := by
  induction as generalizing free with
  | nil => rfl
  | cons a as ih => simp [ih]

theorem steps_map_succ (m g k : Nat) : (steps m g k).map (· + 1) = steps m (g + 1) k := by
  induction k generalizing g with
  | zero => rfl
  | succ k ih => simp [steps, ih, Nat.add_right_comm]

/-- A job that is there in time leaves no gap. -/
theorem starts_concat {m free g a : Nat} {as : List Nat} (hfree : free = g ∨ as ≠ [])
    (h : starts m free as = steps m g as.length) (ha : a ≤ g + m * as.length) :
    starts m free (as ++ [a]) = steps m g (as.length + 1) := by
  induction as generalizing free g with
  | nil =>
      obtain rfl : free = g := hfree.resolve_right fun hne => hne rfl
      have hmax : max a free = free := max_eq_right ha
      simp [steps, hmax]
  | cons b as ih =>
      rw [starts_cons, List.length_cons, steps, List.cons.injEq] at h
      obtain ⟨hfirst, hrest⟩ := h
      rw [hfirst] at hrest
      rw [List.length_cons, Nat.mul_succ] at ha
      rw [List.cons_append, starts_cons, hfirst, ih (.inl rfl) hrest (by omega)]
      rfl

end Server
