import Mathlib.Algebra.BigOperators.Group.Finset.Basic
import Npu.RowPipe

/-!
# Npu.RowSums

What the row pipeline computes.  `rowSum n W b x j` is `b j + (x * W) j` in the accumulator
width; `SumsTo` says how much of it a row has collected in each stage, and
`sumsTo_step` that moving adds exactly the next product.
-/

namespace Npu

open Token

/-- The initial sum `b` and the first `k` products of column `j`, as an exact integer
reduced to the accumulator width. -/
def partialSum (W : Nat → Nat → BitVec dw) (b : BitVec aw) (x : Nat → BitVec dw) (j k : Nat) :
    BitVec aw :=
  BitVec.ofInt aw (b.toInt + ∑ i ∈ Finset.range k, (x i).toInt * (W i j).toInt)

/-- `b j + (x * W) j` modulo `2 ^ aw`. -/
def rowSum (n : Nat) (W : Nat → Nat → BitVec dw) (b : Nat → BitVec aw) (x : Nat → BitVec dw)
    (j : Nat) : BitVec aw :=
  partialSum W (b j) x j n

/-- The row `b + x * W` as it leaves an `n`-column core. -/
def outRow (n : Nat) (W : Nat → Nat → BitVec dw) (b : Nat → BitVec aw) (x : Nat → BitVec dw) :
    Fin n → BitVec aw :=
  fun j => rowSum n W b x j

@[simp] theorem partialSum_zero (W : Nat → Nat → BitVec dw) (b : BitVec aw) (x : Nat → BitVec dw)
    (j : Nat) : partialSum W b x j 0 = b := by
  simp [partialSum]

/-- A cell adds the next product. -/
theorem partialSum_succ (W : Nat → Nat → BitVec dw) (b : BitVec aw) (x : Nat → BitVec dw)
    (j k : Nat) :
    partialSum W b x j (k + 1) = partialSum W b x j k + MacPe.multExt aw (x k) (W k j) := by
  rw [partialSum, Finset.sum_range_succ, ← add_assoc, BitVec.ofInt_add, MacPe.multExt_eq_ofInt]
  rfl

/-- A different initial sum gives a different row sum. -/
theorem partialSum_inj {W : Nat → Nat → BitVec dw} {b b' : BitVec aw} {x : Nat → BitVec dw}
    {j k : Nat} : partialSum W b x j k = partialSum W b' x j k ↔ b = b' := by
  unfold partialSum
  rw [BitVec.ofInt_add, BitVec.ofInt_add, BitVec.ofInt_toInt, BitVec.ofInt_toInt]
  exact BitVec.add_left_inj _

/-- On entering stage `s` a row has collected, in each column it has reached, its
initial sum and the products up to row `s - j`. -/
def SumsTo (n : Nat) (W : Nat → Nat → BitVec dw) (s : Nat) : Token dw aw → Prop
  | .act x b y => ∀ j, j < n → j ≤ s → y j = partialSum W (b j) x j (min (s - j + 1) n)
  | .wt _ => True

/-- The row has met the initial sums `b` in each column it has reached. -/
def MetBias (n : Nat) (b₀ : Nat → BitVec aw) (s : Nat) : Token dw aw → Prop
  | .act _ b _ => ∀ j, j < n → j ≤ s → b j = b₀ j
  | .wt _ => True

namespace RowPipe

variable {p : RowPipe n dw aw} {inp : SystolicCore.In dw aw}

/-- Every token inside satisfies `P` at its stage. -/
def Holds (p : RowPipe n dw aw) (P : Nat → Token dw aw → Prop) : Prop := Elastic.Holds P p.stages

theorem Holds.get {P : Nat → Token dw aw → Prop} (h : p.Holds P) {s : Nat} {t : Token dw aw}
    (hs : s < 2 * n - 1) (ht : p.stage s = some t) : P s t :=
  h s t (by rw [p.length_stages]; exact hs) ht

theorem holds_empty (P : Nat → Token dw aw → Prop) (shadow active : Nat → Nat → BitVec dw) :
    (empty n aw shadow active).Holds P :=
  Elastic.holds_replicate_none P _

/-- Entering column `j`'s next cell adds its product. -/
theorem sumsTo_enter {W : Nat → Nat → BitVec dw} {s : Nat} {t : Token dw aw}
    (hW : ∀ i j, i < n → j < n → p.active i j = W i j)
    (hprev : ∀ s', s = s' + 1 → SumsTo n W s' t) : SumsTo n W s (p.enter inp s t) := by
  rcases t with ⟨x, b, y⟩ | x
  · intro j hj hjs
    simp only [hjs, true_and]
    rcases Nat.eq_or_lt_of_le hjs with rfl | hlt
    · -- the top row of the column: the initial sum and the first product
      have hmin : min (j - j + 1) n = 0 + 1 := by omega
      rw [if_pos (by omega), if_pos rfl, if_pos rfl, hmin, partialSum_succ, partialSum_zero,
        Nat.sub_self, hW 0 j (by omega) hj]
    · have hlast := hprev (s - 1) (by omega) j hj (by omega)
      rw [if_neg (by omega : s ≠ j), if_neg (by omega : s ≠ j)]
      rcases Nat.lt_or_ge s (j + n) with hin | hout
      · have hmin : min (s - j + 1) n = min (s - 1 - j + 1) n + 1 := by omega
        have hk : min (s - 1 - j + 1) n = s - j := by omega
        rw [if_pos hin, hmin, partialSum_succ, ← hlast, hk, hW (s - j) j (by omega) hj]
      · -- past the bottom row nothing is added
        have hmin : min (s - j + 1) n = min (s - 1 - j + 1) n := by omega
        rw [if_neg (by omega), hmin, ← hlast]
  · trivial

/-- **Partial sums, one edge**: while the active weights are `W`, rows collect the
products of `W`. -/
theorem sumsTo_step {W : Nat → Nat → BitVec dw}
    (hW : ∀ i j, i < n → j < n → p.active i j = W i j) (h : p.Holds (SumsTo n W)) :
    (p.step inp).Holds (SumsTo n W) := by
  refine Elastic.Holds.advance h (fun t _ => ?_) fun s t _ ht => ?_
  · exact sumsTo_enter hW fun s' hs' => by omega
  · exact sumsTo_enter hW fun s' hs' => by
      obtain rfl : s = s' := by omega
      exact ht

/-- While the top edge shows `b₀`, rows meet `b₀`. -/
theorem metBias_step {b₀ : Nat → BitVec aw} (hb : ∀ j, j < n → inp.yIn j = b₀ j)
    (h : p.Holds (MetBias n b₀)) : (p.step inp).Holds (MetBias n b₀) := by
  have henter : ∀ s t, (∀ s', s = s' + 1 → MetBias n b₀ s' t) →
      MetBias n b₀ s (p.enter inp s t) := by
    rintro s (⟨x, b, y⟩ | x) hprev
    · intro j hj hjs
      rcases Nat.eq_or_lt_of_le hjs with rfl | hlt
      · simp [hb j hj]
      · have hlast := hprev (s - 1) (by omega) j hj (by omega)
        have hne : s ≠ j := by omega
        simpa [hne] using hlast
    · trivial
  refine Elastic.Holds.advance h (fun t _ => ?_) fun s t _ ht => ?_
  · exact henter 0 t fun s' hs' => by omega
  · exact henter (s + 1) t fun s' hs' => by
      obtain rfl : s = s' := by omega
      exact ht

/-- In the last stage a row has collected everything. -/
theorem yOut_eq_rowSum {W : Nat → Nat → BitVec dw} {x : Nat → BitVec dw} {b y : Nat → BitVec aw}
    (h : p.Holds (SumsTo n W)) (hlast : p.stage (2 * n - 2) = some (.act x b y)) {j : Nat}
    (hj : j < n) : p.yOut j = rowSum n W b x j := by
  have hsum := h.get (by omega) hlast j hj (by omega)
  have hmin : min (2 * n - 2 - j + 1) n = n := by omega
  rw [hmin] at hsum
  rw [yOut, hlast]
  exact hsum

end RowPipe

end Npu
