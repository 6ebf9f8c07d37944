import Mathlib.Data.BitVec

/-!
# Npu.Lib.Lanes

Wide buses made of lanes of equal width, lane 0 in the lowest bits: `lane` reads a
lane, `pack` builds a bus from its lanes, `pair_eq` joins two neighbouring lanes, and
`eq_of_lane_eq` compares buses lane by lane.
-/

namespace Lanes

/-- Lane `i` of a bus with lanes of width `w`. -/
def lane (w : Nat) (bus : BitVec m) (i : Nat) : BitVec w := bus.extractLsb' (i * w) w

/-- The bus with the `n` lanes `y 0, ..., y (n - 1)`. -/
def pack : (n : Nat) → (y : Nat → BitVec w) → BitVec (n * w)
  | 0, _ => (0 : BitVec 0).cast (Nat.zero_mul w).symm
  | n + 1, y => (y n ++ pack n y).cast (by rw [Nat.succ_mul, Nat.add_comm])

theorem lane_cast (h : m = m') (bus : BitVec m) (i : Nat) :
    lane w (bus.cast h) i = lane w bus i := by
  subst h
  rfl

/-- Reading a packed lane back. -/
theorem lane_pack (y : Nat → BitVec w) {i : Nat} (hi : i < n) : lane w (pack n y) i = y i := by
  induction n with
  | zero => omega
  | succ n ih =>
      rw [pack, lane_cast, lane]
      by_cases h : i = n
      · rw [BitVec.extractLsb'_append_of_eq h, h]
      · have hlt : i < n := by omega
        rw [BitVec.extractLsb'_append_of_lt hlt]
        exact ih hlt

theorem pack_congr {y y' : Nat → BitVec w} (h : ∀ i, i < n → y i = y' i) :
    pack n y = pack n y' := by
  induction n with
  | zero => rfl
  | succ n ih => rw [pack, pack, h n (by omega), ih fun i hi => h i (by omega)]

/-- Two neighbouring lanes, read as one. -/
theorem pair_eq (w : Nat) (bus : BitVec m) (f : Nat) :
    bus.extractLsb' (2 * f * w) (w + w) = lane w bus (2 * f + 1) ++ lane w bus (2 * f) := by
  have hstart : (2 * f + 1) * w = 2 * f * w + w := by rw [Nat.add_mul, Nat.one_mul]
  rw [lane, lane, BitVec.extractLsb'_append_extractLsb'_eq_extractLsb' hstart]

theorem getLsbD_lane (bus : BitVec m) (i b : Nat) :
    (lane w bus i).getLsbD b = (decide (b < w) && bus.getLsbD (i * w + b)) := by
  rw [lane, BitVec.getLsbD_extractLsb']

/-- A bus is its lanes. -/
theorem eq_of_lane_eq {x y : BitVec (n * w)} (h : ∀ i, i < n → lane w x i = lane w y i) : x = y := by
  refine BitVec.eq_of_getLsbD_eq fun k hk => ?_
  have hw : 0 < w := Nat.pos_of_ne_zero fun h0 => by simp [h0] at hk
  have hi : k / w < n := Nat.div_lt_of_lt_mul (by rwa [Nat.mul_comm])
  have hb : k % w < w := Nat.mod_lt _ hw
  have hk' : k / w * w + k % w = k := Nat.div_add_mod' k w
  have hread : ∀ z : BitVec (n * w), (lane w z (k / w)).getLsbD (k % w) = z.getLsbD k := by
    intro z
    rw [getLsbD_lane, hk', decide_eq_true hb, Bool.true_and]
  rw [← hread x, ← hread y, h _ hi]

theorem lane_append_lo (hi : BitVec m) (lo : BitVec k) {i : Nat} (h : (i + 1) * w ≤ k) :
    lane w (hi ++ lo) i = lane w lo i := by
  refine BitVec.eq_of_getLsbD_eq fun b hb => ?_
  have hlt : i * w + b < k := by rw [Nat.succ_mul] at h; omega
  rw [getLsbD_lane, getLsbD_lane, BitVec.getLsbD_append, if_pos hlt]

theorem lane_append_hi (hi : BitVec m) (lo : BitVec (k * w)) (i : Nat) :
    lane w (hi ++ lo) (k + i) = lane w hi i := by
  refine BitVec.eq_of_getLsbD_eq fun b hb => ?_
  have hge : ¬ (k + i) * w + b < k * w := by rw [Nat.add_mul]; omega
  have hsub : (k + i) * w + b - k * w = i * w + b := by rw [Nat.add_mul]; omega
  rw [getLsbD_lane, getLsbD_lane, BitVec.getLsbD_append, if_neg hge, hsub]

end Lanes
