import Npu.ActTraffic

/-!
# Npu.CoreBounds

The accumulators never overflow.  What a cell of row `i` holds is a sum of at most `i + 1`
products, whatever rows, weights and latches it was made from, so the bounds of one product
bound it (`SystolicCore.Bounded`).  As long as `n` products fit the accumulator, the multiply,
its sign extension and the add of every cell are those of the integers (`MacPe.Exact`).
-/

namespace Npu

open Machine

namespace MacPe

/-- Within the bounds of a sum of `k` products. -/
def Within (dw k : Nat) (y : BitVec aw) : Prop :=
  minProduct dw * k ≤ y.toInt ∧ y.toInt ≤ maxProduct dw * k

/-- The arithmetic of a cell in one cycle is that of the integers. -/
structure Exact (p : MacPe dw aw) (i : In dw aw) : Prop where
  mult : (multOut i.xIn p.activeWeightReg).toInt = i.xIn.toInt * p.activeWeightReg.toInt
  ext : (multExt aw i.xIn p.activeWeightReg).toInt = i.xIn.toInt * p.activeWeightReg.toInt
  add : (p.addOut i).toInt = i.yIn.toInt + i.xIn.toInt * p.activeWeightReg.toInt
  fires : p.fireCalc i = true →
    (p.step i).yOut.toInt = i.yIn.toInt + i.xIn.toInt * p.activeWeightReg.toInt

/-! ## the bounds of a product -/

theorem minProduct_nonpos (dw : Nat) : minProduct dw ≤ 0 := by
  have h := (product_bounds (0 : BitVec dw) 0).1
  simpa using h

theorem maxProduct_pos (dw : Nat) : 0 < maxProduct dw := by
  unfold maxProduct
  positivity

theorem neg_maxProduct_le (dw : Nat) : -maxProduct dw ≤ minProduct dw := by
  have hm : (1 : Int) ≤ 2 ^ (dw - 1) := one_le_pow₀ (by norm_num)
  unfold minProduct maxProduct
  nlinarith

theorem within_zero (dw k : Nat) : Within dw k (0 : BitVec aw) := by
  have hmin := minProduct_nonpos dw
  have hmax := (maxProduct_pos dw).le
  have hk : (0 : Int) ≤ k := Int.natCast_nonneg k
  have hzero : (0 : BitVec aw).toInt = 0 := BitVec.toInt_zero
  rw [Within, hzero]
  constructor <;> nlinarith

/-! ## one cell -/

variable {p : MacPe dw aw} {i : In dw aw} {k : Nat}

/-- The sum of one more product is the integer sum, if that many products fit. -/
theorem exact_of_within (hdw : 0 < dw) (haw : dw * 2 ≤ aw)
    (hfit : maxProduct dw * (k + 1) < 2 ^ (aw - 1)) (hin : Within dw k i.yIn) : p.Exact i := by
  have hmult := toInt_multOut i.xIn p.activeWeightReg hdw
  have hext : (multExt aw i.xIn p.activeWeightReg).toInt =
      i.xIn.toInt * p.activeWeightReg.toInt := by
    rw [multExt, BitVec.toInt_signExtend_of_le haw, hmult]
  have hadd : (p.addOut i).toInt = i.yIn.toInt + i.xIn.toInt * p.activeWeightReg.toInt := by
    obtain ⟨hprod₁, hprod₂⟩ := product_bounds i.xIn p.activeWeightReg
    obtain ⟨hin₁, hin₂⟩ := hin
    have hmin := neg_maxProduct_le dw
    have hk : (0 : Int) ≤ k := Int.natCast_nonneg k
    have hpow : (2 : Int) ^ aw = 2 * 2 ^ (aw - 1) := by
      rw [← pow_succ']
      congr 1
      omega
    rw [addOut, BitVec.toInt_add, hext]
    apply Int.bmod_eq_of_le_mul_two
    · push_cast
      nlinarith
    · push_cast
      nlinarith
  refine ⟨hmult, hext, hadd, fun hcalc => ?_⟩
  rw [yOut_step, if_pos hcalc, hadd]

/-- **One edge**: a sum of `k` products above gives one of `k + 1` below. -/
theorem Within.step (hexact : p.Exact i) (hin : Within dw k i.yIn)
    (hout : Within dw (k + 1) p.yOut) : Within dw (k + 1) (p.step i).yOut := by
  by_cases hcalc : p.fireCalc i = true
  · obtain ⟨hprod₁, hprod₂⟩ := product_bounds i.xIn p.activeWeightReg
    obtain ⟨hin₁, hin₂⟩ := hin
    rw [Within, hexact.fires hcalc]
    push_cast
    constructor <;> linarith
  · rw [yOut_step, if_neg hcalc]
    exact hout

end MacPe

namespace SystolicCore

open MacPe

variable {c : SystolicCore n dw aw} {inp : In dw aw}

/-- What a cell of row `i` holds is within the bounds of `i + 1` products. -/
def Bounded (c : SystolicCore n dw aw) : Prop :=
  ∀ i j, i < n → j < n → Within dw (i + 1) (c.pe i j).yOut

theorem bounded_reset (n dw aw : Nat) : (reset n dw aw).Bounded := by
  intro i j hi hj
  rw [pe_reset hi hj]
  exact within_zero dw (i + 1)

/-- What enters a cell of row `i` from above is within the bounds of `i` products. -/
theorem Bounded.yIn (h : c.Bounded) (hshow : inp.Shows n fun _ => 0) {i j : Nat} (hi : i < n)
    (hj : j < n) : Within dw i (c.pins inp i j).yIn := by
  cases i with
  | zero =>
      have htop : (c.pins inp 0 j).yIn = 0 := hshow j hj
      rw [htop]
      exact within_zero dw 0
  | succ i => exact h i j (by omega) hj

/-- In a bounded core all cells compute in the integers. -/
theorem Bounded.exact (h : c.Bounded) (hdw : 0 < dw) (haw : dw * 2 ≤ aw)
    (hfit : maxProduct dw * n < 2 ^ (aw - 1)) (hshow : inp.Shows n fun _ => 0) {i j : Nat}
    (hi : i < n) (hj : j < n) : (c.pe i j).Exact (c.pins inp i j) := by
  have hmax := (maxProduct_pos dw).le
  have hin : ((i : Int) + 1) ≤ n := by omega
  exact exact_of_within hdw haw (by nlinarith) (h.yIn hshow hi hj)

/-- **One edge**, with any traffic. -/
theorem Bounded.step (h : c.Bounded) (hdw : 0 < dw) (haw : dw * 2 ≤ aw)
    (hfit : maxProduct dw * n < 2 ^ (aw - 1)) (hshow : inp.Shows n fun _ => 0) :
    (c.step inp).Bounded := by
  intro i j hi hj
  rw [pe_step c inp hi hj]
  exact (h.yIn hshow hi hj).step (h.exact hdw haw hfit hshow hi hj) (h i j hi hj)

theorem Bounded.run (h : c.Bounded) (hdw : 0 < dw) (haw : dw * 2 ≤ aw)
    (hfit : maxProduct dw * n < 2 ^ (aw - 1)) {is : List (In dw aw)}
    (his : ∀ inp ∈ is, inp.Shows n fun _ => 0) : (run SystolicCore.step c is).Bounded :=
  run_invariant (fun _ _ hc hi => hc.step hdw haw hfit hi) h (always_of_forall_mem his)

/-- **The accumulators never overflow**: with zero sums at the top edge and up to 131071 rows,
after any traffic the accumulator of cell `(i, j)` is between `-16256 * (i + 1)` and
`16384 * (i + 1)`, and in any next cycle its arithmetic is that of the integers. -/
theorem accumulators_never_overflow (hn : n ≤ 131071) (is : List (In 8 32))
    (his : ∀ inp ∈ is, inp.Shows n fun _ => 0) {i j : Nat} (hi : i < n) (hj : j < n) :
    let c := Machine.run step (reset n 8 32) is
    (-16256 * ((i : Int) + 1) ≤ (c.pe i j).yOut.toInt ∧
        (c.pe i j).yOut.toInt ≤ 16384 * ((i : Int) + 1)) ∧
      ∀ inp : In 8 32, inp.Shows n (fun _ => 0) → (c.pe i j).Exact (c.pins inp i j) := by
  intro c
  have hmin : minProduct 8 = -16256 := rfl
  have hmax : maxProduct 8 = 16384 := rfl
  have hfit : maxProduct 8 * n < 2 ^ (32 - 1) := by
    rw [hmax]
    omega
  have hc : c.Bounded := (bounded_reset n 8 32).run (by omega) (by omega) hfit his
  obtain ⟨hlo, hhi⟩ := hc i j hi hj
  rw [hmin] at hlo
  rw [hmax] at hhi
  push_cast at hlo hhi
  exact ⟨⟨hlo, hhi⟩, fun inp hinp => hc.exact (by omega) (by omega) hfit hinp hi hj⟩

/-- Two weights of -128, two rows of -128: the second row of the grid reaches its upper bound. -/
theorem accumulators_never_overflow_extreme :
    let load : In 8 32 := { In.act [-128, -128] [] true with
      loadWeightIn := fun _ => true, weightLatchEn := true }
    let is := [load, load, { load with validIn := false }, .act [-128, -128] [] true,
      .act [-128, -128] [] true]
    let p := (Machine.run step (reset 2 8 32) is).pe 1 0
    p.yOut.toInt = 16384 * ((1 : Int) + 1) ∧
      -16256 * ((1 : Int) + 1) ≤ p.yOut.toInt ∧ p.yOut.toInt ≤ 16384 * ((1 : Int) + 1) := by
  intro load is p
  have his : ∀ inp ∈ is, inp.Shows 2 fun _ => 0 := by
    simp only [is, List.forall_mem_cons]
    refine ⟨?_, ?_, ?_, ?_, ?_, by simp⟩ <;> (unfold In.Shows; decide)
  exact ⟨by decide, (accumulators_never_overflow (by decide) is his (by decide) (by decide)).1⟩

end SystolicCore

end Npu
