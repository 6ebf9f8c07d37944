import Npu.CoreRows

/-!
# Npu.Weights

Weight loading.  A weight beat walks through all stages and swaps each of its lanes with
the shadow weight of every cell it meets, so each row of cells is a shift chain: `Chained`
says where in the history of accepted weight beats every shadow weight and every lane in
flight stands, and `Chained.step` that one edge keeps this.

The chain works as long as weight beats never wait (`Flows`).  When they are presented only to a
core that holds no activation row, nothing ahead of one can block it (`Ordered.flows`).
-/

namespace Npu

open Token Machine

/-- Lane `i` of the `k`-th most recent weight beat, with the newest first in `history`. -/
def nthBeat (history : List (Nat → BitVec dw)) (k i : Nat) : BitVec dw :=
  history.getD k (fun _ => 0) i

/-- The beats that load `W` into an `n`-row core, the last column first: lane `i` of beat `t`
is `W i (n - 1 - t)`. -/
structure LoadsMatrix (n : Nat) (W : Nat → Nat → BitVec dw) (beats : List (Nat → BitVec dw)) :
    Prop where
  length_eq : beats.length = n
  lane_eq : ∀ t, t < n → ∀ i, i < n → beats.getD t (fun _ => 0) i = W i (n - 1 - t)

theorem nthBeat_append (beats history : List (Nat → BitVec dw)) (k i : Nat) :
    nthBeat (beats ++ history) (beats.length + k) i = nthBeat history k i := by
  rw [nthBeat, List.getD_append_right _ _ _ _ (Nat.le_add_right _ _), Nat.add_sub_cancel_left,
    nthBeat]

/-- After the beats of `W` the `j`-th most recent one is column `j`. -/
theorem LoadsMatrix.nthBeat_eq {W : Nat → Nat → BitVec dw} {beats : List (Nat → BitVec dw)}
    (h : LoadsMatrix n W beats) (old : List (Nat → BitVec dw)) {i j : Nat} (hi : i < n)
    (hj : j < n) : nthBeat (old ++ beats).reverse j i = W i j := by
  have hlen := h.length_eq
  have hcol : n - 1 - (n - 1 - j) = j := by omega
  have hget : (old ++ beats).reverse.getD j (fun _ => 0) = beats.getD (n - 1 - j) fun _ => 0 := by
    rw [List.reverse_append, List.getD_eq_getElem?_getD, List.getD_eq_getElem?_getD,
      List.getElem?_append_left (by simpa [hlen] using hj), List.getElem?_reverse (by omega), hlen]
  rw [nthBeat, hget, h.lane_eq _ (by omega) i hi, hcol]

namespace RowPipe

variable {p : RowPipe n dw aw} {inp : SystolicCore.In dw aw}

/-- No activation row is ahead of a weight beat. -/
def Ordered (p : RowPipe n dw aw) : Prop :=
  ∀ s t, s < t → t < 2 * n - 1 → isWt (p.stage s) = true → isAct (p.stage t) = false

/-- A weight beat is presented only while no activation row is inside. -/
def WeightsApart (p : RowPipe n dw aw) (inp : SystolicCore.In dw aw) : Prop :=
  isWt (beat inp) = true → ¬ p.HoldsRow

/-- The weight beats in the stages before `s`. -/
def wtsBefore (p : RowPipe n dw aw) : Nat → Nat
  | 0 => 0
  | s + 1 => p.wtsBefore s + (isWt (p.stage s)).toNat

/-- Every weight beat inside finds the next stage free. -/
def Flows (p : RowPipe n dw aw) (inp : SystolicCore.In dw aw) : Prop :=
  ∀ s, s < 2 * n - 1 → isWt (p.stage s) = true → p.freeAt inp (s + 1) = true

/-- Where the weights stand in the history of accepted beats: the shadow weight of cell
`(i, j)` comes from the `j`-th last beat that has entered stage `i + j`, and a beat carries in
lane `i` what the cells of row `i` have given it. -/
structure Chained (history : List (Nat → BitVec dw)) (p : RowPipe n dw aw) : Prop where
  shadow : ∀ i j, i < n → j < n → p.shadow i j = nthBeat history (p.wtsBefore (i + j) + j) i
  lane : ∀ s x i, s < 2 * n - 1 → p.stage s = some (.wt x) → i < n → s < i + n →
    x i = nthBeat history (p.wtsBefore s + (s + 1 - i)) i

/-- `Chained`, and no row is ahead of a weight beat. -/
structure Loaded (history : List (Nat → BitVec dw)) (p : RowPipe n dw aw) : Prop
    extends p.Chained history where
  ordered : p.Ordered

/-! ## weight beats never wait -/

/-- Nothing is held up behind a last stage without a row. -/
theorem freeAt_of_not_isAct (h : isAct (p.stage (2 * n - 2)) = false) {s : Nat}
    (hs : s ≤ 2 * n - 1) : p.freeAt inp s = true := by
  refine p.freeAt_of_le inp hs le_rfl ?_
  rw [freeAt_last, out, h]
  rfl

/-- With no row ahead of them, weight beats move on. -/
theorem Ordered.flows (ho : p.Ordered) : p.Flows inp := by
  intro s hs hwt
  refine freeAt_of_not_isAct ?_ (by omega)
  rcases Nat.lt_or_ge s (2 * n - 2) with hlt | hge
  · exact ho s (2 * n - 2) hlt (by omega) hwt
  · obtain rfl : s = 2 * n - 2 := by omega
    obtain ⟨x, hx⟩ := isWt_iff.mp hwt
    rw [hx, isAct_wt]

theorem not_overruns_of_apart (ho : p.Ordered) (ha : p.WeightsApart inp) : ¬ p.Overruns inp := by
  rintro ⟨s, -, hs, hover⟩
  simp only [overrunAt, Bool.and_eq_true] at hover
  cases s with
  | zero => exact ha hover.2 ⟨0, hs, hover.1.1⟩
  | succ s =>
      rw [ho s (s + 1) (by omega) hs hover.2] at hover
      exact Bool.false_ne_true hover.1.1

/-- After the edge a stage holds a weight beat iff it has taken one. -/
theorem isWt_stage_step_of_flows (hf : p.Flows inp) {s : Nat} (hs : s < 2 * n - 1) :
    isWt ((p.step inp).stage s) = (p.freeAt inp s && isWt (p.incoming inp s)) := by
  rw [isWt_stage_step p inp hs]
  cases hfree : p.freeAt inp s with
  | true => rw [if_pos rfl, Bool.true_and]
  | false =>
      rw [if_neg Bool.false_ne_true, Bool.false_and]
      by_contra hwt
      have hnext := hf s hs (by simpa using hwt)
      rw [p.freeAt_of_le inp (Nat.le_succ s) (by omega) hnext] at hfree
      cases hfree

theorem isWt_stage_succ_of_flows (hf : p.Flows inp) {s : Nat} (hs : s + 1 < 2 * n - 1) :
    isWt ((p.step inp).stage (s + 1)) = isWt (p.stage s) := by
  rw [isWt_stage_step_of_flows hf hs, incoming_succ]
  cases hwt : isWt (p.stage s) with
  | false => exact Bool.and_false _
  | true => rw [hf s (by omega) hwt, Bool.true_and]

theorem ordered_step (ho : p.Ordered) (ha : p.WeightsApart inp) : (p.step inp).Ordered := by
  intro s t hst ht hwt
  rw [isWt_stage_step_of_flows ho.flows (by omega), Bool.and_eq_true] at hwt
  -- no row stands in or before stage `t`
  have hnone : isAct (p.stage t) = false ∧ isAct (p.incoming inp t) = false := by
    obtain ⟨t, rfl⟩ : ∃ u, t = u + 1 := ⟨t - 1, by omega⟩
    rw [incoming_succ]
    cases s with
    | zero =>
        have hrows : ∀ u, u < 2 * n - 1 → isAct (p.stage u) = false := by
          intro u hu
          by_contra hact
          exact ha hwt.2 ⟨u, hu, by simpa using hact⟩
        exact ⟨hrows _ ht, hrows _ (by omega)⟩
    | succ s => exact ⟨ho s _ (by omega) ht hwt.2, ho s _ (by omega) (by omega) hwt.2⟩
  rw [isAct_stage_step p inp ht, hnone.1, hnone.2, ite_self]

/-! ## the shift chain -/

theorem beat_of_isWt (h : isWt (beat inp) = true) :
    beat inp = some (.wt inp.xIn) ∧ inp.validIn = true ∧ inp.loadWeightIn 0 = true := by
  rw [beat] at h ⊢
  cases hv : inp.validIn <;> cases hl : inp.loadWeightIn 0 <;> simp_all

theorem isWt_beat : isWt (beat inp : Option (Token dw aw)) = (inp.validIn && inp.loadWeightIn 0) := by
  rw [beat]
  cases inp.validIn <;> cases inp.loadWeightIn 0 <;> rfl

/-- The accepted weight beat is the one that the first stage takes. -/
theorem acceptedWeight_eq (p : RowPipe n dw aw) (inp : SystolicCore.In dw aw) :
    p.acceptedWeight inp =
      if p.freeAt inp 0 && isWt (beat inp : Option (Token dw aw)) then [inp.xIn] else [] := by
  rw [acceptedWeight, isWt_beat]
  cases p.freeAt inp 0 <;> cases inp.validIn <;> cases inp.loadWeightIn 0 <;> rfl

theorem acceptedWeight_eq_nil (h : (p.freeAt inp 0 && isWt (p.incoming inp 0)) = false) :
    p.acceptedWeight inp = [] := by
  rw [acceptedWeight_eq]
  exact if_neg (by rw [← incoming_zero p inp, h]; exact Bool.false_ne_true)

/-- To a core without rows the input end is open. -/
theorem freeAt_zero_of_apart (ha : p.WeightsApart inp) (hn : 0 < n)
    (hwt : isWt (beat inp : Option (Token dw aw)) = true) : p.freeAt inp 0 = true := by
  refine freeAt_of_not_isAct ?_ (Nat.zero_le _)
  by_contra hact
  exact ha hwt ⟨2 * n - 2, by omega, by simpa using hact⟩

theorem loads_of_wt {i s : Nat} {x : Nat → BitVec dw} (hf : p.freeAt inp s = true)
    (hin : p.incoming inp s = some (.wt x)) : p.loads inp i s = some (x i) := by
  rw [loads, hf, hin]

theorem loads_of_held {i s : Nat} (hf : p.freeAt inp s = false) : p.loads inp i s = none := by
  rw [loads, hf]

theorem loads_of_not_wt {i s : Nat} (hin : isWt (p.incoming inp s) = false) :
    p.loads inp i s = none := by
  rw [loads]
  rcases hst : p.incoming inp s with _ | ⟨x, b, y⟩ | x
  · cases p.freeAt inp s <;> rfl
  · cases p.freeAt inp s <;> rfl
  · rw [hst] at hin
    cases hin

theorem wtsBefore_eq_zero {s : Nat} (h : ∀ t, t < s → isWt (p.stage t) = false) :
    p.wtsBefore s = 0 := by
  induction s with
  | zero => rfl
  | succ s ih =>
      rw [wtsBefore, ih fun t ht => h t (by omega), h s (by omega)]
      rfl

/-- The beats before a stage are the one accepted and those that stood before the stage
behind it. -/
theorem wtsBefore_step (hf : p.Flows inp) {s : Nat} (hs : s < 2 * n - 1) :
    (p.step inp).wtsBefore (s + 1) = (p.acceptedWeight inp).length + p.wtsBefore s := by
  induction s with
  | zero =>
      rw [wtsBefore, wtsBefore, wtsBefore, isWt_stage_step_of_flows hf hs, incoming_zero,
        acceptedWeight_eq]
      cases p.freeAt inp 0 && isWt (beat inp : Option (Token dw aw)) <;> rfl
  | succ s ih =>
      rw [wtsBefore, ih (by omega), wtsBefore, isWt_stage_succ_of_flows hf hs, Nat.add_assoc]

/-- The first cell keeps the last beat accepted. -/
theorem Chained.first_step {history : List (Nat → BitVec dw)} (h : p.Chained history) (hn : 0 < n) :
    (p.step inp).shadow 0 0 = nthBeat (p.acceptedWeight inp ++ history) 0 0 := by
  have hold : p.shadow 0 0 = nthBeat history 0 0 := h.shadow 0 0 hn hn
  have hshadow : (p.step inp).shadow 0 0 = (p.loads inp 0 0).getD (p.shadow 0 0) := rfl
  rw [hshadow, hold]
  cases htakes : p.freeAt inp 0 && isWt (p.incoming inp 0) with
  | true =>
      rw [incoming_zero, Bool.and_eq_true] at htakes
      obtain ⟨hfree, hwt⟩ := htakes
      rw [acceptedWeight_eq, hfree, hwt, loads_of_wt hfree (beat_of_isWt hwt).1]
      rfl
  | false =>
      have hloads : p.loads inp 0 0 = none := by
        rcases Bool.and_eq_false_iff.mp htakes with hheld | hnone
        · exact loads_of_held hheld
        · exact loads_of_not_wt hnone
      rw [hloads, acceptedWeight_eq_nil htakes]
      rfl

/-- **The shift chain, one edge**: each weight beat swaps with the cells of the next stage. -/
theorem Chained.step {history : List (Nat → BitVec dw)} (h : p.Chained history)
    (hf : p.Flows inp) : (p.step inp).Chained (p.acceptedWeight inp ++ history) where
  shadow i j hi hj := by
    rcases hs : i + j with _ | s
    · obtain ⟨rfl, rfl⟩ : i = 0 ∧ j = 0 := by omega
      exact h.first_step hi
    · have hshadow : (p.step inp).shadow i j = (p.loads inp i (s + 1)).getD (p.shadow i j) := by
        rw [← hs]
        rfl
      rw [hshadow, wtsBefore_step hf (by omega), Nat.add_assoc, nthBeat_append]
      cases hwt : isWt (p.stage s) with
      | false =>
          -- the cell keeps its weight, the beats that follow it have moved on
          rw [loads_of_not_wt (by rw [incoming_succ]; exact hwt), Option.getD_none,
            h.shadow i j hi hj, hs, wtsBefore, hwt, Bool.toNat_false, Nat.add_zero]
      | true =>
          obtain ⟨x, hx⟩ := isWt_iff.mp hwt
          have hj' : s + 1 - i = j := by omega
          rw [loads_of_wt (hf s (by omega) hwt) hx, Option.getD_some,
            h.lane s x i (by omega) hx hi (by omega), hj']
  lane s x i hs hx hi hsi := by
    have htakes : isWt ((p.step inp).stage s) = true := by rw [hx]; rfl
    rw [isWt_stage_step_of_flows hf hs, Bool.and_eq_true] at htakes
    obtain ⟨hfree, hwt⟩ := htakes
    obtain ⟨x₀, ht⟩ := isWt_iff.mp hwt
    rw [stage_step p inp hs, hfree, if_pos rfl, ht, Option.map_some, Option.some.injEq, enter,
      Token.wt.injEq] at hx
    have hlane : x i = if i ≤ s ∧ s < i + n then p.shadow i (s - i) else x₀ i :=
      (congrFun hx i).symm
    rw [hlane]
    cases s with
    | zero =>
        rw [incoming_zero] at ht hwt
        have haccepted : p.acceptedWeight inp = [x₀] := by
          rw [(beat_of_isWt hwt).1, Option.some.injEq, Token.wt.injEq] at ht
          rw [acceptedWeight_eq, hfree, hwt, ← ht]
          rfl
        rw [haccepted]
        rcases Nat.eq_zero_or_pos i with rfl | hpos
        · -- lane 0 has swapped with the first cell
          rw [if_pos ⟨le_rfl, hsi⟩]
          exact h.shadow 0 0 hi hi
        · have hnone : 0 + 1 - i = 0 := by omega
          rw [if_neg (by omega), hnone]
          rfl
    | succ s =>
        rw [incoming_succ] at ht hwt
        rw [wtsBefore_step hf (by omega), Nat.add_assoc, nthBeat_append]
        rcases Nat.lt_or_ge (s + 1) i with hlt | hge
        · -- row `i` is still ahead
          have hs' : s + 1 + 1 - i = s + 1 - i := by omega
          rw [if_neg (by omega), h.lane s x₀ i (by omega) ht hi (by omega), hs']
        · have hcell : i + (s + 1 - i) = s + 1 := by omega
          have hk : p.wtsBefore s + 1 + (s + 1 - i) = p.wtsBefore s + (s + 1 + 1 - i) := by omega
          rw [if_pos ⟨hge, hsi⟩, h.shadow i (s + 1 - i) hi (by omega), hcell, wtsBefore, hwt,
            Bool.toNat_true, hk]

theorem loaded_step {history : List (Nat → BitVec dw)} (h : p.Loaded history)
    (ha : p.WeightsApart inp) : (p.step inp).Loaded (p.acceptedWeight inp ++ history) where
  toChained := h.toChained.step h.ordered.flows
  ordered := ordered_step h.ordered ha

/-! ## along a run -/

theorem loaded_empty (active : Nat → Nat → BitVec dw) :
    (empty n aw (fun _ _ => 0) active).Loaded [] where
  ordered s t _ _ hwt := by
    rw [stage_empty] at hwt
    cases hwt
  shadow _ _ _ _ := rfl
  lane s x i _ hx _ _ := by
    rw [stage_empty] at hx
    cases hx

theorem always_flows (ho : p.Ordered) {is : List (SystolicCore.In dw aw)}
    (his : Always RowPipe.step WeightsApart p is) : Always RowPipe.step Flows p is :=
  always_of_invariant (fun _ _ => ordered_step) (fun _ _ ho _ => ho.flows) ho his

/-- **The shift chain along a run.** -/
theorem Chained.run {history : List (Nat → BitVec dw)} (h : p.Chained history)
    {is : List (SystolicCore.In dw aw)} (his : Always RowPipe.step Flows p is) :
    (Machine.run RowPipe.step p is).Chained
      ((emits RowPipe.step acceptedWeight p is).reverse ++ history) := by
  induction is generalizing p history with
  | nil => exact h
  | cons i is ih =>
      have hone : (p.acceptedWeight i).reverse = p.acceptedWeight i := by
        rw [acceptedWeight]
        split <;> rfl
      have htl := ih (h.step his.1) his.2
      rw [← List.append_assoc] at htl
      rw [emits_cons, List.reverse_append, hone]
      exact htl

theorem Loaded.run {history : List (Nat → BitVec dw)} (h : p.Loaded history)
    {is : List (SystolicCore.In dw aw)} (his : Always RowPipe.step WeightsApart p is) :
    (Machine.run RowPipe.step p is).Loaded
      ((emits RowPipe.step acceptedWeight p is).reverse ++ history) where
  toChained := h.toChained.run (always_flows h.ordered his)
  ordered := run_invariant (fun _ _ => ordered_step) h.ordered his

/-- The last `d` cycles accepted no weight beat: those inside stand in stage `d` or later. -/
def QuietFor (d : Nat) (p : RowPipe n dw aw) : Prop :=
  ∀ s, s < d → s < 2 * n - 1 → isWt (p.stage s) = false

theorem QuietFor.step {d : Nat} (h : p.QuietFor d) (hf : p.Flows inp)
    (hq : p.acceptedWeight inp = []) : (p.step inp).QuietFor (d + 1) := by
  intro s hsd hs
  cases s with
  | zero =>
      rw [isWt_stage_step_of_flows hf hs]
      by_contra htakes
      rw [acceptedWeight_eq, ← incoming_zero p inp, if_pos (by simpa using htakes)] at hq
      cases hq
  | succ s =>
      rw [isWt_stage_succ_of_flows hf hs]
      exact h s (by omega) (by omega)

theorem QuietFor.run {d : Nat} (h : p.QuietFor d) {is : List (SystolicCore.In dw aw)}
    (his : Always RowPipe.step Flows p is) (hq : emits RowPipe.step acceptedWeight p is = []) :
    (Machine.run RowPipe.step p is).QuietFor (d + is.length) := by
  induction is generalizing p d with
  | nil => exact h
  | cons i is ih =>
      rw [emits_cons, List.append_eq_nil_iff] at hq
      rw [List.length_cons, Nat.add_comm is.length, ← Nat.add_assoc]
      exact ih (h.step his.1 hq.1) his.2 hq.2

theorem isWt_stage_run {is : List (SystolicCore.In dw aw)} (his : Always RowPipe.step Flows p is)
    {s : Nat} (h : isWt (p.stage s) = true) (hs : s + is.length < 2 * n - 1) :
    isWt ((Machine.run RowPipe.step p is).stage (s + is.length)) = true := by
  induction is generalizing p s with
  | nil => exact h
  | cons i is ih =>
      rw [List.length_cons] at hs
      have hnext : isWt ((p.step i).stage (s + 1)) = true := by
        rw [isWt_stage_succ_of_flows his.1 (by omega), h]
      have hlen : s + (is.length + 1) = s + 1 + is.length := by omega
      rw [List.length_cons, hlen]
      exact ih his.2 hnext (by omega)

/-- Once no weight beat is inside, none was accepted in the last `2 * n - 1` cycles. -/
theorem acceptedWeight_of_quiet {is : List (SystolicCore.In dw aw)}
    (his : Always RowPipe.step Flows p is)
    (hq : (Machine.run RowPipe.step p is).QuietFor (2 * n - 1)) (hlen : is.length ≤ 2 * n - 1) :
    emits RowPipe.step acceptedWeight p is = [] := by
  induction is generalizing p with
  | nil => rfl
  | cons i is ih =>
      rw [List.length_cons] at hlen
      rw [emits_cons, ih his.2 hq (by omega), List.append_nil]
      refine acceptedWeight_eq_nil ?_
      rw [← isWt_stage_step_of_flows his.1 (by omega)]
      by_contra hwt
      have hlast := isWt_stage_run his.2 (by simpa using hwt) (by omega)
      rw [Nat.zero_add] at hlast
      have hnone := hq is.length (by omega) (by omega)
      rw [run_cons, hlast] at hnone
      cases hnone

/-- Once the last weight beat has met every cell, the shadow weights are the most recent
beats, column by column. -/
theorem Chained.shadow_eq {history : List (Nat → BitVec dw)} (h : p.Chained history)
    (hq : p.QuietFor (2 * n - 2)) {i j : Nat} (hi : i < n) (hj : j < n) :
    p.shadow i j = nthBeat history j i := by
  rw [h.shadow i j hi hj, wtsBefore_eq_zero fun t ht => hq t (by omega) (by omega), Nat.zero_add]

end RowPipe

/-! ## the core -/

/-- Traffic that keeps loading and computing apart: beats of one kind on all lanes, and no
weight beat while an activation row is inside. -/
structure SystolicCore.WeightsApart (c : SystolicCore n dw aw) (inp : SystolicCore.In dw aw) :
    Prop where
  uniform : inp.Uniform n
  apart : inp.validIn = true → inp.loadWeightIn 0 = true → ¬ c.HoldsRow

instance (inp : SystolicCore.In dw aw) : Decidable (inp.Uniform n) :=
  inferInstanceAs (Decidable (_ → ∀ i, i < n → _))

instance (c : SystolicCore n dw aw) (inp : SystolicCore.In dw aw) :
    Decidable (c.WeightsApart inp) :=
  decidable_of_iff (inp.Uniform n ∧ (inp.validIn = true → inp.loadWeightIn 0 = true → ¬ c.HoldsRow))
    ⟨fun h => ⟨h.1, h.2⟩, fun h => ⟨h.1, h.2⟩⟩

/-- A weight beat with the lanes `xs`. -/
def SystolicCore.In.wt (aw : Nat) (xs : List (BitVec dw)) : SystolicCore.In dw aw where
  loadWeightIn _ := true
  validIn := true
  xIn i := xs.getD i 0
  yIn _ := 0
  weightLatchEn := false
  readyIn := true

/-- A cycle without a beat. -/
def SystolicCore.In.idle (dw aw : Nat) (weightLatchEn : Bool) : SystolicCore.In dw aw where
  loadWeightIn _ := false
  validIn := false
  xIn _ := 0
  yIn _ := 0
  weightLatchEn
  readyIn := true

namespace Refines

variable {c : SystolicCore n dw aw} {p : RowPipe n dw aw} {inp : SystolicCore.In dw aw}

theorem weightsApart (h : Refines c p) (ha : c.WeightsApart inp) : p.WeightsApart inp := by
  intro hwt
  obtain ⟨-, hv, hl⟩ := RowPipe.beat_of_isWt hwt
  rw [← h.holdsRow_iff]
  exact ha.apart hv hl

theorem lockstep_of_apart (h : Refines c p) (ho : p.Ordered) (ha : c.WeightsApart inp) :
    Lockstep c inp :=
  ⟨ha.uniform, h.not_drops ha.uniform (RowPipe.not_overruns_of_apart ho (h.weightsApart ha))⟩

/-- A weight beat is accepted in the cycle in which it is presented. -/
theorem readyOut_of_apart (h : Refines c p) (hn : 0 < n) (ho : p.Ordered)
    (ha : c.WeightsApart inp) (hl : inp.loadWeightIn 0 = true) : c.readyOut inp = inp.validIn := by
  have hap := h.weightsApart ha
  have hclear := (p.clearFrom_zero inp).mpr (RowPipe.not_overruns_of_apart ho hap)
  rw [h.readyOut_eq hn ha.uniform hclear, RowPipe.readyOut]
  cases hv : inp.validIn with
  | false => rfl
  | true =>
      have hwt : isWt (RowPipe.beat inp : Option (Token dw aw)) = true := by
        rw [RowPipe.isWt_beat, hv, hl]
        rfl
      rw [RowPipe.freeAt_zero_of_apart hap hn hwt]
      rfl

/-- The core and its pipeline keep weight beats ordered, in lock step. -/
structure Apart (c : SystolicCore n dw aw) (p : RowPipe n dw aw) : Prop where
  refines : Refines c p
  ordered : p.Ordered

theorem Apart.step (h : Apart c p) (ha : c.WeightsApart inp) : Apart (c.step inp) (p.step inp) where
  refines := h.refines.step_of_lockstep (h.refines.lockstep_of_apart h.ordered ha)
  ordered := RowPipe.ordered_step h.ordered (h.refines.weightsApart ha)

theorem Apart.always_lockstep (h : Apart c p) {is : List (SystolicCore.In dw aw)}
    (his : Always SystolicCore.step SystolicCore.WeightsApart c is) :
    Always SystolicCore.step Lockstep c is := by
  induction is generalizing c p with
  | nil => trivial
  | cons i is ih =>
      exact ⟨h.refines.lockstep_of_apart h.ordered his.1, ih (h.step his.1) his.2⟩

theorem Apart.always_weightsApart (h : Apart c p) {is : List (SystolicCore.In dw aw)}
    (his : Always SystolicCore.step SystolicCore.WeightsApart c is) :
    Always RowPipe.step RowPipe.WeightsApart p is :=
  Machine.always_sim (fun _ _ _ h ha => h.step ha) (fun _ _ _ h ha => h.refines.weightsApart ha)
    h his

theorem Apart.always_ready (h : Apart c p) (hn : 0 < n) {is : List (SystolicCore.In dw aw)}
    (his : Always SystolicCore.step SystolicCore.WeightsApart c is) :
    Always SystolicCore.step
      (fun c inp => inp.loadWeightIn 0 = true → c.readyOut inp = inp.validIn) c is := by
  induction is generalizing c p with
  | nil => trivial
  | cons i is ih =>
      exact ⟨h.refines.readyOut_of_apart hn h.ordered his.1, ih (h.step his.1) his.2⟩

/-- Only an accepted row makes the output valid. -/
theorem taken_lt_accepted (h : Refines c p) (hn : 0 < n) (hrows : p.rows = [])
    {is : List (SystolicCore.In dw aw)} (hl : Always SystolicCore.step Lockstep c is)
    (hv : (Machine.run SystolicCore.step c is).validOut = true) :
    (emits SystolicCore.step SystolicCore.takenRow c is).length <
      (emits SystolicCore.step SystolicCore.acceptedRow c is).length := by
  rw [(h.run hl).validOut_eq hn] at hv
  have hpos := RowPipe.rows_pos_of_isAct (by omega) hv
  rw [h.length_acceptedRow hn hrows hl]
  omega

/-- A run of the core in lock step with a pipeline in which no weight beat waits. -/
structure Flowing (c : SystolicCore n dw aw) (p : RowPipe n dw aw)
    (is : List (SystolicCore.In dw aw)) : Prop where
  lockstep : Always SystolicCore.step Lockstep c is
  flows : Always RowPipe.step RowPipe.Flows p is

theorem Apart.flowing (h : Apart c p) {is : List (SystolicCore.In dw aw)}
    (his : Always SystolicCore.step SystolicCore.WeightsApart c is) : Flowing c p is where
  lockstep := h.always_lockstep his
  flows := RowPipe.always_flows h.ordered (h.always_weightsApart his)

theorem flowing_append {as bs : List (SystolicCore.In dw aw)} :
    Flowing c p (as ++ bs) ↔ Flowing c p as ∧
      Flowing (Machine.run SystolicCore.step c as) (Machine.run RowPipe.step p as) bs := by
  constructor
  · rintro ⟨hl, hf⟩
    rw [always_append] at hl hf
    exact ⟨⟨hl.1, hf.1⟩, ⟨hl.2, hf.2⟩⟩
  · rintro ⟨ha, hb⟩
    exact ⟨always_append.mpr ⟨ha.lockstep, hb.lockstep⟩, always_append.mpr ⟨ha.flows, hb.flows⟩⟩

/-- Once the last weight beat has met every cell, the shadow weights are the most recent
beats. -/
theorem shadowWeights_eq (h : Refines c p) (hn : 0 < n) {history : List (Nat → BitVec dw)}
    (hchain : p.Chained history) {is : List (SystolicCore.In dw aw)} (his : Flowing c p is)
    (hq : (Machine.run RowPipe.step p is).QuietFor (2 * n - 2)) {i j : Nat} (hi : i < n)
    (hj : j < n) :
    (Machine.run SystolicCore.step c is).shadowWeights i j =
      nthBeat ((emits SystolicCore.step SystolicCore.acceptedWeight c is).reverse ++ history)
        j i := by
  rw [h.emits_acceptedWeight hn his.lockstep, SystolicCore.shadowWeights,
    (h.run his.lockstep).shadow hi hj]
  exact (hchain.run his.flows).shadow_eq hq hi hj

/-- A pipeline that accepts no weight beat gets quiet. -/
theorem quietFor_run (h : Refines c p) (hn : 0 < n) {d : Nat} (hd : p.QuietFor d)
    {is : List (SystolicCore.In dw aw)} (his : Flowing c p is)
    (hq : emits SystolicCore.step SystolicCore.acceptedWeight c is = []) :
    (Machine.run RowPipe.step p is).QuietFor (d + is.length) := by
  rw [h.emits_acceptedWeight hn his.lockstep] at hq
  exact hd.run his.flows hq

/-- Cycles without weight beats make the pipeline quiet for as long. -/
theorem quietFor_append (h : Refines c p) (hn : 0 < n) {as bs : List (SystolicCore.In dw aw)}
    (his : Flowing c p (as ++ bs))
    (hq : emits SystolicCore.step SystolicCore.acceptedWeight
      (Machine.run SystolicCore.step c as) bs = []) :
    (Machine.run RowPipe.step p (as ++ bs)).QuietFor bs.length := by
  obtain ⟨hisa, hisb⟩ := flowing_append.mp his
  have hzero : (Machine.run RowPipe.step p as).QuietFor 0 :=
    fun s hs => absurd hs (Nat.not_lt_zero s)
  have hquiet := (h.run hisa.lockstep).quietFor_run hn hzero hisb hq
  rwa [run_append, ← Nat.zero_add bs.length]

end Refines

/-- The latch copies the shadow weights as they stand before the edge. -/
theorem SystolicCore.activeWeights_latch {c : SystolicCore n dw aw} {inp : SystolicCore.In dw aw}
    (hlatch : inp.weightLatchEn = true) {i j : Nat} (hi : i < n) (hj : j < n) :
    (c.step inp).activeWeights i j = c.shadowWeights i j := by
  have hen : (c.pins inp i j).weightLatchEn = true := hlatch
  rw [activeWeights, pe_step c inp hi hj, MacPe.activeWeightReg_step, MacPe.nextActive, hen,
    if_pos rfl, shadowWeights]

/-- **Weight loading**: on every run from reset that keeps loading and computing apart, with any
latch pulses,

* a weight beat never waits;
* a valid output is an accepted activation row;
* once `2 * n - 2` cycles have passed after the last weight beat, the shadow weight of cell
  `(i, j)` is lane `i` of the `j`-th last one, or 0;
* so after the beats of `W` the latch makes `W` the active weights. -/
theorem weights_shift_chain (hn : 0 < n) {is : List (SystolicCore.In dw aw)}
    (his : Always SystolicCore.step SystolicCore.WeightsApart (SystolicCore.reset n dw aw) is) :
    let c := SystolicCore.reset n dw aw
    let c' := run SystolicCore.step c is
    let history := (emits SystolicCore.step SystolicCore.acceptedWeight c is).reverse
    Always SystolicCore.step
        (fun c inp => inp.loadWeightIn 0 = true → c.readyOut inp = inp.validIn) c is ∧
      (c'.validOut = true →
        (emits SystolicCore.step SystolicCore.takenRow c is).length <
          (emits SystolicCore.step SystolicCore.acceptedRow c is).length) ∧
      ∀ as bs, is = as ++ bs →
        emits SystolicCore.step SystolicCore.acceptedWeight (run SystolicCore.step c as) bs = [] →
        (2 * n - 2 ≤ bs.length ∨
          emits SystolicCore.step SystolicCore.acceptedWeight c as = []) →
        (∀ i j, i < n → j < n → c'.shadowWeights i j = nthBeat history j i) ∧
        ∀ W old beats inp, history.reverse = old ++ beats → LoadsMatrix n W beats →
          inp.weightLatchEn = true →
          ∀ i j, i < n → j < n → (c'.step inp).activeWeights i j = W i j := by
  intro c c' history
  have hR := Refines.reset n dw aw
  have hload : (RowPipe.empty n aw (fun _ _ => (0 : BitVec dw)) fun _ _ => 0).Loaded [] :=
    RowPipe.loaded_empty fun _ _ => 0
  have hap : Refines.Apart c _ := ⟨hR, hload.ordered⟩
  have hflow := hap.flowing his
  refine ⟨hap.always_ready hn his,
    hR.taken_lt_accepted hn (RowPipe.rows_empty _ _) hflow.lockstep, ?_⟩
  rintro as bs rfl hq hquiet
  have hquiet' : (run RowPipe.step (RowPipe.empty n aw (fun _ _ => 0) fun _ _ => 0)
      (as ++ bs)).QuietFor (2 * n - 2) := by
    rcases hquiet with hbs | hnone
    · have hrun := hR.quietFor_append hn hflow hq
      exact fun s hs => hrun s (by omega)
    · -- no weight beat at all
      have hempty : (RowPipe.empty n aw (fun _ _ => (0 : BitVec dw)) fun _ _ => 0).QuietFor
          (2 * n - 2) := fun s _ _ => by rw [RowPipe.stage_empty]; rfl
      have hrun := hR.quietFor_run hn hempty hflow (by rw [emits_append, hnone, hq]; rfl)
      exact fun s hs => hrun s (by omega)
  have hshadow : ∀ i j, i < n → j < n → c'.shadowWeights i j = nthBeat history j i := by
    intro i j hi hj
    have heq := hR.shadowWeights_eq hn hload.toChained hflow hquiet' hi hj
    rw [List.append_nil] at heq
    exact heq
  refine ⟨hshadow, fun W old beats inp hsplit hW hlatch i j hi hj => ?_⟩
  rw [SystolicCore.activeWeights_latch hlatch hi hj, hshadow i j hi hj,
    ← List.reverse_reverse history, hsplit, hW.nthBeat_eq old hi hj]

/-- The matrix `![![1, 2], ![3, 4]]`, column by column from the last. -/
theorem weights_shift_chain_two :
    let W : Nat → Nat → BitVec 8 := fun i j => BitVec.ofNat 8 (2 * i + j + 1)
    let as := [SystolicCore.In.wt 32 [2, 4], .wt 32 [1, 3]]
    let bs := [SystolicCore.In.idle 8 32 false, .idle 8 32 false]
    let c := SystolicCore.reset 2 8 32
    let c' := run SystolicCore.step c (as ++ bs)
    0 < 2 ∧ Always SystolicCore.step SystolicCore.WeightsApart c (as ++ bs) ∧
      ∀ i j, i < 2 → j < 2 → (c'.step (.idle 8 32 true)).activeWeights i j = W i j := by
  intro W as bs c c'
  have his : Always SystolicCore.step SystolicCore.WeightsApart c (as ++ bs) := by decide +kernel
  have h := (weights_shift_chain (by decide) his).2.2 as bs rfl (by rfl) (.inl (by decide))
  have hW : LoadsMatrix 2 W [(SystolicCore.In.wt 32 [2, 4]).xIn, (SystolicCore.In.wt 32 [1, 3]).xIn] :=
    ⟨rfl, by decide⟩
  exact ⟨by decide, his, fun i j hi hj => h.2 W [] _ (.idle 8 32 true) (by rfl) hW rfl i j hi hj⟩

end Npu
