import Npu.Weights

/-!
# Npu.WeightTiming

The weights at any time, not only once the core is quiet.  A weight beat never waits, so the beats
in the stages before `s` are those accepted in the last `s` cycles (`wtsBefore_run`), and cell
`(i, j)` stands where the history stood `i + j` cycles ago.  A latch pulse copies that, early or
late (`weights_delayed`).
-/

namespace Npu

open Machine

namespace RowPipe

variable {p : RowPipe n dw aw} {inp : SystolicCore.In dw aw} {is : List (SystolicCore.In dw aw)}

/-- The weight beats before a stage come a stage further in every cycle, and the accepted ones
join them. -/
theorem wtsBefore_run (his : Always RowPipe.step Flows p is) {s : Nat}
    (hs : s + is.length ≤ 2 * n - 1) :
    (Machine.run RowPipe.step p is).wtsBefore (s + is.length) =
      p.wtsBefore s + (emits RowPipe.step acceptedWeight p is).length := by
  induction is generalizing p s with
  | nil => rfl
  | cons i is ih =>
      rw [List.length_cons] at hs
      have hlen : s + (is.length + 1) = s + 1 + is.length := by omega
      rw [run_cons, List.length_cons, hlen, ih his.2 (by omega), wtsBefore_step his.1 (by omega),
        emits_cons, List.length_append]
      omega

/-- **The shift chain at any time**: cell `(i, j)` stands where the history stood `i + j` cycles
ago. -/
theorem shadow_delayed (active : Nat → Nat → BitVec dw) (hn : 0 < n)
    (his : Always RowPipe.step WeightsApart (empty n aw (fun _ _ => 0) active) is) {i j : Nat}
    (hi : i < n) (hj : j < n) :
    (Machine.run RowPipe.step (empty n aw (fun _ _ => 0) active) is).shadow i j =
      nthBeat (emits RowPipe.step acceptedWeight (empty n aw (fun _ _ => 0) active)
        (is.take (is.length - (i + j)))).reverse j i := by
  obtain ⟨as, has⟩ : ∃ as, as = is.take (is.length - (i + j)) := ⟨_, rfl⟩
  obtain ⟨bs, hbs⟩ : ∃ bs, bs = is.drop (is.length - (i + j)) := ⟨_, rfl⟩
  obtain rfl : is = as ++ bs := by rw [has, hbs, List.take_append_drop]
  rw [← has]
  have hlen : bs.length = (as ++ bs).length - ((as ++ bs).length - (i + j)) := by
    conv_lhs => rw [hbs]
    exact List.length_drop
  rw [List.length_append] at hlen
  obtain ⟨hisa, hisb⟩ := always_append.mp his
  have hload := (loaded_empty active).run hisa
  have hall := (loaded_empty active).run his
  -- before the last cycles, or before all of them, no weight beat is on its way to the cell
  have hnone : (Machine.run RowPipe.step (empty n aw (fun _ _ => 0) active) as).wtsBefore
      (i + j - bs.length) = 0 := by
    by_cases hshort : as = []
    · rw [hshort]
      exact wtsBefore_eq_zero fun t _ => by rw [run_nil, stage_empty]; rfl
    · have hpos := List.length_pos_iff.mpr hshort
      have hzero : i + j - bs.length = 0 := by omega
      rw [hzero]
      rfl
  have hcount := wtsBefore_run (always_flows hload.ordered hisb) (s := i + j - bs.length) (by omega)
  have hsum : i + j - bs.length + bs.length = i + j := by omega
  rw [hsum, hnone, Nat.zero_add, ← run_append] at hcount
  rw [hall.shadow i j hi hj, hcount, List.append_nil, emits_append, List.reverse_append,
    ← List.length_reverse, nthBeat_append]

end RowPipe

namespace SystolicCore

/-- Without a latch pulse the active weights stay. -/
theorem activeWeights_run {c : SystolicCore n dw aw} {is : List (In dw aw)}
    (his : ∀ inp ∈ is, inp.weightLatchEn = false) {i j : Nat} (hi : i < n) (hj : j < n) :
    (run step c is).activeWeights i j = c.activeWeights i j := by
  induction is generalizing c with
  | nil => rfl
  | cons inp is ih =>
      have hen : (c.pins inp i j).weightLatchEn = false := his inp List.mem_cons_self
      rw [run_cons, ih fun k hk => his k (List.mem_cons_of_mem inp hk), activeWeights,
        pe_step c inp hi hj, MacPe.activeWeightReg_step, MacPe.nextActive, hen,
        if_neg Bool.false_ne_true, activeWeights]

/-- The weight beats accepted in the run `is` from reset up to `k` cycles before its end, the newest
first. -/
def historyBefore (n : Nat) (is : List (In dw aw)) (k : Nat) : List (Nat → BitVec dw) :=
  (emits step acceptedWeight (reset n dw aw) (is.take (is.length - k))).reverse

end SystolicCore

open SystolicCore in
theorem shadowWeights_delayed (hn : 0 < n) {is : List (SystolicCore.In dw aw)}
    (his : Always SystolicCore.step WeightsApart (SystolicCore.reset n dw aw) is) {i j : Nat}
    (hi : i < n) (hj : j < n) :
    (run SystolicCore.step (SystolicCore.reset n dw aw) is).shadowWeights i j =
      nthBeat (historyBefore n is (i + j)) j i := by
  have hR := Refines.reset n dw aw
  have hap : Refines.Apart (SystolicCore.reset n dw aw) _ :=
    ⟨hR, (RowPipe.loaded_empty fun _ _ => 0).ordered⟩
  have hl := hap.always_lockstep his
  obtain ⟨hltake, -⟩ := always_append.mp ((List.take_append_drop (is.length - (i + j)) is).symm ▸ hl)
  rw [shadowWeights, (hR.run hl).shadow hi hj, historyBefore, hR.emits_acceptedWeight hn hltake]
  exact RowPipe.shadow_delayed _ hn (hap.always_weightsApart his) hi hj

open SystolicCore in
/-- **The weights at any time**: on every run from reset that keeps loading and computing apart,

* the shadow weight of cell `(i, j)` is lane `i` of the `j`-th last weight beat that was accepted
  up to `i + j` cycles ago, or 0;
* its active weight is what this was at the last latch pulse, early or late. -/
theorem weights_delayed (hn : 0 < n) {is : List (SystolicCore.In dw aw)}
    (his : Always SystolicCore.step WeightsApart (SystolicCore.reset n dw aw) is) {i j : Nat}
    (hi : i < n) (hj : j < n) :
    (run SystolicCore.step (SystolicCore.reset n dw aw) is).shadowWeights i j =
        nthBeat (historyBefore n is (i + j)) j i ∧
      ∀ as inp bs, is = as ++ inp :: bs → inp.weightLatchEn = true →
        (∀ b ∈ bs, b.weightLatchEn = false) →
        (run SystolicCore.step (SystolicCore.reset n dw aw) is).activeWeights i j =
          nthBeat (historyBefore n as (i + j)) j i := by
  refine ⟨shadowWeights_delayed hn his hi hj, ?_⟩
  rintro as inp bs rfl hlatch hquiet
  obtain ⟨hisa, -⟩ := always_append.mp his
  rw [run_append, run_cons, activeWeights_run hquiet hi hj, activeWeights_latch hlatch hi hj,
    shadowWeights_delayed hn hisa hi hj]

/-- Beats latched in the cycle behind the last one: only the first diagonal has arrived. -/
theorem weights_delayed_early :
    let as := [SystolicCore.In.wt 32 [2, 4], .wt 32 [1, 3]]
    let is := as ++ [SystolicCore.In.idle 8 32 true, .idle 8 32 false, .idle 8 32 false]
    let c' := run SystolicCore.step (SystolicCore.reset 2 8 32) is
    c'.activeWeights 0 0 = 1 ∧ c'.activeWeights 1 0 = 4 := by
  intro as is c'
  have his : Always SystolicCore.step SystolicCore.WeightsApart (SystolicCore.reset 2 8 32) is := by
    decide +kernel
  have hcell (i j : Nat) (hi : i < 2) (hj : j < 2) :=
    (weights_delayed (by decide) his hi hj).2 as _ _ rfl rfl (by decide)
  exact ⟨(hcell 0 0 (by decide) (by decide)).trans (by rfl),
    (hcell 1 0 (by decide) (by decide)).trans (by rfl)⟩

/-! ## how long to wait for the latch -/

/-- The cycles that present the columns of `W`, the last one first; the other ports are free. -/
def SystolicCore.In.columns (n : Nat) (ports : Nat → SystolicCore.In dw aw) (W : Nat → Nat → BitVec dw) :
    List (SystolicCore.In dw aw) :=
  (List.range n).map fun t =>
    { ports t with
      loadWeightIn := fun _ => true
      validIn := true
      xIn := fun i => W i (n - 1 - t) }

/-- No row is presented. -/
def SystolicCore.In.NoRow (inp : SystolicCore.In dw aw) : Prop :=
  inp.validIn = true → ∀ i, inp.loadWeightIn i = true

theorem RowPipe.not_holdsRow_step {p : RowPipe n dw aw} {inp : SystolicCore.In dw aw}
    (h : ¬ p.HoldsRow) (hin : inp.NoRow) : ¬ (p.step inp).HoldsRow := by
  rintro ⟨s, hs, hact⟩
  have hstage (t : Nat) (ht : t < 2 * n - 1) : Token.isAct (p.stage t) = false := by
    by_contra hrow
    exact h ⟨t, ht, by simpa using hrow⟩
  rw [isAct_stage_step p inp hs, hstage s hs] at hact
  cases s with
  | zero =>
      rw [incoming_zero, beat] at hact
      cases hv : inp.validIn with
      | false => simp [hv] at hact
      | true => simp [hv, hin hv] at hact
  | succ s => simp [incoming_succ, hstage s (by omega)] at hact

/-- Without rows all weight beats are taken as they come. -/
theorem Refines.Apart.loads {c : SystolicCore n dw aw} {p : RowPipe n dw aw} (h : Refines.Apart c p)
    (hn : 0 < n) (hrow : ¬ p.HoldsRow) {is : List (SystolicCore.In dw aw)}
    (his : ∀ inp ∈ is, inp.NoRow) :
    Always SystolicCore.step SystolicCore.WeightsApart c is ∧
      emits SystolicCore.step SystolicCore.acceptedWeight c is =
        (is.filter (·.validIn)).map (·.xIn) := by
  induction is generalizing c p with
  | nil => exact ⟨trivial, rfl⟩
  | cons inp is ih =>
      have hin := his inp List.mem_cons_self
      have hapart : c.WeightsApart inp :=
        ⟨fun hv i _ => (hin hv i).trans (hin hv 0).symm, fun _ _ hc => hrow (h.refines.holdsRow_iff.mp hc)⟩
      obtain ⟨hrest, hemits⟩ := ih (h.step hapart) (RowPipe.not_holdsRow_step hrow hin)
        fun k hk => his k (List.mem_cons_of_mem inp hk)
      refine ⟨⟨hapart, hrest⟩, ?_⟩
      rw [emits_cons, hemits, SystolicCore.acceptedWeight]
      cases hv : inp.validIn with
      | false => simp [hv]
      | true =>
          have hready := h.refines.readyOut_of_apart hn h.ordered hapart (hin hv 0)
          simp [hv, hready, hin hv 0]

section
variable {n dw aw : Nat} {before quiet : List (SystolicCore.In dw aw)} {latch : SystolicCore.In dw aw}
  {ports : Nat → SystolicCore.In dw aw}

open SystolicCore

@[simp] theorem length_columns (W : Nat → Nat → BitVec dw) : (In.columns n ports W).length = n := by
  simp [In.columns]

theorem noRow_columns (W : Nat → Nat → BitVec dw) : ∀ inp ∈ In.columns n ports W, inp.NoRow := by
  intro inp hinp _ i
  obtain ⟨t, -, rfl⟩ := List.mem_map.mp hinp
  rfl

theorem loadsMatrix_columns (ports : Nat → SystolicCore.In dw aw) (W : Nat → Nat → BitVec dw) :
    LoadsMatrix n W ((In.columns n ports W).map (·.xIn)) := by
  refine ⟨by simp, fun t ht i _ => ?_⟩
  simp [In.columns, ht]

/-- The weight beats among the columns and quiet cycles. -/
theorem filter_columns_take (hquiet : ∀ inp ∈ quiet, inp.validIn = false)
    (W : Nat → Nat → BitVec dw) (m : Nat) :
    ((In.columns n ports W ++ quiet).take m).filter (·.validIn) = (In.columns n ports W).take m := by
  rw [List.take_append, List.filter_append]
  have hall : ((In.columns n ports W).take m).filter (·.validIn) = (In.columns n ports W).take m := by
    refine List.filter_eq_self.mpr fun inp hinp => ?_
    obtain ⟨t, -, rfl⟩ := List.mem_map.mp (List.mem_of_mem_take hinp)
    rfl
  have hnone : (quiet.take (m - (In.columns n ports W).length)).filter (·.validIn) = [] := by
    refine List.filter_eq_nil_iff.mpr fun inp hinp => ?_
    simp [hquiet inp (List.mem_of_mem_take hinp)]
  rw [hall, hnone, List.append_nil]

/-- The history behind the columns of `W` and `quiet`, up to `k` cycles before. -/
theorem historyBefore_columns (hn : 0 < n)
    (hbefore : Always SystolicCore.step WeightsApart (SystolicCore.reset n dw aw) before)
    (hrow : ¬ (run SystolicCore.step (SystolicCore.reset n dw aw) before).HoldsRow)
    (hquiet : ∀ inp ∈ quiet, inp.validIn = false) (W : Nat → Nat → BitVec dw) (k : Nat) :
    Always SystolicCore.step WeightsApart (SystolicCore.reset n dw aw)
        (before ++ (In.columns n ports W ++ quiet)) ∧
      historyBefore n (before ++ (In.columns n ports W ++ quiet)) k =
        ((In.columns n ports W).take (n + quiet.length - k)).reverse.map (·.xIn) ++
          historyBefore n before (k - (n + quiet.length)) := by
  have hR := Refines.reset n dw aw
  have hap : Refines.Apart (SystolicCore.reset n dw aw) _ :=
    ⟨hR, (RowPipe.loaded_empty fun _ _ => 0).ordered⟩
  have hnoRow : ∀ inp ∈ In.columns n ports W ++ quiet, inp.NoRow := by
    intro inp hinp
    rcases List.mem_append.mp hinp with hcol | hq
    · exact noRow_columns W inp hcol
    · exact fun hv => absurd hv (by simp [hquiet inp hq])
  obtain ⟨p', hap', hrow'⟩ : ∃ p', Refines.Apart
      (run SystolicCore.step (SystolicCore.reset n dw aw) before) p' ∧ ¬ RowPipe.HoldsRow p' := by
    refine ⟨_, run_sim (fun _ _ _ h ha => Refines.Apart.step h ha) hap hbefore, ?_⟩
    rw [← (run_sim (fun _ _ _ h ha => Refines.Apart.step h ha) hap hbefore).refines.holdsRow_iff]
    exact hrow
  refine ⟨always_append.mpr ⟨hbefore, (hap'.loads hn hrow' hnoRow).1⟩, ?_⟩
  obtain ⟨m, hm⟩ : ∃ m, m = n + quiet.length - k := ⟨_, rfl⟩
  have htail : (before ++ (In.columns n ports W ++ quiet)).length - k - before.length = m := by
    simp
    omega
  have hhead : before.take ((before ++ (In.columns n ports W ++ quiet)).length - k) =
      before.take (before.length - (k - (n + quiet.length))) := by
    rw [List.take_eq_take_iff]
    simp
    omega
  have hloads : emits SystolicCore.step acceptedWeight (run SystolicCore.step
      (SystolicCore.reset n dw aw) (before.take (before.length - (k - (n + quiet.length)))))
        ((In.columns n ports W ++ quiet).take m) = ((In.columns n ports W).take m).map (·.xIn) := by
    by_cases hzero : m = 0
    · rw [hzero]
      rfl
    · have hall : before.length - (k - (n + quiet.length)) = before.length := by omega
      rw [hall, List.take_length, (hap'.loads hn hrow' fun inp hinp =>
        hnoRow inp (List.mem_of_mem_take hinp)).2, filter_columns_take hquiet]
  rw [historyBefore, List.take_append, htail, hhead, emits_append, List.reverse_append, hloads, hm,
    List.map_reverse]
  rfl

/-- **How long to wait for the latch.**  After any run from reset that keeps loading and computing
apart and leaves no row inside, present the columns of a matrix one behind the other: a latch pulse
makes every matrix the active weights iff it comes `2 * n - 2` cycles behind the last column or
later. -/
theorem latch_settles_iff (hn : 0 < n) (hdw : 0 < dw)
    (hbefore : Always SystolicCore.step WeightsApart (SystolicCore.reset n dw aw) before)
    (hrow : ¬ (run SystolicCore.step (SystolicCore.reset n dw aw) before).HoldsRow)
    (hquiet : ∀ inp ∈ quiet, inp.validIn = false) (hlatch : latch.weightLatchEn = true) :
    (∀ W : Nat → Nat → BitVec dw, ∀ i j, i < n → j < n →
      ((run SystolicCore.step (SystolicCore.reset n dw aw)
        (before ++ (In.columns n ports W ++ quiet))).step latch).activeWeights i j = W i j) ↔
      2 * n - 2 ≤ quiet.length := by
  have hcell (W : Nat → Nat → BitVec dw) (i j : Nat) (hi : i < n) (hj : j < n) :
      ((run SystolicCore.step (SystolicCore.reset n dw aw)
        (before ++ (In.columns n ports W ++ quiet))).step latch).activeWeights i j =
          nthBeat (((In.columns n ports W).take (n + quiet.length - (i + j))).reverse.map (·.xIn) ++
            historyBefore n before (i + j - (n + quiet.length))) j i := by
    obtain ⟨hapart, hhistory⟩ := historyBefore_columns hn hbefore hrow hquiet W (i + j)
    rw [activeWeights_latch hlatch hi hj, shadowWeights_delayed hn hapart hi hj, hhistory]
  constructor
  · intro hall
    by_contra hearly
    -- the last cell gets a weight of earlier columns, whatever the matrix
    have hlast (W : Nat → Nat → BitVec dw) : W (n - 1) (n - 1) =
        nthBeat (historyBefore n before (n - 1 + (n - 1) - (n + quiet.length)))
          (n - 1 - (n + quiet.length - (n - 1 + (n - 1)))) (n - 1) := by
      rw [← hall W (n - 1) (n - 1) (by omega) (by omega), hcell W _ _ (by omega) (by omega)]
      obtain ⟨m, hm⟩ : ∃ m, m = n + quiet.length - (n - 1 + (n - 1)) := ⟨_, rfl⟩
      have hold := nthBeat_append (((In.columns n ports W).take m).reverse.map (·.xIn))
        (historyBefore n before (n - 1 + (n - 1) - (n + quiet.length))) (n - 1 - m) (n - 1)
      have hindex : (((In.columns n ports W).take m).reverse.map (·.xIn)).length + (n - 1 - m) =
          n - 1 := by
        simp
        omega
      rwa [hindex, hm] at hold
    have heq : (0 : BitVec dw) = 1 := (hlast fun _ _ => 0).trans (hlast fun _ _ => 1).symm
    have hlt : 1 < 2 ^ dw := Nat.one_lt_two_pow hdw.ne'
    rw [BitVec.toNat_eq] at heq
    simp [Nat.mod_eq_of_lt hlt] at heq
  · intro hlate W i j hi hj
    have hall : (In.columns n ports W).take (n + quiet.length - (i + j)) = In.columns n ports W :=
      List.take_of_length_le (by rw [length_columns]; omega)
    have hmatrix := (loadsMatrix_columns ports W).nthBeat_eq
      (historyBefore n before (i + j - (n + quiet.length))).reverse hi hj
    rw [List.reverse_append, List.reverse_reverse, ← List.map_reverse] at hmatrix
    rw [hcell W i j hi hj, hall]
    exact hmatrix

end

open SystolicCore in
/-- A 2 × 2 core that has loaded and computed before: two cycles are enough, one is not. -/
theorem latch_settles_iff_two :
    let before := [In.wt 32 [2, 4], .wt 32 [1, 3], .idle 8 32 true,
      { In.wt 32 [7, 7] with loadWeightIn := fun _ => false }] ++ List.replicate 4 (In.idle 8 32 false)
    let ports := fun _ => { SystolicCore.In.idle 8 32 true with readyIn := false, yIn := fun _ => 3 }
    let active := fun (W : Nat → Nat → BitVec 8) d => ((run SystolicCore.step
      (SystolicCore.reset 2 8 32) (before ++ (In.columns 2 ports W ++
        List.replicate d (In.idle 8 32 false)))).step (.idle 8 32 true)).activeWeights
    (∀ W : Nat → Nat → BitVec 8, ∀ i j, i < 2 → j < 2 → active W 2 i j = W i j) ∧
      ¬ ∀ W : Nat → Nat → BitVec 8, ∀ i j, i < 2 → j < 2 → active W 1 i j = W i j := by
  intro before ports active
  have hbefore : Always SystolicCore.step WeightsApart (SystolicCore.reset 2 8 32) before := by
    decide +kernel
  have hrow : ¬ (run SystolicCore.step (SystolicCore.reset 2 8 32) before).HoldsRow := by
    decide +kernel
  have hiff (d : Nat) := @latch_settles_iff 2 8 32 before (List.replicate d (.idle 8 32 false))
    (.idle 8 32 true) ports (by decide) (by decide) hbefore hrow
    (fun inp hinp => by rw [List.eq_of_mem_replicate hinp]; rfl) rfl
  exact ⟨(hiff 2).mpr (by decide), fun h => absurd ((hiff 1).mp h) (by decide)⟩

end Npu
