import Npu.UnitOverlap

/-!
# Npu.UnitFlow

Weight beats behind rows that are still inside.  In the unit such a beat moves on in every
cycle, or it does not get through without a drop: a row holds it up only in front of a full
FIFO, and the FIFO takes the rows ahead one at a time with a pause after each.  So the row still
waits when the beat stands right before the last columns, and there the next edge drops its
partial sum.

So a run without drops either flows or is jammed for good (`flows_or_jammed`), and in both
cases the ports show whether the unit is empty (`empty_iff_of_not_drops`).
-/

namespace Npu

open Token Machine

namespace RowPipe

variable {p : RowPipe n dw aw} {inp : SystolicCore.In dw aw} {s : Nat}

/-- A weight beat in stage `s` has nothing but rows ahead, up to the output. -/
structure Blocked (s : Nat) (p : RowPipe n dw aw) : Prop where
  wt : isWt (p.stage s) = true
  rows : ∀ t, s < t → t < 2 * n - 1 → isAct (p.stage t) = true

/-- The last of the weight beats that wait. -/
theorem exists_last_held (hs : s < 2 * n - 1) (hwt : isWt (p.stage s) = true)
    (hheld : p.freeAt inp (s + 1) = false) :
    ∃ t, t < 2 * n - 1 ∧ isWt (p.stage t) = true ∧ p.freeAt inp (t + 1) = false ∧
      ∀ r, t < r → r < 2 * n - 1 → isWt (p.stage r) = false := by
  obtain ⟨d, hd⟩ : ∃ d, 2 * n - 1 - s = d := ⟨_, rfl⟩
  induction d using Nat.strong_induction_on generalizing s with
  | _ d ih =>
      by_cases hnext : ∃ t, s < t ∧ t < 2 * n - 1 ∧ isWt (p.stage t) = true
      · obtain ⟨t, hst, ht, hwt'⟩ := hnext
        refine ih (2 * n - 1 - t) (by omega) ht hwt' ?_ rfl
        by_contra hfree
        rw [p.freeAt_of_le inp (by omega : s + 1 ≤ t + 1) ht (by simpa using hfree)] at hheld
        cases hheld
      · refine ⟨s, hs, hwt, hheld, fun r hr hr' => ?_⟩
        by_contra hwt'
        exact hnext ⟨r, hr, hr', by simpa using hwt'⟩

/-- Without overruns a weight beat waits only ahead of the last columns, behind rows that wait
for the output. -/
theorem exists_blocked (hclear : p.ClearFrom inp 0) (hf : ¬ p.Flows inp) :
    ∃ s, s + 1 < n - 1 ∧ p.Blocked s ∧ p.out inp = false := by
  simp only [Flows, not_forall, Bool.not_eq_true] at hf
  obtain ⟨_, hs', hwt', hheld'⟩ := hf
  obtain ⟨s, hs, hwt, hheld, hlast⟩ := exists_last_held hs' hwt' hheld'
  have hwait : ∀ t, s < t → t ≤ 2 * n - 1 → p.freeAt inp t = false := by
    intro t hst ht
    by_contra hfree
    rw [p.freeAt_of_le inp hst ht (by simpa using hfree)] at hheld
    cases hheld
  have hrows : ∀ t, s < t → t < 2 * n - 1 → isAct (p.stage t) = true := by
    intro t hst ht
    have hnowt := hlast t hst ht
    rcases hstage : p.stage t with _ | ⟨x, b, y⟩ | x
    · have hfree := p.freeAt_of_isNone inp ht hstage
      rw [hwait t hst ht.le] at hfree
      cases hfree
    · rfl
    · rw [hstage] at hnowt
      cases hnowt
  have hout : p.out inp = false := by rw [← p.freeAt_last inp, hwait _ hs le_rfl]
  refine ⟨s, ?_, ⟨hwt, hrows⟩, hout⟩
  by_contra hlow
  rcases Nat.lt_or_ge s (n - 1) with hlt | hge
  · -- it would overrun the row right ahead
    have hover := hclear (s + 1) (Nat.zero_le _) (by omega) (by omega)
    rw [overrunAt, hrows (s + 1) (by omega) (by omega), hwait (s + 2) (by omega) (by omega),
      incoming_succ, hwt] at hover
    cases hover
  · obtain ⟨x, hx⟩ := isWt_iff.mp hwt
    rw [free_of_wt (hclear.mono (Nat.zero_le _)) hge hs hx] at hheld
    cases hheld

namespace Blocked

theorem validOut (h : p.Blocked s) (hs : s + 1 < 2 * n - 1) : p.validOut = true :=
  h.rows (2 * n - 2) (by omega) (by omega)

/-- What is blocked moves iff the output takes a row. -/
theorem freeAt_eq (h : p.Blocked s) {t : Nat} (hst : s ≤ t) (ht : t ≤ 2 * n - 1) :
    p.freeAt inp t = p.out inp := by
  obtain ⟨d, hd⟩ : ∃ d, 2 * n - 1 - t = d := ⟨_, rfl⟩
  induction d generalizing t with
  | zero =>
      obtain rfl : t = 2 * n - 1 := by omega
      exact p.freeAt_last inp
  | succ d ih =>
      have hsome : (p.stage t).isSome = true := by
        rw [isSome_eq]
        rcases Nat.eq_or_lt_of_le hst with rfl | hlt
        · rw [h.wt, Bool.true_or]
        · rw [h.rows t hlt (by omega), Bool.or_true]
      obtain ⟨x, hx⟩ := Option.isSome_iff_exists.mp hsome
      rw [p.freeAt_of_some inp (by omega) hx, ih (by omega) (by omega) (by omega)]

theorem step_of_held (h : p.Blocked s) (hs : s < 2 * n - 1) (hout : p.out inp = false) :
    (p.step inp).Blocked s where
  wt := by rw [Refines.stage_step_of_held hs (by rw [h.freeAt_eq le_rfl hs.le, hout]), h.wt]
  rows t hst ht := by
    rw [Refines.stage_step_of_held ht (by rw [h.freeAt_eq hst.le ht.le, hout]), h.rows t hst ht]

theorem step_of_out (h : p.Blocked s) (hs : s + 1 < 2 * n - 1) (hout : p.out inp = true) :
    (p.step inp).Blocked (s + 1) where
  wt := by
    rw [isWt_stage_step p inp hs, h.freeAt_eq (by omega) hs.le, hout, if_pos rfl, incoming_succ,
      h.wt]
  rows t hst ht := by
    obtain ⟨t, rfl⟩ : ∃ r, t = r + 1 := ⟨t - 1, by omega⟩
    rw [isAct_stage_step p inp ht, h.freeAt_eq (by omega) ht.le, hout, if_pos rfl, incoming_succ,
      h.rows t (by omega) (by omega)]

/-- Right before the last columns it does not wait without an overrun. -/
theorem out_of_clear (h : p.Blocked s) (hclear : p.ClearFrom inp 0) (hn : s + 1 = n - 1) :
    p.out inp = true := by
  have hover := hclear (s + 1) (Nat.zero_le _) hn.ge (by omega)
  rw [overrunAt, h.rows (s + 1) (by omega) (by omega), h.freeAt_eq (by omega) (by omega),
    incoming_succ, h.wt] at hover
  simpa using hover

end Blocked

end RowPipe

namespace StreamCtrl

variable {c : StreamCtrl} {inp : In}

/-- A row has just moved from the full FIFO to the serializer. -/
structure Popped (c : StreamCtrl) : Prop where
  count : c.fifoCount.toNat = 7
  active : c.txActive = true
  flit : c.txCount = 0

/-- A full FIFO stays full, or a row moves on. -/
theorem step_of_full (hwf : c.Wf) (hfull : c.fifoCount.toNat = 8) (inp : In) :
    (c.step inp).fifoCount.toNat = 8 ∨ (c.step inp).Popped := by
  have hcount := toNat_fifoCount_step hwf inp
  have hpush : c.fifoPush inp = false := by
    by_contra hpush
    have hlt := lt_of_push (by simpa using hpush)
    omega
  rw [hpush, hfull] at hcount
  cases hpop : c.fifoPop inp with
  | false =>
      rw [hpop] at hcount
      exact .inl hcount
  | true =>
      rw [hpop, Bool.toNat_true] at hcount
      have hactive : (c.step inp).txActive = (c.txStep inp).txActive := rfl
      have hflit : (c.step inp).txCount = (c.txStep inp).txCount := rfl
      refine .inr ⟨by simpa using hcount, ?_, ?_⟩
      · rw [hactive, txStep]
        rw [fifoPop] at hpop
        cases hact : c.txActive <;> simp_all
      · rw [hflit, txStep]
        rw [fifoPop] at hpop
        cases hact : c.txActive <;> simp_all

/-- The slot of the row that has moved on is taken by the next one, before the serializer is
through. -/
theorem Popped.full_step (h : c.Popped) (hwf : c.Wf) (hvalid : inp.peValidOut = true) :
    (c.step inp).fifoCount.toNat = 8 := by
  have hcount := toNat_fifoCount_step hwf inp
  have hpush : c.fifoPush inp = true := by rw [fifoPush, hvalid, fifoFull_eq, h.count]; rfl
  have hpop : c.fifoPop inp = false := by
    rw [fifoPop, h.active, h.flit]
    simp
  rw [hpush, hpop, h.count] at hcount
  exact hcount

end StreamCtrl

namespace NpuUnit

variable {u : NpuUnit} {inp : In} {is : List In} {p : RowPipe 8 8 32}

/-- A weight beat stands behind rows up to the output, and the FIFO does not take two of them
in a row. -/
def Jammed (u : NpuUnit) (p : RowPipe 8 8 32) : Prop :=
  ∃ s, p.Blocked s ∧ (s < 7 ∧ u.stream.fifoCount.toNat = 8 ∨ s < 6 ∧ u.stream.Popped)

theorem Jammed.isAct (h : Jammed u p) : isAct (p.stage 14) = true := by
  obtain ⟨s, hb, hs⟩ := h
  exact hb.validOut (by omega)

theorem out_coreIn (hact : isAct (p.stage 14) = true) :
    p.out (u.coreIn inp) = decide (u.stream.fifoCount.toNat < 8) := by
  have hready : (u.coreIn inp).readyIn = !u.stream.fifoFull := rfl
  have hout : p.out (u.coreIn inp) = (!isAct (p.stage 14) || (u.coreIn inp).readyIn) := rfl
  rw [hout, hact, hready, StreamCtrl.fifoFull_eq, Bool.not_true, Bool.false_or, ← decide_not,
    decide_eq_decide, Nat.not_le]

/-- **Once jammed, always jammed.** -/
theorem Jammed.step (h : Jammed u p) (hwf : u.stream.Wf) (hR : Refines u.core p)
    (hclear : p.ClearFrom (u.coreIn inp) 0) : Jammed (u.step inp) (p.step (u.coreIn inp)) := by
  have hout : p.out (u.coreIn inp) = decide (u.stream.fifoCount.toNat < 8) := out_coreIn h.isAct
  have hvalid : (u.streamIn inp).peValidOut = true := (hR.validOut_eq (by decide)).trans h.isAct
  obtain ⟨s, hb, ⟨hs, hfull⟩ | ⟨hs, hpopped⟩⟩ := h
  · have hheld : p.out (u.coreIn inp) = false := by rw [hout, hfull]; rfl
    have hs' : s ≠ 6 := by
      rintro rfl
      rw [hb.out_of_clear hclear rfl] at hheld
      cases hheld
    refine ⟨s, hb.step_of_held (by omega) hheld, ?_⟩
    rcases StreamCtrl.step_of_full hwf hfull (u.streamIn inp) with hfull' | hpopped
    · exact .inl ⟨hs, hfull'⟩
    · exact .inr ⟨by omega, hpopped⟩
  · have htaken : p.out (u.coreIn inp) = true := by rw [hout, hpopped.count]; rfl
    exact ⟨s + 1, hb.step_of_out (by omega) htaken,
      .inl ⟨by omega, hpopped.full_step hwf hvalid⟩⟩

/-- The first weight beat that waits jams the unit. -/
theorem jammed_of_not_flows (hwf : u.stream.Wf) (hclear : p.ClearFrom (u.coreIn inp) 0)
    (hf : ¬ p.Flows (u.coreIn inp)) : Jammed (u.step inp) (p.step (u.coreIn inp)) := by
  obtain ⟨s, hs, hb, hheld⟩ := RowPipe.exists_blocked hclear hf
  have hcount := hwf.count
  have hfull : u.stream.fifoCount.toNat = 8 := by
    rw [out_coreIn (hb.validOut (by omega)), decide_eq_false_iff_not] at hheld
    omega
  refine ⟨s, hb.step_of_held (by omega) hheld, ?_⟩
  rcases StreamCtrl.step_of_full hwf hfull (u.streamIn inp) with hfull' | hpopped
  · exact .inl ⟨by omega, hfull'⟩
  · exact .inr ⟨by omega, hpopped⟩

theorem clearFrom_of_lockstep (hR : Refines u.core p)
    (hl : Refines.Lockstep u.core (u.coreIn inp)) : p.ClearFrom (u.coreIn inp) 0 :=
  (p.clearFrom_zero _).mpr (hR.not_overruns hl.1 hl.2)

theorem Jammed.run (h : Jammed u p) (hwf : u.stream.Wf) (hR : Refines u.core p)
    (hl : Always SystolicCore.step Refines.Lockstep u.core (u.coreIns is)) :
    Jammed (Machine.run NpuUnit.step u is) (Machine.run RowPipe.step p (u.coreIns is)) := by
  induction is generalizing u p with
  | nil => exact h
  | cons i is ih =>
      exact ih (h.step hwf hR (clearFrom_of_lockstep hR hl.1)) hwf.step (hR.step_of_lockstep hl.1)
        hl.2

/-- **Weight beats in the unit**: along a run without drops they never wait, or the unit is
jammed in the end. -/
theorem flows_or_jammed (hwf : u.stream.Wf) (hR : Refines u.core p)
    (hl : Always SystolicCore.step Refines.Lockstep u.core (u.coreIns is)) :
    Refines.Flowing u.core p (u.coreIns is) ∨
      Jammed (run step u is) (run RowPipe.step p (u.coreIns is)) := by
  induction is generalizing u p with
  | nil => exact .inl ⟨trivial, trivial⟩
  | cons i is ih =>
      have hclear := clearFrom_of_lockstep hR hl.1
      have hR' := hR.step_of_lockstep hl.1
      by_cases hf : p.Flows (u.coreIn i)
      · exact (ih (u := u.step i) hwf.step hR' hl.2).imp_left fun hrest =>
          ⟨hl, hf, hrest.flows⟩
      · exact .inr ((jammed_of_not_flows hwf hclear hf).run hwf.step hR' hl.2)

/-- Without drops, a run after which no row is inside flows. -/
theorem flowing_of_not_holdsRow (hwf : u.stream.Wf) (hR : Refines u.core p)
    (hno : Always step (fun u i => ¬ u.Drops i) u is) (hrow : ¬ (run step u is).core.HoldsRow) :
    Refines.Flowing u.core p (u.coreIns is) := by
  have hl := lockstep_of_not_drops hno
  refine (flows_or_jammed hwf hR hl).resolve_right fun hjam => hrow ?_
  rw [run_core, (hR.run hl).holdsRow_iff]
  exact ⟨14, by decide, hjam.isAct⟩

/-- **Empty, seen from the ports**, after any run without drops: no weight beat was accepted in
the last 15 cycles and four flits are sent for every accepted row. -/
theorem empty_iff_of_not_drops (h : u.Empty) (hwf : u.stream.Wf)
    (hno : Always step (fun u i => ¬ u.Drops i) u is) :
    (run step u is).Empty ↔
      u.NoWeightFor 15 is ∧
        (emits step sentFlit u is).length = 4 * (emits step acceptedRowBeat u is).length := by
  obtain ⟨p, -, hR, -, -, hrows⟩ := Refines.exists_loaded h.drained
  have hl := lockstep_of_not_drops hno
  rcases flows_or_jammed hwf hR hl with hflow | hjam
  · exact empty_run_iff h hwf hR hflow
  · -- jammed, the unit holds a row that is not sent
    have hpos := RowPipe.rows_pos_of_isAct (by decide) hjam.isAct
    have hbalance := balance hR hrows hwf (h.pendingWords hwf) hl
    have hR' := hR.run hl
    rw [← run_core] at hR'
    constructor
    · intro he
      have hnone := (RowPipe.stage_none_iff.mp (hR'.drained_iff.mp he.drained)).1
      rw [hnone] at hpos
      cases hpos
    · rintro ⟨-, hsent⟩
      omega

end NpuUnit

end Npu
