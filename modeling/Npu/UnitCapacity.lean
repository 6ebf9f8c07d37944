import Npu.UnitOwes

/-!
# Npu.UnitCapacity

How many rows the unit holds.  The core holds 15 rows, the FIFO 8 and the serializer 1, and they
are full together: a row waits in the FIFO only behind one in the serializer (`StreamCtrl.Fed`), and
a core that is full of rows moves iff the FIFO has room.  So a beat is refused exactly when 24
accepted rows are not yet completely sent (`sink_refuses_iff`).
-/

namespace Npu

open Machine

/-! ## a full pipeline -/

namespace RowPipe

open Token

variable {p : RowPipe n dw aw} {inp : SystolicCore.In dw aw}

theorem length_rows_le (p : RowPipe n dw aw) : p.rows.length ≤ 2 * n - 1 := by
  have hle := Elastic.length_tokens_le p.stages
  rw [p.length_stages] at hle
  exact (List.length_filterMap_le _ _).trans hle

/-- With a row in the last stage all tokens are rows. -/
theorem length_rows_eq_iff (hn : 0 < n) (ho : p.Ordered) : p.rows.length = 2 * n - 1 ↔
    (Elastic.tokens p.stages).length = 2 * n - 1 ∧ isAct (p.stage (2 * n - 2)) = true := by
  have hlen := p.length_stages
  have hfull : (Elastic.tokens p.stages).length = p.stages.length ↔ _ := Elastic.length_tokens_eq_iff
  rw [hlen] at hfull
  constructor
  · intro hrows
    have hle := Elastic.length_tokens_le p.stages
    have hrows_le : p.rows.length ≤ (Elastic.tokens p.stages).length := List.length_filterMap_le _ _
    have htokens : (Elastic.tokens p.stages).length = 2 * n - 1 := by omega
    refine ⟨htokens, ?_⟩
    have hall := List.filterMap_length_eq_length.mp (hrows.trans htokens.symm)
    have hlast : p.stage (2 * n - 2) ∈ p.stages := by
      rw [stage, List.getD_eq_getElem _ _ (by omega)]
      exact List.getElem_mem _
    obtain ⟨t, ht⟩ := Option.isSome_iff_exists.mp (hfull.mp htokens _ hlast)
    rw [ht] at hlast ⊢
    cases t with
    | act x b y => rfl
    | wt x => cases hall _ (Elastic.mem_tokens.mpr hlast)
  · rintro ⟨htokens, hact⟩
    rw [← htokens]
    refine List.filterMap_length_eq_length.mpr fun t ht => ?_
    obtain ⟨s, hs, hst⟩ := List.mem_iff_getElem.mp (Elastic.mem_tokens.mp ht)
    rw [← List.getD_eq_getElem _ none] at hst
    cases t with
    | act x b y => rfl
    | wt x =>
        have hwt : isWt (p.stage s) = true := isWt_iff.mpr ⟨x, hst⟩
        by_cases hlast : s = 2 * n - 2
        · rw [← hlast, stage, hst] at hact
          cases hact
        · rw [ho s (2 * n - 2) (by omega) (by omega) hwt] at hact
          cases hact

/-- The input is stopped by `2 * n - 1` rows before an output that is not ready. -/
theorem freeAt_zero_eq_false_iff (hn : 0 < n) (ho : p.Ordered) :
    p.freeAt inp 0 = false ↔ p.rows.length = 2 * n - 1 ∧ inp.readyIn = false := by
  have hle := Elastic.length_tokens_le p.stages
  rw [p.length_stages] at hle
  have hfree : p.freeAt inp 0 = Elastic.free (p.out inp) p.stages := rfl
  rw [length_rows_eq_iff hn ho, hfree, Elastic.free_eq, p.length_stages, out]
  have hmax : ¬ (Elastic.tokens p.stages).length < 2 * n - 1 ↔
      (Elastic.tokens p.stages).length = 2 * n - 1 := by omega
  rw [Bool.or_eq_false_iff, decide_eq_false_iff_not, hmax, Bool.or_eq_false_iff,
    Bool.not_eq_false', and_assoc]

end RowPipe

/-! ## the stream controller -/

namespace StreamCtrl

variable {c : StreamCtrl} {inp : In}

/-- Without a row in the serializer at most the row of the last cycle is in the FIFO. -/
def Fed (c : StreamCtrl) : Prop := c.txActive = false → c.fifoCount.toNat ≤ 1

theorem Fed.step (h : c.Wf) (inp : In) : (c.step inp).Fed := by
  intro hidle
  have hcount := toNat_fifoCount_step h inp
  have hpush := Bool.toNat_le (c.fifoPush inp)
  have htx : (c.txStep inp).txActive = false := hidle
  -- the serializer stops, or stays idle, only before an empty FIFO
  have hempty : c.fifoEmpty = true := by
    by_contra hne
    rw [Bool.not_eq_true] at hne
    simp only [txStep, hne, Bool.not_false, if_true] at htx
    split_ifs at htx with hactive
    · rw [htx] at hactive
      exact hactive rfl
    · rw [htx] at hactive
      exact hactive rfl
    · rw [htx] at hactive
      exact hactive rfl
  rw [fifoEmpty_eq, decide_eq_true_eq] at hempty
  omega

theorem Fed.run (h : c.Wf) (hfed : c.Fed) (is : List In) : (Machine.run StreamCtrl.step c is).Fed := by
  induction is generalizing c with
  | nil => exact hfed
  | cons i is ih => exact ih h.step (Fed.step h i)

end StreamCtrl

/-! ## the unit -/

namespace NpuUnit

variable {u : NpuUnit} {is : List In}

/-- The rows accepted along the run that are not yet completely sent. -/
def rowsInside (u : NpuUnit) (is : List In) : Nat :=
  (emits step acceptedRowBeat u is).length - (emits step sentFlit u is).length / 4

/-- The rows inside are those in the core, in the FIFO and in the serializer. -/
theorem rowsInside_eq {p : RowPipe 8 8 32} (hR : Refines u.core p) (hrows : p.rows = [])
    (hwf : u.stream.Wf) (hpending : u.stream.pendingWords = [])
    (hl : Always SystolicCore.step Refines.Lockstep u.core (u.coreIns is)) :
    u.rowsInside is = (run RowPipe.step p (u.coreIns is)).rows.length +
      (run step u is).stream.fifoCount.toNat + (run step u is).stream.txActive.toNat := by
  have hbalance := balance hR hrows hwf hpending hl
  have hwf' := wf_run hwf is
  have hlen := StreamCtrl.length_pendingWords hwf'
  have hflit := hwf'.flit
  rw [rowsInside]
  cases hactive : (run step u is).stream.txActive <;>
    simp only [hactive, Bool.toNat_false, Bool.toNat_true, Bool.false_eq_true, if_false, if_true]
      at hlen ⊢ <;> omega

/-- **The unit holds 24 rows**: on every run from an empty unit that keeps loading and computing
apart it never holds more, and a beat is refused exactly when it holds that many. -/
theorem sink_refuses_iff (hempty : u.Empty) (hwf : u.stream.Wf)
    (his : Always step LoadsApart u is) :
    u.rowsInside is ≤ 24 ∧ ∀ inp, inp.stSinkValid = true → (run step u is).LoadsApart inp →
      ((run step u is).stSinkReady inp = false ↔ u.rowsInside is = 24) := by
  obtain ⟨p, history, hR, hload, -, hrows⟩ := Refines.exists_loaded hempty.drained
  have hl := lockstep_coreIns hR hload his
  have hinside := rowsInside_eq hR hrows hwf (hempty.pendingWords hwf) hl
  have hcore := (run RowPipe.step p (u.coreIns is)).length_rows_le
  have hcount := (wf_run hwf is).count
  have hactive := Bool.toNat_le (run step u is).stream.txActive
  refine ⟨by omega, fun inp hv hapart => ?_⟩
  have hR' : Refines (run step u is).core (run RowPipe.step p (u.coreIns is)) := by
    rw [run_core]
    exact hR.run hl
  have hordered : (run RowPipe.step p (u.coreIns is)).Ordered :=
    (hload.run ((⟨hR, hload.ordered⟩ : Refines.Apart u.core p).always_weightsApart
      (always_weightsApart his))).ordered
  have hfed : (run step u is).stream.Fed := by
    rw [run_stream]
    refine StreamCtrl.Fed.run hwf (fun _ => ?_) _
    rw [hempty.fifo]
    exact Nat.zero_le 1
  have haccepts := accepts_eq hR' hordered hapart
  rw [accepts, hv, Bool.true_and, RowPipe.accepts, coreIn_validIn, hv, Bool.true_and] at haccepts
  have hready : ((run step u is).coreIn inp).readyIn = !(run step u is).stream.fifoFull := rfl
  rw [haccepts, RowPipe.freeAt_zero_eq_false_iff (by decide) hordered, hready, hinside,
    StreamCtrl.fifoFull_eq, Bool.not_eq_false', decide_eq_true_eq]
  constructor
  · rintro ⟨hfull, hfifo⟩
    have hbusy : (run step u is).stream.txActive = true := by
      by_contra hidle
      have := hfed (by simpa using hidle)
      omega
    rw [hbusy, Bool.toNat_true]
    omega
  · omega

/-- Before a source that is never ready 24 rows are accepted and the next one is refused. -/
theorem sink_refuses_25th :
    let is := List.replicate 24 (In.beat 5 false)
    (reset fun _ => 0).rowsInside is = 24 ∧
      (run step (reset fun _ => 0) is).stSinkReady (.beat 5 false) = false := by
  intro is
  have hsim := Simulates.reset fun _ => 0
  have hno : Always RowUnit.step RowUnit.NoOverrun (RowUnit.reset fun _ => 0) is := by decide +kernel
  have hinside : (reset fun _ => 0).rowsInside is = 24 := by
    rw [rowsInside, hsim.emits_sentFlit hno, hsim.emits_acceptedRowBeat hno]
    decide +kernel
  have hapart : Always step LoadsApart (reset fun _ => 0) is := by decide +kernel
  have hfull := sink_refuses_iff (empty_reset fun _ => 0) (StreamCtrl.wf_reset fun _ => 0) hapart
  exact ⟨hinside, (hfull.2 _ rfl (by decide +kernel)).mpr hinside⟩

end NpuUnit

end Npu
