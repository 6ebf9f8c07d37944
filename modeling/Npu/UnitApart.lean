import Npu.CoreJob
import Npu.NpuUnit

/-!
# Npu.UnitApart

Runs of the unit that keep loading and computing apart: no weight beat is presented while
an activation row is inside the core.  On them every accepted row is in the core, in the
stream controller or sent (`balance`).
-/

namespace Npu

open Machine

namespace NpuUnit

/-- No weight beat is presented while an activation row is inside the core. -/
def LoadsApart (u : NpuUnit) (inp : In) : Prop :=
  inp.stSinkValid = true → u.ctrl.seqMode.getLsbD 0 = true → ¬ u.core.HoldsRow

instance (u : NpuUnit) (inp : In) : Decidable (u.LoadsApart inp) :=
  inferInstanceAs (Decidable (_ → _ → ¬ _))

variable {u : NpuUnit} {is : List In} {p : RowPipe 8 8 32} {history : List (Nat → BitVec 8)}

theorem weightsApart_coreIn {inp : In} (h : u.LoadsApart inp) :
    u.core.WeightsApart (u.coreIn inp) where
  uniform := uniform_coreIn
  apart hv hl := h hv (by
    rw [coreIn_loadWeightIn, Bool.and_eq_true] at hl
    exact hl.1)

theorem always_weightsApart (his : Always step LoadsApart u is) :
    Always SystolicCore.step SystolicCore.WeightsApart u.core (u.coreIns is) := by
  rw [coreIns, ← always_proj core_step]
  exact his.imp fun _ _ => weightsApart_coreIn

theorem Empty.pendingWords (h : u.Empty) (hwf : u.stream.Wf) : u.stream.pendingWords = [] :=
  (StreamCtrl.pendingWords_eq_nil_iff hwf).mpr ⟨h.fifo, h.serializer⟩

theorem flowing_coreIns (hR : Refines u.core p) (hload : p.Loaded history)
    (his : Always step LoadsApart u is) : Refines.Flowing u.core p (u.coreIns is) :=
  Refines.Apart.flowing ⟨hR, hload.ordered⟩ (always_weightsApart his)

theorem lockstep_coreIns (hR : Refines u.core p) (hload : p.Loaded history)
    (his : Always step LoadsApart u is) :
    Always SystolicCore.step Refines.Lockstep u.core (u.coreIns is) :=
  (flowing_coreIns hR hload his).lockstep

theorem acceptedWeightBeat_eq_nil_iff (hR : Refines u.core p)
    (hl : Always SystolicCore.step Refines.Lockstep u.core (u.coreIns is)) :
    emits step acceptedWeightBeat u is = [] ↔
      emits RowPipe.step RowPipe.acceptedWeight p (u.coreIns is) = [] := by
  rw [← hR.emits_acceptedWeight (by decide) hl, emits_acceptedWeight, List.map_eq_nil_iff]

/-- **Balance of rows**: every accepted row is in the core, has words in the stream
controller or is sent. -/
theorem balance (hR : Refines u.core p) (hrows : p.rows = []) (hwf : u.stream.Wf)
    (hpending : u.stream.pendingWords = [])
    (hl : Always SystolicCore.step Refines.Lockstep u.core (u.coreIns is)) :
    4 * (emits step acceptedRowBeat u is).length =
      (emits step sentFlit u is).length + (run step u is).stream.pendingWords.length +
        4 * (run RowPipe.step p (u.coreIns is)).rows.length := by
  have haccepted := congrArg List.length (emits_acceptedRow u is)
  have hwords := congrArg List.length (words_run hwf is)
  rw [List.length_map, List.length_map, hR.length_acceptedRow (by decide) hrows hl] at haccepted
  rw [hpending, List.nil_append, length_flatMap_rowWords, List.length_append, emits_sentWord,
    List.length_map] at hwords
  omega

/-! ## when the unit is empty -/

/-- No weight beat is accepted in the last `d` cycles of the run. -/
def NoWeightFor (d : Nat) (u : NpuUnit) (is : List In) : Prop :=
  ∀ as bs, is = as ++ bs → bs.length ≤ d →
    emits step acceptedWeightBeat (run step u as) bs = []

/-- Cycles without a beat accept no weight beat. -/
theorem noWeightFor_append_idle (before : List In) {gap : List In} {d : Nat}
    (hgap : ∀ i ∈ gap, i.stSinkValid = false) (hd : d ≤ gap.length) :
    u.NoWeightFor d (before ++ gap) := by
  intro as bs hsplit hbs
  have hsuffix : bs <:+ gap := by
    have hlen := congrArg List.length hsplit
    rw [List.length_append, List.length_append] at hlen
    exact List.suffix_of_suffix_length_le ⟨as, hsplit.symm⟩ (List.suffix_append before gap) (by omega)
  have hidle : ∀ i ∈ bs, i.stSinkValid = false := fun i hi => hgap i (hsuffix.subset hi)
  obtain ⟨v, hv⟩ : ∃ v, v = run step u as := ⟨_, rfl⟩
  rw [← hv]
  clear hsplit hbs hsuffix hv
  induction bs generalizing v with
  | nil => rfl
  | cons i bs ih =>
      have hnone : v.acceptedWeightBeat i = [] := by
        rw [acceptedWeightBeat, hidle i List.mem_cons_self]
        rfl
      rw [emits_cons, hnone, ih (fun j hj => hidle j (List.mem_cons_of_mem i hj))]
      rfl

/-- A pipeline without weight beats, fed without weight beats for `d` cycles at the end of the
run, is quiet for as long. -/
theorem quietFor_of_noWeightFor {d : Nat} (hR : Refines u.core p) (hquiet : p.QuietFor d)
    (hflow : Refines.Flowing u.core p (u.coreIns is)) (hnone : u.NoWeightFor d is) :
    (run RowPipe.step p (u.coreIns is)).QuietFor d := by
  rcases Nat.lt_or_ge is.length d with hshort | hlong
  · -- the run is too short for a weight beat from before it
    have hidle := hnone [] is rfl hshort.le
    rw [run_nil, acceptedWeightBeat_eq_nil_iff hR hflow.lockstep] at hidle
    have hrun := hquiet.run hflow.flows hidle
    exact fun s hs => hrun s (Nat.lt_add_right _ hs)
  · obtain ⟨as, bs, rfl, hbs⟩ : ∃ as bs, is = as ++ bs ∧ bs.length = d :=
      ⟨_, _, (List.take_append_drop (is.length - d) is).symm, by rw [List.length_drop]; omega⟩
    have hlen : ((run step u as).coreIns bs).length = d := by rw [coreIns, length_fed, hbs]
    have hidle : emits SystolicCore.step SystolicCore.acceptedWeight
        (run SystolicCore.step u.core (u.coreIns as)) ((run step u as).coreIns bs) = [] := by
      rw [← run_core, emits_acceptedWeight, hnone as bs rfl hbs.le]
      rfl
    rw [coreIns_append] at hflow ⊢
    exact hlen ▸ hR.quietFor_append (by decide) hflow hidle

/-- The pipeline is without weight beats iff the last `2 * 8 - 1` cycles accepted none. -/
theorem noWeightFor_iff (hR : Refines u.core p) (hquiet : p.QuietFor 15)
    (hflow : Refines.Flowing u.core p (u.coreIns is)) :
    u.NoWeightFor 15 is ↔ (run RowPipe.step p (u.coreIns is)).QuietFor 15 := by
  constructor
  · exact quietFor_of_noWeightFor hR hquiet hflow
  · rintro hq as bs rfl hlen
    rw [coreIns_append, Refines.flowing_append] at hflow
    rw [coreIns_append, run_append] at hq
    have hlen' : ((run step u as).coreIns bs).length ≤ 2 * 8 - 1 := by
      rw [coreIns, length_fed]
      exact hlen
    have hRa : Refines (run step u as).core (run RowPipe.step p (u.coreIns as)) := by
      rw [run_core]
      exact hR.run hflow.1.lockstep
    rw [acceptedWeightBeat_eq_nil_iff hRa (by rw [run_core]; exact hflow.2.lockstep)]
    exact RowPipe.acceptedWeight_of_quiet hflow.2.flows hq hlen'

/-- **Empty, seen from the ports**: the last weight beat was accepted more than 15 cycles ago
and four flits are sent for every accepted row. -/
theorem empty_run_iff (h : u.Empty) (hwf : u.stream.Wf) (hR : Refines u.core p)
    (hflow : Refines.Flowing u.core p (u.coreIns is)) :
    (run step u is).Empty ↔
      u.NoWeightFor 15 is ∧
        (emits step sentFlit u is).length = 4 * (emits step acceptedRowBeat u is).length := by
  obtain ⟨hrows, hquiet⟩ := RowPipe.stage_none_iff.mp (hR.drained_iff.mp h.drained)
  have hR' : Refines (run step u is).core (run RowPipe.step p (u.coreIns is)) := by
    rw [run_core]
    exact hR.run hflow.lockstep
  have hwf' := wf_run hwf is
  have hbalance := balance hR hrows hwf (h.pendingWords hwf) hflow.lockstep
  rw [noWeightFor_iff hR hquiet hflow]
  constructor
  · intro he
    obtain ⟨hnorows, hq⟩ := RowPipe.stage_none_iff.mp (hR'.drained_iff.mp he.drained)
    rw [he.pendingWords hwf', hnorows, List.length_nil, List.length_nil] at hbalance
    exact ⟨hq, by omega⟩
  · rintro ⟨hq, hsent⟩
    have hwords : (run step u is).stream.pendingWords = [] :=
      List.length_eq_zero_iff.mp (by omega)
    have hnorows : (run RowPipe.step p (u.coreIns is)).rows = [] :=
      List.length_eq_zero_iff.mp (by omega)
    obtain ⟨hfifo, hserializer⟩ := (StreamCtrl.pendingWords_eq_nil_iff hwf').mp hwords
    exact ⟨hR'.drained_iff.mpr (RowPipe.stage_none_iff.mpr ⟨hnorows, hq⟩), hfifo, hserializer⟩

end NpuUnit

end Npu
