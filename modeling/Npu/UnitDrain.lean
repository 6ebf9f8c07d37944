import Npu.UnitOverlap

/-!
# Npu.UnitDrain

The unit always drains: once no beat comes in and the source is ready, every cycle lowers a
rank of the unit until it is 0, and then the unit is empty (`unit_drains`).

The rank prices what is still to be done: a token of the row pipeline by the stages ahead of it
(`Token.cost`), a row also by its way through FIFO and serializer, which a row in the FIFO still
has to go.  In each cycle the serializer sends or reloads, or it is idle with an empty FIFO; in
that case the output of the core is ready and everything inside moves.
-/

namespace Npu

open Lanes Machine

/-! ## the pipeline -/

/-- What a token has to do from before stage `s`: its stages, and for a row one more than what it
costs in the FIFO. -/
def Token.cost (n s : Nat) : Token dw aw → Nat
  | .act .. => 2 * n - 1 - s + 6
  | .wt _ => 2 * n - 1 - s + 1

theorem Token.cost_pos (n s : Nat) (t : Token dw aw) : 0 < t.cost n s := by
  cases t <;> exact Nat.succ_pos _

namespace RowPipe

variable (p : RowPipe n dw aw) (inp : SystolicCore.In dw aw)

def rank : Nat := Elastic.potential (Token.cost n) p.stages

theorem cost_enter_le (s : Nat) (t : Token dw aw) :
    (p.enter inp s t).cost n (s + 1) ≤ t.cost n s := by
  cases t <;> simp only [enter, Token.cost] <;> omega

theorem cost_enter_lt {s : Nat} (hs : s < 2 * n - 1) (t : Token dw aw) :
    (p.enter inp s t).cost n (s + 1) < t.cost n s := by
  cases t <;> simp only [enter, Token.cost] <;> omega

variable {p inp}

/-- A row that leaves takes its price along. -/
theorem rank_step_taken (hn : 0 < n) (hv : inp.validIn = false) :
    (p.step inp).rank + 6 * (p.takenRow inp).length ≤ p.rank := by
  have hbeat : beat inp = (none : Option (Token dw aw)) := by rw [beat, hv]; rfl
  have hle := Elastic.potential_advance_le (cost_enter_le p inp) (p.out inp) none p.stages
  have hrank : (p.step inp).rank =
      Elastic.potential (Token.cost n) (Elastic.advance (p.enter inp) (p.out inp) none p.stages) := by
    rw [rank, step_stages, hbeat]
  have hdep : 6 * (p.takenRow inp).length ≤
      (Elastic.departing (p.out inp) none p.stages).elim 0 (Token.cost n p.stages.length) := by
    rw [takenRow]
    cases hv : p.validOut with
    | false => exact Nat.zero_le _
    | true =>
        cases hr : inp.readyIn with
        | false => exact Nat.zero_le _
        | true =>
            obtain ⟨x, b, y, hstage⟩ := isAct_iff.mp hv
            have hlen : p.stages.length = 2 * n - 2 + 1 := by rw [p.length_stages]; omega
            have hfinal : Elastic.final none p.stages = some (.act x b y) := by
              rw [Elastic.final, hlen]
              exact hstage
            have hout : p.out inp = true := by rw [out, hr, Bool.or_true]
            rw [Elastic.departing, hout, if_pos rfl, hfinal]
            exact Nat.le_add_left 6 _
  rw [ite_self, Option.elim_none] at hle
  rw [hrank, rank]
  omega

/-- With a ready output the rank falls. -/
theorem rank_step_ready (hv : inp.validIn = false) (hr : inp.readyIn = true) :
    (p.step inp).rank ≤ p.rank - 1 := by
  have hbeat : beat inp = (none : Option (Token dw aw)) := by rw [beat, hv]; rfl
  have hout : p.out inp = true := by rw [out, hr, Bool.or_true]
  have hlt := Elastic.potential_advance_lt (f := p.enter inp) none p.stages
    (fun s t hs => cost_enter_lt p inp (by rwa [p.length_stages] at hs) t)
    (fun t => Token.cost_pos n _ t)
  have hzero : p.rank = 0 ↔ Elastic.tokens p.stages = [] :=
    Elastic.potential_eq_zero_iff (Token.cost_pos n)
  rw [← List.length_eq_zero_iff] at hzero
  have hrank : (p.step inp).rank =
      Elastic.potential (Token.cost n) (Elastic.advance (p.enter inp) true none p.stages) := by
    rw [rank, step_stages, hbeat, hout]
  simp only [Option.toList_none, List.length_nil, Option.elim_none] at hlt
  change _ ≤ p.rank + 0 at hlt
  rw [hrank]
  omega

theorem stage_of_rank_eq_zero (h : p.rank = 0) (s : Nat) : p.stage s = none := by
  have htokens := (Elastic.potential_eq_zero_iff (Token.cost_pos n)).mp h
  rcases hstage : p.stage s with _ | t
  · rfl
  · have hmem : some t ∈ p.stages := by
      rw [stage, List.getD_eq_getElem?_getD] at hstage
      rcases hget : p.stages[s]? with _ | o
      · simp [hget] at hstage
      · rw [hget, Option.getD_some] at hstage
        rw [← hstage]
        exact List.mem_of_getElem? hget
    rw [← Elastic.mem_tokens, htokens] at hmem
    cases hmem

end RowPipe

/-! ## FIFO and serializer -/

namespace StreamCtrl

variable {c : StreamCtrl} {inp : In}

/-- The flits that the serializer still has to send. -/
def txRank (c : StreamCtrl) : Nat := if c.txActive then 4 - c.txCount.toNat else 0

/-- Every row in the FIFO has its four flits and the reload before it. -/
def rank (c : StreamCtrl) : Nat := 5 * c.fifoCount.toNat + c.txRank

/-- With a ready source the serializer sends a flit or takes a row from the FIFO, unless there
is none. -/
theorem txRank_txStep (h : c.Wf) (hready : inp.stSourceReady = true)
    (hbusy : c.txActive = true ∨ c.fifoEmpty = false) :
    (c.txStep inp).txRank + 1 ≤ c.txRank + 5 * (c.fifoPop inp).toNat := by
  have hflit := h.flit
  unfold txRank
  cases hactive : c.txActive with
  | false =>
      have hempty : c.fifoEmpty = false := by simpa [hactive] using hbusy
      simp [txStep, fifoPop, hactive, hempty]
  | true =>
      have hsending : c.txSendingFlit = true := by rw [h.sending, hactive]
      by_cases hlast : c.txCount = 3
      · have hthree : c.txCount.toNat = 3 := by rw [hlast]; rfl
        cases hempty : c.fifoEmpty <;>
          simp [txStep, fifoPop, hactive, hready, hsending, hlast, hempty]
      · have hnot : (c.txCount == 3) = false := by simpa using hlast
        obtain ⟨hlt, hnext⟩ := toNat_txCount_succ h hnot
        simp only [txStep, fifoPop, hactive, hready, hsending, hnot, hnext, Bool.not_true,
          Bool.false_eq_true, if_false, if_true, Bool.and_self, Bool.and_false, Bool.false_and,
          Bool.or_self, Bool.toNat_false]
        omega

/-- With a ready source the rank falls, but for a row that comes in. -/
theorem rank_step (h : c.Wf) (hready : inp.stSourceReady = true) :
    (c.step inp).rank ≤ c.rank - 1 + 5 * (c.fifoPush inp).toNat := by
  have hcount := toNat_fifoCount_step h inp
  have htx : (c.step inp).txRank = (c.txStep inp).txRank := rfl
  unfold rank
  rw [htx]
  by_cases hbusy : c.txActive = true ∨ c.fifoEmpty = false
  · have hstep := txRank_txStep h hready hbusy
    omega
  · -- nothing to send
    simp only [not_or, Bool.not_eq_true, Bool.not_eq_false] at hbusy
    obtain ⟨hactive, hempty⟩ := hbusy
    have hidle : (c.txStep inp).txRank = 0 := by simp [txStep, txRank, hactive, hempty]
    have hpop : c.fifoPop inp = false := by simp [fifoPop, hactive, hempty]
    have hzero : c.txRank = 0 := by simp [txRank, hactive]
    rw [fifoEmpty_eq, decide_eq_true_iff] at hempty
    rw [hpop, Bool.toNat_false] at hcount
    omega

theorem idle_of_rank_eq_zero (h : c.Wf) (hrank : c.rank = 0) :
    c.fifoCount = 0 ∧ c.txActive = false := by
  have hflit := h.flit
  have hcount : c.fifoCount = 0 ↔ c.fifoCount.toNat = 0 := BitVec.toNat_eq
  rw [hcount]
  unfold rank txRank at hrank
  cases hactive : c.txActive with
  | false => exact ⟨by omega, rfl⟩
  | true =>
      rw [hactive, if_pos rfl] at hrank
      omega

end StreamCtrl

/-! ## the unit -/

/-- A cycle without a beat and with a ready source. -/
structure NpuUnit.In.Drains (inp : NpuUnit.In) : Prop where
  sink : inp.stSinkValid = false
  source : inp.stSourceReady = true

namespace RowUnit

variable {r : RowUnit} {inp : NpuUnit.In} {is : List NpuUnit.In}

def rank (r : RowUnit) : Nat := r.pipe.rank + r.stream.rank

theorem rank_step (h : r.stream.Wf) (hi : inp.Drains) : (r.step inp).rank ≤ r.rank - 1 := by
  have hv : (r.coreIn inp).validIn = false := hi.sink
  have hsource : (r.streamIn inp).stSourceReady = true := hi.source
  have hstream := StreamCtrl.rank_step h hsource
  have htaken := RowPipe.rank_step_taken (p := r.pipe) (by decide) hv
  have hpush : (r.stream.fifoPush (r.streamIn inp)).toNat =
      (r.pipe.takenRow (r.coreIn inp)).length := by
    show (r.pipe.validOut && !r.stream.fifoFull).toNat = _
    have hready : (r.coreIn inp).readyIn = !r.stream.fifoFull := rfl
    rw [RowPipe.takenRow, hready]
    cases r.pipe.validOut && !r.stream.fifoFull <;> rfl
  have hrank : (r.step inp).rank =
      (r.pipe.step (r.coreIn inp)).rank + (r.stream.step (r.streamIn inp)).rank := rfl
  rw [hrank, rank]
  by_cases hidle : r.stream.rank = 0
  · -- an idle stream controller takes what the core has
    have hready : (r.coreIn inp).readyIn = true := by
      have hcount := (StreamCtrl.idle_of_rank_eq_zero h hidle).1
      show (!r.stream.fifoFull) = true
      rw [StreamCtrl.fifoFull, hcount]
      rfl
    have hmove := RowPipe.rank_step_ready (p := r.pipe) hv hready
    omega
  · omega

theorem empty_of_rank_eq_zero (h : r.stream.Wf) (hrank : r.rank = 0) : r.Empty := by
  rw [rank, Nat.add_eq_zero_iff] at hrank
  have hstage : ∀ s < 2 * 8 - 1, (r.pipe.stage s).isNone = true := by
    intro s hs
    rw [RowPipe.stage_of_rank_eq_zero hrank.1 s]
    rfl
  exact ⟨hstage, StreamCtrl.idle_of_rank_eq_zero h hrank.2⟩

/-- Fifteen tokens in the core, eight rows in the FIFO, one in the serializer. -/
theorem rank_le (h : r.stream.Wf) : r.rank ≤ 344 := by
  have hbound : ∀ (s : Nat) (t : Token 8 32), t.cost 8 (s + 1) ≤ 20 := by
    intro s t
    cases t <;> simp only [Token.cost] <;> omega
  have hpipe := Elastic.potential_le hbound r.pipe.stages
  rw [r.pipe.length_stages] at hpipe
  have hstream : r.stream.rank ≤ 44 := by
    have hcount := h.count
    rw [StreamCtrl.rank, StreamCtrl.txRank]
    split <;> omega
  have hrank : r.pipe.rank ≤ (2 * 8 - 1) * 20 := hpipe
  rw [rank]
  omega

/-- **The row unit drains.** -/
theorem empty_of_drains (h : r.stream.Wf) (his : ∀ i ∈ is, i.Drains) (hlen : 344 ≤ is.length) :
    (run RowUnit.step r is).Empty := by
  let Inv : RowUnit → Prop := fun r => r.stream.Wf
  have hstep : ∀ (r : RowUnit) (i : NpuUnit.In), Inv r → i.Drains → Inv (r.step i) :=
    fun _ _ hr _ => hr.step
  have hAlways : Always RowUnit.step (fun _ i => i.Drains) r is := always_of_forall_mem his
  have hrank := rank_run hstep (fun _ _ hr hi => rank_step hr hi) h hAlways
  have hle := rank_le h
  exact empty_of_rank_eq_zero (run_invariant hstep h hAlways) (by omega)

end RowUnit

/-- While loading and computing are kept apart no weight beat overruns a row. -/
theorem Simulates.always_noOverrun {u : NpuUnit} {r : RowUnit} {is : List NpuUnit.In}
    (h : Simulates u r) (ho : r.pipe.Ordered) (his : Always NpuUnit.step NpuUnit.LoadsApart u is) :
    Always RowUnit.step RowUnit.NoOverrun r is := by
  induction is generalizing u r with
  | nil => trivial
  | cons i is ih =>
      have hap : r.pipe.WeightsApart (r.coreIn i) := by
        have hpipe := h.core.weightsApart (NpuUnit.weightsApart_coreIn his.1)
        rwa [h.coreIn_eq] at hpipe
      have hno : r.NoOverrun i := RowPipe.not_overruns_of_apart ho hap
      exact ⟨hno, ih (h.step hno) (RowPipe.ordered_step ho hap) his.2⟩

namespace RowPipe

variable (p : RowPipe n dw aw) (inp : SystolicCore.In dw aw)

/-- The row that leaves in this cycle: its lanes, and the sums it shows at the output. -/
def leavingSums : List ((Nat → BitVec dw) × (Fin n → BitVec aw)) :=
  (p.leaving inp).toList.filterMap fun t => t.lanes?.map fun x => (x, fun j => p.yOut j)

theorem leavingSums_fst :
    (p.leavingSums inp).map (·.1) = (p.leavingRow inp).map (·.1) := by
  rw [leavingSums, leavingRow]
  rcases p.leaving inp with _ | ⟨x, b, y⟩ | x <;> rfl

theorem leavingSums_snd : (p.leavingSums inp).map (·.2) = p.takenRow inp := by
  rw [leavingSums, leaving, takenRow]
  cases hv : p.validOut with
  | false => rfl
  | true =>
      obtain ⟨x, b, y, hstage⟩ := isAct_iff.mp hv
      cases inp.readyIn with
      | false => rfl
      | true => simp [hstage, Token.lanes?]

end RowPipe

namespace NpuUnit

variable {u : NpuUnit} {is : List In}

/-- Cycles without a beat keep loading and computing apart, and accept nothing. -/
theorem loadsApart_of_idle (his : ∀ i ∈ is, i.stSinkValid = false) :
    Always step LoadsApart u is := by
  have hsink : Always step (fun _ i => i.stSinkValid = false) u is := always_of_forall_mem his
  refine hsink.imp fun u i hi hv _ => ?_
  rw [hi] at hv
  cases hv

theorem acceptedRowBeat_of_idle (his : ∀ i ∈ is, i.stSinkValid = false) :
    emits step acceptedRowBeat u is = [] := by
  induction is generalizing u with
  | nil => rfl
  | cons i is ih =>
      have hi := his i List.mem_cons_self
      have hnone : u.acceptedRowBeat i = [] := by rw [acceptedRowBeat, hi]; rfl
      rw [emits_cons, hnone, ih fun j hj => his j (List.mem_cons_of_mem i hj)]
      rfl

end NpuUnit

/-- **The unit always drains**: after any run from reset that keeps loading and computing apart,
344 cycles without a beat and with a ready source, or more, leave the unit empty.  With the
rows that have left the row pipeline by then, with their lanes and sums,

* the flits sent before and since are the words of these rows, in order;
* they are the rows accepted before, each once and in order;
* their sums are the products of the rows accepted since the last latch. -/
theorem unit_drains (outFifo : BitVec 3 → BitVec 256) {before is : List NpuUnit.In}
    (hapart : Always NpuUnit.step NpuUnit.LoadsApart (NpuUnit.reset outFifo) before)
    (his : ∀ i ∈ is, i.Drains) (hlen : 344 ≤ is.length) :
    let u₀ := NpuUnit.reset outFifo
    let u := run NpuUnit.step u₀ before
    let rows := emits RowPipe.step RowPipe.leavingSums (RowUnit.reset outFifo).pipe
      (u₀.coreIns (before ++ is))
    (run NpuUnit.step u is).Empty ∧
      emits NpuUnit.step NpuUnit.sentWord u₀ before ++ emits NpuUnit.step NpuUnit.sentWord u is =
        (rows.map (·.2)).flatMap NpuUnit.rowWords ∧
      rows.map (·.1) = (emits NpuUnit.step NpuUnit.acceptedRowBeat u₀ before).map (lane 8) ∧
      ∀ a b, before ++ is = a ++ b →
        Always NpuUnit.step (fun u _ => u.ctrl.weightLatchEn = false) (run NpuUnit.step u₀ a) b →
        (rows.map (·.2)).drop (emits NpuUnit.step NpuUnit.acceptedRowBeat u₀ a).length =
          (emits NpuUnit.step NpuUnit.acceptedRowBeat (run NpuUnit.step u₀ a) b).map fun data =>
            product (fun i j => (run NpuUnit.step u₀ a).core.activeWeights i j) (lanes data) := by
  intro u₀ u rows
  have hsim : Simulates u₀ (RowUnit.reset outFifo) := Simulates.reset outFifo
  have hR := hsim.core
  have hwf : u₀.stream.Wf := StreamCtrl.wf_reset outFifo
  have hrows : (RowUnit.reset outFifo).pipe.rows = [] := RowPipe.rows_empty _ _
  have hno := hsim.always_noOverrun (RowPipe.loaded_empty fun _ _ => 0).ordered
    (always_append.mpr ⟨hapart, NpuUnit.loadsApart_of_idle fun i hi => (his i hi).sink⟩)
  have hdrops := hsim.always_not_drops hno
  have hl := NpuUnit.lockstep_of_not_drops hdrops
  -- nothing is left inside
  have hempty : (run NpuUnit.step u₀ (before ++ is)).Empty := by
    have hbefore := hsim.run (always_append.mp hno).1
    have hwf' : (run RowUnit.step (RowUnit.reset outFifo) before).stream.Wf := by
      rw [← hbefore.stream]
      exact NpuUnit.wf_run hwf before
    rw [(hsim.run hno).empty_iff, run_append]
    exact RowUnit.empty_of_drains hwf' his hlen
  have hsums : rows.map (·.2) =
      emits SystolicCore.step SystolicCore.takenRow u₀.core (u₀.coreIns (before ++ is)) := by
    rw [hR.emits_takenRow (by decide) hl, ← emits_map]
    exact congrArg (fun obs => emits RowPipe.step obs _ _) (funext₂ RowPipe.leavingSums_snd)
  refine ⟨?_, ?_, ?_, fun a b hab hlatch => ?_⟩
  · rw [run_append] at hempty
    exact hempty
  · have hwords := NpuUnit.words_run hwf (before ++ is)
    rw [(NpuUnit.empty_reset outFifo).pendingWords hwf, List.nil_append, emits_append,
      hempty.pendingWords (NpuUnit.wf_run hwf _), List.append_nil] at hwords
    rw [hsums, hwords]
  · have hlanes := RowPipe.lanes_run (by decide) hrows (u₀.coreIns (before ++ is))
    have hR' := hR.run hl
    rw [← NpuUnit.run_core] at hR'
    rw [(RowPipe.stage_none_iff.mp (hR'.drained_iff.mp hempty.drained)).1, List.append_nil,
      ← hR.emits_acceptedRow (by decide) hl, NpuUnit.emits_acceptedRow, emits_append,
      NpuUnit.acceptedRowBeat_of_idle (fun i hi => (his i hi).sink), List.append_nil] at hlanes
    rw [hlanes, ← emits_map, ← emits_map]
    exact congrArg (fun obs => emits RowPipe.step obs _ _) (funext₂ RowPipe.leavingSums_fst)
  · rw [hab] at hdrops hempty
    obtain ⟨old, hold, hall⟩ := NpuUnit.rows_of_not_drops hR hrows (fun _ _ => rfl) hlatch hdrops
    rw [NpuUnit.results_of_empty hR hdrops hempty, List.append_nil] at hall
    rw [hsums, hab, ← hall, ← hold, List.drop_left]

/-- One row, accepted while the source stalls: its four flits follow. -/
theorem unit_drains_oneRow :
    let u₀ := NpuUnit.reset fun _ => 0
    let is := List.replicate 344 (NpuUnit.In.idle true)
    let u := run NpuUnit.step u₀ [.beat 5 false]
    (run NpuUnit.step u is).Empty ∧ (emits NpuUnit.step NpuUnit.sentWord u is).length = 4 := by
  intro u₀ is u
  have hapart : Always NpuUnit.step NpuUnit.LoadsApart u₀ [.beat 5 false] := by decide +kernel
  have his : ∀ i ∈ is, i.Drains := by
    intro i hi
    rw [List.eq_of_mem_replicate hi]
    exact ⟨rfl, rfl⟩
  have hcycles : 344 ≤ is.length := List.length_replicate.ge
  obtain ⟨hempty, hsent, hrows, -⟩ := unit_drains (fun _ => 0) hapart his hcycles
  have haccepted : (emits NpuUnit.step NpuUnit.acceptedRowBeat u₀ [.beat 5 false]).length = 1 := by
    decide +kernel
  have hnone : emits NpuUnit.step NpuUnit.sentWord u₀ [.beat 5 false] = [] := by decide +kernel
  refine ⟨hempty, ?_⟩
  rw [hnone, List.nil_append] at hsent
  have hlen := congrArg List.length hrows
  rw [List.length_map, List.length_map, haccepted] at hlen
  rw [hsent, NpuUnit.length_flatMap_rowWords, List.length_map, hlen]

end Npu
