import Npu.UnitDrain
import Npu.UnitRefines

/-!
# Npu.UnitOwes

The unit as its surroundings see it.  `Owes u a d ws b`: the unit `u` stands for the accelerator
`a`, no weight beat was accepted in the last `d` cycles, `ws` are the words still to come for the
rows accepted so far, and `b` bounds its rank.

`Owes.step` says all that a cycle does to these four: the accelerator takes the commands of the
cycle, words are owed for its answers and sent from the front, and with a ready source the
bound falls, but for an accepted beat.
-/

namespace Npu

open Lanes Machine

/-! ## ranks with beats -/

namespace RowPipe

variable (p : RowPipe n dw aw) (inp : SystolicCore.In dw aw)

/-- A beat is accepted. -/
def accepts : Bool := inp.validIn && p.freeAt inp 0

theorem cost_beat_le (hn : 0 < n) :
    (if p.freeAt inp 0 then beat inp else none : Option (Token dw aw)).elim 0 (Token.cost n 0) ≤
      (2 * n + 5) * (p.accepts inp).toNat := by
  rw [beat, accepts]
  cases p.freeAt inp 0 <;> cases inp.validIn <;> cases inp.loadWeightIn 0 <;>
    simp only [Bool.false_eq_true, if_true, if_false, Bool.and_true, Bool.and_false, Bool.and_self,
      Bool.toNat_true, Bool.toNat_false, Option.elim_none, Option.elim_some, Token.cost] <;> omega

/-- What leaves takes its price along, what is accepted brings its own. -/
theorem rank_step_le (hn : 0 < n) :
    (p.step inp).rank + 6 * (p.takenRow inp).length ≤
      p.rank + (2 * n + 5) * (p.accepts inp).toNat := by
  have hle := Elastic.potential_advance_le (cost_enter_le p inp) (p.out inp) (beat inp) p.stages
  have hcost := cost_beat_le p inp hn
  have hfree : Elastic.free (p.out inp) p.stages = p.freeAt inp 0 := rfl
  have hrank : (p.step inp).rank = Elastic.potential (Token.cost n)
      (Elastic.advance (p.enter inp) (p.out inp) (beat inp) p.stages) := rfl
  have hdep : 6 * (p.takenRow inp).length ≤
      (Elastic.departing (p.out inp) (beat inp) p.stages).elim 0 (Token.cost n p.stages.length) := by
    rw [takenRow]
    cases hv : p.validOut with
    | false => exact Nat.zero_le _
    | true =>
        cases hr : inp.readyIn with
        | false => exact Nat.zero_le _
        | true =>
            obtain ⟨x, b, y, hstage⟩ := isAct_iff.mp hv
            have hlen : p.stages.length = 2 * n - 2 + 1 := by rw [p.length_stages]; omega
            have hfinal : Elastic.final (beat inp) p.stages = some (.act x b y) := by
              rw [Elastic.final, hlen]
              exact hstage
            have hout : p.out inp = true := by rw [out, hr, Bool.or_true]
            rw [Elastic.departing, hout, if_pos rfl, hfinal]
            exact Nat.le_add_left 6 _
  rw [hfree] at hle
  rw [hrank, rank]
  omega

variable {p inp}

theorem freeAt_zero_of_ready (hr : inp.readyIn = true) : p.freeAt inp 0 = true := by
  have hout : p.out inp = true := by rw [out, hr, Bool.or_true]
  have hfree : p.freeAt inp 0 = Elastic.free (p.out inp) p.stages := rfl
  rw [hfree, hout, Elastic.free_eq, Bool.or_true]

/-- With a ready output the rank falls, but for an accepted beat. -/
theorem rank_step_of_ready (hn : 0 < n) (hr : inp.readyIn = true) :
    (p.step inp).rank ≤ p.rank - 1 + (2 * n + 6) * (p.accepts inp).toNat := by
  have hout : p.out inp = true := by rw [out, hr, Bool.or_true]
  have hlt := Elastic.potential_advance_lt (f := p.enter inp) (beat inp) p.stages
    (fun s t hs => cost_enter_lt p inp (by rwa [p.length_stages] at hs) t)
    (fun t => Token.cost_pos n _ t)
  have hcost := cost_beat_le p inp hn
  rw [if_pos (freeAt_zero_of_ready hr)] at hcost
  have hzero : p.rank = 0 ↔ Elastic.tokens p.stages = [] :=
    Elastic.potential_eq_zero_iff (Token.cost_pos n)
  rw [← List.length_eq_zero_iff] at hzero
  have hrank : (p.step inp).rank = Elastic.potential (Token.cost n)
      (Elastic.advance (p.enter inp) true (beat inp) p.stages) := by
    rw [rank, step_stages, hout]
  have hpot : Elastic.potential (Token.cost n) p.stages = p.rank := rfl
  have hsplit : (2 * n + 6) * (p.accepts inp).toNat =
      (2 * n + 5) * (p.accepts inp).toNat + (p.accepts inp).toNat := by
    rw [← Nat.succ_mul]
  rw [hrank, hsplit]
  cases hv : p.accepts inp with
  | false =>
      rw [hv] at hcost
      simp only [Bool.toNat_false, Nat.mul_zero] at hcost ⊢
      omega
  | true =>
      rw [hv] at hcost
      simp only [Bool.toNat_true, Nat.mul_one] at hcost ⊢
      omega

end RowPipe

namespace StreamCtrl

variable {c : StreamCtrl} {inp : In}

theorem txRank_txStep_le (h : c.Wf) (inp : In) : (c.txStep inp).txRank ≤ c.txRank + 4 * (c.fifoPop inp).toNat := by
  cases hactive : c.txActive with
  | false => cases hempty : c.fifoEmpty <;> simp [txStep, txRank, fifoPop, hactive, hempty]
  | true =>
      cases hready : inp.stSourceReady with
      | false =>
          rw [txStep_of_held h (by rw [stSourceValid, h.sending, hactive]) hready]
          exact Nat.le_add_right _ _
      | true =>
          have hlt := txRank_txStep h hready (.inl hactive)
          cases hpop : c.fifoPop inp <;> simp only [hpop, Bool.toNat_false, Bool.toNat_true] at hlt ⊢ <;>
            omega

/-- The rank rises only with a row that comes in. -/
theorem rank_step_le (h : c.Wf) (inp : In) :
    (c.step inp).rank ≤ c.rank + 5 * (c.fifoPush inp).toNat := by
  have hcount := toNat_fifoCount_step h inp
  have htx := txRank_txStep_le h inp
  have hstep : (c.step inp).txRank = (c.txStep inp).txRank := rfl
  rw [rank, rank, hstep]
  omega

/-- Nothing is pending iff there is nothing to do. -/
theorem rank_eq_zero_iff (h : c.Wf) : c.rank = 0 ↔ c.pendingWords = [] := by
  rw [pendingWords_eq_nil_iff h]
  refine ⟨idle_of_rank_eq_zero h, fun ⟨hfifo, hactive⟩ => ?_⟩
  simp [rank, txRank, hfifo, hactive]

end StreamCtrl

namespace RowUnit

variable {r : RowUnit} {inp : NpuUnit.In}

def accepts (r : RowUnit) (inp : NpuUnit.In) : Bool := r.pipe.accepts (r.coreIn inp)

theorem push_eq_taken (r : RowUnit) (inp : NpuUnit.In) :
    (r.stream.fifoPush (r.streamIn inp)).toNat = (r.pipe.takenRow (r.coreIn inp)).length := by
  show (r.pipe.validOut && !r.stream.fifoFull).toNat = _
  have hready : (r.coreIn inp).readyIn = !r.stream.fifoFull := rfl
  rw [RowPipe.takenRow, hready]
  cases r.pipe.validOut && !r.stream.fifoFull <;> rfl

theorem rank_step_le (h : r.stream.Wf) (inp : NpuUnit.In) :
    (r.step inp).rank ≤ r.rank + 22 * (r.accepts inp).toNat := by
  have hpipe := RowPipe.rank_step_le r.pipe (r.coreIn inp) (by decide)
  have hstream := StreamCtrl.rank_step_le h (r.streamIn inp)
  have hpush := push_eq_taken r inp
  have haccepts : r.accepts inp = r.pipe.accepts (r.coreIn inp) := rfl
  have hrank : (r.step inp).rank =
      (r.pipe.step (r.coreIn inp)).rank + (r.stream.step (r.streamIn inp)).rank := rfl
  rw [hrank, rank, haccepts]
  omega

/-- With a ready source, or nothing to send, the rank falls, but for an accepted beat. -/
theorem rank_step_of_source (h : r.stream.Wf)
    (hgo : inp.stSourceReady = true ∨ r.stream.rank = 0) :
    (r.step inp).rank ≤ r.rank - 1 + 22 * (r.accepts inp).toNat := by
  have hpipe := RowPipe.rank_step_le r.pipe (r.coreIn inp) (by decide)
  have hpush := push_eq_taken r inp
  have haccepts : r.accepts inp = r.pipe.accepts (r.coreIn inp) := rfl
  have hrank : (r.step inp).rank =
      (r.pipe.step (r.coreIn inp)).rank + (r.stream.step (r.streamIn inp)).rank := rfl
  rw [hrank, rank, haccepts]
  by_cases hidle : r.stream.rank = 0
  · -- an idle stream controller takes what the core has
    have hstream := StreamCtrl.rank_step_le h (r.streamIn inp)
    have hready : (r.coreIn inp).readyIn = true := by
      have hcount := (StreamCtrl.idle_of_rank_eq_zero h hidle).1
      show (!r.stream.fifoFull) = true
      rw [StreamCtrl.fifoFull, hcount]
      rfl
    have hmove := RowPipe.rank_step_of_ready (p := r.pipe) (by decide) hready
    cases hacc : r.pipe.accepts (r.coreIn inp) <;>
      simp only [hacc, Bool.toNat_false, Bool.toNat_true] at hpipe hmove ⊢ <;> omega
  · have hsource : (r.streamIn inp).stSourceReady = true := hgo.resolve_right hidle
    have hstream := StreamCtrl.rank_step h hsource
    cases hacc : r.pipe.accepts (r.coreIn inp) <;>
      simp only [hacc, Bool.toNat_false, Bool.toNat_true] at hpipe ⊢ <;> omega

/-- **The row unit drains**, whatever the back-pressure: it takes 344 cycles with a ready source. -/
theorem empty_of_ready {is : List NpuUnit.In} (h : r.stream.Wf)
    (his : ∀ i ∈ is, i.stSinkValid = false) (hcount : 344 ≤ is.countP NpuUnit.In.stSourceReady) :
    (run RowUnit.step r is).Empty := by
  let Inv : Nat → RowUnit → Prop := fun B r => r.stream.Wf ∧ r.rank ≤ B
  have hstep : ∀ B (r : RowUnit) (i : NpuUnit.In), Inv B r → i.stSinkValid = false →
      Inv (B - i.stSourceReady.toNat) (r.step i) := by
    rintro B r i ⟨hr, hB⟩ hi
    have hacc : r.accepts i = false := by
      have hv : (r.coreIn i).validIn = false := hi
      rw [accepts, RowPipe.accepts, hv, Bool.false_and]
    refine ⟨hr.step, ?_⟩
    cases hready : i.stSourceReady with
    | false => exact le_trans (by simpa [hacc] using rank_step_le hr i) hB
    | true =>
        have hfall := rank_step_of_source hr (.inl hready)
        rw [hacc, Bool.toNat_false, Nat.mul_zero, Nat.add_zero] at hfall
        rw [Bool.toNat_true]
        omega
  have hAlways : Always RowUnit.step (fun _ i => i.stSinkValid = false) r is :=
    always_of_forall_mem his
  obtain ⟨hwf, hrank⟩ := countdown_run hstep ⟨h, rank_le h⟩ hAlways
  rw [count_input] at hrank
  exact empty_of_rank_eq_zero hwf (by omega)

end RowUnit

/-- An empty unit has an empty row unit. -/
theorem NpuUnit.Empty.exists_rowUnit {u : NpuUnit} (h : u.Empty) :
    ∃ r, Simulates u r ∧ r.pipe.Ordered ∧ r.pipe.rows = [] := by
  obtain ⟨p, history, hR, hload, -, hrows⟩ := Refines.exists_loaded h.drained
  exact ⟨⟨u.ctrl, u.stream, p, u.macPe⟩, ⟨rfl, rfl, rfl, hR⟩, hload.ordered, hrows⟩

/-! ## what is owed -/

namespace NpuUnit

/-- From an empty unit, cycles that keep loading and computing apart and then enough of them with a
ready source and without a beat leave it empty again. -/
theorem Empty.empty_of_ready {u : NpuUnit} (h : u.Empty) (hwf : u.stream.Wf) {is js : List In}
    (hapart : Always step LoadsApart u is) (hjs : ∀ i ∈ js, i.stSinkValid = false)
    (hcount : 344 ≤ js.countP In.stSourceReady) : (run step u (is ++ js)).Empty := by
  obtain ⟨r, hsim, hordered, -⟩ := h.exists_rowUnit
  have hno := hsim.always_noOverrun hordered (always_append.mpr ⟨hapart, loadsApart_of_idle hjs⟩)
  have hmid := hsim.run (always_append.mp hno).1
  rw [(hsim.run hno).empty_iff, run_append]
  exact RowUnit.empty_of_ready (hmid.stream ▸ wf_run hwf is) hjs hcount

variable {u : NpuUnit} {inp : In} {a : Accelerator 8 (BitVec 8)} {d b : Nat} {ws : List (BitVec 64)}

/-- A beat is transferred at the sink. -/
def accepts (u : NpuUnit) (inp : In) : Bool := inp.stSinkValid && u.stSinkReady inp

/-- As long as loading and computing are kept apart, the unit accepts what its row pipeline does. -/
theorem accepts_eq {p : RowPipe 8 8 32} (hR : Refines u.core p) (ho : p.Ordered)
    (h : u.LoadsApart inp) : u.accepts inp = p.accepts (u.coreIn inp) := by
  have hclear := (p.clearFrom_zero _).mpr
    (RowPipe.not_overruns_of_apart ho (hR.weightsApart (weightsApart_coreIn h)))
  have hready := hR.readyOut_eq (by decide) uniform_coreIn hclear
  rw [accepts, RowPipe.accepts, stSinkReady, StreamCtrl.stSinkReady, hready, RowPipe.readyOut,
    coreIn_validIn]
  cases inp.stSinkValid <;> rfl

/-- The unit stands for the accelerator `a`, has accepted no weight beat for `d` cycles, owes the
words `ws` and has at most rank `b`. -/
def Owes (u : NpuUnit) (a : Accelerator 8 (BitVec 8)) (d : Nat) (ws : List (BitVec 64)) (b : Nat) :
    Prop :=
  u.stream.Wf ∧ ∃ p history, Tracks u p history a ∧ p.QuietFor d ∧
    ws = u.stream.pendingWords ++ (p.results (weightsOf a.matrix)).flatMap rowWords ∧
      p.rank + u.stream.rank ≤ b

/-- What a cycle has to respect: a weight beat is presented only when nothing is owed; so is a
latch pulse, with no row presented and no weight beat accepted in the last 14 cycles. -/
structure Respects (u : NpuUnit) (inp : In) (d : Nat) (ws : List (BitVec 64)) : Prop where
  load : inp.stSinkValid = true → u.ctrl.seqMode.getLsbD 0 = true → ws = []
  latch : u.ctrl.weightLatchEn = true → ws = [] ∧ u.acceptedRowBeat inp = [] ∧ 14 ≤ d

theorem owes_reset (outFifo : BitVec 3 → BitVec 256) (d : Nat) :
    (reset outFifo).Owes .init d [] 344 := by
  have hwf := StreamCtrl.wf_reset outFifo
  refine ⟨hwf, _, _, tracks_reset outFifo, fun s _ _ => by simp, ?_,
    RowUnit.rank_le (r := RowUnit.reset outFifo) hwf⟩
  have hresults : (RowPipe.empty 8 32 (fun _ _ => (0 : BitVec 8)) fun _ _ => 0).results
      (weightsOf Accelerator.init.matrix) = [] := by
    rw [← List.length_eq_zero_iff, RowPipe.length_results, RowPipe.rows_empty, List.length_nil]
  rw [hresults, (empty_reset outFifo).pendingWords hwf]
  rfl

/-- No more than 344 in any case. -/
theorem Owes.le_344 (h : u.Owes a d ws b) : u.Owes a d ws 344 := by
  obtain ⟨hwf, p, history, htracks, hquiet, hws, -⟩ := h
  exact ⟨hwf, p, history, htracks, hquiet, hws,
    RowUnit.rank_le (r := ⟨u.ctrl, u.stream, p, u.macPe⟩) hwf⟩

theorem Owes.wf (h : u.Owes a d ws b) : u.stream.Wf := h.1

/-- Nothing owed, nothing to send. -/
theorem Owes.pendingWords_eq_nil (h : u.Owes a d [] b) : u.stream.pendingWords = [] := by
  obtain ⟨-, p, history, -, -, hws, -⟩ := h
  exact (List.append_eq_nil_iff.mp hws.symm).1

/-- **One cycle.** -/
theorem Owes.step (h : u.Owes a d ws b) (inp : In) (hin : u.Respects inp d ws) :
    ∃ ws', (u.step inp).Owes (run Accelerator.step a (u.commands inp))
        (if u.accepts inp then 0 else d + 1) ws'
        ((if inp.stSourceReady = true ∨ ws = [] then b - 1 else b) + 22 * (u.accepts inp).toNat) ∧
      ws ++ (emits Accelerator.step answers a (u.commands inp)).flatMap rowWords =
        u.sentWord inp ++ ws' := by
  obtain ⟨hwf, p, history, htracks, hquiet, hws, hrank⟩ := h
  have hrows : ws = [] → ¬ u.core.HoldsRow := by
    intro hnil hrow
    rw [hnil, eq_comm, List.append_eq_nil_iff] at hws
    obtain ⟨s, hs, hact⟩ := htracks.refines.holdsRow_iff.mp hrow
    have hpos := RowPipe.rows_pos_of_isAct hs hact
    have hlen := congrArg List.length hws.2
    rw [length_flatMap_rowWords, RowPipe.length_results, List.length_nil] at hlen
    omega
  have hapart : u.LoadsApart inp := fun hv hmode => hrows (hin.load hv hmode)
  have hsettled : u.ctrl.weightLatchEn = true → u.Settled inp p := fun hen =>
    have ⟨hnil, hrow, hd⟩ := hin.latch hen
    ⟨hrows hnil, hrow, fun s hs => hquiet s (by omega)⟩
  obtain ⟨htracks', hresults⟩ := htracks.step hapart hsettled
  have hw := weightsApart_coreIn hapart
  have hpipe := htracks.refines.weightsApart hw
  have haccepts := accepts_eq htracks.refines htracks.loaded.ordered hapart
  obtain ⟨r, hr⟩ : ∃ r, r = RowUnit.mk u.ctrl u.stream p u.macPe := ⟨_, rfl⟩
  have hsim : Simulates u r := hr ▸ ⟨rfl, rfl, rfl, htracks.refines⟩
  have hcore : r.coreIn inp = u.coreIn inp := hsim.coreIn_eq.symm
  have hstep : (r.step inp).rank =
      (p.step (u.coreIn inp)).rank + (u.stream.step (u.streamIn inp)).rank := by
    rw [hsim.stream_step_eq, ← hcore, hr]
    rfl
  have hstream : r.stream.Wf := hr ▸ hwf
  have hacc : r.accepts inp = u.accepts inp := by
    rw [haccepts, RowUnit.accepts, hcore, hr]
  have hb : r.rank ≤ b := hr ▸ hrank
  refine ⟨_, ⟨hwf.step, _, _, htracks', ?_, rfl, ?_⟩, ?_⟩
  · cases haccept : u.accepts inp with
    | true => exact fun s hs => absurd hs (Nat.not_lt_zero s)
    | false =>
        refine hquiet.step htracks.loaded.ordered.flows ?_
        rw [← htracks.refines.acceptedWeight_eq (by decide)
          (htracks.refines.lockstep_of_apart htracks.loaded.ordered hw), acceptedWeight_core,
          acceptedWeightBeat, ← accepts, haccept]
        rfl
  · rw [← hacc]
    refine hstep.symm.le.trans ?_
    split
    · have hgo : inp.stSourceReady = true ∨ r.stream.rank = 0 := by
        rename_i hgo
        refine hgo.imp_right fun hnil => ?_
        rw [hnil, eq_comm, List.append_eq_nil_iff] at hws
        rw [hr]
        exact (StreamCtrl.rank_eq_zero_iff hwf).mpr hws.1
      have hfall := RowUnit.rank_step_of_source hstream hgo
      omega
    · have hle := RowUnit.rank_step_le hstream inp
      omega
  · have hpending := StreamCtrl.pendingWords_step hwf (u.streamIn inp)
    rw [takenRow_stream, List.flatMap_map] at hpending
    simp only [words_packRow] at hpending
    have hwords := congrArg (List.flatMap rowWords) hresults
    rw [List.flatMap_append, List.flatMap_append] at hwords
    rw [hws, List.append_assoc, hwords, ← List.append_assoc, hpending, List.append_assoc]
    rfl

/-- A unit of rank 0 owes nothing and accepts every beat. -/
theorem Owes.of_rank_zero (h : u.Owes a d ws 0) (inp : In) : ws = [] ∧ u.accepts inp = inp.stSinkValid := by
  obtain ⟨hwf, p, history, htracks, -, hws, hrank⟩ := h
  obtain ⟨hpipe, hstream⟩ := Nat.add_eq_zero_iff.mp (Nat.le_zero.mp hrank)
  have hnone : ∀ s, s < 2 * 8 - 1 → p.stage s = none := fun s _ =>
    RowPipe.stage_of_rank_eq_zero hpipe s
  have hrows : (p.results (weightsOf a.matrix)) = [] := by
    rw [← List.length_eq_zero_iff, RowPipe.length_results, RowPipe.rows_of_none hnone,
      List.length_nil]
  constructor
  · rw [hws, hrows, (StreamCtrl.rank_eq_zero_iff hwf).mp hstream]
    rfl
  · have hapart : u.LoadsApart inp := fun _ _ hrow => by
      obtain ⟨s, hs, hact⟩ := htracks.refines.holdsRow_iff.mp hrow
      rw [hnone s hs] at hact
      cases hact
    rw [accepts_eq htracks.refines htracks.loaded.ordered hapart, RowPipe.accepts, coreIn_validIn,
      RowPipe.freeAt_of_isNone p _ (by decide) (hnone 0 (by decide)), Bool.and_true]

end NpuUnit

end Npu
