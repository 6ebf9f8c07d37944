import Mathlib.Algebra.BigOperators.Fin
import Mathlib.Algebra.Order.BigOperators.Group.Finset
import Npu.CoreJob
import Npu.RowUnit

/-!
# Npu.UnitJobs

What the unit is for: matrix products.  A job is an 8 × 8 matrix and rows; its inputs load
the matrix, wait, latch and stream the rows.  Whatever the idle cycles and the
back-pressure, the words sent are those of the products, job after job
(`unit_computes_jobs`).
-/

namespace Npu

open Lanes Machine

/-! ## products -/

/-- Column `j` of `x * W`, exactly. -/
def dotProduct (W : Fin 8 → Fin 8 → BitVec 8) (x : Fin 8 → BitVec 8) (j : Fin 8) : Int :=
  ∑ i, (x i).toInt * (W i j).toInt

/-- The row `x * W` in 32-bit columns. -/
def product (W : Fin 8 → Fin 8 → BitVec 8) (x : Fin 8 → BitVec 8) : Fin 8 → BitVec 32 :=
  fun j => BitVec.ofInt 32 (dotProduct W x j)

/-- The eight lanes of a sink beat. -/
def lanes (data : BitVec 64) : Fin 8 → BitVec 8 := fun i => lane 8 data i

/-- A matrix as the core's weights. -/
def weightsOf (W : Fin 8 → Fin 8 → BitVec 8) : Nat → Nat → BitVec 8 :=
  fun i j => W (Fin.ofNat 8 i) (Fin.ofNat 8 j)

theorem weightsOf_of_lt (W : Fin 8 → Fin 8 → BitVec 8) {i j : Nat} (hi : i < 8) (hj : j < 8) :
    weightsOf W i j = W ⟨i, hi⟩ ⟨j, hj⟩ := by
  have hfin : ∀ {k : Nat} (hk : k < 8), Fin.ofNat 8 k = ⟨k, hk⟩ := fun hk =>
    Fin.ext (Nat.mod_eq_of_lt hk)
  rw [weightsOf, hfin hi, hfin hj]

theorem abs_dotProduct_le (W : Fin 8 → Fin 8 → BitVec 8) (x : Fin 8 → BitVec 8) (j : Fin 8) :
    |dotProduct W x j| ≤ 8 * 2 ^ 14 := by
  have hterm : ∀ i, |(x i).toInt * (W i j).toInt| ≤ 2 ^ 14 := by
    intro i
    have hle := BitVec.toInt_mul_toInt_le (x := x i) (y := W i j)
    have hge := BitVec.le_toInt_mul_toInt (x := x i) (y := W i j)
    rw [abs_le]
    omega
  calc |dotProduct W x j| ≤ ∑ i, |(x i).toInt * (W i j).toInt| := Finset.abs_sum_le_sum_abs _ _
    _ ≤ ∑ _i : Fin 8, 2 ^ 14 := Finset.sum_le_sum fun i _ => hterm i
    _ = 8 * 2 ^ 14 := by simp

/-- 32 bits hold the product. -/
theorem toInt_product (W : Fin 8 → Fin 8 → BitVec 8) (x : Fin 8 → BitVec 8) (j : Fin 8) :
    (product W x j).toInt = dotProduct W x j := by
  have habs := abs_le.mp (abs_dotProduct_le W x j)
  rw [product, BitVec.toInt_ofInt]
  apply Int.bmod_eq_of_le <;> omega

/-- What the core computes from a beat over the weights `W`. -/
theorem outRow_lane (W : Fin 8 → Fin 8 → BitVec 8) (data : BitVec 64) :
    outRow 8 (weightsOf W) (fun _ => 0) (lane 8 data) = product W (lanes data) := by
  funext j
  have hzero : (0 : BitVec 32).toInt = 0 := rfl
  rw [outRow, rowSum, partialSum, hzero, zero_add, Finset.sum_range]
  rw [product, dotProduct]
  congr 1
  refine Finset.sum_congr rfl fun i _ => ?_
  simp [weightsOf, lanes]

/-! ## jobs -/

/-- A matrix and the rows to multiply with it. -/
structure Job where
  weights : Fin 8 → Fin 8 → BitVec 8
  rows : List (Fin 8 → BitVec 8)

/-- The words a job is to send. -/
def Job.words (job : Job) : List (BitVec 64) :=
  job.rows.flatMap fun x => NpuUnit.rowWords (product job.weights x)

theorem Job.length_words (job : Job) : job.words.length = 4 * job.rows.length := by
  rw [Job.words, ← List.flatMap_map, NpuUnit.length_flatMap_rowWords, List.length_map]

/-- The beats that load `W`: the columns of `W` from the last to the first. -/
def weightBeats (W : Fin 8 → Fin 8 → BitVec 8) : List (Fin 8 → BitVec 8) :=
  (List.finRange 8).map fun t i => W i t.rev

/-- The cycles of a job. -/
structure JobInputs where
  load : List NpuUnit.In
  gap : List NpuUnit.In
  latch : NpuUnit.In
  stream : List NpuUnit.In

namespace JobInputs

/-- The cycles up to the latch. -/
def loading (t : JobInputs) : List NpuUnit.In := t.load ++ (t.gap ++ [t.latch])

def all (t : JobInputs) : List NpuUnit.In := t.loading ++ t.stream

end JobInputs

namespace NpuUnit

/-- From `u` on, the cycles `t` are those of a job: only weight beats with mode bit 0 set; at
least 14 cycles without beats; a latch; then only activation beats with mode bit 0 clear.  The
bus, the gaps between beats and the back-pressure are free. -/
structure JobTiming (u : NpuUnit) (t : JobInputs) : Prop where
  load_mode : Always step (fun u i => i.stSinkValid = true → u.ctrl.seqMode.getLsbD 0 = true)
    u t.load
  gap_idle : ∀ i ∈ t.gap, i.stSinkValid = false
  gap_length : 14 ≤ t.gap.length
  latch_idle : t.latch.stSinkValid = false
  latch_en : (run step u (t.load ++ t.gap)).ctrl.weightLatchEn = true
  stream_mode : Always step (fun u i => i.stSinkValid = true → u.ctrl.seqMode.getLsbD 0 = false)
    (run step u t.loading) t.stream

/-- From `u` on, the cycles `t` run the job: its matrix and its rows are accepted. -/
structure RunsJob (u : NpuUnit) (job : Job) (t : JobInputs) : Prop extends u.JobTiming t where
  load_beats : (emits step acceptedWeightBeat u t.load).map lanes = weightBeats job.weights
  stream_rows : (emits step acceptedRowBeat (run step u t.loading) t.stream).map lanes = job.rows

/-- Jobs one after the other: the next one begins when all flits of the last are sent. -/
def RunsJobs : NpuUnit → List (Job × JobInputs) → Prop
  | _, [] => True
  | u, (job, t) :: rest =>
      u.RunsJob job t ∧
        (rest ≠ [] → (emits step sentWord u t.all).length = 4 * job.rows.length) ∧
        RunsJobs (run step u t.all) rest

variable {u : NpuUnit} {job : Job} {t : JobInputs}

/-- Cycles without a beat may follow the rows. -/
theorem JobTiming.append_idle (h : u.JobTiming t) {drain : List In}
    (hidle : ∀ i ∈ drain, i.stSinkValid = false) :
    u.JobTiming { t with stream := t.stream ++ drain } where
  load_mode := h.load_mode
  gap_idle := h.gap_idle
  gap_length := h.gap_length
  latch_idle := h.latch_idle
  latch_en := h.latch_en
  stream_mode := always_append.mpr
    ⟨h.stream_mode, (always_of_forall_mem hidle).imp fun _ _ hi hv => by simp [hi] at hv⟩

/-! ## what the core sees of a job -/

theorem loadOnly_coreIns {is : List In}
    (his : Always step (fun u i => i.stSinkValid = true → u.ctrl.seqMode.getLsbD 0 = true) u is) :
    ∀ i ∈ u.coreIns is, i.LoadOnly 8 :=
  forall_mem_fed.mpr <| his.imp fun u i hmode =>
    { uniform := uniform_coreIn
      load := fun hv => by
        rw [coreIn_loadWeightIn, hmode hv]
        exact hv }

theorem streams_coreIns {is : List In}
    (his : Always step (fun u i => i.stSinkValid = true → u.ctrl.seqMode.getLsbD 0 = false) u is) :
    ∀ i ∈ u.coreIns is, i.Streams 8 fun _ => 0 :=
  forall_mem_fed.mpr <| his.imp fun u i hmode =>
    { load := fun j _ => by
        rw [coreIn_loadWeightIn]
        cases hv : i.stSinkValid with
        | false => rw [Bool.and_false]
        | true => rw [hmode hv, Bool.false_and]
      shows := fun _ _ => rfl }

theorem idle_coreIns {is : List In} (his : ∀ i ∈ is, i.stSinkValid = false) :
    ∀ i ∈ u.coreIns is, i.validIn = false :=
  forall_mem_fed.mpr (always_of_forall_mem his)

theorem loadsMatrix_of_beats {W : Fin 8 → Fin 8 → BitVec 8} {beats : List (BitVec 64)}
    (h : beats.map lanes = weightBeats W) :
    LoadsMatrix 8 (weightsOf W) (beats.map (lane 8)) where
  length_eq := by
    have hlen := congrArg List.length h
    rw [List.length_map] at hlen ⊢
    rw [hlen]
    rfl
  lane_eq t ht i hi := by
    have hfin : (List.finRange 8)[t]? = some ⟨t, ht⟩ := by
      simp [ht]
    have hget : (beats.map lanes)[t]? = some fun i => W i (Fin.rev ⟨t, ht⟩) := by
      rw [h, weightBeats, List.getElem?_map, hfin, Option.map_some]
    rw [List.getElem?_map] at hget
    obtain ⟨d, hd, hlanes⟩ := Option.map_eq_some_iff.mp hget
    have hrow : lane 8 d i = lanes d ⟨i, hi⟩ := rfl
    have hcol : (Fin.rev ⟨t, ht⟩ : Fin 8) = ⟨8 - 1 - t, by omega⟩ := by
      ext
      simp only [Fin.val_rev]
      omega
    rw [List.getD_eq_getElem?_getD, List.getElem?_map, hd, Option.map_some, Option.getD_some, hrow,
      hlanes, weightsOf_of_lt W hi (by omega), hcol]

/-- The results of the rows that the core accepts are the products of the beats. -/
theorem map_outRow_acceptedRow (u : NpuUnit) (is : List In) (W : Fin 8 → Fin 8 → BitVec 8) :
    (emits SystolicCore.step SystolicCore.acceptedRow u.core (u.coreIns is)).map
        (fun i => outRow 8 (weightsOf W) (fun _ => (0 : BitVec 32)) i.xIn) =
      (emits step acceptedRowBeat u is).map fun data => product W (lanes data) := by
  have hlanes := congrArg (List.map (outRow 8 (weightsOf W) fun _ => (0 : BitVec 32)))
    (emits_acceptedRow u is)
  rw [List.map_map, List.map_map] at hlanes
  exact hlanes.trans (List.map_congr_left fun data _ => outRow_lane W data)

/-! ## one job -/

/-- After the latch the core is an empty pipeline over the job's matrix. -/
theorem RunsJob.loaded (h : u.RunsJob job t) (he : u.Empty) :
    ∃ p : RowPipe 8 8 32, Refines (run step u t.loading).core p ∧
      p.Settled (weightsOf job.weights) (fun _ => 0) ∧ p.rows = [] := by
  have hsplit : u.coreIns t.loading =
      u.coreIns t.load ++ ((run step u t.load).coreIns t.gap ++
        [(run step u (t.load ++ t.gap)).coreIn t.latch]) := by
    rw [JobInputs.loading, coreIns, fed_append, fed_append, run_append]
    rfl
  have hbeats : LoadsMatrix 8 (weightsOf job.weights)
      (emits SystolicCore.step SystolicCore.acceptedWeight u.core (u.coreIns t.load)) := by
    rw [emits_acceptedWeight]
    exact loadsMatrix_of_beats h.load_beats
  have hlen : 2 * 8 - 2 ≤ ((run step u t.load).coreIns t.gap).length := by
    rw [coreIns, length_fed]
    exact h.gap_length
  have hen : ((run step u (t.load ++ t.gap)).coreIn t.latch).weightLatchEn = true := h.latch_en
  have hcore := core_loaded (by decide) he.drained (fun _ => 0) (loadOnly_coreIns h.load_mode)
    hbeats (idle_coreIns h.gap_idle) hlen h.latch_idle hen
  rwa [← hsplit, ← run_core] at hcore

/-- Nothing leaves the core before the rows come. -/
theorem RunsJob.no_rows_loading (h : u.RunsJob job t) (he : u.Empty) :
    emits SystolicCore.step SystolicCore.takenRow u.core (u.coreIns t.loading) = [] := by
  have hall : ∀ i ∈ u.coreIns t.loading, i.LoadOnly 8 := by
    refine loadOnly_coreIns ?_
    rw [JobInputs.loading, always_append]
    refine ⟨h.load_mode, ?_⟩
    have hidle : ∀ i ∈ t.gap ++ [t.latch], i.stSinkValid = false := by
      intro i hi
      cases List.mem_append.mp hi with
      | inl hgap => exact h.gap_idle i hgap
      | inr hlatch => rw [List.mem_singleton.mp hlatch, h.latch_idle]
    exact (always_of_forall_mem hidle).imp fun _ _ hi hv => by simp [hi] at hv
  exact (Npu.no_rows_loading (by decide) he.drained hall).2

/-- **One job**: from an empty unit the words sent and those still inside are the words of the
job; nothing is inside exactly when the unit is empty again. -/
theorem RunsJob.words (h : u.RunsJob job t) (he : u.Empty) (hwf : u.stream.Wf) :
    ∃ rest, job.words = emits step sentWord u t.all ++ rest ∧
      (rest = [] ↔ (run step u t.all).Empty) := by
  obtain ⟨p, hR, hp, hnone⟩ := h.loaded he
  have hstream := streams_coreIns h.stream_mode
  have hl := hR.streams_lockstep (by decide) hp hstream
  have hp' := hp.run (by decide) hstream
  have hR' := hR.run hl
  rw [← run_core, ← run_append, ← JobInputs.all] at hR'
  obtain ⟨p', hp'eq⟩ : ∃ p', p' = run RowPipe.step p ((run step u t.loading).coreIns t.stream) :=
    ⟨_, rfl⟩
  rw [← hp'eq] at hp' hR'
  -- the rows of the job have left the core or are inside
  have hrows := hp.rows_run (by decide) hstream
  rw [hnone, List.map_nil, List.nil_append, ← hR.emits_acceptedRow (by decide) hl,
    ← hR.emits_takenRow (by decide) hl, ← hp'eq] at hrows
  rw [map_outRow_acceptedRow] at hrows
  have hjob : job.rows.map (product job.weights) =
      (emits step acceptedRowBeat (run step u t.loading) t.stream).map
        fun data => product job.weights (lanes data) := by
    rw [← h.stream_rows, List.map_map]
    rfl
  have htaken : emits SystolicCore.step SystolicCore.takenRow u.core (u.coreIns t.all) =
      emits SystolicCore.step SystolicCore.takenRow (run step u t.loading).core
        ((run step u t.loading).coreIns t.stream) := by
    rw [JobInputs.all, coreIns, fed_append, emits_append]
    have hnil := h.no_rows_loading he
    rw [coreIns] at hnil
    rw [hnil, List.nil_append, run_core, coreIns, coreIns]
  have hwords := words_run hwf t.all
  rw [(StreamCtrl.pendingWords_eq_nil_iff hwf).mpr ⟨he.fifo, he.serializer⟩, List.nil_append,
    htaken] at hwords
  refine ⟨(run step u t.all).stream.pendingWords ++ (p'.rows.map
    (outRow 8 (weightsOf job.weights) fun _ => (0 : BitVec 32))).flatMap rowWords, ?_, ?_⟩
  · rw [Job.words, ← List.flatMap_map, hjob, hrows, List.flatMap_append, hwords, List.append_assoc]
  · have hwf' := wf_run hwf t.all
    rw [List.append_eq_nil_iff, StreamCtrl.pendingWords_eq_nil_iff hwf']
    have hdrained := hR'.drained_iff_rows hp'.noWt
    have hrows' : (p'.rows.map (outRow 8 (weightsOf job.weights)
        fun _ => (0 : BitVec 32))).flatMap rowWords = [] ↔ p'.rows = [] := by
      cases p'.rows with
      | nil => simp
      | cons x xs => simp [rowWords]
    rw [hrows', ← hdrained]
    constructor
    · rintro ⟨⟨hfifo, hserializer⟩, hd⟩
      exact ⟨hd, hfifo, hserializer⟩
    · intro hempty
      exact ⟨⟨hempty.fifo, hempty.serializer⟩, hempty.drained⟩

/-! ## many jobs -/

/-- **Many jobs**: from an empty unit the words sent and those still inside are the words of
all jobs, in order. -/
theorem RunsJobs.words {jobs : List (Job × JobInputs)} (h : u.RunsJobs jobs) (he : u.Empty)
    (hwf : u.stream.Wf) :
    ∃ rest, (jobs.flatMap fun j => j.1.words) =
        emits step sentWord u (jobs.flatMap fun j => j.2.all) ++ rest ∧
      ((run step u (jobs.flatMap fun j => j.2.all)).Empty → rest = []) := by
  induction jobs generalizing u with
  | nil => exact ⟨[], rfl, fun _ => rfl⟩
  | cons j jobs ih =>
      obtain ⟨job, t⟩ := j
      obtain ⟨hjob, hsent, hjobs⟩ := h
      obtain ⟨rest, hwords, hempty⟩ := hjob.words he hwf
      by_cases hlast : jobs = []
      · refine ⟨rest, ?_, fun hem => hempty.mpr ?_⟩
        · simp [hlast, hwords]
        · simpa [hlast] using hem
      · -- all flits of this job are sent, so the unit is empty again
        have hlen := congrArg List.length hwords
        rw [Job.length_words, List.length_append, hsent hlast] at hlen
        have hnil : rest = [] := List.length_eq_zero_iff.mp (by omega)
        obtain ⟨rest', hwords', hempty'⟩ := ih hjobs (hempty.mp hnil) (wf_run hwf t.all)
        refine ⟨rest', ?_, fun hem => hempty' ?_⟩
        · rw [List.flatMap_cons, List.flatMap_cons, hwords', hwords, hnil, List.append_nil,
            emits_append, List.append_assoc]
        · rwa [List.flatMap_cons, run_append] at hem

end NpuUnit

/-- **The unit computes matrix products**: from reset, whatever the FIFO slots hold, on every
run of jobs the words sent are at every moment a prefix of those of the products, and all of
them once the unit is empty; the columns are exact. -/
theorem unit_computes_jobs (outFifo : BitVec 3 → BitVec 256) {jobs : List (Job × JobInputs)}
    (h : (NpuUnit.reset outFifo).RunsJobs jobs) :
    let u := NpuUnit.reset outFifo
    let is := jobs.flatMap fun j => j.2.all
    let expected := jobs.flatMap fun j => j.1.words
    (∀ js, js <+: is → emits NpuUnit.step NpuUnit.sentWord u js <+: expected) ∧
      ((run NpuUnit.step u is).Empty → emits NpuUnit.step NpuUnit.sentWord u is = expected) ∧
      ∀ W x j, (product W x j).toInt = dotProduct W x j := by
  intro u is expected
  obtain ⟨rest, hwords, hempty⟩ :=
    h.words (NpuUnit.empty_reset outFifo) (StreamCtrl.wf_reset outFifo)
  have hexp : expected = emits NpuUnit.step NpuUnit.sentWord u is ++ rest := hwords
  refine ⟨fun js hjs => ?_, fun hem => ?_, toInt_product⟩
  · rw [hexp]
    exact (emits_grows _ u hjs).trans (List.prefix_append _ _)
  · rw [hexp, hempty hem, List.append_nil]

/-- A job is run if its row unit accepts its beats. -/
theorem Simulates.runsJob {u : NpuUnit} {r : RowUnit} (h : Simulates u r) {job : Job} {t : JobInputs}
    (htiming : u.JobTiming t) (hloading : Always RowUnit.step RowUnit.NoOverrun r t.loading)
    (hstream : Always RowUnit.step RowUnit.NoOverrun (Machine.run RowUnit.step r t.loading) t.stream)
    (hbeats : (Machine.emits RowUnit.step RowUnit.acceptedWeightBeat r t.load).map lanes =
      weightBeats job.weights)
    (hrows : (Machine.emits RowUnit.step RowUnit.acceptedRowBeat (Machine.run RowUnit.step r t.loading)
      t.stream).map lanes = job.rows) : u.RunsJob job t where
  toJobTiming := htiming
  load_beats := by
    have hload := hloading
    rw [JobInputs.loading, always_append] at hload
    rw [h.emits_acceptedWeightBeat hload.1]
    exact hbeats
  stream_rows := by
    rw [(h.run hloading).emits_acceptedRowBeat hstream]
    exact hrows

/-- The cycles of a small job: the identity matrix and two rows, the second one under
back-pressure. -/
def smallJob : Job × JobInputs where
  fst :=
    { weights := fun i j => if i = j then 1 else 0
      rows := [lanes 0x0807060504030201, lanes 0xff00ff00ff00ff00] }
  snd :=
    { load := .write 0 3 :: (List.range 8).map fun t => .beat (1 <<< (8 * (7 - t))) true
      gap := List.replicate 13 (.idle true) ++ [.write 7 1]
      latch := .write 0 1
      stream := .beat 0x0807060504030201 true :: .beat 0xff00ff00ff00ff00 false ::
        List.replicate 30 (.idle true) }

/-- The small job runs from reset. -/
theorem runsJob_smallJob : (NpuUnit.reset fun _ => 0).RunsJob smallJob.1 smallJob.2 :=
  (Simulates.reset fun _ => 0).runsJob
    ⟨by decide +kernel, by decide, by decide, by decide, by decide +kernel, by decide +kernel⟩
    (by decide +kernel) (by decide +kernel) (by decide +kernel) (by decide +kernel)

/-- A job behind it: a matrix of equal columns and three rows with gaps between them. -/
def nextJob : Job × JobInputs where
  fst :=
    { weights := fun i _ => BitVec.ofNat 8 (i + 1)
      rows := [lanes 0x0000000000000001, lanes 0x0101010101010101, lanes 0xffffffffffffffff] }
  snd :=
    { load := .write 0 3 :: .idle false :: List.replicate 8 (.beat 0x0807060504030201 true)
      gap := List.replicate 14 (.idle true) ++ [.write 7 1]
      latch := .write 0 1
      stream := [.beat 0x0000000000000001 true, .idle false, .beat 0x0101010101010101 true,
        .idle true, .idle true, .beat 0xffffffffffffffff true] ++ List.replicate 30 (.idle true) }

/-- Two jobs, one behind the other. -/
theorem unit_computes_smallJob :
    let u := NpuUnit.reset fun _ => 0
    u.RunsJobs [smallJob, nextJob] ∧
      ∀ js, js <+: smallJob.2.all ++ nextJob.2.all →
        emits NpuUnit.step NpuUnit.sentWord u js <+: smallJob.1.words ++ nextJob.1.words := by
  intro u
  have hsim : Simulates u (RowUnit.reset fun _ => 0) := Simulates.reset fun _ => 0
  have hno : Always RowUnit.step RowUnit.NoOverrun (RowUnit.reset fun _ => 0) smallJob.2.all := by
    decide +kernel
  have hsent : (emits NpuUnit.step NpuUnit.sentWord u smallJob.2.all).length = 4 * 2 := by
    rw [NpuUnit.emits_sentWord, List.length_map, hsim.emits_sentFlit hno]
    decide +kernel
  have hnext : (run NpuUnit.step u smallJob.2.all).RunsJob nextJob.1 nextJob.2 :=
    (hsim.run hno).runsJob
      ⟨by decide +kernel, by decide, by decide, by decide, by decide +kernel, by decide +kernel⟩
      (by decide +kernel) (by decide +kernel) (by decide +kernel) (by decide +kernel)
  have hjobs : u.RunsJobs [smallJob, nextJob] :=
    ⟨runsJob_smallJob, fun _ => hsent, hnext, fun h => absurd rfl h, trivial⟩
  have h := (unit_computes_jobs (fun _ => 0) hjobs).1
  simp only [List.flatMap_cons, List.flatMap_nil, List.append_nil] at h
  exact ⟨hjobs, h⟩

end Npu
