import Npu.Lib.Server
import Npu.UnitOwes

/-!
# Npu.UnitTiming

When the flits are sent, as long as the source is ready.  The serializer is a server that takes
four cycles for a row, and a row is there 17 cycles after its beat: 15 stages of the core, one cycle
in the FIFO and one into the serializer.  Nothing else delays a row (`flit_times`): the core stops
only before a full FIFO, and behind eight rows it does not count when a row comes.
-/

namespace Npu

open Machine Server

/-! ## the pipeline -/

namespace RowPipe

open Token

variable (p : RowPipe n dw aw) {inp : SystolicCore.In dw aw}

/-- How many stages the rows inside have still to go, oldest first. -/
def distances : List Nat := Elastic.distances (fun t => isAct (some t)) p.stages

theorem any_isAct (t : Option (Token dw aw)) : (t.any fun t => isAct (some t)) = isAct t := by
  cases t <;> rfl

theorem distances_le : ∀ d ∈ p.distances, d ≤ 2 * n - 1 := by
  intro d hd
  have hle := Elastic.distances_le d hd
  rwa [p.length_stages] at hle

theorem length_distances : p.distances.length = p.rows.length := by
  have hact (t : Token dw aw) : isAct (some t) = t.lanes?.isSome := by cases t <;> rfl
  rw [distances, Elastic.length_distances, rows, List.length_filterMap_eq_countP,
    List.countP_eq_length_filter]
  simp only [hact]

theorem final_stages (hn : 0 < n) (t : Option (Token dw aw)) :
    Elastic.final t p.stages = p.stage (2 * n - 2) := by
  have hlen : p.stages.length = 2 * n - 2 + 1 := by rw [p.length_stages]; omega
  rw [Elastic.final, hlen]
  rfl

/-- Before a ready output every row comes a stage nearer. -/
theorem distances_step (hn : 0 < n) (hr : inp.readyIn = true) :
    p.distances ++ (if isAct (beat inp : Option (Token dw aw)) then [2 * n] else []) =
      (if p.validOut then [1] else []) ++ (p.step inp).distances.map (· + 1) := by
  have hout : p.out inp = true := by rw [out, hr, Bool.or_true]
  have hlen : p.stages.length + 1 = 2 * n := by rw [p.length_stages]; omega
  have hmove := Elastic.distances_advance (p := fun t => isAct (some t)) (f := p.enter inp)
    (fun s t => p.isAct_enter inp s (some t)) (beat inp) p.stages
  have hstep : (p.step inp).distances = Elastic.distances (fun t => isAct (some t))
      (Elastic.advance (p.enter inp) true (beat inp) p.stages) := by
    rw [distances, step_stages, hout]
  rw [any_isAct, any_isAct, hlen, p.final_stages hn, ← hstep] at hmove
  exact hmove

/-- No row is lost. -/
theorem length_distances_step (hn : 0 < n) :
    p.distances.length + (p.freeAt inp 0 && isAct (beat inp : Option (Token dw aw))).toNat =
      (p.validOut && inp.readyIn).toNat + (p.step inp).distances.length := by
  have hmove := Elastic.length_distances_advance (p := fun t => isAct (some t)) (f := p.enter inp)
    (fun s t => p.isAct_enter inp s (some t)) (p.out inp) (beat inp) p.stages
  have hdep : (Elastic.departing (p.out inp) (beat inp) p.stages).any (fun t => isAct (some t)) =
      (p.validOut && inp.readyIn) := by
    rw [any_isAct, Elastic.departing, p.final_stages hn, out, validOut]
    cases hv : isAct (p.stage (2 * n - 2)) <;> cases inp.readyIn <;> simp [hv]
  rw [any_isAct, hdep] at hmove
  exact hmove

end RowPipe

/-! ## the serializer -/

namespace StreamCtrl

variable {c : StreamCtrl} {inp : In}

/-- The cycles that the serializer still needs for its row. -/
def free (c : StreamCtrl) : Nat := if c.txActive then 4 - c.txCount.toNat else 0

theorem fifoPop_of_ready (h : c.Wf) (hr : inp.stSourceReady = true) :
    c.fifoPop inp = (decide (c.free ≤ 1) && !c.fifoEmpty) := by
  have hflit := h.flit
  rw [fifoPop, free, h.sending, hr]
  cases hactive : c.txActive with
  | false => simp
  | true =>
      cases hlast : c.txCount == 3 with
      | true =>
          rw [beq_iff_eq] at hlast
          simp [hlast]
      | false =>
          obtain ⟨hlt, -⟩ := toNat_txCount_succ h hlast
          have hfree : ¬ 4 - c.txCount.toNat ≤ 1 := by omega
          simp [hfree]

theorem free_step (h : c.Wf) (hr : inp.stSourceReady = true) :
    (c.step inp).free = if c.fifoPop inp then 4 else c.free - 1 := by
  have hflit := h.flit
  have hstep : (c.step inp).free = (c.txStep inp).free := rfl
  rw [hstep, txStep, fifoPop, free, free, h.sending, hr]
  cases hactive : c.txActive with
  | false => cases c.fifoEmpty <;> simp [hactive]
  | true =>
      cases hlast : c.txCount == 3 with
      | true =>
          rw [beq_iff_eq] at hlast
          cases c.fifoEmpty <;> simp [hlast]
      | false =>
          obtain ⟨hlt, hnext⟩ := toNat_txCount_succ h hlast
          simp
          omega

theorem sentFlit_of_ready (h : c.Wf) (hr : inp.stSourceReady = true) :
    (c.sentFlit inp).map (fun _ => 0) = if 0 < c.free then [0] else [] := by
  have hflit := h.flit
  rw [sentFlit, stSourceValid, free, h.sending, hr]
  cases c.txActive with
  | false => simp
  | true =>
      have hpos : 0 < 4 - c.txCount.toNat := by omega
      simp [hpos]

/-- The cycles in which the serializer sends the rest of its row, and those of a row that it takes. -/
theorem flits_step (h : c.Wf) (hr : inp.stSourceReady = true) :
    List.range c.free ++ (if c.fifoPop inp then [1] else []).flatMap (service 4) =
      (c.sentFlit inp).map (fun _ => 0) ++ (List.range (c.step inp).free).map (· + 1) := by
  rw [sentFlit_of_ready h hr, free_step h hr]
  have hpop := fifoPop_of_ready h hr
  cases hp : c.fifoPop inp with
  | true =>
      have hle : c.free ≤ 1 := by simp_all
      have hcases : c.free = 0 ∨ c.free = 1 := by omega
      rcases hcases with hfree | hfree <;> rw [hfree] <;> rfl
  | false =>
      cases hfree : c.free with
      | zero => rfl
      | succ k => simp [List.range_succ_eq_map]

/-- **The serializer, one cycle**: of the rows behind it, those in the FIFO are there already. -/
theorem starts_step (h : c.Wf) (hr : inp.stSourceReady = true) (as : List Nat) :
    starts 4 c.free (List.replicate c.fifoCount.toNat 1 ++ as.map (· + 1)) =
      (if c.fifoPop inp then [1] else []) ++ (starts 4 (c.step inp).free
        (List.replicate (c.fifoCount.toNat - (c.fifoPop inp).toNat) 1 ++ as)).map (· + 1) := by
  have hpop := fifoPop_of_ready h hr
  rw [fifoEmpty_eq] at hpop
  rw [free_step h hr]
  cases hp : c.fifoPop inp with
  | true =>
      obtain ⟨k, hk⟩ := Nat.exists_eq_succ_of_ne_zero (pos_of_pop hp).ne'
      have hfirst : max 1 c.free = 1 := by
        have hle : c.free ≤ 1 := by simp_all
        omega
      simp [hk, List.replicate_succ, hfirst, starts_waiting]
  | false =>
      cases hfree : c.free with
      | zero =>
          have hempty : c.fifoCount.toNat = 0 := by simp_all
          simp [hempty, starts_zero_map_succ]
      | succ k =>
          cases k with
          | zero =>
              have hempty : c.fifoCount.toNat = 0 := by simp_all
              simp [hempty, starts_map_succ]
          | succ k => simp [starts_waiting (Nat.succ_pos k)]

end StreamCtrl

/-! ## the unit -/

namespace RowUnit

variable {r : RowUnit} {inp : NpuUnit.In} {is : List NpuUnit.In}

/-- When the rows inside are there for the serializer, oldest first. -/
def due (r : RowUnit) : List Nat :=
  List.replicate r.stream.fifoCount.toNat 1 ++ r.pipe.distances.map (· + 1)

theorem length_acceptedRowBeat (r : RowUnit) (inp : NpuUnit.In) : (r.acceptedRowBeat inp).length =
    (r.pipe.freeAt (r.coreIn inp) 0 &&
      Token.isAct (RowPipe.beat (r.coreIn inp) : Option (Token 8 32))).toNat := by
  have hload : (r.coreIn inp).loadWeightIn 0 = (r.ctrl.seqMode.getLsbD 0 && inp.stSinkValid) := rfl
  have hvalid : (r.coreIn inp).validIn = inp.stSinkValid := rfl
  rw [acceptedRowBeat, RowPipe.readyOut, RowPipe.beat, hload, hvalid]
  cases inp.stSinkValid <;> cases r.ctrl.seqMode.getLsbD 0 <;>
    cases r.pipe.freeAt (r.coreIn inp) 0 <;> rfl

/-- The rows of the core and the beat of the cycle. -/
theorem due_accepted (r : RowUnit) (inp : NpuUnit.In) :
    r.due ++ (r.acceptedRowBeat inp).map (fun _ => 17) =
      List.replicate r.stream.fifoCount.toNat 1 ++ (r.pipe.distances.map (· + 1) ++
        List.replicate (r.acceptedRowBeat inp).length 17) := by
  rw [due, List.append_assoc, List.map_const']

/-- What the pipeline does to the rows that are due: all come a cycle nearer, or they stand behind
a full FIFO, and then it does not count. -/
theorem starts_due (h : r.stream.Wf) (as : List Nat) :
    starts 4 r.stream.free (r.due ++ (r.acceptedRowBeat inp).map (fun _ => 17) ++ as.map (· + 1)) =
      starts 4 r.stream.free (List.replicate r.stream.fifoCount.toNat 1 ++
        (List.replicate (r.stream.fifoPush (r.streamIn inp)).toNat 1 ++
          ((r.step inp).pipe.distances.map (· + 1) ++ as)).map (· + 1)) := by
  have hpush : r.stream.fifoPush (r.streamIn inp) = (r.pipe.validOut && !r.stream.fifoFull) := rfl
  have hready : (r.coreIn inp).readyIn = !r.stream.fifoFull := rfl
  have hpipe : (r.step inp).pipe = r.pipe.step (r.coreIn inp) := rfl
  rw [hpush, hpipe, due_accepted, length_acceptedRowBeat]
  cases hfull : r.stream.fifoFull with
  | false =>
      rw [hfull] at hready
      have hmove := congrArg (List.map (· + 1)) (r.pipe.distances_step (by decide) hready)
      have hbeat (b : Bool) : (if b then [2 * 8] else []).map (· + 1) = List.replicate b.toNat 17 := by
        cases b <;> rfl
      have hout (b : Bool) : (if b then [1] else []) = List.replicate b.toNat 1 := by cases b <;> rfl
      rw [List.map_append, List.map_append, hbeat, hout] at hmove
      rw [RowPipe.freeAt_zero_of_ready hready, Bool.true_and, Bool.not_false, Bool.and_true, hmove]
      simp
  | true =>
      rw [hfull] at hready
      have hcount : r.stream.fifoCount.toNat = 8 := by
        have hle := h.count
        rw [StreamCtrl.fifoFull_eq, decide_eq_true_eq] at hfull
        omega
      have hkept : r.pipe.distances.length + _ = _ + (r.pipe.step (r.coreIn inp)).distances.length :=
        r.pipe.length_distances_step (by decide)
      rw [hready, Bool.not_true, Bool.and_false] at hkept
      -- all are there long before the eight rows in the FIFO are through
      have hnow : ∀ a ∈ r.pipe.distances.map (· + 1) ++ List.replicate (r.pipe.freeAt (r.coreIn inp) 0 &&
          Token.isAct (RowPipe.beat (r.coreIn inp) : Option (Token 8 32))).toNat 17,
          a ≤ r.stream.free + 4 * (List.replicate 8 1).length := by
        intro a ha
        rw [List.length_replicate]
        rcases List.mem_append.mp ha with hmem | hmem
        · obtain ⟨d, hd, rfl⟩ := List.mem_map.mp hmem
          have hle := r.pipe.distances_le d hd
          omega
        · have heq := List.eq_of_mem_replicate hmem
          omega
      have hnext : ∀ b ∈ ((r.pipe.step (r.coreIn inp)).distances.map (· + 1)).map (· + 1),
          b ≤ r.stream.free + 4 * (List.replicate 8 1).length := by
        intro b hb
        rw [List.map_map] at hb
        obtain ⟨d, hd, rfl⟩ := List.mem_map.mp hb
        have hle := (r.pipe.step (r.coreIn inp)).distances_le d hd
        simp
        omega
      have hbehind := starts_congr (List.replicate 8 1) (as.map (· + 1)) (by simp [hkept]) hnow hnext
      simpa [hcount] using hbehind

/-- **One cycle**: all rows that are due, and those still to come, come a cycle nearer; the one
whose cycle is the next one is taken by the serializer. -/
theorem starts_step (h : r.stream.Wf) (hr : inp.stSourceReady = true) (as : List Nat) :
    starts 4 r.stream.free (r.due ++ (r.acceptedRowBeat inp).map (fun _ => 17) ++ as.map (· + 1)) =
      (if r.stream.fifoPop (r.streamIn inp) then [1] else []) ++
        (starts 4 (r.step inp).stream.free ((r.step inp).due ++ as)).map (· + 1) := by
  have hsource : (r.streamIn inp).stSourceReady = true := hr
  have hstream : (r.step inp).stream = r.stream.step (r.streamIn inp) := rfl
  have hcount := StreamCtrl.toNat_fifoCount_step h (r.streamIn inp)
  have hrows : r.stream.fifoCount.toNat - (r.stream.fifoPop (r.streamIn inp)).toNat +
      (r.stream.fifoPush (r.streamIn inp)).toNat = (r.step inp).stream.fifoCount.toNat := by
    rw [hstream]
    cases hpop : r.stream.fifoPop (r.streamIn inp) with
    | false =>
        rw [hpop, Bool.toNat_false] at hcount
        rw [Bool.toNat_false]
        omega
    | true =>
        have hpos := StreamCtrl.pos_of_pop hpop
        rw [hpop, Bool.toNat_true] at hcount
        rw [Bool.toNat_true]
        omega
  rw [starts_due h, StreamCtrl.starts_step h hsource, due, ← hrows, ← hstream, List.replicate_add]
  simp only [List.append_assoc]

/-- **When the flits are sent.** -/
theorem ticks_sentFlit (h : r.stream.Wf) (hready : ∀ i ∈ is, i.stSourceReady = true) :
    ticks step sentFlit r is =
      (List.range r.stream.free ++ (starts 4 r.stream.free
        (r.due ++ (ticks step acceptedRowBeat r is).map (· + 17))).flatMap (service 4)).filter
          (· < is.length) := by
  induction is generalizing r with
  | nil => simp
  | cons i is ih =>
      have hi : i.stSourceReady = true := hready i List.mem_cons_self
      have hnext := @ih (r.step i) h.step fun j hj => hready j (List.mem_cons_of_mem i hj)
      have hlater : (ticks step acceptedRowBeat r (i :: is)).map (· + 17) =
          (r.acceptedRowBeat i).map (fun _ => 17) ++
            ((ticks step acceptedRowBeat (r.step i) is).map (· + 17)).map (· + 1) := by
        simp [ticks_cons]
      have hsource : (r.streamIn i).stSourceReady = true := hi
      have hflits := StreamCtrl.flits_step h hsource
      have hzero : ((r.sentFlit i).map fun _ => 0).filter (· < (i :: is).length) =
          (r.sentFlit i).map fun _ => 0 := by
        simp
      have hsucc (ts : List Nat) : (ts.map (· + 1)).filter (· < (i :: is).length) =
          (ts.filter (· < is.length)).map (· + 1) := by
        simp [List.filter_map, Function.comp_def]
      rw [hlater, ← List.append_assoc, starts_step h hi, List.flatMap_append, flatMap_service_succ,
        ← List.append_assoc, hflits, List.append_assoc, ← List.map_append, List.filter_append, hsucc,
        ticks_cons, hnext]
      exact congrArg (· ++ _) hzero.symm

/-! ### rows in every cycle -/

/-- A row is presented, and the source is ready. -/
structure Streams (r : RowUnit) (inp : NpuUnit.In) : Prop where
  sink : inp.stSinkValid = true
  mode : r.ctrl.seqMode.getLsbD 0 = false
  source : inp.stSourceReady = true

/-- The rows inside follow one another without a gap from `g` on, and for at least 17 cycles. -/
structure Seamless (r : RowUnit) (g : Nat) : Prop where
  wf : r.stream.Wf
  start : r.stream.free = g ∨ r.stream.free = 0 ∧ (r.due = [] → g = 17)
  starts : starts 4 r.stream.free r.due = steps 4 g r.due.length
  enough : 17 ≤ g + 4 * r.due.length

/-- A row is refused only before a full FIFO. -/
theorem due_of_refused (hin : r.Streams inp) (hno : r.acceptedRowBeat inp = []) :
    8 ≤ r.due.length := by
  have hlen := length_acceptedRowBeat r inp
  have hbeat : Token.isAct (RowPipe.beat (r.coreIn inp) : Option (Token 8 32)) = true := by
    have hload : (r.coreIn inp).loadWeightIn 0 = false := by
      show (r.ctrl.seqMode.getLsbD 0 && inp.stSinkValid) = false
      rw [hin.mode, Bool.false_and]
    have hvalid : (r.coreIn inp).validIn = true := hin.sink
    rw [RowPipe.beat, hvalid, hload]
    rfl
  rw [hno, hbeat, Bool.and_true] at hlen
  have hfull : r.stream.fifoFull = true := by
    by_contra hroom
    have hready : (r.coreIn inp).readyIn = true := by
      show (!r.stream.fifoFull) = true
      rw [Bool.not_eq_true] at hroom
      rw [hroom, Bool.not_false]
    rw [RowPipe.freeAt_zero_of_ready hready] at hlen
    cases hlen
  rw [StreamCtrl.fifoFull_eq, decide_eq_true_eq] at hfull
  rw [due, List.length_append, List.length_replicate]
  omega

theorem due_pos : ∀ a ∈ r.due, 0 < a := by
  intro a ha
  rcases List.mem_append.mp ha with hmem | hmem
  · have heq := List.eq_of_mem_replicate hmem
    omega
  · obtain ⟨d, -, rfl⟩ := List.mem_map.mp hmem
    exact Nat.succ_pos d

/-- The row that is accepted joins without a gap. -/
theorem Seamless.starts_accepted {g : Nat} (h : r.Seamless g) (hin : r.Streams inp) :
    ∃ k, Server.starts 4 r.stream.free (r.due ++ (r.acceptedRowBeat inp).map fun _ => 17) =
      steps 4 g (k + 1) ∧ 21 ≤ g + 4 * (k + 1) := by
  have henough := h.enough
  by_cases hno : r.acceptedRowBeat inp = []
  · have hmany := due_of_refused hin hno
    refine ⟨r.due.length - 1, ?_, by omega⟩
    have hlen : r.due.length - 1 + 1 = r.due.length := by omega
    rw [hno, List.map_nil, List.append_nil, h.starts, hlen]
  · have hone : (r.acceptedRowBeat inp).map (fun _ => 17) = [17] := by
      have hle := length_acceptedRowBeat r inp ▸ Bool.toNat_le _
      have hpos := List.length_pos_iff.mpr hno
      have hlen : (r.acceptedRowBeat inp).length = 1 := by omega
      rw [List.map_const', hlen]
      rfl
    refine ⟨r.due.length, ?_, by omega⟩
    rw [hone]
    rcases h.start with hfree | ⟨hfree, hfirst⟩
    · exact starts_concat (.inl hfree) h.starts henough
    · by_cases hdue : r.due = []
      · rw [hfree, hdue, hfirst hdue]
        rfl
      · exact starts_concat (.inr hdue) h.starts henough

/-- **One cycle without a gap**: before the first flit the gap shrinks, and from then on the
serializer is busy. -/
theorem Seamless.step {g : Nat} (h : r.Seamless g) (hin : r.Streams inp) :
    ∃ g', (r.step inp).Seamless g' ∧ (0 < r.stream.free → 0 < (r.step inp).stream.free) ∧
      (r.stream.free = 0 → g = (if 0 < (r.step inp).stream.free then 0 else g') + 1) := by
  obtain ⟨k, hsteps, henough⟩ := h.starts_accepted hin
  have hnext := starts_step h.wf hin.source []
  rw [List.map_nil, List.append_nil, List.append_nil, hsteps] at hnext
  have hsource : (r.streamIn inp).stSourceReady = true := hin.source
  have hfree : (r.step inp).stream.free = _ := StreamCtrl.free_step h.wf hsource
  have hinj : Function.Injective (List.map (· + 1) : List Nat → List Nat) :=
    List.map_injective_iff.mpr (add_left_injective 1)
  have hlen := length_starts 4 (r.step inp).stream.free (r.step inp).due
  cases hpop : r.stream.fifoPop (r.streamIn inp) with
  | true =>
      rw [hpop, if_pos rfl, steps, List.singleton_append, List.cons.injEq] at hnext
      obtain ⟨rfl, hrest⟩ := hnext
      have hstarts : Server.starts 4 (r.step inp).stream.free (r.step inp).due = steps 4 4 k :=
        hinj (hrest.symm.trans (steps_map_succ 4 4 k).symm)
      rw [hstarts, length_steps] at hlen
      rw [hpop, if_pos rfl] at hfree
      refine ⟨4, ⟨h.wf.step, .inl hfree, hlen ▸ hstarts, by omega⟩, fun _ => by omega, fun _ => ?_⟩
      rw [hfree]
      rfl
  | false =>
      rw [hpop, if_neg Bool.false_ne_true, List.nil_append] at hnext
      rw [hpop, if_neg Bool.false_ne_true] at hfree
      obtain ⟨a, as, hdue⟩ : ∃ a as, (r.step inp).due = a :: as := by
        refine List.exists_cons_of_ne_nil fun hnil => ?_
        rw [hnil, starts_nil, List.map_nil, steps] at hnext
        cases hnext
      have hpos := due_pos (r := r.step inp) a (by rw [hdue]; exact List.mem_cons_self)
      obtain ⟨x, rfl, hx⟩ : ∃ x, g = x + 1 ∧ 0 < x := by
        rw [hdue, starts_cons, List.map_cons, steps, List.cons.injEq] at hnext
        exact ⟨_, hnext.1, lt_max_of_lt_left hpos⟩
      have hstarts : Server.starts 4 (r.step inp).stream.free (r.step inp).due = steps 4 x (k + 1) :=
        hinj (hnext.symm.trans (steps_map_succ 4 x (k + 1)).symm)
      rw [hstarts, length_steps] at hlen
      have hne : (r.step inp).due ≠ [] := by rw [hdue]; exact List.cons_ne_nil a as
      refine ⟨x, ⟨h.wf.step, ?_, hlen ▸ hstarts, by omega⟩, fun hbusy => ?_, fun hidle => ?_⟩
      · rcases h.start with hg | ⟨hzero, -⟩
        · exact .inl (by omega)
        · exact .inr ⟨by omega, fun hnil => absurd hnil hne⟩
      · rcases h.start with hg | ⟨hzero, -⟩ <;> omega
      · have hzero : (r.step inp).stream.free = 0 := by omega
        rw [hzero]
        rfl

/-- **Rows in every cycle**: once the first flit is sent, one is sent in every cycle. -/
theorem Seamless.ticks_sentFlit {g : Nat} (h : r.Seamless g)
    (his : Always RowUnit.step RowUnit.Streams r is) :
    ticks RowUnit.step sentFlit r is =
      List.range' (if 0 < r.stream.free then 0 else g)
        (is.length - if 0 < r.stream.free then 0 else g) := by
  induction is generalizing r g with
  | nil => simp
  | cons i is ih =>
      obtain ⟨g', hnext, hbusy, hidle⟩ := h.step his.1
      have hsource : (r.streamIn i).stSourceReady = true := his.1.source
      have hsent : (r.sentFlit i).map (fun _ => 0) = _ := StreamCtrl.sentFlit_of_ready h.wf hsource
      have hsucc (a n : Nat) : (List.range' a n).map (· + 1) = List.range' (a + 1) n := by
        simp [List.range'_eq_map_range, Nat.add_right_comm]
      rw [ticks_cons, ih hnext his.2, hsent, hsucc]
      by_cases hfree : 0 < r.stream.free
      · simp [hfree, hbusy hfree, List.range'_succ]
      · have hg := hidle (by omega)
        rw [if_neg hfree, if_neg hfree, hg]
        simp

end RowUnit

/-- The unit reports in the cycles in which the row unit does. -/
theorem Simulates.ticks_eq {ω : Type} {u : NpuUnit} {r : RowUnit} {is : List NpuUnit.In}
    (h : Simulates u r) (hno : Always RowUnit.step RowUnit.NoOverrun r is)
    {obs : NpuUnit → NpuUnit.In → List ω} {obs' : RowUnit → NpuUnit.In → List ω}
    (hobs : ∀ u r i, Simulates u r → r.NoOverrun i → obs u i = obs' r i) :
    ticks NpuUnit.step obs u is = ticks RowUnit.step obs' r is := by
  induction is generalizing u r with
  | nil => rfl
  | cons i is ih => rw [ticks_cons, ticks_cons, hobs u r i h hno.1, ih (h.step hno.1) hno.2]

theorem Simulates.ticks_sentFlit {u : NpuUnit} {r : RowUnit} {is : List NpuUnit.In}
    (h : Simulates u r) (hno : Always RowUnit.step RowUnit.NoOverrun r is) :
    ticks NpuUnit.step NpuUnit.sentFlit u is = ticks RowUnit.step RowUnit.sentFlit r is :=
  h.ticks_eq hno fun _ _ _ h _ => h.sentFlit_eq

theorem Simulates.ticks_acceptedRowBeat {u : NpuUnit} {r : RowUnit} {is : List NpuUnit.In}
    (h : Simulates u r) (hno : Always RowUnit.step RowUnit.NoOverrun r is) :
    ticks NpuUnit.step NpuUnit.acceptedRowBeat u is =
      ticks RowUnit.step RowUnit.acceptedRowBeat r is :=
  h.ticks_eq hno fun _ _ _ h hno => h.acceptedRowBeat_eq hno

/-- What holds of the unit in every cycle, seen at the row unit. -/
theorem Simulates.always {u : NpuUnit} {r : RowUnit} {is : List NpuUnit.In} (h : Simulates u r)
    (hno : Always RowUnit.step RowUnit.NoOverrun r is) {q : NpuUnit → NpuUnit.In → Prop}
    {q' : RowUnit → NpuUnit.In → Prop} (hq : ∀ u r i, Simulates u r → q u i → q' r i)
    (his : Always NpuUnit.step q u is) : Always RowUnit.step q' r is := by
  induction is generalizing u r with
  | nil => trivial
  | cons i is ih => exact ⟨hq u r i h his.1, ih (h.step hno.1) hno.2 his.2⟩

/-- The row unit of an empty unit has nothing to send and nothing to come. -/
theorem NpuUnit.Empty.exists_idle {u : NpuUnit} (h : u.Empty) :
    ∃ r, Simulates u r ∧ r.pipe.Ordered ∧ r.stream.free = 0 ∧ r.due = [] := by
  obtain ⟨r, hsim, hordered, hrows⟩ := h.exists_rowUnit
  have hdistances : r.pipe.distances = [] := by
    rw [← List.length_eq_zero_iff, r.pipe.length_distances, hrows, List.length_nil]
  refine ⟨r, hsim, hordered, ?_, ?_⟩
  · rw [← hsim.stream, StreamCtrl.free, h.serializer]
    rfl
  · rw [RowUnit.due, ← hsim.stream, h.fifo, hdistances]
    rfl

open NpuUnit in
/-- **When the flits are sent.**  On every run from an empty unit that keeps loading and computing
apart, before a source that is always ready: a row starts 17 cycles after its beat was accepted, or
right behind the row before it, and its four flits follow one another. -/
theorem flit_times {u : NpuUnit} {is : List NpuUnit.In} (hempty : u.Empty) (hwf : u.stream.Wf)
    (hapart : Always NpuUnit.step LoadsApart u is) (hready : ∀ i ∈ is, i.stSourceReady = true) :
    ticks NpuUnit.step sentFlit u is =
      ((starts 4 0 ((ticks NpuUnit.step acceptedRowBeat u is).map (· + 17))).flatMap
        (service 4)).filter (· < is.length) := by
  obtain ⟨r, hsim, hordered, hfree, hdue⟩ := hempty.exists_idle
  have hno := hsim.always_noOverrun hordered hapart
  rw [hsim.ticks_sentFlit hno, hsim.ticks_acceptedRowBeat hno,
    RowUnit.ticks_sentFlit (hsim.stream ▸ hwf) hready, hdue, hfree, List.range_zero, List.nil_append,
    List.nil_append]

open NpuUnit in
/-- Rows accepted in cycles 0 and 3: the second one waits a cycle for the first. -/
theorem flit_times_twoRows :
    let is := [In.beat 5 true, .idle true, .idle true, .beat 7 true] ++ List.replicate 30 (In.idle true)
    ticks NpuUnit.step sentFlit (NpuUnit.reset fun _ => 0) is = [17, 18, 19, 20, 21, 22, 23, 24] := by
  intro is
  have hapart : Always NpuUnit.step LoadsApart (NpuUnit.reset fun _ => 0) is := by decide +kernel
  have hsim := Simulates.reset fun _ => 0
  have hno : Always RowUnit.step RowUnit.NoOverrun (RowUnit.reset fun _ => 0) is := by decide +kernel
  have hbeats : ticks NpuUnit.step acceptedRowBeat (NpuUnit.reset fun _ => 0) is = [0, 3] := by
    rw [hsim.ticks_acceptedRowBeat hno]
    decide +kernel
  rw [flit_times (empty_reset _) (StreamCtrl.wf_reset _) hapart (by decide +kernel), hbeats]
  decide +kernel

open NpuUnit in
/-- **The full width of the source.**  From an empty unit, as long as a row is presented in every
cycle and the source is ready: the first flit is sent in cycle 17, and one in every cycle after
it. -/
theorem flits_back_to_back {u : NpuUnit} {is : List NpuUnit.In} (hempty : u.Empty)
    (hwf : u.stream.Wf)
    (his : Always NpuUnit.step (fun u i => i.stSinkValid = true ∧ u.ctrl.seqMode.getLsbD 0 = false ∧
      i.stSourceReady = true) u is) :
    ticks NpuUnit.step sentFlit u is = List.range' 17 (is.length - 17) := by
  obtain ⟨r, hsim, hordered, hfree, hdue⟩ := hempty.exists_idle
  have hapart : Always NpuUnit.step LoadsApart u is := his.imp fun u i hi _ hmode => by
    rw [hi.2.1] at hmode
    cases hmode
  have hno := hsim.always_noOverrun hordered hapart
  have hrows : Always RowUnit.step RowUnit.Streams r is :=
    hsim.always hno (fun _ _ _ h hi => ⟨hi.1, h.ctrl ▸ hi.2.1, hi.2.2⟩) his
  have hseamless : r.Seamless 17 := by
    refine ⟨hsim.stream ▸ hwf, .inr ⟨hfree, fun _ => rfl⟩, ?_, ?_⟩
    · rw [hdue]
      rfl
    · rw [hdue]
      exact le_rfl
  rw [hsim.ticks_sentFlit hno, hseamless.ticks_sentFlit hrows, hfree]
  rfl

open NpuUnit in
/-- Forty rows, one in every cycle. -/
theorem flits_back_to_back_forty :
    let is := List.replicate 40 (In.beat 5 true)
    ticks NpuUnit.step sentFlit (NpuUnit.reset fun _ => 0) is = List.range' 17 23 :=
  flits_back_to_back (empty_reset _) (StreamCtrl.wf_reset _) (by decide +kernel)

end Npu
