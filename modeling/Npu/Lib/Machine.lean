import Mathlib.Data.List.Infix

/-!
# Npu.Lib.Machine

Synchronous machines over lists of cycle inputs: `run` iterates a step function,
`emits` collects what an observation reports in each cycle, `Always` says that a
condition holds in every cycle of a run.

These rules carry the proofs about runs:

* `run_invariant` — what every step keeps, a run keeps;
* `rank_run` — what every step lowers, a long enough run brings to 0;
* `emits_lossless` — if one step moves `pending` by what enters and leaves,
  then along a run everything that entered has left or is still pending;
* `emits_sim` — a lock-step simulation makes the observations of two machines
  agree.

`fed` is what a component of a larger machine sees; the component runs on it
(`run_proj`, `emits_proj`, `always_proj`).
-/

namespace Machine

variable {σ τ ι ι' ω ω' : Type*}

/-- The state after the inputs `is`. -/
def run (step : σ → ι → σ) (s : σ) (is : List ι) : σ := is.foldl step s

/-- Everything `obs` reports in the cycles of a run, in order. -/
def emits (step : σ → ι → σ) (obs : σ → ι → List ω) (s : σ) : List ι → List ω
  | [] => []
  | i :: is => obs s i ++ emits step obs (step s i) is

/-- `p` holds of state and input in every cycle of a run. -/
def Always (step : σ → ι → σ) (p : σ → ι → Prop) (s : σ) : List ι → Prop
  | [] => True
  | i :: is => p s i ∧ Always step p (step s i) is

instance decidableAlways {step : σ → ι → σ} {p : σ → ι → Prop} [∀ s i, Decidable (p s i)] :
    (s : σ) → (is : List ι) → Decidable (Always step p s is)
  | _, [] => .isTrue trivial
  | s, i :: is =>
      have : Decidable (Always step p (step s i) is) := decidableAlways (step s i) is
      inferInstanceAs (Decidable (p s i ∧ Always step p (step s i) is))

section
variable {step : σ → ι → σ}

@[simp] theorem run_nil (s : σ) : run step s [] = s := rfl

@[simp] theorem run_cons (s : σ) (i : ι) (is : List ι) :
    run step s (i :: is) = run step (step s i) is := rfl

@[simp] theorem run_append (s : σ) (is js : List ι) :
    run step s (is ++ js) = run step (run step s is) js := by
  simp [run]

@[simp] theorem emits_nil (obs : σ → ι → List ω) (s : σ) : emits step obs s [] = [] := rfl

@[simp] theorem emits_cons (obs : σ → ι → List ω) (s : σ) (i : ι) (is : List ι) :
    emits step obs s (i :: is) = obs s i ++ emits step obs (step s i) is := rfl

@[simp] theorem emits_append (obs : σ → ι → List ω) (s : σ) (is js : List ι) :
    emits step obs s (is ++ js) = emits step obs s is ++ emits step obs (run step s is) js := by
  induction is generalizing s with
  | nil => rfl
  | cons i is ih => simp [ih]

/-- What a run has reported so far only grows. -/
theorem emits_grows (obs : σ → ι → List ω) (s : σ) {is js : List ι} (h : is <+: js) :
    emits step obs s is <+: emits step obs s js := by
  obtain ⟨ks, rfl⟩ := h
  rw [emits_append]
  exact List.prefix_append _ _

theorem emits_map (g : ω → ω') (obs : σ → ι → List ω) (s : σ) (is : List ι) :
    emits step (fun s i => (obs s i).map g) s is = (emits step obs s is).map g := by
  induction is generalizing s with
  | nil => rfl
  | cons i is ih => simp [ih]

@[simp] theorem always_nil (p : σ → ι → Prop) (s : σ) : Always step p s [] := trivial

@[simp] theorem always_cons {p : σ → ι → Prop} {s : σ} {i : ι} {is : List ι} :
    Always step p s (i :: is) ↔ p s i ∧ Always step p (step s i) is := Iff.rfl

@[simp] theorem always_append {p : σ → ι → Prop} {s : σ} {is js : List ι} :
    Always step p s (is ++ js) ↔ Always step p s is ∧ Always step p (run step s is) js := by
  induction is generalizing s with
  | nil => simp
  | cons i is ih => simp [ih, and_assoc]

theorem Always.imp {p q : σ → ι → Prop} (h : ∀ s i, p s i → q s i) {s : σ} {is : List ι}
    (hp : Always step p s is) : Always step q s is := by
  induction is generalizing s with
  | nil => trivial
  | cons i is ih => exact ⟨h _ _ hp.1, ih hp.2⟩

theorem always_map {κ : Type*} {f : κ → ι} {p : σ → ι → Prop} {s : σ} {ks : List κ} :
    Always step p s (ks.map f) ↔
      Always (fun s k => step s (f k)) (fun s k => p s (f k)) s ks := by
  induction ks generalizing s with
  | nil => simp
  | cons k ks ih => simp [ih]

/-- A condition on the inputs alone. -/
theorem always_of_forall_mem {q : ι → Prop} {s : σ} {is : List ι} (h : ∀ i ∈ is, q i) :
    Always step (fun _ i => q i) s is := by
  induction is generalizing s with
  | nil => trivial
  | cons i is ih =>
      exact ⟨h i List.mem_cons_self, ih fun j hj => h j (List.mem_cons_of_mem i hj)⟩

/-! ## the rules -/

/-- **Invariant rule**: what every allowed step keeps, a run of allowed steps keeps. -/
theorem run_invariant {p : σ → ι → Prop} {Inv : σ → Prop}
    (hstep : ∀ s i, Inv s → p s i → Inv (step s i)) {s : σ} {is : List ι}
    (hs : Inv s) (hp : Always step p s is) : Inv (run step s is) := by
  induction is generalizing s with
  | nil => exact hs
  | cons i is ih => exact ih (hstep s i hs hp.1) hp.2

/-- An invariant of the allowed steps, with what it implies in each cycle. -/
theorem always_of_invariant {p q : σ → ι → Prop} {Inv : σ → Prop}
    (hstep : ∀ s i, Inv s → p s i → Inv (step s i)) (hq : ∀ s i, Inv s → p s i → q s i)
    {s : σ} {is : List ι} (hs : Inv s) (hp : Always step p s is) : Always step q s is := by
  induction is generalizing s with
  | nil => trivial
  | cons i is ih => exact ⟨hq s i hs hp.1, ih (hstep s i hs hp.1) hp.2⟩

/-- **Ranking rule**: a rank that every allowed step lowers, down to 0, falls by the length of the
run. -/
theorem rank_run {p : σ → ι → Prop} {Inv : σ → Prop} {rank : σ → Nat}
    (hstep : ∀ s i, Inv s → p s i → Inv (step s i))
    (hrank : ∀ s i, Inv s → p s i → rank (step s i) ≤ rank s - 1) {s : σ} {is : List ι}
    (hs : Inv s) (hp : Always step p s is) : rank (run step s is) ≤ rank s - is.length := by
  induction is generalizing s with
  | nil => exact le_rfl
  | cons i is ih =>
      have hone := hrank s i hs hp.1
      have hrest := ih (hstep s i hs hp.1) hp.2
      rw [run_cons, List.length_cons]
      omega

/-- In how many cycles of a run `f` holds. -/
def count (step : σ → ι → σ) (f : σ → ι → Bool) (s : σ) : List ι → Nat
  | [] => 0
  | i :: is => (f s i).toNat + count step f (step s i) is

theorem count_input (f : ι → Bool) (s : σ) (is : List ι) :
    count step (fun _ i => f i) s is = is.countP f := by
  induction is generalizing s with
  | nil => rfl
  | cons i is ih =>
      rw [count, ih, List.countP_cons, Nat.add_comm]
      cases f i <;> rfl

theorem count_replicate {f : σ → ι → Bool} {i : ι} (h : ∀ s, f s i = true) (s : σ) (n : Nat) :
    count step f s (List.replicate n i) = n := by
  induction n generalizing s with
  | zero => rfl
  | succ n ih => rw [List.replicate_succ, count, ih, h, Bool.toNat_true, Nat.add_comm]

/-- **Countdown rule**: a bound that each cycle with `f` lowers and no cycle raises falls by their
count. -/
theorem countdown_run {p : σ → ι → Prop} {f : σ → ι → Bool} {Inv : Nat → σ → Prop}
    (hstep : ∀ B s i, Inv B s → p s i → Inv (B - (f s i).toNat) (step s i)) {B : Nat} {s : σ}
    {is : List ι} (hs : Inv B s) (hp : Always step p s is) :
    Inv (B - count step f s is) (run step s is) := by
  induction is generalizing B s with
  | nil => exact hs
  | cons i is ih =>
      rw [count, ← Nat.sub_sub]
      exact ih (hstep B s i hs hp.1) hp.2

/-- **Conservation rule**: if in each cycle what enters joins the pending items at
the back and what leaves is taken from their front, then along a run everything
that was pending or entered has left, in order, or is still pending. -/
theorem emits_lossless {p : σ → ι → Prop} {Inv : σ → Prop} {entered left : σ → ι → List ω}
    {pending : σ → List ω}
    (hstep : ∀ s i, Inv s → p s i → Inv (step s i))
    (hmove : ∀ s i, Inv s → p s i → pending s ++ entered s i = left s i ++ pending (step s i))
    {s : σ} {is : List ι} (hs : Inv s) (hp : Always step p s is) :
    pending s ++ emits step entered s is =
      emits step left s is ++ pending (run step s is) := by
  induction is generalizing s with
  | nil => simp
  | cons i is ih =>
      rw [emits_cons, emits_cons, run_cons, ← List.append_assoc, hmove s i hs hp.1,
        List.append_assoc, ih (hstep s i hs hp.1) hp.2, List.append_assoc]

/-- The conservation rule for a machine whose every step conserves. -/
theorem emits_conserved {entered left : σ → ι → List ω} {pending : σ → List ω}
    (hmove : ∀ s i, pending s ++ entered s i = left s i ++ pending (step s i))
    (s : σ) (is : List ι) :
    pending s ++ emits step entered s is =
      emits step left s is ++ pending (run step s is) := by
  let Inv : σ → Prop := fun _ => True
  have hs : Inv s := trivial
  have hstep : ∀ s i, Inv s → True → Inv (step s i) := fun _ _ _ _ => trivial
  exact emits_lossless hstep (fun s i _ _ => hmove s i) hs
    (always_of_forall_mem fun _ _ => trivial)

end

section
variable {step : σ → ι → σ} {step' : τ → ι → τ} {p : σ → ι → Prop} {R : σ → τ → Prop}

/-- **Simulation rule**: a relation kept by every allowed cycle relates the states
after a run over the same inputs. -/
theorem run_sim (hstep : ∀ s t i, R s t → p s i → R (step s i) (step' t i))
    {s : σ} {t : τ} {is : List ι} (hR : R s t) (hp : Always step p s is) :
    R (run step s is) (run step' t is) := by
  induction is generalizing s t with
  | nil => exact hR
  | cons i is ih => exact ih (hstep s t i hR hp.1) hp.2

/-- **Simulation rule, observations**: related machines that report the same in
every allowed cycle report the same along a run. -/
theorem emits_sim {obs : σ → ι → List ω} {obs' : τ → ι → List ω}
    (hstep : ∀ s t i, R s t → p s i → R (step s i) (step' t i))
    (hobs : ∀ s t i, R s t → p s i → obs s i = obs' t i)
    {s : σ} {t : τ} {is : List ι} (hR : R s t) (hp : Always step p s is) :
    emits step obs s is = emits step' obs' t is := by
  induction is generalizing s t with
  | nil => rfl
  | cons i is ih =>
      rw [emits_cons, emits_cons, hobs s t i hR hp.1, ih (hstep s t i hR hp.1) hp.2]

/-- **Simulation rule, conditions**: what an allowed cycle of one machine gives for
the other holds in every cycle of its run. -/
theorem always_sim {q : τ → ι → Prop}
    (hstep : ∀ s t i, R s t → p s i → R (step s i) (step' t i))
    (hq : ∀ s t i, R s t → p s i → q t i)
    {s : σ} {t : τ} {is : List ι} (hR : R s t) (hp : Always step p s is) :
    Always step' q t is := by
  induction is generalizing s t with
  | nil => trivial
  | cons i is ih => exact ⟨hq s t i hR hp.1, ih (hstep s t i hR hp.1) hp.2⟩

end

/-! ## when -/

/-- The cycles in which `obs` reports something, counted from 0, once for each thing reported. -/
def ticks (step : σ → ι → σ) (obs : σ → ι → List ω) (s : σ) : List ι → List Nat
  | [] => []
  | i :: is => (obs s i).map (fun _ => 0) ++ (ticks step obs (step s i) is).map (· + 1)

section
variable {step : σ → ι → σ}

@[simp] theorem ticks_nil (obs : σ → ι → List ω) (s : σ) : ticks step obs s [] = [] := rfl

@[simp] theorem ticks_cons (obs : σ → ι → List ω) (s : σ) (i : ι) (is : List ι) :
    ticks step obs s (i :: is) =
      (obs s i).map (fun _ => 0) ++ (ticks step obs (step s i) is).map (· + 1) := rfl

end

section
variable {step : σ → ι → σ} {step' : τ → ι → τ} {R : σ → τ → Prop}

/-- **Two runs**: if inputs that look the same keep states related that report the same, then
runs whose inputs look the same report the same. -/
theorem emits_same {view : ι → ι'} {obs : σ → ι → List ω} {obs' : τ → ι → List ω}
    (hstep : ∀ s t i j, R s t → view i = view j → R (step s i) (step' t j))
    (hobs : ∀ s t i j, R s t → view i = view j → obs s i = obs' t j)
    {s : σ} {t : τ} {is js : List ι} (hR : R s t) (h : is.map view = js.map view) :
    emits step obs s is = emits step' obs' t js := by
  induction is generalizing s t js with
  | nil =>
      rw [List.map_nil, eq_comm, List.map_eq_nil_iff] at h
      rw [h]
      rfl
  | cons i is ih =>
      rw [List.map_cons, eq_comm, List.map_eq_cons_iff] at h
      obtain ⟨j, js, rfl, hj, hjs⟩ := h
      rw [emits_cons, emits_cons, hobs s t i j hR hj.symm, ih (hstep s t i j hR hj.symm) hjs.symm]

end

/-! ## components -/

/-- What a component that is wired to `feed` sees along a run. -/
def fed (step : σ → ι → σ) (feed : σ → ι → ι') (s : σ) (is : List ι) : List ι' :=
  emits step (fun s i => [feed s i]) s is

section
variable {step : σ → ι → σ} {feed : σ → ι → ι'} {step' : τ → ι' → τ} {proj : σ → τ}

@[simp] theorem fed_nil (s : σ) : fed step feed s [] = [] := rfl

@[simp] theorem fed_cons (s : σ) (i : ι) (is : List ι) :
    fed step feed s (i :: is) = feed s i :: fed step feed (step s i) is := rfl

@[simp] theorem fed_append (s : σ) (is js : List ι) :
    fed step feed s (is ++ js) = fed step feed s is ++ fed step feed (run step s is) js :=
  emits_append _ s is js

@[simp] theorem length_fed (s : σ) (is : List ι) : (fed step feed s is).length = is.length := by
  induction is generalizing s with
  | nil => rfl
  | cons i is ih => simp [ih]

/-- A condition on what the component sees. -/
theorem forall_mem_fed {q : ι' → Prop} {s : σ} {is : List ι} :
    (∀ j ∈ fed step feed s is, q j) ↔ Always step (fun s i => q (feed s i)) s is := by
  induction is generalizing s with
  | nil => simp
  | cons i is ih => simp [ih]

/-- A component runs on what it sees. -/
theorem run_proj (h : ∀ s i, proj (step s i) = step' (proj s) (feed s i)) (s : σ) (is : List ι) :
    proj (run step s is) = run step' (proj s) (fed step feed s is) := by
  induction is generalizing s with
  | nil => rfl
  | cons i is ih => rw [run_cons, ih, fed_cons, run_cons, h]

theorem emits_proj (h : ∀ s i, proj (step s i) = step' (proj s) (feed s i))
    (obs : τ → ι' → List ω) (s : σ) (is : List ι) :
    emits step (fun s i => obs (proj s) (feed s i)) s is =
      emits step' obs (proj s) (fed step feed s is) := by
  induction is generalizing s with
  | nil => rfl
  | cons i is ih => rw [emits_cons, ih, fed_cons, emits_cons, h]

theorem always_proj (h : ∀ s i, proj (step s i) = step' (proj s) (feed s i))
    {p : τ → ι' → Prop} {s : σ} {is : List ι} :
    Always step (fun s i => p (proj s) (feed s i)) s is ↔
      Always step' p (proj s) (fed step feed s is) := by
  induction is generalizing s with
  | nil => simp
  | cons i is ih => rw [always_cons, ih, fed_cons, always_cons, h]

end

end Machine
