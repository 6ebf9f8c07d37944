import Npu.Lib.Session

/-!
# Npu.Lib.Program

A machine driven by a program of accesses that may wait for the machine: `Drives` says that
the inputs perform the accesses one after the other, with any number of waiting cycles before,
between and behind them.  What a cycle has to be to wait, or to perform an access, may depend on
the state, so a loop that polls the machine is one access that is performed in the cycle in which
the poll succeeds.

`Leads step waits does ok P as Q` is the triple of such a program, over the runs whose cycles are
all `ok`.  Its assertions are kept by waiting cycles (`Keeps`); proofs follow the accesses
(`leads_cons`), programs compose (`leads_append`, `leads_flatMap`).  That a program comes to its
end at all is `MayLead`: together the two say that it does its work (`MayLead.and_leads`).  What
the sessions of a part of the machine lead to, the programs do that come down to these sessions
(`Takes.leads`).
-/

namespace Machine

variable {σ ι α : Type*}

/-- From `s` on, the inputs perform the accesses, in order, and wait in all other cycles. -/
inductive Drives (step : σ → ι → σ) (waits : σ → ι → Prop) (does : α → σ → ι → Prop) :
    List α → σ → List ι → Prop where
  | done {s} : Drives step waits does [] s []
  | wait {as s i is} : waits s i → Drives step waits does as (step s i) is →
      Drives step waits does as s (i :: is)
  | access {a as s i is} : does a s i → Drives step waits does as (step s i) is →
      Drives step waits does (a :: as) s (i :: is)

/-- Waiting cycles keep `P`. -/
def Keeps (step : σ → ι → σ) (waits ok : σ → ι → Prop) (P : σ → Prop) : Prop :=
  ∀ s i, P s → ok s i → waits s i → P (step s i)

/-- Every run of the program `as` leads from `P` to `Q`. -/
def Leads (step : σ → ι → σ) (waits : σ → ι → Prop) (does : α → σ → ι → Prop)
    (ok : σ → ι → Prop) (P : σ → Prop) (as : List α) (Q : σ → Prop) : Prop :=
  ∀ s is, P s → Drives step waits does as s is → Always step ok s is → Q (run step s is)

section
variable {step : σ → ι → σ} {waits : σ → ι → Prop} {does : α → σ → ι → Prop}
variable {ok : σ → ι → Prop} {P P' M Q R : σ → Prop}

/-- A run of two programs is a run of the first and a run of the second. -/
theorem drives_append {as bs : List α} {s : σ} {is : List ι}
    (h : Drives step waits does (as ++ bs) s is) :
    ∃ js ks, is = js ++ ks ∧ Drives step waits does as s js ∧
      Drives step waits does bs (run step s js) ks := by
  generalize hcs : as ++ bs = cs at h
  induction h generalizing as with
  | done =>
      obtain ⟨rfl, rfl⟩ := List.append_eq_nil_iff.mp hcs
      exact ⟨[], [], rfl, .done, .done⟩
  | wait hwaits _ ih =>
      obtain ⟨js, ks, rfl, hjs, hks⟩ := ih hcs
      exact ⟨_ :: js, ks, rfl, .wait hwaits hjs, hks⟩
  | access hdoes hrest ih =>
      cases as with
      | nil =>
          obtain rfl : bs = _ := hcs
          exact ⟨[], _, rfl, .done, .access hdoes hrest⟩
      | cons a as =>
          obtain ⟨rfl, htail⟩ := List.cons.inj hcs
          obtain ⟨js, ks, rfl, hjs, hks⟩ := ih htail
          exact ⟨_ :: js, ks, rfl, .access hdoes hjs, hks⟩

/-- Cycles without an access. -/
theorem leads_nil (hP : Keeps step waits ok P) : Leads step waits does ok P [] P := by
  intro s is hs h hok
  generalize hnil : ([] : List α) = as at h
  induction h with
  | done => exact hs
  | wait hwaits _ ih => exact ih (hP _ _ hs hok.1 hwaits) hok.2 hnil
  | access => contradiction

/-- The first access, after any wait. -/
theorem leads_cons {a : α} {as : List α} (hP : Keeps step waits ok P)
    (ha : ∀ s i, P s → ok s i → does a s i → M (step s i))
    (h : Leads step waits does ok M as Q) : Leads step waits does ok P (a :: as) Q := by
  intro s is hs hdrives hok
  generalize hcons : a :: as = as' at hdrives
  induction hdrives with
  | done => contradiction
  | wait hwaits _ ih => exact ih (hP _ _ hs hok.1 hwaits) hok.2 hcons
  | access hdoes hrest =>
      obtain ⟨rfl, rfl⟩ := List.cons.inj hcons
      exact h (step _ _) _ (ha _ _ hs hok.1 hdoes) hrest hok.2

/-- **Composition.** -/
theorem leads_append {as bs : List α} (has : Leads step waits does ok P as R)
    (hbs : Leads step waits does ok R bs Q) : Leads step waits does ok P (as ++ bs) Q := by
  intro s is hs h hok
  obtain ⟨js, ks, rfl, hjs, hks⟩ := drives_append h
  obtain ⟨hokj, hokk⟩ := always_append.mp hok
  rw [run_append]
  exact hbs _ _ (has _ _ hs hjs hokj) hks hokk

/-- **Consequence.** -/
theorem Leads.mono {as : List α} (h : Leads step waits does ok P as Q) (hP : ∀ s, P' s → P s)
    (hQ : ∀ s, Q s → R s) : Leads step waits does ok P' as R :=
  fun s is hs hdrives hok => hQ _ (h s is (hP s hs) hdrives hok)

end

/-! ## runs of a program -/

/-- From `P` some run of the program `as` leads to `Q`. -/
def MayLead (step : σ → ι → σ) (waits : σ → ι → Prop) (does : α → σ → ι → Prop)
    (ok : σ → ι → Prop) (P : σ → Prop) (as : List α) (Q : σ → Prop) : Prop :=
  ∀ s, P s → ∃ is, Drives step waits does as s is ∧ Always step ok s is ∧ Q (run step s is)

section
variable {step : σ → ι → σ} {waits : σ → ι → Prop} {does : α → σ → ι → Prop}
variable {ok : σ → ι → Prop} {P P' Q Q' R : σ → Prop}

theorem Drives.append {as bs : List α} {s : σ} {is js : List ι}
    (has : Drives step waits does as s is) (hbs : Drives step waits does bs (run step s is) js) :
    Drives step waits does (as ++ bs) s (is ++ js) := by
  induction has with
  | done => exact hbs
  | wait hwaits _ ih => exact .wait hwaits (ih hbs)
  | access hdoes _ ih => exact .access hdoes (ih hbs)

/-- Any number of waiting cycles. -/
theorem Drives.waiting {s : σ} {is : List ι} (h : Always step waits s is) :
    Drives step waits does [] s is := by
  induction is generalizing s with
  | nil => exact .done
  | cons i is ih => exact .wait h.1 (ih h.2)

theorem mayLead_append {as bs : List α} (has : MayLead step waits does ok P as R)
    (hbs : MayLead step waits does ok R bs Q) : MayLead step waits does ok P (as ++ bs) Q := by
  intro s hs
  obtain ⟨is, his, hoki, hR⟩ := has s hs
  obtain ⟨js, hjs, hokj, hQ⟩ := hbs _ hR
  exact ⟨is ++ js, his.append hjs, always_append.mpr ⟨hoki, hokj⟩, by rwa [run_append]⟩

theorem MayLead.mono {as : List α} (h : MayLead step waits does ok P as Q) (hP : ∀ s, P' s → P s)
    (hQ : ∀ s, Q s → Q' s) : MayLead step waits does ok P' as Q' := by
  intro s hs
  obtain ⟨is, his, hok, hQs⟩ := h s (hP s hs)
  exact ⟨is, his, hok, hQ _ hQs⟩

/-- A run that there is leads where all runs lead. -/
theorem MayLead.and_leads {as : List α} (h : MayLead step waits does ok P as Q)
    (h' : Leads step waits does ok P' as Q') :
    MayLead step waits does ok (fun s => P s ∧ P' s) as fun s => Q s ∧ Q' s := by
  rintro s ⟨hs, hs'⟩
  obtain ⟨is, his, hok, hQ⟩ := h s hs
  exact ⟨is, his, hok, hQ, h' s is hs' his hok⟩

end

/-! ## sequences of programs -/

section
variable {τ β : Type*} {step : σ → ι → σ} {waits : σ → ι → Prop} {does : α → σ → ι → Prop}
variable {ok : σ → ι → Prop} {program : β → List α} {next : τ → β → τ} {fits : τ → β → Prop}
variable {P : τ → σ → Prop}

/-- **One program after the other**: each that fits what the ones before leave leaves `next`. -/
theorem leads_flatMap (hkeeps : ∀ t, Keeps step waits ok (P t))
    (hprogram : ∀ t b, fits t b → Leads step waits does ok (P t) (program b) (P (next t b)))
    {bs : List β} {t : τ} (hfits : Always next fits t bs) :
    Leads step waits does ok (P t) (bs.flatMap program) (P (run next t bs)) := by
  induction bs generalizing t with
  | nil => exact leads_nil (hkeeps t)
  | cons b bs ih => exact leads_append (hprogram t b hfits.1) (ih hfits.2)

theorem mayLead_flatMap
    (hprogram : ∀ t b, fits t b → MayLead step waits does ok (P t) (program b) (P (next t b)))
    {bs : List β} {t : τ} (hfits : Always next fits t bs) :
    MayLead step waits does ok (P t) (bs.flatMap program) (P (run next t bs)) := by
  induction bs generalizing t with
  | nil => exact fun s hs => ⟨[], .done, trivial, hs⟩
  | cons b bs ih => exact mayLead_append (hprogram t b hfits.1) (ih hfits.2)

end

/-! ## a part of the machine -/

section
variable {τ κ β : Type*} {step : σ → ι → σ} {waits : σ → ι → Prop} {does : α → σ → ι → Prop}
variable {ok : σ → ι → Prop} {step' : τ → κ → τ} {quiet : κ → Prop} {does' : β → κ → Prop}
variable {part : σ → τ} {input : σ → ι → κ} {f : α → Option β}

/-- What the part sees of a program is a session of the accesses that concern it. -/
theorem Drives.session {as : List α} {s : σ} {is : List ι} (h : Drives step waits does as s is)
    (hstep : ∀ s i, part (step s i) = step' (part s) (input s i))
    (hwait : ∀ s i, waits s i → quiet (input s i))
    (hnone : ∀ a s i, f a = none → does a s i → quiet (input s i))
    (hsome : ∀ a b s i, f a = some b → does a s i → does' b (input s i)) :
    ∃ js, Session quiet does' (as.filterMap f) js ∧
      part (run step s is) = run step' (part s) js := by
  induction h with
  | done => exact ⟨[], .done, rfl⟩
  | wait hwaits _ ih =>
      obtain ⟨js, hsession, hrun⟩ := ih
      exact ⟨_ :: js, .wait (hwait _ _ hwaits) hsession, by rw [run_cons, run_cons, hrun, hstep]⟩
  | @access a as s i is hdoes _ ih =>
      obtain ⟨js, hsession, hrun⟩ := ih
      refine ⟨input s i :: js, ?_, by rw [run_cons, run_cons, hrun, hstep]⟩
      cases hf : f a with
      | none =>
          rw [List.filterMap_cons_none hf]
          exact .wait (hnone a s i hf hdoes) hsession
      | some b =>
          rw [List.filterMap_cons_some hf]
          exact .access (hsome a b s i hf hdoes) hsession

/-- **Sessions of a part.** -/
theorem Takes.leads {as : List α} {P Q : τ → Prop} (h : Takes step' quiet does' P (as.filterMap f) Q)
    (hstep : ∀ s i, part (step s i) = step' (part s) (input s i))
    (hwait : ∀ s i, waits s i → quiet (input s i))
    (hnone : ∀ a s i, f a = none → does a s i → quiet (input s i))
    (hsome : ∀ a b s i, f a = some b → does a s i → does' b (input s i)) :
    Leads step waits does ok (fun s => P (part s)) as fun s => Q (part s) := by
  intro s is hs hdrives _
  obtain ⟨js, hsession, hrun⟩ := hdrives.session hstep hwait hnone hsome
  rw [hrun]
  exact h _ _ hs hsession

end

end Machine
