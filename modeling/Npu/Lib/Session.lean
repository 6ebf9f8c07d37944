import Npu.Lib.Machine

/-!
# Npu.Lib.Session

A machine driven by a sequence of accesses, one in a cycle, with any number of quiet cycles
before, between and behind them.

`Takes step quiet does P as Q` is the triple of such a session: from a state with `P`, the
accesses `as` lead to a state with `Q`, however they are spaced.  A proof follows the accesses
(`takes_cons`); its assertions have to be kept by quiet cycles (`Stable`).
-/

namespace Machine

variable {σ ι α : Type*}

/-- The inputs do the accesses, in order, and are quiet in all other cycles. -/
inductive Session (quiet : ι → Prop) (does : α → ι → Prop) : List α → List ι → Prop where
  | done : Session quiet does [] []
  | wait {i as is} : quiet i → Session quiet does as is → Session quiet does as (i :: is)
  | access {a i as is} : does a i → Session quiet does as is →
      Session quiet does (a :: as) (i :: is)

/-- Quiet cycles keep `P`. -/
def Stable (step : σ → ι → σ) (quiet : ι → Prop) (P : σ → Prop) : Prop :=
  ∀ s i, P s → quiet i → P (step s i)

/-- Every session of `as` leads from `P` to `Q`. -/
def Takes (step : σ → ι → σ) (quiet : ι → Prop) (does : α → ι → Prop) (P : σ → Prop)
    (as : List α) (Q : σ → Prop) : Prop :=
  ∀ s is, P s → Session quiet does as is → Q (run step s is)

section
variable {step : σ → ι → σ} {quiet : ι → Prop} {does : α → ι → Prop} {P P' Q : σ → Prop}

/-- Cycles without an access. -/
theorem takes_nil (hP : Stable step quiet P) : Takes step quiet does P [] P := by
  intro s is hs h
  generalize hnil : ([] : List α) = as at h
  induction h generalizing s with
  | done => exact hs
  | wait hi _ ih => exact ih (step s _) (hP s _ hs hi) hnil
  | access => contradiction

/-- The first access, after any wait. -/
theorem takes_cons {a : α} {as : List α} (hP : Stable step quiet P)
    (ha : ∀ s i, P s → does a i → P' (step s i)) (h : Takes step quiet does P' as Q) :
    Takes step quiet does P (a :: as) Q := by
  intro s is hs hsession
  generalize hcons : a :: as = as' at hsession
  induction hsession generalizing s with
  | done => contradiction
  | wait hi _ ih => exact ih (step s _) (hP s _ hs hi) hcons
  | access hi hrest =>
      obtain ⟨rfl, rfl⟩ := List.cons.inj hcons
      exact h (step s _) _ (ha s _ hs hi) hrest

end

end Machine
