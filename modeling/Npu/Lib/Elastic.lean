import Mathlib.Data.List.Infix
import Mathlib.Data.List.GetD

/-!
# Npu.Lib.Elastic

A linear elastic pipeline: a list of register stages, input end first, each
empty or holding one token.  A stage *moves* iff the next stage is empty or
moving, the last one iff the output takes its token; a stage that is empty or
moving is *free* and takes whatever stands before it.

`advance f out inp st` is one clock edge of the stages `st` with `inp` standing
at the input and `out` the readiness of the output; a token that enters stage
`s` is rewritten by `f s`, so a pipeline may compute while it moves.

Main results:

* `advance_append`, `free_append`, `departing_append` — a pipeline is the composition
  of its front and its back;
* `tokensAt_advance`, `tokens_advance` — no token is lost, repeated or reordered;
* `distances_advance`, `length_distances_advance` — how far the tokens have still to go;
* `potential_advance_le`, `potential_advance_lt` — a cost that tokens lose on their way bounds how
  long they stay;
* `free_eq` — the input is free iff some stage is empty or the output is ready;
* `Holds.advance` — a property of tokens by stage, kept by what moving does to a
  token, is kept by the pipeline;
* `map_advance` — a pipeline that computes moves its tokens like one that does not.
-/

namespace Elastic

/-- Whether the stages take a token at the input end: some stage is empty, or
the output is ready. -/
def free (out : Bool) : List (Option α) → Bool
  | [] => out
  | none :: _ => true
  | some _ :: st => free out st

/-- One clock edge. -/
def advance (f : Nat → α → α) (out : Bool) (inp : Option α) :
    List (Option α) → List (Option α)
  | [] => []
  | x :: st =>
      (if free out (x :: st) then inp.map (f 0) else x) ::
        advance (fun s => f (s + 1)) out x st

/-- What stands before stage `s`: the input, or the content of the stage before. -/
def incoming (inp : Option α) (st : List (Option α)) : Nat → Option α
  | 0 => inp
  | s + 1 => st.getD s none

/-- What stands before the output end. -/
def final (inp : Option α) (st : List (Option α)) : Option α := incoming inp st st.length

/-- The token handed over at the output end in this cycle. -/
def departing (out : Bool) (inp : Option α) (st : List (Option α)) : Option α :=
  if out then final inp st else none

/-- The tokens inside, oldest first. -/
def tokens : List (Option α) → List α
  | [] => []
  | x :: st => tokens st ++ x.toList

/-- Whether stage `s` is empty or moves. -/
def freeAt (out : Bool) (st : List (Option α)) (s : Nat) : Bool := free out (st.drop s)

/-! ## free stages -/

@[simp] theorem free_nil (out : Bool) : free out ([] : List (Option α)) = out := rfl

@[simp] theorem free_none (out : Bool) (st : List (Option α)) :
    free out (none :: st) = true := rfl

@[simp] theorem free_some (out : Bool) (a : α) (st : List (Option α)) :
    free out (some a :: st) = free out st := rfl

theorem free_append (out : Bool) (st su : List (Option α)) :
    free out (st ++ su) = free (free out su) st := by
  induction st with
  | nil => rfl
  | cons x st ih => cases x <;> simp [ih]

/-- Stage `s` is empty or moves iff it is empty or the next stage does. -/
theorem freeAt_of_lt {out : Bool} {st : List (Option α)} {s : Nat} (h : s < st.length) :
    freeAt out st s = ((st.getD s none).isNone || freeAt out st (s + 1)) := by
  rw [freeAt, freeAt, List.drop_eq_getElem_cons h, List.getD_eq_getElem _ _ h]
  cases hx : st[s] <;> simp

@[simp] theorem freeAt_length (out : Bool) (st : List (Option α)) :
    freeAt out st st.length = out := by
  simp [freeAt]

theorem freeAt_zero (out : Bool) (st : List (Option α)) : freeAt out st 0 = free out st := rfl

/-- Readiness only spreads upstream. -/
theorem freeAt_of_le {out : Bool} {st : List (Option α)} {s t : Nat} (hst : s ≤ t)
    (ht : t ≤ st.length) (h : freeAt out st t = true) : freeAt out st s = true := by
  induction t, hst using Nat.le_induction with
  | base => exact h
  | succ t hst ih =>
      have hlt : t < st.length := by omega
      refine ih (by omega) ?_
      rw [freeAt_of_lt hlt, h, Bool.or_true]

/-! ## one edge, stage by stage -/

@[simp] theorem length_advance (f : Nat → α → α) (out : Bool) (inp : Option α)
    (st : List (Option α)) : (advance f out inp st).length = st.length := by
  induction st generalizing f inp with
  | nil => rfl
  | cons x st ih => simp [advance, ih]

/-- A free stage takes what stands before it, every other stage keeps its token. -/
theorem getD_advance (f : Nat → α → α) (out : Bool) (inp : Option α) (st : List (Option α))
    {s : Nat} (h : s < st.length) :
    (advance f out inp st).getD s none =
      if freeAt out st s then (incoming inp st s).map (f s) else st.getD s none := by
  induction st generalizing f inp s with
  | nil => simp at h
  | cons x st ih =>
      cases s with
      | zero => simp [advance, freeAt, incoming]
      | succ s =>
          have hs : s < st.length := by simpa using h
          have hin : incoming inp (x :: st) (s + 1) = incoming x st s := by
            cases s <;> simp [incoming]
          simp only [advance, List.getD_cons_succ, hin]
          rw [ih _ _ hs]
          simp [freeAt]

/-! ## composition -/

theorem final_append (inp : Option α) (st su : List (Option α)) :
    final inp (st ++ su) = final (final inp st) su := by
  induction st generalizing inp with
  | nil => rfl
  | cons x st ih =>
      have hcons : ∀ tl : List (Option α), final inp (x :: tl) = final x tl := by
        intro tl
        cases tl <;> simp [final, incoming]
      rw [List.cons_append, hcons, hcons, ih]

theorem final_cons (inp x : Option α) (st : List (Option α)) :
    final inp (x :: st) = final x st := final_append inp [x] st

/-- The front up to stage `s` ends in what stands before stage `s`. -/
theorem final_take (inp : Option α) (st : List (Option α)) {s : Nat} (hs : s ≤ st.length) :
    final inp (st.take s) = incoming inp st s := by
  rw [final, List.length_take_of_le hs]
  cases s with
  | zero => rfl
  | succ s =>
      have hlt : s < (st.take (s + 1)).length := by rw [List.length_take_of_le hs]; omega
      rw [incoming, incoming, List.getD_eq_getElem _ _ hlt, List.getElem_take,
        List.getD_eq_getElem _ _ (by omega)]

/-- A pipeline is its front followed by its back: the front's output is as ready
as the back's input, and the back is fed by the front's last stage. -/
theorem advance_append (f : Nat → α → α) (out : Bool) (inp : Option α)
    (st su : List (Option α)) :
    advance f out inp (st ++ su) =
      advance f (free out su) inp st ++
        advance (fun s => f (s + st.length)) out (final inp st) su := by
  induction st generalizing f inp with
  | nil => rfl
  | cons x st ih =>
      have hfree : free out (x :: (st ++ su)) = free (free out su) (x :: st) :=
        free_append out (x :: st) su
      rw [List.cons_append, advance, advance, ih, final_cons, hfree]
      simp [Nat.add_assoc]

theorem departing_append (out : Bool) (inp : Option α) (st su : List (Option α)) :
    departing out inp (st ++ su) = departing out (final inp st) su := by
  simp [departing, final_append]

/-! ## tokens are neither lost nor repeated nor reordered -/

@[simp] theorem tokens_nil : tokens ([] : List (Option α)) = [] := rfl

@[simp] theorem tokens_cons (x : Option α) (st : List (Option α)) :
    tokens (x :: st) = tokens st ++ x.toList := rfl

theorem tokens_append (st su : List (Option α)) :
    tokens (st ++ su) = tokens su ++ tokens st := by
  induction st with
  | nil => simp
  | cons x st ih => simp [ih]

theorem length_tokens_le (st : List (Option α)) : (tokens st).length ≤ st.length := by
  induction st with
  | nil => simp
  | cons x st ih => cases x <;> simp <;> omega

theorem length_tokens_eq_iff {st : List (Option α)} :
    (tokens st).length = st.length ↔ ∀ x ∈ st, x.isSome = true := by
  induction st with
  | nil => simp
  | cons x st ih =>
      have hle := length_tokens_le st
      cases x with
      | none => simp; omega
      | some a => simp [ih]

@[simp] theorem tokens_replicate_none (n : Nat) :
    tokens (List.replicate n (none : Option α)) = [] := by
  induction n with
  | zero => rfl
  | succ n ih => simp [List.replicate_succ, ih]

theorem mem_tokens {a : α} {st : List (Option α)} : a ∈ tokens st ↔ some a ∈ st := by
  induction st with
  | nil => simp
  | cons x st ih => cases x <;> simp [ih, or_comm, eq_comm]

/-- The input is free iff a stage is empty or the output is ready. -/
theorem free_eq (out : Bool) (st : List (Option α)) :
    free out st = (decide ((tokens st).length < st.length) || out) := by
  induction st with
  | nil => simp
  | cons x st ih =>
      cases x with
      | none =>
          have h := length_tokens_le st
          have hlt : (tokens st).length < st.length + 1 := by omega
          simp [hlt]
      | some a => simp [ih]

/-- The tokens inside, oldest first, seen through a `key` that depends on the stage before which
a token stands: the token in stage `s` stands before stage `s + 1`. -/
def tokensAt (key : Nat → α → Option β) : List (Option α) → List β
  | [] => []
  | x :: st => tokensAt (fun s => key (s + 1)) st ++ x.toList.filterMap (key 1)

theorem tokensAt_const {key : Nat → α → Option β} {k : α → Option β}
    (h : ∀ s, key (s + 1) = k) (st : List (Option α)) :
    tokensAt key st = (tokens st).filterMap k := by
  induction st generalizing key with
  | nil => rfl
  | cons x st ih =>
      have hone : key 1 = k := h 0
      rw [tokensAt, ih fun s => h (s + 1), tokens_cons, List.filterMap_append, hone]

theorem length_tokensAt {key : Nat → α → Option β} {k : α → Option γ}
    (h : ∀ s a, (key s a).isSome = (k a).isSome) (st : List (Option α)) :
    (tokensAt key st).length = ((tokens st).filterMap k).length := by
  induction st generalizing key with
  | nil => rfl
  | cons x st ih =>
      have hx : (x.toList.filterMap (key 1)).length = (x.toList.filterMap k).length := by
        cases x with
        | none => rfl
        | some a =>
            have ha := h 1 a
            cases hk : key 1 a <;> cases hk' : k a <;> simp [hk, hk'] at ha ⊢
      rw [tokensAt, tokens_cons, List.filterMap_append, List.length_append, List.length_append, hx,
        ih fun s a => h (s + 1) a]

/-- **Conservation**: seen through a `key` that each stage undoes, the tokens inside and the one
accepted are the one departing and the tokens inside afterwards. -/
theorem tokensAt_advance {key : Nat → α → Option β} {f : Nat → α → α}
    (hkey : ∀ s a, key (s + 1) (f s a) = key s a) (out : Bool) (inp : Option α)
    (st : List (Option α)) :
    tokensAt key st ++ (if free out st then inp else none).toList.filterMap (key 0) =
      (departing out inp st).toList.filterMap (key st.length) ++
        tokensAt key (advance f out inp st) := by
  induction st generalizing key f inp with
  | nil => cases out <;> simp [tokensAt, departing, final, incoming, advance]
  | cons x st ih =>
      have hmap : ∀ o : Option α,
          (o.map (f 0)).toList.filterMap (key 1) = o.toList.filterMap (key 0) := by
        intro o
        cases o <;> simp [List.filterMap_cons, hkey]
      have ih' := @ih (fun s => key (s + 1)) (fun s => f (s + 1)) (fun s a => hkey (s + 1) a) x
      have hdep : departing out inp (x :: st) = departing out x st :=
        departing_append out inp [x] st
      rw [advance, tokensAt, tokensAt, hdep, List.length_cons, ← List.append_assoc, ← ih',
        List.append_assoc, List.append_assoc]
      cases x with
      | none => simp [hmap]
      | some a => cases hf : free out st <;> simp [hf, hmap]

/-- Conservation for a `key` that moving does not change. -/
theorem tokens_advance (key : α → Option β) (f : Nat → α → α) (out : Bool)
    (inp : Option α) (st : List (Option α)) (hkey : ∀ s a, key (f s a) = key a) :
    (tokens st).filterMap key ++ (if free out st then inp else none).toList.filterMap key =
      (departing out inp st).toList.filterMap key ++
        (tokens (advance f out inp st)).filterMap key := by
  have hconst : ∀ su : List (Option α), tokensAt (fun _ => key) su = (tokens su).filterMap key :=
    tokensAt_const fun _ => rfl
  rw [← hconst, ← hconst]
  exact tokensAt_advance hkey out inp st

/-- Conservation for a `key` that only later stages leave alone; the accepted token counts as
the first stage rewrites it. -/
theorem tokens_advance_of_entered (key : α → Option β) (f : Nat → α → α) (out : Bool)
    (inp x : Option α) (st : List (Option α)) (hkey : ∀ s a, key (f (s + 1) a) = key a) :
    (tokens (x :: st)).filterMap key ++
        ((if free out (x :: st) then inp else none).map (f 0)).toList.filterMap key =
      (departing out inp (x :: st)).toList.filterMap key ++
        (tokens (advance f out inp (x :: st))).filterMap key := by
  let first : Nat → α → Option β := fun s a => if s = 0 then key (f 0 a) else key a
  have hfirst : ∀ s a, first (s + 1) (f s a) = first s a := by
    intro s a
    cases s with
    | zero => rfl
    | succ s => exact hkey s a
  have hconst : ∀ su : List (Option α), tokensAt first su = (tokens su).filterMap key :=
    tokensAt_const fun _ => rfl
  have haccept : ∀ o : Option α,
      (o.map (f 0)).toList.filterMap key = o.toList.filterMap (first 0) := by
    intro o
    cases o <;> simp [first, List.filterMap_cons]
  rw [haccept, ← hconst, ← hconst]
  exact tokensAt_advance hfirst out inp (x :: st)

/-! ## distances -/

/-- How many stages the tokens that satisfy `p` have still to go, oldest first; the one in the last
stage has one. -/
def distances (p : α → Bool) : List (Option α) → List Nat
  | [] => []
  | x :: st => distances p st ++ if x.any p then [st.length + 1] else []

theorem distances_le {p : α → Bool} {st : List (Option α)} : ∀ d ∈ distances p st, d ≤ st.length := by
  induction st with
  | nil => simp [distances]
  | cons x st ih =>
      intro d hd
      rw [distances, List.mem_append] at hd
      rw [List.length_cons]
      rcases hd with hd | hd
      · exact (ih d hd).trans (Nat.le_succ _)
      · split at hd <;> simp_all

theorem length_distances (p : α → Bool) (st : List (Option α)) :
    (distances p st).length = ((tokens st).filter p).length := by
  induction st with
  | nil => rfl
  | cons x st ih =>
      cases x with
      | none => simp [distances, ih]
      | some a => cases ha : p a <;> simp [distances, ih, ha]

/-- Before a ready output every token comes a stage nearer. -/
theorem distances_advance {p : α → Bool} {f : Nat → α → α} (hp : ∀ s a, p (f s a) = p a)
    (inp : Option α) (st : List (Option α)) :
    distances p st ++ (if inp.any p then [st.length + 1] else []) =
      (if (final inp st).any p then [1] else []) ++
        (distances p (advance f true inp st)).map (· + 1) := by
  induction st generalizing inp f with
  | nil => cases hi : inp.any p <;> simp [distances, final, incoming, advance, hi]
  | cons x st ih =>
      have hmoved : ((inp.map (f 0)).any p) = inp.any p := by cases inp <;> simp [hp]
      have hfree : free true (x :: st) = true := by rw [free_eq, Bool.or_true]
      have ih' := @ih (fun s => f (s + 1)) (fun s a => hp (s + 1) a) x
      rw [distances, ih', advance, hfree, if_pos rfl, distances, hmoved, length_advance, final_cons]
      cases inp.any p <;> simp

/-- In any case none is lost. -/
theorem length_distances_advance {p : α → Bool} {f : Nat → α → α} (hp : ∀ s a, p (f s a) = p a)
    (out : Bool) (inp : Option α) (st : List (Option α)) :
    (distances p st).length + (free out st && inp.any p).toNat =
      ((departing out inp st).any p).toNat + (distances p (advance f out inp st)).length := by
  induction st generalizing inp f with
  | nil => cases out <;> simp [distances, departing, final, incoming, advance]
  | cons x st ih =>
      have hmoved : ((inp.map (f 0)).any p) = inp.any p := by cases inp <;> simp [hp]
      have ih' := @ih (fun s => f (s + 1)) (fun s a => hp (s + 1) a) x
      have hdep : departing out inp (x :: st) = departing out x st := departing_append out inp [x] st
      rw [hdep]
      cases x with
      | none => cases hi : inp.any p <;> simp_all [distances, advance, Nat.add_assoc]
      | some a =>
          cases hf : free out st <;> cases hi : inp.any p <;> cases ha : p a <;>
            simp_all [distances, advance] <;> omega

/-! ## potentials -/

/-- What the tokens inside cost, where one in stage `s` stands before stage `s + 1`. -/
def potential (cost : Nat → α → Nat) : List (Option α) → Nat
  | [] => 0
  | x :: st => x.elim 0 (cost 1) + potential (fun s => cost (s + 1)) st

/-- If no stage raises the cost of a token, an edge does not raise the potential. -/
theorem potential_advance_le {cost : Nat → α → Nat} {f : Nat → α → α}
    (hcost : ∀ s a, cost (s + 1) (f s a) ≤ cost s a) (out : Bool) (inp : Option α)
    (st : List (Option α)) :
    potential cost (advance f out inp st) + (departing out inp st).elim 0 (cost st.length) ≤
      potential cost st + (if free out st then inp else none).elim 0 (cost 0) := by
  induction st generalizing cost f inp with
  | nil => cases out <;> simp [potential, advance, departing, final, incoming]
  | cons x st ih =>
      have ih' := @ih (fun s => cost (s + 1)) (fun s => f (s + 1)) (fun s a => hcost (s + 1) a) x
      have hdep : departing out inp (x :: st) = departing out x st :=
        departing_append out inp [x] st
      have hmove : (inp.map (f 0)).elim 0 (cost 1) ≤ inp.elim 0 (cost 0) := by
        cases inp with
        | none => exact le_rfl
        | some a => exact hcost 0 a
      rw [hdep, advance, potential, potential, List.length_cons]
      cases x with
      | none =>
          simp only [ite_self, Option.elim_none, free_none, if_true, Nat.zero_add] at ih' ⊢
          omega
      | some a =>
          rw [free_some]
          cases hf : free out st <;>
            simp only [hf, if_true, if_false, Bool.false_eq_true, Option.elim_none,
              Option.elim_some, Nat.zero_add] at ih' ⊢ <;> omega

/-- With a ready output everything moves, so if every stage lowers the cost of a token and those
that depart still cost something, the potential falls. -/
theorem potential_advance_lt {cost : Nat → α → Nat} {f : Nat → α → α} (inp : Option α)
    (st : List (Option α)) (hcost : ∀ s a, s < st.length → cost (s + 1) (f s a) < cost s a)
    (hpos : ∀ a, 0 < cost st.length a) :
    potential cost (advance f true inp st) + inp.toList.length + (tokens st).length ≤
      potential cost st + inp.elim 0 (cost 0) := by
  induction st generalizing cost f inp with
  | nil =>
      cases inp with
      | none => exact le_rfl
      | some a => simpa [potential, advance] using Nat.succ_le_of_lt (hpos a)
  | cons x st ih =>
      have ih' := @ih (fun s => cost (s + 1)) (fun s => f (s + 1)) x
        (fun s a hs => hcost (s + 1) a (by simpa using hs)) hpos
      simp only [Nat.zero_add] at ih'
      have hfree : free true (x :: st) = true := by simp [free_eq]
      have hmove : (inp.map (f 0)).elim 0 (cost 1) + inp.toList.length ≤ inp.elim 0 (cost 0) := by
        cases inp with
        | none => exact le_rfl
        | some a => exact hcost 0 a (Nat.zero_lt_succ _)
      rw [advance, potential, potential, hfree, if_pos rfl, tokens_cons, List.length_append]
      omega

/-- If every token costs something, only the empty pipeline has potential 0. -/
theorem potential_eq_zero_iff {cost : Nat → α → Nat} {st : List (Option α)}
    (hpos : ∀ s a, 0 < cost s a) : potential cost st = 0 ↔ tokens st = [] := by
  induction st generalizing cost with
  | nil => simp [potential]
  | cons x st ih =>
      rw [potential, Nat.add_eq_zero_iff, ih fun s => hpos (s + 1), tokens_cons,
        List.append_eq_nil_iff, and_comm]
      refine and_congr_right fun _ => ?_
      cases x with
      | none => simp
      | some a => simpa using (hpos 1 a).ne'

theorem potential_le {cost : Nat → α → Nat} {bound : Nat} (h : ∀ s a, cost (s + 1) a ≤ bound)
    (st : List (Option α)) : potential cost st ≤ st.length * bound := by
  induction st generalizing cost with
  | nil => exact Nat.zero_le _
  | cons x st ih =>
      have hrest := @ih (fun s => cost (s + 1)) fun s => h (s + 1)
      have hx : x.elim 0 (cost 1) ≤ bound := by
        cases x with
        | none => exact Nat.zero_le _
        | some a => exact h 0 a
      rw [potential, List.length_cons, Nat.succ_mul]
      omega

/-! ## properties of tokens by stage -/

/-- Every token inside satisfies `P` at its stage. -/
def Holds (P : Nat → α → Prop) (st : List (Option α)) : Prop :=
  ∀ s a, s < st.length → st.getD s none = some a → P s a

theorem holds_replicate_none (P : Nat → α → Prop) (n : Nat) :
    Holds P (List.replicate n none) := by
  intro s a hs ha
  rw [List.length_replicate] at hs
  simp [List.getD_eq_getElem?_getD, hs] at ha

/-- What entering the first stage gives and moving on keeps, an edge keeps. -/
theorem Holds.advance {P : Nat → α → Prop} {f : Nat → α → α} {out : Bool} {inp : Option α}
    {st : List (Option α)} (h : Holds P st) (hin : ∀ a, inp = some a → P 0 (f 0 a))
    (hmove : ∀ s a, s + 1 < st.length → P s a → P (s + 1) (f (s + 1) a)) :
    Holds P (advance f out inp st) := by
  intro s a hs ha
  rw [length_advance] at hs
  rw [getD_advance f out inp st hs] at ha
  split at ha
  · obtain ⟨b, hb, rfl⟩ := Option.map_eq_some_iff.mp ha
    cases s with
    | zero => exact hin b hb
    | succ s => exact hmove s b hs (h s b (by omega) hb)
  · exact h s a hs ha

/-! ## pipelines that only move -/

theorem free_map (g : α → β) (out : Bool) (st : List (Option α)) :
    free out (st.map (Option.map g)) = free out st := by
  induction st with
  | nil => rfl
  | cons x st ih => cases x <;> simp [ih]

/-- Seen through a `g` that no stage changes, a pipeline only moves its tokens. -/
theorem map_advance {g : α → β} {f : Nat → α → α} (hg : ∀ s a, g (f s a) = g a) (out : Bool)
    (inp : Option α) (st : List (Option α)) :
    (advance f out inp st).map (Option.map g) =
      advance (fun _ b => b) out (inp.map g) (st.map (Option.map g)) := by
  induction st generalizing f inp with
  | nil => rfl
  | cons x st ih =>
      have hfree : free out (x.map g :: st.map (Option.map g)) = free out (x :: st) :=
        free_map g out (x :: st)
      have hmap : ∀ o : Option α, (o.map (f 0)).map g = o.map g := by
        intro o
        cases o <;> simp [hg]
      simp only [advance, List.map_cons, hfree, ih (f := fun s => f (s + 1)) fun s a => hg (s + 1) a]
      split <;> simp [hmap, Function.comp_def]

/-- An empty last stage hides the readiness of the output. -/
theorem advance_of_last_none (f : Nat → α → α) (out out' : Bool) (inp : Option α)
    (st : List (Option α)) :
    advance f out inp (st ++ [none]) = advance f out' inp (st ++ [none]) := by
  rw [advance_append, advance_append]
  rfl

theorem free_of_last_none (out : Bool) (st : List (Option α)) :
    free out (st ++ [none]) = true := by
  rw [free_append, free_eq]
  simp

end Elastic
