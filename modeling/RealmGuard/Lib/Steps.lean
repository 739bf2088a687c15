import Mathlib.Data.List.Basic
import Mathlib.Data.Option.Basic

/-!
# Systems that take steps

`ReachesBy r init` are the states to which steps of the relation `r` lead from `init`, and
`Reaches step init` those of a function that takes a state and a call to the next state, or
to `none` when the call leaves no trace. What holds at first and is kept by every step holds
of all that is reached (`ReachesBy.invariant`), and what a call leaves to the calls after it
holds after a list of them (`foldlM_keeps`).
-/

namespace RealmGuard.Lib

variable {σ α : Type*}

/-- Steps of `r` lead from `init` to the state. -/
inductive ReachesBy (r : σ → α → σ → Prop) (init : σ) : σ → Prop where
  | refl : ReachesBy r init init
  | step {n n' : σ} {a : α} : ReachesBy r init n → r n a n' → ReachesBy r init n'

/-- Calls of `step` lead from `init` to the state. -/
abbrev Reaches (step : σ → α → Option σ) (init : σ) : σ → Prop :=
  ReachesBy (fun n a n' => step n a = some n') init

/-- What may depend on the calls to come, and each call keeps, holds after the last. -/
theorem foldlM_keeps {f : σ → α → Option σ} {P : List α → σ → Prop}
    (hstep : ∀ n a as n', P (a :: as) n → f n a = some n' → P as n') {calls : List α} {n n' : σ}
    (hn : P calls n) (h : calls.foldlM f n = some n') : P [] n' := by
  induction calls generalizing n with
  | nil =>
    obtain rfl := Option.some.inj h
    exact hn
  | cons call calls ih =>
    obtain ⟨m, hm, h⟩ := Option.bind_eq_some_iff.mp h
    exact ih (hstep _ _ _ _ hn hm) h

namespace ReachesBy

variable {r r' : σ → α → σ → Prop} {init m n : σ}

/-- What a first state has and every step keeps. -/
theorem invariant {P : σ → Prop} (hinit : P init) (hstep : ∀ n a n', P n → r n a n' → P n')
    (h : ReachesBy r init n) : P n := by
  induction h with
  | refl => exact hinit
  | step _ hs ih => exact hstep _ _ _ ih hs

theorem mono (hle : ∀ n a n', r n a n' → r' n a n') (h : ReachesBy r init n) :
    ReachesBy r' init n := h.invariant .refl fun _ _ _ ih hs => ih.step (hle _ _ _ hs)

theorem trans (hm : ReachesBy r init m) (h : ReachesBy r m n) : ReachesBy r init n :=
  h.invariant hm fun _ _ _ ih hs => ih.step hs

/-- The calls of a list, each on the state before it. -/
theorem foldlM {f : σ → α → Option σ} (hf : ∀ n a n', f n a = some n' → r n a n')
    {calls : List α} (hm : ReachesBy r init m) (h : calls.foldlM f m = some n) :
    ReachesBy r init n :=
  foldlM_keeps (P := fun _ n => ReachesBy r init n)
    (fun _ _ _ _ hn hs => hn.step (hf _ _ _ hs)) hm h

end ReachesBy

theorem Reaches.exec {step : σ → α → Option σ} {calls : List α} {init n : σ}
    (h : calls.foldlM step init = some n) : Reaches step init n :=
  ReachesBy.refl.foldlM (fun _ _ _ hs => hs) h

end RealmGuard.Lib
