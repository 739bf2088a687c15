import RealmGuard.Lib.UInt

/-!
# Computations that can overflow

A computation over a build `Profile` overflows when the build that checks for it
panics (`Overflows`). Until then the two builds do the same, so a release build
returns what a dev build returns (`Agree`); the lemmas lift this from the
additions through `bind` and `foldlM`.
-/

namespace RealmGuard.Lib

variable {α β : Type*}

/-- The build that checks for overflow panics. -/
def Overflows (f : Profile → Option α) : Prop := f .dev = none

/-- Every build returns what a dev build returns. -/
def Agree (f : Profile → Option α) : Prop := ∀ p a, f .dev = some a → f p = some a

theorem exists_of_not_overflows {f : Profile → Option α} (h : ¬ Overflows f) :
    ∃ a, f .dev = some a :=
  Option.ne_none_iff_exists'.mp h

theorem agree_const (o : Option α) : Agree fun _ => o := fun _ _ h => h

theorem agree_add (a b : UInt64) : Agree fun p => p.add a b := by
  intro p c h
  cases p with
  | dev => exact h
  | release =>
    dsimp only [Profile.add] at h
    exact (Option.ite_none_right_eq_some.mp h).2

theorem Agree.bind {f : Profile → Option α} {g : Profile → α → Option β} (hf : Agree f)
    (hg : ∀ a, Agree fun p => g p a) : Agree fun p => (f p).bind (g p) := by
  intro p b h
  obtain ⟨a, ha, hb⟩ := Option.bind_eq_some_iff.mp h
  exact Option.bind_eq_some_iff.mpr ⟨a, hf p a ha, hg a p b hb⟩

theorem Agree.map {f : Profile → Option α} (g : α → β) (hf : Agree f) :
    Agree fun p => (f p).map g := by
  intro p b h
  obtain ⟨a, ha, hb⟩ := Option.map_eq_some_iff.mp h
  exact Option.map_eq_some_iff.mpr ⟨a, hf p a ha, hb⟩

theorem Agree.ite {c : Prop} [Decidable c] {f g : Profile → Option α} (hf : Agree f)
    (hg : Agree g) : Agree fun p => if c then f p else g p := by
  by_cases hc : c
  · simpa only [if_pos hc] using hf
  · simpa only [if_neg hc] using hg

theorem Agree.foldlM {g : Profile → β → α → Option β} (hg : ∀ b a, Agree fun p => g p b a) :
    ∀ (l : List α) (b : β), Agree fun p => l.foldlM (g p) b
  | [], b => agree_const (some b)
  | a :: l, b => (hg b a).bind fun b' => Agree.foldlM hg l b'

end RealmGuard.Lib
