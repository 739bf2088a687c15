import RealmGuard.Lib.Replication

/-!
# Later systems

`Later T ok n n'` says that allowed steps lead from `n` to `n'`. Logs are
extended and histories grow on the way, so documents of the two systems can be
compared by their histories. Where every document is the join of the deltas in
its history (`Runs.eq_join`), a document lies below every later one whose history
has its own (`Later.join_le`).
-/

namespace RealmGuard.Lib

variable {Dev Op S : Type} [DecidableEq Dev]

/-- Steps that `ok` allows lead from `n` to `n'`. -/
abbrev Later (T : DeltaType Dev Op S) (ok : Net Dev Op S → Action Dev Op → Prop)
    (n : Net Dev Op S) : Net Dev Op S → Prop := ReachesBy (Net.Allowed T ok) n

namespace Later

variable {T : DeltaType Dev Op S} {ok : Net Dev Op S → Action Dev Op → Prop} {n n' : Net Dev Op S}

theorem runs (h : Later T ok n n') (hn : Runs T ok n) : Runs T ok n' := ReachesBy.trans hn h

theorem log_prefix (h : Later T ok n n') : n.log <+: n'.log := by
  refine h.invariant (P := fun m => n.log <+: m.log) List.prefix_rfl fun m a m' ih hs => ?_
  rcases Net.log_step hs.2 with hlog | ⟨d, op, s, delta, -, -, hlog⟩
  · exact hlog ▸ ih
  · exact hlog ▸ ih.trans (List.prefix_append _ _)

/-- The steps of `exec` are allowed steps. -/
theorem exec [∀ n a, Decidable (ok n a)] {as : List (Action Dev Op)}
    (h : n.exec T ok as = some n') : Later T ok n n' :=
  ReachesBy.refl.foldlM (fun _ _ _ => Net.allowed_of_ite) h

variable {L : Type*} [SemilatticeSup L] [OrderBot L]

/-- More deltas, of a longer log, join to more. -/
theorem join_le (h : Later T ok n n') (abs : S → L) {i j : Finset ℕ}
    (hi : ∀ k ∈ i, k < n.log.length) (hij : i ⊆ j) :
    join T abs n.log i ≤ join T abs n'.log j := by
  obtain ⟨l, hl⟩ := h.log_prefix
  have hsame : join T abs n.log i = join T abs n'.log i :=
    Finset.sup_congr rfl fun k hk => by
      rw [← hl, deltaAt, deltaAt, List.getElem?_append_left (hi k hk)]
  rw [hsame]
  exact Finset.sup_mono hij

end Later

end RealmGuard.Lib
