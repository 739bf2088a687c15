import Mathlib.Data.List.Forall2
import RealmGuard.Lib.Replication

/-!
# Replicas of one type as replicas of another

`Translates ops R T T'` relates the states and operations of two replicated types: whatever
`T` does, `T'` can do on related arguments, with related results. Every run of replicas of
`T` whose operations have counterparts is then matched by a run of replicas of `T'`, step by
step, with the same histories and related documents (`Runs.translated`).
-/

namespace RealmGuard.Lib

variable {Dev Op Op' S S' : Type}

/-- `T'` follows `T` through operations related by `ops`, on states related by `R`. -/
structure Translates (ops : Op → Op' → Prop) (R : S → S' → Prop) (T : DeltaType Dev Op S)
    (T' : DeltaType Dev Op' S') : Prop where
  init : R T.init T'.init
  mutate : ∀ {d op op' s s' t δ}, ops op op' → R s s' → T.mutate d op s = some (t, δ) →
    ∃ t' δ', T'.mutate d op' s' = some (t', δ') ∧ R t t' ∧ R δ δ'
  merge : ∀ {a b c a' b'}, R a a' → R b b' → T.merge a b = some c →
    ∃ c', T'.merge a' b' = some c' ∧ R c c'

/-- The same operation, at the same place of the log. -/
structure EventRel (ops : Op → Op' → Prop) (R : S → S' → Prop) (ev : Event Dev Op S)
    (ev' : Event Dev Op' S') : Prop where
  device : ev'.device = ev.device
  op : ops ev.op ev'.op
  past : ev'.past = ev.past
  pre : R ev.pre ev'.pre
  delta : R ev.delta ev'.delta

/-- The same system, with related documents. -/
structure Translated (ops : Op → Op' → Prop) (R : S → S' → Prop) (n : Net Dev Op S)
    (n' : Net Dev Op' S') : Prop where
  doc : ∀ d, R (n.doc d) (n'.doc d)
  hist : n'.hist = n.hist
  log : List.Forall₂ (EventRel ops R) n.log n'.log
  pool : List.Forall₂ (fun m m' => m'.hist = m.hist ∧ R m.doc m'.doc) n.pool n'.pool

/-- The same action, of the related operation. -/
inductive ActionRel (ops : Op → Op' → Prop) : Action Dev Op → Action Dev Op' → Prop where
  | update {d : Dev} {op : Op} {op' : Op'} : ops op op' →
    ActionRel ops (.update d op) (.update d op')
  | publish (d : Dev) : ActionRel ops (.publish d) (.publish d)
  | combine (i j : ℕ) : ActionRel ops (.combine i j) (.combine i j)
  | deliver (d : Dev) (i : ℕ) : ActionRel ops (.deliver d i) (.deliver d i)

/-- A history is closed by the pasts of its operations. -/
theorem closed_iff_pasts {log : List (Event Dev Op S)} {h : Finset ℕ} :
    Closed log h ↔ ∀ i ∈ h, ∀ past, (log.map Event.past)[i]? = some past → past ⊆ h := by
  simp [Closed]

namespace Translated

variable [DecidableEq Dev] {ops : Op → Op' → Prop} {R : S → S' → Prop} {T : DeltaType Dev Op S}
  {T' : DeltaType Dev Op' S'} {n n₁ : Net Dev Op S} {n' : Net Dev Op' S'}

omit [DecidableEq Dev] in
theorem init (hT : Translates ops R T T') : Translated ops R (Net.init T) (Net.init T') where
  doc _ := hT.init
  hist := rfl
  log := .nil
  pool := .cons ⟨rfl, hT.init⟩ .nil

omit [DecidableEq Dev] in
theorem exists_message (h : Translated ops R n n') {i : ℕ} {m : Message S}
    (hi : n.pool[i]? = some m) : ∃ m', n'.pool[i]? = some m' ∧ m'.hist = m.hist ∧
      R m.doc m'.doc := by
  obtain ⟨hlt, rfl⟩ := List.getElem?_eq_some_iff.mp hi
  have hlt' : i < n'.pool.length := h.pool.length_eq ▸ hlt
  exact ⟨n'.pool[i], List.getElem?_eq_getElem hlt', List.Forall₂.get h.pool hlt hlt'⟩

omit [DecidableEq Dev] in
theorem pasts_eq (h : Translated ops R n n') :
    n'.log.map Event.past = n.log.map Event.past := by
  obtain ⟨-, -, hlog, -⟩ := h
  generalize n.log = log at hlog
  generalize n'.log = log' at hlog
  induction hlog with
  | nil => rfl
  | cons hev _ ih => rw [List.map_cons, List.map_cons, hev.past, ih]

omit [DecidableEq Dev] in
/-- Whether a history is closed is the same in both systems. -/
theorem closed_iff (h : Translated ops R n n') (k : Finset ℕ) :
    Closed n'.log k ↔ Closed n.log k := by
  rw [closed_iff_pasts, closed_iff_pasts, h.pasts_eq]

omit [DecidableEq Dev] in
/-- Causal deliveries are causal in both systems. -/
theorem causal (h : Translated ops R n n') {a : Action Dev Op} {a' : Action Dev Op'}
    (ha : ActionRel ops a a') (hc : Causal n a) : Causal n' a' := by
  cases ha with
  | update _ => trivial
  | publish d => trivial
  | combine i j => trivial
  | deliver d i =>
    intro m' hi'
    have hlt : i < n.pool.length := h.pool.length_eq ▸ (List.getElem?_eq_some_iff.mp hi').1
    obtain ⟨m'', hi'', hhist, -⟩ := h.exists_message (List.getElem?_eq_getElem hlt)
    obtain rfl := Option.some.inj (hi'.symm.trans hi'')
    rw [h.hist, hhist, h.closed_iff]
    exact hc _ (List.getElem?_eq_getElem hlt)

omit [DecidableEq Dev] in
theorem mono {ops' : Op → Op' → Prop} {R' : S → S' → Prop} (h : Translated ops R n n')
    (hops : ∀ {op op'}, ops op op' → ops' op op') (hR : ∀ {t t'}, R t t' → R' t t') :
    Translated ops' R' n n' where
  doc d := hR (h.doc d)
  hist := h.hist
  log := h.log.imp fun _ _ hev => ⟨hev.device, hops hev.op, hev.past, hR hev.pre, hR hev.delta⟩
  pool := h.pool.imp fun _ _ hm => ⟨hm.1, hR hm.2⟩

/-- **A step is followed by a step.** -/
theorem step (hT : Translates ops R T T') (h : Translated ops R n n') {a : Action Dev Op}
    (hops : ∀ d op, a = .update d op → ∃ op', ops op op') (hs : n.step T a = some n₁) :
    ∃ a' n₁', ActionRel ops a a' ∧ n'.step T' a' = some n₁' ∧ Translated ops R n₁ n₁' := by
  cases a with
  | update d op =>
    obtain ⟨op', hop⟩ := hops d op rfl
    obtain ⟨t, δ, hmut, rfl⟩ := Net.step_update hs
    obtain ⟨t', δ', hmut', ht, hδ⟩ := hT.mutate hop (h.doc d) hmut
    have hlen : n'.log.length = n.log.length := h.log.length_eq.symm
    refine ⟨.update d op', _, .update hop, Net.update_eq hmut', ?_, ?_, ?_, ?_⟩
    · intro d'
      by_cases hd : d' = d
      · subst hd
        simpa using ht
      · simpa [hd] using h.doc d'
    · rw [h.hist, hlen]
    · refine List.rel_append h.log (.cons ⟨rfl, hop, ?_, h.doc d, hδ⟩ .nil)
      rw [h.hist]
    · refine List.rel_append h.pool (.cons ⟨?_, hδ⟩ .nil)
      rw [hlen]
  | publish d =>
    obtain rfl := Net.step_publish hs
    refine ⟨.publish d, _, .publish d, rfl, h.doc, h.hist, h.log, ?_⟩
    refine List.rel_append h.pool (.cons ⟨?_, h.doc d⟩ .nil)
    rw [h.hist]
  | combine i j =>
    simp only [Net.step, Option.bind_eq_bind, Option.bind_eq_some_iff, Option.some.injEq] at hs
    obtain ⟨a, hi, b, hj, c, hm, rfl⟩ := hs
    obtain ⟨a', hi', hha, ha⟩ := h.exists_message hi
    obtain ⟨b', hj', hhb, hb⟩ := h.exists_message hj
    obtain ⟨c', hm', hc⟩ := hT.merge ha hb hm
    refine ⟨.combine i j, _, .combine i j, Net.combine_eq hi' hj' hm', h.doc, h.hist, h.log, ?_⟩
    refine List.rel_append h.pool (.cons ⟨?_, hc⟩ .nil)
    rw [hha, hhb]
  | deliver d i =>
    obtain ⟨m, hi, t, hm, rfl⟩ := Net.step_deliver hs
    obtain ⟨m', hi', hhm, hdoc⟩ := h.exists_message hi
    obtain ⟨t', hm', ht⟩ := hT.merge (h.doc d) hdoc hm
    refine ⟨.deliver d i, _, .deliver d i, Net.deliver_eq hi' hm', ?_, ?_, h.log, h.pool⟩
    · intro d'
      by_cases hd : d' = d
      · subst hd
        simpa using ht
      · simpa [hd] using h.doc d'
    · rw [h.hist, hhm]

end Translated

/-- **Runs are followed by runs**, if what `ok` allows `ok'` allows of the related actions. -/
theorem Runs.translated [DecidableEq Dev] {ops : Op → Op' → Prop} {R : S → S' → Prop}
    {T : DeltaType Dev Op S} {T' : DeltaType Dev Op' S'} {n : Net Dev Op S}
    {ok : Net Dev Op S → Action Dev Op → Prop} {ok' : Net Dev Op' S' → Action Dev Op' → Prop}
    (hT : Translates ops R T T')
    (hok : ∀ {n n' a a'}, Translated ops R n n' → ActionRel ops a a' → ok n a → ok' n' a')
    (hn : Runs T ok n) (hops : ∀ ev ∈ n.log, ∃ op', ops ev.op op') :
    ∃ n', Runs T' ok' n' ∧ Translated ops R n n' := by
  induction hn with
  | refl => exact ⟨_, .init, .init hT⟩
  | @step n n₁ a _ h ih =>
    obtain ⟨ha, hs⟩ := h
    have hsub : n.log ⊆ n₁.log := by
      rcases Net.log_step hs with hlog | ⟨d, op, s, δ, -, -, hlog⟩
      · rw [hlog]
        exact List.Subset.refl _
      · rw [hlog]
        exact List.subset_append_left _ _
    obtain ⟨n', hn', htr⟩ := ih fun ev hev => hops ev (hsub hev)
    have hop : ∀ d op, a = .update d op → ∃ op', ops op op' := by
      rintro d op rfl
      obtain ⟨t, δ, -, rfl⟩ := Net.step_update hs
      exact hops _ (List.mem_append_right _ List.mem_cons_self)
    obtain ⟨a', n₁', hact, hs', h'⟩ := htr.step hT hop hs
    exact ⟨n₁', hn'.step (hok htr hact ha) hs', h'⟩

end RealmGuard.Lib
