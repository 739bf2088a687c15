import Mathlib.Logic.Relation
import RealmGuard.Lib.Replication

/-!
# Logical clocks

Devices that each keep a clock and emit a stamp at every event: a local event,
or the reception of a stamp emitted before. `HappensBefore` is the causal order
of the events of a log. A clock is `Monotone` when the stamp of an event is its
new value and lies above the old one and above the stamp received, as long as
these are below the limit of the stamp type (`good`). Such clocks respect
causality in every run that emits good stamps only (`Clocks.Runs.stamp_lt`).
-/

namespace RealmGuard.Lib

/-- A clock with state `σ` and stamps `α`; `τ` is physical time. -/
structure LogicalClock (σ τ α : Type) where
  init : σ
  tick : σ → τ → σ × α
  update : σ → τ → α → σ × α

/-- An event: its device, the stamp it emitted, and the event whose stamp it received. -/
structure Emission (Dev α : Type) where
  device : Dev
  stamp : α
  received : Option ℕ

structure Clocks (Dev σ α : Type) where
  clock : Dev → σ
  log : List (Emission Dev α)

/-- A local event, or the reception of the stamp of event `i`. -/
inductive ClockAction (Dev τ : Type) where
  | tick (d : Dev) (now : τ)
  | update (d : Dev) (now : τ) (i : ℕ)

variable {Dev σ τ α : Type}

/-- Two events of one device in the order they happened, or an event and a reception of
its stamp. -/
def Direct (log : List (Emission Dev α)) (i j : ℕ) : Prop :=
  ∃ a b, log[i]? = some a ∧ log[j]? = some b ∧
    (i < j ∧ a.device = b.device ∨ b.received = some i)

def HappensBefore (log : List (Emission Dev α)) : ℕ → ℕ → Prop := Relation.TransGen (Direct log)

namespace Clocks

variable [DecidableEq Dev]

def init (C : LogicalClock σ τ α) : Clocks Dev σ α := ⟨fun _ => C.init, []⟩

def step (C : LogicalClock σ τ α) (n : Clocks Dev σ α) :
    ClockAction Dev τ → Option (Clocks Dev σ α)
  | .tick d now =>
    let (s, stamp) := C.tick (n.clock d) now
    some ⟨Function.update n.clock d s, n.log ++ [⟨d, stamp, none⟩]⟩
  | .update d now i => do
    let ev ← n.log[i]?
    let (s, stamp) := C.update (n.clock d) now ev.stamp
    some ⟨Function.update n.clock d s, n.log ++ [⟨d, stamp, some i⟩]⟩

def exec (C : LogicalClock σ τ α) (n : Clocks Dev σ α) (as : List (ClockAction Dev τ)) :
    Option (Clocks Dev σ α) := as.foldlM (step C) n

/-- The reachable systems. -/
abbrev Runs (C : LogicalClock σ τ α) : Clocks Dev σ α → Prop := Reaches (step C) (init C)

/-- What a step does: one event more, whose stamp is that of a local event or of a reception. -/
theorem step_cases {C : LogicalClock σ τ α} {n n' : Clocks Dev σ α} {a : ClockAction Dev τ}
    (h : n.step C a = some n') : ∃ d q received,
      n' = ⟨Function.update n.clock d q.1, n.log ++ [⟨d, q.2, received⟩]⟩ ∧
      ((∃ now, q = C.tick (n.clock d) now ∧ received = none) ∨
        ∃ now i ev, n.log[i]? = some ev ∧ q = C.update (n.clock d) now ev.stamp ∧
          received = some i) := by
  cases a with
  | tick d now =>
    exact ⟨d, _, none, (Option.some.inj h).symm, .inl ⟨now, rfl, rfl⟩⟩
  | update d now i =>
    simp only [step, Option.bind_eq_bind, Option.bind_eq_some_iff, Option.some.injEq] at h
    obtain ⟨ev, hev, rfl⟩ := h
    exact ⟨d, _, some i, rfl, .inr ⟨now, i, ev, hev, rfl, rfl⟩⟩

end Clocks

/-- The clock moves up at every event, past the stamp it receives, while stamps are `good`. -/
structure LogicalClock.Monotone [Preorder α] (C : LogicalClock σ τ α) (last : σ → α)
    (good : α → Prop) : Prop where
  init : good (last C.init)
  last_tick : ∀ s now, last (C.tick s now).1 = (C.tick s now).2
  last_update : ∀ s now r, last (C.update s now r).1 = (C.update s now r).2
  lt_tick : ∀ s now, good (last s) → last s < (C.tick s now).2
  lt_update : ∀ s now r, good (last s) → good r →
    last s < (C.update s now r).2 ∧ r < (C.update s now r).2

namespace Clocks

variable [DecidableEq Dev] [Preorder α] {C : LogicalClock σ τ α} {last : σ → α} {good : α → Prop}

/-- The invariant: a device's clock is at least every stamp it emitted, receptions refer to
earlier events, and direct causes have smaller stamps. -/
structure Ordered (last : σ → α) (good : α → Prop) (n : Clocks Dev σ α) : Prop where
  good : ∀ d, good (last (n.clock d))
  le_last : ∀ ev ∈ n.log, ev.stamp ≤ last (n.clock ev.device)
  received_lt : ∀ (i j : ℕ) (ev : Emission Dev α), n.log[j]? = some ev → ev.received = some i →
    i < j
  lt : ∀ (i j : ℕ) (a b : Emission Dev α), n.log[i]? = some a → n.log[j]? = some b →
    i < j ∧ a.device = b.device ∨ b.received = some i → a.stamp < b.stamp

/-- A step's stamp is the device's new clock, above its old one and any stamp received. -/
theorem Ordered.stamp_step (hC : C.Monotone last good) {n n' : Clocks Dev σ α}
    {a : ClockAction Dev τ} (hn : Ordered last good n) (hgood : ∀ ev ∈ n.log, good ev.stamp)
    (h : n.step C a = some n') : ∃ (d : Dev) (q : σ × α) (received : Option ℕ),
      n' = ⟨Function.update n.clock d q.1, n.log ++ [⟨d, q.2, received⟩]⟩ ∧ last q.1 = q.2 ∧
        last (n.clock d) < q.2 ∧
          ∀ i, received = some i → ∃ ev, n.log[i]? = some ev ∧ ev.stamp < q.2 := by
  obtain ⟨d, q, received, rfl, hq⟩ := step_cases h
  refine ⟨d, q, received, rfl, ?_⟩
  rcases hq with ⟨now, rfl, rfl⟩ | ⟨now, i, ev, hev, rfl, rfl⟩
  · exact ⟨hC.last_tick _ _, hC.lt_tick _ now (hn.good d), fun i hi => by cases hi⟩
  · have hlt := hC.lt_update _ now _ (hn.good d) (hgood ev (List.mem_of_getElem? hev))
    refine ⟨hC.last_update _ _ _, hlt.1, fun j hj => ?_⟩
    obtain rfl := Option.some.inj hj
    exact ⟨ev, hev, hlt.2⟩

theorem Ordered.step (hC : C.Monotone last good) {n n' : Clocks Dev σ α} {a : ClockAction Dev τ}
    (hn : Ordered last good n) (hold : ∀ ev ∈ n.log, good ev.stamp) (h : n.step C a = some n')
    (hgood : ∀ ev ∈ n'.log, good ev.stamp) : Ordered last good n' := by
  obtain ⟨d, q, received, rfl, hlast, hlt, hreceived⟩ := hn.stamp_step hC hold h
  refine ⟨fun d' => ?_, fun ev hev => ?_, fun i j ev hj hr => ?_, fun i j a b hi hj hd => ?_⟩
  · by_cases hd : d' = d
    · subst hd
      simpa [hlast] using hgood _ (List.mem_append_right _ (List.mem_singleton_self _))
    · simpa [hd] using hn.good d'
  · rcases List.mem_append.mp hev with hev | hev
    · have hle := hn.le_last ev hev
      by_cases hd : ev.device = d
      · rw [hd] at hle
        simpa [hd, hlast] using hle.trans hlt.le
      · simpa [hd] using hle
    · rw [List.mem_singleton.mp hev]
      simp [hlast]
  · rcases getElem?_snoc_iff.mp hj with hj | ⟨rfl, rfl⟩
    · exact hn.received_lt i j ev hj hr
    · obtain ⟨ev', hev', -⟩ := hreceived i hr
      exact (List.getElem?_eq_some_iff.mp hev').1
  · rcases getElem?_snoc_iff.mp hj with hj | ⟨rfl, rfl⟩
    · have hij : i < j := hd.elim And.left (hn.received_lt i j b hj)
      have hjl := (List.getElem?_eq_some_iff.mp hj).1
      have hi := (getElem?_snoc_iff.mp hi).resolve_right fun h => by omega
      exact hn.lt i j a b hi hj hd
    · rcases hd with ⟨hil, hd⟩ | hr
      · have hi := (getElem?_snoc_iff.mp hi).resolve_right fun h => hil.ne h.1
        have hle := hn.le_last a (List.mem_of_getElem? hi)
        rw [hd] at hle
        exact hle.trans_lt hlt
      · obtain ⟨ev', hev', hlt'⟩ := hreceived i hr
        have hil := (List.getElem?_eq_some_iff.mp hev').1
        have hi := (getElem?_snoc_iff.mp hi).resolve_right fun h => hil.ne h.1
        obtain rfl := Option.some.inj (hi.symm.trans hev')
        exact hlt'

theorem Runs.ordered (hC : C.Monotone last good) {n : Clocks Dev σ α} (hn : Runs C n)
    (hgood : ∀ ev ∈ n.log, good ev.stamp) : Ordered last good n := by
  induction hn with
  | refl =>
    exact ⟨fun _ => hC.init, fun _ hev => absurd hev List.not_mem_nil,
      fun _ _ _ hev => absurd (List.mem_of_getElem? hev) List.not_mem_nil,
      fun _ _ _ _ hev => absurd (List.mem_of_getElem? hev) List.not_mem_nil⟩
  | @step n n' a _ hs ih =>
    have hold : ∀ ev ∈ n.log, good ev.stamp := fun ev hev => hgood ev (by
      obtain ⟨d, q, received, rfl, -⟩ := step_cases hs
      exact List.mem_append_left _ hev)
    exact (ih hold).step hC hold hs hgood

/-- **Logical clocks respect causality.** -/
theorem Runs.stamp_lt (hC : C.Monotone last good) {n : Clocks Dev σ α} (hn : Runs C n)
    (hgood : ∀ ev ∈ n.log, good ev.stamp) {i j : ℕ} (h : HappensBefore n.log i j) :
    ∀ a b : Emission Dev α, n.log[i]? = some a → n.log[j]? = some b → a.stamp < b.stamp := by
  have hord := hn.ordered hC hgood
  induction h with
  | single hd =>
    obtain ⟨a, b, hi, hj, hd⟩ := hd
    intro a' b' hi' hj'
    obtain rfl := Option.some.inj (hi.symm.trans hi')
    obtain rfl := Option.some.inj (hj.symm.trans hj')
    exact hord.lt _ _ a b hi hj hd
  | tail _ hd ih =>
    obtain ⟨b, c, hb, hc, hd⟩ := hd
    intro a c' ha hc'
    obtain rfl := Option.some.inj (hc.symm.trans hc')
    exact (ih a b ha hb).trans (hord.lt _ _ b c hb hc hd)

end Clocks

end RealmGuard.Lib
