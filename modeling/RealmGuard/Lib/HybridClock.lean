import RealmGuard.Lib.LogicalClock

/-!
# Hybrid clocks

The stamps of a hybrid clock have a wall, taken from physical time, and count the
events since it was taken. A `Hybrid` clock takes the physical time of an event
for its wall and counts from zero, or keeps the wall of its own last stamp or of
the stamp received and counts one more. As long as no count reaches the limit of
its type, walls are physical times of the causal past and a count is at most the
length of a causal chain (`Clocks.Runs.driftless`): the measure of an event is
the longest chain that ends at it, and a run has no longer chain than events.
-/

namespace RealmGuard.Lib

variable {Dev σ τ α : Type}

/-- The same clock, with the physical time of an event beside its stamp. -/
def LogicalClock.timed (C : LogicalClock σ τ α) : LogicalClock σ τ (α × τ) where
  init := C.init
  tick s now := ((C.tick s now).1, (C.tick s now).2, now)
  update s now r := ((C.update s now r.1).1, (C.update s now r.1).2, now)

/-- A chain of `k` events, each before the next, that ends at event `j`. -/
inductive Chain (log : List (Emission Dev α)) : ℕ → ℕ → Prop where
  | single {j : ℕ} : j < log.length → Chain log 1 j
  | snoc {k i j : ℕ} : Chain log k i → HappensBefore log i j → Chain log (k + 1) j

/-- Event `i` is event `j` or happened before it. -/
def InPast (log : List (Emission Dev α)) (i j : ℕ) : Prop := i = j ∨ HappensBefore log i j

section Log

variable {log : List (Emission Dev α)} {ev : Emission Dev α} {i j k : ℕ}

theorem Direct.snoc (h : Direct log i j) : Direct (log ++ [ev]) i j := by
  obtain ⟨a, b, ha, hb, h⟩ := h
  exact ⟨a, b, getElem?_snoc_iff.mpr (.inl ha), getElem?_snoc_iff.mpr (.inl hb), h⟩

theorem HappensBefore.snoc (h : HappensBefore log i j) : HappensBefore (log ++ [ev]) i j :=
  Relation.TransGen.mono (fun _ _ => Direct.snoc) i j h

theorem InPast.snoc (h : InPast log i j) : InPast (log ++ [ev]) i j := h.imp_right .snoc

theorem Chain.snoc_log (h : Chain log k j) : Chain (log ++ [ev]) k j := by
  induction h with
  | single hj => exact .single (by simpa using Nat.lt_succ_of_lt hj)
  | snoc _ hb ih => exact .snoc ih hb.snoc

end Log

/-- Stamp `b` was taken at physical time `now`, or counts one event more than `a`. -/
def Next (wall : α → τ) (count : α → ℕ) (a : α) (now : τ) (b : α) : Prop :=
  wall b = now ∧ count b = 0 ∨ wall b = wall a ∧ count b = count a + 1

/-- The clock counts on from its last stamp or from the stamp it receives, below the limit. -/
structure LogicalClock.Hybrid (C : LogicalClock σ τ α) (last : σ → α) (wall : α → τ)
    (count : α → ℕ) (limit : ℕ) : Prop where
  init : count (last C.init) = 0
  last_tick : ∀ s now, last (C.tick s now).1 = (C.tick s now).2
  last_update : ∀ s now r, last (C.update s now r).1 = (C.update s now r).2
  tick : ∀ s now, count (last s) < limit → Next wall count (last s) now (C.tick s now).2
  update : ∀ s now r, count (last s) < limit → count r < limit →
    Next wall count (last s) now (C.update s now r).2 ∨ Next wall count r now (C.update s now r).2

namespace Clocks

variable {C : LogicalClock σ τ α} {last : σ → α} {wall : α → τ} {count : α → ℕ} {limit : ℕ}

/-- The wall of `a` is `w₀` or a physical time of the past of event `j`, and a causal chain that
ends there has as many events as `a` counts. -/
structure Explained (wall : α → τ) (count : α → ℕ) (w₀ : τ) (log : List (Emission Dev (α × τ)))
    (j : ℕ) (a : α) : Prop where
  wall : wall a = w₀ ∨ ∃ i ev, log[i]? = some ev ∧ InPast log i j ∧ ev.stamp.2 = wall a
  count : ∃ k, Chain log k j ∧ count a ≤ k

theorem Explained.snoc {w₀ : τ} {log : List (Emission Dev (α × τ))} {ev : Emission Dev (α × τ)}
    {j : ℕ} {a : α} (h : Explained wall count w₀ log j a) :
    Explained wall count w₀ (log ++ [ev]) j a where
  wall := h.wall.imp_right fun ⟨i, ev', hev', hi, hw⟩ =>
    ⟨i, ev', getElem?_snoc_iff.mpr (.inl hev'), hi.snoc, hw⟩
  count := by
    obtain ⟨k, hk, hc⟩ := h.count
    exact ⟨k, hk.snoc_log, hc⟩

/-- The stamp of a new event that counts on from the initial one. -/
theorem explained_next_init {w₀ : τ} {log : List (Emission Dev (α × τ))} {d : Dev} {a b : α}
    {now : τ} {received : Option ℕ} (ha : count a = 0) (hw : wall a = w₀)
    (h : Next wall count a now b) :
    Explained wall count w₀ (log ++ [⟨d, (b, now), received⟩]) log.length b := by
  have hlast : Chain (log ++ [⟨d, (b, now), received⟩]) 1 log.length := .single (by simp)
  rcases h with ⟨hnow, hc⟩ | ⟨hwall, hc⟩
  · exact ⟨.inr ⟨_, _, List.getElem?_concat_length, .inl rfl, hnow.symm⟩, 1, hlast, by omega⟩
  · exact ⟨.inl (hwall.trans hw), 1, hlast, by omega⟩

/-- The stamp of a new event that counts on from a direct cause. -/
theorem Explained.next {w₀ : τ} {log : List (Emission Dev (α × τ))} {d : Dev} {i : ℕ} {a b : α}
    {now : τ} {received : Option ℕ} (ha : Explained wall count w₀ log i a)
    (hi : Direct (log ++ [⟨d, (b, now), received⟩]) i log.length) (h : Next wall count a now b) :
    Explained wall count w₀ (log ++ [⟨d, (b, now), received⟩]) log.length b := by
  rcases h with ⟨hnow, hc⟩ | ⟨hwall, hc⟩
  · exact ⟨.inr ⟨_, _, List.getElem?_concat_length, .inl rfl, hnow.symm⟩, 1,
      .single (by simp), by omega⟩
  · obtain ⟨k, hk, hck⟩ := ha.count
    refine ⟨?_, k + 1, .snoc hk.snoc_log (.single hi), by omega⟩
    rw [hwall]
    refine ha.wall.imp_right fun ⟨m, ev, hev, hm, hw⟩ => ?_
    refine ⟨m, ev, getElem?_snoc_iff.mpr (.inl hev), .inr ?_, hw⟩
    rcases hm with rfl | hm
    · exact .single hi
    · exact .tail hm.snoc hi

/-- The invariant: events are explained and count no further than their place in the log, and a
device's clock is the initial one or the stamp of an event of the device. -/
structure Driftless (last : σ → α) (wall : α → τ) (count : α → ℕ) (a₀ : α)
    (n : Clocks Dev σ (α × τ)) : Prop where
  explained : ∀ (j : ℕ) (ev : Emission Dev (α × τ)), n.log[j]? = some ev →
    Explained wall count (wall a₀) n.log j ev.stamp.1
  count_le : ∀ (j : ℕ) (ev : Emission Dev (α × τ)), n.log[j]? = some ev →
    count ev.stamp.1 ≤ j + 1
  clock : ∀ d, last (n.clock d) = a₀ ∨
    ∃ (j : ℕ) (ev : Emission Dev (α × τ)), n.log[j]? = some ev ∧ ev.device = d ∧
      ev.stamp.1 = last (n.clock d)

/-- What a device counts on from: its clock is below the limit, and its successor explained. -/
theorem Driftless.next_clock {n : Clocks Dev σ (α × τ)} {a₀ : α} (h₀ : count a₀ = 0)
    (hn : Driftless last wall count a₀ n) (d : Dev) :
    count (last (n.clock d)) ≤ n.log.length ∧ ∀ (b : α) (now : τ) (received : Option ℕ),
      Next wall count (last (n.clock d)) now b →
        Explained wall count (wall a₀) (n.log ++ [⟨d, (b, now), received⟩]) n.log.length b ∧
          count b ≤ n.log.length + 1 := by
  rcases hn.clock d with hinit | ⟨j, ev, hev, hd, hstamp⟩
  · rw [hinit]
    refine ⟨by omega, fun b now received hb => ⟨explained_next_init h₀ rfl hb, ?_⟩⟩
    rcases hb with ⟨-, hc⟩ | ⟨-, hc⟩ <;> omega
  · have hj := (List.getElem?_eq_some_iff.mp hev).1
    have hle := hn.count_le j ev hev
    rw [← hstamp]
    refine ⟨by omega, fun b now received hb => ⟨(hn.explained j ev hev).next ?_ hb, ?_⟩⟩
    · exact ⟨ev, _, getElem?_snoc_iff.mpr (.inl hev), List.getElem?_concat_length,
        .inl ⟨hj, hd⟩⟩
    · rcases hb with ⟨-, hc⟩ | ⟨-, hc⟩ <;> omega

/-- The same of a stamp received. -/
theorem Driftless.next_received {n : Clocks Dev σ (α × τ)} {a₀ : α}
    (hn : Driftless last wall count a₀ n) {i : ℕ} {ev : Emission Dev (α × τ)}
    (hev : n.log[i]? = some ev) :
    count ev.stamp.1 ≤ n.log.length ∧ ∀ (d : Dev) (b : α) (now : τ),
      Next wall count ev.stamp.1 now b →
        Explained wall count (wall a₀) (n.log ++ [⟨d, (b, now), some i⟩]) n.log.length b ∧
          count b ≤ n.log.length + 1 := by
  have hi := (List.getElem?_eq_some_iff.mp hev).1
  have hle := hn.count_le i ev hev
  refine ⟨by omega, fun d b now hb => ⟨(hn.explained i ev hev).next ?_ hb, ?_⟩⟩
  · exact ⟨ev, _, getElem?_snoc_iff.mpr (.inl hev), List.getElem?_concat_length, .inr rfl⟩
  · rcases hb with ⟨-, hc⟩ | ⟨-, hc⟩ <;> omega

variable [DecidableEq Dev]

/-- A new event whose stamp is explained keeps the invariant. -/
theorem Driftless.snoc {n : Clocks Dev σ (α × τ)} {a₀ : α} (hn : Driftless last wall count a₀ n)
    {d : Dev} {s : σ} {now : τ} {received : Option ℕ}
    (hs : Explained wall count (wall a₀) (n.log ++ [⟨d, (last s, now), received⟩]) n.log.length
      (last s) ∧ count (last s) ≤ n.log.length + 1) :
    Driftless last wall count a₀
      ⟨Function.update n.clock d s, n.log ++ [⟨d, (last s, now), received⟩]⟩ where
  explained j ev hev := by
    rcases getElem?_snoc_iff.mp hev with hev | ⟨rfl, rfl⟩
    · exact (hn.explained j ev hev).snoc
    · exact hs.1
  count_le j ev hev := by
    rcases getElem?_snoc_iff.mp hev with hev | ⟨rfl, rfl⟩
    · exact hn.count_le j ev hev
    · exact hs.2
  clock d' := by
    by_cases hd : d' = d
    · subst hd
      exact .inr ⟨_, _, List.getElem?_concat_length, rfl, by simp⟩
    · have hc : Function.update n.clock d s d' = n.clock d' := Function.update_of_ne hd s n.clock
      rcases hn.clock d' with h₀ | ⟨j, ev, hev, hdev, hstamp⟩
      · exact .inl ((congrArg last hc).trans h₀)
      · exact .inr ⟨j, ev, getElem?_snoc_iff.mpr (.inl hev), hdev,
          hstamp.trans (congrArg last hc).symm⟩

theorem Driftless.step (hC : C.Hybrid last wall count limit) {n n' : Clocks Dev σ (α × τ)}
    {a : ClockAction Dev τ} (hn : Driftless last wall count (last C.init) n)
    (hlen : n.log.length < limit) (h : n.step C.timed a = some n') :
    Driftless last wall count (last C.init) n' := by
  obtain ⟨d, q, received, rfl, hq⟩ := step_cases h
  have hclock := hn.next_clock hC.init d
  rcases hq with ⟨now, rfl, rfl⟩ | ⟨now, i, ev, hev, rfl, rfl⟩
  · have hnext := hclock.2 _ now none (hC.tick _ now (hclock.1.trans_lt hlen))
    rw [← hC.last_tick] at hnext
    have hs := hn.snoc hnext
    rwa [hC.last_tick] at hs
  · have hrec := hn.next_received hev
    have hnext := (hC.update _ now _ (hclock.1.trans_lt hlen) (hrec.1.trans_lt hlen)).elim
      (hclock.2 _ now (some i)) (hrec.2 d _ now)
    rw [← hC.last_update] at hnext
    have hs := hn.snoc hnext
    rwa [hC.last_update] at hs

/-- **Walls are physical times of the causal past, and counts lengths of causal chains**, in
every run of no more events than the limit. -/
theorem Runs.driftless (hC : C.Hybrid last wall count limit) {n : Clocks Dev σ (α × τ)}
    (hn : Runs C.timed n) (hlen : n.log.length ≤ limit) :
    Driftless last wall count (last C.init) n := by
  induction hn with
  | refl =>
    exact ⟨fun _ _ hev => absurd (List.mem_of_getElem? hev) List.not_mem_nil,
      fun _ _ hev => absurd (List.mem_of_getElem? hev) List.not_mem_nil, fun _ => .inl rfl⟩
  | @step n n' a _ hs ih =>
    have hlt : n.log.length < limit := by
      obtain ⟨d, q, received, rfl, -⟩ := step_cases hs
      exact Nat.lt_of_succ_le (by simpa using hlen)
    exact (ih hlt.le).step hC hlt hs

end Clocks

end RealmGuard.Lib
