import RealmGuard.HlcRuns
import RealmGuard.Lib.HybridClock

/-!
# Drift of hybrid clocks

The documented domain of the clock is that walls are physical times and the
counter does not overflow into them. In a run of at most `u32::MAX` events that
is a theorem: a wall is a physical time injected in the causal past, and a
counter is at most the length of a causal chain (`drift_bounded`).

A client that stores no clock but an `Hlc` emits what the clock of a device
emits, whatever the walls and counters (`emitted_eq`).
-/

namespace RealmGuard

open Lib

namespace Hlc

/-- Below the limit of its counter the clock takes the physical time or counts one more. -/
theorem next_nextLocal {h : Hlc} (hc : h.counter.toNat < 2 ^ 32 - 1) (now : UInt64) :
    Next Hlc.wallMs (fun h => h.counter.toNat) h now (h.nextLocal now) := by
  unfold nextLocal
  split
  · exact .inl ⟨rfl, rfl⟩
  · rw [inc_of_counter_lt (by omega)]
    refine .inr ⟨rfl, ?_⟩
    show (h.counter + 1).toNat = h.counter.toNat + 1
    rw [UInt32.toNat_add]
    exact Nat.mod_eq_of_lt (by simpa using (by omega : h.counter.toNat + 1 < 2 ^ 32))

end Hlc

namespace HlcClock

theorem hybrid_logical : logical.Hybrid HlcClock.last Hlc.wallMs (fun h => h.counter.toNat)
    (2 ^ 32 - 1) where
  init := rfl
  last_tick _ _ := rfl
  last_update _ _ _ := rfl
  tick _ now hc := Hlc.next_nextLocal hc now
  update s now r hs hr := by
    show Next _ _ s.last now (s.update now r).2 ∨ Next _ _ r now (s.update now r).2
    rw [update_eq_nextLocal_max]
    rcases max_choice s.last r with h | h
    · rw [h]
      exact .inl (Hlc.next_nextLocal hs now)
    · rw [h]
      exact .inr (Hlc.next_nextLocal hr now)

/-- **The clock never runs ahead of physical time.** In a run of at most `u32::MAX` events the
wall an event emits is 0 or a physical time injected in its past, its counter is at most the
length of a causal chain that ends at it, and a device's clock shows a wall of its own past. -/
theorem drift_bounded (n : Clocks DeviceId HlcClock (Hlc × UInt64))
    (hn : Clocks.Runs logical.timed n) (hlen : n.log.length ≤ 2 ^ 32 - 1) :
    (∀ (j : ℕ) (ev : Emission DeviceId (Hlc × UInt64)), n.log[j]? = some ev →
      (ev.stamp.1.wallMs = 0 ∨
        ∃ i ev', n.log[i]? = some ev' ∧ InPast n.log i j ∧ ev'.stamp.2 = ev.stamp.1.wallMs) ∧
      ∃ k, Chain n.log k j ∧ ev.stamp.1.counter.toNat ≤ k) ∧
    ∀ d, (n.clock d).last.wallMs = 0 ∨ ∃ i j ev' ev, n.log[i]? = some ev' ∧ n.log[j]? = some ev ∧
      ev.device = d ∧ InPast n.log i j ∧ ev'.stamp.2 = (n.clock d).last.wallMs := by
  have hdrift := hn.driftless hybrid_logical hlen
  refine ⟨fun j ev hev => ?_, fun d => ?_⟩
  · obtain ⟨hwall, hcount⟩ := hdrift.explained j ev hev
    exact ⟨hwall, hcount⟩
  · rcases hdrift.clock d with h | ⟨j, ev, hev, hd, hstamp⟩
    · exact .inl (congrArg Hlc.wallMs h)
    · rw [← hstamp]
      refine (hdrift.explained j ev hev).wall.imp_right fun ⟨i, ev', hev', hi, hw⟩ => ?_
      exact ⟨i, j, ev', ev, hev', hev, hd, hi, hw⟩

/-- Device 2 hears of a stamp from its physical future, twice. -/
def ahead : List (ClockAction DeviceId UInt64) :=
  [.tick (dev 1) 9, .update (dev 2) 4 0, .update (dev 2) 5 0]

theorem drift_bounded_ahead : ∃ n : Clocks DeviceId HlcClock (Hlc × UInt64),
    Clocks.Runs logical.timed n ∧ ∃ ev, n.log[2]? = some ev ∧ ev.stamp.1 = ⟨9, 2⟩ ∧
      ∃ k, Chain n.log k 2 ∧ 2 ≤ k := by
  have h : ((Clocks.init logical.timed).exec logical.timed ahead).any
      (fun n : Clocks DeviceId HlcClock (Hlc × UInt64) => n.log.length ≤ 2 ^ 32 - 1 ∧
        ((n.log[2]?).any (fun ev => ev.stamp.1 = ⟨9, 2⟩) = true)) = true := by decide
  obtain ⟨n, hexec, h⟩ := (Option.any_eq_true _ _).mp h
  obtain ⟨hlen, h⟩ := of_decide_eq_true h
  obtain ⟨ev, hev, h⟩ := (Option.any_eq_true _ _).mp h
  have hstamp := of_decide_eq_true h
  have hn : Clocks.Runs logical.timed n := Reaches.exec hexec
  obtain ⟨k, hk, hc⟩ := ((drift_bounded n hn hlen).1 2 ev hev).2
  rw [hstamp] at hc
  exact ⟨n, hn, ev, hev, hstamp, k, hk, hc⟩

/-! ## The stateless clock -/

/-- An event at a device. -/
inductive Event where
  | tick (now : UInt64)
  | update (now : UInt64) (remote : Hlc)

def onEvent (c : HlcClock) : Event → HlcClock × Hlc
  | .tick now => c.tick now
  | .update now remote => c.update now remote

/-- What a clock emits over a sequence of events. -/
def emitted (c : HlcClock) : List Event → List Hlc
  | [] => []
  | ev :: evs => (c.onEvent ev).2 :: emitted (c.onEvent ev).1 evs

end HlcClock

namespace Hlc

/-- What a client replaces its stored `Hlc` by, and emits. -/
def onEvent (h : Hlc) : HlcClock.Event → Hlc
  | .tick now => h.nextLocal now
  | .update now remote => (max h remote).nextLocal now

/-- What a client that stores only `h` emits over a sequence of events. -/
def emitted (h : Hlc) : List HlcClock.Event → List Hlc
  | [] => []
  | ev :: evs => h.onEvent ev :: emitted (h.onEvent ev) evs

end Hlc

theorem HlcClock.onEvent_eq (c : HlcClock) (ev : Event) :
    c.onEvent ev = (⟨c.last.onEvent ev⟩, c.last.onEvent ev) := by
  cases ev with
  | tick now => rfl
  | update now remote =>
    have h := c.update_eq_nextLocal_max now remote
    exact Prod.ext (congrArg HlcClock.mk h) h

/-- **The stateless clock agrees with `HlcClock`**, from every start and over every sequence of
events. -/
theorem Hlc.emitted_eq (h : Hlc) (evs : List HlcClock.Event) :
    h.emitted evs = (HlcClock.mk h).emitted evs := by
  induction evs generalizing h with
  | nil => rfl
  | cons ev evs ih => rw [Hlc.emitted, HlcClock.emitted, HlcClock.onEvent_eq, ih]

end RealmGuard
