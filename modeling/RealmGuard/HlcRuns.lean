import RealmGuard.Crdt.Hlc
import RealmGuard.Lib.LogicalClock

/-!
# Runs of hybrid clocks

Devices with an `HlcClock` each, ticking and receiving one another's clocks at
any physical times. The clock is monotone below saturation, so it respects
causality in every run that never emits the saturated clock.
-/

namespace RealmGuard

open Lib

namespace HlcClock

/-- The clock of a device, from its start. -/
def logical : LogicalClock HlcClock UInt64 Hlc where
  init := .new
  tick := tick
  update := update

theorem monotone_logical : logical.Monotone HlcClock.last (· ≠ .saturated) where
  init := by decide
  last_tick _ _ := rfl
  last_update _ _ _ := rfl
  lt_tick _ _ hs := Hlc.lt_nextLocal_iff.mpr hs
  lt_update s now r hs hr := by
    have hmax : max s.last r ≠ .saturated := by
      rcases max_choice s.last r with h | h
      · rwa [h]
      · rwa [h]
    have hlt : max s.last r < (max s.last r).nextLocal now := Hlc.lt_nextLocal_iff.mpr hmax
    rw [← update_eq_nextLocal_max] at hlt
    exact max_lt_iff.mp hlt

/-- **The hybrid clock respects causality**: whatever physical time does, an event's clock is
above those of all the events that happened before it, and timestamps are unique. -/
theorem lt_of_happensBefore (n : Clocks DeviceId HlcClock Hlc) (hn : Clocks.Runs logical n)
    (hsat : ∀ ev ∈ n.log, ev.stamp ≠ .saturated) :
    (∀ (i j : ℕ) (a b : Emission DeviceId Hlc), HappensBefore n.log i j → n.log[i]? = some a →
      n.log[j]? = some b → a.stamp < b.stamp) ∧
    ∀ (i j : ℕ) (a b : Emission DeviceId Hlc), i ≠ j → n.log[i]? = some a → n.log[j]? = some b →
      Timestamp.new a.stamp a.device ≠ Timestamp.new b.stamp b.device := by
  have hord := hn.ordered monotone_logical hsat
  refine ⟨fun i j a b h => hn.stamp_lt monotone_logical hsat h a b,
    fun i j a b hij hi hj he => ?_⟩
  obtain ⟨hs, hd⟩ := Timestamp.mk.inj he
  rcases lt_or_gt_of_ne hij with hlt | hgt
  · exact (hord.lt i j a b hi hj (.inl ⟨hlt, hd⟩)).ne hs
  · exact (hord.lt j i b a hj hi (.inl ⟨hgt, hd.symm⟩)).ne hs.symm

/-- A stamp at the wall limit relayed through two devices whose physical time is 0. -/
def relay : List (ClockAction DeviceId UInt64) :=
  [.tick (dev 1) maxU64, .update (dev 2) 0 0, .update (dev 3) 0 1]

theorem lt_of_happensBefore_relay : ∃ n : Clocks DeviceId HlcClock Hlc,
    Clocks.Runs logical n ∧ ∃ a b, n.log[0]? = some a ∧ n.log[2]? = some b ∧ a.stamp < b.stamp := by
  have h : ((Clocks.init logical).exec logical relay).any (fun n : Clocks DeviceId HlcClock Hlc =>
      (∀ ev ∈ n.log, ev.stamp ≠ .saturated) ∧ n.log.length = 3 ∧
        ((n.log[1]?).any (fun ev => ev.received = some 0) = true) ∧
        ((n.log[2]?).any (fun ev => ev.received = some 1) = true)) = true := by decide
  obtain ⟨n, hexec, h⟩ := (Option.any_eq_true _ _).mp h
  obtain ⟨hsat, hlen, h₁, h₂⟩ := of_decide_eq_true h
  obtain ⟨b, hb, hr₁⟩ := (Option.any_eq_true _ _).mp h₁
  obtain ⟨c, hc, hr₂⟩ := (Option.any_eq_true _ _).mp h₂
  obtain ⟨a, ha⟩ : ∃ a, n.log[0]? = some a := ⟨_, List.getElem?_eq_getElem (by omega)⟩
  have hn : Clocks.Runs logical n := Reaches.exec hexec
  have hbefore : HappensBefore n.log 0 2 :=
    .tail (.single ⟨a, b, ha, hb, .inr (of_decide_eq_true hr₁)⟩)
      ⟨b, c, hb, hc, .inr (of_decide_eq_true hr₂)⟩
  exact ⟨n, hn, a, c, ha, hc, (lt_of_happensBefore n hn hsat).1 0 2 a c hbefore ha hc⟩

end HlcClock

end RealmGuard
