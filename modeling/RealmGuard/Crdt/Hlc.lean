import Mathlib.Data.List.Lex
import Mathlib.Data.Vector.Basic
import RealmGuard.Lib.UInt

/-!
# The hybrid logical clock

`Hlc` and the clocks built on it (`crdt/hlc.rs`), the device identifier and the
totally ordered timestamp of a write (`crdt/mod.rs`). Physical time is an
argument of every operation.

`Hlc.lt_nextLocal_iff` says when the successor is a successor: always, except
at the saturated clock `Hlc.saturated`. `HlcClock.update_eq_nextLocal_max`
reduces the four branches of a reception to the local event on the larger of
the two clocks.
-/

namespace RealmGuard

open Lib

/-- Physical milliseconds and a logical counter, ordered lexicographically. -/
structure Hlc where
  wallMs : UInt64
  counter : UInt32

namespace Hlc

instance : LinearOrder Hlc :=
  LinearOrder.lift' (fun h => toLex (h.wallMs, h.counter)) fun a b h => by
    obtain ⟨w, c⟩ := a
    obtain ⟨w', c'⟩ := b
    simpa using h

instance : Inhabited Hlc := ⟨⟨0, 0⟩⟩

theorem lt_iff {a b : Hlc} :
    a < b ↔ a.wallMs < b.wallMs ∨ a.wallMs = b.wallMs ∧ a.counter < b.counter :=
  Prod.Lex.toLex_lt_toLex

theorem le_iff {a b : Hlc} :
    a ≤ b ↔ a.wallMs < b.wallMs ∨ a.wallMs = b.wallMs ∧ a.counter ≤ b.counter :=
  Prod.Lex.toLex_le_toLex

/-- The clock at both limits, which has no successor. -/
def saturated : Hlc := ⟨maxU64, maxU32⟩

/-- The logical increment: a counter overflow carries into `wallMs`. -/
def inc (h : Hlc) : Hlc :=
  match checkedAdd32 h.counter 1 with
  | some counter => { h with counter := counter }
  | none => ⟨saturatingAdd64 h.wallMs 1, 0⟩

/-- The next local clock at physical time `nowMs`. -/
def nextLocal (h : Hlc) (nowMs : UInt64) : Hlc :=
  if nowMs > h.wallMs then ⟨nowMs, 0⟩ else h.inc

theorem inc_of_counter_lt {h : Hlc} (hc : h.counter.toNat + 1 < 2 ^ 32) :
    h.inc = ⟨h.wallMs, h.counter + 1⟩ := by
  have : checkedAdd32 h.counter 1 = some (h.counter + 1) := if_pos hc
  simp only [inc, this]

/-- A counter at its limit carries. -/
theorem inc_of_counter_max {h : Hlc} (hc : ¬ h.counter.toNat + 1 < 2 ^ 32) :
    h.inc = ⟨saturatingAdd64 h.wallMs 1, 0⟩ := by
  have : checkedAdd32 h.counter 1 = none := if_neg hc
  simp only [inc, this]

theorem eq_saturated_iff {h : Hlc} :
    h = saturated ↔ h.wallMs.toNat = 2 ^ 64 - 1 ∧ h.counter.toNat = 2 ^ 32 - 1 := by
  obtain ⟨w, c⟩ := h
  rw [saturated, Hlc.mk.injEq, ← UInt64.toNat_inj, ← UInt32.toNat_inj, maxU64_toNat, maxU32_toNat]

theorem lt_inc_iff {h : Hlc} : h < h.inc ↔ h ≠ saturated := by
  have hw := h.wallMs.toNat_lt
  have hc := h.counter.toNat_lt
  rw [Ne, eq_saturated_iff, lt_iff]
  by_cases hc1 : h.counter.toNat + 1 < 2 ^ 32
  · have hadd : (h.counter + 1).toNat = h.counter.toNat + 1 := by
      rw [UInt32.toNat_add]
      exact Nat.mod_eq_of_lt hc1
    rw [inc_of_counter_lt hc1]
    refine iff_of_true (.inr ⟨rfl, ?_⟩) (by omega)
    show h.counter < h.counter + 1
    rw [UInt32.lt_iff_toNat_lt]
    omega
  · rw [inc_of_counter_max hc1]
    by_cases hw1 : h.wallMs.toNat + 1 < 2 ^ 64
    · have hs : saturatingAdd64 h.wallMs 1 = h.wallMs + 1 := if_pos hw1
      refine iff_of_true (.inl ?_) (by omega)
      rw [hs, UInt64.lt_iff_toNat_lt, toNat_add_one hw1]
      omega
    · have hs : saturatingAdd64 h.wallMs 1 = maxU64 := if_neg hw1
      refine iff_of_false ?_ (by omega)
      rw [hs, ← eq_maxU64 hw1]
      rintro (hlt | ⟨-, hlt⟩)
      · exact lt_irrefl _ hlt
      · exact not_lt_of_ge UInt32.zero_le hlt

/-- A local event moves the clock up, whatever physical time says, unless it
was saturated. -/
theorem lt_nextLocal_iff {h : Hlc} {now : UInt64} : h < h.nextLocal now ↔ h ≠ saturated := by
  unfold nextLocal
  split
  · next hn =>
    refine ⟨fun _ he => ?_, fun _ => lt_iff.mpr (.inl hn)⟩
    subst he
    exact not_lt_of_ge (le_maxU64 now) hn
  · exact lt_inc_iff

end Hlc

/-- The clock of one device: the last `Hlc` it emitted. -/
structure HlcClock where
  last : Hlc

namespace HlcClock

def new : HlcClock := ⟨default⟩

/-- A local event; the new clock and the `Hlc` emitted. -/
def tick (c : HlcClock) (nowMs : UInt64) : HlcClock × Hlc :=
  let last := c.last.nextLocal nowMs
  (⟨last⟩, last)

/-- The reception of `remote`; the new clock and the `Hlc` emitted. -/
def update (c : HlcClock) (nowMs : UInt64) (remote : Hlc) : HlcClock × Hlc :=
  let maxWall := max (max c.last.wallMs remote.wallMs) nowMs
  let last :=
    if maxWall = c.last.wallMs ∧ maxWall = remote.wallMs then
      (⟨maxWall, max c.last.counter remote.counter⟩ : Hlc).inc
    else if maxWall = c.last.wallMs then
      c.last.inc
    else if maxWall = remote.wallMs then
      (⟨maxWall, remote.counter⟩ : Hlc).inc
    else
      ⟨maxWall, 0⟩
  (⟨last⟩, last)

/-- A reception is a local event on the larger of the two clocks. -/
theorem update_eq_nextLocal_max (c : HlcClock) (now : UInt64) (remote : Hlc) :
    (c.update now remote).2 = (max c.last remote).nextLocal now := by
  obtain ⟨⟨w, k⟩⟩ := c
  obtain ⟨w', k'⟩ := remote
  simp only [update, Hlc.nextLocal]
  rcases lt_trichotomy w w' with hlt | heq | hgt
  · have hm : max (⟨w, k⟩ : Hlc) ⟨w', k'⟩ = ⟨w', k'⟩ := max_eq_right (Hlc.lt_iff.mpr (.inl hlt)).le
    rw [hm, max_eq_right hlt.le]
    by_cases hn : now ≤ w'
    · rw [max_eq_left hn, if_neg fun h => hlt.ne' h.1, if_neg hlt.ne', if_pos rfl,
        if_neg (not_lt.mpr hn)]
    · rw [not_le] at hn
      rw [max_eq_right hn.le, if_neg fun h => hn.ne' h.2, if_neg (hlt.trans hn).ne',
        if_neg hn.ne', if_pos hn]
  · subst heq
    have hm : max (⟨w, k⟩ : Hlc) ⟨w, k'⟩ = ⟨w, max k k'⟩ := by
      rcases le_total k k' with h | h
      · rw [max_eq_right h]
        exact max_eq_right (Hlc.le_iff.mpr (.inr ⟨rfl, h⟩))
      · rw [max_eq_left h]
        exact max_eq_left (Hlc.le_iff.mpr (.inr ⟨rfl, h⟩))
    rw [hm, max_self]
    by_cases hn : now ≤ w
    · rw [max_eq_left hn, if_pos ⟨rfl, rfl⟩, if_neg (not_lt.mpr hn)]
    · rw [not_le] at hn
      rw [max_eq_right hn.le, if_neg fun h => hn.ne' h.1, if_neg hn.ne', if_neg hn.ne', if_pos hn]
  · have hm : max (⟨w, k⟩ : Hlc) ⟨w', k'⟩ = ⟨w, k⟩ := max_eq_left (Hlc.lt_iff.mpr (.inl hgt)).le
    rw [hm, max_eq_left hgt.le]
    by_cases hn : now ≤ w
    · rw [max_eq_left hn, if_neg fun h => hgt.ne' h.2, if_pos rfl, if_neg (not_lt.mpr hn)]
    · rw [not_le] at hn
      rw [max_eq_right hn.le, if_neg fun h => hn.ne' h.1, if_neg hn.ne', if_neg (hgt.trans hn).ne',
        if_pos hn]

end HlcClock

/-- The sixteen bytes that name a device. -/
structure DeviceId where
  bytes : List.Vector UInt8 16

namespace DeviceId

instance : LinearOrder DeviceId :=
  LinearOrder.lift' (fun d => d.bytes.toList) fun a b h => by
    obtain ⟨⟨l, hl⟩⟩ := a
    obtain ⟨⟨l', hl'⟩⟩ := b
    congr

def fromBytes (bytes : List.Vector UInt8 16) : DeviceId := ⟨bytes⟩

def asBytes (d : DeviceId) : List.Vector UInt8 16 := d.bytes

end DeviceId

/-- The device whose bytes are all `n`. -/
def dev (n : UInt8) : DeviceId := .fromBytes (List.Vector.replicate 16 n)

/-- The stamp of a write: its clock, then the author device. -/
structure Timestamp where
  hlc : Hlc
  device : DeviceId

namespace Timestamp

instance : LinearOrder Timestamp :=
  LinearOrder.lift' (fun t => toLex (t.hlc, t.device)) fun a b h => by
    obtain ⟨w, c⟩ := a
    obtain ⟨w', c'⟩ := b
    simpa using h

def new (hlc : Hlc) (device : DeviceId) : Timestamp := ⟨hlc, device⟩

theorem lt_iff {a b : Timestamp} :
    a < b ↔ a.hlc < b.hlc ∨ a.hlc = b.hlc ∧ a.device < b.device :=
  Prod.Lex.toLex_lt_toLex

end Timestamp

end RealmGuard
