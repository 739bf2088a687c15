import Mathlib.Algebra.Ring.Nat
import Mathlib.Order.Basic
import Mathlib.Order.Lattice
import Mathlib.Order.Defs.LinearOrder
import Mathlib.Data.Prod.Lex

/-!
# Fixed-width integers

Linear orders on the fixed-width integers, and their checked, saturating and
profile-dependent additions. An addition that overflows is a panic in a build
with overflow checks and wraps in one without: `Profile` names the two builds,
and `Profile.add` returns `none` for the panic.
-/

namespace RealmGuard.Lib

instance linearOrderUInt8 : LinearOrder UInt8 where
  le_refl _ := UInt8.le_refl _
  le_trans _ _ _ := UInt8.le_trans
  le_antisymm _ _ := UInt8.le_antisymm
  le_total := UInt8.le_total
  lt_iff_le_not_ge _ _ := by
    simp only [UInt8.lt_iff_toNat_lt, UInt8.le_iff_toNat_le]
    omega
  toDecidableLE := inferInstance
  toMin := inferInstance
  toMax := inferInstance

instance linearOrderUInt16 : LinearOrder UInt16 where
  le_refl _ := UInt16.le_refl _
  le_trans _ _ _ := UInt16.le_trans
  le_antisymm _ _ := UInt16.le_antisymm
  le_total := UInt16.le_total
  lt_iff_le_not_ge _ _ := by
    simp only [UInt16.lt_iff_toNat_lt, UInt16.le_iff_toNat_le]
    omega
  toDecidableLE := inferInstance
  toMin := inferInstance
  toMax := inferInstance

instance linearOrderUInt32 : LinearOrder UInt32 where
  le_refl _ := UInt32.le_refl _
  le_trans _ _ _ := UInt32.le_trans
  le_antisymm _ _ := UInt32.le_antisymm
  le_total := UInt32.le_total
  lt_iff_le_not_ge _ _ := by
    simp only [UInt32.lt_iff_toNat_lt, UInt32.le_iff_toNat_le]
    omega
  toDecidableLE := inferInstance
  toMin := inferInstance
  toMax := inferInstance

instance linearOrderUInt64 : LinearOrder UInt64 where
  le_refl _ := UInt64.le_refl _
  le_trans _ _ _ := UInt64.le_trans
  le_antisymm _ _ := UInt64.le_antisymm
  le_total := UInt64.le_total
  lt_iff_le_not_ge _ _ := by
    simp only [UInt64.lt_iff_toNat_lt, UInt64.le_iff_toNat_le]
    omega
  toDecidableLE := inferInstance
  toMin := inferInstance
  toMax := inferInstance

/-- The two builds of the code: `dev` checks integer overflow, `release` wraps. -/
inductive Profile where
  | dev
  | release
deriving DecidableEq

/-- `u64::MAX`. -/
def maxU64 : UInt64 := 18446744073709551615

/-- `u32::MAX`. -/
def maxU32 : UInt32 := 4294967295

/-- `a + b` on `u64`; `none` is the overflow panic. -/
def Profile.add : Profile → UInt64 → UInt64 → Option UInt64
  | .dev, a, b => if a.toNat + b.toNat < 2 ^ 64 then some (a + b) else none
  | .release, a, b => some (a + b)

/-- `a.checked_add(b)` on `u32`. -/
def checkedAdd32 (a b : UInt32) : Option UInt32 :=
  if a.toNat + b.toNat < 2 ^ 32 then some (a + b) else none

/-- `a.saturating_add(b)` on `u64`. -/
def saturatingAdd64 (a b : UInt64) : UInt64 :=
  if a.toNat + b.toNat < 2 ^ 64 then a + b else maxU64

theorem maxU64_toNat : maxU64.toNat = 2 ^ 64 - 1 := rfl

theorem maxU32_toNat : maxU32.toNat = 2 ^ 32 - 1 := rfl

theorem le_maxU64 (n : UInt64) : n ≤ maxU64 := by
  have := n.toNat_lt
  rw [UInt64.le_iff_toNat_le, maxU64_toNat]
  omega

theorem toNat_add_one {n : UInt64} (h : n.toNat + 1 < 2 ^ 64) : (n + 1).toNat = n.toNat + 1 := by
  rw [UInt64.toNat_add]
  exact Nat.mod_eq_of_lt h

theorem pos_iff_toNat {n : UInt64} : 0 < n ↔ 0 < n.toNat := UInt64.lt_iff_toNat_lt

theorem pos_iff_one_le {n : UInt64} : 0 < n ↔ 1 ≤ n := by
  rw [UInt64.le_iff_toNat_le]
  exact pos_iff_toNat

theorem zero_lt_one_u64 : (0 : UInt64) < 1 := by decide

theorem self_lt_add_one {n : UInt64} (h : n.toNat + 1 < 2 ^ 64) : n < n + 1 := by
  rw [UInt64.lt_iff_toNat_lt, toNat_add_one h]
  exact Nat.lt_succ_self _

theorem lt_iff_of_succ {n j k : UInt64} (hj : j.toNat = n.toNat + 1) :
    n < k ↔ k = j ∨ j < k := by
  rw [← UInt64.toNat_inj, UInt64.lt_iff_toNat_lt, UInt64.lt_iff_toNat_lt]
  omega

theorem pos_add_one {n : UInt64} (h : n.toNat + 1 < 2 ^ 64) : 0 < n + 1 :=
  lt_of_le_of_lt UInt64.zero_le (self_lt_add_one h)

theorem eq_zero_of_not_pos {n : UInt64} (h : ¬ 0 < n) : n = 0 :=
  le_antisymm (not_lt.mp h) UInt64.zero_le

theorem eq_maxU64 {n : UInt64} (h : ¬ n.toNat + 1 < 2 ^ 64) : n = maxU64 := by
  have := n.toNat_lt
  rw [← UInt64.toNat_inj, maxU64_toNat]
  omega

theorem toNat_add_one_lt {n : UInt64} (h : n ≠ maxU64) : n.toNat + 1 < 2 ^ 64 := by
  by_contra hn
  exact h (eq_maxU64 hn)

/-- Below the limit both builds agree on `n + 1`. -/
theorem Profile.add_one_of_lt {p : Profile} {n : UInt64} (h : n.toNat + 1 < 2 ^ 64) :
    p.add n 1 = some (n + 1) := by
  cases p
  · exact if_pos h
  · rfl

theorem Profile.dev_add_one_max : Profile.dev.add maxU64 1 = none := rfl

theorem Profile.release_add_one_max : Profile.release.add maxU64 1 = some 0 := rfl

/-- What `n + 1` can return: the successor, or `0` when a release build wraps. -/
theorem Profile.add_one_eq_some {p : Profile} {n m : UInt64} (h : p.add n 1 = some m) :
    (n.toNat + 1 < 2 ^ 64 ∧ m.toNat = n.toNat + 1) ∨ (p = .release ∧ n = maxU64 ∧ m = 0) := by
  by_cases hn : n.toNat + 1 < 2 ^ 64
  · rw [Profile.add_one_of_lt hn, Option.some.injEq] at h
    subst h
    exact .inl ⟨hn, toNat_add_one hn⟩
  · obtain rfl := eq_maxU64 hn
    cases p
    · cases h
    · rw [Profile.release_add_one_max, Option.some.injEq] at h
      exact .inr ⟨rfl, rfl, h.symm⟩

end RealmGuard.Lib
