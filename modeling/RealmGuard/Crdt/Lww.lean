import RealmGuard.Crdt.Hlc

/-!
# The last-writer-wins register

A value stamped with a `Timestamp` (`crdt/lww.rs`). Writes and merges keep the
larger `(ts, value)` pair, so a register is an element of the linear order
`Timestamp ×ₗ T` (`LwwRegister.key`) and both operations are its `max`.
-/

namespace RealmGuard

structure LwwRegister (T : Type) where
  value : T
  ts : Timestamp
deriving DecidableEq

namespace LwwRegister

variable {T : Type}

def new (value : T) (ts : Timestamp) : LwwRegister T := ⟨value, ts⟩

/-- The pair that decides which of two registers wins. -/
def key (r : LwwRegister T) : Timestamp ×ₗ T := toLex (r.ts, r.value)

theorem key_injective : Function.Injective (key : LwwRegister T → Timestamp ×ₗ T) := by
  rintro ⟨v, t⟩ ⟨v', t'⟩ h
  simp only [key, EmbeddingLike.apply_eq_iff_eq, Prod.mk.injEq] at h
  rw [h.1, h.2]

@[simp] theorem key_new (value : T) (ts : Timestamp) : (new value ts).key = toLex (ts, value) := rfl

variable [LinearOrder T]

/-- A local write, applied if it beats the current one. -/
def set (r : LwwRegister T) (value : T) (ts : Timestamp) : LwwRegister T :=
  if toLex (ts, value) > toLex (r.ts, r.value) then ⟨value, ts⟩ else r

/-- The join of two registers. -/
def merge (r other : LwwRegister T) : LwwRegister T :=
  if toLex (other.ts, other.value) > toLex (r.ts, r.value) then ⟨other.value, other.ts⟩ else r

def merged (r other : LwwRegister T) : LwwRegister T := r.merge other

/-- A write is the merge of the register it would create. -/
theorem set_eq_merge (r : LwwRegister T) (value : T) (ts : Timestamp) :
    r.set value ts = r.merge (new value ts) := rfl

@[simp] theorem key_merge (r other : LwwRegister T) : (r.merge other).key = r.key ⊔ other.key := by
  unfold merge
  split
  · next h => exact (max_eq_right (le_of_lt h)).symm
  · next h => exact (max_eq_left (not_lt.mp h)).symm

end LwwRegister

end RealmGuard
