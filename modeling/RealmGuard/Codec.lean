import RealmGuard.Lib.Postcard

/-!
# The binary codec

`encode` and `decode` (`codec.rs`) and the errors of the core (`error.rs`). Decoding
reads a value off the front of its input: it gives back what was encoded whatever
follows (`decode_append`), and input that is no longer than the encoding of what it
decodes to is that encoding (`eq_encoding`).
-/

namespace RealmGuard

open Lib.Postcard (Wire Fits Tight Decoder)

/-- The errors of the core. -/
inductive Error where
  | crypto (message : String)
  | crdt (message : String)
  | serialization (message : String)
  | auth (message : String)
deriving DecidableEq

/-- `x?` followed by `f`. -/
@[simp] theorem bind_eq_ok {α β : Type} {x : Except Error α} {f : α → Except Error β} {b : β} :
    x >>= f = .ok b ↔ ∃ a, x = .ok a ∧ f a = .ok b := by
  cases x <;> simp [bind, Except.bind]

@[simp] theorem map_eq_ok {α β : Type} {x : Except Error α} {f : α → β} {b : β} :
    f <$> x = .ok b ↔ ∃ a, x = .ok a ∧ f a = b := by
  cases x <;> simp [Functor.map, Except.map]

namespace Codec

variable {α : Type} [Wire α] {a b : α} {bytes : List UInt8}

/-- `postcard::to_allocvec`. -/
def encode (value : α) : Except Error (List UInt8) := .ok (Wire.encode value)

/-- `postcard::from_bytes`: what follows the value is ignored. -/
def decode (bytes : List UInt8) : Except Error α :=
  match (Wire.decode : Decoder α) bytes with
  | .ok (value, _) => .ok value
  | .error e => .error (.serialization e.text)

theorem decode_eq_ok :
    decode bytes = .ok a ↔ ∃ rest, (Wire.decode : Decoder α) bytes = .ok (a, rest) := by
  unfold decode
  cases (Wire.decode : Decoder α) bytes with
  | error e => simp
  | ok q => simp [Prod.ext_iff]

theorem decode_append (h : Fits a) (rest : List UInt8) :
    decode (Wire.encode a ++ rest) = .ok a := decode_eq_ok.mpr ⟨rest, Wire.reads a h rest⟩

theorem decode_encoding (h : Fits a) : decode (Wire.encode a) = .ok a := by
  simpa using decode_append h []

theorem eq_of_decode (ha : Fits a) (h : decode (Wire.encode a) = .ok b) : b = a := by
  rw [decode_encoding ha] at h
  exact (Except.ok.inj h).symm

/-- Input no longer than the encoding of what it decodes to is that encoding. -/
theorem eq_encoding [Tight α] (h : decode bytes = .ok a)
    (hlen : bytes.length ≤ (Wire.encode a).length) : bytes = Wire.encode a := by
  obtain ⟨rest, hread⟩ := decode_eq_ok.mp h
  obtain ⟨front, rfl, hle, heq⟩ := Tight.tightly hread
  rw [List.length_append] at hlen
  obtain rfl : rest = [] := List.eq_nil_of_length_eq_zero (by omega)
  rw [List.append_nil]
  exact heq (by omega)

end Codec

end RealmGuard
