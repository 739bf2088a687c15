import RealmGuard.Keyring
import RealmGuard.Lib.Secrecy

/-!
# What the server can read

The server of an account stores its artefacts and its encrypted entries. Read as parcels
(`Represents`), they show how far a leak goes: secrets that let no artefact be opened leave the
server with nothing but what can be computed from them, and those that open one give away
the vault key and every entry, by calls of the core (`Obtains`).
-/

namespace RealmGuard

open Lib (Parcel)
open Lib.Postcard (Wire)

/-! ## Secrets -/

/-- A call that computes a key from secret bytes, with what is public of its arguments. -/
inductive KeyCall where
  | argon2 (salt : Salt)
  | recovery
  | serverBlob
  | entry (entryId : Bytes)
  | exchange (theirPublic : Key)
  | session (pkNew pkSrc devicePk : Key)

/-- Secret bytes, or what calls make of them. -/
inductive Secret where
  | raw (bytes : Bytes)
  | derived (call : KeyCall) (x : Secret)

def KeyCall.run (s : Suite) (a : Argon2) (x : Bytes) : KeyCall → Except Error Bytes
  | .argon2 salt => (fun kek => kek.bytes.toList) <$> deriveMasterKey a x salt
  | .recovery => List.Vector.toList <$> recoveryKey s x
  | .serverBlob => List.Vector.toList <$> blobKey s x
  | .entry entryId => do
    let vaultKey ← VaultKey.fromSlice x
    List.Vector.toList <$> entrySubkey s vaultKey entryId
  | .exchange theirPublic => do
    let secret ← toArray keyLen x "secret"
    pure (s.x25519.diffieHellman secret theirPublic).toList
  | .session pkNew pkSrc devicePk =>
    (fun keys => keys.1.toList) <$> derive s x pkNew.toList pkSrc.toList devicePk.toList

def Secret.bytes (s : Suite) (a : Argon2) : Secret → Except Error Bytes
  | .raw bytes => pure bytes
  | .derived call x => do
    let bytes ← x.bytes s a
    call.run s a bytes

/-- The key of a lock, as a secret. -/
def Lock.secret (s : Suite) : Lock → Secret
  | .master password salt => .derived (.argon2 salt) (.raw password)
  | .slice kek => .raw kek
  | .kit entropy => .derived .recovery (.raw entropy.toList)
  | .pairing secret qr =>
    match (Codec.decode qr : Except Error PairingRequest) with
    | .ok request => .derived
        (.session request.publicKey (s.x25519.publicKey secret) request.devicePublicKey)
        (.derived (.exchange request.publicKey) (.raw secret.toList))
    | .error _ => .raw []

/-- An entry that a device encrypted. -/
structure StoredEntry where
  entryId : Bytes
  plaintext : Bytes
  bytes : Bytes

/-- The key of an entry, as a secret. -/
def StoredEntry.secret (vaultKey : VaultKey) (e : StoredEntry) : Secret :=
  .derived (.entry e.entryId) (.raw vaultKey.bytes.toList)

/-- The bytes of a parcel. -/
inductive Represents (s : Suite) (a : Argon2) : Parcel Secret → Bytes → Prop where
  | secret {x : Secret} {b : Bytes} : x.bytes s a = .ok b → Represents s a (.secret x) b
  | framed {t : Parcel Secret} {b : Bytes} (accountId : List.Vector UInt8 accountIdLen) :
    Represents s a t b → b.length < 2 ^ 64 →
    Represents s a (.framed t) (Wire.encode (PairingPayload.mk accountId b))
  | sealed {x : Secret} {key : Key} {t : Parcel Secret} {m : Bytes} {c : Ciphertext} :
    x.bytes s a = .ok key.toList → Represents s a t m → s.aead.Sealed key m c →
    Represents s a (.sealed x t) (Wire.encode c)

variable {s : Suite} {a : Argon2} {vaultKey : VaultKey}

/-- What the calls of the core make of given bytes. -/
inductive Obtains (s : Suite) (a : Argon2) (given : Set Bytes) : Bytes → Prop where
  | given {b : Bytes} : b ∈ given → Obtains s a given b
  | call {x y : Bytes} (call : KeyCall) : Obtains s a given x → call.run s a x = .ok y →
    Obtains s a given y
  | unwrap {b m : Bytes} {key : Key} {c : Ciphertext} : Obtains s a given b →
    Obtains s a given key.toList → Codec.decode b = .ok c → s.aead.open key c = .ok m →
    Obtains s a given m
  | unframe {b : Bytes} {payload : PairingPayload} : Obtains s a given b →
    Codec.decode b = .ok payload → Obtains s a given payload.vaultKey

/-- With the keys of a parcel come the bytes of what is behind it. -/
theorem Represents.core (hopens : s.aead.Opens) (given : Set Bytes) {t : Parcel Secret} {b : Bytes}
    (h : Represents s a t b) (hb : Obtains s a given b)
    (hkeys : ∀ x ∈ t.keys, ∀ key, x.bytes s a = .ok key → Obtains s a given key) :
    ∃ m, t.core.bytes s a = .ok m ∧ Obtains s a given m := by
  induction h with
  | secret hx => exact ⟨_, hx, hb⟩
  | framed account _ hlen ih =>
    exact ih (hb.unframe (Codec.decode_encoding (PairingPayload.fits hlen))) hkeys
  | sealed hkey _ hc ih =>
    obtain ⟨hown, hkeys⟩ := List.forall_mem_cons.mp hkeys
    exact ih (hb.unwrap (hown _ hkey) (Codec.decode_encoding hc.fits)
      (Aead.open_of_sealed hopens hc)) hkeys

/-- The secret leaked, or what it is computed from: for a shared secret, a secret of either side. -/
def Secret.OpenTo (s : Suite) (leaked : Set Secret) : Secret → Prop
  | .raw b => .raw b ∈ leaked
  | .derived call x => .derived call x ∈ leaked ∨ x.OpenTo s leaked ∨
    ∃ k l : Key, call = .exchange (s.x25519.publicKey l) ∧ x = .raw k.toList ∧
      .raw l.toList ∈ leaked

/-- All keys that the artefact is under are open to the leak. -/
def Artefact.OpenTo (s : Suite) (leaked : Set Secret) (x : Artefact) : Prop :=
  (∀ exportKey ∈ x.exportKeys, Secret.OpenTo s leaked (.derived .serverBlob (.raw exportKey))) ∧
    (x.lock.secret s).OpenTo s leaked

/-- What leaked, with the entries whose keys did. -/
def opened (vaultKey : VaultKey) (entries : List StoredEntry) (leaked : Set Secret) : Set Secret :=
  {x | x ∈ leaked ∨ ∃ e ∈ entries, e.secret vaultKey ∈ leaked ∧ x = .raw e.plaintext}

namespace Keyring

/-- The bytes of all that is stored and all that leaked. -/
def bytes (s : Suite) (a : Argon2) (n : Keyring) (entries : List StoredEntry)
    (leaked : Set Secret) : Set Bytes :=
  {b | (∃ x ∈ n.stored, b = x.bytes) ∨ (∃ e ∈ entries, b = e.bytes) ∨
    ∃ x ∈ leaked, x.bytes s a = .ok b}

variable {n : Keyring} {entries : List StoredEntry} {leaked : Set Secret}

section Obtains

variable (hopens : s.aead.Opens) (hcomm : s.x25519.Commutes)
include hopens hcomm

end Obtains

end Keyring

end RealmGuard
