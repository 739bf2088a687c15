import RealmGuard.Crypto.Envelopes

/-!
# The vault key and the key that wraps it

The root key of a vault is drawn at random (`crypto/vault_key.rs`) and wrapped under a
key derived from the master password by Argon2id (`crypto/kdf.rs`). The variants on bytes
check the lengths of the keys they are given.
-/

namespace RealmGuard

def saltLen : ℕ := 32

def argon2MCostKib : UInt32 := 65536

def argon2TCost : UInt32 := 3

def argon2PCost : UInt32 := 1

abbrev Salt : Type := List.Vector UInt8 saltLen

/-- Argon2id, version 1.3: the check of its parameters, and the hash under them. -/
structure Argon2 where
  Params : Type
  newParams : (mCost tCost pCost : UInt32) → (outputLen : Option ℕ) → Except String Params
  hashPasswordInto : Params → (password salt : Bytes) → (len : ℕ) →
    Except String (List.Vector UInt8 len)

/-- The key that wraps the vault key (KEK). -/
structure MasterKey where
  bytes : Key
deriving DecidableEq

/-- The key of a slice, if it has the length of one. -/
def MasterKey.fromSlice (bytes : Bytes) : Except Error MasterKey :=
  MasterKey.mk <$> orCrypto s!"KEK de taille invalide ({bytes.length} octets, {keyLen} attendus)"
    (tryInto keyLen bytes)

/-- The KEK of a master password. -/
def deriveMasterKey (a : Argon2) (password : Bytes) (salt : Salt) : Except Error MasterKey := do
  if password.isEmpty then throw (.crypto "mot de passe vide")
  let params ← (a.newParams argon2MCostKib argon2TCost argon2PCost (some keyLen)).mapError
    fun e => .crypto s!"paramètres Argon2 : {e}"
  let out ← (a.hashPasswordInto params password salt.toList keyLen).mapError
    fun e => .crypto s!"Argon2 : {e}"
  pure ⟨out⟩

def VaultKey.generate (draw : Draw keyLen) : Except Error VaultKey := VaultKey.mk <$> getrandom draw

def wrapVaultKey (s : Suite) (draw : Draw xnonceLen) (vaultKey : VaultKey) (kek : MasterKey) :
    Except Error Ciphertext := s.aead.seal draw kek.bytes vaultKey.bytes.toList

def unwrapVaultKey (s : Suite) (wrapped : Ciphertext) (kek : MasterKey) :
    Except Error VaultKey := do
  let plaintext ← s.aead.open kek.bytes wrapped
  VaultKey.ofPlaintext plaintext

/-! ## On bytes -/

def generateVaultKeyBytes (draw : Draw keyLen) : Except Error Bytes := do
  let vaultKey ← VaultKey.generate draw
  pure vaultKey.bytes.toList

def wrapVaultKeyBytes (s : Suite) (draw : Draw xnonceLen) (kek vaultKey : Bytes) :
    Except Error Ciphertext := do
  let kek ← MasterKey.fromSlice kek
  let vaultKey ← VaultKey.fromSlice vaultKey
  wrapVaultKey s draw vaultKey kek

def unwrapVaultKeyBytes (s : Suite) (kek : Bytes) (wrapped : Ciphertext) : Except Error Bytes := do
  let kek ← MasterKey.fromSlice kek
  let vaultKey ← unwrapVaultKey s wrapped kek
  pure vaultKey.bytes.toList

/-! ## What they return -/

variable {kek : MasterKey} {vaultKey : VaultKey}

theorem MasterKey.fromSlice_eq_ok {bytes : Bytes} :
    MasterKey.fromSlice bytes = .ok kek ↔ bytes = kek.bytes.toList := by
  obtain ⟨key⟩ := kek
  unfold MasterKey.fromSlice
  simp [tryInto_eq_some]

theorem VaultKey.fromSlice_eq_ok {bytes : Bytes} :
    VaultKey.fromSlice bytes = .ok vaultKey ↔ bytes = vaultKey.bytes.toList := by
  obtain ⟨key⟩ := vaultKey
  unfold VaultKey.fromSlice
  simp [tryInto_eq_some]

@[simp] theorem VaultKey.fromSlice_toList (vaultKey : VaultKey) :
    VaultKey.fromSlice vaultKey.bytes.toList = .ok vaultKey := VaultKey.fromSlice_eq_ok.mpr rfl

theorem VaultKey.ofPlaintext_toList (vaultKey : VaultKey) :
    VaultKey.ofPlaintext vaultKey.bytes.toList = .ok vaultKey := by
  unfold VaultKey.ofPlaintext
  rw [tryInto_toList]
  rfl

end RealmGuard
