import RealmGuard.Crypto.Aead

/-!
# Entries, recovery kits and server blobs

The three paths on which the core seals on its own behalf (`crypto/entry.rs`,
`crypto/recovery.rs`, `crypto/server_blob.rs`): each derives its key from key material
by HKDF, under an info string that names the purpose, and seals with it. Under which
derived key a path seals or opens is in `Crypto.Purpose`.
-/

namespace RealmGuard

open Lib.Postcard (Wire)

/-- The root key of a vault. -/
structure VaultKey where
  bytes : Key
deriving DecidableEq

/-- The key of a slice, if it has the length of one. -/
def VaultKey.fromSlice (bytes : Bytes) : Except Error VaultKey :=
  VaultKey.mk <$> orCrypto
    s!"VaultKey de taille invalide ({bytes.length} octets, {keyLen} attendus)"
    (tryInto keyLen bytes)

/-- The opened bytes, as a vault key. -/
def VaultKey.ofPlaintext (plaintext : Bytes) : Except Error VaultKey :=
  VaultKey.mk <$> orCrypto "taille de clé invalide" (tryInto keyLen plaintext)

/-- HKDF of `ikm` under `info`, for a key. -/
def deriveKey (s : Suite) (message : String) (ikm info : Bytes) : Except Error Key :=
  orCrypto message (s.hkdf.expand ikm info keyLen)

/-! ## Entries -/

def entryKeyInfo : Bytes := label "realm-guard-core/v1/entry-key"

/-- The key of an entry, from the root key. -/
def entrySubkey (s : Suite) (vaultKey : VaultKey) (entryId : Bytes) : Except Error Key :=
  deriveKey s "dérivation HKDF échouée" vaultKey.bytes.toList (entryKeyInfo ++ entryId)

def encryptEntry (s : Suite) (draw : Draw xnonceLen) (vaultKey : VaultKey)
    (entryId plaintext : Bytes) : Except Error Ciphertext := do
  let subkey ← entrySubkey s vaultKey entryId
  s.aead.seal draw subkey plaintext

def decryptEntry (s : Suite) (vaultKey : VaultKey) (entryId : Bytes) (ciphertext : Ciphertext) :
    Except Error Bytes := do
  let subkey ← entrySubkey s vaultKey entryId
  s.aead.open subkey ciphertext

/-- `encryptEntry` on bytes. -/
def encryptEntryBytes (s : Suite) (draw : Draw xnonceLen) (vaultKey entryId plaintext : Bytes) :
    Except Error Bytes := do
  let vaultKey ← VaultKey.fromSlice vaultKey
  let ciphertext ← encryptEntry s draw vaultKey entryId plaintext
  Codec.encode ciphertext

/-- `decryptEntry` on bytes. -/
def decryptEntryBytes (s : Suite) (vaultKey entryId ciphertext : Bytes) : Except Error Bytes := do
  let vaultKey ← VaultKey.fromSlice vaultKey
  let ciphertext : Ciphertext ← Codec.decode ciphertext
  decryptEntry s vaultKey entryId ciphertext

/-! ## Recovery kits -/

def recoveryEntropyLen : ℕ := 32

def recoveryKeyInfo : Bytes := label "realm-guard-core/v1/recovery-key"

/-- The 24 words of a recovery code. -/
structure RecoveryCode where
  phrase : String

/-- The key of a recovery code, from its entropy. -/
def recoveryKey (s : Suite) (entropy : Bytes) : Except Error Key :=
  deriveKey s "dérivation HKDF (récup) échouée" entropy recoveryKeyInfo

/-- `Mnemonic::from_entropy`. -/
def mnemonicFromEntropy (s : Suite) (entropy : Bytes) : Except Error String :=
  match s.bip39.fromEntropy entropy with
  | .ok phrase => .ok phrase
  | .error e => .error (.crypto s!"BIP39 : {e}")

/-- A fresh recovery code, and the vault key wrapped under its key. -/
def createRecoveryKit (s : Suite) (entropyDraw : Draw recoveryEntropyLen) (draw : Draw xnonceLen)
    (vaultKey : VaultKey) : Except Error (RecoveryCode × Ciphertext) := do
  let entropy ← getrandom entropyDraw
  let mnemonic ← mnemonicFromEntropy s entropy.toList
  let key ← recoveryKey s entropy.toList
  let wrapped ← s.aead.seal draw key vaultKey.bytes.toList
  pure (⟨mnemonic⟩, wrapped)

/-- White space in Unicode, which `str::trim` removes. -/
def isWhitespace (c : Char) : Bool :=
  let n := c.toNat
  (0x09 ≤ n && n ≤ 0x0D) || n = 0x20 || n = 0x85 || n = 0xA0 || n = 0x1680 ||
    (0x2000 ≤ n && n ≤ 0x200A) || n = 0x2028 || n = 0x2029 || n = 0x202F || n = 0x205F ||
    n = 0x3000

/-- `str::trim`. -/
def trim (s : String) : String :=
  .ofList (((s.toList.dropWhile isWhitespace).reverse.dropWhile isWhitespace).reverse)

def recoverVaultKey (s : Suite) (recoveryPhrase : String) (wrapped : Ciphertext) :
    Except Error VaultKey := do
  let entropy ← orCrypto "code de récupération invalide" (s.bip39.parse (trim recoveryPhrase))
  let key ← recoveryKey s entropy
  let plaintext ← s.aead.open key wrapped
  VaultKey.ofPlaintext plaintext

/-! ## Server blobs -/

def serverBlobInfo : Bytes := label "realm-guard-core/v1/server-blob-key"

/-- The key of a server blob, from the exported key. -/
def blobKey (s : Suite) (exportKey : Bytes) : Except Error Key :=
  deriveKey s "dérivation HKDF (blob serveur) échouée" exportKey serverBlobInfo

def sealWithExportKey (s : Suite) (draw : Draw xnonceLen) (exportKey plaintext : Bytes) :
    Except Error Ciphertext := do
  let key ← blobKey s exportKey
  s.aead.seal draw key plaintext

def openWithExportKey (s : Suite) (exportKey : Bytes) (sealed : Ciphertext) :
    Except Error Bytes := do
  let key ← blobKey s exportKey
  s.aead.open key sealed

end RealmGuard
