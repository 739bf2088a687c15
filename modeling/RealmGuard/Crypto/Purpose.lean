import RealmGuard.Crypto.Envelopes
import RealmGuard.Crypto.Pairing

/-!
# The purposes of derived keys

Every derivation of the core runs HKDF under an info string that names its purpose: a
label followed by what the purpose is about, unframed. No label is an initial segment of
another, so that different purposes have different strings (`Purpose.info_injective`).
Each path seals and opens under the key of its purpose.
-/

namespace RealmGuard

inductive Label where
  | entryKey
  | recoveryKey
  | serverBlobKey
  | pairingAead
  | pairingSas
deriving DecidableEq

namespace Label

def bytes : Label → Bytes
  | .entryKey => entryKeyInfo
  | .recoveryKey => recoveryKeyInfo
  | .serverBlobKey => serverBlobInfo
  | .pairingAead => aeadInfo
  | .pairingSas => sasInfo

/-- The length of the shortest label, `entryKeyInfo`. -/
theorem length_le (k : Label) : 29 ≤ k.bytes.length := by
  cases k <;> decide

/-- Labels differ within their first 29 bytes. -/
theorem eq_of_take {k k' : Label} (h : k.bytes.take 29 = k'.bytes.take 29) : k = k' := by
  cases k <;> cases k' <;> first | rfl | exact absurd h (by decide)

theorem append_inj {k k' : Label} {x y : Bytes} (h : k.bytes ++ x = k'.bytes ++ y) :
    k = k' ∧ x = y := by
  have htake := congrArg (List.take 29) h
  rw [List.take_append_of_le_length k.length_le, List.take_append_of_le_length k'.length_le]
    at htake
  obtain rfl := eq_of_take htake
  exact ⟨rfl, List.append_cancel_left h⟩

end Label

/-- What a derived key is for. -/
inductive Purpose where
  | entry (entryId : Bytes)
  | recovery
  | serverBlob
  | pairingAead (pkNew pkSrc devicePk : Key)
  | pairingSas (pkNew pkSrc devicePk : Key)
deriving DecidableEq

namespace Purpose

def label : Purpose → Label
  | .entry _ => .entryKey
  | .recovery => .recoveryKey
  | .serverBlob => .serverBlobKey
  | .pairingAead .. => .pairingAead
  | .pairingSas .. => .pairingSas

/-- What follows the label. -/
def suffix : Purpose → Bytes
  | .entry entryId => entryId
  | .recovery => []
  | .serverBlob => []
  | .pairingAead pkNew pkSrc devicePk => transcript pkNew.toList pkSrc.toList devicePk.toList
  | .pairingSas pkNew pkSrc devicePk => transcript pkNew.toList pkSrc.toList devicePk.toList

def info (q : Purpose) : Bytes := q.label.bytes ++ q.suffix

/-- A transcript of keys parses in one way. -/
theorem transcript_inj {a b c a' b' c' : Key}
    (h : transcript a.toList b.toList c.toList = transcript a'.toList b'.toList c'.toList) :
    a = a' ∧ b = b' ∧ c = c' := by
  unfold transcript at h
  obtain ⟨ha, h⟩ := List.append_inj h (by rw [a.toList_length, a'.toList_length])
  obtain ⟨hb, hc⟩ := List.append_inj h (by rw [b.toList_length, b'.toList_length])
  exact ⟨List.Vector.toList_injective ha, List.Vector.toList_injective hb,
    List.Vector.toList_injective hc⟩

/-- **Different purposes have different info strings.** -/
theorem info_injective : Function.Injective info := by
  intro q q' h
  obtain ⟨hlabel, hsuffix⟩ := Label.append_inj h
  cases q with
  | entry id =>
    cases q' with
    | entry id' => exact congrArg entry hsuffix
    | _ => cases hlabel
  | recovery =>
    cases q' with
    | recovery => rfl
    | _ => cases hlabel
  | serverBlob =>
    cases q' with
    | serverBlob => rfl
    | _ => cases hlabel
  | pairingAead a b c =>
    cases q' with
    | pairingAead a' b' c' =>
      obtain ⟨rfl, rfl, rfl⟩ := transcript_inj hsuffix
      rfl
    | _ => cases hlabel
  | pairingSas a b c =>
    cases q' with
    | pairingSas a' b' c' =>
      obtain ⟨rfl, rfl, rfl⟩ := transcript_inj hsuffix
      rfl
    | _ => cases hlabel

end Purpose

variable {s : Suite} {draw : Draw xnonceLen} {vaultKey : VaultKey} {exportKey entryId m : Bytes}
  {c : Ciphertext}

/-! ## What each path derives -/

theorem entrySubkey_eq_ok {key : Key} :
    entrySubkey s vaultKey entryId = .ok key ↔
      s.hkdf.expand vaultKey.bytes.toList (Purpose.entry entryId).info keyLen = some key :=
  orCrypto_eq_ok

theorem recoveryKey_eq_ok {entropy : Bytes} {key : Key} :
    recoveryKey s entropy = .ok key ↔
      s.hkdf.expand entropy Purpose.recovery.info keyLen = some key := by
  unfold recoveryKey deriveKey Purpose.info
  rw [orCrypto_eq_ok, show Purpose.recovery.suffix = [] from rfl, List.append_nil]
  rfl

theorem blobKey_eq_ok {key : Key} :
    blobKey s exportKey = .ok key ↔
      s.hkdf.expand exportKey Purpose.serverBlob.info keyLen = some key := by
  unfold blobKey deriveKey Purpose.info
  rw [orCrypto_eq_ok, show Purpose.serverBlob.suffix = [] from rfl, List.append_nil]
  rfl

theorem derive_keys_eq_ok {shared : Bytes} {pkNew pkSrc devicePk key : Key} {sas : String} :
    derive s shared pkNew.toList pkSrc.toList devicePk.toList = .ok (key, sas) ↔
      s.hkdf.expand shared (Purpose.pairingAead pkNew pkSrc devicePk).info keyLen = some key ∧
      (s.hkdf.expand shared (Purpose.pairingSas pkNew pkSrc devicePk).info 4).map formatSas =
        some sas := derive_eq_ok

/-! ## What each path seals and opens -/

theorem encryptEntry_eq_ok :
    encryptEntry s draw vaultKey entryId m = .ok c ↔ ∃ key,
      s.hkdf.expand vaultKey.bytes.toList (Purpose.entry entryId).info keyLen = some key ∧
        s.aead.seal draw key m = .ok c := by
  unfold encryptEntry
  simp [entrySubkey_eq_ok]

theorem decryptEntry_eq_ok :
    decryptEntry s vaultKey entryId c = .ok m ↔ ∃ key,
      s.hkdf.expand vaultKey.bytes.toList (Purpose.entry entryId).info keyLen = some key ∧
        s.aead.open key c = .ok m := by
  unfold decryptEntry
  simp [entrySubkey_eq_ok]

/-- Encryption of an entry fails for its length alone. -/
theorem exists_encryptEntry (s : Suite) (nonce : List.Vector UInt8 xnonceLen)
    (vaultKey : VaultKey) (entryId : Bytes) (h : m.length ≤ s.aead.maxLen) :
    ∃ c, encryptEntry s (.ok nonce) vaultKey entryId m = .ok c := by
  have hlen : keyLen ≤ 255 * 32 := by decide
  obtain ⟨key, hkey⟩ :=
    s.hkdf.exists_expand vaultKey.bytes.toList (Purpose.entry entryId).info hlen
  obtain ⟨c, hc⟩ := Aead.exists_seal nonce key h
  exact ⟨c, encryptEntry_eq_ok.mpr ⟨key, hkey, hc⟩⟩

theorem createRecoveryKit_key {entropy : List.Vector UInt8 recoveryEntropyLen}
    {code : RecoveryCode} (h : createRecoveryKit s (.ok entropy) draw vaultKey = .ok (code, c)) :
    ∃ key, s.hkdf.expand entropy.toList Purpose.recovery.info keyLen = some key ∧
      s.aead.seal draw key vaultKey.bytes.toList = .ok c := by
  unfold createRecoveryKit at h
  simp only [bind_eq_ok, getrandom_eq_ok, recoveryKey_eq_ok] at h
  obtain ⟨_, he, _, -, key, hkey, _, hseal, hr⟩ := h
  obtain rfl := Except.ok.inj he
  obtain ⟨-, rfl⟩ := Prod.mk.inj (Except.ok.inj hr)
  exact ⟨key, hkey, hseal⟩

theorem recoverVaultKey_key {phrase : String} {entropy : Bytes}
    (hparse : s.bip39.parse (trim phrase) = some entropy)
    (h : recoverVaultKey s phrase c = .ok vaultKey) : ∃ key plaintext,
      s.hkdf.expand entropy Purpose.recovery.info keyLen = some key ∧
        s.aead.open key c = .ok plaintext := by
  unfold recoverVaultKey at h
  simp only [bind_eq_ok, orCrypto_eq_ok, recoveryKey_eq_ok] at h
  obtain ⟨_, he, key, hkey, plaintext, hopen, -⟩ := h
  obtain rfl := Option.some.inj (he.symm.trans hparse)
  exact ⟨key, plaintext, hkey, hopen⟩

theorem sealWithExportKey_eq_ok : sealWithExportKey s draw exportKey m = .ok c ↔ ∃ key,
    s.hkdf.expand exportKey Purpose.serverBlob.info keyLen = some key ∧
      s.aead.seal draw key m = .ok c := by
  unfold sealWithExportKey
  simp [blobKey_eq_ok]

theorem openWithExportKey_eq_ok : openWithExportKey s exportKey c = .ok m ↔ ∃ key,
    s.hkdf.expand exportKey Purpose.serverBlob.info keyLen = some key ∧
      s.aead.open key c = .ok m := by
  unfold openWithExportKey
  simp [blobKey_eq_ok]

end RealmGuard
