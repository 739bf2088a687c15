import RealmGuard.Crypto.Purpose

/-!
# Separation of keys

An envelope opens only through the path that sealed it, and there only under the same
input key and the same parameters (`keysSeparate`), as long as the derivations that are
made yield different keys: nothing else tells the paths apart, since the associated
data of an envelope is its version alone.
-/

namespace RealmGuard

open Lib.Postcard (Wire)

variable {s : Suite} {ikm ikm' : Bytes} {p p' : Purpose} {c : Ciphertext}

/-- `c` was sealed under the key derived from `ikm` for the purpose, through its path. -/
inductive SealedThrough (s : Suite) : Bytes → Purpose → Ciphertext → Prop where
  | entry {draw : Draw xnonceLen} {vaultKey : VaultKey} {entryId plaintext : Bytes}
      {c : Ciphertext} : encryptEntry s draw vaultKey entryId plaintext = .ok c →
    SealedThrough s vaultKey.bytes.toList (.entry entryId) c
  | recovery {entropy : List.Vector UInt8 recoveryEntropyLen} {draw : Draw xnonceLen}
      {vaultKey : VaultKey} {code : RecoveryCode} {c : Ciphertext} :
    createRecoveryKit s (.ok entropy) draw vaultKey = .ok (code, c) →
    SealedThrough s entropy.toList .recovery c
  | serverBlob {draw : Draw xnonceLen} {exportKey plaintext : Bytes} {c : Ciphertext} :
    sealWithExportKey s draw exportKey plaintext = .ok c →
    SealedThrough s exportKey .serverBlob c
  | pairing {shared accountId vaultKey sealed : Bytes} {pkNew pkSrc devicePk key : Key}
      {sas : String} {draw : Draw xnonceLen} {c : Ciphertext} :
    derive s shared pkNew.toList pkSrc.toList devicePk.toList = .ok (key, sas) →
    pairingSourceSeal s draw (Wire.encode (PairingSessionState.mk key)) accountId vaultKey =
      .ok sealed →
    Codec.decode sealed = .ok c →
    SealedThrough s shared (.pairingAead pkNew pkSrc devicePk) c

/-- `c` opens under the key derived from `ikm` for the purpose, through its path. -/
inductive OpensThrough (s : Suite) : Bytes → Purpose → Ciphertext → Prop where
  | entry {vaultKey : VaultKey} {entryId m : Bytes} {c : Ciphertext} :
    decryptEntry s vaultKey entryId c = .ok m →
    OpensThrough s vaultKey.bytes.toList (.entry entryId) c
  | recovery {phrase : String} {entropy : Bytes} {vaultKey : VaultKey} {c : Ciphertext} :
    s.bip39.parse (trim phrase) = some entropy → recoverVaultKey s phrase c = .ok vaultKey →
    OpensThrough s entropy .recovery c
  | serverBlob {exportKey m : Bytes} {c : Ciphertext} :
    openWithExportKey s exportKey c = .ok m → OpensThrough s exportKey .serverBlob c
  | pairing {shared sealed : Bytes} {pkNew pkSrc devicePk key : Key} {sas : String}
      {r : PairingOpenResult} {c : Ciphertext} :
    derive s shared pkNew.toList pkSrc.toList devicePk.toList = .ok (key, sas) →
    Codec.decode sealed = .ok c →
    pairingOpen s (Wire.encode (PairingSessionState.mk key)) sealed = .ok r →
    OpensThrough s shared (.pairingAead pkNew pkSrc devicePk) c

/-- Every path seals under the key of its purpose. -/
theorem SealedThrough.sealed (h : SealedThrough s ikm p c) :
    ∃ key m, s.hkdf.expand ikm p.info keyLen = some key ∧ s.aead.Sealed key m c := by
  cases h with
  | entry h =>
    obtain ⟨key, hkey, hseal⟩ := encryptEntry_eq_ok.mp h
    exact ⟨key, _, hkey, Aead.sealed_of_seal hseal⟩
  | recovery h =>
    obtain ⟨key, hkey, hseal⟩ := createRecoveryKit_key h
    exact ⟨key, _, hkey, Aead.sealed_of_seal hseal⟩
  | serverBlob h =>
    obtain ⟨key, hkey, hseal⟩ := sealWithExportKey_eq_ok.mp h
    exact ⟨key, _, hkey, Aead.sealed_of_seal hseal⟩
  | pairing hder h hdec =>
    obtain ⟨account, session, c', -, hsession, hseal, rfl⟩ := pairingSourceSeal_eq_ok.mp h
    obtain rfl := Codec.eq_of_decode (PairingSessionState.fits _) hsession
    have hsealed := Aead.sealed_of_seal hseal
    obtain rfl := Codec.eq_of_decode hsealed.fits hdec
    exact ⟨_, _, (derive_keys_eq_ok.mp hder).1, hsealed⟩

/-- Every path opens under the key of its purpose. -/
theorem OpensThrough.opened (h : OpensThrough s ikm p c) :
    ∃ key m, s.hkdf.expand ikm p.info keyLen = some key ∧ s.aead.open key c = .ok m := by
  cases h with
  | entry h =>
    obtain ⟨key, hkey, hopen⟩ := decryptEntry_eq_ok.mp h
    exact ⟨key, _, hkey, hopen⟩
  | recovery hparse h =>
    obtain ⟨key, m, hkey, hopen⟩ := recoverVaultKey_key hparse h
    exact ⟨key, m, hkey, hopen⟩
  | serverBlob h =>
    obtain ⟨key, hkey, hopen⟩ := openWithExportKey_eq_ok.mp h
    exact ⟨key, _, hkey, hopen⟩
  | pairing hder hdec h =>
    obtain ⟨session, c', m, payload, hsession, hdec', hopen, -, -⟩ := pairingOpen_eq_ok.mp h
    obtain rfl := Codec.eq_of_decode (PairingSessionState.fits _) hsession
    obtain rfl := Except.ok.inj (hdec.symm.trans hdec')
    exact ⟨_, m, (derive_keys_eq_ok.mp hder).1, hopen⟩

section Separate

variable {made : Set Derivation} (hkeys : s.hkdf.KeysDistinct made)
include hkeys

/-- A key was derived in one way. -/
theorem derivation_unique {key : Key} (hmade : (ikm, p.info) ∈ made)
    (hmade' : (ikm', p'.info) ∈ made) (h : s.hkdf.expand ikm p.info keyLen = some key)
    (h' : s.hkdf.expand ikm' p'.info keyLen = some key) : ikm' = ikm ∧ p' = p := by
  obtain ⟨hikm, hinfo⟩ := Prod.mk.inj (hkeys hmade' hmade (h'.trans h.symm))
  exact ⟨hikm, Purpose.info_injective hinfo⟩

theorem SealedThrough.eq_of_opens (hauth : s.aead.Authentic) (hcom : s.aead.Committing)
    (h : SealedThrough s ikm p c) (h' : OpensThrough s ikm' p' c) (hmade : (ikm, p.info) ∈ made)
    (hmade' : (ikm', p'.info) ∈ made) : ikm' = ikm ∧ p' = p := by
  obtain ⟨key, m, hkey, hsealed⟩ := h.sealed
  obtain ⟨key', m', hkey', hopen⟩ := h'.opened
  obtain rfl := hsealed.key_eq hcom (Aead.sealed_of_open hauth hopen)
  exact derivation_unique hkeys hmade hmade' hkey hkey'

theorem decryptEntry_encryptEntry (hopens : s.aead.Opens) (hauth : s.aead.Authentic)
    (hcom : s.aead.Committing) {draw : Draw xnonceLen} {vaultKey vaultKey' : VaultKey}
    {entryId entryId' m : Bytes} (h : encryptEntry s draw vaultKey entryId m = .ok c)
    (hmade : (vaultKey.bytes.toList, (Purpose.entry entryId).info) ∈ made)
    (hmade' : (vaultKey'.bytes.toList, (Purpose.entry entryId').info) ∈ made) :
    decryptEntry s vaultKey' entryId' c = if vaultKey' = vaultKey ∧ entryId' = entryId then .ok m
      else .error (.crypto "authentification échouée") := by
  obtain ⟨key, hkey, hseal⟩ := encryptEntry_eq_ok.mp h
  have hlen : keyLen ≤ 255 * 32 := by decide
  obtain ⟨key', hkey'⟩ :=
    s.hkdf.exists_expand vaultKey'.bytes.toList (Purpose.entry entryId').info hlen
  have hsub : entrySubkey s vaultKey' entryId' = .ok key' := entrySubkey_eq_ok.mpr hkey'
  have hsame : key' = key ↔ vaultKey' = vaultKey ∧ entryId' = entryId := by
    constructor
    · rintro rfl
      obtain ⟨hvk, hid⟩ := derivation_unique hkeys hmade hmade' hkey hkey'
      obtain ⟨b⟩ := vaultKey
      obtain ⟨b'⟩ := vaultKey'
      obtain rfl : b' = b := List.Vector.toList_injective hvk
      exact ⟨rfl, Purpose.entry.inj hid⟩
    · rintro ⟨rfl, rfl⟩
      exact Option.some.inj (hkey'.symm.trans hkey)
  unfold decryptEntry
  rw [hsub]
  show s.aead.open key' c = _
  have hsealed := Aead.sealed_of_seal hseal
  rw [hsealed.open_eq hopens hauth fun _ h' => hsealed.key_eq hcom h']
  exact if_congr hsame rfl rfl

end Separate

/-- Every key of the core, and the SAS, is expanded under the info string of its purpose. -/
structure ExpandsByPurpose (s : Suite) : Prop where
  entry : ∀ (vaultKey : VaultKey) (entryId : Bytes) (key : Key),
    entrySubkey s vaultKey entryId = .ok key ↔
      s.hkdf.expand vaultKey.bytes.toList (Purpose.entry entryId).info keyLen = some key
  recovery : ∀ (entropy : Bytes) (key : Key), recoveryKey s entropy = .ok key ↔
    s.hkdf.expand entropy Purpose.recovery.info keyLen = some key
  serverBlob : ∀ (exportKey : Bytes) (key : Key), blobKey s exportKey = .ok key ↔
    s.hkdf.expand exportKey Purpose.serverBlob.info keyLen = some key
  pairing : ∀ (shared : Bytes) (pkNew pkSrc devicePk key : Key) (sas : String),
    derive s shared pkNew.toList pkSrc.toList devicePk.toList = .ok (key, sas) ↔
      s.hkdf.expand shared (Purpose.pairingAead pkNew pkSrc devicePk).info keyLen = some key ∧
      (s.hkdf.expand shared (Purpose.pairingSas pkNew pkSrc devicePk).info 4).map formatSas =
        some sas

theorem expandsByPurpose (s : Suite) : ExpandsByPurpose s where
  entry _ _ _ := entrySubkey_eq_ok
  recovery _ _ := recoveryKey_eq_ok
  serverBlob _ _ := blobKey_eq_ok
  pairing _ _ _ _ _ _ := derive_keys_eq_ok

/-- What separates the keys of a suite, over the derivations in `made`: each key is expanded
under the info string of its purpose, info strings are never shared, an entry that is not too
long for the AEAD encrypts, and decrypts under its own vault key and identifier and no other,
and no envelope opens under the key of any other derivation, through its own path or another. -/
structure KeysSeparate (s : Suite) (made : Set Derivation) : Prop where
  expands : ExpandsByPurpose s
  infos : Function.Injective Purpose.info
  encrypts : ∀ (nonce : List.Vector UInt8 xnonceLen) (vaultKey : VaultKey) (entryId m : Bytes),
    m.length ≤ s.aead.maxLen → ∃ c, encryptEntry s (.ok nonce) vaultKey entryId m = .ok c
  entry : ∀ draw vaultKey vaultKey' entryId entryId' m c,
    encryptEntry s draw vaultKey entryId m = .ok c →
    (vaultKey.bytes.toList, (Purpose.entry entryId).info) ∈ made →
    (vaultKey'.bytes.toList, (Purpose.entry entryId').info) ∈ made →
    decryptEntry s vaultKey' entryId' c =
      if vaultKey' = vaultKey ∧ entryId' = entryId then .ok m
      else .error (.crypto "authentification échouée")
  paths : ∀ ikm ikm' p p' c, SealedThrough s ikm p c → OpensThrough s ikm' p' c →
    (ikm, p.info) ∈ made → (ikm', p'.info) ∈ made → ikm' = ikm ∧ p' = p

/-- **Keys of different purposes or parameters never coincide.** -/
theorem keysSeparate (s : Suite) (hopens : s.aead.Opens) (hauth : s.aead.Authentic)
    (hcom : s.aead.Committing) (made : Set Derivation) (hkeys : s.hkdf.KeysDistinct made) :
    KeysSeparate s made where
  expands := expandsByPurpose s
  infos := Purpose.info_injective
  encrypts nonce vaultKey entryId _ h := exists_encryptEntry s nonce vaultKey entryId h
  entry _ _ _ _ _ _ _ h hmade hmade' :=
    decryptEntry_encryptEntry hkeys hopens hauth hcom h hmade hmade'
  paths _ _ _ _ _ h h' hmade hmade' := h.eq_of_opens hkeys hauth hcom h' hmade hmade'

/-- One input key for every purpose, and two other entries. -/
def reused : List Derivation :=
  let k : Key := .replicate 32 7
  [(k.toList, (Purpose.entry [1]).info), (k.toList, (Purpose.entry [1, 2]).info),
    (List.replicate 32 8, (Purpose.entry [1]).info), (k.toList, Purpose.recovery.info),
    (k.toList, Purpose.serverBlob.info), (k.toList, (Purpose.pairingAead k k k).info)]

theorem keysSeparate_reused : KeysSeparate .transparent {q | q ∈ reused} := by
  have h : ∀ q ∈ reused, ∀ q' ∈ reused, Suite.transparent.hkdf.expand q.1 q.2 keyLen =
      Suite.transparent.hkdf.expand q'.1 q'.2 keyLen → q = q' := by decide +kernel
  exact keysSeparate .transparent Suite.transparent_opens Suite.transparent_authentic
    Suite.transparent_committing _ fun q hq q' hq' heq => h q hq q' hq' heq

end RealmGuard
