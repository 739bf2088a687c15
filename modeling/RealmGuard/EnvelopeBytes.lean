import RealmGuard.Crypto.Purpose

/-!
# Encoded envelopes

Envelopes travel encoded, and are decoded before they are authenticated. Decoding
ignores what follows the envelope and takes a length in more bytes than it needs, so
that an altered encoding of an envelope opens like the envelope
(`decryptEntryBytes_append`). `exact_iff` says which bytes are opened although no call
made them: those longer than the encoding of the sealed envelope they start with.
-/

namespace RealmGuard

open Lib.Postcard (Wire)

variable {s : Suite}

/-! ## Entries -/

section Entry

variable {vaultKey entryId bytes m : Bytes}

/-- What `bytes` decrypts to was encrypted into these very bytes. -/
def EntryExact (s : Suite) (vaultKey entryId bytes : Bytes) : Prop :=
  ∀ m, decryptEntryBytes s vaultKey entryId bytes = .ok m →
    ∃ draw, encryptEntryBytes s draw vaultKey entryId m = .ok bytes

/-- If `bytes` starts with an envelope made for this key and entry, it is no longer than the
encoding of that envelope: nothing follows it, and its length is a shortest varint. -/
def EntryPlain (s : Suite) (vaultKey entryId bytes : Bytes) : Prop :=
  ∀ key c draw m, VaultKey.fromSlice vaultKey = .ok key → Codec.decode bytes = .ok c →
    encryptEntry s draw key entryId m = .ok c → bytes.length ≤ (Wire.encode c).length

theorem encryptEntryBytes_eq_ok {draw : Draw xnonceLen} :
    encryptEntryBytes s draw vaultKey entryId m = .ok bytes ↔ ∃ key c,
      VaultKey.fromSlice vaultKey = .ok key ∧ encryptEntry s draw key entryId m = .ok c ∧
        Wire.encode c = bytes := by
  unfold encryptEntryBytes
  simp [Codec.encode]

theorem decryptEntryBytes_eq_ok :
    decryptEntryBytes s vaultKey entryId bytes = .ok m ↔ ∃ key c,
      VaultKey.fromSlice vaultKey = .ok key ∧ Codec.decode bytes = .ok c ∧
        decryptEntry s key entryId c = .ok m := by
  unfold decryptEntryBytes
  simp

theorem decryptEntry_of_encryptEntry (hopens : s.aead.Opens) {draw : Draw xnonceLen}
    {key : VaultKey} {c : Ciphertext} (h : encryptEntry s draw key entryId m = .ok c) :
    decryptEntry s key entryId c = .ok m := by
  obtain ⟨subkey, hkey, hseal⟩ := encryptEntry_eq_ok.mp h
  exact decryptEntry_eq_ok.mpr ⟨subkey, hkey,
    Aead.open_of_sealed hopens (Aead.sealed_of_seal hseal)⟩

theorem encryptEntry_of_decryptEntry (hauth : s.aead.Authentic) {key : VaultKey} {c : Ciphertext}
    (h : decryptEntry s key entryId c = .ok m) :
    encryptEntry s (.ok c.nonce) key entryId m = .ok c := by
  obtain ⟨subkey, hkey, hopen⟩ := decryptEntry_eq_ok.mp h
  exact encryptEntry_eq_ok.mpr ⟨subkey, hkey, Aead.sealed_of_open hauth hopen⟩

/-- An encrypted entry decodes, whatever follows its encoding. -/
theorem decode_encryptEntry {draw : Draw xnonceLen} {key : VaultKey} {c : Ciphertext}
    (h : encryptEntry s draw key entryId m = .ok c) (rest : Bytes) :
    Codec.decode (Wire.encode c ++ rest) = .ok c := by
  obtain ⟨subkey, -, hseal⟩ := encryptEntry_eq_ok.mp h
  exact Codec.decode_append (Aead.sealed_of_seal hseal).fits rest

/-- Bytes appended to an encrypted entry are ignored. -/
theorem decryptEntryBytes_append (hopens : s.aead.Opens) {draw : Draw xnonceLen}
    (h : encryptEntryBytes s draw vaultKey entryId m = .ok bytes) (rest : Bytes) :
    decryptEntryBytes s vaultKey entryId (bytes ++ rest) = .ok m := by
  obtain ⟨key, c, hkey, henc, rfl⟩ := encryptEntryBytes_eq_ok.mp h
  exact decryptEntryBytes_eq_ok.mpr ⟨key, c, hkey, decode_encryptEntry henc rest,
    decryptEntry_of_encryptEntry hopens henc⟩

theorem EntryExact.plain (hopens : s.aead.Opens) (h : EntryExact s vaultKey entryId bytes) :
    EntryPlain s vaultKey entryId bytes := by
  intro key c draw m hkey hdec henc
  obtain ⟨draw', hmade⟩ := h m
    (decryptEntryBytes_eq_ok.mpr ⟨key, c, hkey, hdec, decryptEntry_of_encryptEntry hopens henc⟩)
  obtain ⟨key', c', -, henc', rfl⟩ := encryptEntryBytes_eq_ok.mp hmade
  have hdec' := decode_encryptEntry henc' []
  rw [List.append_nil] at hdec'
  obtain rfl := Except.ok.inj (hdec'.symm.trans hdec)
  exact le_rfl

theorem EntryPlain.exact (hauth : s.aead.Authentic) (h : EntryPlain s vaultKey entryId bytes) :
    EntryExact s vaultKey entryId bytes := by
  intro m hm
  obtain ⟨key, c, hkey, hdec, hdecrypt⟩ := decryptEntryBytes_eq_ok.mp hm
  have henc := encryptEntry_of_decryptEntry hauth hdecrypt
  have hbytes := Codec.eq_encoding hdec (h key c _ m hkey hdec henc)
  exact ⟨_, encryptEntryBytes_eq_ok.mpr ⟨key, c, hkey, henc, hbytes.symm⟩⟩

end Entry

/-! ## Pairing blobs -/

section Pairing

variable {state bytes : Bytes}

/-- A blob that opens was sealed into these very bytes, under the key of the state. -/
def PairingExact (s : Suite) (state bytes : Bytes) : Prop :=
  ∀ r, pairingOpen s state bytes = .ok r → ∃ draw accountId vaultKey,
    pairingSourceSeal s draw state accountId vaultKey = .ok bytes

/-- If `bytes` starts with an envelope sealed under the key of the state, from bytes that start
with a payload, neither is longer than the encoding of what it starts with. -/
def PairingPlain (s : Suite) (state bytes : Bytes) : Prop :=
  ∀ (session : PairingSessionState) (c : Ciphertext) (plaintext : Bytes)
    (payload : PairingPayload), Codec.decode state = .ok session → Codec.decode bytes = .ok c →
    s.aead.Sealed session.aeadKey plaintext c → Codec.decode plaintext = .ok payload →
      bytes.length ≤ (Wire.encode c).length ∧
        plaintext.length ≤ (Wire.encode payload).length

/-- A payload that was sealed decodes from its encoding. -/
theorem decode_sealedPayload {key : Key} {payload : PairingPayload} {c : Ciphertext}
    (h : s.aead.Sealed key (Wire.encode payload) c) :
    Codec.decode (Wire.encode payload) = .ok payload := by
  have hle := payload.length_encode
  have hlt := h.length_lt.1
  apply Codec.decode_encoding
  apply PairingPayload.fits
  omega

theorem PairingExact.plain (hopens : s.aead.Opens) (h : PairingExact s state bytes) :
    PairingPlain s state bytes := by
  intro session c plaintext payload hsession hdec hsealed hpayload
  have hopen := Aead.open_of_sealed hopens hsealed
  obtain ⟨draw, accountId, vaultKey, hmade⟩ := h _
    (pairingOpen_eq_ok.mpr ⟨session, c, plaintext, payload, hsession, hdec, hopen, hpayload, rfl⟩)
  obtain ⟨account, session', c', -, hsession', hseal, rfl⟩ := pairingSourceSeal_eq_ok.mp hmade
  obtain rfl := Except.ok.inj (hsession'.symm.trans hsession)
  have hsealed' := Aead.sealed_of_seal hseal
  obtain rfl := Codec.eq_of_decode hsealed'.fits hdec
  -- the envelope opens to one plaintext, the encoding of a payload
  obtain rfl := Except.ok.inj ((Aead.open_of_sealed hopens hsealed').symm.trans hopen)
  obtain rfl := Except.ok.inj ((decode_sealedPayload hsealed').symm.trans hpayload)
  exact ⟨le_rfl, le_rfl⟩

theorem PairingPlain.exact (hauth : s.aead.Authentic) (h : PairingPlain s state bytes) :
    PairingExact s state bytes := by
  intro r hr
  obtain ⟨session, c, plaintext, payload, hsession, hdec, hopen, hpayload, -⟩ :=
    pairingOpen_eq_ok.mp hr
  have hsealed := Aead.sealed_of_open hauth hopen
  obtain ⟨hlen, hlen'⟩ := h session c plaintext payload hsession hdec hsealed hpayload
  obtain rfl := Codec.eq_encoding hpayload hlen'
  exact ⟨.ok c.nonce, payload.accountId.toList, payload.vaultKey,
    pairingSourceSeal_eq_ok.mpr ⟨payload.accountId, session, c, rfl, hsession, hsealed,
      (Codec.eq_encoding hdec hlen).symm⟩⟩

end Pairing

/-- Not every altered encoding of an envelope is rejected: one byte more, and the entry still
opens. -/
theorem not_exact : ¬ ∀ s : Suite, s.aead.Opens → s.aead.Authentic →
    (∀ vaultKey entryId bytes, EntryExact s vaultKey entryId bytes) ∧
      ∀ state bytes, PairingExact s state bytes := by
  intro h
  obtain ⟨hentry, -⟩ := h .transparent Suite.transparent_opens Suite.transparent_authentic
  obtain ⟨c, henc⟩ := exists_encryptEntry .transparent (.replicate 24 2) ⟨.replicate 32 7⟩ [1]
    (show List.length [42] ≤ 1000 by decide)
  have hmade : encryptEntryBytes .transparent (.ok (.replicate 24 2)) (.replicate 32 7) [1] [42] =
      .ok (Wire.encode c) := encryptEntryBytes_eq_ok.mpr ⟨_, c, rfl, henc, rfl⟩
  obtain ⟨draw, hmade'⟩ := hentry (.replicate 32 7) [1] (Wire.encode c ++ [0]) [42]
    (decryptEntryBytes_append Suite.transparent_opens hmade [0])
  -- the longer bytes would be the encoding of the envelope they start with
  obtain ⟨key, c', -, henc', hbytes⟩ := encryptEntryBytes_eq_ok.mp hmade'
  have hdec := decode_encryptEntry henc' []
  rw [List.append_nil, hbytes, decode_encryptEntry henc [0]] at hdec
  obtain rfl := Except.ok.inj hdec
  have hlen := congrArg List.length hbytes
  rw [List.length_append, List.length_singleton] at hlen
  omega

/-- **Which altered encodings are opened**: an envelope is rejected unless a call made these very
bytes if and only if its bytes are no longer than the encoding of what they start with. -/
theorem exact_iff (s : Suite) (hopens : s.aead.Opens) (hauth : s.aead.Authentic) :
    (∀ vaultKey entryId bytes,
      EntryExact s vaultKey entryId bytes ↔ EntryPlain s vaultKey entryId bytes) ∧
    ∀ state bytes, PairingExact s state bytes ↔ PairingPlain s state bytes :=
  ⟨fun _ _ _ => ⟨fun h => h.plain hopens, fun h => h.exact hauth⟩,
    fun _ _ => ⟨fun h => h.plain hopens, fun h => h.exact hauth⟩⟩

theorem exact_iff_transparent :
    (∀ vaultKey entryId bytes,
      EntryExact .transparent vaultKey entryId bytes ↔
        EntryPlain .transparent vaultKey entryId bytes) ∧
    ∀ state bytes, PairingExact .transparent state bytes ↔ PairingPlain .transparent state bytes :=
  exact_iff .transparent Suite.transparent_opens Suite.transparent_authentic

end RealmGuard
