import RealmGuard.Crypto.Envelopes
import RealmGuard.Crypto.Pairing
import RealmGuard.Lib.PostcardBounds
import RealmGuard.SyncFormat

/-!
# Sizes of messages

Every message of the core breaks off cleanly: cut short anywhere, it is refused for want of
data before any key is derived from it (`cut_short`). And decoding amplifies nothing:
whatever bytes a peer sends, what they decode to takes no more bytes, and is what its own
encoding decodes to (`reencoded`).
-/

namespace RealmGuard

open Lib Lib.Postcard

/-! ## Measured types -/

instance : Measured DeviceId := .ofEquiv _

instance : Measured EntryId := .ofEquiv _

instance : Measured FieldId := .ofEquiv _

instance : Measured Dot := .ofEquiv _

instance : Measured DotContext := .ofEquiv _

instance {E : Type} [LinearOrder E] [Wire E] [Measured E] : Measured (AddWinsSet E) := .ofEquiv _

instance : Measured Hlc := .ofEquiv _

instance : Measured Timestamp := .ofEquiv _

instance {T : Type} [Wire T] [Measured T] : Measured (LwwRegister T) := .ofEquiv _

instance {V : Type} [LinearOrder V] [Wire V] [Measured V] : Measured (VaultDoc V) := .ofEquiv _

instance : NeZero xnonceLen := ⟨by decide⟩

instance : NeZero keyLen := ⟨by decide⟩

instance : NeZero pairingIdLen := ⟨by decide⟩

instance : NeZero accountIdLen := ⟨by decide⟩

instance : Measured Ciphertext := .ofEquiv _

instance : Measured PairingRequest := .ofEquiv _

instance : Measured PairingState := .ofEquiv _

instance : Measured PairingHello := .ofEquiv _

instance : Measured PairingSessionState := .ofEquiv _

instance : Measured PairingPayload := .ofEquiv _

/-! ## The codec -/

/-- The error of input that breaks off. -/
def truncated : Error := .serialization "Hit the end of buffer, expected more data"

namespace Codec

variable {α : Type} [Wire α] [Measured α] {a : α} {bytes : List UInt8}

theorem decode_take {k : ℕ} (h : Fits a) (hk : k < (Wire.encode a).length) :
    (decode ((Wire.encode a).take k) : Except Error α) = .error truncated := by
  unfold decode
  rw [Measured.starves a h k hk]
  rfl

theorem length_encode_le (h : decode bytes = .ok a) : (Wire.encode a).length ≤ bytes.length := by
  obtain ⟨rest, hread⟩ := decode_eq_ok.mp h
  exact (Nat.le_add_right _ _).trans (Measured.thrift hread)

/-- What was decoded from input in memory fits in memory. -/
theorem fits_of_decode (h : decode bytes = .ok a) (hlen : bytes.length < 2 ^ 64) : Fits a :=
  Measured.fits a ((length_encode_le h).trans_lt hlen)

end Codec

/-- Decoding amplifies nothing and forgets nothing it has read: what bytes decode to takes no
more bytes, and its own encoding decodes to it. -/
def Reencoded (α : Type) [Wire α] : Prop :=
  ∀ (bytes : Bytes) (a : α), bytes.length < 2 ^ 64 → Codec.decode bytes = .ok a →
    ∃ bytes', Codec.encode a = .ok bytes' ∧ bytes'.length ≤ bytes.length ∧
      Codec.decode bytes' = .ok a

theorem reencoded_of_measured {α : Type} [Wire α] [Measured α] : Reencoded α :=
  fun _ _ hlen h => ⟨_, rfl, Codec.length_encode_le h,
    Codec.decode_encoding (Codec.fits_of_decode h hlen)⟩

/-- **Whatever was accepted re-encodes without loss, to no more bytes**: documents and deltas,
however hostile, and every message and state of a pairing. -/
theorem reencoded : Reencoded (VaultDoc Ciphertext) ∧ Reencoded Ciphertext ∧
    Reencoded PairingRequest ∧ Reencoded PairingState ∧ Reencoded PairingHello ∧
    Reencoded PairingSessionState ∧ Reencoded PairingPayload :=
  ⟨reencoded_of_measured, reencoded_of_measured, reencoded_of_measured, reencoded_of_measured,
    reencoded_of_measured, reencoded_of_measured, reencoded_of_measured⟩

/-! ## Messages cut short -/

/-- Every proper prefix of a message is refused as truncated. -/
structure CutShort (s : Suite) : Prop where
  document : ∀ (d : VaultDoc Ciphertext) (bytes : Bytes) (k : ℕ), Codec.encode d = .ok bytes →
    bytes.length < 2 ^ 64 → k < bytes.length →
    (Codec.decode (bytes.take k) : Except Error (VaultDoc Ciphertext)) = .error truncated
  entry : ∀ (draw : Draw xnonceLen) (vaultKey entryId plaintext bytes : Bytes) (k : ℕ),
    encryptEntryBytes s draw vaultKey entryId plaintext = .ok bytes → k < bytes.length →
    ∀ entryId', decryptEntryBytes s vaultKey entryId' (bytes.take k) = .error truncated
  qr : ∀ (secret : Draw keyLen) (pairingId : Draw pairingIdLen) (device : Bytes)
    (start : PairingStart) (k : ℕ), pairingStart s secret pairingId device = .ok start →
    k < start.qr.length →
    ∀ draw, pairingSourceBegin s draw (start.qr.take k) = .error truncated
  state : ∀ (secret : Draw keyLen) (pairingId : Draw pairingIdLen) (device : Bytes)
    (start : PairingStart) (k : ℕ), pairingStart s secret pairingId device = .ok start →
    k < start.state.length →
    ∀ hello, pairingNewDeviceConfirm s (start.state.take k) hello = .error truncated
  hello : ∀ (draw : Draw keyLen) (qr : Bytes) (begun : PairingSourceBegin) (k : ℕ),
    pairingSourceBegin s draw qr = .ok begun → k < begun.hello.length →
    ∀ (state : Bytes) (t : PairingState), Codec.decode state = .ok t →
      pairingNewDeviceConfirm s state (begun.hello.take k) = .error truncated
  sourceSession : ∀ (draw : Draw keyLen) (qr : Bytes) (begun : PairingSourceBegin) (k : ℕ),
    pairingSourceBegin s draw qr = .ok begun → k < begun.state.length →
    ∀ (nonce : Draw xnonceLen) (account : List.Vector UInt8 accountIdLen) (vaultKey : Bytes),
      pairingSourceSeal s nonce (begun.state.take k) account.toList vaultKey = .error truncated
  session : ∀ (state hello : Bytes) (confirmed : PairingConfirm) (k : ℕ),
    pairingNewDeviceConfirm s state hello = .ok confirmed → k < confirmed.state.length →
    ∀ sealed, pairingOpen s (confirmed.state.take k) sealed = .error truncated
  sealed : ∀ (draw : Draw xnonceLen) (state account vaultKey bytes : Bytes) (k : ℕ),
    pairingSourceSeal s draw state account vaultKey = .ok bytes → k < bytes.length →
    ∀ (state' : Bytes) (t : PairingSessionState), Codec.decode state' = .ok t →
      pairingOpen s state' (bytes.take k) = .error truncated

/-- **A message that breaks off is refused for want of data**, wherever it was cut. -/
theorem cut_short (s : Suite) : CutShort s where
  document d bytes k henc hlen hk := by
    obtain rfl := Except.ok.inj henc
    exact Codec.decode_take (Measured.fits d hlen) hk
  entry draw vaultKey entryId plaintext bytes k h hk entryId' := by
    simp only [encryptEntryBytes, encryptEntry, bind_eq_ok, Codec.encode] at h
    obtain ⟨key, hkey, c, ⟨subkey, -, hc⟩, henc⟩ := h
    obtain rfl := Except.ok.inj henc
    have hcut := Codec.decode_take (Aead.sealed_of_seal hc).fits hk
    simp only [decryptEntryBytes, hkey, hcut, Except.bind, bind]
  qr secret pairingId device start k h hk draw := by
    obtain ⟨devicePk, secret, pairingId, -, -, -, rfl⟩ := pairingStart_eq_ok.mp h
    have hcut := Codec.decode_take (PairingRequest.fits _) hk
    simp only [pairingSourceBegin, hcut, Except.bind, bind]
  state secret pairingId device start k h hk hello := by
    obtain ⟨devicePk, secret, pairingId, -, -, -, rfl⟩ := pairingStart_eq_ok.mp h
    have hcut := Codec.decode_take (PairingState.fits _) hk
    simp only [pairingNewDeviceConfirm, hcut, Except.bind, bind]
  hello draw qr begun k h hk state t ht := by
    obtain ⟨request, secret, key, sas, -, -, -, rfl⟩ := pairingSourceBegin_eq_ok.mp h
    have hcut := Codec.decode_take (PairingHello.fits _) hk
    simp only [pairingNewDeviceConfirm, ht, hcut, Except.bind, bind]
  sourceSession draw qr begun k h hk nonce account vaultKey := by
    obtain ⟨request, secret, key, sas, -, -, -, rfl⟩ := pairingSourceBegin_eq_ok.mp h
    have haccount : toArray accountIdLen account.toList "account_id" = .ok account :=
      toArray_eq_ok.mpr rfl
    have hcut := Codec.decode_take (PairingSessionState.fits _) hk
    simp only [pairingSourceSeal, haccount, hcut, Except.bind, bind]
  session state hello confirmed k h hk sealed := by
    obtain ⟨t, h, key, sas, -, -, -, rfl⟩ := pairingNewDeviceConfirm_eq_ok.mp h
    have hcut := Codec.decode_take (PairingSessionState.fits _) hk
    simp only [pairingOpen, hcut, Except.bind, bind]
  sealed draw state account vaultKey bytes k h hk state' t ht := by
    obtain ⟨account, session, c, -, -, hseal, rfl⟩ := pairingSourceSeal_eq_ok.mp h
    have hcut := Codec.decode_take (Aead.sealed_of_seal hseal).fits hk
    simp only [pairingOpen, ht, hcut, Except.bind, bind]

end RealmGuard
