import RealmGuard.Crypto.Aead

/-!
# Pairing a device

The two-round transfer of a vault key from a source to a new device
(`crypto/pairing.rs`). Messages and states are byte strings, encoded and decoded by the
codec; one lemma for each of the five calls says when it returns and what
(`pairingStart_eq_ok` to `pairingOpen_eq_ok`).
-/

namespace RealmGuard

open Lib.Postcard (Wire Fits Tight)

def pairingIdLen : ℕ := 16

def accountIdLen : ℕ := 16

def aeadInfo : Bytes := label "realm-guard-core/v1/pairing-aead"

def sasInfo : Bytes := label "realm-guard-core/v1/pairing-sas"

/-! ## Messages and states -/

/-- What the new device shows as a QR code. -/
structure PairingRequest where
  pairingId : List.Vector UInt8 pairingIdLen
  publicKey : Key
  devicePublicKey : Key

/-- What the new device keeps until the first round. -/
structure PairingState where
  secret : Key
  pairingId : List.Vector UInt8 pairingIdLen
  devicePublicKey : Key

/-- First round: the ephemeral public key of the source. -/
structure PairingHello where
  sourcePublic : Key

/-- What either side keeps between the rounds. -/
structure PairingSessionState where
  aeadKey : Key

/-- What is sealed in the second round. -/
structure PairingPayload where
  accountId : List.Vector UInt8 accountIdLen
  vaultKey : Bytes

instance : Wire PairingRequest :=
  .ofEquiv ⟨fun r => (r.pairingId, r.publicKey, r.devicePublicKey),
    fun q => ⟨q.1, q.2.1, q.2.2⟩, fun _ => rfl, fun _ => rfl⟩

instance : Wire PairingState :=
  .ofEquiv ⟨fun t => (t.secret, t.pairingId, t.devicePublicKey),
    fun q => ⟨q.1, q.2.1, q.2.2⟩, fun _ => rfl, fun _ => rfl⟩

instance : Wire PairingHello :=
  .ofEquiv ⟨PairingHello.sourcePublic, PairingHello.mk, fun _ => rfl, fun _ => rfl⟩

instance : Wire PairingSessionState :=
  .ofEquiv ⟨PairingSessionState.aeadKey, PairingSessionState.mk, fun _ => rfl, fun _ => rfl⟩

def PairingPayload.fields : PairingPayload ≃ List.Vector UInt8 accountIdLen × Bytes where
  toFun q := (q.accountId, q.vaultKey)
  invFun q := ⟨q.1, q.2⟩

instance : Wire PairingPayload := .ofEquiv PairingPayload.fields

instance : Tight PairingPayload := .ofEquiv PairingPayload.fields

theorem fits_vector {k : ℕ} (v : List.Vector UInt8 k) : Fits v := fun _ _ => trivial

theorem PairingRequest.fits (r : PairingRequest) : Fits r :=
  ⟨fits_vector _, fits_vector _, fits_vector _⟩

theorem PairingState.fits (t : PairingState) : Fits t :=
  ⟨fits_vector _, fits_vector _, fits_vector _⟩

theorem PairingHello.fits (h : PairingHello) : Fits h := fits_vector h.sourcePublic

theorem PairingSessionState.fits (t : PairingSessionState) : Fits t := fits_vector t.aeadKey

theorem PairingPayload.fits {q : PairingPayload} (h : q.vaultKey.length < 2 ^ 64) : Fits q :=
  ⟨fits_vector _, h, fun _ _ => trivial⟩

theorem PairingPayload.length_encode (q : PairingPayload) :
    q.vaultKey.length ≤ (Wire.encode q).length := by
  have hbytes : ∀ l : Bytes, (l.flatMap fun b => [b]) = l := List.flatMap_singleton'
  show _ ≤ (_ ++ (_ ++ q.vaultKey.flatMap fun b => [b])).length
  rw [hbytes, List.length_append, List.length_append]
  omega

structure PairingStart where
  state : Bytes
  qr : Bytes

structure PairingSourceBegin where
  state : Bytes
  hello : Bytes
  sas : String
  devicePublicKey : Bytes

structure PairingConfirm where
  state : Bytes
  sas : String

structure PairingOpenResult where
  vaultKey : Bytes
  accountId : Bytes
deriving DecidableEq

/-! ## The calls -/

/-- A slice as an array, its length checked. -/
def toArray (n : ℕ) (bytes : Bytes) (what : String) : Except Error (List.Vector UInt8 n) :=
  orCrypto s!"longueur {what} invalide (attendu {n} octets)" (tryInto n bytes)

/-- Six digits. -/
def formatSas (bytes : List.Vector UInt8 4) : String :=
  let value := bytes.toList.foldl (fun acc b => 256 * acc + b.toNat) 0 % 1000000
  .ofList ((Nat.toDigits 10 value).leftpad 6 '0')

example : formatSas ⟨[0, 1, 0, 42], rfl⟩ = "065578" := by decide

/-- `pk_new ‖ pk_src ‖ device_pk`. -/
def transcript (pkNew pkSrc devicePk : Bytes) : Bytes := pkNew ++ (pkSrc ++ devicePk)

/-- The AEAD key and the SAS, from the shared secret and the transcript. -/
def derive (s : Suite) (shared pkNew pkSrc devicePk : Bytes) : Except Error (Key × String) := do
  let aeadKey ← orCrypto "dérivation HKDF (pairing AEAD) échouée"
    (s.hkdf.expand shared (aeadInfo ++ transcript pkNew pkSrc devicePk) keyLen)
  let sasBytes ← orCrypto "dérivation HKDF (pairing SAS) échouée"
    (s.hkdf.expand shared (sasInfo ++ transcript pkNew pkSrc devicePk) 4)
  pure (aeadKey, formatSas sasBytes)

/-- The new device starts. -/
def pairingStart (s : Suite) (secretDraw : Draw keyLen) (idDraw : Draw pairingIdLen)
    (devicePublicKey : Bytes) : Except Error PairingStart := do
  let devicePk ← toArray keyLen devicePublicKey "device_public_key"
  let secret ← getrandom secretDraw
  let pairingId ← getrandom idDraw
  let request : PairingRequest := ⟨pairingId, s.x25519.publicKey secret, devicePk⟩
  let state : PairingState := ⟨secret, pairingId, devicePk⟩
  let qr ← Codec.encode request
  let encodedState ← Codec.encode state
  pure ⟨encodedState, qr⟩

/-- First round, source: it publishes its public key alone. -/
def pairingSourceBegin (s : Suite) (draw : Draw keyLen) (qr : Bytes) :
    Except Error PairingSourceBegin := do
  let request : PairingRequest ← Codec.decode qr
  let secret ← getrandom draw
  let sourcePublic := s.x25519.publicKey secret
  let shared := s.x25519.diffieHellman secret request.publicKey
  let (aeadKey, sas) ← derive s shared.toList request.publicKey.toList sourcePublic.toList
    request.devicePublicKey.toList
  let encodedState ← Codec.encode (PairingSessionState.mk aeadKey)
  let hello ← Codec.encode (PairingHello.mk sourcePublic)
  pure ⟨encodedState, hello, sas, request.devicePublicKey.toList⟩

/-- First round, new device. -/
def pairingNewDeviceConfirm (s : Suite) (state hello : Bytes) : Except Error PairingConfirm := do
  let state : PairingState ← Codec.decode state
  let hello : PairingHello ← Codec.decode hello
  let ourPublic := s.x25519.publicKey state.secret
  let shared := s.x25519.diffieHellman state.secret hello.sourcePublic
  let (aeadKey, sas) ← derive s shared.toList ourPublic.toList hello.sourcePublic.toList
    state.devicePublicKey.toList
  let encoded ← Codec.encode (PairingSessionState.mk aeadKey)
  pure ⟨encoded, sas⟩

/-- Second round, source. -/
def pairingSourceSeal (s : Suite) (draw : Draw xnonceLen) (state accountId vaultKey : Bytes) :
    Except Error Bytes := do
  let account ← toArray accountIdLen accountId "account_id"
  let session : PairingSessionState ← Codec.decode state
  let plaintext ← Codec.encode (PairingPayload.mk account vaultKey)
  let ciphertext ← s.aead.seal draw session.aeadKey plaintext
  Codec.encode ciphertext

/-- Second round, new device. -/
def pairingOpen (s : Suite) (state sealed : Bytes) : Except Error PairingOpenResult := do
  let session : PairingSessionState ← Codec.decode state
  let ciphertext : Ciphertext ← Codec.decode sealed
  let plaintext ← s.aead.open session.aeadKey ciphertext
  let payload : PairingPayload ← Codec.decode plaintext
  pure ⟨payload.vaultKey, payload.accountId.toList⟩

/-! ## What they return -/

variable {s : Suite}

@[simp] theorem toArray_eq_ok {n : ℕ} {bytes : Bytes} {what : String} {v : List.Vector UInt8 n} :
    toArray n bytes what = .ok v ↔ bytes = v.toList := by
  unfold toArray
  rw [orCrypto_eq_ok, tryInto_eq_some]

theorem derive_eq_ok {shared pkNew pkSrc devicePk : Bytes} {key : Key} {sas : String} :
    derive s shared pkNew pkSrc devicePk = .ok (key, sas) ↔
      s.hkdf.expand shared (aeadInfo ++ transcript pkNew pkSrc devicePk) keyLen = some key ∧
      (s.hkdf.expand shared (sasInfo ++ transcript pkNew pkSrc devicePk) 4).map formatSas =
        some sas := by
  unfold derive
  simp

theorem pairingStart_eq_ok {secretDraw : Draw keyLen} {idDraw : Draw pairingIdLen}
    {devicePublicKey : Bytes} {r : PairingStart} :
    pairingStart s secretDraw idDraw devicePublicKey = .ok r ↔
      ∃ devicePk secret pairingId, devicePublicKey = devicePk.toList ∧ secretDraw = .ok secret ∧
        idDraw = .ok pairingId ∧
        ⟨Wire.encode (PairingState.mk secret pairingId devicePk),
          Wire.encode (PairingRequest.mk pairingId (s.x25519.publicKey secret) devicePk)⟩ = r := by
  unfold pairingStart
  simp [Codec.encode]

theorem pairingSourceBegin_eq_ok {draw : Draw keyLen} {qr : Bytes} {r : PairingSourceBegin} :
    pairingSourceBegin s draw qr = .ok r ↔
      ∃ (request : PairingRequest) (secret key : Key) (sas : String),
        Codec.decode qr = .ok request ∧ draw = .ok secret ∧
        derive s (s.x25519.diffieHellman secret request.publicKey).toList
          request.publicKey.toList (s.x25519.publicKey secret).toList
          request.devicePublicKey.toList = .ok (key, sas) ∧
        ⟨Wire.encode (PairingSessionState.mk key),
          Wire.encode (PairingHello.mk (s.x25519.publicKey secret)), sas,
          request.devicePublicKey.toList⟩ = r := by
  unfold pairingSourceBegin
  simp [Codec.encode]

theorem pairingNewDeviceConfirm_eq_ok {state hello : Bytes} {r : PairingConfirm} :
    pairingNewDeviceConfirm s state hello = .ok r ↔
      ∃ (t : PairingState) (h : PairingHello) (key : Key) (sas : String),
        Codec.decode state = .ok t ∧ Codec.decode hello = .ok h ∧
        derive s (s.x25519.diffieHellman t.secret h.sourcePublic).toList
          (s.x25519.publicKey t.secret).toList h.sourcePublic.toList
          t.devicePublicKey.toList = .ok (key, sas) ∧
        ⟨Wire.encode (PairingSessionState.mk key), sas⟩ = r := by
  unfold pairingNewDeviceConfirm
  simp [Codec.encode]

theorem pairingSourceSeal_eq_ok {draw : Draw xnonceLen} {state accountId vaultKey r : Bytes} :
    pairingSourceSeal s draw state accountId vaultKey = .ok r ↔
      ∃ (account : List.Vector UInt8 accountIdLen) (session : PairingSessionState)
        (c : Ciphertext), accountId = account.toList ∧ Codec.decode state = .ok session ∧
        s.aead.seal draw session.aeadKey (Wire.encode (PairingPayload.mk account vaultKey)) =
          .ok c ∧
        Wire.encode c = r := by
  unfold pairingSourceSeal
  simp [Codec.encode]

theorem pairingOpen_eq_ok {state sealed : Bytes} {r : PairingOpenResult} :
    pairingOpen s state sealed = .ok r ↔
      ∃ (session : PairingSessionState) (c : Ciphertext) (plaintext : Bytes)
        (payload : PairingPayload), Codec.decode state = .ok session ∧
        Codec.decode sealed = .ok c ∧ s.aead.open session.aeadKey c = .ok plaintext ∧
        Codec.decode plaintext = .ok payload ∧
        ⟨payload.vaultKey, payload.accountId.toList⟩ = r := by
  unfold pairingOpen
  simp

end RealmGuard
