import RealmGuard.Crypto.Suite

/-!
# The identity key of a device

Ed25519 key pairs (`crypto/device_key.rs`): a device keeps the seed, publishes the
public key and signs challenges. Verification answers `false` to whatever is malformed,
so that `deviceVerify_eq_true` says when a signature is accepted, and for which bytes.
-/

namespace RealmGuard

def ed25519KeyLen : ℕ := 32

def ed25519SigLen : ℕ := 64

abbrev Seed : Type := List.Vector UInt8 ed25519KeyLen

abbrev Signature : Type := List.Vector UInt8 ed25519SigLen

/-- Ed25519: the verifying key of a seed and its bytes, which not all strings are. -/
structure Ed25519 where
  VerifyingKey : Type
  verifyingKey : Seed → VerifyingKey
  toBytes : VerifyingKey → List.Vector UInt8 ed25519KeyLen
  fromBytes : List.Vector UInt8 ed25519KeyLen → Option VerifyingKey
  sign : Seed → (message : Bytes) → Signature
  verify : VerifyingKey → (message : Bytes) → Signature → Bool

/-- A verifying key is read back from its bytes. -/
def Ed25519.Reads (e : Ed25519) : Prop := ∀ key, e.fromBytes (e.toBytes key) = some key

/-- What was signed with a seed is accepted under its verifying key. -/
def Ed25519.Signs (e : Ed25519) : Prop :=
  ∀ seed message, e.verify (e.verifyingKey seed) message (e.sign seed message) = true

structure DeviceKeypair where
  publicKey : Bytes
  secret : Bytes
deriving DecidableEq

def generateDeviceKeypair (e : Ed25519) (draw : Draw ed25519KeyLen) :
    Except Error DeviceKeypair := do
  let seed ← getrandom draw
  pure ⟨(e.toBytes (e.verifyingKey seed)).toList, seed.toList⟩

def deviceSign (e : Ed25519) (secret message : Bytes) : Except Error Bytes := do
  let seed ← orCrypto s!"longueur de graine invalide (attendu {ed25519KeyLen})"
    (tryInto ed25519KeyLen secret)
  pure (e.sign seed message).toList

def deviceVerify (e : Ed25519) (publicKey message signature : Bytes) : Bool :=
  match tryInto ed25519KeyLen publicKey with
  | none => false
  | some publicBytes =>
    match e.fromBytes publicBytes with
    | none => false
    | some verifying =>
      match tryInto ed25519SigLen signature with
      | none => false
      | some signature => e.verify verifying message signature

/-! ## What they return -/

variable {e : Ed25519}

theorem generateDeviceKeypair_eq_ok {draw : Draw ed25519KeyLen} {k : DeviceKeypair} :
    generateDeviceKeypair e draw = .ok k ↔ ∃ seed, draw = .ok seed ∧
      ⟨(e.toBytes (e.verifyingKey seed)).toList, seed.toList⟩ = k := by
  unfold generateDeviceKeypair
  simp

theorem deviceSign_eq_ok {secret message signature : Bytes} :
    deviceSign e secret message = .ok signature ↔ ∃ seed : Seed, secret = seed.toList ∧
      (e.sign seed message).toList = signature := by
  unfold deviceSign
  simp [tryInto_eq_some]

/-- **When a signature is accepted**: the key and the signature have their lengths, the key is
one, and the signature is valid under it. -/
theorem deviceVerify_eq_true {publicKey message signature : Bytes} :
    deviceVerify e publicKey message signature = true ↔
      ∃ (publicBytes : List.Vector UInt8 ed25519KeyLen) (key : e.VerifyingKey) (sig : Signature),
        publicKey = publicBytes.toList ∧ e.fromBytes publicBytes = some key ∧
          signature = sig.toList ∧ e.verify key message sig = true := by
  constructor
  · intro h
    unfold deviceVerify at h
    split at h
    · cases h
    · next publicBytes hpk =>
      split at h
      · cases h
      · next key hkey =>
        split at h
        · cases h
        · next sig hsig =>
          exact ⟨publicBytes, key, sig, tryInto_eq_some.mp hpk, hkey, tryInto_eq_some.mp hsig, h⟩
  · rintro ⟨publicBytes, key, sig, rfl, hkey, rfl, h⟩
    unfold deviceVerify
    simp only [tryInto_toList, hkey, h]

/-- What a device signs is accepted under the key it published. -/
theorem deviceVerify_deviceSign (hreads : e.Reads) (hsigns : e.Signs)
    {draw : Draw ed25519KeyLen} {k : DeviceKeypair} (hk : generateDeviceKeypair e draw = .ok k)
    {message signature : Bytes} (h : deviceSign e k.secret message = .ok signature) :
    deviceVerify e k.publicKey message signature = true := by
  obtain ⟨seed, -, rfl⟩ := generateDeviceKeypair_eq_ok.mp hk
  obtain ⟨seed', hseed, rfl⟩ := deviceSign_eq_ok.mp h
  obtain rfl : seed = seed' := List.Vector.toList_injective hseed
  exact deviceVerify_eq_true.mpr ⟨_, _, _, rfl, hreads _, rfl, hsigns seed message⟩

/-- A device always signs with the seed it drew. -/
theorem exists_deviceSign {draw : Draw ed25519KeyLen} {k : DeviceKeypair}
    (hk : generateDeviceKeypair e draw = .ok k) (message : Bytes) :
    ∃ signature, deviceSign e k.secret message = .ok signature := by
  obtain ⟨seed, -, rfl⟩ := generateDeviceKeypair_eq_ok.mp hk
  exact ⟨_, deviceSign_eq_ok.mpr ⟨seed, rfl, rfl⟩⟩

/-! ## Ed25519 that hides nothing -/

/-- A checksum of the seed and the message. -/
def checksum (seed : Seed) (message : Bytes) : Signature := List.Vector.ofFn fun i =>
  (seed.toList ++ message).foldl (fun sum b => 33 * sum + b) (UInt8.ofNat i)

/-- A public key is its seed, and a signature is a checksum. -/
def Ed25519.transparent : Ed25519 where
  VerifyingKey := Seed
  verifyingKey := id
  toBytes := id
  fromBytes := some
  sign := checksum
  verify := fun key message signature => signature == checksum key message

theorem Ed25519.transparent_reads : transparent.Reads := fun _ => rfl

theorem Ed25519.transparent_signs : transparent.Signs := fun _ _ => beq_self_eq_true _

end RealmGuard
