import RealmGuard.Crypto.Purpose
import RealmGuard.Crypto.VaultKeys
import RealmGuard.EnvelopeBytes
import RealmGuard.Lib.Steps
import RealmGuard.PairingRuns

/-!
# The keyring of an account

One vault key, held by the devices of an account and stored under several locks: wrapped
under the master password or a given KEK, in a recovery kit, in a pairing blob, and any of
these once more under exported keys. A `Keyring` runs these calls in any order; whoever
opens an artefact holds what came out. `Locked.unlock_eq` is what opening returns, whatever
it is tried with, and the vault key is the only key that ever comes out (`oneKey`), as long
as no envelope of the run was sealed under two of its keys.
-/

namespace RealmGuard

open Lib (Reaches)
open Lib.Postcard (Wire)

/-- How an artefact is opened. -/
inductive Kind where
  | wrapped
  | kit
  | transfer
deriving DecidableEq

/-- What a vault key was locked with. -/
inductive Lock where
  | master (password : Bytes) (salt : Salt)
  | slice (kek : Bytes)
  | kit (entropy : List.Vector UInt8 recoveryEntropyLen)
  | pairing (secret : Key) (qr : Bytes)

/-- What a device answers to a lock. -/
inductive Answer where
  | master (password : Bytes) (salt : Salt)
  | slice (kek : Bytes)
  | phrase (recoveryPhrase : String)
  | pairing (state hello : Bytes)

def Lock.kind : Lock → Kind
  | .master .. => .wrapped
  | .slice _ => .wrapped
  | .kit _ => .kit
  | .pairing .. => .transfer

def Answer.kind : Answer → Kind
  | .master .. => .wrapped
  | .slice _ => .wrapped
  | .phrase _ => .kit
  | .pairing .. => .transfer

/-! ## The calls -/

/-- The calls that lock a vault key, for storage. -/
def Lock.store (s : Suite) (a : Argon2) (nonce : Draw xnonceLen) (accountId vaultKey : Bytes) :
    Lock → Except Error Bytes
  | .master password salt => do
    let kek ← deriveMasterKey a password salt
    let vaultKey ← VaultKey.fromSlice vaultKey
    let wrapped ← wrapVaultKey s nonce vaultKey kek
    Codec.encode wrapped
  | .slice kek => do
    let wrapped ← wrapVaultKeyBytes s nonce kek vaultKey
    Codec.encode wrapped
  | .kit entropy => do
    let vaultKey ← VaultKey.fromSlice vaultKey
    let (_, wrapped) ← createRecoveryKit s (.ok entropy) nonce vaultKey
    Codec.encode wrapped
  | .pairing secret qr => do
    let begun ← pairingSourceBegin s (.ok secret) qr
    pairingSourceSeal s nonce begun.state accountId vaultKey

/-- The calls that open what is stored, for each kind of answer. -/
def Answer.unlock (s : Suite) (a : Argon2) (stored : Bytes) : Answer → Except Error Bytes
  | .master password salt => do
    let wrapped : Ciphertext ← Codec.decode stored
    let kek ← deriveMasterKey a password salt
    let vaultKey ← unwrapVaultKey s wrapped kek
    pure vaultKey.bytes.toList
  | .slice kek => do
    let wrapped : Ciphertext ← Codec.decode stored
    unwrapVaultKeyBytes s kek wrapped
  | .phrase recoveryPhrase => do
    let wrapped : Ciphertext ← Codec.decode stored
    let vaultKey ← recoverVaultKey s recoveryPhrase wrapped
    pure vaultKey.bytes.toList
  | .pairing state hello => do
    let confirm ← pairingNewDeviceConfirm s state hello
    let opened ← pairingOpen s confirm.state stored
    pure opened.vaultKey

/-- Stored bytes, once more under an exported key. -/
def exportSealed (s : Suite) (nonce : Draw xnonceLen) (exportKey stored : Bytes) :
    Except Error Bytes := do
  let sealed ← sealWithExportKey s nonce exportKey stored
  Codec.encode sealed

/-- What is stored under exported keys, the outermost first. -/
def openExported (s : Suite) : (exportKeys : List Bytes) → (stored : Bytes) → Except Error Bytes
  | [], stored => pure stored
  | exportKey :: exportKeys, stored => do
    let sealed : Ciphertext ← Codec.decode stored
    let content ← openWithExportKey s exportKey sealed
    openExported s exportKeys content

/-! ## The keys -/

/-- The key a vault key is locked under. -/
def Lock.key (s : Suite) (a : Argon2) : Lock → Except Error Key
  | .master password salt => MasterKey.bytes <$> deriveMasterKey a password salt
  | .slice kek => MasterKey.bytes <$> MasterKey.fromSlice kek
  | .kit entropy => recoveryKey s entropy.toList
  | .pairing secret qr => do
    let begun ← pairingSourceBegin s (.ok secret) qr
    let session : PairingSessionState ← Codec.decode begun.state
    pure session.aeadKey

/-- The key an answer opens with. -/
def Answer.key (s : Suite) (a : Argon2) : Answer → Except Error Key
  | .master password salt => MasterKey.bytes <$> deriveMasterKey a password salt
  | .slice kek => MasterKey.bytes <$> MasterKey.fromSlice kek
  | .phrase recoveryPhrase => do
    let entropy ← orCrypto "code de récupération invalide" (s.bip39.parse (trim recoveryPhrase))
    recoveryKey s entropy
  | .pairing state hello => do
    let confirm ← pairingNewDeviceConfirm s state hello
    let session : PairingSessionState ← Codec.decode confirm.state
    pure session.aeadKey

/-- What opening layer after layer returns: a key that cannot be derived fails as its derivation
does, and one that is not the key of its layer does not authenticate. -/
def outcome (content : Bytes) : (tried : List (Except Error Key)) → (layers : List Key) →
    Except Error Bytes
  | key :: tried, layer :: layers => do
    let key ← key
    if key = layer then outcome content tried layers
    else throw (.crypto "authentification échouée")
  | _, _ => pure content

/-! ## Runs -/

/-- What is stored, and what it is stored under. -/
structure Artefact where
  exportKeys : List Bytes
  lock : Lock
  bytes : Bytes

/-- What a device tries an artefact with. -/
structure Attempt where
  exportKeys : List Bytes
  answer : Answer

/-- An attempt that was made, and what it returned. -/
structure Trial where
  artefact : Artefact
  attempt : Attempt
  result : Except Error Bytes

/-- The keys that devices hold, all that was stored, and all that was tried. -/
structure Keyring where
  held : List Bytes
  stored : List Artefact
  tried : List Trial

/-- A call, by the device or on the artefact at an index. -/
inductive KeyringCall where
  | store (device : ℕ) (lock : Lock) (nonce : List.Vector UInt8 xnonceLen) (accountId : Bytes)
  | blob (artefact : ℕ) (exportKey : Bytes) (nonce : List.Vector UInt8 xnonceLen)
  | unlock (artefact : ℕ) (attempt : Attempt)

/-- The attempt is of the kind that opens the artefact. -/
def Attempt.Suits (t : Attempt) (x : Artefact) : Prop :=
  t.answer.kind = x.lock.kind ∧ t.exportKeys.length = x.exportKeys.length

instance (t : Attempt) (x : Artefact) : Decidable (t.Suits x) := inferInstanceAs (Decidable (_ ∧ _))

def Attempt.unlock (s : Suite) (a : Argon2) (t : Attempt) (stored : Bytes) :
    Except Error Bytes := do
  let content ← openExported s t.exportKeys stored
  t.answer.unlock s a content

/-- The keys an attempt opens with, the outermost first. -/
def Attempt.keys (s : Suite) (a : Argon2) (t : Attempt) : List (Except Error Key) :=
  t.exportKeys.map (blobKey s) ++ [t.answer.key s a]

/-- The keys an artefact is stored under, the outermost first. -/
def Artefact.keys (s : Suite) (a : Argon2) (x : Artefact) : List (Except Error Key) :=
  x.exportKeys.map (blobKey s) ++ [x.lock.key s a]

namespace Keyring

def init (vaultKey : VaultKey) : Keyring := ⟨[vaultKey.bytes.toList], [], []⟩

/-- A call adds what it returned: to store, the bytes if it succeeds; to open, the key if it
does, and in any case the trial. -/
def step (s : Suite) (a : Argon2) (n : Keyring) : KeyringCall → Option Keyring
  | .store device lock nonce accountId => do
    let vaultKey ← n.held[device]?
    let bytes ← (lock.store s a (.ok nonce) accountId vaultKey).toOption
    some { n with stored := ⟨[], lock, bytes⟩ :: n.stored }
  | .blob artefact exportKey nonce => do
    let x ← n.stored[artefact]?
    let bytes ← (exportSealed s (.ok nonce) exportKey x.bytes).toOption
    some { n with stored := ⟨exportKey :: x.exportKeys, x.lock, bytes⟩ :: n.stored }
  | .unlock artefact t => do
    let x ← n.stored[artefact]?
    if t.Suits x then
      let result := t.unlock s a x.bytes
      some { n with held := result.toOption.toList ++ n.held, tried := ⟨x, t, result⟩ :: n.tried }
    else none

/-- The reachable keyrings of a vault key. -/
abbrev Reachable (s : Suite) (a : Argon2) (vaultKey : VaultKey) : Keyring → Prop :=
  Reaches (step s a) (.init vaultKey)

/-- The keys of the run: those of all that was stored, and those it was tried with. -/
def keys (s : Suite) (a : Argon2) (n : Keyring) : Set Key :=
  {key | (∃ x ∈ n.stored, .ok key ∈ x.keys s a) ∨ ∃ q ∈ n.tried, .ok key ∈ q.attempt.keys s a}

/-- The envelopes of the run: what was sealed once more was stored before. -/
def envelopes (n : Keyring) : Set Ciphertext := {c | ∃ x ∈ n.stored, x.bytes = Wire.encode c}

end Keyring

/-! ## What is stored -/

variable {s : Suite} {a : Argon2} {vaultKey : VaultKey}

/-- What is sealed to store a vault key. -/
inductive Contains (vaultKey : VaultKey) : Kind → Bytes → Prop where
  | wrapped : Contains vaultKey .wrapped vaultKey.bytes.toList
  | kit : Contains vaultKey .kit vaultKey.bytes.toList
  | transfer (accountId : List.Vector UInt8 accountIdLen) :
    Contains vaultKey .transfer (Wire.encode (PairingPayload.mk accountId vaultKey.bytes.toList))

/-- An envelope, and the key it was sealed under. -/
structure Layer where
  key : Key
  envelope : Ciphertext

/-- The layer is an envelope of the vault key, sealed under the key of the lock. -/
structure Lock.Locked (s : Suite) (a : Argon2) (vaultKey : VaultKey) (lock : Lock) (l : Layer) :
    Prop where
  derived : lock.key s a = .ok l.key
  sealed : ∃ m, Contains vaultKey lock.kind m ∧ s.aead.Sealed l.key m l.envelope

/-- The bytes are envelopes of envelopes, down to one of the vault key. -/
inductive Locked (s : Suite) (a : Argon2) (vaultKey : VaultKey) (lock : Lock) :
    (exportKeys : List Bytes) → (layers : List Layer) → Bytes → Prop where
  | base {l : Layer} : lock.Locked s a vaultKey l →
    Locked s a vaultKey lock [] [l] (Wire.encode l.envelope)
  | exported {exportKey content : Bytes} {exportKeys : List Bytes} {l : Layer}
      {layers : List Layer} : blobKey s exportKey = .ok l.key →
    Locked s a vaultKey lock exportKeys layers content →
    s.aead.Sealed l.key content l.envelope →
    Locked s a vaultKey lock (exportKey :: exportKeys) (l :: layers) (Wire.encode l.envelope)

theorem Locked.keys_eq {lock : Lock} {exportKeys : List Bytes} {layers : List Layer}
    {bytes : Bytes} (h : Locked s a vaultKey lock exportKeys layers bytes) :
    Artefact.keys s a ⟨exportKeys, lock, bytes⟩ = (layers.map Layer.key).map .ok := by
  unfold Artefact.keys
  induction h with
  | base h => simp [h.derived]
  | exported hkey _ _ ih => simpa [hkey] using ih

/-- What is stored of the vault key is locked under the key of its lock. -/
theorem Lock.locked_of_store {lock : Lock} {nonce : Draw xnonceLen} {accountId bytes : Bytes}
    (h : lock.store s a nonce accountId vaultKey.bytes.toList = .ok bytes) :
    ∃ l, lock.Locked s a vaultKey l ∧ bytes = Wire.encode l.envelope := by
  cases lock with
  | master password salt =>
    simp only [Lock.store, bind_eq_ok, VaultKey.fromSlice_toList, Codec.encode] at h
    obtain ⟨kek, hkek, _, hvk, c, hc, hbytes⟩ := h
    obtain rfl := Except.ok.inj hvk
    exact ⟨⟨kek.bytes, c⟩, ⟨map_eq_ok.mpr ⟨kek, hkek, rfl⟩, _, .wrapped, Aead.sealed_of_seal hc⟩,
      (Except.ok.inj hbytes).symm⟩
  | slice kek =>
    simp only [Lock.store, wrapVaultKeyBytes, bind_eq_ok, VaultKey.fromSlice_toList,
      Codec.encode] at h
    obtain ⟨c, ⟨kek, hkek, _, hvk, hc⟩, hbytes⟩ := h
    obtain rfl := Except.ok.inj hvk
    exact ⟨⟨kek.bytes, c⟩, ⟨map_eq_ok.mpr ⟨kek, hkek, rfl⟩, _, .wrapped, Aead.sealed_of_seal hc⟩,
      (Except.ok.inj hbytes).symm⟩
  | kit entropy =>
    simp only [Lock.store, bind_eq_ok, VaultKey.fromSlice_toList, Codec.encode] at h
    obtain ⟨_, hvk, ⟨code, c⟩, hkit, hbytes⟩ := h
    obtain rfl := Except.ok.inj hvk
    obtain ⟨key, hkey, hc⟩ := createRecoveryKit_key hkit
    exact ⟨⟨key, c⟩, ⟨recoveryKey_eq_ok.mpr hkey, _, .kit, Aead.sealed_of_seal hc⟩,
      (Except.ok.inj hbytes).symm⟩
  | pairing secret qr =>
    simp only [Lock.store, bind_eq_ok] at h
    obtain ⟨begun, hbegun, hseal⟩ := h
    obtain ⟨account, session, c, -, hsession, hc, hbytes⟩ := pairingSourceSeal_eq_ok.mp hseal
    refine ⟨⟨session.aeadKey, c⟩, ⟨?_, _, .transfer account, Aead.sealed_of_seal hc⟩, hbytes.symm⟩
    simp only [Lock.key, bind_eq_ok]
    exact ⟨begun, hbegun, session, hsession, rfl⟩

/-! ## Opening it -/

/-- What is read from an opened envelope. -/
def Kind.read (plaintext : Bytes) : Kind → Except Error Bytes
  | .wrapped => (fun vaultKey => vaultKey.bytes.toList) <$> VaultKey.ofPlaintext plaintext
  | .kit => (fun vaultKey => vaultKey.bytes.toList) <$> VaultKey.ofPlaintext plaintext
  | .transfer => PairingPayload.vaultKey <$> Codec.decode plaintext

/-- A vault key that was sealed is read back. -/
theorem Contains.read {kind : Kind} {key : Key} {m : Bytes} {c : Ciphertext}
    (h : Contains vaultKey kind m) (hc : s.aead.Sealed key m c) :
    kind.read m = .ok vaultKey.bytes.toList := by
  cases h with
  | wrapped => exact map_eq_ok.mpr ⟨vaultKey, vaultKey.ofPlaintext_toList, rfl⟩
  | kit => exact map_eq_ok.mpr ⟨vaultKey, vaultKey.ofPlaintext_toList, rfl⟩
  | transfer account => exact map_eq_ok.mpr ⟨_, decode_sealedPayload hc, rfl⟩

theorem ok_bind {α β : Type} (x : α) (f : α → Except Error β) : (.ok x >>= f) = f x := rfl

/-- Every answer derives its key, opens the envelope with it and reads what comes out. -/
theorem Answer.unlock_encode (answer : Answer) {c : Ciphertext}
    (hdec : Codec.decode (Wire.encode c) = .ok c) :
    answer.unlock s a (Wire.encode c) = (do
      let key ← answer.key s a
      let plaintext ← s.aead.open key c
      answer.kind.read plaintext) := by
  cases answer with
  | master password salt =>
    simp only [unlock, key, kind, Kind.read, hdec, ok_bind, pure_bind, unwrapVaultKey,
      bind_assoc, map_eq_pure_bind]
  | slice kek =>
    simp only [unlock, key, kind, Kind.read, hdec, ok_bind, pure_bind, unwrapVaultKeyBytes,
      unwrapVaultKey, bind_assoc, map_eq_pure_bind]
  | phrase recoveryPhrase =>
    simp only [unlock, key, kind, Kind.read, hdec, ok_bind, recoverVaultKey, bind_assoc,
      map_eq_pure_bind]
  | pairing state hello =>
    simp only [unlock, key, kind, Kind.read, pairingOpen, hdec, ok_bind, pure_bind, bind_assoc,
      map_eq_pure_bind]

/-- The key, if one was derived, opens the layer if it is its key and does not authenticate
otherwise. -/
def Layer.Decides (s : Suite) (l : Layer) (key : Except Error Key) : Prop :=
  ∀ k m, key = .ok k → s.aead.Sealed l.key m l.envelope → s.aead.open k l.envelope =
    if k = l.key then .ok m else .error (.crypto "authentification échouée")

theorem Layer.decides_self (hopens : s.aead.Opens) (l : Layer) : l.Decides s (.ok l.key) := by
  intro k m hk hc
  obtain rfl := Except.ok.inj hk
  rw [if_pos rfl]
  exact Aead.open_of_sealed hopens hc

/-- A key that the envelope was not sealed under does not authenticate. -/
theorem Layer.decides (hopens : s.aead.Opens) (hauth : s.aead.Authentic) {l : Layer}
    {key : Except Error Key}
    (hkey : ∀ k m m', key = .ok k → s.aead.Sealed l.key m l.envelope →
      s.aead.Sealed k m' l.envelope → k = l.key) : l.Decides s key :=
  fun k m hk hc => hc.open_eq hopens hauth fun m' hc' => hkey k m m' hk hc hc'

/-- Opening one layer, and going on with what is in it. -/
theorem Layer.Decides.open_bind {l : Layer} {key : Except Error Key} (h : l.Decides s key)
    {m : Bytes} (hc : s.aead.Sealed l.key m l.envelope) (f : Bytes → Except Error Bytes) :
    (do
      let key ← key
      let content ← s.aead.open key l.envelope
      f content) = (do
      let key ← key
      if key = l.key then f m else throw (.crypto "authentification échouée")) := by
  cases key with
  | error e => rfl
  | ok k =>
    rw [ok_bind, ok_bind, h k m rfl hc]
    by_cases hk : k = l.key
    · rw [if_pos hk, if_pos hk, ok_bind]
    · rw [if_neg hk, if_neg hk]
      rfl

/-- **What opening returns**, whatever the artefact is tried with, if each key decides. -/
theorem Locked.unlock_eq {lock : Lock} {exportKeys : List Bytes} {layers : List Layer}
    {bytes : Bytes} (h : Locked s a vaultKey lock exportKeys layers bytes) {t : Attempt}
    (hsuits : t.Suits ⟨exportKeys, lock, bytes⟩)
    (hdecides : List.Forall₂ (fun l key => l.Decides s key) layers (t.keys s a)) :
    t.unlock s a bytes =
      outcome vaultKey.bytes.toList (t.keys s a) (layers.map Layer.key) := by
  obtain ⟨tried, answer⟩ := t
  obtain ⟨hkind, hlen⟩ := hsuits
  change answer.kind = lock.kind at hkind
  unfold Attempt.unlock
  unfold Attempt.keys at hdecides ⊢
  induction h generalizing tried with
  | base h =>
    obtain rfl := List.eq_nil_of_length_eq_zero hlen
    obtain ⟨hl, -⟩ := List.forall₂_cons.mp hdecides
    obtain ⟨-, m, hm, hc⟩ := h
    show answer.unlock s a (Wire.encode _) = _
    rw [answer.unlock_encode (Codec.decode_encoding hc.fits), hkind, hl.open_bind hc, hm.read hc]
    rfl
  | exported _ _ hc ih =>
    cases tried with
    | nil => cases hlen
    | cons exportKey tried =>
      obtain ⟨hl, hrest⟩ := List.forall₂_cons.mp hdecides
      simp only [openExported, openWithExportKey, Codec.decode_encoding hc.fits, ok_bind,
        bind_assoc]
      rw [hl.open_bind hc]
      refine bind_congr fun key => ?_
      rw [ih tried hrest (Nat.succ.inj hlen)]
      rfl

/-- The answer that belongs to a lock: the same secret, the phrase of a kit as it was shown, with
any white space around it, or the state of the new device that showed the QR code. -/
inductive Lock.Answers (s : Suite) : Lock → Answer → Prop where
  | master (password : Bytes) (salt : Salt) : Answers s (.master password salt)
    (.master password salt)
  | slice (kek : Bytes) : Answers s (.slice kek) (.slice kek)
  | kit {entropy : List.Vector UInt8 recoveryEntropyLen} {recoveryPhrase : String} :
    mnemonicFromEntropy s entropy.toList = .ok (trim recoveryPhrase) →
    Answers s (.kit entropy) (.phrase recoveryPhrase)
  | pairing (secret : Key) (state : PairingState) :
    Answers s (.pairing secret (Wire.encode
        (PairingRequest.mk state.pairingId (s.x25519.publicKey state.secret)
          state.devicePublicKey)))
      (.pairing (Wire.encode state) (Wire.encode (PairingHello.mk (s.x25519.publicKey secret))))

/-- Parsing the phrase of an entropy gives the entropy back. -/
def Bip39.RoundTrips (bip39 : Bip39) : Prop := ∀ entropy phrase,
  bip39.fromEntropy entropy = .ok phrase → bip39.parse phrase = some entropy

/-- A word list that knows one entropy. -/
def Bip39.single (entropy : Bytes) (phrase : String) : Bip39 where
  fromEntropy e := if e = entropy then .ok phrase else .error "unknown entropy"
  parse p := if p = phrase then some entropy else none

theorem Bip39.single_roundTrips (entropy : Bytes) (phrase : String) :
    (single entropy phrase).RoundTrips := by
  intro e p h
  simp only [single] at h ⊢
  split at h
  · next he => rw [he, if_pos (Except.ok.inj h).symm]
  · cases h

/-- `transparent`, with the phrase of the zero entropy. -/
def Suite.mnemonic : Suite :=
  { Suite.transparent with
    bip39 := .single (.replicate 32 0) (String.join (.replicate 23 "abandon ") ++ "art") }

/-- Checksums of the password and the salt, whatever the parameters. -/
def Argon2.transparent : Argon2 where
  Params := UInt32 × UInt32 × UInt32
  newParams := fun mCost tCost pCost _ => .ok (mCost, tCost, pCost)
  hashPasswordInto := fun _ password salt _ => .ok (List.Vector.ofFn fun i =>
    (password ++ salt).foldl (fun sum b => 33 * sum + b) (UInt8.ofNat i))

/-- The answer that belongs to a lock derives its key. -/
theorem Lock.Answers.key_eq (hcomm : s.x25519.Commutes) (hbip : s.bip39.RoundTrips) {lock : Lock}
    {answer : Answer} (h : lock.Answers s answer) : answer.key s a = lock.key s a := by
  cases h with
  | master password salt => rfl
  | slice kek => rfl
  | @kit entropy recoveryPhrase hphrase =>
    have hfrom : s.bip39.fromEntropy entropy.toList = .ok (trim recoveryPhrase) := by
      unfold mnemonicFromEntropy at hphrase
      cases hf : s.bip39.fromEntropy entropy.toList with
      | ok phrase =>
        rw [hf] at hphrase
        rw [Except.ok.inj hphrase]
      | error e =>
        rw [hf] at hphrase
        cases hphrase
    unfold Answer.key Lock.key
    simp only [hbip _ _ hfrom]
    rfl
  | pairing secret state =>
    simp only [Answer.key, Lock.key, pairingNewDeviceConfirm, pairingSourceBegin,
      Codec.decode_encoding (PairingState.fits _), Codec.decode_encoding (PairingHello.fits _),
      Codec.decode_encoding (PairingRequest.fits _), ok_bind, bind_assoc, pure_bind, getrandom,
      Codec.encode]
    rw [hcomm]

theorem Lock.Answers.kind_eq {lock : Lock} {answer : Answer} (h : lock.Answers s answer) :
    answer.kind = lock.kind := by
  cases h <;> rfl

/-- Opening returns what is stored, or fails. -/
theorem outcome_eq_ok {content b : Bytes} {tried : List (Except Error Key)} {layers : List Key}
    (h : outcome content tried layers = .ok b) : b = content := by
  induction tried generalizing layers with
  | nil => exact (Except.ok.inj h).symm
  | cons key tried ih =>
    cases layers with
    | nil => exact (Except.ok.inj h).symm
    | cons layer layers =>
      obtain ⟨key, -, h⟩ := bind_eq_ok.mp h
      by_cases hk : key = layer
      · rw [if_pos hk] at h
        exact ih h
      · rw [if_neg hk] at h
        cases h

theorem outcome_self (content : Bytes) (layers : List Key) :
    outcome content (layers.map .ok) layers = .ok content := by
  induction layers with
  | nil => rfl
  | cons layer layers ih =>
    show (if layer = layer then _ else _) = _
    rw [if_pos rfl, ih]

/-- An answer that derives the key of the lock opens what is stored. -/
theorem Locked.unlock_answer (hopens : s.aead.Opens) {lock : Lock} {exportKeys : List Bytes}
    {layers : List Layer} {bytes : Bytes}
    (h : Locked s a vaultKey lock exportKeys layers bytes) {answer : Answer}
    (hkind : answer.kind = lock.kind) (hkey : answer.key s a = lock.key s a) :
    Attempt.unlock s a ⟨exportKeys, answer⟩ bytes = .ok vaultKey.bytes.toList := by
  have hkeys : Attempt.keys s a ⟨exportKeys, answer⟩ = (layers.map Layer.key).map .ok := by
    rw [← h.keys_eq, Attempt.keys, Artefact.keys, hkey]
  have hdecides : List.Forall₂ (fun l key => l.Decides s key) layers
      (Attempt.keys s a ⟨exportKeys, answer⟩) := by
    rw [hkeys, List.map_map, List.forall₂_map_right_iff, List.forall₂_same]
    exact fun l _ => l.decides_self hopens
  rw [h.unlock_eq ⟨hkind, rfl⟩ hdecides, hkeys]
  exact outcome_self _ _

/-! ## The vault key is the only key -/

namespace Keyring

/-- What holds of every reachable keyring. -/
structure Sound (s : Suite) (a : Argon2) (vaultKey : VaultKey) (n : Keyring) : Prop where
  held : ∀ key ∈ n.held, key = vaultKey.bytes.toList
  stored : ∀ x ∈ n.stored, ∃ layers, Locked s a vaultKey x.lock x.exportKeys layers x.bytes ∧
    ∀ l ∈ layers, l.envelope ∈ n.envelopes
  tried : ∀ q ∈ n.tried, q.artefact ∈ n.stored ∧ q.attempt.Suits q.artefact ∧
    q.result = q.attempt.unlock s a q.artefact.bytes

theorem Sound.init (s : Suite) (a : Argon2) (vaultKey : VaultKey) :
    Sound s a vaultKey (.init vaultKey) where
  held := fun _ h => List.mem_singleton.mp h
  stored := fun _ h => absurd h List.not_mem_nil
  tried := fun _ h => absurd h List.not_mem_nil

variable {n n' : Keyring}

/-- What is stored on top of sound artefacts. -/
theorem Sound.store (h : Sound s a vaultKey n) {x : Artefact} {l : Layer} {layers : List Layer}
    (hx : Locked s a vaultKey x.lock x.exportKeys (l :: layers) x.bytes)
    (hbytes : x.bytes = Wire.encode l.envelope) (hlayers : ∀ l ∈ layers, l.envelope ∈ n.envelopes) :
    Sound s a vaultKey { n with stored := x :: n.stored } := by
  have hmono : n.envelopes ⊆ envelopes { n with stored := x :: n.stored } :=
    fun c ⟨y, hy, hc⟩ => ⟨y, List.mem_cons_of_mem _ hy, hc⟩
  refine ⟨h.held, List.forall_mem_cons.mpr ⟨⟨_, hx, List.forall_mem_cons.mpr ⟨?_, ?_⟩⟩, ?_⟩, ?_⟩
  · exact ⟨x, List.mem_cons_self, hbytes⟩
  · exact fun l hl => hmono (hlayers l hl)
  · intro y hy
    obtain ⟨layers, hlocked, hall⟩ := h.stored y hy
    exact ⟨layers, hlocked, fun l hl => hmono (hall l hl)⟩
  · exact fun q hq => ⟨List.mem_cons_of_mem _ (h.tried q hq).1, (h.tried q hq).2⟩

/-- What a trial returns, as long as no envelope was sealed under two keys of the run. -/
theorem Sound.result (hopens : s.aead.Opens) (hauth : s.aead.Authentic)
    (h : Sound s a vaultKey n) (hcom : s.aead.CommittingOn (n.keys s a) n.envelopes) {q : Trial}
    (hq : q ∈ n.tried) : ∃ layers, q.artefact.keys s a = layers.map .ok ∧
      q.result = outcome vaultKey.bytes.toList (q.attempt.keys s a) layers := by
  obtain ⟨hx, hsuits, hresult⟩ := h.tried q hq
  obtain ⟨layers, hlocked, hall⟩ := h.stored _ hx
  have hkeys := hlocked.keys_eq
  refine ⟨layers.map Layer.key, hkeys, hresult.trans ?_⟩
  refine hlocked.unlock_eq hsuits (List.forall₂_iff_zip.mpr ⟨?_, fun {l key} hl => ?_⟩)
  · have hlen := congrArg List.length hkeys
    simp only [Artefact.keys, List.length_append, List.length_map, List.length_singleton] at hlen
    rw [← hlen, ← hsuits.2]
    simp [Attempt.keys]
  · obtain ⟨hl, hkey⟩ := List.of_mem_zip hl
    have hown : .ok l.key ∈ Artefact.keys s a q.artefact :=
      hkeys ▸ List.mem_map_of_mem (List.mem_map_of_mem hl)
    refine Layer.decides hopens hauth fun k m m' hk hc hc' => ?_
    exact hcom _ (hall l hl) _ (.inl ⟨_, hx, hown⟩) _ (.inr ⟨q, hq, hk ▸ hkey⟩) m m' hc hc'

/-- What was stored and tried stays. -/
theorem subset_of_step {call : KeyringCall} (hstep : n.step s a call = some n') :
    n.stored ⊆ n'.stored ∧ n.tried ⊆ n'.tried := by
  cases call with
  | store device lock nonce accountId =>
    obtain ⟨key, -, hrest⟩ := Option.bind_eq_some_iff.mp hstep
    obtain ⟨bytes, -, hn⟩ := Option.bind_eq_some_iff.mp hrest
    obtain rfl := Option.some.inj hn
    exact ⟨List.subset_cons_self _ _, List.Subset.refl _⟩
  | blob artefact exportKey nonce =>
    obtain ⟨x, -, hrest⟩ := Option.bind_eq_some_iff.mp hstep
    obtain ⟨bytes, -, hn⟩ := Option.bind_eq_some_iff.mp hrest
    obtain rfl := Option.some.inj hn
    exact ⟨List.subset_cons_self _ _, List.Subset.refl _⟩
  | unlock artefact t =>
    obtain ⟨x, -, hrest⟩ := Option.bind_eq_some_iff.mp hstep
    obtain ⟨-, hn⟩ := Option.ite_none_right_eq_some.mp hrest
    obtain rfl := Option.some.inj hn
    exact ⟨List.Subset.refl _, List.subset_cons_self _ _⟩

/-- What holds of the keys and envelopes of a run held of the earlier ones. -/
theorem committingOn_of_step {call : KeyringCall} (hstep : n.step s a call = some n')
    (hcom : s.aead.CommittingOn (n'.keys s a) n'.envelopes) :
    s.aead.CommittingOn (n.keys s a) n.envelopes := by
  obtain ⟨hstored, htried⟩ := subset_of_step hstep
  refine hcom.mono (fun key hkey => ?_) fun c ⟨x, hx, hc⟩ => ⟨x, hstored hx, hc⟩
  exact hkey.imp (fun ⟨x, hx, h⟩ => ⟨x, hstored hx, h⟩) fun ⟨q, hq, h⟩ => ⟨q, htried hq, h⟩

theorem Sound.step (hopens : s.aead.Opens) (hauth : s.aead.Authentic) {call : KeyringCall}
    (h : Sound s a vaultKey n) (hstep : n.step s a call = some n')
    (hcom : s.aead.CommittingOn (n'.keys s a) n'.envelopes) : Sound s a vaultKey n' := by
  cases call with
  | store device lock nonce accountId =>
    obtain ⟨key, hkey, hrest⟩ := Option.bind_eq_some_iff.mp hstep
    obtain ⟨bytes, hbytes, hn⟩ := Option.bind_eq_some_iff.mp hrest
    obtain rfl := Option.some.inj hn
    obtain rfl := h.held key (List.mem_of_getElem? hkey)
    obtain ⟨l, hlocked, rfl⟩ := Lock.locked_of_store (Pairings.toOption_eq_some.mp hbytes)
    exact h.store (x := ⟨[], lock, Wire.encode l.envelope⟩) (.base hlocked) rfl
      fun _ h => absurd h List.not_mem_nil
  | blob artefact exportKey nonce =>
    obtain ⟨x, hx, hrest⟩ := Option.bind_eq_some_iff.mp hstep
    obtain ⟨bytes, hbytes, hn⟩ := Option.bind_eq_some_iff.mp hrest
    obtain rfl := Option.some.inj hn
    obtain ⟨layers, hlocked, hall⟩ := h.stored x (List.mem_of_getElem? hx)
    obtain ⟨c, hc, hencode⟩ := bind_eq_ok.mp (Pairings.toOption_eq_some.mp hbytes)
    obtain rfl := Except.ok.inj hencode
    obtain ⟨key, hkey, hseal⟩ := sealWithExportKey_eq_ok.mp hc
    exact h.store (x := ⟨exportKey :: x.exportKeys, x.lock, Wire.encode c⟩) (l := ⟨key, c⟩)
      (.exported (blobKey_eq_ok.mpr hkey) hlocked (Aead.sealed_of_seal hseal)) rfl hall
  | unlock artefact t =>
    obtain ⟨x, hx, hrest⟩ := Option.bind_eq_some_iff.mp hstep
    obtain ⟨hsuits, hn⟩ := Option.ite_none_right_eq_some.mp hrest
    obtain rfl := Option.some.inj hn
    -- with the trial, but before anyone holds what came out of it
    have hs : Sound s a vaultKey
        { n with tried := ⟨x, t, t.unlock s a x.bytes⟩ :: n.tried } :=
      ⟨h.held, h.stored,
        List.forall_mem_cons.mpr ⟨⟨List.mem_of_getElem? hx, hsuits, rfl⟩, h.tried⟩⟩
    obtain ⟨layers, -, hresult⟩ := hs.result hopens hauth hcom List.mem_cons_self
    refine { hs with held := List.forall_mem_append.mpr ⟨fun key hkey => ?_, h.held⟩ }
    rw [Option.mem_toList, Pairings.toOption_eq_some] at hkey
    exact outcome_eq_ok (hresult.symm.trans hkey)

theorem Reachable.sound (hopens : s.aead.Opens) (hauth : s.aead.Authentic)
    (hn : Reachable s a vaultKey n) (hcom : s.aead.CommittingOn (n.keys s a) n.envelopes) :
    Sound s a vaultKey n := by
  refine hn.invariant (P := fun n => s.aead.CommittingOn (n.keys s a) n.envelopes →
    Sound s a vaultKey n) (fun _ => .init s a vaultKey) ?_ hcom
  exact fun _ _ _ ih hstep hcom =>
    (ih (committingOn_of_step hstep hcom)).step hopens hauth hstep hcom

/-- One vault key behind every lock: it is what devices hold, an artefact opens with the answer
that belongs to it, and each attempt returned what the keys of the artefact say. -/
structure OneKey (s : Suite) (a : Argon2) (vaultKey : VaultKey) (n : Keyring) : Prop where
  held : ∀ key ∈ n.held, key = vaultKey.bytes.toList
  opened : ∀ x ∈ n.stored, ∀ answer, x.lock.Answers s answer →
    Attempt.unlock s a ⟨x.exportKeys, answer⟩ x.bytes = .ok vaultKey.bytes.toList
  tried : ∀ q ∈ n.tried, q.artefact ∈ n.stored ∧ ∃ layers,
    q.artefact.keys s a = layers.map .ok ∧ q.attempt.unlock s a q.artefact.bytes = q.result ∧
      q.result = outcome vaultKey.bytes.toList (q.attempt.keys s a) layers

/-- **A keyring keeps one vault key**, whatever is stored, sealed once more and tried. -/
theorem oneKey (s : Suite) (a : Argon2) (hopens : s.aead.Opens) (hauth : s.aead.Authentic)
    (hcomm : s.x25519.Commutes) (hbip : s.bip39.RoundTrips) (vaultKey : VaultKey) (n : Keyring)
    (hn : Reachable s a vaultKey n)
    (hcom : s.aead.CommittingOn (n.keys s a) n.envelopes) : OneKey s a vaultKey n := by
  have hs := Reachable.sound hopens hauth hn hcom
  refine ⟨hs.held, fun x hx answer hanswer => ?_, fun q hq => ?_⟩
  · obtain ⟨layers, hlocked, -⟩ := hs.stored x hx
    exact hlocked.unlock_answer hopens hanswer.kind_eq (hanswer.key_eq hcomm hbip)
  · obtain ⟨hx, -, hresult⟩ := hs.tried q hq
    obtain ⟨layers, hkeys, hout⟩ := hs.result hopens hauth hcom hq
    exact ⟨hx, layers, hkeys, hresult.symm, hout⟩

/-- A kit and a wrapped copy are stored, the copy once more for the server. A second device fails
to open it with a wrong password, opens it with both secrets, and transfers the key to a third. -/
def threeDevices : List KeyringCall :=
  let nonce : List.Vector UInt8 xnonceLen := .replicate 24 2
  let request := Wire.encode
    (PairingRequest.mk (.replicate 16 1) (.replicate 32 5) (.replicate 32 3))
  [.store 0 (.kit (.replicate 32 0)) nonce [],
    .store 0 (.master [112, 119] (.replicate 32 9)) nonce [],
    .blob 0 (.replicate 64 6) nonce,
    .unlock 0 ⟨[.replicate 64 6], .master [112, 120] (.replicate 32 9)⟩,
    .unlock 0 ⟨[.replicate 64 6], .master [112, 119] (.replicate 32 9)⟩,
    .store 0 (.pairing (.replicate 32 8) request) nonce (.replicate 16 7),
    .unlock 0 ⟨[], .pairing
      (Wire.encode (PairingState.mk (.replicate 32 5) (.replicate 16 1) (.replicate 32 3)))
      (Wire.encode (PairingHello.mk (.replicate 32 8)))⟩]

theorem exec_threeDevices : ∃ n, Reachable .mnemonic .transparent ⟨.replicate 32 7⟩ n ∧
    n.held = .replicate 3 (.replicate 32 7) ∧ n.stored.length = 4 ∧
      n.tried.map (fun q => q.result.isOk) = [true, true, false] := by
  have h : (threeDevices.foldlM (step .mnemonic .transparent) (.init ⟨.replicate 32 7⟩)).any
      (fun n => n.held = .replicate 3 (.replicate 32 7) ∧ n.stored.length = 4 ∧
        n.tried.map (fun q => q.result.isOk) = [true, true, false]) = true := by
    decide +kernel
  obtain ⟨n, hexec, h⟩ := (Option.any_eq_true _ _).mp h
  exact ⟨n, Reaches.exec hexec, of_decide_eq_true h⟩

theorem oneKey_threeDevices : ∃ n,
    Reachable .mnemonic .transparent ⟨.replicate 32 7⟩ n ∧ n.stored.length = 4 ∧
      n.tried.map (fun q => q.result.isOk) = [true, true, false] ∧
      OneKey .mnemonic .transparent ⟨.replicate 32 7⟩ n := by
  obtain ⟨n, hn, -, hstored, htried⟩ := exec_threeDevices
  exact ⟨n, hn, hstored, htried, oneKey .mnemonic .transparent Suite.transparent_opens
    Suite.transparent_authentic Suite.transparent_commutes (Bip39.single_roundTrips _ _) _ n hn
    (Suite.transparent_committing.on _ _)⟩

end Keyring

end RealmGuard
