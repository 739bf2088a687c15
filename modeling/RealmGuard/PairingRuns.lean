import RealmGuard.Crypto.Purpose
import RealmGuard.Lib.Steps

/-!
# Pairings

An honest pairing transfers the vault key (`honestPairing_eq_ok`). In `Pairings` any
number of new devices and sources run the calls of the protocol in any order, on bytes
an attacker puts in their way: a QR code, a hello and a sealed blob are whatever it
sends. Each session holds what the code made of what it received (`Faithful`), and the
SAS binds the two sides of a pairing to one transcript (`sas_binds`).
-/

namespace RealmGuard

open Lib (Reaches)
open Lib.Postcard (Wire Fits)

variable {s : Suite}

/-- The derivations in `made` show different SAS. -/
def Hkdf.SasDistinct (hkdf : Hkdf) (made : Set Derivation) : Prop :=
  Set.InjOn (fun q => (hkdf.expand q.1 q.2 4).map formatSas) made

/-! ## Sessions -/

/-- The three keys of the transcript, and the secret both sides share. -/
structure Transcript where
  shared : Key
  pkNew : Key
  pkSrc : Key
  devicePk : Key
deriving DecidableEq

namespace Transcript

/-- The derivation of the AEAD key. -/
def forKey (t : Transcript) : Derivation :=
  (t.shared.toList, (Purpose.pairingAead t.pkNew t.pkSrc t.devicePk).info)

/-- The derivation of the SAS. -/
def forSas (t : Transcript) : Derivation :=
  (t.shared.toList, (Purpose.pairingSas t.pkNew t.pkSrc t.devicePk).info)

/-- A derivation for a purpose that says the three keys comes from one transcript. -/
theorem derivation_inj {P : Key → Key → Key → Purpose}
    (hP : ∀ a b c a' b' c', P a b c = P a' b' c' → a = a' ∧ b = b' ∧ c = c') {t t' : Transcript}
    (h : (t.shared.toList, (P t.pkNew t.pkSrc t.devicePk).info) =
      (t'.shared.toList, (P t'.pkNew t'.pkSrc t'.devicePk).info)) : t = t' := by
  obtain ⟨z, a, b, c⟩ := t
  obtain ⟨z', a', b', c'⟩ := t'
  obtain ⟨hz, hinfo⟩ := Prod.mk.inj h
  obtain ⟨rfl, rfl, rfl⟩ := hP _ _ _ _ _ _ (Purpose.info_injective hinfo)
  obtain rfl : z = z' := List.Vector.toList_injective hz
  rfl

theorem forKey_injective : Function.Injective forKey := fun _ _ h =>
  derivation_inj (fun _ _ _ _ _ _ => Purpose.pairingAead.inj) h

theorem forSas_injective : Function.Injective forSas := fun _ _ h =>
  derivation_inj (fun _ _ _ _ _ _ => Purpose.pairingSas.inj) h

/-- The key and the SAS of the transcript. -/
def Derives (s : Suite) (t : Transcript) (key : Key) (sas : String) : Prop :=
  derive s t.shared.toList t.pkNew.toList t.pkSrc.toList t.devicePk.toList = .ok (key, sas)

/-- A derivation of 32 bytes and one of 4 bytes succeed. -/
theorem exists_derives (s : Suite) (t : Transcript) : ∃ key sas, t.Derives s key sas := by
  have hlen : keyLen ≤ 255 * 32 := by decide
  obtain ⟨key, hkey⟩ := s.hkdf.exists_expand t.forKey.1 t.forKey.2 hlen
  obtain ⟨sas, hsas⟩ := s.hkdf.exists_expand t.forSas.1 t.forSas.2 (show 4 ≤ 255 * 32 by decide)
  exact ⟨key, formatSas sas, derive_keys_eq_ok.mpr ⟨hkey, congrArg (Option.map formatSas) hsas⟩⟩

section Derives

variable {t t' : Transcript} {key key' : Key} {sas sas' : String} {made : Set Transcript}

theorem Derives.unique (h : t.Derives s key sas) (h' : t.Derives s key' sas') :
    key = key' ∧ sas = sas' := Prod.mk.inj (Except.ok.inj (h.symm.trans h'))

theorem Derives.eq_of_sas (hsas : s.hkdf.SasDistinct (forSas '' made)) (ht : t ∈ made)
    (ht' : t' ∈ made) (h : t.Derives s key sas) (h' : t'.Derives s key' sas) : t = t' := by
  have heq := (derive_keys_eq_ok.mp h).2.trans (derive_keys_eq_ok.mp h').2.symm
  exact forSas_injective (hsas ⟨t, ht, rfl⟩ ⟨t', ht', rfl⟩ heq)

theorem Derives.eq_of_key (hkeys : s.hkdf.KeysDistinct (forKey '' made)) (ht : t ∈ made)
    (ht' : t' ∈ made) (h : t.Derives s key sas) (h' : t'.Derives s key sas') : t = t' := by
  have heq := (derive_keys_eq_ok.mp h).1.trans (derive_keys_eq_ok.mp h').1.symm
  exact forKey_injective (hkeys ⟨t, ht, rfl⟩ ⟨t', ht', rfl⟩ heq)

end Derives

end Transcript

/-- The source's side of the transcript. -/
def sourceTranscript (s : Suite) (secret : Key) (request : PairingRequest) : Transcript where
  shared := s.x25519.diffieHellman secret request.publicKey
  pkNew := request.publicKey
  pkSrc := s.x25519.publicKey secret
  devicePk := request.devicePublicKey

/-- The new device's side of the transcript. -/
def newDeviceTranscript (s : Suite) (state : PairingState) (hello : PairingHello) :
    Transcript where
  shared := s.x25519.diffieHellman state.secret hello.sourcePublic
  pkNew := s.x25519.publicKey state.secret
  pkSrc := hello.sourcePublic
  devicePk := state.devicePublicKey

/-! ## An honest pairing -/

/-- The five calls, each on what the other side sent. -/
def honestPairing (s : Suite) (newSecret : Key) (pairingId : List.Vector UInt8 pairingIdLen)
    (sourceSecret : Key) (nonce : List.Vector UInt8 xnonceLen)
    (devicePk accountId vaultKey : Bytes) :
    Except Error (PairingSourceBegin × PairingConfirm × PairingOpenResult) := do
  let start ← pairingStart s (.ok newSecret) (.ok pairingId) devicePk
  let begun ← pairingSourceBegin s (.ok sourceSecret) start.qr
  let confirm ← pairingNewDeviceConfirm s start.state begun.hello
  let sealed ← pairingSourceSeal s (.ok nonce) begun.state accountId vaultKey
  let opened ← pairingOpen s confirm.state sealed
  pure (begun, confirm, opened)

/-- **An honest pairing succeeds**, whatever is drawn and for every vault key whose payload the
AEAD takes: both sides show the same SAS, the source reads the device key, and the new device
gets the account and the vault key. -/
theorem honestPairing_eq_ok (s : Suite) (hcomm : s.x25519.Commutes) (hopens : s.aead.Opens)
    (newSecret sourceSecret devicePk : Key) (pairingId : List.Vector UInt8 pairingIdLen)
    (nonce : List.Vector UInt8 xnonceLen) (accountId : List.Vector UInt8 accountIdLen)
    (vaultKey : Bytes)
    (hlen : (Wire.encode (PairingPayload.mk accountId vaultKey)).length ≤ s.aead.maxLen) :
    ∃ begun confirm, honestPairing s newSecret pairingId sourceSecret nonce devicePk.toList
        accountId.toList vaultKey = .ok (begun, confirm, ⟨vaultKey, accountId.toList⟩) ∧
      begun.sas = confirm.sas ∧ begun.devicePublicKey = devicePk.toList := by
  let request : PairingRequest := ⟨pairingId, s.x25519.publicKey newSecret, devicePk⟩
  let state : PairingState := ⟨newSecret, pairingId, devicePk⟩
  let hello : PairingHello := ⟨s.x25519.publicKey sourceSecret⟩
  let payload : PairingPayload := ⟨accountId, vaultKey⟩
  -- both sides derive from one transcript
  obtain ⟨key, sas, hsource⟩ := (sourceTranscript s sourceSecret request).exists_derives s
  have hnew : (newDeviceTranscript s state hello).Derives s key sas := by
    unfold newDeviceTranscript
    rw [hcomm]
    exact hsource
  have hvault : payload.vaultKey.length < 2 ^ 64 := by
    have hle := payload.length_encode
    have hmax := s.aead.maxLen_lt
    change (Wire.encode payload).length ≤ s.aead.maxLen at hlen
    omega
  obtain ⟨c, hc⟩ := Aead.exists_seal nonce key hlen
  have hsealed := Aead.sealed_of_seal hc
  refine ⟨⟨Wire.encode (PairingSessionState.mk key), Wire.encode hello, sas, devicePk.toList⟩,
    ⟨Wire.encode (PairingSessionState.mk key), sas⟩, ?_, rfl, rfl⟩
  unfold honestPairing
  rw [bind_eq_ok]
  refine ⟨_, pairingStart_eq_ok.mpr ⟨devicePk, newSecret, pairingId, rfl, rfl, rfl, rfl⟩, ?_⟩
  rw [bind_eq_ok]
  refine ⟨_, pairingSourceBegin_eq_ok.mpr ⟨request, sourceSecret, key, sas,
    Codec.decode_encoding request.fits, rfl, hsource, rfl⟩, ?_⟩
  rw [bind_eq_ok]
  refine ⟨_, pairingNewDeviceConfirm_eq_ok.mpr ⟨state, hello, key, sas,
    Codec.decode_encoding state.fits, Codec.decode_encoding hello.fits, hnew, rfl⟩, ?_⟩
  rw [bind_eq_ok]
  refine ⟨_, pairingSourceSeal_eq_ok.mpr ⟨accountId, ⟨key⟩, c, rfl,
    Codec.decode_encoding (PairingSessionState.fits _), hc, rfl⟩, ?_⟩
  rw [bind_eq_ok]
  exact ⟨_, pairingOpen_eq_ok.mpr ⟨⟨key⟩, c, Wire.encode payload, payload,
    Codec.decode_encoding (PairingSessionState.fits _), Codec.decode_encoding hsealed.fits,
    Aead.open_of_sealed hopens hsealed, Codec.decode_encoding (PairingPayload.fits hvault),
    rfl⟩, rfl⟩

theorem honestPairing_transparent : ∃ begun confirm,
    honestPairing .transparent (.replicate 32 5) (.replicate 16 1) (.replicate 32 8)
        (.replicate 24 2) (.replicate 32 3) (.replicate 16 7) (.replicate 300 42) =
      .ok (begun, confirm, ⟨.replicate 300 42, .replicate 16 7⟩) ∧
    begun.sas = confirm.sas ∧ begun.devicePublicKey = .replicate 32 3 :=
  honestPairing_eq_ok .transparent Suite.transparent_commutes Suite.transparent_opens
    (.replicate 32 5) (.replicate 32 8) (.replicate 32 3) (.replicate 16 1) (.replicate 24 2)
    (.replicate 16 7) (.replicate 300 42) (by decide +kernel)

/-! ## Interleaved sessions -/

/-- A new device that has started, with what it drew. -/
structure NewDevice where
  devicePk : Key
  secret : Key
  pairingId : List.Vector UInt8 pairingIdLen
  start : PairingStart

/-- What the code keeps for it. -/
def NewDevice.state (d : NewDevice) : PairingState := ⟨d.secret, d.pairingId, d.devicePk⟩

/-- A source that has begun on a QR code, with what it drew. -/
structure Source where
  secret : Key
  qr : Bytes
  begun : PairingSourceBegin

/-- A new device that has confirmed a hello. -/
structure Confirmation where
  device : NewDevice
  hello : Bytes
  confirm : PairingConfirm

/-- A blob that a source has sealed. -/
structure Sealing where
  source : Source
  sealed : Bytes

/-- A blob that a new device has opened. -/
structure Opening where
  confirmation : Confirmation
  sealed : Bytes
  result : PairingOpenResult

/-- All sessions so far, of all devices. -/
structure Pairings where
  devices : List NewDevice
  sources : List Source
  confirmations : List Confirmation
  sealings : List Sealing
  openings : List Opening

/-- One call, by the session at an index; the attacker chooses the bytes it receives. -/
inductive PairingCall where
  | start (devicePk secret : Key) (pairingId : List.Vector UInt8 pairingIdLen)
  | sourceBegin (secret : Key) (qr : Bytes)
  | confirm (device : ℕ) (hello : Bytes)
  | sourceSeal (source : ℕ) (nonce : List.Vector UInt8 xnonceLen) (accountId vaultKey : Bytes)
  | openSealed (confirmation : ℕ) (sealed : Bytes)

namespace Pairings

def init : Pairings := ⟨[], [], [], [], []⟩

/-- A call that returns adds its session; one that fails leaves no trace. -/
def step (s : Suite) (n : Pairings) : PairingCall → Option Pairings
  | .start devicePk secret pairingId => do
    let start ← (pairingStart s (.ok secret) (.ok pairingId) devicePk.toList).toOption
    some { n with devices := ⟨devicePk, secret, pairingId, start⟩ :: n.devices }
  | .sourceBegin secret qr => do
    let begun ← (pairingSourceBegin s (.ok secret) qr).toOption
    some { n with sources := ⟨secret, qr, begun⟩ :: n.sources }
  | .confirm device hello => do
    let d ← n.devices[device]?
    let confirm ← (pairingNewDeviceConfirm s d.start.state hello).toOption
    some { n with confirmations := ⟨d, hello, confirm⟩ :: n.confirmations }
  | .sourceSeal source nonce accountId vaultKey => do
    let src ← n.sources[source]?
    let sealed ← (pairingSourceSeal s (.ok nonce) src.begun.state accountId vaultKey).toOption
    some { n with sealings := ⟨src, sealed⟩ :: n.sealings }
  | .openSealed confirmation sealed => do
    let q ← n.confirmations[confirmation]?
    let result ← (pairingOpen s q.confirm.state sealed).toOption
    some { n with openings := ⟨q, sealed, result⟩ :: n.openings }

/-- The reachable systems. -/
abbrev Reachable (s : Suite) : Pairings → Prop := Reaches (step s) .init

def exec (s : Suite) (calls : List PairingCall) : Option Pairings := calls.foldlM (step s) .init

/-- Every session holds what the code made of what it drew and received. -/
structure Faithful (s : Suite) (n : Pairings) : Prop where
  devices : ∀ d ∈ n.devices,
    pairingStart s (.ok d.secret) (.ok d.pairingId) d.devicePk.toList = .ok d.start
  sources : ∀ src ∈ n.sources, pairingSourceBegin s (.ok src.secret) src.qr = .ok src.begun
  confirmations : ∀ q ∈ n.confirmations, q.device ∈ n.devices ∧
    pairingNewDeviceConfirm s q.device.start.state q.hello = .ok q.confirm
  sealings : ∀ b ∈ n.sealings, b.source ∈ n.sources ∧ ∃ draw accountId vaultKey,
    pairingSourceSeal s draw b.source.begun.state accountId vaultKey = .ok b.sealed
  openings : ∀ o ∈ n.openings, o.confirmation ∈ n.confirmations ∧
    pairingOpen s o.confirmation.confirm.state o.sealed = .ok o.result

theorem toOption_eq_some {α : Type} {x : Except Error α} {a : α} :
    x.toOption = some a ↔ x = .ok a := by
  cases x <;> simp [Except.toOption]

theorem Faithful.step {n n' : Pairings} {call : PairingCall} (h : Faithful s n)
    (hstep : n.step s call = some n') : Faithful s n' := by
  cases call with
  | start devicePk secret pairingId =>
    obtain ⟨r, hr, hn⟩ := Option.bind_eq_some_iff.mp hstep
    obtain rfl := Option.some.inj hn
    refine { h with devices := ?_, confirmations := ?_ }
    · exact List.forall_mem_cons.mpr ⟨toOption_eq_some.mp hr, h.devices⟩
    · exact fun q hq => ⟨List.mem_cons_of_mem _ (h.confirmations q hq).1,
        (h.confirmations q hq).2⟩
  | sourceBegin secret qr =>
    obtain ⟨r, hr, hn⟩ := Option.bind_eq_some_iff.mp hstep
    obtain rfl := Option.some.inj hn
    refine { h with sources := ?_, sealings := ?_ }
    · exact List.forall_mem_cons.mpr ⟨toOption_eq_some.mp hr, h.sources⟩
    · exact fun b hb => ⟨List.mem_cons_of_mem _ (h.sealings b hb).1, (h.sealings b hb).2⟩
  | confirm device hello =>
    obtain ⟨d, hd, hrest⟩ := Option.bind_eq_some_iff.mp hstep
    obtain ⟨r, hr, hn⟩ := Option.bind_eq_some_iff.mp hrest
    obtain rfl := Option.some.inj hn
    refine { h with confirmations := ?_, openings := ?_ }
    · exact List.forall_mem_cons.mpr
        ⟨⟨List.mem_of_getElem? hd, toOption_eq_some.mp hr⟩, h.confirmations⟩
    · exact fun o ho => ⟨List.mem_cons_of_mem _ (h.openings o ho).1, (h.openings o ho).2⟩
  | sourceSeal source nonce accountId vaultKey =>
    obtain ⟨src, hsrc, hrest⟩ := Option.bind_eq_some_iff.mp hstep
    obtain ⟨r, hr, hn⟩ := Option.bind_eq_some_iff.mp hrest
    obtain rfl := Option.some.inj hn
    refine { h with sealings := List.forall_mem_cons.mpr ⟨?_, h.sealings⟩ }
    exact ⟨List.mem_of_getElem? hsrc, .ok nonce, accountId, vaultKey, toOption_eq_some.mp hr⟩
  | openSealed confirmation sealed =>
    obtain ⟨q, hq, hrest⟩ := Option.bind_eq_some_iff.mp hstep
    obtain ⟨r, hr, hn⟩ := Option.bind_eq_some_iff.mp hrest
    obtain rfl := Option.some.inj hn
    refine { h with openings := List.forall_mem_cons.mpr ⟨?_, h.openings⟩ }
    exact ⟨List.mem_of_getElem? hq, toOption_eq_some.mp hr⟩

theorem faithful_init : Faithful s .init := by
  constructor <;> exact fun _ h => absurd h List.not_mem_nil

theorem Reachable.faithful {n : Pairings} (h : Reachable s n) : Faithful s n :=
  h.invariant faithful_init fun _ _ _ ih hs => ih.step hs

/-! ## The transcript binds -/

/-- The transcripts the sessions derived from. -/
def fed (s : Suite) (n : Pairings) : List Transcript :=
  n.sources.filterMap (fun src =>
      (Codec.decode src.qr).toOption.map (sourceTranscript s src.secret)) ++
    n.confirmations.filterMap fun q =>
      (Codec.decode q.hello).toOption.map (newDeviceTranscript s q.device.state)

variable {n : Pairings} {src : Source} {q : Confirmation}

theorem Faithful.source (h : Faithful s n) (hsrc : src ∈ n.sources) :
    ∃ (request : PairingRequest) (key : Key) (sas : String), Codec.decode src.qr = .ok request ∧
      sourceTranscript s src.secret request ∈ n.fed s ∧
      (sourceTranscript s src.secret request).Derives s key sas ∧
      src.begun.state = Wire.encode (PairingSessionState.mk key) ∧ src.begun.sas = sas := by
  obtain ⟨request, secret, key, sas, hqr, hdraw, hder, hr⟩ :=
    pairingSourceBegin_eq_ok.mp (h.sources src hsrc)
  obtain rfl := Except.ok.inj hdraw
  refine ⟨request, key, sas, hqr, ?_, hder, by rw [← hr], by rw [← hr]⟩
  refine List.mem_append_left _ (List.mem_filterMap.mpr ⟨src, hsrc, ?_⟩)
  rw [hqr]
  rfl

theorem Faithful.confirmation (h : Faithful s n) (hq : q ∈ n.confirmations) :
    ∃ (hello : PairingHello) (key : Key) (sas : String), Codec.decode q.hello = .ok hello ∧
      newDeviceTranscript s q.device.state hello ∈ n.fed s ∧
      (newDeviceTranscript s q.device.state hello).Derives s key sas ∧
      q.confirm.state = Wire.encode (PairingSessionState.mk key) ∧ q.confirm.sas = sas := by
  obtain ⟨hdev, hconfirm⟩ := h.confirmations q hq
  obtain ⟨devicePk, secret, pairingId, hpk, hsecret, hid, hstart⟩ :=
    pairingStart_eq_ok.mp (h.devices q.device hdev)
  obtain rfl := List.Vector.toList_injective hpk
  obtain rfl := Except.ok.inj hsecret
  obtain rfl := Except.ok.inj hid
  rw [← hstart] at hconfirm
  obtain ⟨state, hello, key, sas, hstate, hhello, hder, hr⟩ :=
    pairingNewDeviceConfirm_eq_ok.mp hconfirm
  obtain rfl : state = q.device.state := Codec.eq_of_decode (PairingState.fits _) hstate
  refine ⟨hello, key, sas, hhello, ?_, hder, by rw [← hr], by rw [← hr]⟩
  refine List.mem_append_right _ (List.mem_filterMap.mpr ⟨q, hq, ?_⟩)
  rw [hhello]
  rfl

/-- The keys that each side read are the other side's own. -/
def Unaltered (s : Suite) (src : Source) (d : NewDevice) (request : PairingRequest)
    (hello : PairingHello) : Prop :=
  request.publicKey = s.x25519.publicKey d.secret ∧ request.devicePublicKey = d.devicePk ∧
    hello.sourcePublic = s.x25519.publicKey src.secret

/-- Both sides derive from one transcript when nothing was altered, and then only. -/
theorem transcript_eq_iff (hcomm : s.x25519.Commutes) {d : NewDevice} {request : PairingRequest}
    {hello : PairingHello} :
    sourceTranscript s src.secret request = newDeviceTranscript s d.state hello ↔
      Unaltered s src d request hello := by
  constructor
  · intro h
    exact ⟨congrArg Transcript.pkNew h, congrArg Transcript.devicePk h,
      (congrArg Transcript.pkSrc h).symm⟩
  · rintro ⟨hnew, hdev, hsrc⟩
    unfold sourceTranscript newDeviceTranscript
    rw [hnew, hdev, hsrc, hcomm]
    rfl

/-- A blob sealed under one key opens under no other. -/
theorem key_eq_of_open (hauth : s.aead.Authentic) (hcom : s.aead.Committing) {key key' : Key}
    {draw : Draw xnonceLen} {accountId vaultKey sealed : Bytes} {r : PairingOpenResult}
    (hseal : pairingSourceSeal s draw (Wire.encode (PairingSessionState.mk key)) accountId
      vaultKey = .ok sealed)
    (hopen : pairingOpen s (Wire.encode (PairingSessionState.mk key')) sealed = .ok r) :
    key' = key := by
  obtain ⟨account, session, c, -, hsession, hc, rfl⟩ := pairingSourceSeal_eq_ok.mp hseal
  obtain ⟨session', c', plaintext, payload, hsession', hc', hplain, -, -⟩ :=
    pairingOpen_eq_ok.mp hopen
  have hsealed := Aead.sealed_of_seal hc
  obtain rfl := Codec.eq_of_decode hsealed.fits hc'
  obtain rfl := Codec.eq_of_decode (PairingSessionState.fits _) hsession
  obtain rfl := Codec.eq_of_decode (PairingSessionState.fits _) hsession'
  exact hsealed.key_eq hcom (Aead.sealed_of_open hauth hplain)

/-- What the SAS of a source and of a new device say about what they read: they are equal when
nothing was altered, and then only; the sides then hold the same state, and otherwise nothing
the source seals opens for the new device. -/
structure Bound (s : Suite) (n : Pairings) (src : Source) (q : Confirmation)
    (request : PairingRequest) (hello : PairingHello) : Prop where
  sas : src.begun.sas = q.confirm.sas ↔ Unaltered s src q.device request hello
  state : Unaltered s src q.device request hello → src.begun.state = q.confirm.state
  refused : ¬ Unaltered s src q.device request hello → ∀ draw accountId vaultKey sealed,
    pairingSourceSeal s draw src.begun.state accountId vaultKey = .ok sealed →
      ∀ r, pairingOpen s q.confirm.state sealed ≠ .ok r
  opened : ∀ b ∈ n.sealings, b.source = src → ∀ o ∈ n.openings, o.confirmation = q →
    o.sealed = b.sealed → Unaltered s src q.device request hello

/-- **The SAS binds both devices to one transcript**, whatever was done to the messages of any
number of interleaved sessions. -/
theorem sas_binds (s : Suite) (hcomm : s.x25519.Commutes) (hauth : s.aead.Authentic)
    (hcom : s.aead.Committing) (n : Pairings) (hn : Reachable s n)
    (hkeys : s.hkdf.KeysDistinct (Transcript.forKey '' {t | t ∈ n.fed s}))
    (hsas : s.hkdf.SasDistinct (Transcript.forSas '' {t | t ∈ n.fed s})) (src : Source)
    (hsrc : src ∈ n.sources) (q : Confirmation) (hq : q ∈ n.confirmations) :
    ∃ request hello, Codec.decode src.qr = .ok request ∧ Codec.decode q.hello = .ok hello ∧
      Bound s n src q request hello := by
  have hf := hn.faithful
  obtain ⟨request, key, sas, hqr, hfed, hder, hstate, hsasv⟩ := hf.source hsrc
  obtain ⟨hello, key', sas', hhello, hfed', hder', hstate', hsasv'⟩ := hf.confirmation hq
  have hiff : sourceTranscript s src.secret request = newDeviceTranscript s q.device.state hello ↔
      Unaltered s src q.device request hello := transcript_eq_iff hcomm
  have hrefused : ¬ Unaltered s src q.device request hello → ∀ draw accountId vaultKey sealed,
      pairingSourceSeal s draw src.begun.state accountId vaultKey = .ok sealed →
        ∀ r, pairingOpen s q.confirm.state sealed ≠ .ok r := by
    intro halt draw accountId vaultKey sealed hseal r hopen
    rw [hstate] at hseal
    rw [hstate'] at hopen
    obtain rfl := key_eq_of_open hauth hcom hseal hopen
    exact halt (hiff.mp (hder.eq_of_key hkeys hfed hfed' hder'))
  refine ⟨request, hello, hqr, hhello, ⟨fun h => ?_, fun h => ?_⟩, fun h => ?_, hrefused,
    fun b hb hbs o ho hoq hsealed => ?_⟩
  · rw [hsasv, hsasv'] at h
    subst h
    exact hiff.mp (hder.eq_of_sas hsas hfed hfed' hder')
  · rw [hiff.mpr h] at hder
    rw [hsasv, hsasv', (hder.unique hder').2]
  · rw [hiff.mpr h] at hder
    rw [hstate, hstate', (hder.unique hder').1]
  · by_contra halt
    obtain ⟨-, draw, accountId, vaultKey, hseal⟩ := hf.sealings b hb
    rw [hbs] at hseal
    have hopen := (hf.openings o ho).2
    rw [hoq, hsealed] at hopen
    exact hrefused halt draw accountId vaultKey b.sealed hseal o.result hopen

/-- A device shows its QR code; one source begins on it, another on a copy with a device key of
the attacker's. The device confirms the hello of the first, which then seals. -/
def attacked : List PairingCall :=
  [.start (.replicate 32 3) (.replicate 32 5) (.replicate 16 1),
    .sourceBegin (.replicate 32 8) (Wire.encode
      (PairingRequest.mk (.replicate 16 1) (.replicate 32 5) (.replicate 32 3))),
    .sourceBegin (.replicate 32 8) (Wire.encode
      (PairingRequest.mk (.replicate 16 1) (.replicate 32 5) (.replicate 32 6))),
    .confirm 0 (Wire.encode (PairingHello.mk (.replicate 32 8))),
    .sourceSeal 1 (.replicate 24 2) (.replicate 16 7) [42, 43]]

theorem sas_binds_attacked : ∃ n, Reachable .transparent n ∧ n.sources.length = 2 ∧
    n.confirmations.length = 1 ∧ n.sealings.length = 1 ∧
    (n.sources.map fun src => src.begun.sas).Nodup ∧
    ∀ src ∈ n.sources, ∀ q ∈ n.confirmations, ∃ request hello,
      Codec.decode src.qr = .ok request ∧ Codec.decode q.hello = .ok hello ∧
        Bound .transparent n src q request hello := by
  have h : (exec .transparent attacked).any (fun n => n.sources.length = 2 ∧
      n.confirmations.length = 1 ∧ n.sealings.length = 1 ∧
      (n.sources.map fun src => src.begun.sas).Nodup ∧
      (∀ t ∈ n.fed .transparent, ∀ t' ∈ n.fed .transparent,
        Suite.transparent.hkdf.expand t.forKey.1 t.forKey.2 keyLen =
          Suite.transparent.hkdf.expand t'.forKey.1 t'.forKey.2 keyLen → t = t') ∧
      ∀ t ∈ n.fed .transparent, ∀ t' ∈ n.fed .transparent,
        (Suite.transparent.hkdf.expand t.forSas.1 t.forSas.2 4).map formatSas =
          (Suite.transparent.hkdf.expand t'.forSas.1 t'.forSas.2 4).map formatSas →
            t = t') = true := by
    decide +kernel
  obtain ⟨n, hexec, h⟩ := (Option.any_eq_true _ _).mp h
  obtain ⟨hlen, hconf, hseal, hnodup, hkeys, hsas⟩ := of_decide_eq_true h
  have hn : Reachable .transparent n := Reaches.exec hexec
  refine ⟨n, hn, hlen, hconf, hseal, hnodup, fun src hsrc q hq => ?_⟩
  refine sas_binds .transparent Suite.transparent_commutes Suite.transparent_authentic
    Suite.transparent_committing n hn ?_ ?_ src hsrc q hq
  · rintro _ ⟨t, ht, rfl⟩ _ ⟨t', ht', rfl⟩ heq
    rw [hkeys t ht t' ht' heq]
  · rintro _ ⟨t, ht, rfl⟩ _ ⟨t', ht', rfl⟩ heq
    rw [hsas t ht t' ht' heq]

end Pairings

end RealmGuard
