import RealmGuard.Crypto.DeviceKey
import RealmGuard.Lib.Steps
import RealmGuard.PairingRuns

/-!
# The device registry

A paired device signs in by signing a challenge with the key it published. In a `Registry`
devices generate key pairs and pair, on bytes that an attacker puts in their way. The key
that a source read is enrolled once the user has found the SAS of both sides equal, and the
answer to a challenge is any bytes. The key enrolled is then the key of the device whose SAS
was compared, so that this device can sign in, and no other (`Registry.authenticates`).
-/

namespace RealmGuard

open Lib (Reaches)
open Lib.Postcard (Wire)

/-- A device key, published when the SAS of a source and of a new device were equal. -/
structure Enrolment where
  source : Source
  confirmation : Confirmation

/-- The key that the server holds. -/
def Enrolment.publicKey (r : Enrolment) : Bytes := r.source.begun.devicePublicKey

/-- The identity key of the device whose SAS was compared. -/
def Enrolment.devicePk (r : Enrolment) : Key := r.confirmation.device.devicePk

structure Challenge where
  enrolment : Enrolment
  nonce : Bytes

/-- What a device has signed. -/
structure Signed where
  keypair : DeviceKeypair
  message : Bytes
  signature : Bytes

/-- A challenge, with an answer that was accepted. -/
structure SignIn where
  challenge : Challenge
  signature : Bytes

/-- The devices, their pairings, and what the server has kept and accepted. -/
structure Registry where
  keypairs : List DeviceKeypair
  pairings : Pairings
  enrolments : List Enrolment
  challenges : List Challenge
  signed : List Signed
  signIns : List SignIn

/-- A call, by or on what stands at an index; the attacker chooses what pairing messages and
answers are. -/
inductive RegistryCall where
  | generate (seed : Seed)
  | pair (call : PairingCall)
  | enrol (source confirmation : ℕ)
  | challenge (enrolment : ℕ) (nonce : Bytes)
  | sign (keypair : ℕ) (message : Bytes)
  | answer (challenge : ℕ) (signature : Bytes)

namespace Registry

def init : Registry := ⟨[], .init, [], [], [], []⟩

/-- A call that returns adds what it returned; one that fails or is refused leaves no trace. -/
def step (s : Suite) (e : Ed25519) (n : Registry) : RegistryCall → Option Registry
  | .generate seed => do
    let keypair ← (generateDeviceKeypair e (.ok seed)).toOption
    some { n with keypairs := keypair :: n.keypairs }
  | .pair call => do
    let pairings ← n.pairings.step s call
    some { n with pairings := pairings }
  | .enrol source confirmation => do
    let src ← n.pairings.sources[source]?
    let q ← n.pairings.confirmations[confirmation]?
    if src.begun.sas = q.confirm.sas then
      some { n with enrolments := ⟨src, q⟩ :: n.enrolments }
    else none
  | .challenge enrolment nonce => do
    let r ← n.enrolments[enrolment]?
    some { n with challenges := ⟨r, nonce⟩ :: n.challenges }
  | .sign keypair message => do
    let k ← n.keypairs[keypair]?
    let signature ← (deviceSign e k.secret message).toOption
    some { n with signed := ⟨k, message, signature⟩ :: n.signed }
  | .answer challenge signature => do
    let c ← n.challenges[challenge]?
    if deviceVerify e c.enrolment.publicKey c.nonce signature = true then
      some { n with signIns := ⟨c, signature⟩ :: n.signIns }
    else none

/-- The reachable registries. -/
abbrev Reachable (s : Suite) (e : Ed25519) : Registry → Prop := Reaches (step s e) .init

end Registry

/-! ## What the steps keep -/

variable {s : Suite} {e : Ed25519}

/-- Sessions stay. -/
theorem Pairings.step_subset {n n' : Pairings} {call : PairingCall}
    (h : n.step s call = some n') :
    n.sources ⊆ n'.sources ∧ n.confirmations ⊆ n'.confirmations := by
  cases call with
  | start devicePk secret pairingId =>
    obtain ⟨r, -, hn⟩ := Option.bind_eq_some_iff.mp h
    obtain rfl := Option.some.inj hn
    exact ⟨List.Subset.refl _, List.Subset.refl _⟩
  | sourceBegin secret qr =>
    obtain ⟨r, -, hn⟩ := Option.bind_eq_some_iff.mp h
    obtain rfl := Option.some.inj hn
    exact ⟨List.subset_cons_self _ _, List.Subset.refl _⟩
  | confirm device hello =>
    obtain ⟨d, -, hrest⟩ := Option.bind_eq_some_iff.mp h
    obtain ⟨r, -, hn⟩ := Option.bind_eq_some_iff.mp hrest
    obtain rfl := Option.some.inj hn
    exact ⟨List.Subset.refl _, List.subset_cons_self _ _⟩
  | sourceSeal source nonce accountId vaultKey =>
    obtain ⟨src, -, hrest⟩ := Option.bind_eq_some_iff.mp h
    obtain ⟨r, -, hn⟩ := Option.bind_eq_some_iff.mp hrest
    obtain rfl := Option.some.inj hn
    exact ⟨List.Subset.refl _, List.Subset.refl _⟩
  | openSealed confirmation sealed =>
    obtain ⟨q, -, hrest⟩ := Option.bind_eq_some_iff.mp h
    obtain ⟨r, -, hn⟩ := Option.bind_eq_some_iff.mp hrest
    obtain rfl := Option.some.inj hn
    exact ⟨List.Subset.refl _, List.Subset.refl _⟩

namespace Registry

/-- What was enrolled comes from sessions that showed one SAS. -/
def Compared (n : Pairings) (r : Enrolment) : Prop :=
  r.source ∈ n.sources ∧ r.confirmation ∈ n.confirmations ∧
    r.source.begun.sas = r.confirmation.confirm.sas

/-- What holds of every reachable registry. -/
structure Sound (s : Suite) (e : Ed25519) (n : Registry) : Prop where
  keypairs : ∀ k ∈ n.keypairs, ∃ draw, generateDeviceKeypair e draw = .ok k
  pairings : n.pairings.Faithful s
  enrolments : ∀ r ∈ n.enrolments, Compared n.pairings r
  challenges : ∀ c ∈ n.challenges, c.enrolment ∈ n.enrolments
  signIns : ∀ l ∈ n.signIns, l.challenge ∈ n.challenges ∧
    deviceVerify e l.challenge.enrolment.publicKey l.challenge.nonce l.signature = true

theorem Sound.init (s : Suite) (e : Ed25519) : Sound s e .init where
  keypairs := fun _ h => absurd h List.not_mem_nil
  pairings := Pairings.faithful_init
  enrolments := fun _ h => absurd h List.not_mem_nil
  challenges := fun _ h => absurd h List.not_mem_nil
  signIns := fun _ h => absurd h List.not_mem_nil

variable {n n' : Registry}

theorem Sound.step {call : RegistryCall} (h : Sound s e n) (hstep : n.step s e call = some n') :
    Sound s e n' := by
  cases call with
  | generate seed =>
    obtain ⟨k, hk, hn⟩ : ∃ k, (generateDeviceKeypair e (.ok seed)).toOption = some k ∧
        some { n with keypairs := k :: n.keypairs } = some n' := Option.bind_eq_some_iff.mp hstep
    obtain rfl := Option.some.inj hn
    refine { h with keypairs := List.forall_mem_cons.mpr ⟨?_, h.keypairs⟩ }
    exact ⟨_, Pairings.toOption_eq_some.mp hk⟩
  | pair call =>
    obtain ⟨pairings, hp, hn⟩ := Option.bind_eq_some_iff.mp hstep
    obtain rfl := Option.some.inj hn
    obtain ⟨hsources, hconfirmations⟩ := Pairings.step_subset hp
    refine { h with pairings := h.pairings.step hp, enrolments := fun r hr => ?_ }
    obtain ⟨hsrc, hq, hsas⟩ := h.enrolments r hr
    exact ⟨hsources hsrc, hconfirmations hq, hsas⟩
  | enrol source confirmation =>
    obtain ⟨src, hsrc, hrest⟩ := Option.bind_eq_some_iff.mp hstep
    obtain ⟨q, hq, hrest⟩ := Option.bind_eq_some_iff.mp hrest
    obtain ⟨hsas, hn⟩ := Option.ite_none_right_eq_some.mp hrest
    obtain rfl := Option.some.inj hn
    refine { h with enrolments := List.forall_mem_cons.mpr ⟨?_, h.enrolments⟩, challenges := ?_ }
    · exact ⟨List.mem_of_getElem? hsrc, List.mem_of_getElem? hq, hsas⟩
    · exact fun c hc => List.mem_cons_of_mem _ (h.challenges c hc)
  | challenge enrolment nonce =>
    obtain ⟨r, hr, hn⟩ := Option.bind_eq_some_iff.mp hstep
    obtain rfl := Option.some.inj hn
    refine { h with challenges := List.forall_mem_cons.mpr ⟨?_, h.challenges⟩, signIns := ?_ }
    · exact List.mem_of_getElem? hr
    · exact fun l hl => ⟨List.mem_cons_of_mem _ (h.signIns l hl).1, (h.signIns l hl).2⟩
  | sign keypair message =>
    obtain ⟨k, -, hrest⟩ := Option.bind_eq_some_iff.mp hstep
    obtain ⟨signature, -, hn⟩ := Option.bind_eq_some_iff.mp hrest
    obtain rfl := Option.some.inj hn
    exact { h with }
  | answer challenge signature =>
    obtain ⟨c, hc, hrest⟩ := Option.bind_eq_some_iff.mp hstep
    obtain ⟨hverify, hn⟩ := Option.ite_none_right_eq_some.mp hrest
    obtain rfl := Option.some.inj hn
    refine { h with signIns := List.forall_mem_cons.mpr ⟨?_, h.signIns⟩ }
    exact ⟨List.mem_of_getElem? hc, hverify⟩

theorem Reachable.sound (hn : Reachable s e n) : Sound s e n :=
  hn.invariant (.init s e) fun _ _ _ h hstep => h.step hstep

/-! ## Who signs in -/

/-- Sessions that show one SAS agree on the device key. -/
theorem publicKey_of_compared {p : Pairings} (hf : p.Faithful s)
    (hsas : s.hkdf.SasDistinct (Transcript.forSas '' {t | t ∈ p.fed s})) {r : Enrolment}
    (hr : Compared p r) : r.publicKey = r.devicePk.toList := by
  obtain ⟨hsrc, hq, heq⟩ := hr
  obtain ⟨request, key, sas, hqr, hfed, hder, -, hshown⟩ := hf.source hsrc
  obtain ⟨hello, key', sas', -, hfed', hder', -, hshown'⟩ := hf.confirmation hq
  rw [hshown, hshown'] at heq
  subst heq
  have htranscript := hder.eq_of_sas hsas hfed hfed' hder'
  have hdevice : request.devicePublicKey = r.devicePk := congrArg Transcript.devicePk htranscript
  obtain ⟨request', secret, key'', sas'', hqr', -, -, hbegun⟩ :=
    pairingSourceBegin_eq_ok.mp (hf.sources r.source hsrc)
  obtain rfl := Except.ok.inj (hqr.symm.trans hqr')
  unfold Enrolment.publicKey
  rw [← hbegun, ← hdevice]

/-- No answer was accepted, under the key of a device, on a challenge that it did not sign. -/
def Unforged (e : Ed25519) (n : Registry) : Prop :=
  ∀ l ∈ n.signIns, ∀ k ∈ n.keypairs,
    deviceVerify e k.publicKey l.challenge.nonce l.signature = true →
      ∃ g ∈ n.signed, g.keypair = k ∧ g.message = l.challenge.nonce

/-- The server holds the key of the device whose SAS was compared; this device can answer
every challenge, and a challenge that was answered is one that it signed. -/
structure Authenticated (s : Suite) (e : Ed25519) (n : Registry) : Prop where
  enrolled : ∀ r ∈ n.enrolments, r.publicKey = r.devicePk.toList
  answered : ∀ i c, n.challenges[i]? = some c → ∀ k ∈ n.keypairs,
    k.publicKey = c.enrolment.devicePk.toList → ∃ signature n',
      deviceSign e k.secret c.nonce = .ok signature ∧
        n.step s e (.answer i signature) = some n' ∧ ⟨c, signature⟩ ∈ n'.signIns
  signedIn : ∀ l ∈ n.signIns, l.challenge.enrolment ∈ n.enrolments ∧ ∀ k ∈ n.keypairs,
    k.publicKey = l.challenge.enrolment.devicePk.toList →
      ∃ g ∈ n.signed, g.keypair = k ∧ g.message = l.challenge.nonce

/-- **The device whose SAS was compared signs in, and no other**, whatever was done to the
messages of its pairing and whoever answers. -/
theorem authenticates (s : Suite) (e : Ed25519) (hreads : e.Reads) (hsigns : e.Signs)
    (n : Registry) (hn : Reachable s e n)
    (hsas : s.hkdf.SasDistinct (Transcript.forSas '' {t | t ∈ n.pairings.fed s}))
    (hunforged : Unforged e n) : Authenticated s e n := by
  have hs := hn.sound
  have henrolled : ∀ r ∈ n.enrolments, r.publicKey = r.devicePk.toList := fun r hr =>
    publicKey_of_compared hs.pairings hsas (hs.enrolments r hr)
  refine ⟨henrolled, fun i c hc k hk hpk => ?_, fun l hl => ?_⟩
  · obtain ⟨draw, hdraw⟩ := hs.keypairs k hk
    obtain ⟨signature, hsign⟩ := exists_deviceSign hdraw c.nonce
    have hverify := deviceVerify_deviceSign hreads hsigns hdraw hsign
    have henrolment := hs.challenges c (List.mem_of_getElem? hc)
    rw [hpk, ← henrolled c.enrolment henrolment] at hverify
    refine ⟨signature, { n with signIns := ⟨c, signature⟩ :: n.signIns }, hsign, ?_,
      List.mem_cons_self⟩
    exact Option.bind_eq_some_iff.mpr ⟨c, hc, if_pos hverify⟩
  · obtain ⟨hc, hverify⟩ := hs.signIns l hl
    have henrolment := hs.challenges l.challenge hc
    refine ⟨henrolment, fun k hk hpk => hunforged l hl k hk ?_⟩
    rw [hpk, ← henrolled _ henrolment]
    exact hverify

/-- A device pairs with its own key; one source begins on its QR code, another on a copy with a
device key of the attacker's. The first is enrolled, and the device answers a challenge. -/
def oneSignIn : List RegistryCall :=
  let signature := Ed25519.transparent.sign (.replicate 32 3) [4, 2]
  [.generate (.replicate 32 3),
    .pair (.start (.replicate 32 3) (.replicate 32 5) (.replicate 16 1)),
    .pair (.sourceBegin (.replicate 32 8) (Wire.encode
      (PairingRequest.mk (.replicate 16 1) (.replicate 32 5) (.replicate 32 6)))),
    .pair (.sourceBegin (.replicate 32 8) (Wire.encode
      (PairingRequest.mk (.replicate 16 1) (.replicate 32 5) (.replicate 32 3)))),
    .pair (.confirm 0 (Wire.encode (PairingHello.mk (.replicate 32 8)))),
    .enrol 0 0, .challenge 0 [4, 2], .sign 0 [4, 2], .answer 0 signature.toList]

theorem authenticates_oneSignIn : ∃ n, Reachable .transparent .transparent n ∧
    n.signIns.length = 1 ∧ Authenticated .transparent .transparent n := by
  have h : (oneSignIn.foldlM (step .transparent .transparent) .init).any (fun n =>
      n.signIns.length = 1 ∧
      (∀ t ∈ n.pairings.fed .transparent, ∀ t' ∈ n.pairings.fed .transparent,
        (Suite.transparent.hkdf.expand t.forSas.1 t.forSas.2 4).map formatSas =
          (Suite.transparent.hkdf.expand t'.forSas.1 t'.forSas.2 4).map formatSas → t = t') ∧
      ∀ l ∈ n.signIns, ∀ k ∈ n.keypairs,
        deviceVerify .transparent k.publicKey l.challenge.nonce l.signature = true →
          ∃ g ∈ n.signed, g.keypair = k ∧ g.message = l.challenge.nonce) = true := by
    decide +kernel
  obtain ⟨n, hexec, h⟩ := (Option.any_eq_true _ _).mp h
  obtain ⟨hlen, hsas, hunforged⟩ := of_decide_eq_true h
  have hn : Reachable .transparent .transparent n := Reaches.exec hexec
  refine ⟨n, hn, hlen, ?_⟩
  refine authenticates .transparent .transparent Ed25519.transparent_reads
    Ed25519.transparent_signs n hn ?_ hunforged
  rintro _ ⟨t, ht, rfl⟩ _ ⟨t', ht', rfl⟩ heq
  rw [hsas t ht t' ht' heq]

end Registry

end RealmGuard
