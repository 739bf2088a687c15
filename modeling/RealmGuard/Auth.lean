import RealmGuard.Crypto.Suite

/-!
# Authentication by password

OPAQUE registration and login (`auth/mod.rs`): eight calls on serialised messages and states,
four of them the server's. What `opaque-ke` computes between the bytes is the parameter
`OpaqueKe`, and the draws of the system generator are arguments. Each call reads its inputs,
runs one step of the protocol and serialises what comes out; the `_eq_ok` lemmas say from
which values, and `_serialize` what a call returns on the bytes of a value.
-/

namespace RealmGuard

/-- A type of `opaque-ke` with its wire format, which is read back. -/
structure Wired where
  Carrier : Type
  serialize : Carrier → Bytes
  deserialize : Bytes → Option Carrier
  reads : ∀ x, deserialize (serialize x) = some x

instance : CoeSort Wired Type := ⟨Wired.Carrier⟩

/-- The steps of OPAQUE over one cipher suite. A login that finishes yields a message, the
session key and the exported key. -/
structure OpaqueKe where
  Rng : Type
  ServerSetup : Wired
  ClientRegistration : Wired
  RegistrationRequest : Wired
  RegistrationResponse : Wired
  RegistrationUpload : Wired
  ServerRegistration : Wired
  ClientLogin : Wired
  CredentialRequest : Wired
  CredentialResponse : Wired
  ServerLogin : Wired
  CredentialFinalization : Wired
  newSetup : Rng → ServerSetup
  startRegistration : Rng → (password : Bytes) → Option (ClientRegistration × RegistrationRequest)
  answerRegistration : ServerSetup → RegistrationRequest → (username : Bytes) →
    Option RegistrationResponse
  finishRegistration : ClientRegistration → Rng → (password : Bytes) → RegistrationResponse →
    Option (RegistrationUpload × Bytes)
  storeRegistration : RegistrationUpload → ServerRegistration
  startLogin : Rng → (password : Bytes) → Option (ClientLogin × CredentialRequest)
  answerLogin : Rng → ServerSetup → Option ServerRegistration → CredentialRequest →
    (username : Bytes) → Option (ServerLogin × CredentialResponse)
  finishLogin : ClientLogin → Rng → (password : Bytes) → CredentialResponse →
    Option (CredentialFinalization × Bytes × Bytes)
  acceptLogin : ServerLogin → CredentialFinalization → Option Bytes

/-- `.map_err(|_| Error::Auth(message))`. -/
def orAuth {α : Type} (message : String) : Option α → Except Error α
  | some a => .ok a
  | none => .error (.auth message)

@[simp] theorem orAuth_eq_ok {α : Type} {message : String} {o : Option α} {a : α} :
    orAuth message o = .ok a ↔ o = some a := by
  cases o <;> simp [orAuth]

structure ClientRegistrationStart where
  state : Bytes
  request : Bytes

structure ClientRegistrationFinish where
  upload : Bytes
  exportKey : Bytes

structure ClientLoginStart where
  state : Bytes
  request : Bytes

structure ServerLoginStart where
  state : Bytes
  response : Bytes

structure ClientLoginFinish where
  finalization : Bytes
  sessionKey : Bytes
  exportKey : Bytes

section Calls

variable (o : OpaqueKe)

def generateServerSetup (rng : o.Rng) : Bytes := o.ServerSetup.serialize (o.newSetup rng)

def loadServerSetup (bytes : Bytes) : Except Error o.ServerSetup :=
  orAuth "server setup invalide" (o.ServerSetup.deserialize bytes)

/-! ## Registration -/

def clientRegisterStart (rng : o.Rng) (password : Bytes) :
    Except Error ClientRegistrationStart := do
  let (state, message) ← orAuth "register start (client)" (o.startRegistration rng password)
  pure ⟨o.ClientRegistration.serialize state, o.RegistrationRequest.serialize message⟩

def serverRegisterStart (serverSetup request username : Bytes) : Except Error Bytes := do
  let setup ← loadServerSetup o serverSetup
  let request ← orAuth "registration request invalide" (o.RegistrationRequest.deserialize request)
  let message ← orAuth "register start (serveur)" (o.answerRegistration setup request username)
  pure (o.RegistrationResponse.serialize message)

def clientRegisterFinish (rng : o.Rng) (state password response : Bytes) :
    Except Error ClientRegistrationFinish := do
  let state ← orAuth "état d'enregistrement invalide" (o.ClientRegistration.deserialize state)
  let response ← orAuth "registration response invalide"
    (o.RegistrationResponse.deserialize response)
  let (message, exportKey) ← orAuth "register finish (client)"
    (o.finishRegistration state rng password response)
  pure ⟨o.RegistrationUpload.serialize message, exportKey⟩

/-- The password file of an upload. -/
def serverRegisterFinish (upload : Bytes) : Except Error Bytes := do
  let upload ← orAuth "registration upload invalide" (o.RegistrationUpload.deserialize upload)
  pure (o.ServerRegistration.serialize (o.storeRegistration upload))

/-! ## Login -/

def clientLoginStart (rng : o.Rng) (password : Bytes) : Except Error ClientLoginStart := do
  let (state, message) ← orAuth "login start (client)" (o.startLogin rng password)
  pure ⟨o.ClientLogin.serialize state, o.CredentialRequest.serialize message⟩

/-- Without a password file the user is unknown, and is answered all the same. -/
def serverLoginStart (rng : o.Rng) (serverSetup : Bytes) (passwordFile : Option Bytes)
    (request username : Bytes) : Except Error ServerLoginStart := do
  let setup ← loadServerSetup o serverSetup
  let passwordFile ← match passwordFile with
    | some bytes =>
      some <$> orAuth "password file invalide" (o.ServerRegistration.deserialize bytes)
    | none => pure none
  let request ← orAuth "credential request invalide" (o.CredentialRequest.deserialize request)
  let (state, message) ← orAuth "login start (serveur)"
    (o.answerLogin rng setup passwordFile request username)
  pure ⟨o.ServerLogin.serialize state, o.CredentialResponse.serialize message⟩

def clientLoginFinish (rng : o.Rng) (state password response : Bytes) :
    Except Error ClientLoginFinish := do
  let state ← orAuth "état de connexion invalide" (o.ClientLogin.deserialize state)
  let response ← orAuth "credential response invalide" (o.CredentialResponse.deserialize response)
  let (message, sessionKey, exportKey) ← orAuth "mot de passe invalide"
    (o.finishLogin state rng password response)
  pure ⟨o.CredentialFinalization.serialize message, sessionKey, exportKey⟩

/-- The session key of the server. -/
def serverLoginFinish (state finalization : Bytes) : Except Error Bytes := do
  let state ← orAuth "état de connexion serveur invalide" (o.ServerLogin.deserialize state)
  let finalization ← orAuth "credential finalization invalide"
    (o.CredentialFinalization.deserialize finalization)
  orAuth "login finish (serveur)" (o.acceptLogin state finalization)

end Calls

/-! ## What they return -/

section Returns

variable {o : OpaqueKe} {rng : o.Rng}

theorem loadServerSetup_generate :
    loadServerSetup o (generateServerSetup o rng) = .ok (o.newSetup rng) :=
  orAuth_eq_ok.mpr (o.ServerSetup.reads _)

theorem clientRegisterStart_eq_ok {password : Bytes} {r : ClientRegistrationStart} :
    clientRegisterStart o rng password = .ok r ↔ ∃ state request,
      o.startRegistration rng password = some (state, request) ∧
        ⟨o.ClientRegistration.serialize state, o.RegistrationRequest.serialize request⟩ = r := by
  unfold clientRegisterStart
  simp

theorem serverRegisterStart_serialize {setupRng : o.Rng} {request : o.RegistrationRequest}
    {username response : Bytes} :
    serverRegisterStart o (generateServerSetup o setupRng)
        (o.RegistrationRequest.serialize request) username = .ok response ↔
      ∃ message, o.answerRegistration (o.newSetup setupRng) request username = some message ∧
        o.RegistrationResponse.serialize message = response := by
  unfold serverRegisterStart
  simp [loadServerSetup_generate, Wired.reads]

theorem clientRegisterFinish_serialize {state : o.ClientRegistration} {password : Bytes}
    {response : o.RegistrationResponse} {r : ClientRegistrationFinish} :
    clientRegisterFinish o rng (o.ClientRegistration.serialize state) password
        (o.RegistrationResponse.serialize response) = .ok r ↔
      ∃ upload exportKey, o.finishRegistration state rng password response =
          some (upload, exportKey) ∧ ⟨o.RegistrationUpload.serialize upload, exportKey⟩ = r := by
  unfold clientRegisterFinish
  simp [Wired.reads]

theorem serverRegisterFinish_serialize {upload : o.RegistrationUpload} :
    serverRegisterFinish o (o.RegistrationUpload.serialize upload) =
      .ok (o.ServerRegistration.serialize (o.storeRegistration upload)) := by
  unfold serverRegisterFinish
  rw [o.RegistrationUpload.reads]
  rfl

theorem clientLoginStart_eq_ok {password : Bytes} {r : ClientLoginStart} :
    clientLoginStart o rng password = .ok r ↔ ∃ state request,
      o.startLogin rng password = some (state, request) ∧
        ⟨o.ClientLogin.serialize state, o.CredentialRequest.serialize request⟩ = r := by
  unfold clientLoginStart
  simp

theorem serverLoginStart_serialize {setupRng : o.Rng} {file : Option o.ServerRegistration}
    {request : o.CredentialRequest} {username : Bytes} {r : ServerLoginStart} :
    serverLoginStart o rng (generateServerSetup o setupRng)
        (file.map o.ServerRegistration.serialize) (o.CredentialRequest.serialize request)
        username = .ok r ↔
      ∃ state response, o.answerLogin rng (o.newSetup setupRng) file request username =
          some (state, response) ∧
        ⟨o.ServerLogin.serialize state, o.CredentialResponse.serialize response⟩ = r := by
  unfold serverLoginStart
  cases file <;> simp [loadServerSetup_generate, Wired.reads]

theorem clientLoginFinish_serialize {state : o.ClientLogin} {password : Bytes}
    {response : o.CredentialResponse} :
    clientLoginFinish o rng (o.ClientLogin.serialize state) password
        (o.CredentialResponse.serialize response) =
      match o.finishLogin state rng password response with
      | some (message, sessionKey, exportKey) =>
        .ok ⟨o.CredentialFinalization.serialize message, sessionKey, exportKey⟩
      | none => .error (.auth "mot de passe invalide") := by
  unfold clientLoginFinish
  rw [o.ClientLogin.reads, o.CredentialResponse.reads]
  show (orAuth _ (o.finishLogin state rng password response) >>= _) = _
  rcases o.finishLogin state rng password response with _ | ⟨message, sessionKey, exportKey⟩
  · rfl
  · rfl

theorem serverLoginFinish_serialize {state : o.ServerLogin}
    {message : o.CredentialFinalization} {sessionKey : Bytes} :
    serverLoginFinish o (o.ServerLogin.serialize state)
        (o.CredentialFinalization.serialize message) = .ok sessionKey ↔
      o.acceptLogin state message = some sessionKey := by
  unfold serverLoginFinish
  simp [Wired.reads]

end Returns

/-! ## What OPAQUE promises -/

namespace OpaqueKe

variable (o : OpaqueKe)

/-- The client and the server have registered a password for a user. -/
def Registered (setup : o.ServerSetup) (username password : Bytes) (upload : o.RegistrationUpload)
    (exportKey : Bytes) : Prop :=
  ∃ rng rng' state request response, o.startRegistration rng password = some (state, request) ∧
    o.answerRegistration setup request username = some response ∧
      o.finishRegistration state rng' password response = some (upload, exportKey)

/-- The server has answered the request of a client. -/
def Answered (setup : o.ServerSetup) (passwordFile : Option o.ServerRegistration)
    (username password : Bytes) (state : o.ClientLogin) (serverState : o.ServerLogin)
    (response : o.CredentialResponse) : Prop :=
  ∃ rng rng' request, o.startLogin rng password = some (state, request) ∧
    o.answerLogin rng' setup passwordFile request username = some (serverState, response)

/-- A login with the password that was registered gives both sides one session key, and the
client the key exported at registration; any other fails for the client. -/
def Correct : Prop := ∀ setup username password password' upload exportKey state serverState
    response rng, o.Registered setup username password upload exportKey →
  o.Answered setup (some (o.storeRegistration upload)) username password' state serverState
    response →
  (password' = password → ∃ message sessionKey,
    o.finishLogin state rng password' response = some (message, sessionKey, exportKey) ∧
      o.acceptLogin serverState message = some sessionKey) ∧
  (password' ≠ password → o.finishLogin state rng password' response = none)

/-- A login as a user who is not registered fails for the client. -/
def RefusesUnknown : Prop := ∀ setup username password state serverState response rng,
  o.Answered setup none username password state serverState response →
    o.finishLogin state rng password response = none

end OpaqueKe

/-! ## OPAQUE that hides nothing -/

/-- Byte strings as they are. -/
def Wired.bytes : Wired := ⟨Bytes, id, some, fun _ => rfl⟩

/-- Byte strings or nothing, behind a first byte. -/
def Wired.optional : Wired where
  Carrier := Option Bytes
  serialize := fun
    | none => []
    | some bytes => 0 :: bytes
  deserialize := fun
    | [] => some none
    | _ :: bytes => some (some bytes)
  reads := fun x => by cases x <;> rfl

namespace OpaqueKe

/-- The password is the password file and the exported key, and the session key is the password
behind the draw of the server. -/
def transparent : OpaqueKe where
  Rng := UInt8
  ServerSetup := .bytes
  ClientRegistration := .bytes
  RegistrationRequest := .bytes
  RegistrationResponse := .bytes
  RegistrationUpload := .bytes
  ServerRegistration := .bytes
  ClientLogin := .bytes
  CredentialRequest := .bytes
  CredentialResponse := .optional
  ServerLogin := .bytes
  CredentialFinalization := .bytes
  newSetup := fun rng => [rng]
  startRegistration := fun _ password => some (password, password)
  answerRegistration := fun _ request _ => some request
  finishRegistration := fun _ _ password _ => some (password, password)
  storeRegistration := fun upload => upload
  startLogin := fun rng password => some (password, rng :: password)
  answerLogin := fun rng _ file _ _ => match file with
    | some password => some (rng :: password, some (rng :: password))
    | none => some ([], none)
  finishLogin := fun _ _ password response => match response with
    | some (rng :: file) =>
      if file = password then some (rng :: password, rng :: password, password) else none
    | _ => none
  acceptLogin := fun (state message : Bytes) => if state = message then some state else none

instance (k : ℕ) : OfNat transparent.Rng k := inferInstanceAs (OfNat UInt8 k)

theorem transparent_correct : transparent.Correct := by
  rintro setup username password password' upload exportKey state serverState response rng
    ⟨_, _, _, _, _, -, -, hfinish⟩ ⟨_, rng', _, -, hanswer⟩
  obtain ⟨rfl, rfl⟩ := Prod.mk.inj (Option.some.inj hfinish)
  obtain ⟨rfl, rfl⟩ := Prod.mk.inj (Option.some.inj hanswer)
  constructor
  · rintro rfl
    exact ⟨rng' :: password', rng' :: password', if_pos rfl, if_pos rfl⟩
  · intro hpw
    exact if_neg (Ne.symm hpw)

theorem transparent_refusesUnknown : transparent.RefusesUnknown := by
  rintro setup username password state serverState response rng ⟨_, _, _, -, hanswer⟩
  obtain ⟨rfl, rfl⟩ := Prod.mk.inj (Option.some.inj hanswer)
  rfl

end OpaqueKe

end RealmGuard
