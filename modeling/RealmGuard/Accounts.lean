import RealmGuard.Auth
import RealmGuard.Keyring

/-!
# Accounts on the server

What the server keeps of an account is a password file and a blob: the vault key, wrapped
under the password and sealed once more under the key that OPAQUE exports. In `Accounts`
users register and register anew, and logins run interleaved on requests, responses and
finalizations that anyone may have made or moved from one session to another. A client that
finishes holds what opens the blob of the account it was answered for, and the server then
accepts with the session key of that client (`Accounts.served`).
-/

namespace RealmGuard

open Lib (Reaches)

/-! ## Sessions -/

/-- What the server keeps of a registration, with what the client registered: the password, the
vault key and the exported key stay with the client. -/
structure Account where
  username : Bytes
  password : Bytes
  salt : Salt
  vaultKey : VaultKey
  exportKey : Bytes
  passwordFile : Bytes
  blob : Bytes

/-- A client that has started to log in. -/
structure LoginStart where
  password : Bytes
  start : ClientLoginStart

/-- A request that the server has answered, from the account it has for the user, if any, with
all the accounts of that time. -/
structure LoginAnswer where
  username : Bytes
  request : Bytes
  account : Option Account
  start : ServerLoginStart
  registered : List Account

/-- A client that has finished on a response. -/
structure LoginFinish where
  login : LoginStart
  response : Bytes
  finish : ClientLoginFinish

/-- A finalization that the server has accepted. -/
structure LoginAccept where
  answer : LoginAnswer
  finalization : Bytes
  sessionKey : Bytes

/-- All accounts, the newest first, and all sessions so far. -/
structure Accounts where
  accounts : List Account
  logins : List LoginStart
  answers : List LoginAnswer
  finished : List LoginFinish
  accepted : List LoginAccept

/-- A call, by the session at an index; the bytes that it receives are anyone's. -/
inductive AccountCall (o : OpaqueKe) where
  | register (username password : Bytes) (salt : Salt) (vaultKey : VaultKey) (rng rng' : o.Rng)
    (nonce nonce' : List.Vector UInt8 xnonceLen)
  | start (password : Bytes) (rng : o.Rng)
  | answer (username request : Bytes) (rng : o.Rng)
  | finish (login : ℕ) (response : Bytes) (rng : o.Rng)
  | accept (answer : ℕ) (finalization : Bytes)

/-- The four calls of a registration, each on what the other side sent: the password file and
the exported key. -/
def register (o : OpaqueKe) (rng rng' : o.Rng) (serverSetup username password : Bytes) :
    Except Error (Bytes × Bytes) := do
  let start ← clientRegisterStart o rng password
  let response ← serverRegisterStart o serverSetup start.request username
  let finish ← clientRegisterFinish o rng' start.state password response
  let passwordFile ← serverRegisterFinish o finish.upload
  pure (passwordFile, finish.exportKey)

/-- The vault key, wrapped under the password and sealed under the exported key. -/
def serverBlob (s : Suite) (a : Argon2) (nonce nonce' : Draw xnonceLen) (exportKey password : Bytes)
    (salt : Salt) (vaultKey : VaultKey) : Except Error Bytes := do
  let stored ← (Lock.master password salt).store s a nonce [] vaultKey.bytes.toList
  exportSealed s nonce' exportKey stored

namespace Accounts

def init : Accounts := ⟨[], [], [], [], []⟩

variable (s : Suite) (a : Argon2) (o : OpaqueKe)

/-- A call that returns adds its session; one that fails leaves no trace. -/
def step (serverSetup : Bytes) (n : Accounts) : AccountCall o → Option Accounts
  | .register username password salt vaultKey rng rng' nonce nonce' => do
    let (passwordFile, exportKey) ←
      (register o rng rng' serverSetup username password).toOption
    let blob ← (serverBlob s a (.ok nonce) (.ok nonce') exportKey password salt vaultKey).toOption
    some { n with accounts :=
      ⟨username, password, salt, vaultKey, exportKey, passwordFile, blob⟩ :: n.accounts }
  | .start password rng => do
    let start ← (clientLoginStart o rng password).toOption
    some { n with logins := ⟨password, start⟩ :: n.logins }
  | .answer username request rng => do
    let account := n.accounts.find? (·.username = username)
    let start ← (serverLoginStart o rng serverSetup (account.map Account.passwordFile) request
      username).toOption
    some { n with answers := ⟨username, request, account, start, n.accounts⟩ :: n.answers }
  | .finish login response rng => do
    let l ← n.logins[login]?
    let finish ← (clientLoginFinish o rng l.start.state l.password response).toOption
    some { n with finished := ⟨l, response, finish⟩ :: n.finished }
  | .accept answer finalization => do
    let x ← n.answers[answer]?
    let sessionKey ← (serverLoginFinish o x.start.state finalization).toOption
    some { n with accepted := ⟨x, finalization, sessionKey⟩ :: n.accepted }

/-- The reachable systems, under one server setup. -/
abbrev Reachable (setupRng : o.Rng) : Accounts → Prop :=
  Reaches (step s a o (generateServerSetup o setupRng)) .init

end Accounts

/-! ## What the steps keep -/

variable {s : Suite} {a : Argon2} {o : OpaqueKe} {setupRng : o.Rng}

/-- The account holds what a registration made. -/
structure Account.Made (s : Suite) (a : Argon2) (o : OpaqueKe) (setupRng : o.Rng) (acc : Account) :
    Prop where
  registered : ∃ upload, o.Registered (o.newSetup setupRng) acc.username acc.password upload
      acc.exportKey ∧
    acc.passwordFile = o.ServerRegistration.serialize (o.storeRegistration upload)
  locked : ∃ layers, Locked s a acc.vaultKey (.master acc.password acc.salt) [acc.exportKey] layers
    acc.blob

theorem registered_of_register {rng rng' : o.Rng} {username password passwordFile exportKey : Bytes}
    (h : register o rng rng' (generateServerSetup o setupRng) username password =
      .ok (passwordFile, exportKey)) :
    ∃ upload, o.Registered (o.newSetup setupRng) username password upload exportKey ∧
      passwordFile = o.ServerRegistration.serialize (o.storeRegistration upload) := by
  unfold register at h
  simp only [bind_eq_ok] at h
  obtain ⟨start, hstart, response, hresponse, finish, hfinish, file, hfile, hr⟩ := h
  obtain ⟨state, request, hstarted, rfl⟩ := clientRegisterStart_eq_ok.mp hstart
  obtain ⟨message, hanswered, rfl⟩ := serverRegisterStart_serialize.mp hresponse
  obtain ⟨upload, key, hfinished, rfl⟩ := clientRegisterFinish_serialize.mp hfinish
  rw [serverRegisterFinish_serialize] at hfile
  obtain rfl := Except.ok.inj hfile
  obtain ⟨rfl, rfl⟩ := Prod.mk.inj (Except.ok.inj hr)
  exact ⟨upload, ⟨rng, rng', state, request, message, hstarted, hanswered, hfinished⟩, rfl⟩

theorem locked_of_serverBlob {nonce nonce' : Draw xnonceLen} {exportKey password blob : Bytes}
    {salt : Salt} {vaultKey : VaultKey}
    (h : serverBlob s a nonce nonce' exportKey password salt vaultKey = .ok blob) :
    ∃ layers, Locked s a vaultKey (.master password salt) [exportKey] layers blob := by
  unfold serverBlob exportSealed at h
  simp only [bind_eq_ok] at h
  obtain ⟨stored, hstored, c, hc, hencode⟩ := h
  obtain rfl := Except.ok.inj hencode
  obtain ⟨l, hlocked, rfl⟩ := Lock.locked_of_store hstored
  obtain ⟨key, hkey, hseal⟩ := sealWithExportKey_eq_ok.mp hc
  exact ⟨[⟨key, c⟩, l], .exported (l := ⟨key, c⟩) (blobKey_eq_ok.mpr hkey) (.base hlocked)
    (Aead.sealed_of_seal hseal)⟩

namespace Accounts

/-- The answer was made from the newest account that the user had at the time: of the accounts
that there are, the newest may have come later. -/
structure Had (accounts : List Account) (x : LoginAnswer) : Prop where
  registered : x.registered <:+ accounts
  account : x.account = x.registered.find? (·.username = x.username)

/-- What holds of every reachable system. -/
structure Sound (s : Suite) (a : Argon2) (o : OpaqueKe) (setupRng : o.Rng) (n : Accounts) :
    Prop where
  accounts : ∀ acc ∈ n.accounts, acc.Made s a o setupRng
  logins : ∀ l ∈ n.logins, ∃ rng, clientLoginStart o rng l.password = .ok l.start
  answers : ∀ x ∈ n.answers, Had n.accounts x ∧ ∃ rng,
    serverLoginStart o rng (generateServerSetup o setupRng)
      (x.account.map Account.passwordFile) x.request x.username = .ok x.start
  finished : ∀ f ∈ n.finished, f.login ∈ n.logins ∧
    ∃ rng, clientLoginFinish o rng f.login.start.state f.login.password f.response = .ok f.finish
  accepted : ∀ d ∈ n.accepted, d.answer ∈ n.answers ∧
    serverLoginFinish o d.answer.start.state d.finalization = .ok d.sessionKey

theorem Sound.init (s : Suite) (a : Argon2) (o : OpaqueKe) (setupRng : o.Rng) :
    Sound s a o setupRng .init := by
  constructor <;> exact fun _ h => absurd h List.not_mem_nil

variable {n n' : Accounts}

theorem Sound.step {call : AccountCall o} (h : Sound s a o setupRng n)
    (hstep : n.step s a o (generateServerSetup o setupRng) call = some n') :
    Sound s a o setupRng n' := by
  cases call with
  | register username password salt vaultKey rng rng' nonce nonce' =>
    obtain ⟨⟨passwordFile, exportKey⟩, hfile, hrest⟩ := Option.bind_eq_some_iff.mp hstep
    obtain ⟨blob, hblob, hn⟩ := Option.bind_eq_some_iff.mp hrest
    obtain rfl := Option.some.inj hn
    refine { h with accounts := List.forall_mem_cons.mpr ⟨?_, h.accounts⟩, answers := ?_ }
    · exact ⟨registered_of_register (Pairings.toOption_eq_some.mp hfile),
        locked_of_serverBlob (Pairings.toOption_eq_some.mp hblob)⟩
    · intro x hx
      obtain ⟨hhad, hstart⟩ := h.answers x hx
      exact ⟨{ hhad with registered := hhad.registered.trans (List.suffix_cons _ _) }, hstart⟩
  | start password rng =>
    obtain ⟨start, hstart, hn⟩ := Option.bind_eq_some_iff.mp hstep
    obtain rfl := Option.some.inj hn
    refine { h with logins := List.forall_mem_cons.mpr ⟨?_, h.logins⟩, finished := ?_ }
    · exact ⟨rng, Pairings.toOption_eq_some.mp hstart⟩
    · exact fun f hf => ⟨List.mem_cons_of_mem _ (h.finished f hf).1, (h.finished f hf).2⟩
  | answer username request rng =>
    obtain ⟨start, hstart, hn⟩ := Option.bind_eq_some_iff.mp hstep
    obtain rfl := Option.some.inj hn
    refine { h with answers := List.forall_mem_cons.mpr ⟨?_, h.answers⟩, accepted := ?_ }
    · exact ⟨⟨List.suffix_rfl, rfl⟩, rng, Pairings.toOption_eq_some.mp hstart⟩
    · exact fun d hd => ⟨List.mem_cons_of_mem _ (h.accepted d hd).1, (h.accepted d hd).2⟩
  | finish login response rng =>
    obtain ⟨l, hl, hrest⟩ := Option.bind_eq_some_iff.mp hstep
    obtain ⟨finish, hfinish, hn⟩ := Option.bind_eq_some_iff.mp hrest
    obtain rfl := Option.some.inj hn
    refine { h with finished := List.forall_mem_cons.mpr ⟨?_, h.finished⟩ }
    exact ⟨List.mem_of_getElem? hl, rng, Pairings.toOption_eq_some.mp hfinish⟩
  | accept answer finalization =>
    obtain ⟨x, hx, hrest⟩ := Option.bind_eq_some_iff.mp hstep
    obtain ⟨sessionKey, hkey, hn⟩ := Option.bind_eq_some_iff.mp hrest
    obtain rfl := Option.some.inj hn
    refine { h with accepted := List.forall_mem_cons.mpr ⟨?_, h.accepted⟩ }
    exact ⟨List.mem_of_getElem? hx, Pairings.toOption_eq_some.mp hkey⟩

theorem Reachable.sound (hn : Reachable s a o setupRng n) : Sound s a o setupRng n :=
  hn.invariant (.init s a o setupRng) fun _ _ _ h hstep => h.step hstep

end Accounts

/-! ## How logins end -/

/-- What a device opens of an account, with a password and an exported key. -/
def Account.unlock (s : Suite) (a : Argon2) (acc : Account) (exportKey password : Bytes) :
    Except Error Bytes :=
  Attempt.unlock s a ⟨[exportKey], .master password acc.salt⟩ acc.blob

theorem Account.Made.unlock_eq (hopens : s.aead.Opens) {acc : Account}
    (h : acc.Made s a o setupRng) :
    acc.unlock s a acc.exportKey acc.password = .ok acc.vaultKey.bytes.toList := by
  obtain ⟨layers, hlocked⟩ := h.locked
  exact hlocked.unlock_answer hopens rfl rfl

/-- How a login ends on the answer to its request: with the session key of the server and an
exported key that opens the vault key, if the account has its password, and with an error
otherwise. -/
inductive Outcome (s : Suite) (a : Argon2) (o : OpaqueKe) (l : LoginStart) (x : LoginAnswer) :
    Except Error ClientLoginFinish → Prop where
  | opened {acc : Account} {r : ClientLoginFinish} : x.account = some acc →
    acc.password = l.password →
    serverLoginFinish o x.start.state r.finalization = .ok r.sessionKey →
    acc.unlock s a r.exportKey l.password = .ok acc.vaultKey.bytes.toList →
    Outcome s a o l x (.ok r)
  | refused : (∀ acc, x.account = some acc → acc.password ≠ l.password) →
    Outcome s a o l x (.error (.auth "mot de passe invalide"))

namespace Accounts

variable {n : Accounts} {l : LoginStart} {x : LoginAnswer}

theorem Had.mem {acc : Account} (h : Had n.accounts x) (hacc : x.account = some acc) :
    acc ∈ n.accounts ∧ acc.username = x.username := by
  have hfind := h.account.symm.trans hacc
  exact ⟨h.registered.subset (List.mem_of_find?_eq_some hfind), by
    simpa using List.find?_some hfind⟩

/-- The answer to a request, in terms of OPAQUE. -/
theorem Sound.answered (h : Sound s a o setupRng n) (hl : l ∈ n.logins) (hx : x ∈ n.answers)
    (hreq : x.request = l.start.request) (file : Option o.ServerRegistration)
    (hfile : x.account.map Account.passwordFile = file.map o.ServerRegistration.serialize) :
    ∃ state serverState response, l.start.state = o.ClientLogin.serialize state ∧
      x.start = ⟨o.ServerLogin.serialize serverState, o.CredentialResponse.serialize response⟩ ∧
      o.Answered (o.newSetup setupRng) file x.username l.password state serverState response := by
  obtain ⟨rng, hstart⟩ := h.logins l hl
  obtain ⟨state, request, hstarted, hl'⟩ := clientLoginStart_eq_ok.mp hstart
  obtain ⟨-, rng', hanswer⟩ := h.answers x hx
  rw [hreq, hfile, ← hl'] at hanswer
  obtain ⟨serverState, response, hanswered, hx'⟩ := serverLoginStart_serialize.mp hanswer
  exact ⟨state, serverState, response, by rw [← hl'], hx'.symm,
    rng, rng', request, hstarted, hanswered⟩

theorem Sound.outcome (hcorrect : o.Correct) (hunknown : o.RefusesUnknown)
    (hopens : s.aead.Opens) (h : Sound s a o setupRng n) (hl : l ∈ n.logins) (hx : x ∈ n.answers)
    (hreq : x.request = l.start.request) (rng : o.Rng) :
    Outcome s a o l x (clientLoginFinish o rng l.start.state l.password x.start.response) := by
  cases hacc : x.account with
  | none =>
    obtain ⟨state, serverState, response, hstate, hstart, hanswered⟩ :=
      h.answered hl hx hreq none (congrArg _ hacc)
    rw [hstate, hstart, clientLoginFinish_serialize, hunknown _ _ _ _ _ _ rng hanswered]
    exact .refused fun acc hsome => absurd (hacc.symm.trans hsome) (by simp)
  | some acc =>
    obtain ⟨hmem, hname⟩ := (h.answers x hx).1.mem hacc
    have hmade := h.accounts acc hmem
    obtain ⟨upload, hregistered, hfile⟩ := hmade.registered
    obtain ⟨state, serverState, response, hstate, hstart, hanswered⟩ :=
      h.answered hl hx hreq (some (o.storeRegistration upload))
        ((congrArg _ hacc).trans (congrArg some hfile))
    rw [hname] at hregistered
    obtain ⟨hright, hwrong⟩ := hcorrect _ _ _ _ _ _ _ _ _ rng hregistered hanswered
    rw [hstate, hstart, clientLoginFinish_serialize]
    by_cases hpw : l.password = acc.password
    · obtain ⟨message, sessionKey, hfinish, haccept⟩ := hright hpw
      rw [hfinish]
      refine .opened hacc hpw.symm ?_ ?_
      · rw [hstart]
        exact serverLoginFinish_serialize.mpr haccept
      · rw [hpw]
        exact hmade.unlock_eq hopens
    · rw [hwrong hpw]
      refine .refused fun acc' hsome => ?_
      obtain rfl := Option.some.inj (hacc.symm.trans hsome)
      exact Ne.symm hpw

/-- Clients finish on what the server made for their request, and the server accepts what a
client made for its response: nothing that was forged or moved between sessions. -/
structure Authentic (n : Accounts) : Prop where
  finished : ∀ f ∈ n.finished, ∃ x ∈ n.answers,
    x.request = f.login.start.request ∧ x.start.response = f.response
  accepted : ∀ d ∈ n.accepted, ∃ f ∈ n.finished, f.finish.finalization = d.finalization ∧
    d.answer.request = f.login.start.request ∧ d.answer.start.response = f.response

/-- The server answers from the account of a user that is the newest when it answers, and every
login on the answer to its request ends as its password says. Where messages are authentic, so
did every login that has finished, and the server has the session key of the client that it
accepted. -/
structure Served (s : Suite) (a : Argon2) (o : OpaqueKe) (n : Accounts) : Prop where
  had : ∀ x ∈ n.answers, Had n.accounts x
  outcome : ∀ l ∈ n.logins, ∀ x ∈ n.answers, x.request = l.start.request → ∀ rng,
    Outcome s a o l x (clientLoginFinish o rng l.start.state l.password x.start.response)
  finished : n.Authentic → ∀ f ∈ n.finished, ∃ x ∈ n.answers, x.start.response = f.response ∧
    Outcome s a o f.login x (.ok f.finish)
  accepted : n.Authentic → ∀ d ∈ n.accepted, ∃ f ∈ n.finished,
    f.response = d.answer.start.response ∧ f.finish.sessionKey = d.sessionKey ∧
      Outcome s a o f.login d.answer (.ok f.finish)

/-- **A login opens the vault key of the account**, for the password it was registered with and
no other, however sessions interleave. -/
theorem served (s : Suite) (a : Argon2) (o : OpaqueKe) (hcorrect : o.Correct)
    (hunknown : o.RefusesUnknown) (hopens : s.aead.Opens) (setupRng : o.Rng) (n : Accounts)
    (hn : Reachable s a o setupRng n) : Served s a o n := by
  have hs := hn.sound
  have houtcome : ∀ l ∈ n.logins, ∀ x ∈ n.answers, x.request = l.start.request → ∀ rng,
      Outcome s a o l x (clientLoginFinish o rng l.start.state l.password x.start.response) :=
    fun l hl x hx hreq rng => hs.outcome hcorrect hunknown hopens hl hx hreq rng
  have hfinish : ∀ f ∈ n.finished, ∀ x ∈ n.answers, x.request = f.login.start.request →
      x.start.response = f.response → Outcome s a o f.login x (.ok f.finish) := by
    intro f hf x hx hreq hresponse
    obtain ⟨hl, rng, hok⟩ := hs.finished f hf
    rw [← hok, ← hresponse]
    exact houtcome f.login hl x hx hreq rng
  refine ⟨fun x hx => (hs.answers x hx).1, houtcome, fun hn f hf => ?_, fun hn d hd => ?_⟩
  · obtain ⟨x, hx, hreq, hresponse⟩ := hn.finished f hf
    exact ⟨x, hx, hresponse, hfinish f hf x hx hreq hresponse⟩
  · obtain ⟨hx, hkey⟩ := hs.accepted d hd
    obtain ⟨f, hf, hfinal, hreq, hresponse⟩ := hn.accepted d hd
    have hends := hfinish f hf d.answer hx hreq hresponse
    refine ⟨f, hf, hresponse.symm, ?_, hends⟩
    cases hends with
    | opened _ _ hsession _ =>
      rw [hfinal, hkey] at hsession
      exact (Except.ok.inj hsession).symm

/-- A user registers, has a login answered, and registers anew. A login with the newer password is
answered too, finishes and is accepted. -/
def passwordChanged : List (AccountCall .transparent) :=
  let nonce : List.Vector UInt8 xnonceLen := .replicate 24 2
  let vaultKey : VaultKey := ⟨.replicate 32 7⟩
  [.register [97] [112, 119] (.replicate 32 9) vaultKey 0 0 nonce nonce,
    .start [112, 119] 1, .answer [97] [1, 112, 119] 2,
    .register [97] [113] (.replicate 32 9) vaultKey 0 0 nonce nonce,
    .start [113] 3, .answer [97] [3, 113] 4, .finish 0 [0, 4, 113] 5, .accept 0 [4, 113]]

theorem served_passwordChanged : ∃ n, Reachable .transparent .transparent .transparent 8 n ∧
    n.answers.map (fun x => x.registered.length) = [2, 1] ∧ n.accepted.length = 1 ∧ n.Authentic ∧
      Served .transparent .transparent .transparent n := by
  have h : (passwordChanged.foldlM (step .transparent .transparent .transparent
      (generateServerSetup .transparent 8)) .init).any (fun n =>
        n.answers.map (fun x => x.registered.length) = [2, 1] ∧ n.accepted.length = 1 ∧
        (∀ f ∈ n.finished, ∃ x ∈ n.answers, x.request = f.login.start.request ∧
          x.start.response = f.response) ∧
        ∀ d ∈ n.accepted, ∃ f ∈ n.finished, f.finish.finalization = d.finalization ∧
          d.answer.request = f.login.start.request ∧ d.answer.start.response = f.response) =
      true := by
    decide +kernel
  obtain ⟨n, hexec, h⟩ := (Option.any_eq_true _ _).mp h
  obtain ⟨hanswers, haccepted, hfinished, haccept⟩ := of_decide_eq_true h
  have hn : Reachable .transparent .transparent .transparent 8 n := Reaches.exec hexec
  exact ⟨n, hn, hanswers, haccepted, ⟨hfinished, haccept⟩,
    served .transparent .transparent .transparent OpaqueKe.transparent_correct
      OpaqueKe.transparent_refusesUnknown Suite.transparent_opens 8 n hn⟩

end Accounts

end RealmGuard
