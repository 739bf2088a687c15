import RealmGuard.ByteSync
import RealmGuard.DecryptedVault
import RealmGuard.Lib.Steps

/-!
# The vault as deployed

Everything a client does with the core, at once: a write is stamped by the clock of its device,
encrypted under the vault key and put in the document, and the delta goes out in bytes; what
arrives is decoded, merged, and moves the clock. A document is stored, a clock cannot be: a
device that starts anew loads the one, makes another and moves it past what it has loaded.
Users see a vault of plaintexts, each write stamped past all that its device had seen, as long
as no clock reaches its limits (`seen_as_plaintexts`).
-/

namespace RealmGuard

open Lib VaultDoc

/-- `asked` is a ghost: the operations that users asked for, writes with their stamps. -/
structure Deployed where
  net : DocByteNet Ciphertext
  clock : DeviceId → HlcClock
  asked : List (DeviceId × DocOp Bytes)

/-- Writes, receptions and restarts read physical time. -/
inductive DeployedAction where
  | addEntry (d : DeviceId) (id : EntryId)
  | removeEntry (d : DeviceId) (id : EntryId)
  | write (d : DeviceId) (id : EntryId) (field : FieldId) (value : Bytes) (draw : Draw xnonceLen)
    (now : UInt64)
  | publish (d : DeviceId)
  | combine (i j : ℕ)
  | receive (d : DeviceId) (i k : ℕ) (now : UInt64)
  | restart (d : DeviceId) (now : UInt64)

/-- The device whose clock a step moves. -/
def DeployedAction.moves : DeployedAction → Option DeviceId
  | .write d _ _ _ _ _ => some d
  | .receive d _ _ _ => some d
  | .restart d _ => some d
  | _ => none

namespace Deployed

def init (p : Profile) : Deployed :=
  ⟨.init (replicated p Ciphertext) (byteCodec Ciphertext), fun _ => .new, []⟩

/-- A step of the documents, which leaves the clocks as they are. -/
def lift (p : Profile) (c : Deployed) (a : ByteAction DeviceId (DocOp Ciphertext))
    (asked : List (DeviceId × DocOp Bytes)) : Option Deployed :=
  (c.net.step (replicated p Ciphertext) (byteCodec Ciphertext) a).map fun net =>
    ⟨net, c.clock, c.asked ++ asked⟩

section System

variable (p : Profile) (s : Suite) (vaultKey : VaultKey) (context : EntryId → FieldId → Bytes)

/-- `context` is what entries and fields are encrypted for. A transfer that breaks off is
refused, and moves no clock. -/
def step (c : Deployed) : DeployedAction → Option Deployed
  | .addEntry d id => c.lift p (.update d (.addEntry id)) [(d, .addEntry id)]
  | .removeEntry d id => c.lift p (.update d (.removeEntry id)) [(d, .removeEntry id)]
  | .write d id field value draw now => do
    let stamped := (c.clock d).tick now
    let ts := Timestamp.new stamped.2 d
    let sealed ← (encryptEntry s draw vaultKey (context id field) value).toOption
    let net ← c.net.step (replicated p Ciphertext) (byteCodec Ciphertext)
      (.update d (.setField id field sealed ts))
    some ⟨net, Function.update c.clock d stamped.1, c.asked ++ [(d, .setField id field value ts)]⟩
  | .publish d => c.lift p (.publish d) []
  | .combine i j => c.lift p (.combine i j) []
  | .receive d i k now => do
    let bytes ← c.net.pool[i]?
    let net ← c.net.step (replicated p Ciphertext) (byteCodec Ciphertext) (.receive d i k)
    match (byteCodec Ciphertext).decode (bytes.take k) with
    | some _ =>
      some ⟨net, Function.update c.clock d ((c.clock d).advance now (net.doc d)), c.asked⟩
    | none => some ⟨net, c.clock, c.asked⟩
  | .restart d now => do
    let net ← c.net.step (replicated p Ciphertext) (byteCodec Ciphertext) (.reload d)
    some ⟨net, Function.update c.clock d (HlcClock.new.advance now (net.doc d)), c.asked⟩

/-- A step that takes no clock to both its limits, which no event would move up. -/
def within (c : Deployed) (a : DeployedAction) : Option Deployed :=
  (c.step p s vaultKey context a).filter fun c' => ∀ d ∈ a.moves, (c'.clock d).last ≠ .saturated

/-- The reachable systems. -/
abbrev Runs : Deployed → Prop := Reaches (within p s vaultKey context) (init p)

end System

variable {p : Profile} {s : Suite} {vaultKey : VaultKey} {context : EntryId → FieldId → Bytes}
  {c c' : Deployed} {n n' : DocNet Ciphertext}

/-! ## The documents in the system -/

/-- The operation asked for, its value encrypted. -/
inductive EncryptedOp (s : Suite) (vaultKey : VaultKey) (context : EntryId → FieldId → Bytes) :
    DocOp Ciphertext → DocOp Bytes → Prop where
  | addEntry (id : EntryId) : EncryptedOp s vaultKey context (.addEntry id) (.addEntry id)
  | removeEntry (id : EntryId) :
    EncryptedOp s vaultKey context (.removeEntry id) (.removeEntry id)
  | setField {id : EntryId} {f : FieldId} {c : Ciphertext} {m : Bytes} {ts : Timestamp}
    {draw : Draw xnonceLen} : encryptEntry s draw vaultKey (context id f) m = .ok c →
    EncryptedOp s vaultKey context (.setField id f c ts) (.setField id f m ts)

/-- The operations of the log are those asked for. -/
def Performs (s : Suite) (vaultKey : VaultKey) (context : EntryId → FieldId → Bytes)
    (log : List (DocEvent Ciphertext)) (asked : List (DeviceId × DocOp Bytes)) : Prop :=
  List.Forall₂ (fun ev q => ev.device = q.1 ∧ EncryptedOp s vaultKey context ev.op q.2) log asked

/-- `n` is the run of documents in `c`. -/
structure Carries (p : Profile) (s : Suite) (vaultKey : VaultKey)
    (context : EntryId → FieldId → Bytes) (n : DocNet Ciphertext) (c : Deployed) : Prop where
  clocked : ClockNet.Clocked p ⟨n, c.clock⟩
  mirrors : Mirrors (byteCodec Ciphertext) n c.net
  asked : Performs s vaultKey context n.log c.asked

theorem carries_init : Carries p s vaultKey context (.init (replicated p Ciphertext)) (init p) where
  clocked := ClockNet.clocked_init
  mirrors := mirrors_init (encode_init p)
  asked := .nil

/-- One more operation was asked for. -/
theorem Performs.update {asked : List (DeviceId × DocOp Bytes)} {d : DeviceId}
    {op : DocOp Ciphertext} {op' : DocOp Bytes} (h : Performs s vaultKey context n.log asked)
    (hop : EncryptedOp s vaultKey context op op')
    (hs : n.step (replicated p Ciphertext) (.update d op) = some n') :
    Performs s vaultKey context n'.log (asked ++ [(d, op')]) := by
  obtain ⟨t, δ, -, rfl⟩ := Net.step_update hs
  exact List.rel_append h (.cons ⟨rfl, hop⟩ .nil)

section Step

variable (h : Carries p s vaultKey context n c)
include h

/-- Presence is added to and removed from as in a system without encryption. -/
theorem Carries.presence {d : DeviceId} {op : DocOp Ciphertext} {op' : DocOp Bytes}
    (hop : EncryptedOp s vaultKey context op op') (hnot : ∀ id f v ts, op ≠ .setField id f v ts)
    (hs : c.lift p (.update d op) [(d, op')] = some c') :
    ∃ n', Carries p s vaultKey context n' c' := by
  obtain ⟨net, hnet, rfl⟩ := Option.map_eq_some_iff.mp hs
  obtain ⟨n', hn', hm⟩ := h.mirrors.update hnet
  exact ⟨n', h.clocked.presence hnot (ClockNet.lift_eq hn'), hm, h.asked.update hop hn'⟩

theorem Carries.write {d : DeviceId} {id : EntryId} {f : FieldId} {m : Bytes}
    {draw : Draw xnonceLen} {now : UInt64}
    (hs : c.step p s vaultKey context (.write d id f m draw now) = some c')
    (hsat : (c'.clock d).last ≠ .saturated) :
    ∃ n' e, encryptEntry s draw vaultKey (context id f) m = .ok e ∧
      (n'.doc d).register id f = some ⟨e, .new ((c.clock d).tick now).2 d⟩ ∧
      Carries p s vaultKey context n' c' := by
  simp only [step, Option.bind_eq_bind, Option.bind_eq_some_iff, Option.some.injEq] at hs
  obtain ⟨e, he, net, hnet, rfl⟩ := hs
  have henc : encryptEntry s draw vaultKey (context id f) m = .ok e := by
    cases hres : encryptEntry s draw vaultKey (context id f) m with
    | ok e' =>
      rw [hres] at he
      exact congrArg _ (Option.some.inj he)
    | error err =>
      rw [hres] at he
      cases he
  obtain ⟨n', hn', hm⟩ := h.mirrors.update hnet
  have hwrite : ClockNet.step p ⟨n, c.clock⟩ (.write d id f e now) =
      some ⟨n', Function.update c.clock d ((c.clock d).tick now).1⟩ := by
    simp only [ClockNet.step, Option.bind_eq_bind, hn', Option.bind_some]
  exact ⟨n', e, henc, (h.clocked.ahead d id f e now).register hn',
    h.clocked.write hwrite hsat, hm, h.asked.update (.setField henc) hn'⟩

theorem Carries.receive {d : DeviceId} {i k : ℕ} {now : UInt64}
    (hs : c.step p s vaultKey context (.receive d i k now) = some c')
    (hsat : (c'.clock d).last ≠ .saturated) : ∃ n', Carries p s vaultKey context n' c' := by
  simp only [step, Option.bind_eq_bind, Option.bind_eq_some_iff] at hs
  obtain ⟨bytes, hbytes, net, hnet, hs⟩ := hs
  obtain ⟨m, hmi, henc⟩ := h.mirrors.exists_message hbytes
  obtain ⟨bytes', hbytes', hcases⟩ := h.mirrors.deliver hnet
  obtain rfl := Option.some.inj (hbytes.symm.trans hbytes')
  rcases hcases with ⟨hk, rfl⟩ | ⟨hk, n', hn', hm⟩
  · rw [(byteCodec Ciphertext).decode_take _ _ _ henc hk] at hs
    obtain rfl := Option.some.inj hs
    exact ⟨n, h.clocked, h.mirrors, h.asked⟩
  · rw [List.take_of_length_le hk, (byteCodec Ciphertext).decode_encode _ _ henc] at hs
    obtain rfl := Option.some.inj hs
    have hlog : n'.log = n.log := by
      obtain ⟨-, -, t, -, rfl⟩ := Net.step_deliver hn'
      rfl
    have hreceive : ClockNet.step p ⟨n, c.clock⟩ (.receive d i now) =
        some ⟨n', Function.update c.clock d ((c.clock d).advance now (n'.doc d))⟩ := by
      simp only [ClockNet.step, Option.bind_eq_bind, hn', Option.bind_some, HlcClock.advance]
      cases (n'.doc d).maxHlc with
      | none => simp only [Option.elim_none, Function.update_eq_self]
      | some remote => rfl
    rw [← hm.doc] at hsat ⊢
    exact ⟨n', h.clocked.receive hreceive hsat, hm, hlog ▸ h.asked⟩

/-- What ships something that is there moves no clock, and nobody asked for it. -/
theorem Carries.shipped {a : ClockAction Ciphertext} {net : DocByteNet Ciphertext}
    (hmoves : a.moves = none)
    (hs : ClockNet.step p ⟨n, c.clock⟩ a = some ⟨n', c.clock⟩) (hlog : n'.log = n.log)
    (hm : Mirrors (byteCodec Ciphertext) n' net) :
    Carries p s vaultKey context n' ⟨net, c.clock, c.asked ++ []⟩ where
  clocked := h.clocked.step hs fun d hd => by
    rw [hmoves] at hd
    cases hd
  mirrors := hm
  asked := by
    rw [List.append_nil, hlog]
    exact h.asked

/-- A new clock that `max_hlc` has moved does as well as the one that was lost. -/
theorem Carries.restart {d : DeviceId} {now : UInt64}
    (hs : c.step p s vaultKey context (.restart d now) = some c')
    (hsat : (c'.clock d).last ≠ .saturated) : Carries p s vaultKey context n c' := by
  simp only [step, Option.bind_eq_bind, Option.bind_eq_some_iff, Option.some.injEq] at hs
  obtain ⟨net, hnet, rfl⟩ := hs
  have hm := h.mirrors.reload hnet
  rw [← hm.doc] at hsat ⊢
  simp only [Function.update_self] at hsat
  have hnew : HlcClock.new.last ≠ .saturated := by decide
  exact ⟨ClockNet.clocked_advance h.clocked.runs h.clocked.stamps h.clocked.clocks
    (fun r _ => h.clocked.registers r) hnew hsat, hm, h.asked⟩

/-- **A step leads from a run of documents to a run of documents.** -/
theorem Carries.step {a : DeployedAction} (hs : c.within p s vaultKey context a = some c') :
    ∃ n', Carries p s vaultKey context n' c' := by
  obtain ⟨hs, hsat⟩ := Option.filter_eq_some_iff.mp hs
  have hsat := of_decide_eq_true hsat
  cases a with
  | addEntry d id => exact h.presence (.addEntry id) (fun _ _ _ _ => by simp) hs
  | removeEntry d id => exact h.presence (.removeEntry id) (fun _ _ _ _ => by simp) hs
  | write d id f m draw now =>
    obtain ⟨n', -, -, -, h'⟩ := h.write hs (hsat d rfl)
    exact ⟨n', h'⟩
  | publish d =>
    obtain ⟨net, hnet, rfl⟩ := Option.map_eq_some_iff.mp hs
    obtain ⟨n', hn', hm⟩ := h.mirrors.publish hnet
    have hlog : n'.log = n.log := by rw [Net.step_publish hn']
    exact ⟨n', h.shipped (a := .publish d) rfl (ClockNet.lift_eq hn') hlog hm⟩
  | combine i j =>
    obtain ⟨net, hnet, rfl⟩ := Option.map_eq_some_iff.mp hs
    obtain ⟨n', hn', hm⟩ := h.mirrors.combine hnet
    have hlog : n'.log = n.log := by
      obtain ⟨-, -, -, -, t, -, rfl⟩ := Net.step_combine hn'
      rfl
    exact ⟨n', h.shipped (a := .combine i j) rfl (ClockNet.lift_eq hn') hlog hm⟩
  | receive d i k now => exact h.receive hs (hsat d rfl)
  | restart d now => exact ⟨n, h.restart hs (hsat d rfl)⟩

end Step

theorem Runs.carries (hc : Runs p s vaultKey context c) :
    ∃ n, Carries p s vaultKey context n c := by
  refine hc.invariant (P := fun c => ∃ n, Carries p s vaultKey context n c) ⟨_, carries_init⟩ ?_
  rintro c a c' ⟨n, h⟩ hs
  exact h.step hs

/-! ## What users see -/

theorem EncryptedOp.decrypted (hopens : s.aead.Opens) {op : DocOp Ciphertext} {op' : DocOp Bytes}
    (h : EncryptedOp s vaultKey context op op') : DecryptedOp s vaultKey context op op' := by
  cases h with
  | addEntry id => exact .addEntry id
  | removeEntry id => exact .removeEntry id
  | setField henc => exact .setField (decryptEntry_of_encryptEntry hopens henc)

/-- An operation decrypts to one operation. -/
theorem eq_of_decryptedOp {op : DocOp Ciphertext} {op₁ op₂ : DocOp Bytes}
    (h₁ : DecryptedOp s vaultKey context op op₁) (h₂ : DecryptedOp s vaultKey context op op₂) :
    op₁ = op₂ := by
  cases h₁ with
  | addEntry id =>
    cases h₂
    rfl
  | removeEntry id =>
    cases h₂
    rfl
  | setField hm =>
    cases h₂ with
    | setField hm' => rw [Except.ok.inj (hm.symm.trans hm')]

/-- All values in the system were encrypted. -/
theorem Performs.encrypted {log : List (DocEvent Ciphertext)}
    {asked : List (DeviceId × DocOp Bytes)} (h : Performs s vaultKey context log asked) :
    Encrypted s vaultKey context log := by
  rintro i id f e ts ⟨ev, hev, hop⟩
  obtain ⟨hlt, rfl⟩ := List.getElem?_eq_some_iff.mp hev
  have hq := (List.Forall₂.get h hlt (h.length_eq ▸ hlt)).2
  rw [List.get_eq_getElem, hop] at hq
  generalize (asked.get ⟨i, h.length_eq ▸ hlt⟩).2 = op' at hq
  cases hq with
  | setField henc => exact ⟨_, _, henc⟩

/-- What was decrypted of the log is what was asked for. -/
theorem Performs.eq_asked (hopens : s.aead.Opens) {asked : List (DeviceId × DocOp Bytes)}
    (h : Performs s vaultKey context n.log asked) {m : DocNet Bytes}
    (hm : Translated (DecryptedOp s vaultKey context) (Decrypted s vaultKey context) n m) :
    m.log.map (fun ev => (ev.device, ev.op)) = asked := by
  have hlog : List.Forall₂ (fun ev q => ev.device = q.1 ∧ DecryptedOp s vaultKey context ev.op q.2)
      n.log (m.log.map fun ev => (ev.device, ev.op)) :=
    List.forall₂_map_right_iff.mpr (hm.log.imp fun _ _ hev => ⟨hev.device.symm, hev.op⟩)
  refine List.right_unique_forall₂' ?_ hlog (h.imp fun _ _ hq => ⟨hq.1, hq.2.decrypted hopens⟩)
  rintro ev ⟨d₁, op₁⟩ ⟨d₂, op₂⟩ ⟨hd₁, hop₁⟩ ⟨hd₂, hop₂⟩
  exact Prod.ext (hd₁.symm.trans hd₂) (eq_of_decryptedOp hop₁ hop₂)

/-- Related writes are ahead of the same registers. -/
theorem ahead_of_translated {V V' : Type} [LinearOrder V] [LinearOrder V']
    {W : EntryId → FieldId → Timestamp → V → V' → Prop} {m : DocNet V} {m' : DocNet V'}
    {a : Action DeviceId (DocOp V)} {a' : Action DeviceId (DocOp V')}
    (h : Translated (OpRel W) (DocRel W) m m') (hact : ActionRel (OpRel W) a a')
    (ha : Ahead m a) : Ahead m' a' := by
  cases hact with
  | publish d => trivial
  | combine i j => trivial
  | deliver d i => trivial
  | @update d op op' hop =>
    cases hop with
    | addEntry id => trivial
    | removeEntry id => trivial
    | setField hv =>
      refine ⟨ha.1, fun id f reg hreg => ?_⟩
      rcases (h.doc d).register id f with ⟨-, hnone⟩ | ⟨ts, v, v', -, hreg', hreg''⟩
      · rw [hnone] at hreg
        cases hreg
      · obtain rfl := Option.some.inj (hreg''.symm.trans hreg)
        exact ha.2 id f _ hreg'

/-- `m` is what users see of `c`: a run of vaults of plaintexts with the operations that were
asked for, each write stamped past what its device had seen, and no edit lost. -/
structure SeenAs (p : Profile) (s : Suite) (vaultKey : VaultKey)
    (context : EntryId → FieldId → Bytes) (c : Deployed) (m : DocNet Bytes) : Prop where
  runs : Lib.Runs (replicated p Bytes) Ahead m
  performed : m.log.map (fun ev => (ev.device, ev.op)) = c.asked
  reads : ∀ d, Decrypted s vaultKey context (c.net.doc d) (m.doc d)
  edits : EditsKept m

/-- **Users see a vault of plaintexts**, whatever breaks off, arrives twice or late, or starts
anew; and a device reads what it has just written. -/
theorem seen_as_plaintexts (p : Profile) (s : Suite) (hopens : s.aead.Opens) (vaultKey : VaultKey)
    (context : EntryId → FieldId → Bytes) (c : Deployed) (hc : Runs p s vaultKey context c) :
    (∃ m, SeenAs p s vaultKey context c m) ∧
    ∀ c' d id f value draw now,
      c.within p s vaultKey context (.write d id f value draw now) = some c' →
      (c'.net.doc d).containsEntry id = true →
      ((c'.net.doc d).field id f).map (decryptEntry s vaultKey (context id f)) =
        some (.ok value) := by
  obtain ⟨n, h⟩ := hc.carries
  constructor
  · have hrun : ∃ m, Lib.Runs (replicated p Bytes) Ahead m ∧ Translated _ _ n m :=
      exists_deciphered hopens h.asked.encrypted (oneValue_of_ahead h.clocked.runs)
        ahead_of_translated h.clocked.runs
    obtain ⟨m, hm, htrans⟩ := hrun
    refine ⟨m, hm, h.asked.eq_asked hopens htrans, fun d => ?_, editsKept_of_ahead hm⟩
    rw [← h.mirrors.doc]
    exact htrans.doc d
  · intro c' d id f value draw now hs hcontains
    obtain ⟨hs, hsat⟩ := Option.filter_eq_some_iff.mp hs
    obtain ⟨n', e, henc, hreg, h'⟩ := h.write hs (of_decide_eq_true hsat d rfl)
    rw [h'.mirrors.doc] at hreg
    have hfield : (c'.net.doc d).field id f = some e :=
      field_eq_some_iff.mpr ⟨hcontains, _, hreg, rfl⟩
    rw [hfield, Option.map_some, decryptEntry_of_encryptEntry hopens henc]

/-- What entries and fields are encrypted for. -/
def byEntry (id : EntryId) (_ : FieldId) : Bytes := id.asBytes.toList

/-- Device 2, whose physical clock is far behind, receives a field after a transfer that broke
off, and starts anew. -/
def startedAnew : List DeployedAction :=
  [.addEntry (dev 1) (eid 1), .write (dev 1) (eid 1) ⟨0⟩ [42] (.ok (.replicate 24 2)) 1000,
    .publish (dev 1), .receive (dev 2) 3 20 4, .receive (dev 2) 3 400 4, .restart (dev 2) 5]

/-- It then overwrites the field. -/
theorem seen_as_plaintexts_startedAnew : ∃ (c c' : Deployed) (m : DocNet Bytes),
    SeenAs .dev .transparent ⟨.replicate 32 7⟩ byEntry c m ∧
    c.within .dev .transparent ⟨.replicate 32 7⟩ byEntry
      (.write (dev 2) (eid 1) ⟨0⟩ [43] (.ok (.replicate 24 3)) 6) = some c' ∧
    c'.asked = [(dev 1, .addEntry (eid 1)),
      (dev 1, .setField (eid 1) ⟨0⟩ [42] ⟨⟨1000, 0⟩, dev 1⟩),
      (dev 2, .setField (eid 1) ⟨0⟩ [43] ⟨⟨1000, 2⟩, dev 2⟩)] ∧
    ((c'.net.doc (dev 2)).field (eid 1) ⟨0⟩).map
      (decryptEntry .transparent ⟨.replicate 32 7⟩ (byEntry (eid 1) ⟨0⟩)) = some (.ok [43]) := by
  have h : (startedAnew.foldlM (within .dev .transparent ⟨.replicate 32 7⟩ byEntry)
      (init .dev)).any (fun c => (c.within .dev .transparent ⟨.replicate 32 7⟩ byEntry
        (.write (dev 2) (eid 1) ⟨0⟩ [43] (.ok (.replicate 24 3)) 6)).any fun c' =>
        c'.asked = [(dev 1, .addEntry (eid 1)),
          (dev 1, .setField (eid 1) ⟨0⟩ [42] ⟨⟨1000, 0⟩, dev 1⟩),
          (dev 2, .setField (eid 1) ⟨0⟩ [43] ⟨⟨1000, 2⟩, dev 2⟩)] ∧
        (c'.net.doc (dev 2)).containsEntry (eid 1) = true) = true := by decide +kernel
  obtain ⟨c, hexec, h⟩ := (Option.any_eq_true _ _).mp h
  obtain ⟨c', hwrite, h⟩ := (Option.any_eq_true _ _).mp h
  obtain ⟨hasked, hcontains⟩ := of_decide_eq_true h
  obtain ⟨⟨m, hm⟩, hreads⟩ := seen_as_plaintexts .dev .transparent Suite.transparent_opens
    ⟨.replicate 32 7⟩ byEntry c (Reaches.exec hexec)
  exact ⟨c, c', m, hm, hwrite, hasked, hreads _ _ _ _ _ _ _ hwrite hcontains⟩

end Deployed

end RealmGuard
