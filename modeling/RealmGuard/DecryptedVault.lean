import RealmGuard.AnyOrder
import RealmGuard.EnvelopeBytes
import RealmGuard.FieldClocks
import RealmGuard.Lib.Translation

/-!
# The vault that devices read

The values of a deployed vault are envelopes, and registers compare them as such. As long as
a timestamp is used for one write of a field, this does not show: after decryption every
device reads what it would read from a vault that holds the plaintexts, in a run with the same
operations and deliveries (`deciphered`). What holds of vaults of plaintexts thus holds of what
devices read.
-/

namespace RealmGuard

open Lib

namespace VaultDoc

variable {V V' : Type} [LinearOrder V] [LinearOrder V'] {p : Profile}

/-! ## Values for values -/

/-- Registers with the same timestamp, their values related. -/
inductive KeyRel (W : Timestamp → V → V' → Prop) :
    WithBot (Timestamp ×ₗ V) → WithBot (Timestamp ×ₗ V') → Prop where
  | bot : KeyRel W ⊥ ⊥
  | write {ts : Timestamp} {v : V} {v' : V'} : W ts v v' →
    KeyRel W (toLex (ts, v) : Timestamp ×ₗ V) (toLex (ts, v') : Timestamp ×ₗ V')

/-- One write at a time. -/
def OneWrite (W : Timestamp → V → V' → Prop) : Prop :=
  ∀ ts v v' w w', W ts v v' → W ts w w' → v = w ∧ v' = w'

theorem key_le_of_ts_lt {a b : Timestamp} (v w : V) (h : a < b) :
    (toLex (a, v) : Timestamp ×ₗ V) ≤ toLex (b, w) := Prod.Lex.toLex_le_toLex.mpr (.inl h)

theorem KeyRel.sup {W : Timestamp → V → V' → Prop} (hW : OneWrite W)
    {a b : WithBot (Timestamp ×ₗ V)} {a' b' : WithBot (Timestamp ×ₗ V')} (ha : KeyRel W a a')
    (hb : KeyRel W b b') : KeyRel W (a ⊔ b) (a' ⊔ b') := by
  cases ha with
  | bot => simpa using hb
  | @write ts v v' hv =>
    cases hb with
    | bot => simpa using KeyRel.write hv
    | @write us w w' hw =>
      rcases lt_trichotomy ts us with h | rfl | h
      · rw [sup_of_le_right (WithBot.coe_le_coe.mpr (key_le_of_ts_lt v w h)),
          sup_of_le_right (WithBot.coe_le_coe.mpr (key_le_of_ts_lt v' w' h))]
        exact .write hw
      · obtain ⟨rfl, rfl⟩ := hW ts v v' w w' hv hw
        rw [sup_idem, sup_idem]
        exact .write hv
      · rw [sup_of_le_left (WithBot.coe_le_coe.mpr (key_le_of_ts_lt w v h)),
          sup_of_le_left (WithBot.coe_le_coe.mpr (key_le_of_ts_lt w' v' h))]
        exact .write hv

/-- Documents with the same presence, and related values in the same registers. -/
structure DocRel (W : EntryId → FieldId → Timestamp → V → V' → Prop) (d : VaultDoc V)
    (d' : VaultDoc V') : Prop where
  entries : d'.entries = d.entries
  keys : ∀ id f, KeyRel (W id f) (d.regKey id f) (d'.regKey id f)

/-- The same operation, its value related. -/
inductive OpRel (W : EntryId → FieldId → Timestamp → V → V' → Prop) :
    DocOp V → DocOp V' → Prop where
  | addEntry (id : EntryId) : OpRel W (.addEntry id) (.addEntry id)
  | removeEntry (id : EntryId) : OpRel W (.removeEntry id) (.removeEntry id)
  | setField {id : EntryId} {f : FieldId} {v : V} {v' : V'} {ts : Timestamp} : W id f ts v v' →
    OpRel W (.setField id f v ts) (.setField id f v' ts)

variable {W : EntryId → FieldId → Timestamp → V → V' → Prop}

theorem regKey_empty {d : VaultDoc V} (h : d.fields = .empty) (id : EntryId) (f : FieldId) :
    d.regKey id f = ⊥ := by
  rw [regKey_eq, h]
  rfl

/-- **A vault follows another through related values.** -/
theorem translates (hW : ∀ id f, OneWrite (W id f)) :
    Translates (OpRel W) (DocRel W) (replicated p V) (replicated p V') where
  init := ⟨rfl, fun _ _ => .bot⟩
  mutate := by
    intro device op op' d d' t δ hop hd hm
    have hentries := hd.entries
    cases hop with
    | addEntry id =>
      obtain ⟨hadd, hf, hδ⟩ := addEntry_eq_some.mp hm
      refine ⟨⟨t.entries, d'.fields⟩, ⟨δ.entries, .empty⟩,
        addEntry_eq_some.mpr ⟨hentries ▸ hadd, rfl, rfl⟩, ⟨rfl, fun id f => ?_⟩,
        ⟨rfl, fun id f => ?_⟩⟩
      · rw [regKey_congr hf]
        exact hd.keys id f
      · rw [regKey_empty hδ, regKey_empty rfl]
        exact .bot
    | removeEntry id =>
      obtain ⟨hrem, hf, hδ⟩ := removeEntry_eq_some.mp hm
      refine ⟨⟨t.entries, d'.fields⟩, ⟨δ.entries, .empty⟩,
        removeEntry_eq_some.mpr ⟨hentries ▸ hrem, rfl, rfl⟩, ⟨rfl, fun id f => ?_⟩,
        ⟨rfl, fun id f => ?_⟩⟩
      · rw [regKey_congr hf]
        exact hd.keys id f
      · rw [regKey_empty hδ, regKey_empty rfl]
        exact .bot
    | @setField id f v v' ts hv =>
      have hset : d.setField id f v ts = (t, δ) := Option.some.inj hm
      obtain ⟨rfl, rfl⟩ : (d.setField id f v ts).1 = t ∧ (d.setField id f v ts).2 = δ :=
        ⟨congrArg Prod.fst hset, congrArg Prod.snd hset⟩
      have hkey : KeyRel (W id f) (d.regKey id f ⊔ (toLex (ts, v) : Timestamp ×ₗ V))
          (d'.regKey id f ⊔ (toLex (ts, v') : Timestamp ×ₗ V')) :=
        (hd.keys id f).sup (hW id f) (.write hv)
      refine ⟨(d'.setField id f v' ts).1, (d'.setField id f v' ts).2, rfl,
        ⟨hentries, fun id' f' => ?_⟩, ⟨rfl, fun id' f' => ?_⟩⟩
      · rw [regKey_setField, regKey_setField]
        split
        · next h => rwa [h.1, h.2]
        · exact hd.keys id' f'
      · rw [regKey_setField_delta, regKey_setField_delta, key_written, key_written]
        split
        · next h => rwa [h.1, h.2]
        · exact .bot
  merge := by
    intro a b c a' b' ha hb hm
    obtain ⟨hentries, hfields⟩ := merge_eq_some.mp hm
    rw [← ha.entries, ← hb.entries] at hentries
    obtain ⟨c', hc'⟩ : ∃ c', a'.merge p b' = some c' := ⟨⟨c.entries, _⟩,
      merge_eq_some.mpr ⟨hentries, rfl⟩⟩
    have hc := (merge_eq_some.mp hc').1
    refine ⟨c', hc', Option.some.inj (hc.symm.trans hentries), fun id f => ?_⟩
    rw [regKey_merge hm, regKey_merge hc']
    exact (ha.keys id f).sup (hW id f) (hb.keys id f)

/-! ## Reading it -/

theorem pairwise_map_entryFields {β : Type} (d : VaultDoc V) (id : EntryId)
    (g : FieldId → V → β) : ((d.entryFields id).map fun q => (q.1, g q.1 q.2)).Pairwise
      fun a b => a.1 < b.1 := List.pairwise_map.mpr (d.entryFields_pairwise id)

section Read

variable {d : VaultDoc V} {d' : VaultDoc V'} (hd : DocRel W d d')
include hd

theorem DocRel.register (id : EntryId) (f : FieldId) :
    d.register id f = none ∧ d'.register id f = none ∨
      ∃ ts v v', W id f ts v v' ∧ d.register id f = some ⟨v, ts⟩ ∧
        d'.register id f = some ⟨v', ts⟩ := by
  have hkeys := hd.keys id f
  generalize ha : d.regKey id f = a at hkeys
  generalize hb : d'.regKey id f = b at hkeys
  cases hkeys with
  | bot => exact .inl ⟨regKey_eq_bot.mp ha, regKey_eq_bot.mp hb⟩
  | @write ts v v' hv =>
    exact .inr ⟨ts, v, v', hv, regKey_eq_coe.mp ha, regKey_eq_coe.mp hb⟩

omit hd in
theorem DocRel.flip (hd : DocRel W d d') : DocRel (fun id f ts v' v => W id f ts v v') d' d where
  entries := hd.entries.symm
  keys id f := by
    have hkeys := hd.keys id f
    generalize d.regKey id f = a at hkeys ⊢
    generalize d'.regKey id f = b at hkeys ⊢
    cases hkeys with
    | bot => exact .bot
    | write hv => exact .write hv

theorem DocRel.maxHlc_le {k : Hlc} (h : d.maxHlc = some k) :
    ∃ k', d'.maxHlc = some k' ∧ k ≤ k' := by
  obtain ⟨id, f, reg, hreg, rfl⟩ := maxHlc_mem h
  rcases hd.register id f with ⟨hnone, -⟩ | ⟨ts, v, v', -, hreg', hwritten⟩
  · rw [hnone] at hreg
    cases hreg
  · obtain rfl := Option.some.inj (hreg'.symm.trans hreg)
    exact exists_le_maxHlc hwritten

theorem DocRel.maxHlc_eq : d'.maxHlc = d.maxHlc := by
  cases h : d.maxHlc with
  | none =>
    cases h' : d'.maxHlc with
    | none => rfl
    | some k' =>
      obtain ⟨k, hk, -⟩ := hd.flip.maxHlc_le h'
      rw [h] at hk
      cases hk
  | some k =>
    obtain ⟨k', hk', hle⟩ := hd.maxHlc_le h
    obtain ⟨k'', hk'', hle'⟩ := hd.flip.maxHlc_le hk'
    obtain rfl := Option.some.inj (h.symm.trans hk'')
    rw [hk', le_antisymm hle' hle]

variable {β : Type} {g : EntryId → FieldId → V → β} {g' : EntryId → FieldId → V' → β}
  (hg : ∀ {id f ts v v'}, W id f ts v v' → g id f v = g' id f v')

include hg

theorem DocRel.field_eq (id : EntryId) (f : FieldId) :
    (d.field id f).map (g id f) = (d'.field id f).map (g' id f) := by
  have hentries : d'.containsEntry id = d.containsEntry id := by
    unfold containsEntry
    rw [hd.entries]
  refine Option.ext fun b => ?_
  simp only [Option.map_eq_some_iff, field_eq_some_iff, hentries]
  rcases hd.register id f with ⟨hnone, hnone'⟩ | ⟨ts, v, v', hv, hreg, hreg'⟩
  · simp [hnone, hnone']
  · simp [hreg, hreg', hg hv]

theorem DocRel.entryFields_eq (id : EntryId) :
    (d.entryFields id).map (fun q => (q.1, g id q.1 q.2)) =
      (d'.entryFields id).map fun q => (q.1, g' id q.1 q.2) := by
  have hirr : Std.Irrefl fun a b : FieldId × β => a.1 < b.1 := ⟨fun a => lt_irrefl a.1⟩
  have hasymm : Std.Antisymm fun a b : FieldId × β => a.1 < b.1 :=
    ⟨fun a b hab hba => (lt_asymm hab hba).elim⟩
  refine (pairwise_map_entryFields d id (g id)).eq_of_mem_iff
    (pairwise_map_entryFields d' id (g' id)) fun q => ?_
  obtain ⟨f, b⟩ := q
  simp only [List.mem_map, Prod.mk.injEq, Prod.exists, mem_entryFields]
  rcases hd.register id f with ⟨hnone, hnone'⟩ | ⟨ts, v, v', hv, hreg, hreg'⟩
  · constructor
    · rintro ⟨f', w, ⟨ts, h⟩, rfl, -⟩
      rw [hnone] at h
      cases h
    · rintro ⟨f', w, ⟨ts, h⟩, rfl, -⟩
      rw [hnone'] at h
      cases h
  · constructor
    · rintro ⟨f', w, ⟨us, h⟩, rfl, rfl⟩
      obtain ⟨rfl, rfl⟩ := LwwRegister.mk.inj (Option.some.inj (hreg.symm.trans h))
      exact ⟨f', v', ⟨ts, hreg'⟩, rfl, (hg hv).symm⟩
    · rintro ⟨f', w, ⟨us, h⟩, rfl, rfl⟩
      obtain ⟨rfl, rfl⟩ := LwwRegister.mk.inj (Option.some.inj (hreg'.symm.trans h))
      exact ⟨f', v, ⟨ts, hreg⟩, rfl, hg hv⟩

end Read

/-! ## Envelopes for plaintexts -/

/-- What an operation writes, decrypted; `context` is what entries and fields are encrypted
for. -/
inductive DecryptedOp (s : Suite) (vaultKey : VaultKey) (context : EntryId → FieldId → Bytes) :
    DocOp Ciphertext → DocOp Bytes → Prop where
  | addEntry (id : EntryId) : DecryptedOp s vaultKey context (.addEntry id) (.addEntry id)
  | removeEntry (id : EntryId) :
    DecryptedOp s vaultKey context (.removeEntry id) (.removeEntry id)
  | setField {id : EntryId} {f : FieldId} {c : Ciphertext} {m : Bytes} {ts : Timestamp} :
    decryptEntry s vaultKey (context id f) c = .ok m →
    DecryptedOp s vaultKey context (.setField id f c ts) (.setField id f m ts)

/-- What is read of `d`, once decrypted, is what is read of `d'`. -/
structure Decrypted (s : Suite) (vaultKey : VaultKey) (context : EntryId → FieldId → Bytes)
    (d : VaultDoc Ciphertext) (d' : VaultDoc Bytes) : Prop where
  entries : d'.entries = d.entries
  field : ∀ id f, (d.field id f).map (decryptEntry s vaultKey (context id f)) =
    (d'.field id f).map .ok
  entryFields : ∀ id,
    (d.entryFields id).map (fun q => (q.1, decryptEntry s vaultKey (context id q.1) q.2)) =
      (d'.entryFields id).map fun q => (q.1, .ok q.2)
  maxHlc : d'.maxHlc = d.maxHlc

/-- All values that were written are entries encrypted under the vault key. -/
def Encrypted (s : Suite) (vaultKey : VaultKey) (context : EntryId → FieldId → Bytes)
    (log : List (DocEvent Ciphertext)) : Prop :=
  ∀ i id f c ts, Wrote log id f i c ts →
    ∃ draw m, encryptEntry s draw vaultKey (context id f) m = .ok c

/-- A timestamp is used for one value of a field. -/
def OneValue (log : List (DocEvent Ciphertext)) : Prop :=
  ∀ i j id f c c' ts, Wrote log id f i c ts → Wrote log id f j c' ts → c = c'

section Deciphered

variable {s : Suite} {vaultKey : VaultKey} {context : EntryId → FieldId → Bytes}
  {n : DocNet Ciphertext}

/-- What was written to a field at a time, and its plaintext. -/
def PlainWrite (s : Suite) (vaultKey : VaultKey) (context : EntryId → FieldId → Bytes)
    (log : List (DocEvent Ciphertext)) (id : EntryId) (f : FieldId) (ts : Timestamp)
    (c : Ciphertext) (m : Bytes) : Prop :=
  (∃ i, Wrote log id f i c ts) ∧ decryptEntry s vaultKey (context id f) c = .ok m

theorem PlainWrite.oneWrite (hone : OneValue n.log) (id : EntryId) (f : FieldId) :
    OneWrite (PlainWrite s vaultKey context n.log id f) := by
  rintro ts c m c' m' ⟨⟨i, hi⟩, hm⟩ ⟨⟨j, hj⟩, hm'⟩
  obtain rfl := hone i j id f c c' ts hi hj
  exact ⟨rfl, Except.ok.inj (hm.symm.trans hm')⟩

theorem exists_plainOp (hopens : s.aead.Opens) (henc : Encrypted s vaultKey context n.log)
    {ev : DocEvent Ciphertext} (hev : ev ∈ n.log) :
    ∃ op', OpRel (PlainWrite s vaultKey context n.log) ev.op op' := by
  obtain ⟨i, hi⟩ := List.getElem?_of_mem hev
  cases hop : ev.op with
  | addEntry id => exact ⟨_, .addEntry id⟩
  | removeEntry id => exact ⟨_, .removeEntry id⟩
  | setField id f c ts =>
    have hwrote : Wrote n.log id f i c ts := ⟨ev, hi, hop⟩
    obtain ⟨draw, m, hm⟩ := henc i id f c ts hwrote
    exact ⟨_, .setField ⟨⟨i, hwrote⟩, decryptEntry_of_encryptEntry hopens hm⟩⟩

theorem DocRel.decrypted {d : VaultDoc Ciphertext} {d' : VaultDoc Bytes}
    (hd : DocRel (PlainWrite s vaultKey context n.log) d d') :
    Decrypted s vaultKey context d d' where
  entries := hd.entries
  field := hd.field_eq fun hv => hv.2
  entryFields := hd.entryFields_eq fun hv => hv.2
  maxHlc := hd.maxHlc_eq

theorem OpRel.decrypted {op : DocOp Ciphertext} {op' : DocOp Bytes}
    (h : OpRel (PlainWrite s vaultKey context n.log) op op') :
    DecryptedOp s vaultKey context op op' := by
  cases h with
  | addEntry id => exact .addEntry id
  | removeEntry id => exact .removeEntry id
  | setField hv => exact .setField hv.2

/-- A run that `ok` allows is matched by one of plaintexts that `ok'` allows, if related steps are
allowed alike. -/
theorem exists_deciphered {p : Profile} (hopens : s.aead.Opens)
    {ok : DocNet Ciphertext → Action DeviceId (DocOp Ciphertext) → Prop}
    {ok' : DocNet Bytes → Action DeviceId (DocOp Bytes) → Prop}
    (henc : Encrypted s vaultKey context n.log) (hone : OneValue n.log)
    (hok : ∀ {m m' a a'}, Translated (OpRel (PlainWrite s vaultKey context n.log))
        (DocRel (PlainWrite s vaultKey context n.log)) m m' →
      ActionRel (OpRel (PlainWrite s vaultKey context n.log)) a a' → ok m a → ok' m' a')
    (hn : Runs (replicated p Ciphertext) ok n) :
    ∃ n', Runs (replicated p Bytes) ok' n' ∧
      Translated (DecryptedOp s vaultKey context) (Decrypted s vaultKey context) n n' := by
  have hT : Translates (OpRel (PlainWrite s vaultKey context n.log)) (DocRel _)
      (replicated p Ciphertext) (replicated p Bytes) := translates (PlainWrite.oneWrite hone)
  obtain ⟨n', hn', h⟩ := hn.translated hT hok fun _ hev => exists_plainOp hopens henc hev
  exact ⟨n', hn', h.mono OpRel.decrypted DocRel.decrypted⟩

/-- **Encryption does not show**: a run of encrypted vaults is matched by one of vaults of
plaintexts, with the operations decrypted and the same deliveries, and every document reads,
decrypted, as its counterpart does. -/
theorem deciphered (p : Profile) (s : Suite) (hopens : s.aead.Opens) (vaultKey : VaultKey)
    (context : EntryId → FieldId → Bytes) (n : DocNet Ciphertext)
    (henc : Encrypted s vaultKey context n.log) (hone : OneValue n.log) :
    (Runs (replicated p Ciphertext) Free n → ∃ n', Runs (replicated p Bytes) Free n' ∧
      Translated (DecryptedOp s vaultKey context) (Decrypted s vaultKey context) n n') ∧
    (Runs (replicated p Ciphertext) Causal n → ∃ n', Runs (replicated p Bytes) Causal n' ∧
      Translated (DecryptedOp s vaultKey context) (Decrypted s vaultKey context) n n') :=
  ⟨exists_deciphered hopens henc hone fun _ _ _ => trivial,
    exists_deciphered hopens henc hone fun h hact ha => h.causal hact ha⟩

/-- Writes stamped ahead use a timestamp once. -/
theorem oneValue_of_ahead {p : Profile} (hn : Runs (replicated p Ciphertext) Ahead n) :
    OneValue n.log := by
  intro i j id f v w ts hi hj
  rcases lt_trichotomy i j with h | rfl | h
  · exact absurd rfl (ts_ne_of_ahead hn hi hj h)
  · obtain ⟨ev, hev, hop⟩ := hi
    have hop' := hj.eq hev
    rw [hop] at hop'
    exact (DocOp.setField.inj hop').2.2.1
  · exact absurd rfl (ts_ne_of_ahead hn hj hi h)

end Deciphered

/-- A value of entry 1, encrypted by the suite that hides nothing. -/
def sealedValue (m : Bytes) : Ciphertext :=
  (encryptEntry .transparent (.ok (.replicate 24 2)) ⟨.replicate 32 7⟩
    (eid 1).asBytes.toList m).toOption.getD ⟨0, .replicate 24 0, []⟩

theorem encryptEntry_sealedValue {m : Bytes} (h : m.length ≤ 1000) :
    encryptEntry .transparent (.ok (.replicate 24 2)) ⟨.replicate 32 7⟩ (eid 1).asBytes.toList m =
      .ok (sealedValue m) := by
  obtain ⟨c, hc⟩ := exists_encryptEntry .transparent (.replicate 24 2) ⟨.replicate 32 7⟩
    (eid 1).asBytes.toList h
  unfold sealedValue
  rw [hc]
  rfl

/-- Device 2 overwrites a field of device 1, while its physical clock is behind. -/
def overwritten : List (ClockAction Ciphertext) :=
  [.addEntry (dev 1) (eid 1), .write (dev 1) (eid 1) ⟨0⟩ (sealedValue [42]) 1000,
    .publish (dev 1), .receive (dev 2) 3 5, .write (dev 2) (eid 1) ⟨0⟩ (sealedValue [43]) 6]

theorem deciphered_overwritten : ∃ (c : ClockNet Ciphertext) (n' : DocNet Bytes),
    ClockNet.Runs .dev c ∧ Runs (replicated .dev Bytes) Free n' ∧
      Translated (DecryptedOp .transparent ⟨.replicate 32 7⟩ fun id _ => id.asBytes.toList)
        (Decrypted .transparent ⟨.replicate 32 7⟩ fun id _ => id.asBytes.toList) c.net n' ∧
      (c.net.doc (dev 2)).field (eid 1) ⟨0⟩ = some (sealedValue [43]) := by
  have h : ((ClockNet.init .dev Ciphertext).exec .dev overwritten).any (fun c =>
      c.net.log.map Event.op = [.addEntry (eid 1),
        .setField (eid 1) ⟨0⟩ (sealedValue [42]) ⟨⟨1000, 0⟩, dev 1⟩,
        .setField (eid 1) ⟨0⟩ (sealedValue [43]) ⟨⟨1000, 2⟩, dev 2⟩] ∧
      (c.net.doc (dev 2)).field (eid 1) ⟨0⟩ = some (sealedValue [43])) = true := by
    decide +kernel
  obtain ⟨c, hexec, h⟩ := (Option.any_eq_true _ _).mp h
  obtain ⟨hops, hfield⟩ := of_decide_eq_true h
  have hc : ClockNet.Runs .dev c := Reaches.exec hexec
  have henc : Encrypted .transparent ⟨.replicate 32 7⟩ (fun id _ => id.asBytes.toList)
      c.net.log := by
    rintro i id f v ts ⟨ev, hev, hop⟩
    have hmem : ev.op ∈ c.net.log.map Event.op := List.mem_map_of_mem (List.mem_of_getElem? hev)
    rw [hops, hop] at hmem
    simp only [List.mem_cons, DocOp.setField.injEq, reduceCtorEq, List.not_mem_nil, or_false,
      false_or] at hmem
    rcases hmem with ⟨hid, -, hv, -⟩ | ⟨hid, -, hv, -⟩
    · exact ⟨_, _, hid ▸ hv ▸ encryptEntry_sealedValue (m := [42]) (by decide)⟩
    · exact ⟨_, _, hid ▸ hv ▸ encryptEntry_sealedValue (m := [43]) (by decide)⟩
  obtain ⟨n', hn', htrans⟩ := (deciphered .dev .transparent Suite.transparent_opens _ _ c.net henc
    (oneValue_of_ahead hc.clocked.runs)).1 (hc.clocked.runs.mono fun _ _ _ => trivial)
  exact ⟨c, n', hc, hn', htrans, hfield⟩

end VaultDoc

end RealmGuard
