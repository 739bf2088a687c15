import RealmGuard.Crypto.Aead
import RealmGuard.DeltaMutators

/-!
# The sync format

How documents travel: every type of the model is encoded as the tuple of its fields,
in the order of its declaration. A document decodes from its encoding
(`decode_encode`), in every run, and the replicas that have absorbed the same deltas ship
the same bytes as long as no counter wraps (`carried`): `not_carried` is the run of a
release build whose replicas disagree after a wrapped add.
-/

namespace RealmGuard

open Lib Lib.Postcard

/-! ## Encodings -/

instance : Wire DeviceId :=
  .ofEquiv ⟨DeviceId.bytes, DeviceId.mk, fun _ => rfl, fun _ => rfl⟩

instance : Wire EntryId :=
  .ofEquiv ⟨EntryId.bytes, EntryId.mk, fun _ => rfl, fun _ => rfl⟩

instance : Wire FieldId :=
  .ofEquiv ⟨FieldId.tag, FieldId.mk, fun _ => rfl, fun _ => rfl⟩

instance : Wire Dot :=
  .ofEquiv ⟨fun d => (d.device, d.counter), fun q => ⟨q.1, q.2⟩, fun _ => rfl, fun _ => rfl⟩

instance : Wire DotContext :=
  .ofEquiv ⟨fun c => (c.cc, c.dc), fun q => ⟨q.1, q.2⟩, fun _ => rfl, fun _ => rfl⟩

instance {E : Type} [LinearOrder E] [Wire E] : Wire (AddWinsSet E) :=
  .ofEquiv ⟨fun s => (s.entries, s.ctx), fun q => ⟨q.1, q.2⟩, fun _ => rfl, fun _ => rfl⟩

instance : Wire Hlc :=
  .ofEquiv ⟨fun h => (h.wallMs, h.counter), fun q => ⟨q.1, q.2⟩, fun _ => rfl, fun _ => rfl⟩

instance : Wire Timestamp :=
  .ofEquiv ⟨fun t => (t.hlc, t.device), fun q => ⟨q.1, q.2⟩, fun _ => rfl, fun _ => rfl⟩

instance {T : Type} [Wire T] : Wire (LwwRegister T) :=
  .ofEquiv ⟨fun r => (r.value, r.ts), fun q => ⟨q.1, q.2⟩, fun _ => rfl, fun _ => rfl⟩

namespace VaultDoc

instance {V : Type} [LinearOrder V] [Wire V] : Wire (VaultDoc V) :=
  .ofEquiv ⟨fun d => (d.entries, d.fields), fun q => ⟨q.1, q.2⟩, fun _ => rfl, fun _ => rfl⟩

variable {V : Type} [LinearOrder V] [Wire V] {p : Profile} {n : DocNet V}
  {ok : DocNet V → Action DeviceId (DocOp V) → Prop}

/-- A document decodes from its encoding. -/
theorem decode_encode {d : VaultDoc V} (h : Fits d) :
    (Codec.encode d >>= Codec.decode) = .ok d := Codec.decode_encoding h

/-- Documents with the same history encode to the same bytes. -/
theorem encode_eq_of_hist_eq (hn : Runs (replicated p V) ok n)
    (hw : (presence p V).NoWrap n.log) {a b : VaultDoc V} {h : Finset ℕ} (ha : n.Holds a h)
    (hb : n.Holds b h) : Codec.encode a = Codec.encode b :=
  congrArg Codec.encode (eq_of_hist_eq hn hw ha hb)

/-- The wire format carries the documents of a run: they decode to themselves, agreeing
replicas ship the same bytes unless a counter wrapped, and a decoded delta merges like the
delta. `Fits` holds of every document in memory: no collection is longer than a `usize` tells. -/
structure Carried (p : Profile) (n : DocNet V) : Prop where
  roundTrip : ∀ d h, n.Holds d h → Fits d → (Codec.encode d >>= Codec.decode) = .ok d
  agree : (p = .dev ∨ ∀ d, (presence p V).adds n.log d < 2 ^ 64) →
    ∀ dv dv', n.hist dv = n.hist dv' → Codec.encode (n.doc dv) = Codec.encode (n.doc dv')
  merge : ∀ δ h, n.Holds δ h → Fits δ → ∀ δ', (Codec.encode δ >>= Codec.decode) = .ok δ' →
    ∀ d : VaultDoc V, d.merge p δ' = d.merge p δ

/-- **The sync format round-trips, and replicas that agree ship the same bytes.** -/
theorem carried (p : Profile) (n : DocNet Ciphertext)
    (hn : Runs (replicated p Ciphertext) Free n) : Carried p n := by
  refine ⟨fun d h _ hfits => decode_encode hfits, fun hadds dv dv' hhist => ?_, ?_⟩
  · exact encode_eq_of_hist_eq hn hadds (.replica dv) (hhist ▸ .replica dv')
  · intro δ h _ hfits δ' hdec d
    rw [decode_encode hfits] at hdec
    obtain rfl := Except.ok.inj hdec
    rfl

/-- Device 1 adds two entries and fills a field; device 2 hears of the second entry first, and
then of the rest. -/
def shipped : List (Action DeviceId (DocOp Ciphertext)) :=
  [.update (dev 1) (.addEntry (eid 2)), .update (dev 1) (.addEntry (eid 1)),
    .update (dev 1) (.setField (eid 1) ⟨300⟩ ⟨1, .replicate 24 9, [1, 2, 3]⟩ ⟨⟨1000, 0⟩, dev 1⟩),
    .deliver (dev 2) 2, .publish (dev 2), .deliver (dev 2) 3, .deliver (dev 2) 1]

theorem carried_shipped : ∃ n, Runs (replicated .dev Ciphertext) Free n ∧
    n.hist (dev 1) = n.hist (dev 2) ∧ (n.doc (dev 1)).len = 2 ∧ Carried .dev n ∧
    Codec.encode (n.doc (dev 1)) = Codec.encode (n.doc (dev 2)) := by
  have h : ((Net.init (replicated .dev Ciphertext)).exec (replicated .dev Ciphertext) Free
      shipped).any (fun n => n.hist (dev 1) = n.hist (dev 2) ∧ (n.doc (dev 1)).len = 2) = true := by
    decide
  obtain ⟨n, hexec, h⟩ := (Option.any_eq_true _ _).mp h
  obtain ⟨hhist, hlen⟩ := of_decide_eq_true h
  have hn := Runs.init.exec hexec
  have hcarried := carried .dev n hn
  exact ⟨n, hn, hhist, hlen, hcarried, hcarried.agree (.inl rfl) _ _ hhist⟩

/-- Without the bound replicas that agree may ship different bytes: the last add of device 1
draws counter `0`, and device 2 drops the entry when it merges the delta. -/
theorem not_carried : ¬ ∀ (p : Profile) (n : DocNet Ciphertext),
    Runs (replicated p Ciphertext) Free n → ∀ dv dv', n.hist dv = n.hist dv' →
      Codec.encode (n.doc dv) = Codec.encode (n.doc dv') := by
  intro hall
  obtain ⟨n, hn, hdev⟩ := run_exhausted Ciphertext
  obtain ⟨hhist, hdoc⟩ := hdev (dev 1) (by simp)
  obtain ⟨hhist₂, hdoc₂⟩ := hdev (dev 2) (by simp)
  have hne : dev 2 ≠ dev 1 := by decide
  have hlast : ((exhausted Ciphertext).addEntry .release (eid 1) (dev 1)).any (fun q =>
      ((exhausted Ciphertext).merge .release q.2).any fun m =>
        Wire.encode q.1 ≠ Wire.encode m) = true := by decide
  obtain ⟨⟨d, δ⟩, hadd, hm⟩ := (Option.any_eq_true _ _).mp hlast
  obtain ⟨m, hm, hbytes⟩ := (Option.any_eq_true _ _).mp hm
  rw [← hdoc] at hadd
  have hmut : (replicated .release Ciphertext).mutate (dev 1) (.addEntry (eid 1)) (n.doc (dev 1)) =
      some (d, δ) := hadd
  have hfree : Runs (replicated .release Ciphertext) Free n := hn.mono fun _ _ _ => trivial
  have hn₁ := hfree.step (a := .update (dev 1) (.addEntry (eid 1))) trivial (Net.update_eq hmut)
  have hmerge : (Function.update n.doc (dev 1) d (dev 2)).merge .release δ = some m := by
    rw [Function.update_of_ne hne, hdoc₂]
    exact hm
  have hn₂ := hn₁.step (a := .deliver (dev 2) n.pool.length) trivial
    (Net.deliver_eq List.getElem?_concat_length hmerge)
  have hagree := hall .release _ hn₂ (dev 1) (dev 2) (by
    simp [hne, hne.symm, hhist, hhist₂])
  refine of_decide_eq_true hbytes ?_
  simpa [hne.symm, Codec.encode] using hagree

end VaultDoc

end RealmGuard
