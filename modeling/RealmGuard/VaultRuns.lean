import RealmGuard.JoinLaws
import RealmGuard.PresenceRuns

/-!
# Runs of vault documents

Replicas of one `VaultDoc`, exchanging deltas, joins of deltas and snapshots in
any order. Every document of a run is the join of the deltas in its history
(`abs_eq_join`), and well-formed documents with the same `abs` are equal: so a
replica's document is the fold of its deltas, in any order (`eq_fold`). The dots
of a run are unique and each lies in the context of the device that made it
(`dots_unique`).
-/

namespace RealmGuard

open Lib DotContext

/-- The local operations of a replica. -/
inductive DocOp (V : Type) where
  | addEntry (id : EntryId)
  | removeEntry (id : EntryId)
  | setField (id : EntryId) (field : FieldId) (value : V) (ts : Timestamp)
deriving DecidableEq

abbrev DocEvent (V : Type) [LinearOrder V] : Type := Event DeviceId (DocOp V) (VaultDoc V)

abbrev DocNet (V : Type) [LinearOrder V] : Type := Net DeviceId (DocOp V) (VaultDoc V)

namespace VaultDoc

variable {V : Type} [LinearOrder V] {p : Profile} {n : DocNet V}
  {ok : DocNet V → Action DeviceId (DocOp V) → Prop}

/-- Replicas of a vault document; each adds under its own device. -/
def replicated (p : Profile) (V : Type) [LinearOrder V] :
    DeltaType DeviceId (DocOp V) (VaultDoc V) where
  init := .new
  mutate device
    | .addEntry id, d => d.addEntry p id device
    | .removeEntry id, d => d.removeEntry p id
    | .setField id field value ts, d => some (d.setField id field value ts)
  merge a b := a.merge p b

def presence (p : Profile) (V : Type) [LinearOrder V] :
    Presence p (replicated p V) EntryId where
  view := entries
  kind
    | .addEntry id => some (.add id)
    | .removeEntry id => some (.remove id)
    | .setField .. => none
  init := rfl
  merge hm := (merge_eq_some.mp hm).1
  add {_ op _ _ _ _} hk hm := by
    cases op with
    | addEntry id =>
      obtain rfl := SetOp.add.inj (Option.some.inj hk)
      exact (addEntry_eq_some.mp hm).1
    | removeEntry id => cases hk
    | setField id f v ts => cases hk
  remove {_ op _ _ _ _} hk hm := by
    cases op with
    | addEntry id => cases hk
    | removeEntry id =>
      obtain rfl := SetOp.remove.inj (Option.some.inj hk)
      exact (removeEntry_eq_some.mp hm).1
    | setField id f v ts => cases hk
  other {_ op _ _ _} hk hm := by
    cases op with
    | addEntry id => cases hk
    | removeEntry id => cases hk
    | setField id f v ts =>
      obtain ⟨rfl, rfl⟩ := Prod.mk.inj (Option.some.inj hm)
      exact ⟨rfl, rfl⟩

/-! ## Convergence -/

/-- Every document of a run is the join of the deltas in its history. -/
theorem abs_eq_join (hn : Runs (replicated p V) ok n) (hw : (presence p V).NoWrap n.log) :
    ∀ t h, n.Holds t h → t.abs = join (replicated p V) abs n.log h := by
  refine hn.eq_join (C := (presence p V).NoWrap) (fun _ _ => Presence.NoWrap.of_snoc) abs_new ?_ ?_
    hw
  · intro n a b c h h' hn hw ha hb hm
    exact (WellFormed.merge (Presence.sound hn hw ha).wellFormed
      (Presence.sound hn hw hb).wellFormed hm).2
  · intro n d op s δ hn hw _ hm
    have hk := Presence.kernel_update hn hw hm
    refine Prod.ext hk ?_
    show allKeys s.fields = allKeys (n.doc d).fields ⊔ allKeys δ.fields
    cases op with
    | addEntry id =>
      obtain ⟨-, hf, hδ⟩ := addEntry_eq_some.mp hm
      rw [hf, hδ]
      exact (sup_bot_eq _).symm
    | removeEntry id =>
      obtain ⟨-, hf, hδ⟩ := removeEntry_eq_some.mp hm
      rw [hf, hδ]
      exact (sup_bot_eq _).symm
    | setField id f v ts =>
      obtain ⟨rfl, rfl⟩ := Prod.mk.inj (Option.some.inj hm)
      exact congrArg Prod.snd (abs_setField (n.doc d) id f v ts)

theorem wellFormed_of_holds (hn : Runs (replicated p V) ok n)
    (hw : (presence p V).NoWrap n.log) {t : VaultDoc V} {h : Finset ℕ} (ht : n.Holds t h) :
    t.WellFormed := (Presence.sound hn hw ht).wellFormed

/-- Merges of documents of a run return. -/
theorem merge_isSome_of_holds (hn : Runs (replicated p V) ok n)
    (hw : (presence p V).NoWrap n.log) {a b : VaultDoc V} {h h' : Finset ℕ} (ha : n.Holds a h)
    (hb : n.Holds b h') : ∃ c, a.merge p b = some c := by
  obtain ⟨es, hes⟩ := Presence.merge_isSome hn hw ha hb
  exact ⟨_, merge_eq_some (m := ⟨es, _⟩).mpr ⟨hes, rfl⟩⟩

/-- Documents with the same history are equal. -/
theorem eq_of_hist_eq (hn : Runs (replicated p V) ok n) (hw : (presence p V).NoWrap n.log)
    {a b : VaultDoc V} {h : Finset ℕ} (ha : n.Holds a h) (hb : n.Holds b h) : a = b :=
  (wellFormed_of_holds hn hw ha).ext (wellFormed_of_holds hn hw hb)
    (by rw [abs_eq_join hn hw a h ha, abs_eq_join hn hw b h hb])

/-- **Strong eventual consistency.** A replica's document is the fold of `merge`
over the deltas in its history, in any order and with any repetitions, and two
replicas with the same history hold equal documents. -/
theorem eq_fold (p : Profile) (n : DocNet V)
    (hn : Runs (replicated p V) Free n)
    (hadds : ∀ d, (presence p V).adds n.log d < 2 ^ 64 - 1) :
    (∀ (r : DeviceId) (l : List ℕ), (∀ i, i ∈ l ↔ i ∈ n.hist r) →
      (l.map (deltaAt (replicated p V) n.log)).foldlM (VaultDoc.merge p) .new = some (n.doc r)) ∧
    ∀ r r', n.hist r = n.hist r' → n.doc r = n.doc r' := by
  have hw : (presence p V).NoWrap n.log := .inr fun d => (hadds d).trans (by decide)
  refine ⟨fun r l hl => ?_, fun r r' hrr => ?_⟩
  · have hlt : ∀ i ∈ l, i < n.log.length := fun i hi => hn.hist_lt (.replica r) i ((hl i).mp hi)
    have hset : ∅ ∪ l.toFinset = n.hist r := by
      rw [Finset.empty_union]
      exact Finset.ext fun i => by rw [List.mem_toFinset, hl]
    obtain ⟨n', t, hn', hlog, hfold, ht⟩ := Runs.foldlM_deltas
      (fun hq hlog ha hb => merge_isSome_of_holds hq (hlog ▸ hw) ha hb) hlt hn rfl
      hn.init_mem_pool
    rw [hset] at ht
    have habs := abs_eq_join hn' (hlog ▸ hw) t _ ht
    rw [hlog, ← abs_eq_join hn hw _ _ (.replica r)] at habs
    exact hfold.trans (congrArg some ((wellFormed_of_holds hn' (hlog ▸ hw) ht).ext
      (wellFormed_of_holds hn hw (.replica r)) habs))
  · exact eq_of_hist_eq hn hw (.replica r) (hrr ▸ .replica r')

/-- Two devices add the same entry and write the same field, and hear of each other late. -/
def exchange : List (Action DeviceId (DocOp ℕ)) :=
  [.update (dev 1) (.addEntry (eid 1)), .update (dev 2) (.addEntry (eid 1)),
    .update (dev 1) (.setField (eid 1) ⟨0⟩ 5 ⟨⟨1, 0⟩, dev 1⟩),
    .update (dev 2) (.removeEntry (eid 1)), .publish (dev 1), .combine 4 1,
    .deliver (dev 2) 5, .deliver (dev 1) 6, .deliver (dev 1) 2]

theorem eq_fold_exchange : ∃ n, Runs (replicated .dev ℕ) Free n ∧
    ([2, 0, 1, 3, 1].map (deltaAt (replicated .dev ℕ) n.log)).foldlM (VaultDoc.merge .dev) .new =
      some (n.doc (dev 1)) := by
  have h : ((Net.init (replicated .dev ℕ)).exec (replicated .dev ℕ) Free exchange).any
      (fun n => n.log.length = 4 ∧ n.hist (dev 1) = {0, 1, 2, 3}) = true := by decide
  obtain ⟨n, hexec, h⟩ := (Option.any_eq_true _ _).mp h
  obtain ⟨hlen, hhist⟩ := of_decide_eq_true h
  have hn := Runs.init.exec hexec
  refine ⟨n, hn, (eq_fold .dev n hn (fun d => ?_)).1 (dev 1) _ fun i => ?_⟩
  · exact (Presence.adds_le_length d).trans_lt (by rw [hlen]; decide)
  · rw [hhist]
    simp
    omega

/-! ## Dots -/

/-- What holds of the dots of a system: an add draws one dot of its device, which no
other operation draws; what a document contains the replica of its device contains; the
dots of an element are there, counted from 1, in the document's own context, and of no
other element in any document. -/
structure DotLaws (n : DocNet V) : Prop where
  drawn : ∀ (i : ℕ) (ev : DocEvent V) (id : EntryId), n.log[i]? = some ev →
    ev.op = .addEntry id →
    ∃ x, x.device = ev.device ∧ ∀ y, y ∈ ev.delta.entries.dots id ↔ y = x
  unique : ∀ (i j : ℕ) (ev ev' : DocEvent V) (id id' : EntryId) (x : Dot), n.log[i]? = some ev →
    n.log[j]? = some ev' → ev.op = .addEntry id → ev'.op = .addEntry id' →
    x ∈ ev.delta.entries.dots id → x ∈ ev'.delta.entries.dots id' → i = j
  known : ∀ (t : VaultDoc V) (h : Finset ℕ) (x : Dot), n.Holds t h →
    t.entries.ctx.contains x = true → (n.doc x.device).entries.ctx.contains x = true
  entries : ∀ (t : VaultDoc V) (h : Finset ℕ) (id : EntryId) (ds : BTreeSet Dot), n.Holds t h →
    t.entries.entries.get? id = some ds →
    (∃ x, x ∈ ds) ∧ ∀ x ∈ ds, 1 ≤ x.counter ∧ t.entries.ctx.contains x = true
  attached : ∀ (t t' : VaultDoc V) (h h' : Finset ℕ) (id id' : EntryId) (x : Dot), n.Holds t h →
    n.Holds t' h' → x ∈ t.entries.dots id → x ∈ t'.entries.dots id' → id = id'

/-- **Dots are unique and known to their maker**, in every run. -/
theorem dotLaws (p : Profile) (n : DocNet V) (hn : Runs (replicated p V) Free n)
    (hadds : ∀ d, (presence p V).adds n.log d < 2 ^ 64 - 1) : DotLaws n := by
  have hw : (presence p V).NoWrap n.log := .inr fun d => (hadds d).trans (by decide)
  have hl := Presence.labels hn hw
  have hkind : ∀ {ev : DocEvent V} {id : EntryId}, ev.op = .addEntry id →
      (presence p V).kind ev.op = some (.add id) := fun h => by rw [h]; rfl
  refine ⟨fun i ev id hev hop => ?_, fun i j ev ev' id id' x hi hj hop hop' hx hx' => ?_,
    fun t h x ht hx => ?_, fun t h id ds ht hds => ?_, fun t t' h h' id id' x ht ht' hx hx' => ?_⟩
  · obtain ⟨x, s', hd, hspec⟩ := hl.spec hev (hkind hop)
    exact ⟨x, hd, fun y => hspec.mem_delta_dots.trans (and_iff_right rfl)⟩
  · exact hl.unique ⟨ev, hi, hkind hop, hx⟩ ⟨ev', hj, hkind hop', hx'⟩
  · refine Canonical.contains_mono (wellFormed_of_holds hn hw ht).canonical
      (wellFormed_of_holds hn hw (.replica x.device)).canonical (fun k hk => ?_) hx
    obtain ⟨i, e, hm⟩ := (Presence.sound hn hw ht).made hk
    exact Presence.mem_maker hn hw hm
  · have hs := Presence.sound hn hw ht
    have hdots : t.entries.dots id = ds := AddWinsSet.dots_eq_of_get? hds
    refine ⟨hs.wellFormed.nonempty id ds hds, fun x hx => ?_⟩
    rw [← hdots] at hx
    exact ⟨pos_iff_one_le.mp (hs.wellFormed.pos id x hx), contains_of_mem (hs.seen hx)⟩
  · obtain ⟨i, hi⟩ := (Presence.sound hn hw ht).owner hx
    obtain ⟨j, hj⟩ := (Presence.sound hn hw ht').owner hx'
    exact hl.same_element hi hj

theorem dotLaws_exchange : ∃ n, Runs (replicated .dev ℕ) Free n ∧ n.log.length = 4 ∧ DotLaws n := by
  have h : ((Net.init (replicated .dev ℕ)).exec (replicated .dev ℕ) Free exchange).any
      (fun n => n.log.length = 4) = true := by decide
  obtain ⟨n, hexec, h⟩ := (Option.any_eq_true _ _).mp h
  have hlen := of_decide_eq_true h
  have hn := Runs.init.exec hexec
  exact ⟨n, hn, hlen, dotLaws .dev n hn fun d =>
    (Presence.adds_le_length d).trans_lt (by rw [hlen]; decide)⟩

end VaultDoc

end RealmGuard
