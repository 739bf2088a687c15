import RealmGuard.AwSetRuns
import RealmGuard.Lib.ReplicaMap
import RealmGuard.VaultRuns

/-!
# Deltas reproduce mutations

A mutator changes the document in place and returns a delta. Merged into the
document the delta gives what the mutator made of it, so every operation moves
up in the join order, and a peer may take the old document and the delta for the
new document (`reproduces`). This holds of every document of a run as long as no
counter wraps; `not_reproduces` is the add of a release build that draws counter
`0`, which its own document takes for a dot long dead.
-/

namespace RealmGuard.VaultDoc

open Lib DotContext AddWinsSet

variable {V : Type} [LinearOrder V] {p : Profile} {n : DocNet V}
  {ok : DocNet V → Action DeviceId (DocOp V) → Prop} {a b c d d' e δ : VaultDoc V}

/-! ## Merges with the same join -/

theorem noCompletion_iff_of_not_full {s t : Set Dot} (hs : ∀ d, ¬ Full s d)
    (ht : ∀ d, ¬ Full t d) : NoCompletion s t ↔ ∀ d, ¬ Full (s ∪ t) d := by
  refine forall_congr' fun d => ⟨fun h hf => ?_, fun h hf => absurd hf h⟩
  exact (h hf).elim (hs d) (ht d)

/-- Merges that join to the same document return the same, a panic included, when no side has
all counters of a device. -/
theorem WellFormed.merge_congr (ha : a.WellFormed) (hb : b.WellFormed) (hc : c.WellFormed)
    (he : e.WellFormed) (habs : a.abs ⊔ b.abs = c.abs ⊔ e.abs)
    (hfull : p = .dev → ∀ t ∈ [a, b, c, e], ∀ dv, ¬ Full t.observed dv) :
    a.merge p b = c.merge p e := by
  have hiff : (∃ m, a.merge p b = some m) ↔ ∃ m, c.merge p e = some m := by
    rw [ha.merge_isSome_iff hb, hc.merge_isSome_iff he]
    cases p with
    | release => exact iff_of_true (.inl rfl) (.inl rfl)
    | dev =>
      have hf := hfull rfl
      have hobs : a.observed ∪ b.observed = c.observed ∪ e.observed :=
        congrArg (fun s => s.1.seen) habs
      rw [noCompletion_iff_of_not_full (hf a (by simp)) (hf b (by simp)),
        noCompletion_iff_of_not_full (hf c (by simp)) (hf e (by simp)), hobs]
  by_cases h : ∃ m, a.merge p b = some m
  · obtain ⟨m', hm'⟩ := hiff.mp h
    obtain ⟨m, hm⟩ := h
    obtain ⟨hwf, hab⟩ := ha.merge hb hm
    obtain ⟨hwf', hce⟩ := hc.merge he hm'
    rw [hm, hm', hwf.ext hwf' (by rw [hab, hce, habs])]
  · have h' : ¬ ∃ m, c.merge p e = some m := fun hce => h (hiff.mpr hce)
    rw [Option.eq_none_iff_forall_ne_some.mpr fun m hm => h ⟨m, hm⟩,
      Option.eq_none_iff_forall_ne_some.mpr fun m hm => h' ⟨m, hm⟩]

/-! ## One mutation -/

/-- A mutation moves the document up by its delta. -/
structure Moves (d d' δ : VaultDoc V) : Prop where
  wellFormed : d'.WellFormed
  delta_wellFormed : δ.WellFormed
  abs : d'.abs = d.abs ⊔ δ.abs

theorem Moves.observed (h : Moves d d' δ) : d'.observed = d.observed ∪ δ.observed :=
  congrArg (fun s => s.1.seen) h.abs

section Mutate

variable {id : EntryId} {device : DeviceId}

/-- The dots of a document have been observed, and are active for one entry. -/
def Distinct (d : VaultDoc V) : Prop := ∀ id, Exclusive d.entries id

theorem Distinct.seen (h : Distinct d) (id : EntryId) (x : Dot) (hx : x ∈ d.entries.dots id) :
    x ∈ d.entries.ctx.observed := (h id x hx).1

theorem addEntry_moves (hd : d.WellFormed) (hex : Distinct d)
    (htop : p = .dev ∨ (d.entries.ctx.top device).toNat + 1 < 2 ^ 64)
    (h : d.addEntry p id device = some (d', δ)) : Moves d d' δ := by
  obtain ⟨hadd, hf, hδ⟩ := addEntry_eq_some.mp h
  obtain ⟨x, -, hspec, -⟩ := add_spec hd htop hadd
  obtain ⟨hwf, hwfδ⟩ := hspec.wellFormed hd
  refine ⟨hwf, hwfδ, Prod.ext (hspec.kernel hex.seen (hex id)) ?_⟩
  show allKeys d'.fields = allKeys d.fields ⊔ allKeys δ.fields
  rw [hf, hδ]
  exact (sup_bot_eq _).symm

theorem removeEntry_moves (hd : d.WellFormed) (hex : Distinct d)
    (h : d.removeEntry p id = some (d', δ)) : Moves d d' δ := by
  obtain ⟨hrem, hf, hδ⟩ := removeEntry_eq_some.mp h
  have hspec := remove_spec hd hrem
  obtain ⟨hwf, hwfδ⟩ := hspec.wellFormed hd
  refine ⟨hwf, hwfδ, Prod.ext (hspec.kernel (hex id)) ?_⟩
  show allKeys d'.fields = allKeys d.fields ⊔ allKeys δ.fields
  rw [hf, hδ]
  exact (sup_bot_eq _).symm

theorem setField_moves (hd : d.WellFormed) (id : EntryId) (f : FieldId) (v : V) (ts : Timestamp) :
    Moves d (d.setField id f v ts).1 (d.setField id f v ts).2 :=
  ⟨hd, AddWinsSet.wellFormed_new, abs_setField d id f v ts⟩

theorem mutate_moves {op : DocOp V} (hd : d.WellFormed) (hex : Distinct d)
    (htop : p = .dev ∨ (d.entries.ctx.top device).toNat + 1 < 2 ^ 64)
    (h : (replicated p V).mutate device op d = some (d', δ)) : Moves d d' δ := by
  cases op with
  | addEntry id => exact addEntry_moves hd hex htop h
  | removeEntry id => exact removeEntry_moves hd hex h
  | setField id f v ts =>
    obtain ⟨rfl, rfl⟩ := Prod.mk.inj (Option.some.inj h)
    exact setField_moves hd id f v ts

/-- A mutation that returns in a dev build completes no device. -/
theorem mutate_not_full {op : DocOp V} (hd : d.WellFormed) (hfull : ∀ dv, ¬ Full d.observed dv)
    (hlast : ∀ dv, Dot.new dv maxU64 ∉ d.observed)
    (h : (replicated .dev V).mutate device op d = some (d', δ)) (dv : DeviceId) :
    ¬ Full d'.observed dv := by
  cases op with
  | addEntry id =>
    obtain ⟨hadd, -, -⟩ := addEntry_eq_some.mp h
    obtain ⟨x, hx, hspec, hnot⟩ := add_spec hd (.inl rfl) hadd
    by_cases hdv : dv = device
    · exact hdv ▸ hnot rfl
    · intro hf
      have hmem := hf maxU64 (by decide)
      change _ ∈ d'.entries.ctx.observed at hmem
      rw [hspec.observed] at hmem
      rcases hmem with rfl | hmem
      · exact hdv hx
      · exact hlast dv hmem
  | removeEntry id =>
    obtain ⟨hrem, -, -⟩ := removeEntry_eq_some.mp h
    have hctx := (remove_spec hd hrem).ctx
    unfold observed
    rw [hctx]
    exact hfull dv
  | setField id f v ts =>
    obtain ⟨rfl, rfl⟩ := Prod.mk.inj (Option.some.inj h)
    exact hfull dv

end Mutate

/-! ## Documents of runs -/

section Held

variable (hn : Runs (replicated p V) ok n) (hw : (presence p V).NoWrap n.log)
include hn hw

theorem distinct_of_holds {h : Finset ℕ} (hd : n.Holds d h) : Distinct d := fun id =>
  (Presence.labels hn hw).exclusive (Presence.sound hn hw hd) id

/-- In a dev build no document of a run holds the last counter of a device. -/
theorem last_not_mem {h : Finset ℕ} (hd : n.Holds d h) (hp : p = .dev) (dv : DeviceId) :
    Dot.new dv maxU64 ∉ d.observed := by
  intro hmem
  obtain ⟨i, id, hm⟩ := (Presence.sound hn hw hd).made hmem
  exact (Presence.labels hn hw).notMax hp hm rfl

theorem not_full_of_holds {h : Finset ℕ} (hd : n.Holds d h) (hp : p = .dev) (dv : DeviceId) :
    ¬ Full d.observed dv := fun hf => last_not_mem hn hw hd hp dv (hf maxU64 (by decide))

theorem top_lt_of_holds {h : Finset ℕ} (hd : n.Holds d h) {device : DeviceId}
    (hadds : p = .dev ∨ (presence p V).adds n.log device < 2 ^ 64 - 1) :
    p = .dev ∨ (d.entries.ctx.top device).toNat + 1 < 2 ^ 64 := by
  refine hadds.imp_right fun hlt => ?_
  have htop : (d.entries.ctx.top device).toNat ≤ (presence p V).adds n.log device :=
    (Presence.sound hn hw hd).top_le (Presence.labels hn hw) device
  omega

end Held

/-- What the delta of a mutation of `d` into `d'` does: it gives `d'` when merged into `d`, so
that `d'` lies above `d`, no dead dot is active again and no register goes back; and a peer
that has `d` gets by it what merging `d'` would give. -/
structure Reproduced (p : Profile) (n : DocNet V) (d d' δ : VaultDoc V) : Prop where
  delta : d.merge p δ = some d'
  up : d.merge p d' = some d'
  dots : ∀ id x, x ∈ d'.entries.dots id → d.entries.ctx.contains x = true → x ∈ d.entries.dots id
  registers : ∀ id f, d.regKey id f ≤ d'.regKey id f
  peer : ∀ q h, n.Holds q h → (q.merge p d).bind (fun m => m.merge p δ) = q.merge p d'

/-- **Every mutator's delta reproduces the mutation**, of any document of a run. -/
theorem reproduces (p : Profile) (n : DocNet V) (hn : Runs (replicated p V) Free n)
    (hadds : p = .dev ∨ ∀ d, (presence p V).adds n.log d < 2 ^ 64 - 1) (d : VaultDoc V)
    (h : Finset ℕ) (hd : n.Holds d h) (device : DeviceId) (op : DocOp V) (d' δ : VaultDoc V)
    (hm : (replicated p V).mutate device op d = some (d', δ)) : Reproduced p n d d' δ := by
  have hw : (presence p V).NoWrap n.log := hadds.imp_right fun hlt dv => (hlt dv).trans (by decide)
  have hwf := wellFormed_of_holds hn hw hd
  have htop := top_lt_of_holds hn hw hd (hadds.imp_right fun hlt => hlt device)
  have hmv := mutate_moves hwf (distinct_of_holds hn hw hd) htop hm
  have hfull : p = .dev → ∀ dv, ¬ Full d'.observed dv := by
    rintro rfl dv
    exact mutate_not_full hwf (not_full_of_holds hn hw hd rfl) (last_not_mem hn hw hd rfl) hm dv
  have hδ : p = .dev → ∀ dv, ¬ Full δ.observed dv := fun hp dv hf => by
    refine hfull hp dv ?_
    rw [hmv.observed]
    exact full_union_right hf
  have hself : d'.merge p d' = some d' := hmv.wellFormed.merge_self
  have hdelta : d.merge p δ = some d' := by
    rw [← hself]
    refine hwf.merge_congr hmv.delta_wellFormed hmv.wellFormed hmv.wellFormed ?_ fun hp => ?_
    · rw [sup_idem, hmv.abs]
    · simpa using ⟨not_full_of_holds hn hw hd hp, hδ hp, hfull hp⟩
  refine ⟨hdelta, ?_, fun id x hx hcon => ?_, fun id f => ?_, fun q k hq => ?_⟩
  · refine Eq.trans ?_ hself
    refine hwf.merge_congr hmv.wellFormed hmv.wellFormed hmv.wellFormed ?_ fun hp => ?_
    · rw [sup_idem, hmv.abs, ← sup_assoc, sup_idem]
    · simpa using ⟨not_full_of_holds hn hw hd hp, hfull hp⟩
  · exact ((mem_dots_merge (merge_eq_some.mp hdelta).1).mp hx).2.1.resolve_right
      (not_not.mpr hcon)
  · rw [regKey_merge hdelta]
    exact le_sup_left
  · obtain ⟨m, hqd⟩ := merge_isSome_of_holds hn hw hq hd
    have hwq := wellFormed_of_holds hn hw hq
    obtain ⟨hwm, habs⟩ := hwq.merge hwf hqd
    rw [hqd, Option.bind_some]
    refine hwm.merge_congr hmv.delta_wellFormed hwq hmv.wellFormed ?_ fun hp => ?_
    · rw [habs, hmv.abs, sup_assoc]
    · have hfm : ∀ dv, ¬ Full m.observed dv := fun dv hf => by
        have hmem := hf maxU64 (by decide)
        rw [hwq.observed_merge hwf hqd] at hmem
        exact hmem.elim (last_not_mem hn hw hq hp dv) (last_not_mem hn hw hd hp dv)
      simpa using ⟨hfm, hδ hp, not_full_of_holds hn hw hq hp, hfull hp⟩

/-- Device 2 adds an entry, and hears of the second of two adds of device 1. -/
def gapped : List (Action DeviceId (DocOp ℕ)) :=
  [.update (dev 1) (.addEntry (eid 2)), .update (dev 1) (.addEntry (eid 1)),
    .update (dev 2) (.addEntry (eid 1)), .deliver (dev 2) 2]

theorem reproduces_gapped : ∃ n, Runs (replicated .dev ℕ) Free n ∧
    (n.doc (dev 2)).entries.ctx.dc ≠ .empty ∧ ∃ d' δ,
      (replicated .dev ℕ).mutate (dev 2) (.addEntry (eid 1)) (n.doc (dev 2)) = some (d', δ) ∧
        Reproduced .dev n (n.doc (dev 2)) d' δ := by
  have h : ((Net.init (replicated .dev ℕ)).exec (replicated .dev ℕ) Free gapped).any
      (fun n => (n.doc (dev 2)).entries.ctx.dc ≠ .empty ∧
        ((n.doc (dev 2)).addEntry .dev (eid 1) (dev 2)).isSome = true) = true := by decide
  obtain ⟨n, hexec, h⟩ := (Option.any_eq_true _ _).mp h
  obtain ⟨hdc, hsome⟩ := of_decide_eq_true h
  obtain ⟨⟨d', δ⟩, hadd⟩ := Option.isSome_iff_exists.mp hsome
  have hn := Runs.init.exec hexec
  exact ⟨n, hn, hdc, d', δ, hadd,
    reproduces .dev n hn (.inl rfl) _ _ (.replica (dev 2)) (dev 2) (.addEntry (eid 1)) d' δ hadd⟩

/-! ## The wrapped counter -/

section OneEntry

variable (V)

/-- A set of numbers read as a document: element 7 is an entry, the others are forgotten. -/
def oneEntry : Reading DeviceId (SetOp ℕ) (AddWinsSet ℕ) (DocOp V) (VaultDoc V) where
  doc s := ⟨⟨(s.entries.get? 7).elim .empty fun ds => BTreeMap.empty.insert (eid 1) ds, s.ctx⟩,
    .empty⟩
  op _ _ _ := .addEntry (eid 1)

theorem get?_oneEntry (s : AddWinsSet ℕ) (id : EntryId) :
    ((oneEntry V).doc s).entries.entries.get? id =
      if id = eid 1 then s.entries.get? 7 else none := by
  show ((s.entries.get? 7).elim .empty fun ds => BTreeMap.empty.insert (eid 1) ds).get? id = _
  cases h : s.entries.get? 7 <;> simp

theorem dots_oneEntry (s : AddWinsSet ℕ) (id : EntryId) :
    ((oneEntry V).doc s).entries.dots id = if id = eid 1 then s.dots 7 else .empty := by
  unfold dots
  rw [get?_oneEntry]
  by_cases h : id = eid 1 <;> simp [h]

theorem oneEntry_add {s s' δ : AddWinsSet ℕ} {dv : DeviceId}
    (h : s.add .release 7 dv = some (s', δ)) :
    ((oneEntry V).doc s).addEntry .release (eid 1) dv =
      some ((oneEntry V).doc s', (oneEntry V).doc δ) := by
  obtain ⟨x, c₀, hnext, hc₀, hall, he, hδ⟩ := add_eq_some.mp h
  refine addEntry_eq_some.mpr ⟨add_eq_some.mpr ⟨x, c₀, hnext, hc₀, ?_, ?_, ?_⟩, rfl, rfl⟩
  · rw [dots_oneEntry, if_pos rfl]
    exact hall
  · refine BTreeMap.ext_get? fun id => ?_
    rw [BTreeMap.get?_insert, get?_oneEntry, get?_oneEntry, he, BTreeMap.get?_insert, if_pos rfl]
    by_cases hid : id = eid 1 <;> simp [hid]
  · refine BTreeMap.ext_get? fun id => ?_
    rw [BTreeMap.get?_insert, get?_oneEntry, hδ, BTreeMap.get?_insert, if_pos rfl]
    rfl

theorem oneEntry_merge {a b c : AddWinsSet ℕ} (h : a.merge .release b = some c) :
    ((oneEntry V).doc a).merge .release ((oneEntry V).doc b) = some ((oneEntry V).doc c) := by
  obtain ⟨he, hctx⟩ := AddWinsSet.merge_eq_some.mp h
  refine merge_eq_some.mpr ⟨AddWinsSet.merge_eq_some.mpr ⟨fun id => ?_, hctx⟩, rfl⟩
  rw [get?_oneEntry]
  unfold mergedDots
  rw [dots_oneEntry, dots_oneEntry]
  by_cases hid : id = eid 1
  · rw [if_pos hid, if_pos hid, if_pos hid]
    exact he 7
  · rw [if_neg hid, if_neg hid, if_neg hid]
    rfl

/-- What `2 ^ 64 - 1` adds of one device leave. -/
def exhausted : VaultDoc V := (oneEntry V).doc (filled maxU64)

/-- A run that ends with two devices holding what `2 ^ 64 - 1` adds of one of them made. -/
theorem run_exhausted : ∃ n : DocNet V, Runs (replicated .release V) Causal n ∧
    ∀ dv ∈ [dev 1, dev 2], n.hist dv = Finset.range n.log.length ∧ n.doc dv = exhausted V := by
  obtain ⟨n, hn, -, hop, hdev⟩ := run_snapshot
  refine ⟨(oneEntry V).net n, (oneEntry V).runs (C := fun log => ∀ ev ∈ log, ev.op = .add 7)
    (fun log ev h ev' hev' => h ev' (List.mem_append_left _ hev')) rfl
    (fun ha => (oneEntry V).causal ha) ?_ hn hop, fun dv hdv => ?_⟩
  · intro n a n' hn hs hlog
    cases a with
    | update dv op =>
      intro s δ hmut
      obtain ⟨s', δ', hmut', rfl⟩ := Net.step_update hs
      obtain rfl : op = .add 7 := hlog _ (List.mem_append_right _ (List.mem_singleton_self _))
      exact oneEntry_add V hmut
    | publish dv => exact trivial
    | combine i j => exact fun a b c _ _ hm => oneEntry_merge V hm
    | deliver dv i => exact fun m c _ hm => oneEntry_merge V hm
  · obtain ⟨hhist, hdoc⟩ := hdev dv hdv
    refine ⟨?_, congrArg (oneEntry V).doc hdoc⟩
    show n.hist dv = Finset.range (n.log.map _).length
    rw [List.length_map, hhist]

end OneEntry

/-- Without the bound a delta need not reproduce the mutation: the next add draws counter `0`,
and merging its delta drops the entry. -/
theorem not_reproduces : ¬ ∀ (p : Profile) (n : DocNet ℕ), Runs (replicated p ℕ) Free n →
    ∀ (d : VaultDoc ℕ) (h : Finset ℕ), n.Holds d h → ∀ (device : DeviceId) (op : DocOp ℕ)
      (d' δ : VaultDoc ℕ), (replicated p ℕ).mutate device op d = some (d', δ) →
        Reproduced p n d d' δ := by
  intro hall
  obtain ⟨n, hn, hdev⟩ := run_exhausted ℕ
  obtain ⟨-, hdoc⟩ := hdev (dev 1) (by simp)
  have h : ((exhausted ℕ).addEntry .release (eid 1) (dev 1)).any
      (fun q => (exhausted ℕ).merge .release q.2 ≠ some q.1) = true := by decide
  obtain ⟨⟨d', δ⟩, hadd, hne⟩ := (Option.any_eq_true _ _).mp h
  rw [← hdoc] at hadd hne
  exact of_decide_eq_true hne (hall .release n (hn.mono fun _ _ _ => trivial) _ _
    (.replica (dev 1)) (dev 1) (.addEntry (eid 1)) d' δ hadd).delta

end RealmGuard.VaultDoc
