import RealmGuard.Lib.Latest
import RealmGuard.VaultRuns

/-!
# Fields in runs

The delta of a write carries the register it left, which may be another device's
write. So a replica that absorbs it absorbs that write and all that its emitter
had absorbed on the field (`Absorbed`). Whatever the interleaving, a register is
the greatest `(ts, value)` among the writes absorbed on its field, and there is
none when there was no such write (`latest_regKey`); presence plays no part.

When every write is stamped past the largest clock of its replica (`Stamped`),
that clock bounds the clock of every write absorbed, including those that lost.
A write then takes effect at once and beats all it has seen (`no_lost_edits`).
-/

namespace RealmGuard.VaultDoc

open Lib

variable {V : Type} [LinearOrder V] {p : Profile} {n : DocNet V}
  {ok : DocNet V → Action DeviceId (DocOp V) → Prop}

/-! ## Absorbed writes -/

/-- Operation `i` wrote `v` to a field. -/
def Wrote (log : List (DocEvent V)) (id : EntryId) (f : FieldId) (i : ℕ) (v : V) (ts : Timestamp) :
    Prop :=
  ∃ ev, log[i]? = some ev ∧ ev.op = .setField id f v ts

/-- A history absorbs the writes to a field that are in it, and those that the device of such
a write had absorbed by then. -/
inductive Absorbed (log : List (DocEvent V)) (id : EntryId) (f : FieldId) :
    Finset ℕ → ℕ → Prop where
  | write {h : Finset ℕ} {i : ℕ} {v : V} {ts : Timestamp} :
    i ∈ h → Wrote log id f i v ts → Absorbed log id f h i
  | carried {h : Finset ℕ} {i j : ℕ} {ev : DocEvent V} {v : V} {ts : Timestamp} : j ∈ h →
    log[j]? = some ev → ev.op = .setField id f v ts → Absorbed log id f ev.past i →
    Absorbed log id f h i

/-- The keys of the writes to a field that a history absorbs. -/
def absorbedKeys (log : List (DocEvent V)) (id : EntryId) (f : FieldId) (h : Finset ℕ) :
    Set (Timestamp ×ₗ V) :=
  {k | ∃ i v ts, Absorbed log id f h i ∧ Wrote log id f i v ts ∧ k = toLex (ts, v)}

section Log

variable {log : List (DocEvent V)} {id : EntryId} {f : FieldId} {h h' : Finset ℕ} {i : ℕ}
  {ev : DocEvent V} {v v' : V} {ts ts' : Timestamp}

theorem Wrote.eq (hw : Wrote log id f i v ts) (hev : log[i]? = some ev) :
    ev.op = .setField id f v ts := by
  obtain ⟨ev', hev', hop⟩ := hw
  rw [Option.some.inj (hev.symm.trans hev'), hop]

theorem Absorbed.wrote (ha : Absorbed log id f h i) : ∃ v ts, Wrote log id f i v ts := by
  induction ha with
  | write _ hw => exact ⟨_, _, hw⟩
  | carried _ _ _ _ ih => exact ih

theorem Absorbed.mono (ha : Absorbed log id f h i) (hh : h ⊆ h') : Absorbed log id f h' i := by
  cases ha with
  | write hi hw => exact .write (hh hi) hw
  | carried hj hev hop ha => exact .carried (hh hj) hev hop ha

theorem absorbed_union :
    Absorbed log id f (h ∪ h') i ↔ Absorbed log id f h i ∨ Absorbed log id f h' i := by
  constructor
  · rintro (⟨hi, hw⟩ | ⟨hj, hev, hop, ha⟩)
    · exact (Finset.mem_union.mp hi).imp (.write · hw) (.write · hw)
    · exact (Finset.mem_union.mp hj).imp (.carried · hev hop ha) (.carried · hev hop ha)
  · rintro (ha | ha)
    · exact ha.mono Finset.subset_union_left
    · exact ha.mono Finset.subset_union_right

theorem not_absorbed_empty : ¬ Absorbed log id f ∅ i := by
  rintro (⟨hi, -⟩ | ⟨hj, -, -, -⟩)
  · exact Finset.notMem_empty _ hi
  · exact Finset.notMem_empty _ hj

/-- The pasts of a log speak of its own operations. -/
def PastsBefore (log : List (DocEvent V)) : Prop :=
  ∀ (j : ℕ) (ev : DocEvent V), log[j]? = some ev → ∀ k ∈ ev.past, k < log.length

/-- Later operations absorb nothing into an earlier history. -/
theorem absorbed_snoc (hpast : PastsBefore log)
    (hh : ∀ j ∈ h, j < log.length) :
    Absorbed (log ++ [ev]) id f h i ↔ Absorbed log id f h i := by
  constructor
  · intro ha
    induction ha with
    | write hi hw =>
      obtain ⟨ev', hev', hop⟩ := hw
      refine .write hi ⟨ev', ?_, hop⟩
      exact (getElem?_snoc_iff.mp hev').resolve_right fun h => (hh _ hi).ne h.1
    | carried hj hev' hop _ ih =>
      have hev' := (getElem?_snoc_iff.mp hev').resolve_right fun h => (hh _ hj).ne h.1
      exact .carried hj hev' hop (ih (hpast _ _ hev'))
  · intro ha
    induction ha with
    | write hi hw =>
      obtain ⟨ev', hev', hop⟩ := hw
      exact .write hi ⟨ev', getElem?_snoc_iff.mpr (.inl hev'), hop⟩
    | carried hj hev' hop _ ih =>
      exact .carried hj (getElem?_snoc_iff.mpr (.inl hev')) hop (ih (hpast _ _ hev'))

theorem absorbedKeys_union :
    absorbedKeys log id f (h ∪ h') = absorbedKeys log id f h ∪ absorbedKeys log id f h' := by
  ext k
  simp only [absorbedKeys, absorbed_union, Set.mem_union, Set.mem_ofPred_eq]
  constructor
  · rintro ⟨i, v, ts, ha | ha, hw, rfl⟩
    · exact .inl ⟨i, v, ts, ha, hw, rfl⟩
    · exact .inr ⟨i, v, ts, ha, hw, rfl⟩
  · rintro (⟨i, v, ts, ha, hw, rfl⟩ | ⟨i, v, ts, ha, hw, rfl⟩)
    · exact ⟨i, v, ts, .inl ha, hw, rfl⟩
    · exact ⟨i, v, ts, .inr ha, hw, rfl⟩

theorem absorbedKeys_empty : absorbedKeys log id f ∅ = ∅ :=
  Set.eq_empty_of_forall_notMem fun _ ⟨_, _, _, ha, _⟩ => not_absorbed_empty ha

theorem absorbedKeys_snoc (hpast : PastsBefore log) (hh : ∀ j ∈ h, j < log.length) :
    absorbedKeys (log ++ [ev]) id f h = absorbedKeys log id f h := by
  have hlt : ∀ {i}, Absorbed log id f h i → ∀ {v ts},
      (Wrote (log ++ [ev]) id f i v ts ↔ Wrote log id f i v ts) := by
    intro i ha v ts
    obtain ⟨_, _, ev₀, hev₀, -⟩ := ha.wrote
    have hi := (List.getElem?_eq_some_iff.mp hev₀).1
    refine exists_congr fun ev' => and_congr_left fun _ => ?_
    rw [getElem?_snoc_iff]
    exact or_iff_left fun h => hi.ne h.1
  ext k
  simp only [absorbedKeys, absorbed_snoc hpast hh, Set.mem_ofPred_eq]
  constructor
  · rintro ⟨i, v, ts, ha, hw, rfl⟩
    exact ⟨i, v, ts, ha, (hlt ha).mp hw, rfl⟩
  · rintro ⟨i, v, ts, ha, hw, rfl⟩
    exact ⟨i, v, ts, ha, (hlt ha).mpr hw, rfl⟩

/-- The last operation absorbs nothing on a field it does not write. -/
theorem absorbedKeys_last_of_ne (hop : ∀ v ts, ev.op ≠ .setField id f v ts) :
    absorbedKeys (log ++ [ev]) id f {log.length} = ∅ := by
  have hlast : (log ++ [ev])[log.length]? = some ev := List.getElem?_concat_length
  refine Set.eq_empty_of_forall_notMem fun k ⟨i, v, ts, ha, _⟩ => ?_
  rcases ha with ⟨hi, hw⟩ | ⟨hj, hev, hop', -⟩
  · obtain rfl := Finset.mem_singleton.mp hi
    exact hop _ _ (hw.eq hlast)
  · obtain rfl := Finset.mem_singleton.mp hj
    obtain rfl := Option.some.inj (hlast.symm.trans hev)
    exact hop _ _ hop'

/-- A write absorbs itself and what its device had absorbed. -/
theorem absorbedKeys_last (hpast : PastsBefore log)
    (hh : ∀ j ∈ ev.past, j < log.length) (hop : ev.op = .setField id f v ts) :
    absorbedKeys (log ++ [ev]) id f {log.length} =
      insert (toLex (ts, v)) (absorbedKeys log id f ev.past) := by
  have hlast : (log ++ [ev])[log.length]? = some ev := List.getElem?_concat_length
  have hsame : absorbedKeys (log ++ [ev]) id f ev.past = absorbedKeys log id f ev.past :=
    absorbedKeys_snoc hpast hh
  rw [← hsame]
  ext k
  constructor
  · rintro ⟨i, v', ts', ha, hw, rfl⟩
    rcases ha with ⟨hi, -⟩ | ⟨hj, hev, -, ha⟩
    · obtain rfl := Finset.mem_singleton.mp hi
      obtain ⟨-, -, rfl, rfl⟩ := DocOp.setField.inj (hop.symm.trans (hw.eq hlast))
      exact .inl rfl
    · obtain rfl := Finset.mem_singleton.mp hj
      obtain rfl := Option.some.inj (hlast.symm.trans hev)
      exact .inr ⟨i, v', ts', ha, hw, rfl⟩
  · rintro (rfl | ⟨i, v', ts', ha, hw, rfl⟩)
    · have hw : Wrote (log ++ [ev]) id f log.length v ts := ⟨ev, hlast, hop⟩
      exact ⟨_, v, ts, .write (Finset.mem_singleton_self _) hw, hw, rfl⟩
    · exact ⟨i, v', ts', .carried (Finset.mem_singleton_self _) hlast hop ha, hw, rfl⟩

end Log

/-! ## Registers -/

/-- What an operation does to the register of one field: nothing, with nothing in the delta; or
a write, whose delta carries the register it left. -/
theorem regKey_mutate {device : DeviceId} {op : DocOp V} {d d' δ : VaultDoc V}
    (h : (replicated p V).mutate device op d = some (d', δ)) (id : EntryId) (f : FieldId) :
    d'.regKey id f = d.regKey id f ⊔ δ.regKey id f ∧
      ((∀ v ts, op ≠ .setField id f v ts) ∧ δ.regKey id f = ⊥ ∨
        ∃ v ts, op = .setField id f v ts ∧
          δ.regKey id f = d.regKey id f ⊔ (toLex (ts, v) : Timestamp ×ₗ V)) := by
  have hsame : d'.fields = d.fields → δ.fields = .empty → d'.regKey id f = d.regKey id f ∧
      δ.regKey id f = ⊥ := fun hf hδ => by
    rw [regKey_eq, regKey_eq, regKey_eq, hf, hδ]
    exact ⟨rfl, rfl⟩
  cases op with
  | addEntry id' =>
    obtain ⟨-, hf, hδ⟩ := addEntry_eq_some.mp h
    obtain ⟨hd, hb⟩ := hsame hf hδ
    exact ⟨by rw [hd, hb, sup_bot_eq], .inl ⟨fun v ts he => (nomatch he), hb⟩⟩
  | removeEntry id' =>
    obtain ⟨-, hf, hδ⟩ := removeEntry_eq_some.mp h
    obtain ⟨hd, hb⟩ := hsame hf hδ
    exact ⟨by rw [hd, hb, sup_bot_eq], .inl ⟨fun v ts he => (nomatch he), hb⟩⟩
  | setField id' f' v ts =>
    have hd : d' = (d.setField id' f' v ts).1 := congrArg Prod.fst (Option.some.inj h).symm
    have hδ : δ = (d.setField id' f' v ts).2 := congrArg Prod.snd (Option.some.inj h).symm
    rw [hd, hδ, regKey_setField, regKey_setField_delta, key_written]
    by_cases hid : id = id' ∧ f = f'
    · obtain ⟨rfl, rfl⟩ := hid
      rw [if_pos ⟨rfl, rfl⟩, if_pos ⟨rfl, rfl⟩, ← sup_assoc, sup_idem]
      exact ⟨rfl, .inr ⟨v, ts, rfl, rfl⟩⟩
    · rw [if_neg hid, if_neg hid, sup_bot_eq]
      refine ⟨rfl, .inl ⟨fun v' ts' he => hid ?_, rfl⟩⟩
      obtain ⟨rfl, rfl, -, -⟩ := DocOp.setField.inj he
      exact ⟨rfl, rfl⟩

theorem pastsBefore (hn : Runs (replicated p V) ok n) : PastsBefore n.log := fun _ _ hev k hk =>
  (hn.past_lt hev k hk).trans (List.getElem?_eq_some_iff.mp hev).1

/-- **A register is the greatest write absorbed on its field.** -/
theorem latest_regKey (hn : Runs (replicated p V) ok n) (id : EntryId) (f : FieldId) :
    ∀ t h, n.Holds t h → Latest (absorbedKeys n.log id f h) (t.regKey id f) := by
  refine hn.holds (P := fun log t h => Latest (absorbedKeys log id f h) (t.regKey id f)) ?_ ?_ ?_
  · rw [absorbedKeys_empty]
    exact latest_empty
  · intro n a b c h h' _ _ _ ha hb hm
    rw [absorbedKeys_union, regKey_merge hm]
    exact ha.union hb
  · intro n n' d op s δ hn _ _ hm hlog ih
    rw [hlog]
    have hpast := pastsBefore hn
    have hh := hn.hist_lt (.replica d)
    have hold : ∀ t h, n.Holds t h → Latest
        (absorbedKeys (n.log ++ [⟨d, op, n.hist d, n.doc d, δ⟩]) id f h) (t.regKey id f) :=
      fun t h ht => by
        rw [absorbedKeys_snoc hpast (hn.hist_lt ht)]
        exact ih t h ht
    obtain ⟨hs, hδ⟩ := regKey_mutate hm id f
    have hlast : Latest (absorbedKeys (n.log ++ [⟨d, op, n.hist d, n.doc d, δ⟩]) id f
        {n.log.length}) (δ.regKey id f) := by
      rcases hδ with ⟨hop, hδ⟩ | ⟨v, ts, hop, hδ⟩
      · rw [absorbedKeys_last_of_ne hop, hδ]
        exact latest_empty
      · rw [absorbedKeys_last hpast hh hop, hδ]
        exact (ih _ _ (.replica d)).insert _
    refine ⟨?_, hlast, hold⟩
    rw [hs, ← Finset.singleton_union, absorbedKeys_union, sup_comm]
    exact hlast.union (hold _ _ (.replica d))

theorem register_isSome_iff (hn : Runs (replicated p V) ok n) {t : VaultDoc V} {h : Finset ℕ}
    (ht : n.Holds t h) {id : EntryId} {f : FieldId} :
    (t.register id f).isSome = true ↔ ∃ i, Absorbed n.log id f h i := by
  rw [← not_iff_not, Option.not_isSome_iff_eq_none, ← regKey_eq_bot]
  have hl := latest_regKey hn id f t h ht
  constructor
  · rintro hb ⟨i, ha⟩
    rw [hb, latest_bot_iff] at hl
    obtain ⟨v, ts, hw⟩ := ha.wrote
    exact absurd (show toLex (ts, v) ∈ absorbedKeys n.log id f h from ⟨i, v, ts, ha, hw, rfl⟩)
      (hl ▸ Set.notMem_empty _)
  · intro hno
    have hempty : absorbedKeys n.log id f h = ∅ :=
      Set.eq_empty_of_forall_notMem fun _ ⟨i, _, _, ha, _⟩ => hno ⟨i, ha⟩
    rw [hempty] at hl
    exact hl.unique latest_empty

theorem isGreatest_register (hn : Runs (replicated p V) ok n) {t : VaultDoc V} {h : Finset ℕ}
    (ht : n.Holds t h) {id : EntryId} {f : FieldId} {reg : LwwRegister V} :
    t.register id f = some reg ↔ IsGreatest (absorbedKeys n.log id f h) reg.key := by
  rw [← regKey_eq_coe, ← latest_coe_iff]
  have hl := latest_regKey hn id f t h ht
  exact ⟨fun he => he ▸ hl, fun hg => hl.unique hg⟩

theorem field_eq_some_iff {d : VaultDoc V} {id : EntryId} {f : FieldId} {v : V} :
    d.field id f = some v ↔
      d.containsEntry id = true ∧ ∃ reg, d.register id f = some reg ∧ reg.value = v := by
  unfold field containsEntry register
  cases d.entries.contains id <;> cases d.fields.get? id <;> simp [Option.bind_eq_some_iff]

/-- What holds of the fields of a system: a register exists when a write to it was absorbed and
is then the greatest of those; a field reads the value of its register while the entry is
present; and removing or adding an entry leaves every register as it was. -/
structure LastWriterWins (p : Profile) (n : DocNet V) : Prop where
  exists_iff : ∀ (r : DeviceId) (id : EntryId) (f : FieldId),
    ((n.doc r).register id f).isSome = true ↔ ∃ i, Absorbed n.log id f (n.hist r) i
  greatest : ∀ (r : DeviceId) (id : EntryId) (f : FieldId) (reg : LwwRegister V),
    (n.doc r).register id f = some reg → IsGreatest (absorbedKeys n.log id f (n.hist r)) reg.key
  field_iff : ∀ (r : DeviceId) (id : EntryId) (f : FieldId) (v : V),
    (n.doc r).field id f = some v ↔ (n.doc r).containsEntry id = true ∧
      ∃ ts, IsGreatest (absorbedKeys n.log id f (n.hist r)) (toLex (ts, v))
  presence : ∀ (n' : DocNet V) (r : DeviceId) (id id' : EntryId) (f : FieldId),
    n.step (replicated p V) (.update r (.removeEntry id')) = some n' ∨
      n.step (replicated p V) (.update r (.addEntry id')) = some n' →
    (n'.doc r).register id f = (n.doc r).register id f

theorem register_of_presence {n' : DocNet V} {r : DeviceId} {op : DocOp V} {id : EntryId}
    {f : FieldId} (hop : ∀ v ts, op ≠ .setField id f v ts)
    (h : n.step (replicated p V) (.update r op) = some n') :
    (n'.doc r).register id f = (n.doc r).register id f := by
  obtain ⟨s, δ, hm, rfl⟩ := Net.step_update h
  obtain ⟨hs, ⟨-, hδ⟩ | ⟨v, ts, hset, -⟩⟩ := regKey_mutate hm id f
  · rw [hδ, sup_bot_eq] at hs
    simp only [Function.update_self]
    cases hd : (n.doc r).register id f with
    | none => exact regKey_eq_bot.mp (hs.trans (regKey_eq_bot.mpr hd))
    | some reg => exact regKey_eq_coe.mp (hs.trans (regKey_eq_coe.mpr hd))
  · exact absurd hset (hop v ts)

/-- **Fields are last-writer-wins over the writes absorbed**, in every run; and replicas of
any two runs that have absorbed the same writes on a field hold the same register. -/
theorem lastWriterWins (p : Profile) (n : DocNet V) (hn : Runs (replicated p V) Free n) :
    LastWriterWins p n ∧ ∀ (p' : Profile) (n' : DocNet V), Runs (replicated p' V) Free n' →
      ∀ (r r' : DeviceId) (id : EntryId) (f : FieldId),
        absorbedKeys n.log id f (n.hist r) = absorbedKeys n'.log id f (n'.hist r') →
        (n.doc r).register id f = (n'.doc r').register id f := by
  refine ⟨⟨fun r id f => register_isSome_iff hn (.replica r), fun r id f reg h =>
    (isGreatest_register hn (.replica r)).mp h, fun r id f v => ?_, fun n' r id id' f h => ?_⟩,
    fun p' n' hn' r r' id f h => ?_⟩
  · rw [field_eq_some_iff]
    refine and_congr_right fun _ => ⟨?_, ?_⟩
    · rintro ⟨⟨v, ts⟩, hreg, rfl⟩
      exact ⟨ts, (isGreatest_register hn (.replica r)).mp hreg⟩
    · rintro ⟨ts, hg⟩
      exact ⟨⟨v, ts⟩, (isGreatest_register hn (.replica r)).mpr hg, rfl⟩
  · exact h.elim (register_of_presence fun v ts he => nomatch he)
      (register_of_presence fun v ts he => nomatch he)
  · cases hreg : (n.doc r).register id f with
    | none =>
      have hl := latest_regKey hn id f _ _ (.replica r)
      have hl' := latest_regKey hn' id f _ _ (.replica r')
      rw [regKey_eq_bot.mpr hreg, h] at hl
      exact (regKey_eq_bot.mp (hl'.unique hl)).symm
    | some reg =>
      have hg := (isGreatest_register hn (.replica r)).mp hreg
      rw [h] at hg
      exact ((isGreatest_register hn' (.replica r')).mpr hg).symm

/-- Two devices write a field, the second write loses and is shipped as the first. -/
def losingWrite : List (Action DeviceId (DocOp ℕ)) :=
  [.update (dev 1) (.setField (eid 1) ⟨0⟩ 5 ⟨⟨9, 0⟩, dev 1⟩), .deliver (dev 2) 1,
    .update (dev 2) (.setField (eid 1) ⟨0⟩ 8 ⟨⟨3, 0⟩, dev 2⟩), .deliver (dev 3) 2]

theorem lastWriterWins_losingWrite : ∃ n, Runs (replicated .dev ℕ) Free n ∧
    (n.doc (dev 3)).register (eid 1) ⟨0⟩ = some ⟨5, ⟨9, 0⟩, dev 1⟩ ∧
    IsGreatest (absorbedKeys n.log (eid 1) ⟨0⟩ (n.hist (dev 3))) (toLex (⟨⟨9, 0⟩, dev 1⟩, 5)) := by
  have h : ((Net.init (replicated .dev ℕ)).exec (replicated .dev ℕ) Free losingWrite).any
      (fun n => (n.doc (dev 3)).register (eid 1) ⟨0⟩ = some ⟨5, ⟨9, 0⟩, dev 1⟩) = true := by decide
  obtain ⟨n, hexec, h⟩ := (Option.any_eq_true _ _).mp h
  have hreg := of_decide_eq_true h
  have hn := Runs.init.exec hexec
  exact ⟨n, hn, hreg, (lastWriterWins .dev n hn).1.greatest _ _ _ _ hreg⟩

/-! ## Stamped writes -/

/-- Writes are stamped with the successor of the replica's largest clock, at any physical time,
and not once that clock is saturated. -/
def Stamped (n : DocNet V) : Action DeviceId (DocOp V) → Prop
  | .update d (.setField _ _ _ ts) => (n.doc d).maxHlc ≠ some .saturated ∧
      ∃ now, ts = .new (((n.doc d).maxHlc.getD default).nextLocal now) d
  | _ => True

/-- A stamp lies past the clock of every register of the replica. -/
theorem Stamped.hlc_lt {d : DeviceId} {id id' : EntryId} {f f' : FieldId} {v : V} {ts : Timestamp}
    {reg : LwwRegister V} (h : Stamped n (.update d (.setField id f v ts)))
    (hreg : (n.doc d).register id' f' = some reg) : reg.ts.hlc < ts.hlc := by
  obtain ⟨hsat, now, rfl⟩ := h
  refine (le_maxHlc hreg).trans_lt (Hlc.lt_nextLocal_iff.mpr fun he => hsat ?_)
  cases hm : (n.doc d).maxHlc with
  | none =>
    rw [hm] at he
    exact absurd he (by decide)
  | some k => rw [← he, hm, Option.getD_some]

theorem hlc_le_of_key_le {a b : Timestamp} {v w : V}
    (h : (toLex (a, v) : Timestamp ×ₗ V) ≤ toLex (b, w)) : a.hlc ≤ b.hlc := by
  have hle : a ≤ b := by
    rcases Prod.Lex.toLex_le_toLex.mp h with h | ⟨h, -⟩
    · exact h.le
    · exact h.le
  rcases lt_or_eq_of_le hle with hlt | rfl
  · exact (Timestamp.lt_iff.mp hlt).elim le_of_lt fun h => h.1.le
  · exact le_rfl

theorem key_lt_of_hlc_lt {a b : Timestamp} {v w : V} (h : a.hlc < b.hlc) :
    (toLex (a, v) : Timestamp ×ₗ V) < toLex (b, w) :=
  Prod.Lex.toLex_lt_toLex.mpr (.inl (Timestamp.lt_iff.mpr (.inl h)))

/-- Writes are stamped by their device, past the clock of every register it holds. -/
def Ahead (n : DocNet V) : Action DeviceId (DocOp V) → Prop
  | .update d (.setField _ _ _ ts) => ts.device = d ∧
      ∀ id f reg, (n.doc d).register id f = some reg → reg.ts.hlc < ts.hlc
  | _ => True

theorem Stamped.ahead : ∀ {a : Action DeviceId (DocOp V)}, Stamped n a → Ahead n a
  | .update _ (.setField ..), h => by
    refine ⟨?_, fun _ _ _ hreg => h.hlc_lt hreg⟩
    obtain ⟨-, now, rfl⟩ := h
    rfl
  | .update _ (.addEntry _), _ => trivial
  | .update _ (.removeEntry _), _ => trivial
  | .publish _, _ => trivial
  | .combine _ _, _ => trivial
  | .deliver _ _, _ => trivial

/-- A write stamped ahead takes effect. -/
theorem Ahead.register {n' : DocNet V} {d : DeviceId} {id : EntryId} {f : FieldId} {v : V}
    {ts : Timestamp} (h : Ahead n (.update d (.setField id f v ts)))
    (hstep : n.step (replicated p V) (.update d (.setField id f v ts)) = some n') :
    (n'.doc d).register id f = some ⟨v, ts⟩ := by
  obtain ⟨s, δ, hm, rfl⟩ := Net.step_update hstep
  have hs : s = ((n.doc d).setField id f v ts).1 := congrArg Prod.fst (Option.some.inj hm).symm
  have hkey := regKey_setField (n.doc d) id id f f v ts
  rw [if_pos ⟨rfl, rfl⟩] at hkey
  simp only [Function.update_self]
  refine regKey_eq_coe.mp (hs ▸ hkey.trans (sup_eq_right.mpr ?_))
  cases hreg : (n.doc d).register id f with
  | none => exact regKey_eq_bot.mpr hreg ▸ bot_le
  | some reg =>
    rw [regKey_eq_coe.mpr hreg]
    exact WithBot.coe_le_coe.mpr (key_lt_of_hlc_lt (h.2 id f reg hreg)).le

theorem Stamped.register {n' : DocNet V} {d : DeviceId} {id : EntryId} {f : FieldId} {v : V}
    {ts : Timestamp} (h : Stamped n (.update d (.setField id f v ts)))
    (hstep : n.step (replicated p V) (.update d (.setField id f v ts)) = some n') :
    (n'.doc d).register id f = some ⟨v, ts⟩ := h.ahead.register hstep

section Ahead

variable (hn : Runs (replicated p V) Ahead n) {i j : ℕ} {id id' : EntryId} {f f' : FieldId}
  {v v' : V} {ts ts' : Timestamp} {ev : DocEvent V}
include hn

/-- The clock of a write absorbed before a write of any field is below that write's. -/
theorem hlc_lt_of_ahead (hi : Wrote n.log id f i v ts) (hev : n.log[j]? = some ev)
    (hop : ev.op = .setField id' f' v' ts') (ha : Absorbed n.log id f ev.past i) :
    ts.hlc < ts'.hlc := by
  obtain ⟨m, hm⟩ := hn.performed hev
  have hold : n.Holds ev.pre ev.past := .pre (List.mem_of_getElem? hev)
  obtain ⟨reg, hreg⟩ := Option.isSome_iff_exists.mp ((register_isSome_iff hn hold).mpr ⟨i, ha⟩)
  have hle := ((isGreatest_register hn hold).mp hreg).2 ⟨i, v, ts, ha, hi, rfl⟩
  have hstamp := hm.allowed
  rw [hop] at hstamp
  rw [hm.pre] at hreg
  exact (hlc_le_of_key_le hle).trans_lt (hstamp.2 id f reg hreg)

/-- A write is stamped by its device. -/
theorem device_of_ahead (hev : n.log[j]? = some ev) (hop : ev.op = .setField id f v ts) :
    ts.device = ev.device := by
  obtain ⟨m, hm⟩ := hn.performed hev
  have hstamp := hm.allowed
  rw [hop] at hstamp
  exact hstamp.1

theorem ts_ne_of_ahead (hi : Wrote n.log id f i v ts) (hj : Wrote n.log id' f' j v' ts')
    (hlt : i < j) : ts ≠ ts' := by
  rintro rfl
  obtain ⟨evi, hevi, hopi⟩ := hi
  obtain ⟨evj, hevj, hopj⟩ := hj
  have hd : evi.device = evj.device :=
    (device_of_ahead hn hevi hopi).symm.trans (device_of_ahead hn hevj hopj)
  have ha : Absorbed n.log id f evj.past i :=
    .write (hn.own_past hevi hevj hd hlt) ⟨evi, hevi, hopi⟩
  exact lt_irrefl _ (hlc_lt_of_ahead hn ⟨evi, hevi, hopi⟩ hevj hopj ha)

end Ahead

section Stamps

variable (hn : Runs (replicated p V) Stamped n) {i j : ℕ} {id id' : EntryId} {f f' : FieldId}
  {v v' : V} {ts ts' : Timestamp} {ev : DocEvent V}
include hn

theorem hlc_lt_of_absorbed (hi : Wrote n.log id f i v ts) (hev : n.log[j]? = some ev)
    (hop : ev.op = .setField id' f' v' ts') (ha : Absorbed n.log id f ev.past i) :
    ts.hlc < ts'.hlc := hlc_lt_of_ahead (hn.mono fun _ _ => Stamped.ahead) hi hev hop ha

theorem hlc_ne_of_lt (hi : Wrote n.log id f i v ts) (hj : Wrote n.log id' f' j v' ts')
    (hlt : i < j) : ts ≠ ts' := ts_ne_of_ahead (hn.mono fun _ _ => Stamped.ahead) hi hj hlt

end Stamps

/-- **No causally later edit is lost.** A write takes effect at once; a write that its device
had absorbed before it never shows on a replica that has absorbed it; and no two writes
carry the same timestamp. -/
theorem no_lost_edits (p : Profile) (n : DocNet V) (hn : Runs (replicated p V) Stamped n) :
    (∀ (n' : DocNet V) (d : DeviceId) (id : EntryId) (f : FieldId) (v : V) (ts : Timestamp),
      Stamped n (.update d (.setField id f v ts)) →
      n.step (replicated p V) (.update d (.setField id f v ts)) = some n' →
      (n'.doc d).register id f = some ⟨v, ts⟩) ∧
    (∀ (r : DeviceId) (id : EntryId) (f : FieldId) (i j : ℕ) (v v' : V) (ts ts' : Timestamp)
      (ev : DocEvent V), Wrote n.log id f i v ts → n.log[j]? = some ev →
      ev.op = .setField id f v' ts' → Absorbed n.log id f ev.past i →
      Absorbed n.log id f (n.hist r) j → (n.doc r).register id f ≠ some ⟨v, ts⟩) ∧
    ∀ (i j : ℕ) (id id' : EntryId) (f f' : FieldId) (v v' : V) (ts ts' : Timestamp), i ≠ j →
      Wrote n.log id f i v ts → Wrote n.log id' f' j v' ts' → ts ≠ ts' := by
  refine ⟨fun n' d id f v ts hs hstep => hs.register hstep,
    fun r id f i j v v' ts ts' ev hi hev hop ha hr hreg => ?_,
    fun i j id id' f f' v v' ts ts' hij hi hj => ?_⟩
  · have hg := (isGreatest_register hn (.replica r)).mp hreg
    have hle := hg.2 ⟨j, v', ts', hr, ⟨ev, hev, hop⟩, rfl⟩
    exact not_lt_of_ge hle (key_lt_of_hlc_lt (hlc_lt_of_absorbed hn hi hev hop ha))
  · rcases lt_or_gt_of_ne hij with hlt | hgt
    · exact hlc_ne_of_lt hn hi hj hlt
    · exact (hlc_ne_of_lt hn hj hi hgt).symm

/-- Writes are stamped while physical time stands still. -/
def Stalled (n : DocNet V) : Action DeviceId (DocOp V) → Prop
  | .update d (.setField _ _ _ ts) => (n.doc d).maxHlc ≠ some .saturated ∧
      ts = .new (((n.doc d).maxHlc.getD default).nextLocal 0) d
  | _ => True

instance (n : DocNet V) : ∀ a, Decidable (Stalled n a)
  | .update d (.setField _ _ _ ts) =>
    inferInstanceAs (Decidable ((n.doc d).maxHlc ≠ some .saturated ∧
      ts = .new (((n.doc d).maxHlc.getD default).nextLocal 0) d))
  | .update _ (.addEntry _) => .isTrue trivial
  | .update _ (.removeEntry _) => .isTrue trivial
  | .publish _ => .isTrue trivial
  | .combine _ _ => .isTrue trivial
  | .deliver _ _ => .isTrue trivial

theorem Stalled.stamped : ∀ (a : Action DeviceId (DocOp V)), Stalled n a → Stamped n a
  | .update _ (.setField ..), h => ⟨h.1, 0, h.2⟩
  | .update _ (.addEntry _), _ => trivial
  | .update _ (.removeEntry _), _ => trivial
  | .publish _, _ => trivial
  | .combine _ _, _ => trivial
  | .deliver _ _, _ => trivial

/-- Device 2 hears of a write by device 1 and writes the field itself. -/
def laterWrite : List (Action DeviceId (DocOp ℕ)) :=
  [.update (dev 1) (.setField (eid 1) ⟨0⟩ 5 ⟨⟨0, 1⟩, dev 1⟩), .deliver (dev 2) 1,
    .update (dev 2) (.setField (eid 1) ⟨0⟩ 4 ⟨⟨0, 2⟩, dev 2⟩), .deliver (dev 1) 2]

theorem no_lost_edits_laterWrite : ∃ n, Runs (replicated .dev ℕ) Stamped n ∧
    (n.doc (dev 1)).register (eid 1) ⟨0⟩ ≠ some ⟨5, ⟨0, 1⟩, dev 1⟩ := by
  have h : ((Net.init (replicated .dev ℕ)).exec (replicated .dev ℕ) Stalled laterWrite).any
      (fun n => n.hist (dev 1) = {0, 1} ∧
        ((n.log[0]?).any (fun ev => ev.op = .setField (eid 1) ⟨0⟩ 5 ⟨⟨0, 1⟩, dev 1⟩) = true) ∧
        ((n.log[1]?).any (fun ev => ev.op = .setField (eid 1) ⟨0⟩ 4 ⟨⟨0, 2⟩, dev 2⟩ ∧
          0 ∈ ev.past) = true)) = true := by decide
  obtain ⟨n, hexec, h⟩ := (Option.any_eq_true _ _).mp h
  obtain ⟨hhist, h₀, h₁⟩ := of_decide_eq_true h
  obtain ⟨ev₀, hev₀, hop₀⟩ := (Option.any_eq_true _ _).mp h₀
  obtain ⟨ev₁, hev₁, h₁⟩ := (Option.any_eq_true _ _).mp h₁
  obtain ⟨hop₁, hpast⟩ := of_decide_eq_true h₁
  have hn := (Runs.init.exec hexec).mono fun _ => Stalled.stamped
  have hw : Wrote n.log (eid 1) ⟨0⟩ 0 5 ⟨⟨0, 1⟩, dev 1⟩ := ⟨ev₀, hev₀, of_decide_eq_true hop₀⟩
  exact ⟨n, hn, (no_lost_edits .dev n hn).2.1 (dev 1) (eid 1) ⟨0⟩ 0 1 5 4 _ _ ev₁ hw hev₁ hop₁
    (.write hpast hw) (.write (by rw [hhist]; decide) ⟨ev₁, hev₁, hop₁⟩)⟩

end RealmGuard.VaultDoc
