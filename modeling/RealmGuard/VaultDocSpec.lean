import Mathlib.Order.WithBot
import RealmGuard.Crdt.AwSetSpec
import RealmGuard.VaultDoc

/-!
# The vault document as a join-semilattice

`abs d` is the document in lattice terms: the dot kernel of its entries and, for
each entry and field, the key of the register or `⊥`. A merge is the join of the
two (`abs_merge`), `setField` joins one register (`abs_setField`), and a
well-formed document is determined by its `abs` (`WellFormed.ext`).
`regKey` is the one coordinate of it that reads a single register.
-/

namespace RealmGuard.VaultDoc

open Lib

variable {V : Type} [LinearOrder V] {p : Profile} {d o m : VaultDoc V}

/-- The registers of one entry, as keys. -/
def fieldKeys (fs : BTreeMap FieldId (LwwRegister V)) (f : FieldId) : WithBot (Timestamp ×ₗ V) :=
  (fs.get? f).elim ⊥ fun r => (r.key : WithBot (Timestamp ×ₗ V))

/-- All registers, as keys. -/
def allKeys (fs : BTreeMap EntryId (BTreeMap FieldId (LwwRegister V))) (id : EntryId) :
    WithBot (FieldId → WithBot (Timestamp ×ₗ V)) :=
  (fs.get? id).elim ⊥ fun m => (fieldKeys m : WithBot (FieldId → WithBot (Timestamp ×ₗ V)))

/-- The lattice a document lives in. -/
abbrev State (V : Type) : Type :=
  DotKernel Dot EntryId × (EntryId → WithBot (FieldId → WithBot (Timestamp ×ₗ V)))

def abs (d : VaultDoc V) : State V := (d.entries.kernel, allKeys d.fields)

/-- The key of one register, `⊥` when there is none. -/
def regKey (d : VaultDoc V) (id : EntryId) (f : FieldId) : WithBot (Timestamp ×ₗ V) :=
  (d.register id f).elim ⊥ fun r => (r.key : WithBot (Timestamp ×ₗ V))

/-- A document is well formed when its set of entries is. -/
def WellFormed (d : VaultDoc V) : Prop := d.entries.WellFormed

theorem wellFormed_new : (new : VaultDoc V).WellFormed := AddWinsSet.wellFormed_new

/-! ## Registers -/

omit [LinearOrder V] in
theorem fieldKeys_injective :
    Function.Injective (fieldKeys : BTreeMap FieldId (LwwRegister V) → _) := by
  intro a b h
  refine BTreeMap.ext_get? fun f => ?_
  have hf := congrFun h f
  unfold fieldKeys at hf
  cases ha : a.get? f <;> cases hb : b.get? f <;>
    simp_all [LwwRegister.key_injective.eq_iff]

omit [LinearOrder V] in
theorem allKeys_injective : Function.Injective
    (allKeys : BTreeMap EntryId (BTreeMap FieldId (LwwRegister V)) → _) := by
  intro a b h
  refine BTreeMap.ext_get? fun id => ?_
  have hid := congrFun h id
  unfold allKeys at hid
  cases ha : a.get? id <;> cases hb : b.get? id <;>
    simp_all [fieldKeys_injective.eq_iff]

omit [LinearOrder V] in
theorem fieldKeys_empty : fieldKeys (.empty : BTreeMap FieldId (LwwRegister V)) = ⊥ := rfl

theorem fieldKeys_mergeFields (a b : BTreeMap FieldId (LwwRegister V)) :
    fieldKeys (mergeFields a b) = fieldKeys a ⊔ fieldKeys b := by
  funext f
  rw [Pi.sup_apply]
  simp only [fieldKeys, mergeFields, BTreeMap.get?_upsertAll]
  cases ha : a.get? f <;> cases hb : b.get? f <;>
    simp [LwwRegister.key_merge, WithBot.coe_sup]

theorem allKeys_upsertAll (a b : BTreeMap EntryId (BTreeMap FieldId (LwwRegister V))) :
    allKeys (a.upsertAll (fun selfFields otherFields =>
      mergeFields (selfFields.getD .empty) otherFields) b) = allKeys a ⊔ allKeys b := by
  funext id
  rw [Pi.sup_apply]
  simp only [allKeys, BTreeMap.get?_upsertAll]
  cases ha : a.get? id <;> cases hb : b.get? id <;>
    simp [fieldKeys_mergeFields, fieldKeys_empty, WithBot.coe_sup]

theorem regKey_eq (d : VaultDoc V) (id : EntryId) (f : FieldId) :
    d.regKey id f = (d.fields.get? id).elim ⊥ fun m => fieldKeys m f := by
  unfold regKey register fieldKeys
  cases d.fields.get? id <;> rfl

theorem regKey_eq_coe {id : EntryId} {f : FieldId} {r : LwwRegister V} :
    d.regKey id f = (r.key : WithBot (Timestamp ×ₗ V)) ↔ d.register id f = some r := by
  unfold regKey
  cases d.register id f <;> simp [LwwRegister.key_injective.eq_iff]

theorem regKey_eq_bot {id : EntryId} {f : FieldId} :
    d.regKey id f = ⊥ ↔ d.register id f = none := by
  unfold regKey
  cases d.register id f <;> simp

/-! ## Merge -/

theorem merge_eq_some : d.merge p o = some m ↔ d.entries.merge p o.entries = some m.entries ∧
    m.fields = d.fields.upsertAll (fun selfFields otherFields =>
      mergeFields (selfFields.getD .empty) otherFields) o.fields := by
  simp only [merge, Option.bind_eq_bind, Option.bind_eq_some_iff, Option.some.injEq]
  constructor
  · rintro ⟨es, hes, rfl⟩
    exact ⟨hes, rfl⟩
  · rintro ⟨hes, hf⟩
    exact ⟨m.entries, hes, by rw [← hf]⟩

theorem merge_eq_none :
    d.merge p o = none ↔ d.entries.ctx.merge p o.entries.ctx = none := by
  rw [← AddWinsSet.merge_eq_none]
  unfold merge
  cases d.entries.merge p o.entries <;> simp

theorem merge_release (d o : VaultDoc V) : ∃ m, d.merge .release o = some m := by
  obtain ⟨c, hc⟩ := DotContext.merge_release d.entries.ctx o.entries.ctx
  exact Option.ne_none_iff_exists'.mp fun h => Option.some_ne_none c (hc.symm.trans
    (merge_eq_none.mp h))

/-- **A merge is a join.** -/
theorem abs_merge (hfit : DotContext.CloudsFit p d.entries.ctx o.entries.ctx)
    (h : d.merge p o = some m) : m.abs = d.abs ⊔ o.abs := by
  obtain ⟨hes, hf⟩ := merge_eq_some.mp h
  refine Prod.ext (AddWinsSet.kernel_merge hfit hes) ?_
  show allKeys m.fields = allKeys d.fields ⊔ allKeys o.fields
  rw [hf, allKeys_upsertAll]

theorem WellFormed.merge (hd : d.WellFormed) (ho : o.WellFormed) (h : d.merge p o = some m) :
    m.WellFormed ∧ m.abs = d.abs ⊔ o.abs :=
  ⟨(AddWinsSet.WellFormed.merge hd ho (merge_eq_some.mp h).1).1,
    abs_merge (hd.canonical.cloudsFit ho.canonical p) h⟩

theorem WellFormed.ext (hd : d.WellFormed) (ho : o.WellFormed) (h : d.abs = o.abs) : d = o := by
  have hes : d.entries = o.entries := AddWinsSet.WellFormed.ext hd ho (congrArg Prod.fst h)
  have hf : d.fields = o.fields := allKeys_injective (congrArg Prod.snd h)
  obtain ⟨es, fs⟩ := d
  obtain ⟨es', fs'⟩ := o
  congr

theorem abs_new : (new : VaultDoc V).abs = ⊥ := Prod.ext AddWinsSet.kernel_new rfl

/-- A merge joins each register. -/
theorem regKey_merge (h : d.merge p o = some m) (id : EntryId) (f : FieldId) :
    m.regKey id f = d.regKey id f ⊔ o.regKey id f := by
  rw [regKey_eq, regKey_eq, regKey_eq, (merge_eq_some.mp h).2, BTreeMap.get?_upsertAll]
  cases hd : d.fields.get? id <;> cases ho : o.fields.get? id <;>
    simp [fieldKeys_mergeFields, fieldKeys_empty]

/-! ## Presence -/

theorem addEntry_eq_some {d' δ : VaultDoc V} {id : EntryId} {device : DeviceId} :
    d.addEntry p id device = some (d', δ) ↔
      d.entries.add p id device = some (d'.entries, δ.entries) ∧ d'.fields = d.fields ∧
        δ.fields = .empty := by
  simp only [addEntry, Option.bind_eq_bind, Option.bind_eq_some_iff, Option.some.injEq,
    Prod.mk.injEq, Prod.exists]
  constructor
  · rintro ⟨es, δs, h, rfl, rfl⟩
    exact ⟨h, rfl, rfl⟩
  · rintro ⟨h, hf, hδ⟩
    exact ⟨_, _, h, by rw [← hf], by rw [← hδ]⟩

theorem removeEntry_eq_some {d' δ : VaultDoc V} {id : EntryId} :
    d.removeEntry p id = some (d', δ) ↔
      d.entries.remove p id = some (d'.entries, δ.entries) ∧ d'.fields = d.fields ∧
        δ.fields = .empty := by
  simp only [removeEntry, Option.bind_eq_bind, Option.bind_eq_some_iff, Option.some.injEq,
    Prod.mk.injEq, Prod.exists]
  constructor
  · rintro ⟨es, δs, h, rfl, rfl⟩
    exact ⟨h, rfl, rfl⟩
  · rintro ⟨h, hf, hδ⟩
    exact ⟨_, _, h, by rw [← hf], by rw [← hδ]⟩

theorem addEntry_eq_none {id : EntryId} {device : DeviceId} :
    d.addEntry p id device = none ↔ d.entries.add p id device = none := by
  rw [addEntry]
  cases d.entries.add p id device <;> simp

/-! ## Writes -/

/-- The register a write leaves. -/
def written (d : VaultDoc V) (id : EntryId) (f : FieldId) (v : V) (ts : Timestamp) :
    LwwRegister V :=
  match ((d.fields.get? id).getD .empty).get? f with
  | some reg => reg.set v ts
  | none => .new v ts

theorem setField_eq (d : VaultDoc V) (id : EntryId) (f : FieldId) (v : V) (ts : Timestamp) :
    d.setField id f v ts =
      (⟨d.entries, d.fields.insert id
        (((d.fields.get? id).getD .empty).insert f (d.written id f v ts))⟩,
      ⟨.new, BTreeMap.empty.insert id (BTreeMap.empty.insert f (d.written id f v ts))⟩) := rfl

theorem key_written (d : VaultDoc V) (id : EntryId) (f : FieldId) (v : V) (ts : Timestamp) :
    ((d.written id f v ts).key : WithBot (Timestamp ×ₗ V)) =
      d.regKey id f ⊔ (toLex (ts, v) : Timestamp ×ₗ V) := by
  rw [regKey_eq]
  unfold written fieldKeys
  cases hd : d.fields.get? id with
  | none => simp
  | some fs =>
    cases hf : fs.get? f <;>
      simp [hf, LwwRegister.set_eq_merge, LwwRegister.key_merge, WithBot.coe_sup]

theorem regKey_setField_delta (d : VaultDoc V) (id id' : EntryId) (f f' : FieldId) (v : V)
    (ts : Timestamp) : (d.setField id f v ts).2.regKey id' f' =
      if id' = id ∧ f' = f then ((d.written id f v ts).key : WithBot (Timestamp ×ₗ V)) else ⊥ := by
  rw [setField_eq, regKey_eq, BTreeMap.get?_insert]
  by_cases hid : id' = id
  · by_cases hf : f' = f <;> simp [hid, hf, fieldKeys]
  · simp [hid]

/-- A write joins the register it leaves to the entry's. -/
theorem fieldKeys_insert_written (d : VaultDoc V) (id : EntryId) (f : FieldId) (v : V)
    (ts : Timestamp) :
    fieldKeys (((d.fields.get? id).getD .empty).insert f (d.written id f v ts)) =
      fieldKeys ((d.fields.get? id).getD .empty) ⊔
        fieldKeys (BTreeMap.empty.insert f (d.written id f v ts)) := by
  have hw := key_written d id f v ts
  rw [regKey_eq] at hw
  funext f'
  rw [Pi.sup_apply]
  unfold fieldKeys
  rw [BTreeMap.get?_insert, BTreeMap.get?_insert]
  by_cases hf : f' = f
  · subst hf
    rw [if_pos rfl, if_pos rfl, Option.elim_some, hw, eq_comm, sup_eq_right]
    cases hd : d.fields.get? id with
    | none => exact bot_le
    | some fs => exact le_sup_left
  · simp [hf]

/-- A write joins the document its delta carries. -/
theorem abs_setField (d : VaultDoc V) (id : EntryId) (f : FieldId) (v : V) (ts : Timestamp) :
    (d.setField id f v ts).1.abs = d.abs ⊔ (d.setField id f v ts).2.abs := by
  rw [setField_eq]
  refine Prod.ext ?_ (funext fun id' => ?_)
  · show d.entries.kernel = d.entries.kernel ⊔ (AddWinsSet.new : AddWinsSet EntryId).kernel
    rw [AddWinsSet.kernel_new, sup_bot_eq]
  · show allKeys _ id' = allKeys d.fields id' ⊔ allKeys _ id'
    unfold allKeys
    rw [BTreeMap.get?_insert, BTreeMap.get?_insert]
    by_cases hid : id' = id
    · subst hid
      rw [if_pos rfl, if_pos rfl]
      have hkeys := fieldKeys_insert_written d id' f v ts
      cases hd : d.fields.get? id' with
      | none => simp
      | some fs =>
        rw [hd, Option.getD_some] at hkeys
        simp [hkeys, WithBot.coe_sup]
    · simp [hid]

theorem regKey_setField (d : VaultDoc V) (id id' : EntryId) (f f' : FieldId) (v : V)
    (ts : Timestamp) : (d.setField id f v ts).1.regKey id' f' =
      if id' = id ∧ f' = f then d.regKey id f ⊔ (toLex (ts, v) : Timestamp ×ₗ V)
      else d.regKey id' f' := by
  rw [← key_written, setField_eq, regKey_eq, BTreeMap.get?_insert]
  by_cases hid : id' = id
  · subst hid
    by_cases hf : f' = f
    · simp [hf, fieldKeys]
    · rw [regKey_eq]
      cases hd : d.fields.get? id' <;> simp [hf, fieldKeys]
  · simp [hid, regKey_eq]

/-! ## The largest clock -/

theorem mem_allRegisters {r : LwwRegister V} :
    r ∈ d.fields.values.flatMap (fun entryFields => entryFields.values) ↔
      ∃ id f, d.register id f = some r := by
  simp only [List.mem_flatMap, BTreeMap.mem_values, register, Option.bind_eq_some_iff]
  constructor
  · rintro ⟨fs, ⟨id, hid⟩, f, hf⟩
    exact ⟨id, f, fs, hid, hf⟩
  · rintro ⟨id, f, fs, hid, hf⟩
    exact ⟨fs, ⟨id, hid⟩, f, hf⟩

/-- Every register's clock is at most `maxHlc`. -/
theorem le_maxHlc {id : EntryId} {f : FieldId} {r : LwwRegister V} (h : d.register id f = some r) :
    r.ts.hlc ≤ d.maxHlc.getD default := by
  have hmem : r.ts.hlc ∈
      (d.fields.values.flatMap fun entryFields => entryFields.values).map fun reg => reg.ts.hlc :=
    List.mem_map.mpr ⟨r, mem_allRegisters.mpr ⟨id, f, h⟩, rfl⟩
  unfold maxHlc
  cases hm : ((d.fields.values.flatMap fun entryFields => entryFields.values).map
      fun reg => reg.ts.hlc).max? with
  | none => rw [List.max?_eq_none_iff.mp hm] at hmem; exact absurd hmem List.not_mem_nil
  | some k => exact (List.max?_eq_some_iff.mp hm).2 _ hmem

/-- A document with a register has a largest clock. -/
theorem exists_le_maxHlc {id : EntryId} {f : FieldId} {r : LwwRegister V}
    (h : d.register id f = some r) : ∃ k, d.maxHlc = some k ∧ r.ts.hlc ≤ k := by
  have hle := le_maxHlc h
  cases hm : d.maxHlc with
  | none =>
    have hnil := List.max?_eq_none_iff.mp hm
    have hmem := mem_allRegisters.mpr ⟨id, f, h⟩
    rw [List.map_eq_nil_iff.mp hnil] at hmem
    exact absurd hmem List.not_mem_nil
  | some k => exact ⟨k, rfl, by rwa [hm] at hle⟩

/-- `maxHlc` is the clock of some register. -/
theorem maxHlc_mem {k : Hlc} (h : d.maxHlc = some k) :
    ∃ id f r, d.register id f = some r ∧ r.ts.hlc = k := by
  obtain ⟨r, hr, hk⟩ := List.mem_map.mp (List.max?_mem h)
  obtain ⟨id, f, hf⟩ := mem_allRegisters.mp hr
  exact ⟨id, f, r, hf, hk⟩

end RealmGuard.VaultDoc
