import RealmGuard.FieldRuns
import RealmGuard.ObservedRemove

/-!
# Reading a document delivered in any order

Deltas may come late, twice and without the past of their operation, and what a replica
shows is still a function of the operations it has absorbed. An operation on an entry puts out of
force the adds that it found in force at its device (`Finds`, by recursion on the log); an entry is
present when some add absorbed was found by no operation absorbed (`contains_iff_inForce`).
With the registers, which hold the greatest write absorbed, that is all a client reads: the
entries present, in ascending order, and for each its fields (`reads`).

Writes leave presence alone. A client for which an edit wins over a removal calls `add_entry`
after each edit: under causal delivery the edit then shows, or one that beats it, until a
removal by a device that had seen the add (`edit_wins`).
-/

namespace RealmGuard

open Lib DotContext AddWinsSet

namespace Presence

variable {Op S : Type} {p : Profile} {T : DeltaType DeviceId Op S} {E : Type} [LinearOrder E]
  {v : Presence p T E} {ok : Net DeviceId Op S → Action DeviceId Op → Prop}
  {n : Net DeviceId Op S} {i j : ℕ} {x : Dot} {e : E} {ev : Event DeviceId Op S}

/-- An operation adds or removes `e`. -/
def On (v : Presence p T E) (op : Op) (e : E) : Prop :=
  v.kind op = some (.add e) ∨ v.kind op = some (.remove e)

/-- Operation `j`, on `e`, found the add `i` in force: its device had absorbed it, and no
operation that had found it before. -/
def Finds (v : Presence p T E) (log : List (Event DeviceId Op S)) (e : E) (j i : ℕ) : Prop :=
  ∃ ev, log[j]? = some ev ∧ v.On ev.op e ∧ i ∈ ev.past ∧
    ∀ k ∈ ev.past, k < j → ¬ Finds v log e k i
termination_by j

/-- The history `h` has the add `i`, and no operation that found it in force. -/
def InForce (v : Presence p T E) (log : List (Event DeviceId Op S)) (e : E) (h : Finset ℕ)
    (i : ℕ) : Prop :=
  i ∈ h ∧ ∀ j ∈ h, ¬ v.Finds log e j i

section

variable (hn : Runs T ok n) (hw : v.NoWrap n.log)
include hn hw

/-- A dot is active where its add has been absorbed and no operation that had it active. -/
theorem mem_dots_iff_unfound {t : S} {h : Finset ℕ} (ht : n.Holds t h)
    (hm : v.Made n.log i x e) : x ∈ (v.view t).dots e ↔ i ∈ h ∧
      ∀ j ∈ h, ∀ ev, n.log[j]? = some ev → v.On ev.op e → x ∉ (v.view ev.pre).dots e := by
  rw [mem_dots_iff hn hw ht (hm.pos hn hw)]
  constructor
  · rintro ⟨⟨k, hk, ev, hev, hx⟩, hlive⟩
    obtain rfl := (labels hn hw).unique hm (made_of_mem_delta hn hw hev hx)
    refine ⟨hk, fun j hj ev' hev' hon hpre => ?_⟩
    rcases hon with hadd | hrem
    · -- an add carries what it supersedes, under a new dot
      obtain ⟨y, s', hy, hspec⟩ := add_event hn hw hev' hadd
      have hx' := hlive j hj ev' hev' ((hspec.delta_observed x).mpr (.inr hpre))
      obtain rfl := (hspec.mem_delta_dots.mp hx').2
      have hold : n.Holds ev'.pre ev'.past := .pre (List.mem_of_getElem? hev')
      exact hspec.not_mem_observed ((sound hn hw hold).seen hpre)
    · obtain ⟨s', hspec⟩ := remove_event hn hw hev' hrem
      exact hspec.not_mem_delta_dots (hlive j hj ev' hev' ((hspec.delta_observed x).mpr hpre))
  · rintro ⟨hi, hno⟩
    obtain ⟨ev, hev, hk, hx⟩ := hm
    have hm : v.Made n.log i x e := ⟨ev, hev, hk, hx⟩
    refine ⟨⟨i, hi, ev, hev, hx⟩, fun j hj ev' hev' hseen => ?_⟩
    rcases delta_observed hn hw hev' hseen with ⟨e', hj'⟩ | ⟨e', hpre, hon⟩
    · obtain rfl := (labels hn hw).unique hm hj'
      obtain rfl := Option.some.inj (hev.symm.trans hev')
      exact hx
    · have hold : n.Holds ev'.pre ev'.past := .pre (List.mem_of_getElem? hev')
      obtain ⟨k, hk'⟩ := (sound hn hw hold).owner hpre
      obtain rfl := (labels hn hw).same_element hm hk'
      exact absurd hpre (hno j hj ev' hev' hon)

/-- An operation found an add in force when its document had the dot active. -/
theorem finds_iff (hm : v.Made n.log i x e) : v.Finds n.log e j i ↔
    ∃ ev, n.log[j]? = some ev ∧ v.On ev.op e ∧ x ∈ (v.view ev.pre).dots e := by
  induction j using Nat.strong_induction_on with
  | h j ih =>
    rw [Finds]
    refine exists_congr fun ev => and_congr_right fun hev => and_congr_right fun _ => ?_
    have hold : n.Holds ev.pre ev.past := .pre (List.mem_of_getElem? hev)
    rw [mem_dots_iff_unfound hn hw hold hm]
    refine and_congr_right fun _ => forall₂_congr fun k hk => ?_
    have hlt := hn.past_lt hev k hk
    rw [imp_iff_right hlt, ih k hlt]
    push Not
    rfl

/-- **Presence in any order of delivery**: an element is present when some add of it absorbed is in
force. -/
theorem contains_iff_inForce {t : S} {h : Finset ℕ} (ht : n.Holds t h) :
    (v.view t).contains e = true ↔ ∃ i ev, n.log[i]? = some ev ∧ v.kind ev.op = some (.add e) ∧
      v.InForce n.log e h i := by
  have hs := sound hn hw ht
  have hdots : ∀ {i x}, v.Made n.log i x e →
      (x ∈ (v.view t).dots e ↔ v.InForce n.log e h i) := fun hm => by
    rw [mem_dots_iff_unfound hn hw ht hm, InForce]
    refine and_congr_right fun _ => forall₂_congr fun j _ => ?_
    rw [finds_iff hn hw hm]
    push Not
    rfl
  rw [hs.wellFormed.contains_iff]
  constructor
  · rintro ⟨x, hx⟩
    obtain ⟨i, hm⟩ := hs.owner hx
    obtain ⟨ev, hev, hk, hxi⟩ := hm
    exact ⟨i, ev, hev, hk, (hdots ⟨ev, hev, hk, hxi⟩).mp hx⟩
  · rintro ⟨i, ev, hev, hk, hforce⟩
    obtain ⟨x, s', hm, -⟩ := add_event hn hw hev hk
    exact ⟨x, (hdots hm).mpr hforce⟩

end

end Presence

namespace VaultDoc

variable {V : Type} [LinearOrder V] {p : Profile} {n : DocNet V}
  {ok : DocNet V → Action DeviceId (DocOp V) → Prop}

/-- An add of the entry was absorbed that no operation absorbed found in force. -/
def Present (p : Profile) (n : DocNet V) (h : Finset ℕ) (id : EntryId) : Prop :=
  ∃ i ev, n.log[i]? = some ev ∧ ev.op = .addEntry id ∧ (presence p V).InForce n.log id h i

/-- What a client reads from a document with history `h`: the entries present, in ascending
order; their number; the fields of an entry in ascending order, each with the greatest write
absorbed; and a single field, while its entry is present. -/
structure Reads (p : Profile) (n : DocNet V) (t : VaultDoc V) (h : Finset ℕ) : Prop where
  ids_sorted : t.entryIds.Pairwise (· < ·)
  mem_ids : ∀ id, id ∈ t.entryIds ↔ Present p n h id
  len : t.len = t.entryIds.length
  isEmpty : t.isEmpty = true ↔ ∀ id, ¬ Present p n h id
  contains : ∀ id, t.containsEntry id = true ↔ Present p n h id
  fields_sorted : ∀ id, (t.entryFields id).Pairwise fun a b => a.1 < b.1
  mem_fields : ∀ id f v, (f, v) ∈ t.entryFields id ↔
    ∃ ts, IsGreatest (absorbedKeys n.log id f h) (toLex (ts, v))
  field : ∀ id f v, t.field id f = some v ↔ Present p n h id ∧
    ∃ ts, IsGreatest (absorbedKeys n.log id f h) (toLex (ts, v))

theorem contains_iff_present (hn : Runs (replicated p V) ok n) (hw : (presence p V).NoWrap n.log)
    {t : VaultDoc V} {h : Finset ℕ} (ht : n.Holds t h) (id : EntryId) :
    t.containsEntry id = true ↔ Present p n h id := by
  refine (Presence.contains_iff_inForce (v := presence p V) hn hw ht).trans ?_
  refine exists₂_congr fun i ev => and_congr_right fun _ => and_congr_left fun _ => ?_
  cases hop : ev.op <;> simp [presence]

theorem mem_entryIds {d : VaultDoc V} {id : EntryId} :
    id ∈ d.entryIds ↔ d.containsEntry id = true := BTreeMap.mem_keys

theorem mem_entryFields {d : VaultDoc V} {id : EntryId} {f : FieldId} {v : V} :
    (f, v) ∈ d.entryFields id ↔ ∃ ts, d.register id f = some ⟨v, ts⟩ := by
  unfold entryFields register
  cases d.fields.get? id with
  | none => simp
  | some fs =>
    simp only [List.mem_map, Prod.mk.injEq, Option.bind_some, ← BTreeMap.mem_toList]
    constructor
    · rintro ⟨⟨f', reg⟩, hmem, rfl, rfl⟩
      exact ⟨reg.ts, hmem⟩
    · rintro ⟨ts, hmem⟩
      exact ⟨_, hmem, rfl, rfl⟩

theorem entryFields_pairwise (d : VaultDoc V) (id : EntryId) :
    (d.entryFields id).Pairwise fun a b => a.1 < b.1 := by
  unfold entryFields
  cases d.fields.get? id with
  | none => exact .nil
  | some fs => exact List.pairwise_map.mpr fs.sorted

/-- A register's value is the greatest write absorbed. -/
theorem register_value_iff (hn : Runs (replicated p V) ok n) {t : VaultDoc V} {h : Finset ℕ}
    (ht : n.Holds t h) {id : EntryId} {f : FieldId} {v : V} :
    (∃ ts, t.register id f = some ⟨v, ts⟩) ↔
      ∃ ts, IsGreatest (absorbedKeys n.log id f h) (toLex (ts, v)) :=
  exists_congr fun _ => isGreatest_register hn ht

/-- **What a client reads is a function of what was absorbed, in any order of delivery.** -/
theorem reads (p : Profile) (n : DocNet V) (hn : Runs (replicated p V) Free n)
    (hadds : p = .dev ∨ ∀ d, (presence p V).adds n.log d < 2 ^ 64) (t : VaultDoc V)
    (h : Finset ℕ) (ht : n.Holds t h) : Reads p n t h := by
  have hpresent := contains_iff_present hn hadds ht
  have hids : ∀ id, id ∈ t.entryIds ↔ Present p n h id := fun id =>
    mem_entryIds.trans (hpresent id)
  have hempty : t.isEmpty = true ↔ t.entryIds = [] := by
    unfold isEmpty AddWinsSet.isEmpty entryIds AddWinsSet.elements BTreeMap.keys
    rw [List.isEmpty_iff, List.map_eq_nil_iff]
  refine
    { ids_sorted := t.entries.entries.keys_pairwise
      mem_ids := hids
      len := (List.length_map ..).symm
      isEmpty := ?_
      contains := hpresent
      fields_sorted := entryFields_pairwise t
      mem_fields := fun id f v => mem_entryFields.trans (register_value_iff hn ht)
      field := fun id f v => ?_ }
  · rw [hempty, List.eq_nil_iff_forall_not_mem]
    exact forall_congr' fun id => not_congr (hids id)
  · rw [field_eq_some_iff, hpresent, ← register_value_iff hn ht]
    refine and_congr_right fun _ => ⟨?_, ?_⟩
    · rintro ⟨⟨v, ts⟩, hreg, rfl⟩
      exact ⟨ts, hreg⟩
    · rintro ⟨ts, hreg⟩
      exact ⟨_, hreg, rfl⟩

/-- Device 2 hears of device 1's second add of an entry before the first, and device 3 of the
removal in between only. -/
def scrambled : List (Action DeviceId (DocOp ℕ)) :=
  [.update (dev 1) (.addEntry (eid 1)), .update (dev 1) (.removeEntry (eid 1)),
    .update (dev 1) (.setField (eid 1) ⟨0⟩ 6 ⟨⟨4, 0⟩, dev 1⟩),
    .update (dev 1) (.addEntry (eid 1)), .deliver (dev 2) 4, .deliver (dev 2) 1,
    .deliver (dev 2) 3, .deliver (dev 3) 2]

theorem reads_scrambled : ∃ n : DocNet ℕ, Runs (replicated .dev ℕ) Free n ∧
    n.hist (dev 2) = {0, 2, 3} ∧ Reads .dev n (n.doc (dev 2)) (n.hist (dev 2)) ∧
    (n.doc (dev 2)).field (eid 1) ⟨0⟩ = some 6 := by
  have h : ((Net.init (replicated .dev ℕ)).exec (replicated .dev ℕ) Free scrambled).any
      (fun n => n.hist (dev 2) = {0, 2, 3} ∧
        (n.doc (dev 2)).field (eid 1) ⟨0⟩ = some 6) = true := by decide
  obtain ⟨n, hexec, h⟩ := (Option.any_eq_true _ _).mp h
  obtain ⟨hhist, hfield⟩ := of_decide_eq_true h
  have hn := Runs.init.exec hexec
  exact ⟨n, hn, hhist, reads .dev n hn (.inl rfl) _ _ (.replica (dev 2)), hfield⟩

/-! ## Edits that win over removals -/

section EditWins

variable (hn : Runs (replicated p V) Causal n) (hw : (presence p V).NoWrap n.log)
  {t : VaultDoc V} {h : Finset ℕ} (ht : n.Holds t h) (hc : Closed n.log h) {i j : ℕ}
  {id : EntryId} {f : FieldId} {v : V} {ts : Timestamp} {edit add : DocEvent V}
include hn ht

/-- A register is at or past a write of its field that the history has. -/
theorem exists_register_of_mem (hi : i ∈ h) (hedit : n.log[i]? = some edit)
    (hset : edit.op = .setField id f v ts) :
    ∃ reg, t.register id f = some reg ∧ (toLex (ts, v) : Timestamp ×ₗ V) ≤ reg.key := by
  have ha : Absorbed n.log id f h i := .write hi ⟨edit, hedit, hset⟩
  obtain ⟨reg, hreg⟩ := Option.isSome_iff_exists.mp ((register_isSome_iff hn ht).mpr ⟨i, ha⟩)
  exact ⟨reg, hreg,
    ((isGreatest_register hn ht).mp hreg).2 ⟨i, v, ts, ha, ⟨edit, hedit, hset⟩, rfl⟩⟩

include hw hc

/-- An entry is present when a history has an add of it that no removal in it had seen. -/
theorem contains_of_unseen (hj : j ∈ h) (hadd : n.log[j]? = some add) (hop : add.op = .addEntry id)
    (hno : ∀ k ∈ h, ∀ ev, n.log[k]? = some ev → ev.op = .removeEntry id → j ∉ ev.past) :
    t.containsEntry id = true := by
  refine (Presence.contains_iff_survives (v := presence p V) hn hw ht hc).mpr
    ⟨j, hj, add, hadd, by rw [hop]; rfl, fun k hk ev hev hkind => hno k hk ev hev ?_⟩
  cases hev' : ev.op with
  | addEntry id' => rw [hev'] at hkind; cases hkind
  | removeEntry id' =>
    rw [hev'] at hkind
    rw [SetOp.remove.inj (Option.some.inj hkind)]
  | setField id' f' v' ts' => rw [hev'] at hkind; cases hkind

end EditWins

/-- **An edit followed by `add_entry` wins over every removal that had not seen the add.** A
document that has absorbed the add shows the edit, or a write that beats it. -/
theorem edit_wins (p : Profile) (n : DocNet V) (hn : Runs (replicated p V) Causal n)
    (hadds : p = .dev ∨ ∀ d, (presence p V).adds n.log d < 2 ^ 64) (i j : ℕ)
    (edit add : DocEvent V)
    (id : EntryId) (f : FieldId) (v : V) (ts : Timestamp) (hedit : n.log[i]? = some edit)
    (hset : edit.op = .setField id f v ts) (hadd : n.log[j]? = some add)
    (hop : add.op = .addEntry id) (hij : i ∈ add.past) :
    ∀ r, j ∈ n.hist r →
      (∀ k ∈ n.hist r, ∀ ev, n.log[k]? = some ev → ev.op = .removeEntry id → j ∉ ev.past) →
      ∃ v' ts', (n.doc r).field id f = some v' ∧ (n.doc r).register id f = some ⟨v', ts'⟩ ∧
        (toLex (ts, v) : Timestamp ×ₗ V) ≤ toLex (ts', v') := by
  intro r hj hno
  have hc : Closed n.log (n.hist r) := hn.closed.1 r
  obtain ⟨⟨v', ts'⟩, hreg, hle⟩ :=
    exists_register_of_mem hn (.replica r) (hc j hj add hadd hij) hedit hset
  have hpresent := contains_of_unseen hn hadds (.replica r) hc hj hadd hop hno
  exact ⟨v', ts', field_eq_some_iff.mpr ⟨hpresent, _, hreg, rfl⟩, hreg, hle⟩

/-- Device 2 removes an entry that device 1 is editing. -/
def editUnderRemoval : List (Action DeviceId (DocOp ℕ)) :=
  [.update (dev 1) (.addEntry (eid 1)), .deliver (dev 2) 1,
    .update (dev 2) (.removeEntry (eid 1)),
    .update (dev 1) (.setField (eid 1) ⟨0⟩ 6 ⟨⟨4, 0⟩, dev 1⟩),
    .update (dev 1) (.addEntry (eid 1)), .publish (dev 1), .deliver (dev 2) 5]

theorem edit_wins_editUnderRemoval : ∃ n : DocNet ℕ, Runs (replicated .dev ℕ) Causal n ∧
    (∃ ev, n.log[1]? = some ev ∧ ev.op = .removeEntry (eid 1)) ∧
    ∃ v' ts', (n.doc (dev 2)).field (eid 1) ⟨0⟩ = some v' ∧
      (n.doc (dev 2)).register (eid 1) ⟨0⟩ = some ⟨v', ts'⟩ ∧
      (toLex (⟨⟨4, 0⟩, dev 1⟩, 6) : Timestamp ×ₗ ℕ) ≤ toLex (ts', v') := by
  have h : ((Net.init (replicated .dev ℕ)).exec (replicated .dev ℕ) Causal
      editUnderRemoval).any (fun n => n.log.length = 4 ∧ n.hist (dev 2) = {0, 1, 2, 3} ∧
        n.log.map Event.op = [.addEntry (eid 1), .removeEntry (eid 1),
          .setField (eid 1) ⟨0⟩ 6 ⟨⟨4, 0⟩, dev 1⟩, .addEntry (eid 1)] ∧
        n.log.map Event.past = [∅, {0}, {0}, {0, 2}]) = true := by decide
  obtain ⟨n, hexec, h⟩ := (Option.any_eq_true _ _).mp h
  obtain ⟨hlen, hhist, hops, hpasts⟩ := of_decide_eq_true h
  have hn := Runs.init.exec hexec
  have hop : ∀ {k} {ev : DocEvent ℕ}, n.log[k]? = some ev →
      (n.log.map Event.op)[k]? = some ev.op :=
    fun hev => by rw [List.getElem?_map, hev, Option.map_some]
  have hpast : ∀ {k} {ev : DocEvent ℕ}, n.log[k]? = some ev →
      (n.log.map Event.past)[k]? = some ev.past :=
    fun hev => by rw [List.getElem?_map, hev, Option.map_some]
  rw [hops] at hop
  rw [hpasts] at hpast
  obtain ⟨remove, hremove⟩ : ∃ ev, n.log[1]? = some ev := ⟨_, List.getElem?_eq_getElem (by omega)⟩
  obtain ⟨edit, hedit⟩ : ∃ ev, n.log[2]? = some ev := ⟨_, List.getElem?_eq_getElem (by omega)⟩
  obtain ⟨add, hadd⟩ : ∃ ev, n.log[3]? = some ev := ⟨_, List.getElem?_eq_getElem (by omega)⟩
  refine ⟨n, hn, ⟨remove, hremove, (Option.some.inj (hop hremove)).symm⟩,
    edit_wins .dev n hn (.inl rfl) 2 3 edit add (eid 1) ⟨0⟩ 6 ⟨⟨4, 0⟩, dev 1⟩ hedit
      (Option.some.inj (hop hedit)).symm hadd (Option.some.inj (hop hadd)).symm ?_ (dev 2)
      (by rw [hhist]; decide) ?_⟩
  · rw [← Option.some.inj (hpast hadd)]
    decide
  · intro k hk ev hev _
    rw [hhist] at hk
    intro h3
    have hlt : 3 < k := hn.past_lt hev 3 h3
    simp only [Finset.mem_insert, Finset.mem_singleton] at hk
    omega

end VaultDoc

end RealmGuard
