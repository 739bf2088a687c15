import RealmGuard.VaultDocSpec

/-!
# The join laws of documents

Merging well-formed documents keeps them well formed and is idempotent,
commutative and associative as equality of values, whenever the merges return.
In a release build they always do. A dev build checks the `n + 1` of the
compaction loop also after the last counter, so a merge that completes the
counters of a device up to `u64::MAX` panics; `joinLaws_iff` is the exact
condition.
-/

namespace RealmGuard.VaultDoc

open Lib DotContext

variable {V : Type} [LinearOrder V] {p : Profile} {a b c m : VaultDoc V}

/-- The dots a document has observed. -/
def observed (d : VaultDoc V) : Set Dot := d.entries.ctx.observed

theorem WellFormed.merge_isSome_iff (ha : a.WellFormed) (hb : b.WellFormed) :
    (∃ m, a.merge p b = some m) ↔ p = .release ∨ NoCompletion a.observed b.observed := by
  rw [observed, observed, ← Canonical.merge_isSome_iff ha.canonical hb.canonical,
    ← Option.isSome_iff_exists, ← Option.isSome_iff_exists, ← not_iff_not,
    Option.not_isSome_iff_eq_none, Option.not_isSome_iff_eq_none, merge_eq_none]

theorem WellFormed.observed_merge (ha : a.WellFormed) (hb : b.WellFormed)
    (h : a.merge p b = some m) : m.observed = a.observed ∪ b.observed :=
  congrArg (fun s => s.1.seen) (ha.merge hb h).2

/-- `merge` is a join on these three documents, returning each time. -/
structure JoinLaws (p : Profile) (a b c : VaultDoc V) : Prop where
  wellFormed : ∃ m, a.merge p b = some m ∧ m.WellFormed
  idem : a.merge p a = some a
  comm : ∃ m, a.merge p b = some m ∧ b.merge p a = some m
  assoc : ∃ m, (a.merge p b).bind (fun ab => ab.merge p c) = some m ∧
    (b.merge p c).bind (fun bc => a.merge p bc) = some m

/-- No device gets its counters completed up to `u64::MAX` by these merges. -/
structure NoCompletions (a b c : VaultDoc V) : Prop where
  left : NoCompletion a.observed b.observed
  right : NoCompletion b.observed c.observed
  all : ∀ d, Full (a.observed ∪ b.observed ∪ c.observed) d →
    Full a.observed d ∨ Full b.observed d ∨ Full c.observed d

theorem WellFormed.merge_self (ha : a.WellFormed) : a.merge p a = some a := by
  obtain ⟨m, hm⟩ := (ha.merge_isSome_iff (p := p) ha).mpr
    (.inr fun d h => .inl (by rwa [Set.union_self] at h))
  obtain ⟨hwf, habs⟩ := ha.merge ha hm
  rw [sup_idem] at habs
  rw [hm, hwf.ext ha habs]

theorem WellFormed.merge_comm (ha : a.WellFormed) (hb : b.WellFormed) (h : a.merge p b = some m) :
    b.merge p a = some m := by
  have hc : p = .release ∨ NoCompletion b.observed a.observed := by
    refine ((ha.merge_isSome_iff hb).mp ⟨m, h⟩).imp id fun hn d hd => ?_
    rw [Set.union_comm] at hd
    exact (hn d hd).symm
  obtain ⟨m', hm'⟩ := (hb.merge_isSome_iff ha).mpr hc
  obtain ⟨hwf, habs⟩ := ha.merge hb h
  obtain ⟨hwf', habs'⟩ := hb.merge ha hm'
  rw [hm', hwf'.ext hwf (by rw [habs', habs, sup_comm])]

theorem full_union_left {s t : Set Dot} {d : DeviceId} (h : Full s d) : Full (s ∪ t) d :=
  fun k hk => .inl (h k hk)

theorem full_union_right {s t : Set Dot} {d : DeviceId} (h : Full t d) : Full (s ∪ t) d :=
  fun k hk => .inr (h k hk)

/-- Where the merges return, none of them completed a device. -/
theorem JoinLaws.noCompletions (ha : a.WellFormed) (hb : b.WellFormed) (hc : c.WellFormed)
    (h : JoinLaws p a b c) : p = .release ∨ NoCompletions a b c := by
  obtain ⟨ab, hab, hwf⟩ := h.wellFormed
  obtain ⟨m, hl, hr⟩ := h.assoc
  rcases (ha.merge_isSome_iff hb).mp ⟨ab, hab⟩ with hp | hleft
  · exact .inl hp
  rw [hab, Option.bind_some] at hl
  obtain ⟨bc, hbc, -⟩ := Option.bind_eq_some_iff.mp hr
  rcases (hb.merge_isSome_iff hc).mp ⟨bc, hbc⟩ with hp | hright
  · exact .inl hp
  rcases (hwf.merge_isSome_iff hc).mp ⟨m, hl⟩ with hp | habc
  · exact .inl hp
  refine .inr ⟨hleft, hright, fun d hd => ?_⟩
  rw [ha.observed_merge hb hab] at habc
  rcases habc d hd with h | h
  · exact (hleft d h).elim .inl fun h => .inr (.inl h)
  · exact .inr (.inr h)

/-- Both groupings return, and the same document. -/
theorem WellFormed.merge_assoc (ha : a.WellFormed) (hb : b.WellFormed) (hc : c.WellFormed)
    (h : p = .release ∨ NoCompletions a b c) {ab bc : VaultDoc V} (hab : a.merge p b = some ab)
    (hbc : b.merge p c = some bc) : ∃ m, ab.merge p c = some m ∧ a.merge p bc = some m := by
  obtain ⟨hwab, habs_ab⟩ := ha.merge hb hab
  obtain ⟨hwbc, habs_bc⟩ := hb.merge hc hbc
  have hob_ab := ha.observed_merge hb hab
  have hob_bc := hb.observed_merge hc hbc
  obtain ⟨l, hl⟩ := (hwab.merge_isSome_iff (p := p) hc).mpr (h.imp id fun hn d hd => by
    rw [hob_ab] at hd ⊢
    rcases hn.all d hd with h | h | h
    · exact .inl (full_union_left h)
    · exact .inl (full_union_right h)
    · exact .inr h)
  obtain ⟨r, hr⟩ := (ha.merge_isSome_iff (p := p) hwbc).mpr (h.imp id fun hn d hd => by
    rw [hob_bc, ← Set.union_assoc] at hd
    rw [hob_bc]
    rcases hn.all d hd with h | h | h
    · exact .inl h
    · exact .inr (full_union_left h)
    · exact .inr (full_union_right h))
  obtain ⟨hwl, habs_l⟩ := hwab.merge hc hl
  obtain ⟨hwr, habs_r⟩ := ha.merge hwbc hr
  have hlr : l = r := hwl.ext hwr (by rw [habs_l, habs_r, habs_ab, habs_bc, sup_assoc])
  exact ⟨l, hl, hlr ▸ hr⟩

/-- **Merge is a join on well-formed documents**, in every release build, and in
a dev build exactly when no device's counters are completed. -/
theorem joinLaws_iff (p : Profile) (a b c : VaultDoc V) (ha : a.WellFormed) (hb : b.WellFormed)
    (hc : c.WellFormed) : JoinLaws p a b c ↔ p = .release ∨ NoCompletions a b c := by
  refine ⟨fun h => h.noCompletions ha hb hc, fun h => ?_⟩
  obtain ⟨ab, hab⟩ := (ha.merge_isSome_iff hb).mpr (h.imp id NoCompletions.left)
  obtain ⟨bc, hbc⟩ := (hb.merge_isSome_iff hc).mpr (h.imp id NoCompletions.right)
  obtain ⟨m, hl, hr⟩ := ha.merge_assoc hb hc h hab hbc
  refine ⟨⟨ab, hab, (ha.merge hb hab).1⟩, ha.merge_self, ⟨ab, hab, ha.merge_comm hb hab⟩,
    ⟨m, ?_, ?_⟩⟩
  · rw [hab, Option.bind_some, hl]
  · rw [hbc, Option.bind_some, hr]

/-! ## The last counter -/

/-- A document that has observed the counters of `dev 1` up to `n`. -/
def observedUpTo (n : UInt64) : VaultDoc ℕ := ⟨⟨.empty, ⟨.insert .empty (dev 1) n, .empty⟩⟩, .empty⟩

/-- A document that has observed only the last counter of `dev 1`. -/
def observedLast : VaultDoc ℕ := ⟨⟨.empty, ⟨.empty, .insert .empty ⟨dev 1, maxU64⟩⟩⟩, .empty⟩

theorem wellFormed_observedUpTo {n : UInt64} (hn : 0 < n) : (observedUpTo n).WellFormed where
  nonempty _ _ h := nomatch h
  pos _ x hx := (BTreeSet.not_mem_empty x hx).elim
  canonical := by
    refine ⟨fun d k h => ?_, fun x hx => (BTreeSet.not_mem_empty x hx).elim⟩
    change (BTreeMap.empty.insert (dev 1) n).get? d = some k at h
    rw [BTreeMap.get?_insert] at h
    split at h
    · exact Option.some.inj h ▸ hn
    · cases h

theorem wellFormed_observedLast : observedLast.WellFormed where
  nonempty _ _ h := nomatch h
  pos _ x hx := (BTreeSet.not_mem_empty x hx).elim
  canonical := by
    refine ⟨fun d k h => (nomatch h), fun x hx => ?_⟩
    obtain rfl : x = ⟨dev 1, maxU64⟩ :=
      (BTreeSet.mem_insert.mp hx).resolve_right (BTreeSet.not_mem_empty x)
    decide

/-- A release build merges the last counter into a prefix that ends just before it. -/
theorem joinLaws_iff_last : JoinLaws .release (observedUpTo (maxU64 - 1)) observedLast .new :=
  (joinLaws_iff .release _ _ _ (wellFormed_observedUpTo (by decide)) wellFormed_observedLast
    wellFormed_new).mpr (.inl rfl)

/-- A dev build panics there: `n + 1` of the compaction loop overflows. -/
theorem not_joinLaws_last :
    ¬ ∀ (p : Profile) (a b c : VaultDoc ℕ), a.WellFormed → b.WellFormed → c.WellFormed →
      JoinLaws p a b c := by
  intro h
  obtain ⟨m, hm, -⟩ := (h .dev (observedUpTo (maxU64 - 1)) observedLast .new
    (wellFormed_observedUpTo (by decide)) wellFormed_observedLast wellFormed_new).wellFormed
  have hnone : (observedUpTo (maxU64 - 1)).merge .dev observedLast = none := by decide
  rw [hnone] at hm
  cases hm

end RealmGuard.VaultDoc
