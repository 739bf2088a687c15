import RealmGuard.AnyMerge
import RealmGuard.Lib.Overflow

/-!
# Adding after arbitrary merges

What `addEntry` promises on a document that has merged decoded ones: no addition
overflows, the new dot is fresh, and its delta makes the entry present at a
replica (`AddEffective`). Every part fails when the counters of a device run out;
`addEffective_iff` is the exact condition, in terms of the dots that the merged
documents have observed or hold live.

Builds agree as long as nothing overflows (the `agree` lemmas), so the condition
mentions the build only for the last merge, of the delta.
-/

namespace RealmGuard

open Lib

/-! ## Builds agree -/

namespace DotContext

theorem agree_compactLoop (device : DeviceId) : ∀ (fuel : Nat) (dc : BTreeSet Dot) (n : UInt64),
    Agree fun p => compactLoop p device fuel dc n
  | 0, dc, n => (agree_add n 1).map fun _ => (dc, n)
  | fuel + 1, dc, n => (agree_add n 1).bind fun m =>
    (agree_compactLoop device fuel (dc.remove (Dot.new device m)) m).ite
      (agree_const (some (dc, n)))

theorem agree_compactDevice (c : DotContext) (device : DeviceId) :
    Agree fun p => c.compactDevice p device :=
  (agree_compactLoop device c.dc.len c.dc (c.run device)).bind fun _ => agree_const _

theorem agree_insert (c : DotContext) (x : Dot) : Agree fun p => c.insert p x :=
  (agree_const (some c)).ite (agree_compactDevice (inserted c x) x.device)

theorem agree_nextDot (c : DotContext) (device : DeviceId) : Agree fun p => c.nextDot p device :=
  (agree_add (c.top device) 1).bind fun k =>
    (agree_insert c (Dot.new device k)).bind fun _ => agree_const _

theorem agree_merge (a b : DotContext) : Agree fun p => a.merge p b :=
  Agree.foldlM agree_compactDevice _ (joined a b)

end DotContext

namespace AddWinsSet

variable {E : Type} [LinearOrder E]

theorem agree_insertAll (c : DotContext) (ds : BTreeSet Dot) : Agree fun p => insertAll p c ds :=
  Agree.foldlM DotContext.agree_insert ds.toList c

theorem agree_add (s : AddWinsSet E) (e : E) (device : DeviceId) :
    Agree fun p => s.add p e device :=
  (DotContext.agree_nextDot s.ctx device).bind fun q =>
    (DotContext.agree_insert .new q.2).bind fun c =>
      (agree_insertAll c (s.dots e)).bind fun _ => agree_const _

theorem agree_merge (s o : AddWinsSet E) : Agree fun p => s.merge p o :=
  (DotContext.agree_merge s.ctx o.ctx).bind fun _ => agree_const _

end AddWinsSet

namespace VaultDoc

variable {V : Type} [LinearOrder V]

theorem agree_addEntry (d : VaultDoc V) (id : EntryId) (device : DeviceId) :
    Agree fun p => d.addEntry p id device :=
  (AddWinsSet.agree_add d.entries id device).bind fun _ => agree_const _

theorem agree_merge (d o : VaultDoc V) : Agree fun p => d.merge p o :=
  (AddWinsSet.agree_merge d.entries o.entries).bind fun _ => agree_const _

theorem agree_mergeAll (l : List (VaultDoc V)) : Agree fun p => mergeAll p l :=
  Agree.foldlM agree_merge l .new

end VaultDoc

/-! ## When an add overflows -/

namespace DotContext

/-- The dot after all those observed of the device. -/
def next (c : DotContext) (device : DeviceId) : Dot := .new device (c.top device + 1)

theorem not_full_singleton (x : Dot) (d : DeviceId) : ¬ Full {x} d := by
  intro h
  have h1 : Dot.new d 1 = x := h 1 (by decide)
  have h2 : Dot.new d 2 = x := h 2 (by decide)
  exact absurd (congrArg Dot.counter (h1.trans h2.symm)) (by decide : ¬ (1 : UInt64) = 2)

theorem top_lt_next {c : DotContext} {device : DeviceId} (h : c.top device ≠ maxU64) :
    c.top device < (c.next device).counter :=
  self_lt_add_one (toNat_add_one_lt h)

theorem nextDot_eq (p : Profile) (c : DotContext) (device : DeviceId) :
    c.nextDot p device = (p.add (c.top device) 1).bind fun k =>
      (c.insert p (.new device k)).bind fun c' => some (c', .new device k) := rfl

theorem nextDot_of_ne_max {p : Profile} {c : DotContext} {device : DeviceId}
    (h : c.top device ≠ maxU64) : c.nextDot p device =
      (c.insert p (c.next device)).bind fun c' => some (c', c.next device) := by
  have hlt := toNat_add_one_lt h
  rw [nextDot_eq, Profile.add_one_of_lt hlt, Option.bind_some]
  rfl

theorem next_pos {c : DotContext} {device : DeviceId} (h : c.top device ≠ maxU64) :
    0 < (c.next device).counter :=
  lt_of_le_of_lt UInt64.zero_le (top_lt_next h)

/-- The next dot overflows at the last counter, or when it completes the device. -/
theorem nextDot_overflows {c : DotContext} {device : DeviceId} :
    c.nextDot .dev device = none ↔
      c.top device = maxU64 ∨ Full (c.observed ∪ {c.next device}) device := by
  by_cases h : c.top device = maxU64
  · refine iff_of_true ?_ (.inl h)
    rw [nextDot_eq, h, Profile.dev_add_one_max, Option.bind_none]
  · have hobs : (inserted c (c.next device)).observed = c.observed ∪ {c.next device} :=
      Set.ext fun y => observed_inserted.trans (or_congr_right (and_iff_left (next_pos h)))
    have hins : c.insert .dev (c.next device) = none ↔
        Full (c.observed ∪ {c.next device}) device := by
      rw [insert_eq_none, hobs]
      exact ⟨fun hf => hf.2.2, fun hf => ⟨rfl, not_contains_of_top_lt (top_lt_next h), hf⟩⟩
    rw [nextDot_of_ne_max h, or_iff_right h, ← hins]
    cases c.insert .dev (c.next device) <;> simp

end DotContext

namespace AddWinsSet

open DotContext

variable {E : Type} [LinearOrder E] {p : Profile} {s : AddWinsSet E} {e : E} {device : DeviceId}

/-- The delta's context overflows when the new dot and those it supersedes complete a device. -/
theorem deltaCtx_overflows {x : Dot} {ds : BTreeSet Dot} (hx : 0 < x.counter) :
    ((DotContext.new.insert .dev x).bind fun c => insertAll .dev c ds) = none ↔
      ∃ d, Full ({x} ∪ {y | y ∈ ds}) d := by
  have hobs : ∀ y, y ∈ (inserted .new x).observed ↔ y ∈ ({x} : Set Dot) := fun y => by
    rw [observed_inserted, observed_new, or_iff_right (Set.notMem_empty y), and_iff_left hx]
    rfl
  cases h : DotContext.new.insert .dev x with
  | none =>
    refine absurd (insert_eq_none.mp h).2.2 fun hf => not_full_singleton x x.device ?_
    exact fun k hk => (hobs _).mp (hf k hk)
  | some c =>
    have hs := insert_spec canonical_new.compact (insertFits_dev .new x) h
    have hc : c.observed = {x} := Set.ext fun y =>
      (hs.observed y).trans (observed_inserted.symm.trans (hobs y))
    rw [Option.bind_some, insertAll, foldlM_insert_eq_none hs.compact, hc]
    refine exists_congr fun d => (and_iff_right (not_full_singleton x d)).trans ?_
    exact full_congr fun k _ => or_congr_right BTreeSet.mem_toList

/-- When an add overflows. -/
theorem add_overflows : s.add .dev e device = none ↔ s.ctx.top device = maxU64 ∨
    Full (s.ctx.observed ∪ {s.ctx.next device}) device ∨
      ∃ d, Full ({s.ctx.next device} ∪ {y | y ∈ s.dots e}) d := by
  rw [← or_assoc, ← nextDot_overflows]
  cases h : s.ctx.nextDot .dev device with
  | none => simp [add, h]
  | some q =>
    obtain ⟨c, x⟩ := q
    have hmax : s.ctx.top device ≠ maxU64 := fun hm => by
      rw [nextDot_overflows.mpr (.inl hm)] at h
      cases h
    obtain rfl : s.ctx.next device = x := by
      rw [nextDot_of_ne_max hmax, Option.bind_eq_some_iff] at h
      obtain ⟨_, _, hx⟩ := h
      exact congrArg Prod.snd (Option.some.inj hx)
    have hadd : s.add .dev e device = none ↔
        ((DotContext.new.insert .dev (s.ctx.next device)).bind
          fun c => insertAll .dev c (s.dots e)) = none := by
      simp only [add, h, Option.bind_eq_bind, Option.bind_some]
      cases DotContext.new.insert .dev (s.ctx.next device) with
      | none => exact iff_of_true rfl rfl
      | some c₀ => cases hc₀ : insertAll .dev c₀ (s.dots e) <;> simp [hc₀]
    rw [hadd, deltaCtx_overflows (next_pos hmax), or_iff_right (by simp)]

/-- The delta of an add that did not overflow. -/
theorem add_delta {s' δ : AddWinsSet E} (hmax : s.ctx.top device ≠ maxU64)
    (h : s.add .dev e device = some (s', δ)) : δ.ctx.Compact ∧
      (∀ y, y ∈ δ.ctx.observed ↔ 0 < y.counter ∧ (y = s.ctx.next device ∨ y ∈ s.dots e)) ∧
      ∀ y, y ∈ δ.dots e ↔ y = s.ctx.next device := by
  obtain ⟨x, c₀, hnext, hc₀, hc₁, -, hδ⟩ := add_eq_some.mp h
  obtain rfl : s.ctx.next device = x := by
    rw [nextDot_of_ne_max hmax, Option.bind_eq_some_iff] at hnext
    obtain ⟨_, _, hx⟩ := hnext
    exact congrArg Prod.snd (Option.some.inj hx)
  have hs₀ := insert_spec canonical_new.compact (insertFits_dev .new _) hc₀
  have hs₁ := insertAll_spec hs₀.compact (room_dev c₀ _) hc₁
  refine ⟨hs₁.compact, fun y => ?_, fun y => ?_⟩
  · rw [hs₁.observed, hs₀.observed, observed_new, or_iff_right (Set.notMem_empty y),
      BTreeSet.mem_toList]
    have hpos := next_pos hmax
    constructor
    · rintro (⟨rfl, hy⟩ | ⟨hy, h0⟩)
      · exact ⟨hy, .inl rfl⟩
      · exact ⟨h0, .inr hy⟩
    · rintro ⟨h0, rfl | hy⟩
      · exact .inl ⟨rfl, h0⟩
      · exact .inr ⟨hy, h0⟩
  · rw [dots, hδ, BTreeMap.get?_insert, if_pos rfl, Option.getD_some, mem_singleton]

end AddWinsSet

/-! ## The documents merged before -/

namespace VaultDoc

open DotContext

variable {V : Type} [LinearOrder V] {p : Profile} {l q : List (VaultDoc V)} {x m s δ : VaultDoc V}
  {id : EntryId} {d device : DeviceId}

/-- The dots that the documents have observed. -/
def seenBy (l : List (VaultDoc V)) : Set Dot := {y | ∃ x ∈ l, y ∈ x.entries.ctx.observed}

/-- The dots live for an entry in some document and dead in none. -/
def liveBy (l : List (VaultDoc V)) (id : EntryId) : Set Dot :=
  {y | (∃ x ∈ l, y ∈ x.entries.dots id) ∧
    ∀ x ∈ l, y ∈ x.entries.ctx.observed → y ∈ x.entries.dots id}

/-- The largest counter of the device that the documents have observed. -/
def topBy (l : List (VaultDoc V)) (device : DeviceId) : UInt64 :=
  (l.map fun x => x.entries.ctx.top device).foldr max 0

/-- The dot after all those that the documents have observed of the device. -/
def nextBy (l : List (VaultDoc V)) (device : DeviceId) : Dot := .new device (topBy l device + 1)

/-- Merged after `q`, the document completes the device, and not by its own prefix. -/
def Completing (q : List (VaultDoc V)) (x : VaultDoc V) (d : DeviceId) : Prop :=
  Full (seenBy (q ++ [x])) d ∧ ¬ Full (seenBy q) d ∧ x.entries.ctx.run d ≠ maxU64

theorem Gathered.observed_eq (hm : Gathered l m) : m.entries.ctx.observed = seenBy l :=
  Set.ext hm.observed

theorem seenBy_snoc : seenBy (l ++ [x]) = seenBy l ∪ x.entries.ctx.observed :=
  Set.ext fun _ => exists_mem_snoc

theorem Gathered.mem_dots (hm : Gathered l m) {y : Dot} (hy : 0 < y.counter) :
    y ∈ m.entries.dots id ↔ y ∈ liveBy l id := by
  classical
  have hset : Prod.fst '' {s : State V | ∃ x ∈ l, x.abs = s} =
      (fun x : VaultDoc V => x.entries.kernel) '' (l.toFinset : Set (VaultDoc V)) := by
    ext k
    simp only [Set.mem_image, Set.mem_ofPred_eq, exists_exists_and_eq_and, List.coe_toFinset]
    exact Iff.rfl
  have hlub := (isLUB_prod.mp hm.abs).1
  rw [hset] at hlub
  have hk : m.entries.kernel = l.toFinset.sup fun x => x.entries.kernel :=
    hlub.unique Finset.isLUB_sup
  have hlive := DotKernel.mem_sup_live (s := l.toFinset)
    (f := fun x : VaultDoc V => x.entries.kernel) (e := id) (x := y)
  rw [← hk] at hlive
  simpa [AddWinsSet.mem_kernel_live, hy, liveBy, AddWinsSet.kernel] using hlive

theorem le_topBy (hx : x ∈ l) : x.entries.ctx.top device ≤ topBy l device := by
  induction l with
  | nil => exact absurd hx List.not_mem_nil
  | cons o l ih =>
    rcases List.mem_cons.mp hx with rfl | hx
    · exact le_max_left _ _
    · exact (ih hx).trans (le_max_right _ _)

theorem topBy_le {n : UInt64} (h : ∀ x ∈ l, x.entries.ctx.top device ≤ n) : topBy l device ≤ n := by
  induction l with
  | nil => exact UInt64.zero_le
  | cons o l ih =>
    exact max_le (h o List.mem_cons_self) (ih fun x hx => h x (List.mem_cons_of_mem o hx))

theorem Gathered.top_eq (hm : Gathered l m) : m.entries.ctx.top device = topBy l device := by
  apply le_antisymm
  · rcases m.entries.ctx.top_eq_zero_or_mem device with h0 | hmem
    · exact h0 ▸ UInt64.zero_le
    · obtain ⟨x, hx, hxm⟩ := (hm.observed _).mp hmem
      exact (le_top hxm).trans (le_topBy hx)
  · refine topBy_le fun x hx => ?_
    rcases x.entries.ctx.top_eq_zero_or_mem device with h0 | hmem
    · exact h0 ▸ UInt64.zero_le
    · exact le_top ((hm.observed _).mpr ⟨x, hx, hmem⟩)

theorem Gathered.next_eq (hm : Gathered l m) : m.entries.ctx.next device = nextBy l device := by
  rw [next, nextBy, hm.top_eq]

theorem Gathered.full_iff (hm : Gathered l m) :
    Full (seenBy l) d ↔ m.entries.ctx.run d = maxU64 :=
  hm.observed_eq ▸ hm.compact.full_iff d

/-- The merges overflow when some document completes a device on the way. -/
theorem mergeAll_overflows :
    mergeAll .dev l = none ↔ ∃ q x, q ++ [x] <+: l ∧ ∃ d, Completing q x d := by
  induction l using List.reverseRecOn with
  | nil =>
    refine iff_of_false (fun h => nomatch h) ?_
    rintro ⟨q, x, h, -⟩
    simpa using List.eq_nil_of_prefix_nil h
  | append_singleton l o ih =>
    have hsplit : (∃ q x, q ++ [x] <+: l ++ [o] ∧ ∃ d, Completing q x d) ↔
        mergeAll .dev l = none ∨ ∃ d, Completing l o d := by
      rw [ih]
      constructor
      · rintro ⟨q, x, h, hd⟩
        rcases List.prefix_concat_iff.mp h with h | h
        · obtain ⟨rfl, hx⟩ := List.append_inj' h rfl
          obtain rfl := List.singleton_inj.mp hx
          exact .inr hd
        · exact .inl ⟨q, x, h, hd⟩
      · rintro (⟨q, x, h, hd⟩ | hd)
        · exact ⟨q, x, h.trans (List.prefix_append _ _), hd⟩
        · exact ⟨l, o, List.prefix_rfl, hd⟩
    rw [hsplit]
    cases hs : mergeAll .dev l with
    | none =>
      refine iff_of_true ?_ (.inl rfl)
      refine Option.eq_none_iff_forall_ne_some.mpr fun m hm => ?_
      obtain ⟨s, hs', -⟩ := mergeAll_snoc.mp hm
      rw [hs] at hs'
      cases hs'
    | some s =>
      have hg := gathered (cloudsMiss_dev l) hs
      have hlast : mergeAll .dev (l ++ [o]) = s.merge .dev o := by
        rw [mergeAll, List.foldlM_append,
          show List.foldlM (VaultDoc.merge .dev) .new l = some s from hs]
        simp
      rw [hlast, or_iff_right (by simp), merge_eq_none, DotContext.merge_eq_none, and_iff_right rfl]
      refine exists_congr fun d => ?_
      rw [Completing, seenBy_snoc, hg.full_iff, hg.observed_eq]

/-- When an add after the merges overflows. -/
theorem Gathered.addEntry_overflows (hm : Gathered l m) : m.addEntry .dev id device = none ↔
    topBy l device = maxU64 ∨ Full (seenBy l ∪ {nextBy l device}) device ∨
      ∃ d, Full ({nextBy l device} ∪ liveBy l id) d := by
  rw [addEntry_eq_none, AddWinsSet.add_overflows, hm.top_eq, hm.next_eq, hm.observed_eq]
  refine or_congr_right (or_congr_right (exists_congr fun d => full_congr fun k hk => ?_))
  exact or_congr_right (hm.mem_dots hk)

/-- What adding an entry promises after these documents have been merged. -/
structure AddEffective (p : Profile) (l : List (VaultDoc V)) (id : EntryId) (device : DeviceId) :
    Prop where
  merges : ¬ Overflows fun p => mergeAll p l
  adds : ∀ m, mergeAll p l = some m → ¬ Overflows fun p => m.addEntry p id device
  fresh : ∀ m c x, mergeAll p l = some m → m.entries.ctx.nextDot p device = some (c, x) →
    ¬ m.entries.ctx.contains x = true
  effective : ∀ m s δ, mergeAll p l = some m → m.addEntry p id device = some (s, δ) →
    ∃ r, m.merge p δ = some r ∧ r.containsEntry id = true

/-- The documents leave the device a counter to add with, and complete no device: neither on the
way, nor with the dot added and those it supersedes. -/
structure AddFits (p : Profile) (l : List (VaultDoc V)) (id : EntryId) (device : DeviceId) :
    Prop where
  merges : ∀ q x, q ++ [x] <+: l → ∀ d, ¬ Completing q x d
  last : topBy l device ≠ maxU64
  gap : ¬ Full (seenBy l ∪ {nextBy l device}) device
  delta : ∀ d, ¬ Full ({nextBy l device} ∪ liveBy l id) d
  replica : p = .dev → ∀ d, Full (seenBy l ∪ ({nextBy l device} ∪ liveBy l id)) d →
    Full (seenBy l) d

/-- When a replica with the same state overflows on the delta. -/
theorem Gathered.merge_delta_overflows (hm : Gathered l m) (hlast : topBy l device ≠ maxU64)
    (hdelta : ∀ d, ¬ Full ({nextBy l device} ∪ liveBy l id) d)
    (h : m.addEntry .dev id device = some (s, δ)) : m.merge .dev δ = none ↔
      ∃ d, Full (seenBy l ∪ ({nextBy l device} ∪ liveBy l id)) d ∧ ¬ Full (seenBy l) d := by
  have hmax : m.entries.ctx.top device ≠ maxU64 := fun he => hlast (hm.top_eq ▸ he)
  obtain ⟨hcomp, hobs, -⟩ := AddWinsSet.add_delta hmax (addEntry_eq_some.mp h).1
  have hmem : ∀ y, 0 < y.counter →
      (y ∈ δ.entries.ctx.observed ↔ y ∈ {nextBy l device} ∪ liveBy l id) := fun y hy => by
    rw [hobs, and_iff_right hy, hm.next_eq, hm.mem_dots hy]
    exact Iff.rfl
  have hrun : ∀ d, δ.entries.ctx.run d ≠ maxU64 := fun d hr =>
    hdelta d ((full_congr fun k hk => hmem _ hk).mp ((hcomp.full_iff d).mpr hr))
  rw [merge_eq_none, DotContext.merge_eq_none, and_iff_right rfl]
  refine exists_congr fun d => and_congr (full_congr fun k hk => ?_) ?_
  · exact or_congr (hm.observed _) (hmem _ hk)
  · rw [and_iff_left (hrun d), hm.full_iff]

theorem AddEffective.fits (h : AddEffective p l id device) : AddFits p l id device := by
  obtain ⟨m, hm⟩ := exists_of_not_overflows h.merges
  have hg := gathered (cloudsMiss_dev l) hm
  have hmp := agree_mergeAll l p m hm
  have hadds := mt hg.addEntry_overflows.mpr (h.adds m hmp)
  obtain ⟨hlast, hgap, hdelta⟩ : topBy l device ≠ maxU64 ∧
      ¬ Full (seenBy l ∪ {nextBy l device}) device ∧
        ∀ d, ¬ Full ({nextBy l device} ∪ liveBy l id) d := by
    push Not at hadds
    exact hadds
  refine ⟨fun q x hq d hd => ?_, hlast, hgap, hdelta, fun hp d hd => ?_⟩
  · exact h.merges (mergeAll_overflows.mpr ⟨q, x, hq, d, hd⟩)
  · subst hp
    obtain ⟨⟨s, δ⟩, hs⟩ := exists_of_not_overflows (h.adds m hmp)
    obtain ⟨r, hr, -⟩ := h.effective m s δ hmp hs
    by_contra hn
    have hnone := (hg.merge_delta_overflows hlast hdelta hs).mpr ⟨d, hd, hn⟩
    rw [hr] at hnone
    cases hnone

section AddFits

variable (h : AddFits p l id device)
include h

theorem AddFits.merges_returns : ∃ m, mergeAll .dev l = some m :=
  exists_of_not_overflows (f := fun p => mergeAll p l) fun hn => by
    obtain ⟨q, x, hq, d, hd⟩ := mergeAll_overflows.mp hn
    exact h.merges q x hq d hd

variable (hm : Gathered l m)
include hm

theorem AddFits.top_ne : m.entries.ctx.top device ≠ maxU64 := fun he => h.last (hm.top_eq ▸ he)

theorem AddFits.add_returns : ∃ s δ, m.addEntry .dev id device = some (s, δ) := by
  obtain ⟨⟨s, δ⟩, hs⟩ := exists_of_not_overflows (f := fun p => m.addEntry p id device)
    fun hn => by
      rcases hm.addEntry_overflows.mp hn with hl | hf | ⟨d, hf⟩
      · exact h.last hl
      · exact h.gap hf
      · exact h.delta d hf
  exact ⟨s, δ, hs⟩

/-- The delta makes the entry present at a replica with the same state. -/
theorem AddFits.delta_effective (hs : m.addEntry .dev id device = some (s, δ)) :
    ∃ r, m.merge p δ = some r ∧ r.containsEntry id = true := by
  obtain ⟨r, hr⟩ : ∃ r, m.merge p δ = some r := by
    cases p with
    | release => exact merge_release m δ
    | dev =>
      refine Option.ne_none_iff_exists'.mp fun hnone => ?_
      obtain ⟨d, hd, hn⟩ := (hm.merge_delta_overflows h.last h.delta hs).mp hnone
      exact hn (h.replica rfl d hd)
  have hmax := h.top_ne hm
  obtain ⟨-, -, hdots⟩ := AddWinsSet.add_delta hmax (addEntry_eq_some.mp hs).1
  have hx : m.entries.ctx.next device ∈ δ.entries.dots id := (hdots _).mpr rfl
  have hlive : m.entries.ctx.next device ∈ r.entries.dots id :=
    (AddWinsSet.mem_dots_merge (merge_eq_some.mp hr).1).mpr
      ⟨.inr hx, .inr (not_contains_of_top_lt (top_lt_next hmax)), .inl hx⟩
  exact ⟨r, hr, AddWinsSet.contains_of_mem hlive⟩

end AddFits

/-- **When an add after merging decoded documents is safe and effective.** -/
theorem addEffective_iff (p : Profile) (l : List (VaultDoc V)) (id : EntryId) (device : DeviceId) :
    AddEffective p l id device ↔ AddFits p l id device := by
  refine ⟨AddEffective.fits, fun h => ?_⟩
  obtain ⟨m, hm⟩ := h.merges_returns
  have hg := gathered (cloudsMiss_dev l) hm
  have hmp : mergeAll p l = some m := agree_mergeAll l p m hm
  have hmax := h.top_ne hg
  obtain ⟨s, δ, hs⟩ := h.add_returns hg
  have hsp : m.addEntry p id device = some (s, δ) := agree_addEntry m id device p _ hs
  refine ⟨fun hn => ?_, fun m' hm' hn => ?_, fun m' c x hm' hx => ?_, fun m' s' δ' hm' hs' => ?_⟩
  · exact Option.some_ne_none m (hm.symm.trans hn)
  · obtain rfl := Option.some.inj (hmp.symm.trans hm')
    exact Option.some_ne_none _ (hs.symm.trans hn)
  · obtain rfl := Option.some.inj (hmp.symm.trans hm')
    rw [nextDot_of_ne_max hmax, Option.bind_eq_some_iff] at hx
    obtain ⟨_, _, hx⟩ := hx
    obtain rfl := congrArg Prod.snd (Option.some.inj hx)
    exact not_contains_of_top_lt (top_lt_next hmax)
  · obtain rfl := Option.some.inj (hmp.symm.trans hm')
    obtain ⟨rfl, rfl⟩ := Prod.mk.inj (Option.some.inj (hsp.symm.trans hs'))
    exact h.delta_effective hg hs

/-- One document that has observed all counters of a device stops its adds: in a dev build the
next counter overflows, in a release build the dot has counter `0` and the add is lost. -/
theorem not_addEffective_exhausted :
    ¬ AddEffective .dev [observedUpTo maxU64] (eid 1) (dev 1) ∧
      ¬ AddEffective .release [observedUpTo maxU64] (eid 1) (dev 1) := by
  constructor
  · intro h
    have hpanic : ((mergeAll .dev [observedUpTo maxU64]).any fun m =>
        (m.addEntry .dev (eid 1) (dev 1)).isNone) = true := by decide
    obtain ⟨m, hm, hnone⟩ := (Option.any_eq_true _ _).mp hpanic
    exact h.adds m hm (Option.isNone_iff_eq_none.mp hnone)
  · intro h
    have hlost : ((mergeAll .release [observedUpTo maxU64]).any fun m =>
        (m.addEntry .release (eid 1) (dev 1)).any fun q =>
          (m.merge .release q.2).all fun r => !r.containsEntry (eid 1)) = true := by decide
    obtain ⟨m, hm, hlost⟩ := (Option.any_eq_true _ _).mp hlost
    obtain ⟨⟨s, δ⟩, hs, hlost⟩ := (Option.any_eq_true _ _).mp hlost
    obtain ⟨r, hr, hpresent⟩ := h.effective m s δ hm hs
    rw [hr, Option.all_some, hpresent] at hlost
    cases hlost

end VaultDoc

end RealmGuard
