import Mathlib.Order.MinMax
import RealmGuard.Crdt.Context

/-!
# The operations of a context

One specification per operation: `merge_spec` on any two contexts, `insert_spec`
on a compact one, `nextDot_spec`; and for each when a dev build panics
(`merge_eq_none`, `insert_eq_none`). A panic means that the operation completes
some device's prefix up to `u64::MAX` out of the cloud.
-/

namespace RealmGuard.DotContext

open Lib

/-! ## Merge -/

/-- The context `merge` compacts: the joined prefixes and the purged union of the clouds. -/
def joined (a b : DotContext) : DotContext :=
  let cc := a.cc.upsertAll (fun entry n => max (entry.getD 0) n) b.cc
  ⟨cc, (b.dc.toList.foldl BTreeSet.insert a.dc).filter fun d => !covered cc d⟩

theorem merge_eq (p : Profile) (a b : DotContext) :
    a.merge p b = (BTreeSet.ofList ((joined a b).dc.toList.map Dot.device)).toList.foldlM
      (compactDevice p) (joined a b) := rfl

/-- The clouds of two contexts miss some counter of each device. -/
def CloudsFit (p : Profile) (a b : DotContext) : Prop :=
  p = .release → ∀ d, ∃ k, Dot.new d k ∉ a.dc ∧ Dot.new d k ∉ b.dc

/-- What `merge` returns, on any two contexts. -/
structure MergeSpec (a b c : DotContext) : Prop where
  observed : c.observed = a.observed ∪ b.observed
  compact : c.Compact
  isSome : ∀ d, (c.cc.get? d).isSome = true ↔
    ((a.cc.get? d).isSome = true ∨ (b.cc.get? d).isSome = true) ∨
      Dot.new d 1 ∈ a.dc ∨ Dot.new d 1 ∈ b.dc
  zero : ∀ d, Dot.new d 0 ∈ c.dc ↔ (Dot.new d 0 ∈ a.dc ∨ Dot.new d 0 ∈ b.dc) ∧
    ¬ ((a.cc.get? d).isSome = true ∨ (b.cc.get? d).isSome = true)

section Joined

variable {a b : DotContext}

theorem get?_joined (d : DeviceId) :
    (joined a b).cc.get? d = (b.cc.get? d).elim (a.cc.get? d) fun n => some (max (a.run d) n) :=
  BTreeMap.get?_upsertAll (fun entry n => max (entry.getD 0) n) a.cc b.cc d

theorem run_joined (d : DeviceId) : (joined a b).run d = max (a.run d) (b.run d) := by
  rw [run, get?_joined]
  cases h : b.cc.get? d with
  | some n => rw [show b.run d = n by rw [run, h]; rfl]; rfl
  | none =>
    rw [show b.run d = 0 by rw [run, h]; rfl]
    exact (max_eq_left UInt64.zero_le).symm

theorem isSome_joined (d : DeviceId) : ((joined a b).cc.get? d).isSome = true ↔
    (a.cc.get? d).isSome = true ∨ (b.cc.get? d).isSome = true := by
  rw [get?_joined]
  cases b.cc.get? d <;> simp

theorem mem_joined {x : Dot} :
    x ∈ (joined a b).dc ↔ (x ∈ a.dc ∨ x ∈ b.dc) ∧ ¬ covered (joined a b).cc x = true := by
  rw [joined, BTreeSet.mem_filter, BTreeSet.mem_foldl_insert, BTreeSet.mem_toList, or_comm]
  simp

theorem mem_joined_of_pos {x : Dot} (hx : 0 < x.counter) :
    x ∈ (joined a b).dc ↔ (x ∈ a.dc ∨ x ∈ b.dc) ∧ (joined a b).run x.device < x.counter := by
  rw [mem_joined, covered_iff_le_run hx, not_le]

theorem observed_joined : (joined a b).observed = a.observed ∪ b.observed := by
  ext x
  rw [Set.mem_union, mem_observed, mem_observed, mem_observed, ← and_or_left]
  refine and_congr_right fun hx => ?_
  rw [mem_joined_of_pos hx, run_joined, le_max_iff, max_lt_iff, ← not_le, ← not_le]
  tauto

theorem mem_joined_zero (d : DeviceId) : Dot.new d 0 ∈ (joined a b).dc ↔
    (Dot.new d 0 ∈ a.dc ∨ Dot.new d 0 ∈ b.dc) ∧
      ¬ ((a.cc.get? d).isSome = true ∨ (b.cc.get? d).isSome = true) := by
  rw [mem_joined, ← isSome_joined, covered_iff]
  refine and_congr_right fun _ => not_congr ?_
  show (∃ n, (joined a b).cc.get? d = some n ∧ (0 : UInt64) ≤ n) ↔ _
  simp [Option.isSome_iff_exists]

theorem fits_joined {p : Profile} (h : CloudsFit p a b) (d : DeviceId) : Fits p (joined a b) d := by
  intro hp
  obtain ⟨k, hka, hkb⟩ := h hp d
  have hk : Dot.new d k ∉ (joined a b).dc := fun hm => (mem_joined.mp hm).1.elim hka hkb
  rcases le_or_gt k ((joined a b).run d) with hle | hlt
  · by_cases hg : ((joined a b).cc.get? d).isSome = true
    · exact ⟨0, .inl rfl, fun hm => (mem_joined_zero d |>.mp hm).2 (isSome_joined d |>.mp hg)⟩
    · have hr : (joined a b).run d = 0 := by
        rw [run, Option.not_isSome_iff_eq_none.mp hg]
        rfl
      exact ⟨k, .inl (le_antisymm (hr ▸ hle) UInt64.zero_le), hk⟩
  · exact ⟨k, .inr hlt, hk⟩

/-- Every device ends up compacted: those with dots in the cloud by the loop, the others
because there is nothing to absorb. -/
theorem compactedAt_merge {p : Profile} {c : DotContext} (hfit : CloudsFit p a b)
    (h : a.merge p b = some c) (d : DeviceId) : ∃ m, CompactedAt (joined a b) d c m := by
  rw [merge_eq] at h
  obtain ⟨hin, hout⟩ := foldlM_compactDevice (BTreeSet.toList_nodup _)
    (fun d _ => fits_joined hfit d) h
  by_cases hd : d ∈ (BTreeSet.ofList ((joined a b).dc.toList.map Dot.device)).toList
  · exact hin d hd
  · have hs := hout d hd
    have hnone : ∀ k, Dot.new d k ∉ (joined a b).dc := fun k hk =>
      hd (BTreeSet.mem_toList.mpr (BTreeSet.mem_ofList.mpr
        (List.mem_map.mpr ⟨_, BTreeSet.mem_toList.mpr hk, rfl⟩)))
    refine ⟨(joined a b).run d, le_rfl, fun k hk hk' => absurd hk (not_lt.mpr hk'),
      fun k _ => hnone k, ?_, fun k => ?_⟩
    · rw [hs.get?]
      cases hg : (joined a b).cc.get? d with
      | none => simp [run, hg]
      | some n => simp [run, hg]
    · exact iff_of_false (fun hk => hnone k ((hs.mem k).mp hk)) fun hk => hnone k hk.1

end Joined

theorem merge_spec {p : Profile} {a b c : DotContext} (hfit : CloudsFit p a b)
    (h : a.merge p b = some c) : MergeSpec a b c where
  observed := by
    rw [← observed_joined]
    ext x
    obtain ⟨m, hm⟩ := compactedAt_merge hfit h x.device
    exact hm.observed x.counter
  compact x hx hpos := by
    obtain ⟨m, hm⟩ := compactedAt_merge hfit h x.device
    exact hm.gap (fun k hk hk0 => ((mem_joined_of_pos hk0).mp hk).2) hx hpos
  isSome d := by
    obtain ⟨m, hm⟩ := compactedAt_merge hfit h d
    rw [hm.isSome, mem_joined, ← isSome_joined, covered_iff]
    constructor
    · exact Or.imp id And.left
    · rintro (hs | hd)
      · exact .inl hs
      · by_cases hc : ∃ n, (joined a b).cc.get? d = some n ∧ (1 : UInt64) ≤ n
        · obtain ⟨n, hn, -⟩ := hc
          exact .inl (by rw [hn]; rfl)
        · exact .inr ⟨hd, hc⟩
  zero d := by
    obtain ⟨m, hm⟩ := compactedAt_merge hfit h d
    rw [hm.mem, ← mem_joined_zero]
    exact and_iff_left fun hk => not_lt_of_ge UInt64.zero_le hk.1

theorem contains_zero_iff {c : DotContext} (d : DeviceId) :
    c.contains (Dot.new d 0) = true ↔ (c.cc.get? d).isSome = true ∨ Dot.new d 0 ∈ c.dc := by
  rw [contains_iff, covered_iff, Option.isSome_iff_exists]
  refine or_congr_left (exists_congr fun n => ?_)
  exact and_iff_left UInt64.zero_le

/-- The cloud of a compact context misses the first counter of each device. -/
theorem Compact.one_not_mem {c : DotContext} (hc : c.Compact) (d : DeviceId) :
    Dot.new d 1 ∉ c.dc := fun h => by
  have hg := hc _ h zero_lt_one_u64
  change (c.run d).toNat + 2 ≤ 1 at hg
  omega

section MergeSpec

variable {a b c : DotContext}

theorem MergeSpec.isSome_of_compact (h : MergeSpec a b c) (ha : a.Compact) (d : DeviceId) :
    (c.cc.get? d).isSome = true ↔ (a.cc.get? d).isSome = true ∨
      (b.cc.get? d).isSome = true ∨ Dot.new d 1 ∈ b.dc := by
  rw [h.isSome, or_iff_right (ha.one_not_mem d), or_assoc]

/-- What a merge makes of counter `0`: contained if it was, or if the other side's first counter
gives the device an entry. -/
theorem MergeSpec.contains_zero (h : MergeSpec a b c) (ha : a.Compact) (d : DeviceId) :
    c.contains (Dot.new d 0) = true ↔ a.contains (Dot.new d 0) = true ∨
      b.contains (Dot.new d 0) = true ∨ Dot.new d 1 ∈ b.dc := by
  rw [contains_zero_iff, contains_zero_iff, contains_zero_iff, h.isSome_of_compact ha, h.zero]
  tauto

/-- A merge puts nothing into the cloud. -/
theorem MergeSpec.mem_dc (h : MergeSpec a b c) {x : Dot} (hx : x ∈ c.dc) : x ∈ a.dc ∨ x ∈ b.dc := by
  by_cases hpos : 0 < x.counter
  · obtain ⟨hobs, hrun⟩ := (h.compact.mem_dc hpos).mp hx
    have hle : ∀ {s : DotContext}, s.observed ⊆ c.observed → ¬ x.counter ≤ s.run x.device :=
      fun hs hle => hrun (hle.trans (run_le_of_observed h.compact fun _ hk => hs hk))
    rw [h.observed] at hobs hle
    exact hobs.imp
      (fun ha => (mem_observed.mp ha).2.resolve_left (hle Set.subset_union_left))
      (fun hb => (mem_observed.mp hb).2.resolve_left (hle Set.subset_union_right))
  · rw [Dot.eq_new_zero hpos] at hx ⊢
    exact ((h.zero _).mp hx).1

end MergeSpec

/-- Every counter of the device from 1 to `u64::MAX` is in `s`. -/
def Full (s : Set Dot) (d : DeviceId) : Prop := ∀ k, 0 < k → Dot.new d k ∈ s

theorem full_congr {s t : Set Dot} {d : DeviceId}
    (h : ∀ k, 0 < k → (Dot.new d k ∈ s ↔ Dot.new d k ∈ t)) : Full s d ↔ Full t d :=
  forall_congr' fun k => imp_congr_right (h k)

/-- A dev build panics when the merge completes a device's prefix up to
`u64::MAX` that neither side had complete. -/
theorem merge_eq_none {p : Profile} {a b : DotContext} :
    a.merge p b = none ↔ p = .dev ∧
      ∃ d, Full (a.observed ∪ b.observed) d ∧ a.run d ≠ maxU64 ∧ b.run d ≠ maxU64 := by
  rw [merge_eq, foldlM_compactDevice_eq_none (BTreeSet.toList_nodup _)]
  refine and_congr_right fun _ => exists_congr fun d => ?_
  have hmax : (joined a b).run d ≠ maxU64 ↔ a.run d ≠ maxU64 ∧ b.run d ≠ maxU64 := by
    rw [run_joined]
    rcases le_total (a.run d) (b.run d) with h | h
    · rw [max_eq_right h]
      exact ⟨fun hb => ⟨fun ha => hb (le_antisymm (le_maxU64 _) (ha ▸ h)), hb⟩, And.right⟩
    · rw [max_eq_left h]
      exact ⟨fun ha => ⟨ha, fun hb => ha (le_antisymm (le_maxU64 _) (hb ▸ h))⟩, And.left⟩
  rw [← observed_joined, ← hmax]
  constructor
  · rintro ⟨hd, hall⟩
    obtain ⟨x, hx, rfl⟩ := List.mem_map.mp (BTreeSet.mem_ofList.mp (BTreeSet.mem_toList.mp hd))
    rw [BTreeSet.mem_toList] at hx
    refine ⟨fun k hk => mem_observed.mpr ⟨hk, ?_⟩, fun hr => ?_⟩
    · exact (le_or_gt k _).imp id (hall k)
    · exact (mem_joined.mp hx).2 (covered_of_run_max hr)
  · rintro ⟨hfull, hr⟩
    have hall : ∀ k, (joined a b).run d < k → Dot.new d k ∈ (joined a b).dc := fun k hk =>
      (mem_observed.mp (hfull k (lt_of_le_of_lt UInt64.zero_le hk))).2.resolve_left
        (not_le.mpr hk)
    refine ⟨?_, hall⟩
    have hm := hall maxU64 (lt_of_le_of_ne (le_maxU64 _) hr)
    exact BTreeSet.mem_toList.mpr (BTreeSet.mem_ofList.mpr
      (List.mem_map.mpr ⟨_, BTreeSet.mem_toList.mpr hm, rfl⟩))

/-- A release build merges any two contexts. -/
theorem merge_release (a b : DotContext) : ∃ c, a.merge .release b = some c :=
  Option.ne_none_iff_exists'.mp fun h => Profile.noConfusion (merge_eq_none.mp h).1

theorem Canonical.cloudsFit {a b : DotContext} (ha : a.Canonical) (hb : b.Canonical) (p : Profile) :
    CloudsFit p a b := fun _ _ =>
  ⟨0, fun h => lt_irrefl _ (ha.dc_pos h), fun h => lt_irrefl _ (hb.dc_pos h)⟩

/-- A compact context without counter `0` is canonical. -/
theorem Compact.canonical {c : DotContext} (hc : c.Compact)
    (hkey : ∀ d, (c.cc.get? d).isSome = true → Dot.new d 1 ∈ c.observed)
    (hzero : ∀ d, Dot.new d 0 ∉ c.dc) : c.Canonical := by
  have hpos : ∀ x ∈ c.dc, 0 < x.counter := fun x hx =>
    lt_of_le_of_ne UInt64.zero_le fun h0 => hzero x.device (by rw [h0]; exact hx)
  refine ⟨fun d n hn => ?_, fun x hx => hc x hx (hpos x hx)⟩
  have hrun : c.run d = n := by rw [run, hn]; rfl
  rcases (mem_observed.mp (hkey d (by rw [hn]; rfl))).2 with h | h
  · change (1 : UInt64) ≤ c.run d at h
    exact pos_iff_one_le.mpr (hrun ▸ h)
  · have hg := hc _ h zero_lt_one_u64
    change (c.run d).toNat + 2 ≤ 1 at hg
    omega

theorem Canonical.merge {p : Profile} {a b c : DotContext} (ha : a.Canonical) (hb : b.Canonical)
    (h : a.merge p b = some c) : c.Canonical ∧ c.observed = a.observed ∪ b.observed := by
  have hs := merge_spec (ha.cloudsFit hb p) h
  refine ⟨hs.compact.canonical (fun d hd => ?_) fun d hd => ?_, hs.observed⟩
  · have h1 : (0 : UInt64) < (Dot.new d 1).counter := zero_lt_one_u64
    rw [hs.observed]
    rcases (hs.isSome d).mp hd with (h | h) | h | h
    · exact .inl ((ha.isSome_iff d).mp h)
    · exact .inr ((hb.isSome_iff d).mp h)
    · exact .inl (mem_observed.mpr ⟨h1, .inr h⟩)
    · exact .inr (mem_observed.mpr ⟨h1, .inr h⟩)
  · rcases ((hs.zero d).mp hd).1 with h | h
    · exact lt_irrefl _ (ha.dc_pos h)
    · exact lt_irrefl _ (hb.dc_pos h)

/-- A compact context has observed all of a device when its prefix has. -/
theorem Compact.full_iff {c : DotContext} (hc : c.Compact) (d : DeviceId) :
    Full c.observed d ↔ c.run d = maxU64 := by
  refine ⟨fun h => le_antisymm (le_maxU64 _) (not_lt.mp fun hlt => ?_), fun h k hk => ?_⟩
  · rw [UInt64.lt_iff_toNat_lt, maxU64_toNat] at hlt
    have hk : (c.run d + 1).toNat = (c.run d).toNat + 1 := toNat_add_one (by omega)
    have hpos : 0 < c.run d + 1 := pos_add_one (by omega)
    rcases (mem_observed.mp (h _ hpos)).2 with hle | hmem
    · rw [UInt64.le_iff_toNat_le] at hle
      change (c.run d + 1).toNat ≤ (c.run d).toNat at hle
      omega
    · have hg := hc _ hmem hpos
      change (c.run d).toNat + 2 ≤ (c.run d + 1).toNat at hg
      omega
  · exact mem_observed.mpr ⟨hk, .inl (h ▸ le_maxU64 k)⟩

/-- The union of two sets completes no device that neither had complete. -/
def NoCompletion (s t : Set Dot) : Prop := ∀ d, Full (s ∪ t) d → Full s d ∨ Full t d

/-- Canonical contexts merge unless a dev build completes a device. -/
theorem Canonical.merge_isSome_iff {p : Profile} {a b : DotContext} (ha : a.Canonical)
    (hb : b.Canonical) :
    (∃ c, a.merge p b = some c) ↔ p = .release ∨ NoCompletion a.observed b.observed := by
  rw [← Option.isSome_iff_exists, ← not_iff_not, Option.not_isSome_iff_eq_none, merge_eq_none]
  have hp : p = .dev ↔ ¬ p = .release := by cases p <;> simp
  rw [hp, not_or, NoCompletion]
  refine and_congr_right fun _ => ?_
  push Not
  refine exists_congr fun d => and_congr_right fun _ => ?_
  rw [ha.compact.full_iff d, hb.compact.full_iff d]

/-! ## Insert -/

/-- The context `insert` compacts. -/
def inserted (c : DotContext) (x : Dot) : DotContext := { c with dc := c.dc.insert x }

theorem insert_eq (p : Profile) (c : DotContext) (x : Dot) :
    c.insert p x = if c.contains x then some c else (inserted c x).compactDevice p x.device := rfl

theorem observed_inserted {c : DotContext} {x y : Dot} :
    y ∈ (inserted c x).observed ↔ y ∈ c.observed ∨ y = x ∧ 0 < x.counter := by
  rw [mem_observed, mem_observed]
  show _ ∧ (y.counter ≤ c.run y.device ∨ y ∈ c.dc.insert x) ↔ _
  rw [BTreeSet.mem_insert]
  constructor
  · rintro ⟨hy, h | rfl | h⟩
    · exact .inl ⟨hy, .inl h⟩
    · exact .inr ⟨rfl, hy⟩
    · exact .inl ⟨hy, .inr h⟩
  · rintro (⟨hy, h | h⟩ | ⟨rfl, hy⟩)
    · exact ⟨hy, .inl h⟩
    · exact ⟨hy, .inr (.inr h)⟩
    · exact ⟨hy, .inr (.inl rfl)⟩

/-- The cloud of the context, with the new dot, misses some counter of its device. -/
def InsertFits (p : Profile) (c : DotContext) (x : Dot) : Prop :=
  p = .release → ∃ k, (k = 0 ∨ c.run x.device < k) ∧ Dot.new x.device k ∉ c.dc.insert x

/-- What `insert` returns on a compact context. -/
structure InsertSpec (c : DotContext) (x : Dot) (c' : DotContext) : Prop where
  observed : ∀ y, y ∈ c'.observed ↔ y ∈ c.observed ∨ y = x ∧ 0 < x.counter
  compact : c'.Compact
  isSome : ∀ d, (c'.cc.get? d).isSome = true ↔ (c.cc.get? d).isSome = true ∨ x = Dot.new d 1
  zero : ∀ d, Dot.new d 0 ∈ c'.dc ↔
    Dot.new d 0 ∈ c.dc ∨ x = Dot.new d 0 ∧ ¬ (c.cc.get? d).isSome = true

/-- The first counter of a device in a compact context lies in its prefix. -/
theorem Compact.contains_one_iff {c : DotContext} (hc : c.Compact) {d : DeviceId}
    (h : c.contains (Dot.new d 1) = true) : (c.cc.get? d).isSome = true := by
  rcases (contains_iff_of_pos zero_lt_one_u64).mp h with h | h
  · cases hg : c.cc.get? d with
    | none =>
      change (1 : UInt64) ≤ c.run d at h
      rw [run, hg] at h
      exact absurd h (by decide)
    | some n => rfl
  · exact absurd h (hc.one_not_mem d)

/-- Inserting a dot already there changes nothing. -/
theorem insertSpec_of_contains {c : DotContext} {x : Dot} (hc : c.Compact)
    (hx : c.contains x = true) : InsertSpec c x c := by
  refine ⟨fun y => ?_, hc, fun d => ?_, fun d => ?_⟩
  · exact (or_iff_left_of_imp fun ⟨hy, hpos⟩ => ⟨hy ▸ hpos, hy ▸ hx⟩).symm
  · refine (or_iff_left_of_imp fun he => ?_).symm
    subst he
    exact hc.contains_one_iff hx
  · refine (or_iff_left_of_imp fun ⟨he, hn⟩ => ?_).symm
    subst he
    exact ((contains_zero_iff d).mp hx).resolve_left hn

section NewDot

variable {c c' : DotContext} {x : Dot} {m : UInt64}
  (hm : CompactedAt (inserted c x) x.device c' m)
  (hsame : ∀ d, d ≠ x.device → SameAt (inserted c x) d c')
include hm hsame

/-- The new dot closes the gap below it, or leaves one. -/
theorem compact_of_inserted (hc : c.Compact) (hx : ¬ c.contains x = true) : c'.Compact := by
  intro y hy hpos
  by_cases hd : y.device = x.device
  · have hy' : Dot.new x.device y.counter ∈ c'.dc := by rw [← hd]; exact hy
    rw [hd]
    refine hm.gap (fun k hk hk0 => ?_) hy' hpos
    rcases BTreeSet.mem_insert.mp hk with he | hk
    · obtain rfl : k = x.counter := congrArg Dot.counter he
      exact not_le.mp fun hle => hx ((contains_iff_of_pos hk0).mpr (.inl hle))
    · have hg := hc _ hk hk0
      change (c.run x.device).toNat + 2 ≤ k.toNat at hg
      show c.run x.device < k
      rw [UInt64.lt_iff_toNat_lt]
      omega
  · have hs := hsame _ hd
    rw [hs.run]
    rcases BTreeSet.mem_insert.mp ((hs.mem y.counter).mp hy) with he | hy
    · exact absurd (congrArg Dot.device he) hd
    · exact hc _ hy hpos

/-- A device has an entry after the insert of its counter `1`. -/
theorem isSome_of_inserted (hc : c.Compact) (d : DeviceId) :
    (c'.cc.get? d).isSome = true ↔ (c.cc.get? d).isSome = true ∨ x = Dot.new d 1 := by
  by_cases hd : d = x.device
  · subst hd
    rw [hm.isSome]
    show _ ∨ Dot.new x.device 1 ∈ c.dc.insert x ↔ _
    rw [BTreeSet.mem_insert, or_iff_left (hc.one_not_mem x.device),
      eq_comm (a := Dot.new x.device 1)]
    rfl
  · rw [(hsame d hd).get?]
    exact (or_iff_left fun he => hd (congrArg Dot.device he).symm).symm

/-- Counter `0` stays in the cloud: no prefix absorbs it. -/
theorem zero_mem_of_inserted (hx : ¬ c.contains x = true) (d : DeviceId) :
    Dot.new d 0 ∈ c'.dc ↔ Dot.new d 0 ∈ c.dc ∨ x = Dot.new d 0 ∧ ¬ (c.cc.get? d).isSome = true := by
  have hmem : Dot.new d 0 ∈ c'.dc ↔ Dot.new d 0 ∈ c.dc.insert x := by
    by_cases hd : d = x.device
    · subst hd
      rw [hm.mem]
      exact and_iff_left fun hr => not_lt_of_ge UInt64.zero_le hr.1
    · exact (hsame d hd).mem 0
  rw [hmem, BTreeSet.mem_insert, or_comm, eq_comm]
  refine or_congr_right ((and_iff_left_of_imp fun he hs => hx ?_).symm)
  rw [he]
  exact (contains_zero_iff d).mpr (.inl hs)

end NewDot

theorem insert_spec {p : Profile} {c c' : DotContext} {x : Dot} (hc : c.Compact)
    (hfit : InsertFits p c x) (h : c.insert p x = some c') : InsertSpec c x c' := by
  rw [insert_eq] at h
  split at h
  · next hx => exact Option.some.inj h ▸ insertSpec_of_contains hc hx
  · next hx =>
    obtain ⟨⟨m, hm⟩, hsame⟩ := compactDevice_spec (c := inserted c x) hfit h
    have hobs : ∀ d k, Dot.new d k ∈ c'.observed ↔ Dot.new d k ∈ (inserted c x).observed := by
      intro d k
      by_cases hd : d = x.device
      · exact hd ▸ hm.observed k
      · exact (hsame d hd).observed k
    exact ⟨fun y => (hobs y.device y.counter).trans observed_inserted,
      compact_of_inserted hm hsame hc hx, isSome_of_inserted hm hsame hc,
      zero_mem_of_inserted hm hsame hx⟩

/-- What a context holds after an insert: the new dot and, with the first counter
of a device, the counter `0` its prefix covers. -/
theorem InsertSpec.contains_iff {c c' : DotContext} {x y : Dot} (h : InsertSpec c x c') :
    c'.contains y = true ↔
      c.contains y = true ∨ y = x ∨ y.counter = 0 ∧ x = Dot.new y.device 1 := by
  by_cases hy : 0 < y.counter
  · have hc : c.contains y = true ↔ y ∈ c.observed := ⟨mem_observed_of_contains hy, contains_of_mem⟩
    have hc' : c'.contains y = true ↔ y ∈ c'.observed :=
      ⟨mem_observed_of_contains hy, contains_of_mem⟩
    rw [hc, hc', h.observed, or_iff_left fun h0 : y.counter = 0 ∧ _ => hy.ne' h0.1]
    exact or_congr_right ⟨And.left, fun he => ⟨he, he ▸ hy⟩⟩
  · have hy0 := eq_zero_of_not_pos hy
    obtain ⟨d, k⟩ := y
    obtain rfl : k = 0 := hy0
    change c'.contains (Dot.new d 0) = true ↔
      c.contains (Dot.new d 0) = true ∨ Dot.new d 0 = x ∨ (0 : UInt64) = 0 ∧ x = Dot.new d 1
    rw [contains_zero_iff, contains_zero_iff, h.isSome, h.zero, eq_comm (a := Dot.new d 0)]
    tauto

/-- A dev build panics when the dot was missing and completes its device. -/
theorem insert_eq_none {p : Profile} {c : DotContext} {x : Dot} :
    c.insert p x = none ↔
      p = .dev ∧ ¬ c.contains x = true ∧ Full (inserted c x).observed x.device := by
  rw [insert_eq]
  split
  · next hx => exact iff_of_false (by simp) fun h => h.2.1 hx
  · next hx =>
    rw [compactDevice_eq_none, and_iff_right hx]
    refine and_congr_right fun _ => ⟨fun h k hk => ?_, fun h k hk => ?_⟩
    · exact mem_observed.mpr ⟨hk, (le_or_gt k _).imp id (h k)⟩
    · exact (mem_observed.mp (h k (lt_of_le_of_lt UInt64.zero_le hk))).2.resolve_left
        (not_le.mpr hk)

/-- A release build inserts any dot. -/
theorem insert_release (c : DotContext) (x : Dot) : ∃ c', c.insert .release x = some c' :=
  Option.ne_none_iff_exists'.mp fun h => Profile.noConfusion (insert_eq_none.mp h).1

theorem insertFits_dev (c : DotContext) (x : Dot) : InsertFits .dev c x :=
  fun h => Profile.noConfusion h

theorem Canonical.insertFits {c : DotContext} (hc : c.Canonical) {x : Dot} (hx : 0 < x.counter)
    (p : Profile) : InsertFits p c x := fun _ =>
  ⟨0, .inl rfl, fun h => (BTreeSet.mem_insert.mp h).elim
    (fun he => hx.ne (congrArg Dot.counter he)) fun h => lt_irrefl _ (hc.dc_pos h)⟩

theorem Canonical.insert {p : Profile} {c c' : DotContext} {x : Dot} (hc : c.Canonical)
    (hx : 0 < x.counter) (h : c.insert p x = some c') :
    c'.Canonical ∧ c'.observed = Insert.insert x c.observed := by
  have hs := insert_spec hc.compact (hc.insertFits hx p) h
  have hobs : c'.observed = Insert.insert x c.observed := by
    ext y
    rw [hs.observed, Set.mem_insert_iff, or_comm, and_iff_left hx]
  refine ⟨hs.compact.canonical (fun d hd => ?_) fun d hd => ?_, hobs⟩
  · rw [hobs]
    rcases (hs.isSome d).mp hd with hk | rfl
    · exact .inr ((hc.isSome_iff d).mp hk)
    · exact .inl rfl
  · rcases (hs.zero d).mp hd with h0 | ⟨rfl, -⟩
    · exact lt_irrefl _ (hc.dc_pos h0)
    · exact lt_irrefl _ hx

/-! ## Inserting a list -/

/-- What inserting the dots of a list returns on a compact context. -/
structure InsertAllSpec (c : DotContext) (l : List Dot) (c' : DotContext) : Prop where
  observed : ∀ y, y ∈ c'.observed ↔ y ∈ c.observed ∨ y ∈ l ∧ 0 < y.counter
  compact : c'.Compact
  isSome : ∀ d, (c'.cc.get? d).isSome = true ↔ (c.cc.get? d).isSome = true ∨ Dot.new d 1 ∈ l
  zero : ∀ d, Dot.new d 0 ∈ c'.dc → Dot.new d 0 ∈ c.dc ∨ Dot.new d 0 ∈ l
  contains : ∀ y, c'.contains y = true ↔
    c.contains y = true ∨ y ∈ l ∨ y.counter = 0 ∧ Dot.new y.device 1 ∈ l

/-- Fewer than `2 ^ 64` dots miss some counter of each device. -/
theorem exists_not_mem_of_length_lt {l : List Dot} (h : l.length < 2 ^ 64) (d : DeviceId) :
    ∃ k, Dot.new d k ∉ l := by
  by_contra hall
  have hall : ∀ k, Dot.new d k ∈ l := fun k => by_contra fun hk => hall ⟨k, hk⟩
  have hinj : Function.Injective fun k : Fin (2 ^ 64) => Dot.new d (.ofFin k) := fun _ _ he =>
    congrArg (fun x : Dot => x.counter.toFin) he
  have hsub : (List.finRange (2 ^ 64)).map (fun k => Dot.new d (.ofFin k)) ⊆ l := by
    intro x hx
    obtain ⟨k, -, rfl⟩ := List.mem_map.mp hx
    exact hall _
  have hnd : ((List.finRange (2 ^ 64)).map fun k => Dot.new d (.ofFin k)).Nodup :=
    (List.nodup_finRange _).map hinj
  have hle := (List.subperm_of_subset hnd hsub).length_le
  rw [List.length_map, List.length_finRange] at hle
  exact absurd h (not_lt.mpr hle)

/-- The context and the list together miss some dot of each device. -/
def Room (p : Profile) (c : DotContext) (l : List Dot) : Prop :=
  p = .release → ∀ d, ∃ k, Dot.new d k ∉ c.observed ∧ Dot.new d k ∉ c.dc ∧ Dot.new d k ∉ l

theorem room_dev (c : DotContext) (l : List Dot) : Room .dev c l := fun h => Profile.noConfusion h

theorem Room.insertFits {p : Profile} {c : DotContext} {x : Dot} {l : List Dot}
    (h : Room p c (x :: l)) : InsertFits p c x := by
  intro hp
  obtain ⟨k, hobs, hdc, hl⟩ := h hp x.device
  have hx : Dot.new x.device k ∉ c.dc.insert x := fun hm =>
    (BTreeSet.mem_insert.mp hm).elim (fun he => hl (he ▸ List.mem_cons_self)) hdc
  refine ⟨k, ?_, hx⟩
  by_contra hn
  obtain ⟨h0, hle⟩ := not_or.mp hn
  exact hobs (mem_observed.mpr
    ⟨lt_of_le_of_ne UInt64.zero_le (Ne.symm h0), .inl (not_lt.mp hle)⟩)

theorem Room.tail {p : Profile} {c c' : DotContext} {x : Dot} {l : List Dot}
    (h : Room p c (x :: l)) (hs : InsertSpec c x c') : Room p c' l := by
  intro hp d
  obtain ⟨k, hobs, hdc, hl⟩ := h hp d
  obtain ⟨hx, hl⟩ := not_or.mp (fun hm => hl (List.mem_cons.mpr hm))
  have hobs' : Dot.new d k ∉ c'.observed := fun hm =>
    ((hs.observed _).mp hm).elim hobs fun h => hx h.1
  refine ⟨k, hobs', fun hm => ?_, hl⟩
  by_cases hk : 0 < k
  · exact hobs' (mem_observed.mpr ⟨hk, .inr hm⟩)
  · obtain rfl := eq_zero_of_not_pos hk
    exact ((hs.zero d).mp hm).elim hdc fun h => hx h.1.symm

theorem foldlM_insert_spec {p : Profile} : ∀ {l : List Dot} {c c' : DotContext}, c.Compact →
    Room p c l → l.foldlM (DotContext.insert p) c = some c' → InsertAllSpec c l c' := by
  intro l
  induction l with
  | nil =>
    intro c c' hc _ h
    obtain rfl := Option.some.inj h
    exact ⟨by simp, hc, by simp, fun _ => .inl, by simp⟩
  | cons x l ih =>
    intro c c' hc hroom h
    rw [List.foldlM_cons, Option.bind_eq_bind, Option.bind_eq_some_iff] at h
    obtain ⟨c₁, h₁, h⟩ := h
    have hs := insert_spec hc hroom.insertFits h₁
    have hi := ih hs.compact (hroom.tail hs) h
    refine ⟨fun y => ?_, hi.compact, fun d => ?_, fun d hd => ?_, fun y => ?_⟩
    · have hy : y = x ∧ 0 < x.counter ↔ y = x ∧ 0 < y.counter :=
        and_congr_right fun he => by rw [he]
      rw [hi.observed, hs.observed, hy, List.mem_cons]
      tauto
    · rw [hi.isSome, hs.isSome, List.mem_cons, eq_comm (a := x)]
      tauto
    · rcases hi.zero d hd with h0 | h0
      · refine ((hs.zero d).mp h0).imp id ?_
        rintro ⟨rfl, -⟩
        exact List.mem_cons_self
      · exact .inr (List.mem_cons_of_mem _ h0)
    · rw [hi.contains, hs.contains_iff, List.mem_cons, List.mem_cons, eq_comm (a := x)]
      tauto

/-- A release build inserts any list. -/
theorem foldlM_insert_release : ∀ (l : List Dot) (c : DotContext),
    ∃ c', l.foldlM (DotContext.insert .release) c = some c' := by
  intro l
  induction l with
  | nil => exact fun c => ⟨c, rfl⟩
  | cons x l ih =>
    intro c
    obtain ⟨c₁, h₁⟩ := insert_release c x
    rw [List.foldlM_cons, h₁]
    exact ih c₁

/-- An insert that returns in a dev build completes no device. -/
theorem full_insert_iff {c c' : DotContext} {x : Dot} {d : DeviceId} (hc : c.Compact)
    (h : c.insert .dev x = some c') : Full c'.observed d ↔ Full c.observed d := by
  have hs := insert_spec hc (insertFits_dev c x) h
  refine ⟨fun hf => ?_, fun hf k hk => (hs.observed _).mpr (.inl (hf k hk))⟩
  by_contra hn
  obtain ⟨k, hk, hkn⟩ : ∃ k, 0 < k ∧ Dot.new d k ∉ c.observed := by
    unfold Full at hn
    push Not at hn
    exact hn
  obtain ⟨rfl, -⟩ := ((hs.observed _).mp (hf k hk)).resolve_left hkn
  have hnone : c.insert .dev (Dot.new d k) = none := by
    refine insert_eq_none.mpr ⟨rfl, fun hx => hkn (mem_observed_of_contains hk hx), ?_⟩
    exact fun k' hk' => observed_inserted.mpr ((hs.observed _).mp (hf k' hk'))
  rw [h] at hnone
  cases hnone

/-- A dev build panics on the way when the list completes a device. -/
theorem foldlM_insert_eq_none : ∀ {l : List Dot} {c : DotContext}, c.Compact →
    (l.foldlM (DotContext.insert .dev) c = none ↔
      ∃ d, ¬ Full c.observed d ∧ Full (c.observed ∪ {y | y ∈ l}) d) := by
  intro l
  induction l with
  | nil =>
    intro c _
    refine iff_of_false (Option.some_ne_none c) ?_
    rintro ⟨d, hn, hf⟩
    exact hn fun k hk => (hf k hk).elim id fun h => absurd h List.not_mem_nil
  | cons x l ih =>
    intro c hc
    rw [List.foldlM_cons, Option.bind_eq_bind]
    cases h₁ : c.insert .dev x with
    | none =>
      obtain ⟨-, hx, hf⟩ := insert_eq_none.mp h₁
      refine iff_of_true rfl ⟨x.device, fun hfull => hx ?_, fun k hk => ?_⟩
      · have hrun := (hc.full_iff x.device).mp hfull
        exact contains_iff.mpr (.inl (covered_of_run_max hrun))
      · refine (observed_inserted.mp (hf k hk)).imp id ?_
        rintro ⟨he, -⟩
        exact he ▸ List.mem_cons_self
    | some c₁ =>
      have hs := insert_spec hc (insertFits_dev c x) h₁
      rw [Option.bind_some, ih hs.compact]
      refine exists_congr fun d => and_congr (not_congr (full_insert_iff hc h₁)) ?_
      refine full_congr fun k hk => ?_
      rw [Set.mem_union, Set.mem_union, hs.observed, Set.mem_ofPred_eq, Set.mem_ofPred_eq,
        List.mem_cons]
      constructor
      · rintro ((h | ⟨h, -⟩) | h)
        · exact .inl h
        · exact .inr (.inl h)
        · exact .inr (.inr h)
      · rintro (h | h | h)
        · exact .inl (.inl h)
        · exact .inl (.inr ⟨h, h ▸ hk⟩)
        · exact .inr h

/-! ## The next dot -/

/-- The largest counter observed of a device. -/
def top (c : DotContext) (d : DeviceId) : UInt64 := max (c.run d) (c.maxCloud d)

theorem maxCloud_eq_zero_or_mem (c : DotContext) (d : DeviceId) :
    c.maxCloud d = 0 ∨ Dot.new d (c.maxCloud d) ∈ c.dc := by
  unfold maxCloud
  cases h : ((c.dc.toList.filter fun x => x.device = d).map Dot.counter).max? with
  | none => exact .inl rfl
  | some k =>
    obtain ⟨x, hx, rfl⟩ := List.mem_map.mp (List.max?_mem h)
    obtain ⟨hmem, hd⟩ := List.mem_filter.mp hx
    obtain rfl := of_decide_eq_true hd
    exact .inr (BTreeSet.mem_toList.mp hmem)

theorem le_maxCloud {c : DotContext} {d : DeviceId} {k : UInt64} (h : Dot.new d k ∈ c.dc) :
    k ≤ c.maxCloud d := by
  have hmem : k ∈ (c.dc.toList.filter fun x => x.device = d).map Dot.counter :=
    List.mem_map.mpr ⟨Dot.new d k,
      List.mem_filter.mpr ⟨BTreeSet.mem_toList.mpr h, decide_eq_true rfl⟩, rfl⟩
  unfold maxCloud
  cases hm : ((c.dc.toList.filter fun x => x.device = d).map Dot.counter).max? with
  | none => rw [List.max?_eq_none_iff.mp hm] at hmem; exact absurd hmem List.not_mem_nil
  | some m => exact (List.max?_eq_some_iff.mp hm).2 k hmem

theorem le_top {c : DotContext} {d : DeviceId} {k : UInt64} (h : Dot.new d k ∈ c.observed) :
    k ≤ c.top d :=
  (mem_observed.mp h).2.elim (fun hk => hk.trans (le_max_left _ _))
    fun hk => (le_maxCloud hk).trans (le_max_right _ _)

theorem top_eq_zero_or_mem (c : DotContext) (d : DeviceId) :
    c.top d = 0 ∨ Dot.new d (c.top d) ∈ c.observed := by
  by_cases h0 : c.top d = 0
  · exact .inl h0
  · have hpos : 0 < c.top d := lt_of_le_of_ne UInt64.zero_le (Ne.symm h0)
    refine .inr (mem_observed.mpr ⟨hpos, ?_⟩)
    rcases max_choice (c.run d) (c.maxCloud d) with hm | hm
    · exact .inl (le_of_eq hm)
    · have hmem := (c.maxCloud_eq_zero_or_mem d).resolve_left fun he => h0 (hm.trans he)
      have : Dot.new d (c.top d) = Dot.new d (c.maxCloud d) := congrArg _ hm
      exact .inr (this ▸ hmem)

theorem top_le_top {c c' : DotContext} (h : c.observed ⊆ c'.observed) (d : DeviceId) :
    c.top d ≤ c'.top d := by
  rcases c.top_eq_zero_or_mem d with h0 | hm
  · rw [h0]
    exact UInt64.zero_le
  · exact le_top (h hm)

theorem nextDot_eq_some {p : Profile} {c c' : DotContext} {d : DeviceId} {x : Dot} :
    c.nextDot p d = some (c', x) ↔
      x.device = d ∧ p.add (c.top d) 1 = some x.counter ∧ c.insert p x = some c' := by
  simp only [nextDot, Option.bind_eq_bind, Option.bind_eq_some_iff, Option.some.injEq,
    Prod.mk.injEq]
  constructor
  · rintro ⟨k, hk, c₁, hc₁, rfl, rfl⟩
    exact ⟨rfl, hk, hc₁⟩
  · rintro ⟨rfl, hk, hc⟩
    exact ⟨x.counter, hk, c', hc, rfl, rfl⟩

/-- Below the limit the next dot is new to the context. -/
theorem not_contains_of_top_lt {c : DotContext} {x : Dot} (h : c.top x.device < x.counter) :
    ¬ c.contains x = true := fun hc =>
  not_lt_of_ge (le_top (mem_observed_of_contains (lt_of_le_of_lt UInt64.zero_le h) hc)) h

end RealmGuard.DotContext
