import Mathlib.Data.Set.Insert
import Mathlib.Data.Set.Lattice
import RealmGuard.Crdt.Compact

/-!
# Contexts as sets of dots

`observed c` is the set of dots a context stands for: the dots with a counter
from 1 that it contains. On any two contexts `merge` returns their union
(`MergeSpec`), and on a compact context `insert` adds one dot; both leave a
compact context, whose clouds never touch a prefix. `Canonical` contexts, the
ones the honest operations build, are determined by what they have observed
(`Canonical.ext`).

Counter `0` is the label of no add, but a decoded context may hold it. What
`merge` does to it is in `MergeSpec.zero`: it survives only while the device
has no entry in `cc`.
-/

namespace RealmGuard.DotContext

open Lib

/-- The dots a context has observed. -/
def observed (c : DotContext) : Set Dot := {x | 0 < x.counter ∧ c.contains x = true}

theorem contains_iff {c : DotContext} {x : Dot} :
    c.contains x = true ↔ covered c.cc x = true ∨ x ∈ c.dc := by
  simp [contains]

theorem covered_iff {cc : BTreeMap DeviceId UInt64} {x : Dot} :
    covered cc x = true ↔ ∃ n, cc.get? x.device = some n ∧ x.counter ≤ n := by
  simp [covered, Option.any_eq_true]

theorem covered_iff_le_run {c : DotContext} {x : Dot} (hx : 0 < x.counter) :
    covered c.cc x = true ↔ x.counter ≤ c.run x.device := by
  rw [covered_iff, run]
  cases h : c.cc.get? x.device with
  | none => simpa using hx.ne'
  | some n => simp

/-- A device whose prefix is complete has all its counters covered. -/
theorem covered_of_run_max {c : DotContext} {x : Dot} (h : c.run x.device = maxU64) :
    covered c.cc x = true := by
  refine covered_iff.mpr ⟨maxU64, ?_, le_maxU64 _⟩
  rw [run] at h
  cases hg : c.cc.get? x.device with
  | none =>
    rw [hg] at h
    exact absurd h (by decide)
  | some n =>
    rw [hg] at h
    exact congrArg some h

theorem contains_iff_of_pos {c : DotContext} {x : Dot} (hx : 0 < x.counter) :
    c.contains x = true ↔ x.counter ≤ c.run x.device ∨ x ∈ c.dc := by
  rw [contains_iff, covered_iff_le_run hx]

theorem mem_observed {c : DotContext} {x : Dot} :
    x ∈ c.observed ↔ 0 < x.counter ∧ (x.counter ≤ c.run x.device ∨ x ∈ c.dc) :=
  and_congr_right fun hx => contains_iff_of_pos hx

theorem contains_of_mem {c : DotContext} {x : Dot} (h : x ∈ c.observed) : c.contains x = true := h.2

theorem mem_observed_of_contains {c : DotContext} {x : Dot} (hx : 0 < x.counter)
    (h : c.contains x = true) : x ∈ c.observed := ⟨hx, h⟩

/-- No dot of the cloud touches a prefix. -/
def Compact (c : DotContext) : Prop :=
  ∀ x ∈ c.dc, 0 < x.counter → (c.run x.device).toNat + 2 ≤ x.counter.toNat

/-- The representation the operations keep: no zero entry in `cc`, and every
dot of the cloud beyond a gap. -/
structure Canonical (c : DotContext) : Prop where
  pos : ∀ d n, c.cc.get? d = some n → 0 < n
  gap : ∀ x ∈ c.dc, (c.run x.device).toNat + 2 ≤ x.counter.toNat

theorem Canonical.compact {c : DotContext} (h : c.Canonical) : c.Compact := fun x hx _ => h.gap x hx

theorem Canonical.dc_pos {c : DotContext} (h : c.Canonical) {x : Dot} (hx : x ∈ c.dc) :
    0 < x.counter := by
  have hg := h.gap x hx
  rw [pos_iff_toNat]
  omega

theorem canonical_new : new.Canonical where
  pos _ _ h := nomatch h
  gap x hx := (BTreeSet.not_mem_empty x hx).elim

@[simp] theorem observed_new : new.observed = ∅ := by
  ext x
  rw [mem_observed]
  refine iff_of_false ?_ (Set.notMem_empty x)
  rintro ⟨hx, h | h⟩
  · exact not_lt_of_ge h hx
  · exact BTreeSet.not_mem_empty x h

/-- Over the same device the prefix of a compact context is fixed by the dots observed. -/
theorem run_le_of_observed {c c' : DotContext} (hc' : c'.Compact) {d : DeviceId}
    (h : ∀ k, Dot.new d k ∈ c.observed → Dot.new d k ∈ c'.observed) : c.run d ≤ c'.run d := by
  by_contra hlt
  rw [not_le, UInt64.lt_iff_toNat_lt] at hlt
  have := (c.run d).toNat_lt
  have hk : (c'.run d + 1).toNat = (c'.run d).toNat + 1 := toNat_add_one (by omega)
  have hmem : Dot.new d (c'.run d + 1) ∈ c.observed := by
    refine mem_observed.mpr ⟨pos_add_one (by omega), .inl ?_⟩
    · rw [UInt64.le_iff_toNat_le]
      show (c'.run d + 1).toNat ≤ (c.run d).toNat
      omega
  obtain ⟨hpos, h' | h'⟩ := mem_observed.mp (h _ hmem)
  · rw [UInt64.le_iff_toNat_le] at h'
    change (c'.run d + 1).toNat ≤ (c'.run d).toNat at h'
    omega
  · have hg := hc' _ h' hpos
    change (c'.run d).toNat + 2 ≤ (c'.run d + 1).toNat at hg
    omega

theorem run_eq_of_observed {c c' : DotContext} (hc : c.Compact) (hc' : c'.Compact)
    (h : c.observed = c'.observed) (d : DeviceId) : c.run d = c'.run d :=
  le_antisymm (run_le_of_observed hc' fun _ hk => h ▸ hk)
    (run_le_of_observed hc fun _ hk => h ▸ hk)

/-- The cloud of a compact context is the observed dots beyond the prefix. -/
theorem Compact.mem_dc {c : DotContext} (hc : c.Compact) {x : Dot} (hx : 0 < x.counter) :
    x ∈ c.dc ↔ x ∈ c.observed ∧ ¬ x.counter ≤ c.run x.device := by
  rw [mem_observed]
  refine ⟨fun h => ⟨⟨hx, .inr h⟩, fun hle => ?_⟩, fun ⟨⟨_, h⟩, hn⟩ => h.resolve_left hn⟩
  have hg := hc x h hx
  rw [UInt64.le_iff_toNat_le] at hle
  omega

/-- Compact contexts with the same observed dots, entries of `cc` and dots of
counter `0` are equal. -/
theorem Compact.ext {c c' : DotContext} (hc : c.Compact) (hc' : c'.Compact)
    (h : c.observed = c'.observed)
    (hkey : ∀ d, (c.cc.get? d).isSome = true ↔ (c'.cc.get? d).isSome = true)
    (hzero : ∀ d, Dot.new d 0 ∈ c.dc ↔ Dot.new d 0 ∈ c'.dc) : c = c' := by
  have hrun := run_eq_of_observed hc hc' h
  obtain ⟨cc, dc⟩ := c
  obtain ⟨cc', dc'⟩ := c'
  congr
  · refine BTreeMap.ext_get? fun d => ?_
    have hr := hrun d
    have hk := hkey d
    simp only [run] at hr hk
    cases h1 : cc.get? d <;> cases h2 : cc'.get? d <;> simp_all
  · refine BTreeSet.ext fun x => ?_
    by_cases hx : 0 < x.counter
    · have h1 := hc.mem_dc hx
      have h2 := hc'.mem_dc hx
      rw [h1, h2, h, hrun]
    · rw [Dot.eq_new_zero hx]
      exact hzero x.device

theorem Canonical.isSome_iff {c : DotContext} (hc : c.Canonical) (d : DeviceId) :
    (c.cc.get? d).isSome = true ↔ Dot.new d 1 ∈ c.observed := by
  have h1 : 0 < (Dot.new d 1).counter := zero_lt_one_u64
  rw [mem_observed]
  constructor
  · intro h
    obtain ⟨n, hn⟩ := Option.isSome_iff_exists.mp h
    refine ⟨h1, .inl ?_⟩
    show (1 : UInt64) ≤ c.run d
    rw [run, hn, Option.getD_some]
    exact pos_iff_one_le.mp (hc.pos d n hn)
  · rintro ⟨-, h | h⟩
    · cases hg : c.cc.get? d with
      | none =>
        change (1 : UInt64) ≤ c.run d at h
        rw [run, hg] at h
        exact absurd h (by decide)
      | some n => rfl
    · have hg := hc.gap _ h
      change (c.run d).toNat + 2 ≤ 1 at hg
      omega

/-- Counter `0`, the label of no add, counts as contained along with counter `1`. -/
theorem Canonical.contains_zero_iff {c : DotContext} (hc : c.Canonical) (d : DeviceId) :
    c.contains (Dot.new d 0) = true ↔ Dot.new d 1 ∈ c.observed := by
  rw [← hc.isSome_iff, contains_iff, covered_iff, Option.isSome_iff_exists,
    or_iff_left fun h : Dot.new d 0 ∈ c.dc => lt_irrefl _ (hc.dc_pos h)]
  exact exists_congr fun n => and_iff_left UInt64.zero_le

/-- Between canonical contexts containment follows the observed dots of the device. -/
theorem Canonical.contains_mono {c c' : DotContext} (hc : c.Canonical) (hc' : c'.Canonical)
    {x : Dot} (h : ∀ k, Dot.new x.device k ∈ c.observed → Dot.new x.device k ∈ c'.observed)
    (hx : c.contains x = true) : c'.contains x = true := by
  by_cases h0 : 0 < x.counter
  · exact contains_of_mem (h x.counter (mem_observed_of_contains h0 hx))
  · rw [Dot.eq_new_zero h0] at hx ⊢
    exact (hc'.contains_zero_iff _).mpr (h 1 ((hc.contains_zero_iff _).mp hx))

/-- Canonical contexts with the same observed dots are equal. -/
theorem Canonical.ext {c c' : DotContext} (hc : c.Canonical) (hc' : c'.Canonical)
    (h : c.observed = c'.observed) : c = c' := by
  refine hc.compact.ext hc'.compact h (fun d => ?_) fun d => ?_
  · rw [hc.isSome_iff, hc'.isSome_iff, h]
  · exact iff_of_false (fun hm => lt_irrefl _ (hc.dc_pos hm)) fun hm => lt_irrefl _ (hc'.dc_pos hm)

/-! ## Compaction keeps what is observed -/

section Compacted

variable {c c' : DotContext} {d : DeviceId} {m : UInt64}

theorem CompactedAt.run (h : CompactedAt c d c' m) : c'.run d = m := by
  rw [DotContext.run, h.get?]
  split
  · rfl
  · next hm =>
    have hm0 := eq_zero_of_not_pos hm
    have hle := h.le
    rw [hm0] at hle ⊢
    exact le_antisymm hle UInt64.zero_le

theorem CompactedAt.observed (h : CompactedAt c d c' m) (k : UInt64) :
    Dot.new d k ∈ c'.observed ↔ Dot.new d k ∈ c.observed := by
  rw [mem_observed, mem_observed]
  refine and_congr_right fun _ => ?_
  change k ≤ c'.run d ∨ _ ↔ k ≤ c.run d ∨ _
  rw [h.run, h.mem]
  constructor
  · rintro (hk | ⟨hk, -⟩)
    · rcases le_or_gt k (c.run d) with hle | hlt
      · exact .inl hle
      · exact .inr (h.absorbed k hlt hk)
    · exact .inr hk
  · rintro (hk | hk)
    · exact .inl (hk.trans h.le)
    · rcases le_or_gt k m with hle | hlt
      · exact .inl hle
      · exact .inr ⟨hk, fun hr => not_lt_of_ge hr.2 hlt⟩

theorem SameAt.observed (h : SameAt c d c') (k : UInt64) :
    Dot.new d k ∈ c'.observed ↔ Dot.new d k ∈ c.observed := by
  rw [mem_observed, mem_observed]
  change _ ∧ (k ≤ c'.run d ∨ _) ↔ _ ∧ (k ≤ c.run d ∨ _)
  rw [h.run, h.mem]

/-- Compaction of a device whose cloud lies beyond its prefix leaves a gap. -/
theorem CompactedAt.gap (h : CompactedAt c d c' m)
    (hbeyond : ∀ k, Dot.new d k ∈ c.dc → 0 < k → c.run d < k) {k : UInt64}
    (hk : Dot.new d k ∈ c'.dc) (hpos : 0 < k) : (c'.run d).toNat + 2 ≤ k.toNat := by
  rw [h.run]
  obtain ⟨hmem, hout⟩ := (h.mem k).mp hk
  have h1 : m < k := not_le.mp fun hle => hout ⟨hbeyond k hmem hpos, hle⟩
  have h2 : k.toNat ≠ m.toNat + 1 := fun he => h.stop k he hmem
  rw [UInt64.lt_iff_toNat_lt] at h1
  omega

/-- Compaction gives the device an entry when counter `1` was in its cloud. -/
theorem CompactedAt.isSome (h : CompactedAt c d c' m) :
    (c'.cc.get? d).isSome = true ↔ (c.cc.get? d).isSome = true ∨ Dot.new d 1 ∈ c.dc := by
  rw [h.get?]
  by_cases hm : 0 < m
  · rw [if_pos hm]
    refine iff_of_true rfl ?_
    cases hg : c.cc.get? d with
    | some n => exact .inl rfl
    | none =>
      have hr : c.run d = 0 := by rw [DotContext.run, hg]; rfl
      exact .inr (h.absorbed 1 (hr ▸ by decide) (pos_iff_one_le.mp hm))
  · rw [if_neg hm]
    have hm0 := eq_zero_of_not_pos hm
    exact (or_iff_left (h.stop 1 (by rw [hm0]; rfl))).symm

end Compacted

end RealmGuard.DotContext
