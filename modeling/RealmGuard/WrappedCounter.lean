import RealmGuard.CausalContexts
import RealmGuard.VaultRuns

/-!
# The shadow of a wrapped counter

From its `2 ^ 64`-th add on a device of a release build draws counter `0`, which
its own context takes for a dot long dead. `Shadow seen s t` says that `t` is
the set `s` without the dots of counter `0`, that a dot of counter `0` is active
in `s` only beside a complete prefix, and that what else `s` has of counter `0`
comes from devices with a dot in `seen`. A wrapped add is, in the shadow, a
removal: so operations and merges of `s` are those of `t` (`shadow_add`,
`shadow_wrapped`, `shadow_remove`, `shadow_merge`), and `t` never wraps.
-/

namespace RealmGuard.AddWinsSet

open Lib DotContext

variable {E : Type} [LinearOrder E] {s s' t t' δ η : AddWinsSet E} {e : E} {d : DeviceId}
  {seen : Set Dot}

/-- `t` is `s` without the dots of counter `0`. -/
structure Shadow (seen : Set Dot) (s t : AddWinsSet E) : Prop where
  wellFormed : t.WellFormed
  observed : s.ctx.observed = t.ctx.observed
  dots : ∀ e x, 0 < x.counter → (x ∈ s.dots e ↔ x ∈ t.dots e)
  compact : s.ctx.Compact
  isSome : ∀ d, (s.ctx.cc.get? d).isSome = true → Dot.new d 1 ∈ s.ctx.observed
  zero_dc : ∀ d, Dot.new d 0 ∈ s.ctx.dc → Dot.new d 1 ∈ seen
  zero : ∀ e d, Dot.new d 0 ∈ s.dots e → Dot.new d 1 ∈ seen ∨
    s.ctx.run d = maxU64 ∧ ∀ k, 0 < k → Dot.new d k ∉ s.dots e

theorem shadow_new : Shadow ∅ (new : AddWinsSet E) new where
  wellFormed := wellFormed_new
  observed := rfl
  dots _ _ _ := Iff.rfl
  compact := canonical_new.compact
  isSome d := (canonical_new.isSome_iff d).mp
  zero_dc _ hx := (BTreeSet.not_mem_empty _ hx).elim
  zero _ _ hx := (BTreeSet.not_mem_empty _ hx).elim

theorem Shadow.kernel (h : Shadow seen s t) : s.kernel = t.kernel := by
  refine DotKernel.ext h.observed (funext fun e => Set.ext fun x => ?_)
  rw [mem_kernel_live, mem_kernel_live]
  exact and_congr_right fun hx => h.dots e x hx

theorem Shadow.canonical (h : Shadow ∅ s t) : s.ctx.Canonical :=
  h.compact.canonical h.isSome fun d hd => h.zero_dc d hd

theorem Shadow.ctx (h : Shadow ∅ s t) : s.ctx = t.ctx :=
  h.canonical.ext h.wellFormed.canonical h.observed

theorem Shadow.zero' (h : Shadow ∅ s t) (hx : Dot.new d 0 ∈ s.dots e) :
    s.ctx.run d = maxU64 ∧ ∀ k, 0 < k → Dot.new d k ∉ s.dots e :=
  (h.zero e d hx).resolve_left (Set.notMem_empty _)

/-- A complete prefix has the first counter. -/
theorem one_mem_of_run_max {c : DotContext} (h : c.run d = maxU64) : Dot.new d 1 ∈ c.observed :=
  mem_observed.mpr ⟨zero_lt_one_u64, .inl (h ▸ le_maxU64 _)⟩

theorem Shadow.one_mem_of_toList (hs : Shadow ∅ s t) (h : Dot.new d 0 ∈ (s.dots e).toList) :
    Dot.new d 1 ∈ s.ctx.observed :=
  one_mem_of_run_max (hs.zero' (BTreeSet.mem_toList.mp h)).1

/-- At most one dot of a device is active for an element. -/
def OneDot (s : AddWinsSet E) : Prop :=
  ∀ e, ∀ x ∈ s.dots e, ∀ y ∈ s.dots e, x.device = y.device → x = y

theorem Shadow.oneDot (h : Shadow ∅ s t) (ht : OneDot t) : OneDot s := by
  intro e x hx y hy hd
  by_cases hx0 : 0 < x.counter
  · by_cases hy0 : 0 < y.counter
    · exact ht e x ((h.dots e x hx0).mp hx) y ((h.dots e y hy0).mp hy) hd
    · rw [Dot.eq_new_zero hy0, ← hd] at hy
      exact absurd hx ((h.zero' hy).2 x.counter hx0)
  · by_cases hy0 : 0 < y.counter
    · rw [Dot.eq_new_zero hx0, hd] at hx
      exact absurd hy ((h.zero' hx).2 y.counter hy0)
    · rw [Dot.eq_new_zero hx0, Dot.eq_new_zero hy0, hd]

/-! ## Merges -/

/-- A merge brings nothing back beside a complete prefix. -/
theorem not_mem_of_complete {a b c u : AddWinsSet E} (h : a.merge .release b = some c)
    (hu : u = a ∨ u = b) (hrun : u.ctx.run d = maxU64)
    (hno : ∀ k, 0 < k → Dot.new d k ∉ u.dots e) (k : UInt64) (hk : 0 < k) :
    Dot.new d k ∉ c.dots e := by
  intro hm
  obtain ⟨-, hma, hmb⟩ := (mem_dots_merge h).mp hm
  have hcov : u.ctx.contains (Dot.new d k) = true :=
    DotContext.contains_iff.mpr (.inl (covered_of_run_max hrun))
  rcases hu with rfl | rfl
  · exact hno k hk (hma.resolve_right (not_not.mpr hcov))
  · exact hno k hk (hmb.resolve_right (not_not.mpr hcov))

/-- **A merge of shadows is the shadow of the merge**, when the receiver has observed what the
message says of counter `0`. -/
theorem shadow_merge {a a' b b' c : AddWinsSet E} (ha : Shadow ∅ a a') (hb : Shadow seen b b')
    (hseen : seen ⊆ a.ctx.observed) (h : a.merge .release b = some c) :
    ∃ c', a'.merge .release b' = some c' ∧ Shadow ∅ c c' := by
  obtain ⟨c', h'⟩ := merge_release a' b'
  obtain ⟨hwf, hk'⟩ := ha.wellFormed.merge hb.wellFormed h'
  have hfit : CloudsFit .release a.ctx b.ctx := fun _ d =>
    ⟨1, ha.compact.one_not_mem d, hb.compact.one_not_mem d⟩
  have hspec := merge_spec hfit (merge_eq_some.mp h).2
  have hk : c.kernel = c'.kernel := by rw [kernel_merge hfit h, hk', ha.kernel, hb.kernel]
  have hrun : ∀ {u : AddWinsSet E} {d : DeviceId}, u = a ∨ u = b → u.ctx.run d = maxU64 →
      c.ctx.run d = maxU64 := fun hu hr => by
    refine le_antisymm (le_maxU64 _) (hr ▸ run_le_of_observed hspec.compact fun k hk => ?_)
    rw [hspec.observed]
    rcases hu with rfl | rfl
    · exact .inl hk
    · exact .inr hk
  refine ⟨c', h', hwf, congrArg DotKernel.seen hk, fun e x hx => ?_, hspec.compact,
    fun d hd => ?_, fun d hd => ?_, fun e d hd => ?_⟩
  · have hmem : x ∈ c.kernel.live e ↔ x ∈ c'.kernel.live e := by rw [hk]
    rwa [mem_kernel_live, mem_kernel_live, and_iff_right hx, and_iff_right hx] at hmem
  · rw [hspec.observed]
    rcases (hspec.isSome d).mp hd with (h1 | h1) | h1 | h1
    · exact .inl (ha.isSome d h1)
    · exact .inr (hb.isSome d h1)
    · exact absurd h1 (ha.compact.one_not_mem d)
    · exact absurd h1 (hb.compact.one_not_mem d)
  · -- a dot of counter 0 in the message's cloud is purged: the receiver knows the device
    obtain ⟨h0, hn⟩ := (hspec.zero d).mp hd
    rcases h0 with h0 | h0
    · exact ha.zero_dc d h0
    · exact absurd (.inl ((ha.canonical.isSome_iff d).mpr (hseen (hb.zero_dc d h0)))) hn
  · obtain ⟨h0, hma, -⟩ := (mem_dots_merge h).mp hd
    by_cases had : Dot.new d 0 ∈ a.dots e
    · obtain ⟨hr, hno⟩ := ha.zero' had
      exact .inr ⟨hrun (.inl rfl) hr, not_mem_of_complete h (.inl rfl) hr hno⟩
    · rcases hb.zero e d (h0.resolve_left had) with h1 | ⟨hr, hno⟩
      · have hcon := (ha.canonical.contains_zero_iff d).mpr (hseen h1)
        exact absurd hcon (hma.resolve_left had)
      · exact .inr ⟨hrun (.inr rfl) hr, not_mem_of_complete h (.inr rfl) hr hno⟩

/-! ## Operations -/

/-- What the contexts of deltas hold: the dots of a list. -/
structure Gathers (c : DotContext) (l : List Dot) : Prop where
  observed : ∀ y, y ∈ c.observed ↔ y ∈ l ∧ 0 < y.counter
  compact : c.Compact
  isSome : ∀ d, (c.cc.get? d).isSome = true → Dot.new d 1 ∈ c.observed
  zero : ∀ d, Dot.new d 0 ∈ c.dc → Dot.new d 0 ∈ l

theorem gathers_foldlM {l : List Dot} {c : DotContext} (hl : ∀ d, ∃ k, Dot.new d k ∉ l)
    (h : l.foldlM (DotContext.insert .release) .new = some c) : Gathers c l := by
  have hroom : Room .release .new l := fun _ d => by
    obtain ⟨k, hk⟩ := hl d
    exact ⟨k, by simp, BTreeSet.not_mem_empty _, hk⟩
  have hspec := foldlM_insert_spec canonical_new.compact hroom h
  have hobs : ∀ y, y ∈ c.observed ↔ y ∈ l ∧ 0 < y.counter := fun y => by
    rw [hspec.observed, observed_new, or_iff_right (Set.notMem_empty y)]
  refine ⟨hobs, hspec.compact, fun d hd => (hobs _).mpr ⟨?_, zero_lt_one_u64⟩, fun d hd => ?_⟩
  · exact ((hspec.isSome d).mp hd).resolve_left fun h => nomatch h
  · exact (hspec.zero d hd).resolve_left (BTreeSet.not_mem_empty _)

/-- With one dot a device, a new dot leaves some counter free. -/
theorem OneDot.exists_not_mem (h : OneDot s) (e : E) (x : Dot) (d : DeviceId) :
    ∃ k, Dot.new d k ∉ x :: (s.dots e).toList := by
  by_contra hall
  have hmem : ∀ k, k ≠ x.counter → Dot.new d k ∈ s.dots e := fun k hk => by
    have hk' : Dot.new d k ∈ x :: (s.dots e).toList := by_contra fun hn => hall ⟨k, hn⟩
    rcases List.mem_cons.mp hk' with he | hm
    · exact absurd (congrArg Dot.counter he) hk
    · exact BTreeSet.mem_toList.mp hm
  have htwo : ∀ k k', k ≠ x.counter → k' ≠ x.counter → k = k' := fun k k' hk hk' =>
    congrArg Dot.counter (h e _ (hmem k hk) _ (hmem k' hk') rfl)
  by_cases h1 : x.counter = 1
  · exact absurd (htwo 2 3 (by rw [h1]; decide) (by rw [h1]; decide)) (by decide)
  · by_cases h2 : x.counter = 2
    · exact absurd (htwo 1 3 (Ne.symm h1) (by rw [h2]; decide)) (by decide)
    · exact absurd (htwo 1 2 (Ne.symm h1) (Ne.symm h2)) (by decide)

/-- The context of a delta of an add: the new dot, then the superseded ones. -/
theorem add_delta_eq (h : s.add .release e d = some (s', δ)) :
    ∃ x, s.ctx.nextDot .release d = some (s'.ctx, x) ∧
      (x :: (s.dots e).toList).foldlM (DotContext.insert .release) .new = some δ.ctx ∧
      s'.entries = s.entries.insert e (BTreeSet.empty.insert x) ∧
      δ.entries = BTreeMap.empty.insert e (BTreeSet.empty.insert x) := by
  obtain ⟨x, c₀, hnext, hc₀, hall, he, hδ⟩ := add_eq_some.mp h
  refine ⟨x, hnext, ?_, he, hδ⟩
  rw [List.foldlM_cons, hc₀]
  exact hall

theorem mem_dots_insert {es : BTreeMap E (BTreeSet Dot)} {x y : Dot} {e' : E}
    (h : s'.entries = es.insert e (BTreeSet.empty.insert x)) :
    y ∈ s'.dots e' ↔ if e' = e then y = x else y ∈ (es.get? e').getD .empty := by
  rw [dots, h, BTreeMap.get?_insert]
  split
  · rw [Option.getD_some, mem_singleton]
  · exact Iff.rfl

theorem mem_dots_single {x y : Dot} {e' : E}
    (h : δ.entries = BTreeMap.empty.insert e (BTreeSet.empty.insert x)) :
    y ∈ δ.dots e' ↔ e' = e ∧ y = x := by
  rw [mem_dots_insert h]
  split
  · next he => exact (and_iff_right he).symm
  · next he => exact iff_of_false (BTreeSet.not_mem_empty y) fun hy => he hy.1

section Add

variable {x : Dot} (hs : Shadow ∅ s t) (hspec : AddSpec t e t' η x)
include hs hspec

/-- The state after an add below the limit. -/
theorem shadow_added (hctx : s'.ctx = t'.ctx)
    (hdots : ∀ e' y, y ∈ s'.dots e' ↔ if e' = e then y = x else y ∈ s.dots e') :
    Shadow ∅ s' t' := by
  have hwf := (hspec.wellFormed hs.wellFormed).1
  have hcan : s'.ctx.Canonical := hctx ▸ hwf.canonical
  have hobs : s'.ctx.observed = Insert.insert x s.ctx.observed := by
    rw [hctx, hspec.observed, ← hs.ctx]
  refine ⟨hwf, congrArg DotContext.observed hctx, fun e' y hy => ?_, hcan.compact,
    fun d' => (hcan.isSome_iff d').mp, fun d' hd' => absurd (hcan.dc_pos hd') (lt_irrefl _),
    fun e' d' h0 => .inr ?_⟩
  · rw [hdots, hspec.mem_dots]
    split
    · exact Iff.rfl
    · exact hs.dots e' y hy
  · rw [hdots] at h0
    split at h0
    · exact absurd (h0 ▸ hspec.pos) (lt_irrefl _)
    · next hne =>
      obtain ⟨hr, hno⟩ := hs.zero' h0
      refine ⟨le_antisymm (le_maxU64 _) (hr ▸ run_le_of_observed hcan.compact fun k hk => ?_),
        fun k hk hm => ?_⟩
      · exact hobs ▸ .inr hk
      · rw [hdots, if_neg hne] at hm
        exact hno k hk hm

/-- The delta of an add below the limit. -/
theorem shadow_add_delta (hg : Gathers δ.ctx (x :: (s.dots e).toList))
    (hdots : ∀ e' y, y ∈ δ.dots e' ↔ e' = e ∧ y = x) : Shadow s.ctx.observed δ η := by
  refine ⟨(hspec.wellFormed hs.wellFormed).2, Set.ext fun y => ?_, fun e' y hy => ?_, hg.compact,
    hg.isSome, fun d' hd' => ?_, fun e' d' h0 => ?_⟩
  · rw [hg.observed, hspec.delta_observed, List.mem_cons, BTreeSet.mem_toList]
    constructor
    · rintro ⟨rfl | hy, h0⟩
      · exact .inl rfl
      · exact .inr ((hs.dots e y h0).mp hy)
    · rintro (rfl | hy)
      · exact ⟨.inl rfl, hspec.pos⟩
      · have h0 := hs.wellFormed.pos e y hy
        exact ⟨.inr ((hs.dots e y h0).mpr hy), h0⟩
  · rw [hdots, hspec.mem_delta_dots]
  · rcases List.mem_cons.mp (hg.zero d' hd') with hx | hx
    · exact absurd (hx ▸ hspec.pos) (lt_irrefl _)
    · exact hs.one_mem_of_toList hx
  · have hx := ((hdots e' _).mp h0).2
    exact absurd (hx ▸ hspec.pos) (lt_irrefl _)

end Add

/-- Below the limit the shadow of an add is an add. -/
theorem shadow_add (hs : Shadow ∅ s t) (hone : OneDot s) (htop : s.ctx.top d ≠ maxU64)
    (h : s.add .release e d = some (s', δ)) : ∃ t' η, t.add .release e d = some (t', η) ∧
      Shadow ∅ s' t' ∧ Shadow s.ctx.observed δ η := by
  obtain ⟨x, hnext, hall, he, hδ⟩ := add_delta_eq h
  obtain ⟨t', η, ht⟩ := add_release t e d
  have hlt : (t.ctx.top d).toNat + 1 < 2 ^ 64 := hs.ctx ▸ toNat_add_one_lt htop
  obtain ⟨x', hx', hspec, -⟩ := add_spec hs.wellFormed (.inr hlt) ht
  obtain ⟨y, hnext', -, -, hη⟩ := add_delta_eq ht
  -- both draw from the same context
  rw [← hs.ctx, hnext, Option.some.injEq, Prod.mk.injEq] at hnext'
  obtain ⟨hctx, rfl⟩ := hnext'
  obtain rfl := (hspec.mem_delta_dots.mp ((mem_dots_single hη).mpr ⟨rfl, rfl⟩)).2
  exact ⟨t', η, ht, shadow_added hs hspec hctx fun e' y => mem_dots_insert he,
    shadow_add_delta hs hspec (gathers_foldlM (hone.exists_not_mem e x) hall)
      fun e' y => mem_dots_single hδ⟩

section Drop

variable (hs : Shadow ∅ s t) (hspec : RemoveSpec t e t' η)
include hs hspec

/-- The state after an operation that leaves `e` with dots of counter `0` only. -/
theorem shadow_dropped (hctx : s'.ctx = s.ctx)
    (hother : ∀ e', e' ≠ e → ∀ y, y ∈ s'.dots e' ↔ y ∈ s.dots e')
    (hself : ∀ y ∈ s'.dots e, y.counter = 0 ∧ s.ctx.run y.device = maxU64) : Shadow ∅ s' t' := by
  have hcan : s'.ctx.Canonical := hctx ▸ hs.canonical
  refine ⟨(hspec.wellFormed hs.wellFormed).1, ?_, fun e' y hy => ?_, hcan.compact,
    fun d' => (hcan.isSome_iff d').mp, fun d' hd' => absurd (hcan.dc_pos hd') (lt_irrefl _),
    fun e' d' h0 => .inr ?_⟩
  · rw [hctx, hspec.ctx, hs.observed]
  · rw [hspec.mem_dots]
    by_cases he : e' = e
    · subst he
      exact iff_of_false (fun hm => hy.ne' (hself y hm).1) fun hm => hm.1 rfl
    · rw [hother e' he, and_iff_right he, hs.dots e' y hy]
  · rw [hctx]
    by_cases he : e' = e
    · subst he
      exact ⟨(hself _ h0).2, fun k hk hm => hk.ne' (hself _ hm).1⟩
    · rw [hother e' he] at h0
      refine ⟨(hs.zero' h0).1, fun k hk hm => (hs.zero' h0).2 k hk ?_⟩
      exact (hother e' he _).mp hm

/-- Its delta. -/
theorem shadow_drop_delta {l : List Dot} (hg : Gathers δ.ctx l)
    (hl : ∀ y, 0 < y.counter → (y ∈ l ↔ y ∈ s.dots e))
    (hzero : ∀ d, Dot.new d 0 ∈ l → Dot.new d 1 ∈ s.ctx.observed)
    (hdots : ∀ e' y, y ∈ δ.dots e' → y.counter = 0 ∧ Dot.new y.device 1 ∈ s.ctx.observed) :
    Shadow s.ctx.observed δ η := by
  refine ⟨(hspec.wellFormed hs.wellFormed).2, Set.ext fun y => ?_, fun e' y hy => ?_, hg.compact,
    hg.isSome, fun d' hd' => hzero d' (hg.zero d' hd'), fun e' d' h0 => .inl (hdots e' _ h0).2⟩
  · rw [hg.observed, hspec.delta_observed]
    constructor
    · rintro ⟨hy, h0⟩
      exact (hs.dots e y h0).mp ((hl y h0).mp hy)
    · intro hy
      have h0 := hs.wellFormed.pos e y hy
      exact ⟨(hl y h0).mpr ((hs.dots e y h0).mpr hy), h0⟩
  · exact iff_of_false (fun hm => hy.ne' (hdots e' y hm).1) hspec.not_mem_delta_dots

end Drop

/-- A release build removes from any set. -/
theorem remove_release (s : AddWinsSet E) (e : E) :
    ∃ s' δ, s.remove .release e = some (s', δ) := by
  obtain ⟨c, hc⟩ := foldlM_insert_release (s.dots e).toList .new
  exact ⟨_, ⟨.empty, c⟩, remove_eq_some.mpr ⟨hc, rfl, rfl⟩⟩

theorem OneDot.exists_not_mem_dots (h : OneDot s) (e : E) (d : DeviceId) :
    ∃ k, Dot.new d k ∉ (s.dots e).toList := by
  obtain ⟨k, hk⟩ := h.exists_not_mem e (Dot.new d 0) d
  exact ⟨k, fun hm => hk (List.mem_cons_of_mem _ hm)⟩

/-- The shadow of a removal is a removal. -/
theorem shadow_remove (hs : Shadow ∅ s t) (hone : OneDot s)
    (h : s.remove .release e = some (s', δ)) : ∃ t' η, t.remove .release e = some (t', η) ∧
      Shadow ∅ s' t' ∧ Shadow s.ctx.observed δ η := by
  obtain ⟨hall, rfl, hδ⟩ := remove_eq_some.mp h
  obtain ⟨t', η, ht⟩ := remove_release t e
  have hspec := remove_spec hs.wellFormed ht
  have hdots : ∀ e' y, y ∈ dots ⟨s.entries.remove e, s.ctx⟩ e' ↔ e' ≠ e ∧ y ∈ s.dots e' := by
    intro e' y
    unfold dots
    rw [BTreeMap.get?_remove]
    by_cases he : e' = e <;> simp [he]
  have hδdots : ∀ e' y, y ∉ δ.dots e' := fun e' y => by
    unfold dots
    rw [hδ]
    exact BTreeSet.not_mem_empty y
  refine ⟨t', η, ht, shadow_dropped hs hspec rfl (fun e' he y => ?_) fun y hy => ?_,
    shadow_drop_delta hs hspec (gathers_foldlM (hone.exists_not_mem_dots e) hall)
      (fun y _ => BTreeSet.mem_toList) (fun d' hd' => hs.one_mem_of_toList hd')
      fun e' y hy => absurd hy (hδdots e' y)⟩
  · rw [hdots, and_iff_right he]
  · exact absurd rfl ((hdots e y).mp hy).1

/-- **The shadow of a wrapped add is a removal.** -/
theorem shadow_wrapped (hs : Shadow ∅ s t) (hone : OneDot s) (hrun : s.ctx.run d = maxU64)
    (h : s.add .release e d = some (s', δ)) : ∃ t' η, t.remove .release e = some (t', η) ∧
      Shadow ∅ s' t' ∧ Shadow s.ctx.observed δ η := by
  obtain ⟨x, hnext, hall, he, hδ⟩ := add_delta_eq h
  obtain ⟨t', η, ht⟩ := remove_release t e
  have hspec := remove_spec hs.wellFormed ht
  obtain ⟨rfl, hadd, hins⟩ := nextDot_eq_some.mp hnext
  have hone' := one_mem_of_run_max hrun
  have htop : s.ctx.top x.device = maxU64 :=
    le_antisymm (le_maxU64 _) (hrun ▸ le_max_left _ _)
  have hx : x = Dot.new x.device 0 := by
    rw [htop, Profile.release_add_one_max, Option.some.injEq] at hadd
    rw [hadd]
    rfl
  have hctx : s'.ctx = s.ctx := by
    have hcon := (hs.canonical.contains_zero_iff x.device).mpr hone'
    rw [insert_eq, hx, if_pos hcon, Option.some.injEq] at hins
    exact hins.symm
  have hx0 : x.counter = 0 := congrArg Dot.counter hx
  refine ⟨t', η, ht, shadow_dropped hs hspec hctx (fun e' he' y => ?_) fun y hy => ?_,
    shadow_drop_delta hs hspec (gathers_foldlM (hone.exists_not_mem e x) hall) (fun y hy => ?_)
      (fun d' hd' => ?_) fun e' y hy => ?_⟩
  · rw [mem_dots_insert he, if_neg he']
    exact Iff.rfl
  · rw [mem_dots_insert he, if_pos rfl] at hy
    exact ⟨hy ▸ hx0, hy ▸ hrun⟩
  · rw [List.mem_cons, BTreeSet.mem_toList]
    exact or_iff_right fun hyx => hy.ne' (hyx ▸ hx0)
  · rcases List.mem_cons.mp hd' with hd' | hd'
    · rw [← congrArg Dot.device hd'] at hone'
      exact hone'
    · exact hs.one_mem_of_toList hd'
  · obtain ⟨-, rfl⟩ := (mem_dots_single hδ).mp hy
    exact ⟨hx0, hone'⟩

end RealmGuard.AddWinsSet
