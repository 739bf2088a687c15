import RealmGuard.Crdt.ContextOps

/-!
# A context is a set of dots

`abs c` are the dots a context stands for: up to the prefix of each device, and
those of the cloud. Over the contexts that `insert`, `next_dot` and `merge`
build from `new` (`Built`) the operations are those of sets, and the
representation is canonical: `cc` holds the longest run from counter 1 of each
device and `dc` the dots beyond a gap, so equal sets are equal contexts
(`represents`).
-/

namespace RealmGuard.DotContext

open Lib

/-- The dots a context stands for. -/
def abs (c : DotContext) : Set Dot :=
  {x | (1 ≤ x.counter ∧ ∃ n, c.cc.get? x.device = some n ∧ x.counter ≤ n) ∨ x ∈ c.dc}

/-- The contexts built from `new` with counters from 1 and below `u64::MAX`. -/
inductive Built (p : Profile) : DotContext → Prop where
  | new : Built p .new
  | insert {c c' : DotContext} {x : Dot} :
    Built p c → 1 ≤ x.counter → x.counter < maxU64 → c.insert p x = some c' → Built p c'
  | nextDot {c c' : DotContext} {d : DeviceId} {x : Dot} :
    Built p c → c.nextDot p d = some (c', x) → x.counter < maxU64 → Built p c'
  | merge {a b c : DotContext} : Built p a → Built p b → a.merge p b = some c → Built p c

/-- The context is its set of dots: the operations are those of sets, and the set fixes
both fields. -/
structure Represents (p : Profile) (c : DotContext) : Prop where
  contains : ∀ x, 1 ≤ x.counter → (c.contains x = true ↔ x ∈ c.abs)
  insert : ∀ x, 1 ≤ x.counter → x.counter < maxU64 →
    ∃ c', c.insert p x = some c' ∧ c'.abs = Insert.insert x c.abs
  nextDot : ∀ d c' x, c.nextDot p d = some (c', x) → x.device = d ∧ 1 ≤ x.counter ∧
    (∀ k, Dot.new d k ∈ c.abs → k < x.counter) ∧ c'.abs = Insert.insert x c.abs
  nextDot_isSome : ∀ d, (∀ k, Dot.new d k ∈ c.abs → k.toNat + 1 < maxU64.toNat) →
    ∃ c' x, c.nextDot p d = some (c', x)
  merge : ∀ b, Built p b → ∃ m, c.merge p b = some m ∧ m.abs = c.abs ∪ b.abs
  cc : ∀ d n, c.cc.get? d = some n ↔
    1 ≤ n ∧ (∀ k, 1 ≤ k → k ≤ n → Dot.new d k ∈ c.abs) ∧ Dot.new d (n + 1) ∉ c.abs
  dc : ∀ x, x ∈ c.dc ↔
    x ∈ c.abs ∧ ∃ k, 1 ≤ k ∧ k < x.counter ∧ Dot.new x.device k ∉ c.abs
  unique : ∀ b, Built p b → b.abs = c.abs → b = c

section Canonical

variable {c : DotContext} {d : DeviceId}

/-- A canonical context stands for the dots it has observed. -/
theorem Canonical.abs_eq (hc : c.Canonical) : c.abs = c.observed := by
  apply Set.ext
  intro x
  show _ ∨ _ ↔ 0 < x.counter ∧ c.contains x = true
  rw [contains_iff, covered_iff, and_or_left, and_iff_right_of_imp (hc.dc_pos), pos_iff_one_le]

theorem Canonical.mem_abs (hc : c.Canonical) {x : Dot} :
    x ∈ c.abs ↔ 0 < x.counter ∧ (x.counter ≤ c.run x.device ∨ x ∈ c.dc) := by
  rw [hc.abs_eq, mem_observed]

/-- The counter after the prefix is missing. -/
theorem Canonical.not_mem_succ_run (hc : c.Canonical) (hr : (c.run d).toNat + 1 < 2 ^ 64) :
    Dot.new d (c.run d + 1) ∉ c.abs := by
  rw [hc.mem_abs]
  have hsucc := toNat_add_one hr
  rintro ⟨-, h | h⟩
  · rw [UInt64.le_iff_toNat_le] at h
    change (c.run d + 1).toNat ≤ (c.run d).toNat at h
    omega
  · have hg := hc.gap _ h
    change (c.run d).toNat + 2 ≤ (c.run d + 1).toNat at hg
    omega

/-- Only its own prefix is the longest run from 1. -/
theorem Canonical.run_eq (hc : c.Canonical) {n : UInt64} (hn : n.toNat + 1 < 2 ^ 64)
    (hr : (c.run d).toNat + 1 < 2 ^ 64) (hall : ∀ k, 1 ≤ k → k ≤ n → Dot.new d k ∈ c.abs)
    (hstop : Dot.new d (n + 1) ∉ c.abs) : c.run d = n := by
  rcases lt_trichotomy (c.run d) n with h | h | h
  · rw [UInt64.lt_iff_toNat_lt] at h
    refine absurd (hall (c.run d + 1) (pos_iff_one_le.mp (pos_add_one hr)) ?_)
      (hc.not_mem_succ_run hr)
    rw [UInt64.le_iff_toNat_le, toNat_add_one hr]
    omega
  · exact h
  · rw [UInt64.lt_iff_toNat_lt] at h
    refine absurd (hc.mem_abs.mpr ⟨pos_add_one hn, .inl ?_⟩) hstop
    rw [UInt64.le_iff_toNat_le]
    show (n + 1).toNat ≤ (c.run d).toNat
    rw [toNat_add_one hn]
    omega

theorem Canonical.get?_iff (hc : c.Canonical) {n : UInt64} :
    c.cc.get? d = some n ↔ 1 ≤ n ∧ c.run d = n := by
  unfold run
  cases h : c.cc.get? d with
  | none =>
    refine iff_of_false (by simp) ?_
    rintro ⟨h1, rfl⟩
    exact absurd h1 (by decide)
  | some m =>
    rw [Option.some.injEq, Option.getD_some]
    refine (and_iff_right_of_imp ?_).symm
    rintro rfl
    exact pos_iff_one_le.mp (hc.pos d m h)

/-- The cloud holds the dots beyond a gap. -/
theorem Canonical.mem_dc_iff (hc : c.Canonical) {x : Dot} : x ∈ c.dc ↔
    x ∈ c.abs ∧ ∃ k, 1 ≤ k ∧ k < x.counter ∧ Dot.new x.device k ∉ c.abs := by
  constructor
  · intro hx
    have hg := hc.gap x hx
    have hlt := x.counter.toNat_lt
    have hr : (c.run x.device).toNat + 1 < 2 ^ 64 := by omega
    refine ⟨hc.mem_abs.mpr ⟨hc.dc_pos hx, .inr hx⟩, c.run x.device + 1,
      pos_iff_one_le.mp (pos_add_one hr), ?_, hc.not_mem_succ_run hr⟩
    rw [UInt64.lt_iff_toNat_lt, toNat_add_one hr]
    omega
  · rintro ⟨hx, k, h1, hk, hmiss⟩
    refine (hc.mem_abs.mp hx).2.resolve_left fun hle => hmiss (hc.mem_abs.mpr ?_)
    exact ⟨pos_iff_one_le.mpr h1, .inl (hk.le.trans hle)⟩

end Canonical

/-! ## Built contexts -/

section Built

variable {p : Profile} {a b c : DotContext}

/-- No counter of the context is `u64::MAX`. -/
def Below (c : DotContext) : Prop := ∀ x ∈ c.observed, x.counter < maxU64

theorem not_full_of_lt {s : Set Dot} (hs : ∀ x ∈ s, x.counter < maxU64) (d : DeviceId) :
    ¬ Full s d := fun h => lt_irrefl _ (hs _ (h maxU64 (by decide)))

theorem Below.top_lt (hb : c.Below) (d : DeviceId) : (c.top d).toNat + 1 < 2 ^ 64 := by
  refine toNat_add_one_lt fun hmax => ?_
  rcases c.top_eq_zero_or_mem d with h | h
  · exact absurd (hmax.symm.trans h) (by decide)
  · exact lt_irrefl _ (hmax ▸ hb _ h : maxU64 < maxU64)

theorem Below.run_lt (hb : c.Below) (d : DeviceId) : (c.run d).toNat + 1 < 2 ^ 64 := by
  have hle : c.run d ≤ c.top d := le_max_left _ _
  have := hb.top_lt d
  rw [UInt64.le_iff_toNat_le] at hle
  omega

theorem Below.insert_isSome (hb : c.Below) {x : Dot} (hx : x.counter < maxU64) :
    ∃ c', c.insert p x = some c' := by
  refine Option.ne_none_iff_exists'.mp fun h => ?_
  refine not_full_of_lt (fun y hy => ?_) x.device (insert_eq_none.mp h).2.2
  rcases observed_inserted.mp hy with hy | ⟨rfl, -⟩
  · exact hb y hy
  · exact hx

theorem Below.insert (hb : c.Below) {x : Dot} {c' : DotContext} (hx : x.counter < maxU64)
    (hobs : c'.observed = Insert.insert x c.observed) : c'.Below := by
  unfold Below
  rw [hobs]
  intro y hy
  rcases Set.mem_insert_iff.mp hy with rfl | hy
  · exact hx
  · exact hb y hy

/-- The next dot draws the counter after the largest, and is recorded. -/
theorem nextDot_spec (hc : c.Canonical) (hb : c.Below) {d : DeviceId} {c' : DotContext} {x : Dot}
    (h : c.nextDot p d = some (c', x)) : x.device = d ∧ x.counter = c.top d + 1 ∧
      c'.Canonical ∧ c'.observed = Insert.insert x c.observed := by
  obtain ⟨hd, hadd, hins⟩ := nextDot_eq_some.mp h
  rw [Profile.add_one_of_lt (hb.top_lt d), Option.some.injEq] at hadd
  have hx : 0 < x.counter := hadd ▸ pos_add_one (hb.top_lt d)
  exact ⟨hd, hadd.symm, hc.insert hx hins⟩

theorem Built.canonical (h : Built p c) : c.Canonical ∧ c.Below := by
  induction h with
  | new =>
    refine ⟨canonical_new, fun x hx => ?_⟩
    rw [observed_new] at hx
    exact absurd hx (Set.notMem_empty x)
  | insert _ h1 hx hins ih =>
    obtain ⟨hc, hobs⟩ := ih.1.insert (pos_iff_one_le.mpr h1) hins
    exact ⟨hc, ih.2.insert hx hobs⟩
  | nextDot _ hnext hx ih =>
    obtain ⟨-, -, hc, hobs⟩ := nextDot_spec ih.1 ih.2 hnext
    exact ⟨hc, ih.2.insert hx hobs⟩
  | merge _ _ hm iha ihb =>
    obtain ⟨hc, hobs⟩ := iha.1.merge ihb.1 hm
    refine ⟨hc, fun x hx => ?_⟩
    rw [hobs] at hx
    exact hx.elim (iha.2 x) (ihb.2 x)

theorem Built.abs_eq (h : Built p c) : c.abs = c.observed := h.canonical.1.abs_eq

theorem Built.merge_isSome (ha : Built p a) (hb : Built p b) : ∃ m, a.merge p b = some m := by
  refine (ha.canonical.1.merge_isSome_iff hb.canonical.1).mpr (.inr fun d hd => ?_)
  refine absurd hd (not_full_of_lt (fun x hx => ?_) d)
  exact hx.elim (ha.canonical.2 x) (hb.canonical.2 x)

theorem Built.nextDot_isSome (h : Built p c) (d : DeviceId)
    (hlt : (c.top d).toNat + 1 < maxU64.toNat) :
    ∃ c' x, c.nextDot p d = some (c', x) := by
  have htop := h.canonical.2.top_lt d
  have hx : c.top d + 1 < maxU64 := by
    rw [UInt64.lt_iff_toNat_lt, toNat_add_one htop]
    exact hlt
  obtain ⟨c', hins⟩ := h.canonical.2.insert_isSome (p := p) (x := Dot.new d (c.top d + 1)) hx
  exact ⟨c', _, nextDot_eq_some.mpr ⟨rfl, Profile.add_one_of_lt htop, hins⟩⟩

theorem Built.cc_iff (h : Built p c) (d : DeviceId) (n : UInt64) : c.cc.get? d = some n ↔
    1 ≤ n ∧ (∀ k, 1 ≤ k → k ≤ n → Dot.new d k ∈ c.abs) ∧ Dot.new d (n + 1) ∉ c.abs := by
  obtain ⟨hc, hb⟩ := h.canonical
  rw [hc.get?_iff]
  refine and_congr_right fun h1 => ⟨?_, fun ⟨hall, hstop⟩ => ?_⟩
  · rintro rfl
    refine ⟨fun k hk hle => hc.mem_abs.mpr ⟨pos_iff_one_le.mpr hk, .inl hle⟩, ?_⟩
    exact hc.not_mem_succ_run (hb.run_lt d)
  · have hmem := hall n h1 le_rfl
    rw [hc.abs_eq] at hmem
    exact hc.run_eq (toNat_add_one_lt (hb _ hmem).ne) (hb.run_lt d) hall hstop

end Built

/-- **A context is a canonical representation of a set of dots.** -/
theorem represents (p : Profile) (c : DotContext) (hc : Built p c) : Represents p c := by
  obtain ⟨hcan, hbelow⟩ := hc.canonical
  refine ⟨fun x hx => ?_, fun x h1 hx => ?_, fun d c' x hnext => ?_, fun d hlt => ?_,
    fun b hb => ?_, fun d n => hc.cc_iff d n, fun x => hcan.mem_dc_iff, fun b hb h => ?_⟩
  · rw [hc.abs_eq]
    exact ⟨mem_observed_of_contains (pos_iff_one_le.mpr hx), contains_of_mem⟩
  · obtain ⟨c', hins⟩ := hbelow.insert_isSome (p := p) hx
    have hbuilt := hc.insert h1 hx hins
    refine ⟨c', hins, ?_⟩
    rw [hbuilt.abs_eq, hc.abs_eq]
    exact (hcan.insert (pos_iff_one_le.mpr h1) hins).2
  · obtain ⟨hd, hcounter, hcan', hobs⟩ := nextDot_spec hcan hbelow hnext
    have htop := hbelow.top_lt d
    rw [hcounter, hcan'.abs_eq, hc.abs_eq]
    refine ⟨hd, pos_iff_one_le.mp (pos_add_one htop), fun k hk => ?_, hobs⟩
    exact (le_top hk).trans_lt (self_lt_add_one htop)
  · refine hc.nextDot_isSome d ?_
    rcases c.top_eq_zero_or_mem d with h | h
    · rw [h]
      decide
    · rw [← hc.abs_eq] at h
      exact hlt _ h
  · obtain ⟨m, hm⟩ := hc.merge_isSome hb
    refine ⟨m, hm, ?_⟩
    rw [(hc.merge hb hm).abs_eq, hc.abs_eq, hb.abs_eq]
    exact (hcan.merge hb.canonical.1 hm).2
  · rw [hb.abs_eq, hc.abs_eq] at h
    exact hb.canonical.1.ext hcan h

/-- A context with a gap, merged with the dot that closes it. -/
theorem represents_gap : ∃ a b c, (DotContext.new.insert .dev ⟨dev 1, 2⟩) = some a ∧
    (DotContext.new.nextDot .dev (dev 1)) = some (b, ⟨dev 1, 1⟩) ∧ a.merge .dev b = some c ∧
      Represents .dev c := by
  have h : ((DotContext.new.insert .dev ⟨dev 1, 2⟩).any fun a =>
      (DotContext.new.nextDot .dev (dev 1)).any fun q =>
        q.2 = ⟨dev 1, 1⟩ ∧ (a.merge .dev q.1).isSome = true) = true := by decide
  obtain ⟨a, ha, h⟩ := (Option.any_eq_true _ _).mp h
  obtain ⟨⟨b, x⟩, hb, h⟩ := (Option.any_eq_true _ _).mp h
  obtain ⟨rfl, hm⟩ := of_decide_eq_true h
  obtain ⟨c, hc⟩ := Option.isSome_iff_exists.mp hm
  have hbuilt := (Built.new.insert (by decide) (by decide) ha).merge
    (Built.new.nextDot hb (by decide)) hc
  exact ⟨a, b, c, ha, hb, hc, represents .dev c hbuilt⟩

end RealmGuard.DotContext
