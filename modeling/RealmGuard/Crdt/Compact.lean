import RealmGuard.Crdt.Dot

/-!
# Compaction

What the compaction loop and the compaction of one device compute. `Run` is the
state the loop reaches from prefix `n`: a prefix `m` such that every counter in
between was in the cloud and the next one is not, and the cloud without them.

A release build wraps at `u64::MAX` and goes on to test counter `0`; this
changes the result only when the cloud holds every counter of the device
(`Fits` excludes it: a set of `2 ^ 64` dots has no length in a `usize`). A dev
build panics there, that is when the cloud completes the prefix up to
`u64::MAX` (`compactLoop_eq_none`).
-/

namespace RealmGuard.DotContext

open Lib

/-- The contiguous prefix of `device`, `0` when `cc` has no entry. -/
def run (c : DotContext) (device : DeviceId) : UInt64 := (c.cc.get? device).getD 0

/-- The loop's result: from prefix `n` and cloud `dc` to prefix `m` and cloud `dc'`. -/
structure Run (device : DeviceId) (dc : BTreeSet Dot) (n : UInt64) (dc' : BTreeSet Dot)
    (m : UInt64) : Prop where
  le : n ≤ m
  absorbed : ∀ k, n < k → k ≤ m → Dot.new device k ∈ dc
  stop : ∀ k : UInt64, k.toNat = m.toNat + 1 → Dot.new device k ∉ dc
  mem : ∀ x, x ∈ dc' ↔ x ∈ dc ∧ ¬ (x.device = device ∧ n < x.counter ∧ x.counter ≤ m)

theorem Run.refl {device : DeviceId} {dc : BTreeSet Dot} {n : UInt64}
    (h : ∀ k : UInt64, k.toNat = n.toNat + 1 → Dot.new device k ∉ dc) : Run device dc n dc n where
  le := le_refl n
  absorbed _ hk hk' := absurd hk (not_lt.mpr hk')
  stop := h
  mem _ := ⟨fun hx => ⟨hx, fun h => not_lt.mpr h.2.2 h.2.1⟩, And.left⟩

theorem Run.step {device : DeviceId} {dc dc' : BTreeSet Dot} {n m j : UInt64}
    (hj : j.toNat = n.toNat + 1) (hmem : Dot.new device j ∈ dc)
    (h : Run device (dc.remove (Dot.new device j)) j dc' m) : Run device dc n dc' m where
  le := ((lt_iff_of_succ hj).mpr (.inl rfl)).le.trans h.le
  absorbed k hk hk' := by
    rcases (lt_iff_of_succ hj).mp hk with rfl | hlt
    · exact hmem
    · exact (BTreeSet.mem_remove.mp (h.absorbed k hlt hk')).2
  stop k hk hmem' := by
    refine h.stop k hk (BTreeSet.mem_remove.mpr ⟨fun he => ?_, hmem'⟩)
    have hkj : k = j := congrArg Dot.counter he
    have hle := h.le
    rw [UInt64.le_iff_toNat_le] at hle
    rw [hkj] at hk
    omega
  mem x := by
    rw [h.mem, BTreeSet.mem_remove]
    constructor
    · rintro ⟨⟨hne, hx⟩, hrun⟩
      refine ⟨hx, fun ⟨hd, h1, h2⟩ => ?_⟩
      rcases (lt_iff_of_succ hj).mp h1 with he | hlt
      · exact hne (by rw [← hd, ← he]; rfl)
      · exact hrun ⟨hd, hlt, h2⟩
    · rintro ⟨hx, hrun⟩
      refine ⟨⟨?_, hx⟩, fun ⟨hd, h1, h2⟩ => hrun ⟨hd, (lt_iff_of_succ hj).mpr (.inr h1), h2⟩⟩
      rintro rfl
      exact hrun ⟨rfl, (lt_iff_of_succ hj).mpr (.inl rfl), h.le⟩

/-! ## The loop -/

/-- The loop unrolled once; the fuel plays no part as long as it bounds the cloud. -/
theorem compactLoop_eq {p : Profile} {device : DeviceId} {dc : BTreeSet Dot} {n : UInt64}
    {fuel : Nat} (hf : dc.len ≤ fuel) :
    compactLoop p device fuel dc n = (p.add n 1).bind fun m =>
      if Dot.new device m ∈ dc then compactLoop p device (fuel - 1) (dc.remove (Dot.new device m)) m
      else some (dc, n) := by
  cases fuel with
  | zero =>
    have hdc := BTreeSet.eq_of_len_eq_zero (Nat.le_zero.mp hf)
    cases h : p.add n 1 <;> simp [compactLoop, h, hdc]
  | succ fuel => simp [compactLoop, Option.bind_eq_bind]

theorem compactLoop_run {p : Profile} {device : DeviceId} :
    ∀ {fuel : Nat} {dc : BTreeSet Dot} {n : UInt64} {r : BTreeSet Dot × UInt64}, dc.len ≤ fuel →
      (p = .release → ∃ k, (k = 0 ∨ n < k) ∧ Dot.new device k ∉ dc) →
      compactLoop p device fuel dc n = some r → Run device dc n r.1 r.2 := by
  intro fuel
  induction fuel with
  | zero =>
    intro dc n r hf _ h
    rw [compactLoop_eq hf, Option.bind_eq_some_iff] at h
    obtain ⟨m, -, h⟩ := h
    have hdc := BTreeSet.eq_of_len_eq_zero (Nat.le_zero.mp hf)
    rw [if_neg (hdc _), Option.some.injEq] at h
    subst h
    exact .refl fun k _ => hdc _
  | succ fuel ih =>
    intro dc n r hf hlap h
    rw [compactLoop_eq hf, Option.bind_eq_some_iff] at h
    obtain ⟨j, hadd, h⟩ := h
    rcases Profile.add_one_eq_some hadd with ⟨-, hj⟩ | ⟨hp, hn, hj⟩
    · split at h
      · next hmem =>
        have hlen := BTreeSet.len_remove hmem
        refine .step hj hmem (ih (by omega) (fun hp => ?_) h)
        obtain ⟨k, hk, hkdc⟩ := hlap hp
        refine ⟨k, hk.imp id fun hlt => ?_, fun hk' => hkdc (BTreeSet.mem_remove.mp hk').2⟩
        exact ((lt_iff_of_succ hj).mp hlt).resolve_left fun he => hkdc (he ▸ hmem)
      · next hmem =>
        rw [Option.some.injEq] at h
        subst h
        refine .refl fun k hk => ?_
        have : k = j := UInt64.toNat_inj.mp (hk.trans hj.symm)
        rwa [this]
    · obtain ⟨k, hk, hkdc⟩ := hlap hp
      have hk0 : k = 0 := hk.resolve_right fun hlt => not_lt_of_ge (hn ▸ le_maxU64 k) hlt
      subst hj hk0
      rw [if_neg hkdc, Option.some.injEq] at h
      subst h
      refine .refl fun k hk => ?_
      have := k.toNat_lt
      rw [hn, maxU64_toNat] at hk
      omega

theorem compactLoop_release (device : DeviceId) : ∀ (fuel : Nat) (dc : BTreeSet Dot) (n : UInt64),
    compactLoop .release device fuel dc n ≠ none
  | 0, _, _ => Option.some_ne_none _
  | fuel + 1, dc, n => by
    simp only [compactLoop, Profile.add, Option.bind_eq_bind, Option.bind_some]
    split
    · exact compactLoop_release device fuel _ _
    · exact Option.some_ne_none _

theorem compactLoop_dev_eq_none {device : DeviceId} :
    ∀ {fuel : Nat} {dc : BTreeSet Dot} {n : UInt64}, dc.len ≤ fuel →
      (compactLoop .dev device fuel dc n = none ↔ ∀ k, n < k → Dot.new device k ∈ dc) := by
  intro fuel
  induction fuel with
  | zero =>
    intro dc n hf
    have hdc := BTreeSet.eq_of_len_eq_zero (Nat.le_zero.mp hf)
    rw [compactLoop_eq hf]
    by_cases hn : n.toNat + 1 < 2 ^ 64
    · rw [Profile.add_one_of_lt hn]
      exact iff_of_false (by simp [hdc]) fun h => hdc _ (h (n + 1) (self_lt_add_one hn))
    · obtain rfl := eq_maxU64 hn
      exact iff_of_true rfl fun k hk => absurd hk (not_lt_of_ge (le_maxU64 k))
  | succ fuel ih =>
    intro dc n hf
    rw [compactLoop_eq hf]
    by_cases hn : n.toNat + 1 < 2 ^ 64
    · have hlt : n < n + 1 := self_lt_add_one hn
      rw [Profile.add_one_of_lt hn, Option.bind_some]
      by_cases hmem : Dot.new device (n + 1) ∈ dc
      · have hlen := BTreeSet.len_remove hmem
        rw [if_pos hmem, Nat.add_sub_cancel, ih (by omega)]
        refine ⟨fun h k hk => ?_, fun h k hk => ?_⟩
        · rcases (lt_iff_of_succ (toNat_add_one hn)).mp hk with rfl | hk
          · exact hmem
          · exact (BTreeSet.mem_remove.mp (h k hk)).2
        · refine BTreeSet.mem_remove.mpr ⟨fun he => ?_, h k (hlt.trans hk)⟩
          exact hk.ne' (congrArg Dot.counter he)
      · rw [if_neg hmem]
        exact iff_of_false (by simp) fun h => hmem (h _ hlt)
    · obtain rfl := eq_maxU64 hn
      exact iff_of_true rfl fun k hk => absurd hk (not_lt_of_ge (le_maxU64 k))

/-- The loop panics in a dev build whose cloud completes the prefix. -/
theorem compactLoop_eq_none {p : Profile} {device : DeviceId} {fuel : Nat} {dc : BTreeSet Dot}
    {n : UInt64} (hf : dc.len ≤ fuel) : compactLoop p device fuel dc n = none ↔
      p = .dev ∧ ∀ k, n < k → Dot.new device k ∈ dc := by
  cases p with
  | dev => exact (compactLoop_dev_eq_none hf).trans (and_iff_right rfl).symm
  | release => exact iff_of_false (compactLoop_release device fuel dc n) fun h => nomatch h.1

/-! ## One device -/

/-- `c'` holds about `device` what `c` does. -/
structure SameAt (c : DotContext) (device : DeviceId) (c' : DotContext) : Prop where
  get? : c'.cc.get? device = c.cc.get? device
  mem : ∀ k, Dot.new device k ∈ c'.dc ↔ Dot.new device k ∈ c.dc

/-- `c'` holds about `device` what `c` does, compacted to the prefix `m`. -/
structure CompactedAt (c : DotContext) (device : DeviceId) (c' : DotContext) (m : UInt64) :
    Prop where
  le : c.run device ≤ m
  absorbed : ∀ k, c.run device < k → k ≤ m → Dot.new device k ∈ c.dc
  stop : ∀ k : UInt64, k.toNat = m.toNat + 1 → Dot.new device k ∉ c.dc
  get? : c'.cc.get? device = if 0 < m then some m else c.cc.get? device
  mem : ∀ k, Dot.new device k ∈ c'.dc ↔ Dot.new device k ∈ c.dc ∧ ¬ (c.run device < k ∧ k ≤ m)

/-- The cloud is not so full that a wrapped loop would test counter `0` in vain. -/
def Fits (p : Profile) (c : DotContext) (device : DeviceId) : Prop :=
  p = .release → ∃ k, (k = 0 ∨ c.run device < k) ∧ Dot.new device k ∉ c.dc

theorem SameAt.run {c c' : DotContext} {device : DeviceId} (h : SameAt c device c') :
    c'.run device = c.run device := by
  rw [DotContext.run, h.get?, DotContext.run]

theorem SameAt.fits {p : Profile} {c c' : DotContext} {device : DeviceId}
    (h : SameAt c device c') (hf : Fits p c device) : Fits p c' device := by
  intro hp
  obtain ⟨k, hk, hkdc⟩ := hf hp
  exact ⟨k, hk.imp id fun hlt => h.run ▸ hlt, fun hm => hkdc ((h.mem k).mp hm)⟩

theorem CompactedAt.trans_same {c c₁ c' : DotContext} {device : DeviceId} {m : UInt64}
    (h : CompactedAt c device c₁ m) (hs : SameAt c₁ device c') : CompactedAt c device c' m where
  le := h.le
  absorbed := h.absorbed
  stop := h.stop
  get? := hs.get?.trans h.get?
  mem k := (hs.mem k).trans (h.mem k)

theorem SameAt.trans_compacted {c c₁ c' : DotContext} {device : DeviceId} {m : UInt64}
    (hs : SameAt c device c₁) (h : CompactedAt c₁ device c' m) : CompactedAt c device c' m where
  le := hs.run ▸ h.le
  absorbed k hk hk' := (hs.mem k).mp (h.absorbed k (hs.run ▸ hk) hk')
  stop k hk hm := h.stop k hk ((hs.mem k).mpr hm)
  get? := by rw [h.get?, hs.get?]
  mem k := by rw [h.mem, hs.mem, hs.run]

theorem compactDevice_spec {p : Profile} {c c' : DotContext} {device : DeviceId}
    (hfit : Fits p c device) (h : compactDevice p c device = some c') :
    (∃ m, CompactedAt c device c' m) ∧ ∀ d, d ≠ device → SameAt c d c' := by
  simp only [compactDevice, Option.bind_eq_bind, Option.bind_eq_some_iff, Option.some.injEq] at h
  obtain ⟨⟨dc, m⟩, hloop, rfl⟩ := h
  have hrun := compactLoop_run le_rfl hfit hloop
  refine ⟨⟨m, hrun.le, hrun.absorbed, hrun.stop, ?_, fun k => ?_⟩, fun d hd => ⟨?_, fun k => ?_⟩⟩
  · by_cases hm : 0 < m <;> simp [hm]
  · rw [hrun.mem]
    exact and_congr_right fun _ => not_congr (and_iff_right rfl)
  · by_cases hm : 0 < m <;> simp [hm, hd]
  · rw [hrun.mem]
    exact and_iff_left fun h => hd h.1

theorem compactDevice_eq_none {p : Profile} {c : DotContext} {device : DeviceId} :
    compactDevice p c device = none ↔
      p = .dev ∧ ∀ k, c.run device < k → Dot.new device k ∈ c.dc := by
  simp only [compactDevice, Option.bind_eq_bind, Option.bind_eq_none_iff, reduceCtorEq, imp_false]
  have hloop : compactLoop p device c.dc.len c.dc (c.run device) = none ↔
      p = .dev ∧ ∀ k, c.run device < k → Dot.new device k ∈ c.dc := compactLoop_eq_none le_rfl
  rw [← hloop, run, Option.eq_none_iff_forall_ne_some]

/-! ## A list of devices -/

theorem foldlM_compactDevice {p : Profile} :
    ∀ {ds : List DeviceId} {c c' : DotContext}, ds.Nodup → (∀ d ∈ ds, Fits p c d) →
      ds.foldlM (compactDevice p) c = some c' →
      (∀ d ∈ ds, ∃ m, CompactedAt c d c' m) ∧ ∀ d, d ∉ ds → SameAt c d c' := by
  intro ds
  induction ds with
  | nil =>
    intro c c' _ _ h
    rw [List.foldlM_nil] at h
    obtain rfl := Option.some.inj h
    exact ⟨fun d hd => (List.not_mem_nil hd).elim, fun d _ => ⟨rfl, fun _ => Iff.rfl⟩⟩
  | cons d₀ ds ih =>
    intro c c' hnd hfit h
    obtain ⟨hd₀, hnd⟩ := List.nodup_cons.mp hnd
    rw [List.foldlM_cons, Option.bind_eq_bind, Option.bind_eq_some_iff] at h
    obtain ⟨c₁, h₁, h⟩ := h
    obtain ⟨⟨m, hm⟩, hsame⟩ := compactDevice_spec (hfit d₀ List.mem_cons_self) h₁
    have hne : ∀ d ∈ ds, d ≠ d₀ := fun d hd he => hd₀ (he ▸ hd)
    obtain ⟨hin, hout⟩ := ih hnd
      (fun d hd => (hsame d (hne d hd)).fits (hfit d (List.mem_cons_of_mem _ hd))) h
    refine ⟨fun d hd => ?_, fun d hd => ?_⟩
    · rcases List.mem_cons.mp hd with rfl | hd
      · exact ⟨m, hm.trans_same (hout d hd₀)⟩
      · obtain ⟨m', hm'⟩ := hin d hd
        exact ⟨m', (hsame d (hne d hd)).trans_compacted hm'⟩
    · have hs := hsame d fun he => hd (he ▸ List.mem_cons_self)
      have hs' := hout d fun hd' => hd (List.mem_cons_of_mem _ hd')
      exact ⟨hs'.get?.trans hs.get?, fun k => (hs'.mem k).trans (hs.mem k)⟩

theorem foldlM_compactDevice_eq_none {p : Profile} :
    ∀ {ds : List DeviceId} {c : DotContext}, ds.Nodup →
      (ds.foldlM (compactDevice p) c = none ↔
        p = .dev ∧ ∃ d ∈ ds, ∀ k, c.run d < k → Dot.new d k ∈ c.dc) := by
  intro ds
  induction ds with
  | nil => intro c _; simp
  | cons d₀ ds ih =>
    intro c hnd
    obtain ⟨hd₀, hnd⟩ := List.nodup_cons.mp hnd
    rw [List.foldlM_cons, Option.bind_eq_bind]
    cases h₁ : compactDevice p c d₀ with
    | none =>
      obtain ⟨hp, hfull⟩ := compactDevice_eq_none.mp h₁
      exact iff_of_true rfl ⟨hp, d₀, List.mem_cons_self, hfull⟩
    | some c₁ =>
      have hnone : ¬ (p = .dev ∧ ∀ k, c.run d₀ < k → Dot.new d₀ k ∈ c.dc) := by
        rw [← compactDevice_eq_none, h₁]
        simp
      rw [Option.bind_some, ih hnd]
      refine and_congr_right fun hp => ?_
      have hfit : Fits p c d₀ := fun hr => nomatch hp.symm.trans hr
      have hsame := (compactDevice_spec hfit h₁).2
      simp only [List.exists_mem_cons_iff]
      rw [or_iff_right fun hf => hnone ⟨hp, hf⟩]
      refine exists_congr fun d => and_congr_right fun hd => ?_
      have hs := hsame d fun he => hd₀ (he ▸ hd)
      exact forall_congr' fun k => by rw [hs.run, hs.mem]

end RealmGuard.DotContext
