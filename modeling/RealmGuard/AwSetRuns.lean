import RealmGuard.ObservedRemove

/-!
# Runs of add-wins sets

Replicas of one `AddWinsSet`. Under causal delivery presence is observed-remove
(`contains_iff_history`), as long as no counter wraps: the `2 ^ 64`-th add of a
device in a release build draws counter `0`, which every context that has an
entry for the device already contains, and a replica that merges its delta loses
the element. Under free delivery a removal need not take effect where no add is
concurrent with it: its delta carries the dots still active at the remover, not
those superseded or removed before (`merge_remove_delta`).
-/

namespace RealmGuard.AddWinsSet

open Lib DotContext

variable {E : Type} [LinearOrder E]

/-- Replicas of an add-wins set. -/
def replicated (p : Profile) (E : Type) [LinearOrder E] :
    DeltaType DeviceId (SetOp E) (AddWinsSet E) where
  init := .new
  mutate d
    | .add e, s => s.add p e d
    | .remove e, s => s.remove p e
  merge a b := a.merge p b

def presence (p : Profile) (E : Type) [LinearOrder E] : Presence p (replicated p E) E where
  view := id
  kind := some
  init := rfl
  merge := id
  add hk hm := by
    obtain rfl := Option.some.inj hk
    exact hm
  remove hk hm := by
    obtain rfl := Option.some.inj hk
    exact hm
  other hk := nomatch hk

/-! ## Presence under causal delivery -/

/-- **Observed-remove.** A replica contains an element when some add of it in the
replica's history lies in the past of no removal of it there. -/
theorem contains_iff_history (p : Profile) (n : Net DeviceId (SetOp E) (AddWinsSet E))
    (hn : Runs (replicated p E) Causal n) (hw : (presence p E).NoWrap n.log) (r : DeviceId)
    (e : E) : (n.doc r).contains e = true ↔
      ∃ i ∈ n.hist r, ∃ ev, n.log[i]? = some ev ∧ ev.op = .add e ∧
        ∀ j ∈ n.hist r, ∀ ev', n.log[j]? = some ev' → ev'.op = .remove e → i ∉ ev'.past := by
  refine (Presence.contains_iff_survives hn hw (.replica r) (hn.closed.1 r)).trans ?_
  simp only [Presence.Survives, presence, Option.some.injEq]

/-- Device 1 adds an element, device 2 removes it, device 1 adds it again before it
hears of the removal. -/
def readd : List (Action DeviceId (SetOp ℕ)) :=
  [.update (dev 1) (.add 7), .deliver (dev 2) 1, .update (dev 2) (.remove 7),
    .update (dev 1) (.add 7), .deliver (dev 1) 2]

theorem contains_iff_history_readd : ∃ n, Runs (replicated .dev ℕ) Causal n ∧
    ∃ i ∈ n.hist (dev 1), ∃ ev, n.log[i]? = some ev ∧ ev.op = .add 7 ∧
      ∀ j ∈ n.hist (dev 1), ∀ ev', n.log[j]? = some ev' → ev'.op = .remove 7 → i ∉ ev'.past := by
  have h : ((Net.init (replicated .dev ℕ)).exec (replicated .dev ℕ) Causal readd).any
      (fun n => (n.doc (dev 1)).contains 7) = true := by decide
  obtain ⟨n, hexec, hcon⟩ := (Option.any_eq_true _ _).mp h
  have hn := Runs.init.exec hexec
  exact ⟨n, hn, (contains_iff_history .dev n hn (.inl rfl) (dev 1) 7).mp hcon⟩

/-! ## The wrapped counter -/

/-- What device 1 holds after `k` adds of the same element. -/
def filled (k : UInt64) : AddWinsSet ℕ :=
  ⟨.insert .empty 7 (.insert .empty ⟨dev 1, k⟩), ⟨.insert .empty (dev 1) k, .empty⟩⟩

theorem mem_dots_filled {k : UInt64} {e : ℕ} {x : Dot} :
    x ∈ (filled k).dots e ↔ e = 7 ∧ x = ⟨dev 1, k⟩ := by
  unfold dots filled
  rw [BTreeMap.get?_insert]
  by_cases he : e = 7 <;> simp [he]

theorem run_filled (k : UInt64) (d : DeviceId) :
    (filled k).ctx.run d = if d = dev 1 then k else 0 := by
  unfold run filled
  rw [BTreeMap.get?_insert]
  by_cases hd : d = dev 1 <;> simp [hd]

theorem mem_observed_filled {k : UInt64} {x : Dot} :
    x ∈ (filled k).ctx.observed ↔ 0 < x.counter ∧ x.device = dev 1 ∧ x.counter ≤ k := by
  rw [mem_observed, run_filled]
  refine and_congr_right fun h0 => ?_
  rw [or_iff_left (show x ∉ (filled k).ctx.dc from BTreeSet.not_mem_empty x)]
  by_cases hd : x.device = dev 1
  · simp [hd]
  · simp only [hd, if_false, false_and, iff_false, not_le]
    exact h0

theorem wellFormed_filled {k : UInt64} (h0 : 0 < k) : (filled k).WellFormed where
  nonempty e ds h := by
    change (BTreeMap.empty.insert 7 _).get? e = some ds at h
    rw [BTreeMap.get?_insert] at h
    split at h
    · exact ⟨⟨dev 1, k⟩, Option.some.inj h ▸ mem_singleton.mpr rfl⟩
    · cases h
  pos e x hx := (mem_dots_filled.mp hx).2 ▸ h0
  canonical := by
    refine ⟨fun d n h => ?_, fun x hx => (BTreeSet.not_mem_empty x hx).elim⟩
    change (BTreeMap.empty.insert (dev 1) k).get? d = some n at h
    rw [BTreeMap.get?_insert] at h
    split at h
    · exact Option.some.inj h ▸ h0
    · cases h

theorem filled_add {k : UInt64} (h0 : 0 < k) (hk : k.toNat + 1 < 2 ^ 64) :
    ∃ δ, (filled k).add .release 7 (dev 1) = some (filled (k + 1), δ) := by
  have htop : (filled k).ctx.top (dev 1) = k := by
    rw [top, run_filled, if_pos rfl]
    exact max_eq_left UInt64.zero_le
  obtain ⟨s', δ, h⟩ := add_release (filled k) 7 (dev 1)
  obtain ⟨x, hx, hspec, -⟩ := add_spec (wellFormed_filled h0) (.inr (by rw [htop]; exact hk)) h
  have hxk : x = ⟨dev 1, k + 1⟩ := by
    have hc := hspec.counter
    rw [hx, htop, ← toNat_add_one hk, UInt64.toNat_inj] at hc
    obtain ⟨d, c⟩ := x
    exact congrArg₂ Dot.mk hx hc
  have h0' : 0 < k + 1 := pos_add_one hk
  refine ⟨δ, h.trans ?_⟩
  rw [(hspec.wellFormed (wellFormed_filled h0)).1.ext (wellFormed_filled h0')]
  refine DotKernel.ext (Set.ext fun y => ?_) (funext fun e => Set.ext fun y => ?_)
  · show y ∈ s'.ctx.observed ↔ y ∈ (filled (k + 1)).ctx.observed
    rw [hspec.observed, Set.mem_insert_iff, mem_observed_filled, mem_observed_filled, hxk]
    obtain ⟨d, c⟩ := y
    rw [Dot.mk.injEq, ← UInt64.toNat_inj, UInt64.le_iff_toNat_le, UInt64.le_iff_toNat_le,
      UInt64.lt_iff_toNat_lt, toNat_add_one hk]
    show d = dev 1 ∧ c.toNat = k.toNat + 1 ∨ 0 < c.toNat ∧ d = dev 1 ∧ c.toNat ≤ k.toNat ↔
      0 < c.toNat ∧ d = dev 1 ∧ c.toNat ≤ k.toNat + 1
    by_cases hd : d = dev 1 <;> simp [hd]
    omega
  · rw [mem_kernel_live, mem_kernel_live, hspec.mem_dots, mem_dots_filled, mem_dots_filled, hxk]
    by_cases he : e = 7 <;> simp [he]

/-- What device 1 holds after `k` adds, the empty set first. -/
theorem filled_ofNat_add {k : ℕ} (hk : k + 1 < 2 ^ 64) :
    ∃ δ, (if k = 0 then .new else filled (.ofNat k)).add .release 7 (dev 1) =
      some (filled (.ofNat (k + 1)), δ) := by
  rcases Nat.eq_zero_or_pos k with rfl | hpos
  · exact ⟨_, rfl⟩
  · have hk' : (UInt64.ofNat k).toNat = k := by
      rw [UInt64.toNat_ofNat']
      exact Nat.mod_eq_of_lt (by omega)
    have h0 : 0 < UInt64.ofNat k := pos_iff_toNat.mpr (by rwa [hk'])
    have hsucc : UInt64.ofNat k + 1 = UInt64.ofNat (k + 1) := (UInt64.ofNat_add k 1).symm
    rw [if_neg hpos.ne', ← hsucc]
    exact filled_add h0 (by omega)

/-- A run in which device 1 adds the same element `k` times. -/
theorem run_adds (k : ℕ) (hk : k < 2 ^ 64) :
    ∃ n : Net DeviceId (SetOp ℕ) (AddWinsSet ℕ), Runs (replicated .release ℕ) Causal n ∧
      n.log.length = k ∧ (∀ ev ∈ n.log, ev.op = .add 7) ∧ n.hist (dev 1) = Finset.range k ∧
      n.doc (dev 1) = (if k = 0 then .new else filled (.ofNat k)) ∧
      n.hist (dev 2) = ∅ ∧ n.doc (dev 2) = .new := by
  induction k with
  | zero =>
    refine ⟨_, .init, rfl, fun ev hev => absurd hev List.not_mem_nil, rfl, rfl, rfl, rfl⟩
  | succ k ih =>
    obtain ⟨n, hn, hlen, hop, hhist, hdoc, hhist₂, hdoc₂⟩ := ih (by omega)
    obtain ⟨δ, hadd⟩ := filled_ofNat_add hk
    rw [← hdoc] at hadd
    have hmut : (replicated .release ℕ).mutate (dev 1) (.add 7) (n.doc (dev 1)) =
        some (filled (.ofNat (k + 1)), δ) := hadd
    have hne : dev 2 ≠ dev 1 := by decide
    refine ⟨_, hn.step (a := .update (dev 1) (.add 7)) trivial (Net.update_eq hmut), ?_,
      fun ev hev => ?_, ?_, ?_, ?_, ?_⟩
    · simp [hlen]
    · rcases List.mem_append.mp hev with hev | hev
      · exact hop ev hev
      · rw [List.mem_singleton.mp hev]
    · simp [hhist, hlen, Finset.range_add_one]
    · simp
    · simp [hne, hhist₂]
    · simp [hne, hdoc₂]

/-- A run that ends with two devices holding what `2 ^ 64 - 1` adds of one of them made. -/
theorem run_snapshot : ∃ n : Net DeviceId (SetOp ℕ) (AddWinsSet ℕ),
    Runs (replicated .release ℕ) Causal n ∧ n.log.length = 2 ^ 64 - 1 ∧
      (∀ ev ∈ n.log, ev.op = .add 7) ∧ ∀ d ∈ [dev 1, dev 2],
        n.hist d = Finset.range n.log.length ∧ n.doc d = filled maxU64 := by
  obtain ⟨n, hn, hlen, hop, hhist, hdoc, hhist₂, hdoc₂⟩ := run_adds (2 ^ 64 - 1) (by decide)
  rw [if_neg (by decide), show UInt64.ofNat (2 ^ 64 - 1) = maxU64 from rfl] at hdoc
  rw [← hlen] at hhist
  have hclosed : Closed n.log (n.hist (dev 2) ∪ n.hist (dev 1)) := by
    rw [hhist₂, hhist, Finset.empty_union]
    exact hn.closed_range
  have hmerge : (n.doc (dev 2)).merge .release (n.doc (dev 1)) = some (filled maxU64) := by
    rw [hdoc, hdoc₂]
    decide
  have hn₁ := hn.step (a := .publish (dev 1)) trivial rfl
  refine ⟨_, hn₁.deliver_last rfl hclosed hmerge, hlen, hop, fun d hd => ?_⟩
  rcases List.mem_cons.mp hd with rfl | hd
  · have hne : dev 1 ≠ dev 2 := by decide
    simp [hne, hhist, hdoc]
  · obtain rfl := List.mem_singleton.mp hd
    simp [hhist, hhist₂]

/-- One add more wraps the counter, and the other device loses the element. -/
theorem run_wrapped : ∃ n : Net DeviceId (SetOp ℕ) (AddWinsSet ℕ),
    Runs (replicated .release ℕ) Causal n ∧ 0 < n.log.length ∧
      (∀ ev ∈ n.log, ev.op = .add 7) ∧ n.hist (dev 2) = Finset.range n.log.length ∧
      (n.doc (dev 2)).contains 7 = false := by
  obtain ⟨n, hn, -, hop, hdev⟩ := run_snapshot
  obtain ⟨hhist, hdoc⟩ := hdev (dev 1) (by simp)
  obtain ⟨hhist₂, hdoc₂⟩ := hdev (dev 2) (by simp)
  have hne : dev 2 ≠ dev 1 := by decide
  have hlast : ((filled maxU64).add .release 7 (dev 1)).any (fun q =>
      ((filled maxU64).merge .release q.2).any fun m => !m.contains 7) = true := by decide
  obtain ⟨⟨s, δ⟩, hadd, hm⟩ := (Option.any_eq_true _ _).mp hlast
  obtain ⟨m, hm, hcon⟩ := (Option.any_eq_true _ _).mp hm
  rw [← hdoc] at hadd
  have hmut : (replicated .release ℕ).mutate (dev 1) (.add 7) (n.doc (dev 1)) = some (s, δ) := hadd
  have hn₁ := hn.step (a := .update (dev 1) (.add 7)) trivial (Net.update_eq hmut)
  have hmerge : (Function.update n.doc (dev 1) s (dev 2)).merge .release δ = some m := by
    rw [Function.update_of_ne hne, hdoc₂]
    exact hm
  -- the other device now has every operation in its history
  have hhist' : Function.update n.hist (dev 1) (insert n.log.length (n.hist (dev 1))) (dev 2) ∪
      {n.log.length} = Finset.range (n.log.length + 1) := by
    rw [Function.update_of_ne hne, hhist₂, Finset.union_comm, Finset.range_add_one]
    rfl
  have hclosed := hn₁.closed_range
  rw [List.length_append, List.length_singleton, ← hhist'] at hclosed
  refine ⟨_, hn₁.deliver_last rfl hclosed hmerge, by simp, fun ev hev => ?_, ?_, ?_⟩
  · rcases List.mem_append.mp hev with hev | hev
    · exact hop ev hev
    · rw [List.mem_singleton.mp hev]
  · rw [List.length_append, List.length_singleton, ← hhist']
    simp
  · simpa using hcon

/-- Without the bound presence is not observed-remove: after `2 ^ 64` adds by one device
and no removal at all, another lacks the element. -/
theorem not_contains_iff_history : ¬ ∀ (p : Profile) (n : Net DeviceId (SetOp ℕ) (AddWinsSet ℕ)),
    Runs (replicated p ℕ) Causal n → ∀ (r : DeviceId) (e : ℕ), (n.doc r).contains e = true ↔
      ∃ i ∈ n.hist r, ∃ ev, n.log[i]? = some ev ∧ ev.op = .add e ∧
        ∀ j ∈ n.hist r, ∀ ev', n.log[j]? = some ev' → ev'.op = .remove e → i ∉ ev'.past := by
  intro hall
  obtain ⟨n, hn, hlen, hop, hhist, hcon⟩ := run_wrapped
  obtain ⟨ev, hev⟩ : ∃ ev, n.log[0]? = some ev := ⟨_, List.getElem?_eq_getElem hlen⟩
  have hmem : 0 ∈ n.hist (dev 2) := by
    rw [hhist]
    exact Finset.mem_range.mpr hlen
  have htrue := (hall .release n hn (dev 2) 7).mpr
    ⟨0, hmem, ev, hev, hop ev (List.mem_of_getElem? hev), fun j _ ev' hev' hrem => by
      rw [hop ev' (List.mem_of_getElem? hev')] at hrem
      cases hrem⟩
  rw [hcon] at htrue
  cases htrue

/-! ## Removals under free delivery -/

/-- The dots that the delta of a removal has observed: those active at the remover,
and counter `0` with the first counter of a device. -/
theorem remove_delta_contains {p : Profile} {s s' δ : AddWinsSet E} {e : E} {x : Dot}
    (hlen : (s.dots e).len < 2 ^ 64) (h : s.remove p e = some (s', δ)) :
    δ.ctx.contains x = true ↔
      x ∈ s.dots e ∨ x.counter = 0 ∧ Dot.new x.device 1 ∈ s.dots e := by
  obtain ⟨hc, -, -⟩ := remove_eq_some.mp h
  have hroom : Room p .new (s.dots e).toList := fun _ d => by
    obtain ⟨k, hk⟩ := exists_not_mem_of_length_lt hlen d
    exact ⟨k, by simp, BTreeSet.not_mem_empty _, hk⟩
  have hspec := insertAll_spec canonical_new.compact hroom hc
  rw [hspec.contains, BTreeSet.mem_toList, BTreeSet.mem_toList]
  exact or_iff_right fun hx => by cases hx

/-- **What a removal takes away elsewhere.** A replica that merges the delta of a removal
loses the element exactly if each dot it holds for it was still active at the remover. A dot
that the remover had seen, and superseded by an add or withdrawn by an earlier removal, stays.
(A wrapped counter `0` goes with counter `1`.) -/
theorem merge_remove_delta (p : Profile) (n : Net DeviceId (SetOp E) (AddWinsSet E))
    (hn : Runs (replicated p E) Free n) (r : DeviceId) (i : ℕ)
    (ev : Event DeviceId (SetOp E) (AddWinsSet E)) (e : E) (hev : n.log[i]? = some ev)
    (hop : ev.op = .remove e) (hlen : (ev.pre.dots e).len < 2 ^ 64) :
    ∃ m, (n.doc r).merge p ev.delta = some m ∧ (m.contains e = false ↔
      ∀ x ∈ (n.doc r).dots e,
        x ∈ ev.pre.dots e ∨ x.counter = 0 ∧ Dot.new x.device 1 ∈ ev.pre.dots e) := by
  obtain ⟨q, hq⟩ := hn.performed hev
  obtain ⟨s', hmut⟩ := hq.mutate
  rw [hop] at hmut
  have hδ : ∀ x, x ∉ ev.delta.dots e := fun x => by
    obtain ⟨-, -, he⟩ := remove_eq_some.mp hmut
    rw [dots, he]
    exact BTreeSet.not_mem_empty x
  obtain ⟨m, hm⟩ : ∃ m, (n.doc r).merge p ev.delta = some m := by
    cases p with
    | dev =>
      exact Presence.merge_isSome (v := presence .dev E) hn (.inl rfl) (.replica r) (.delta hev)
    | release => exact merge_release (n.doc r) ev.delta
  refine ⟨m, hm, ?_⟩
  have hmem : ∀ x, x ∈ m.dots e ↔ x ∈ (n.doc r).dots e ∧
      ¬ (x ∈ ev.pre.dots e ∨ x.counter = 0 ∧ Dot.new x.device 1 ∈ ev.pre.dots e) := fun x => by
    rw [mem_dots_merge hm, ← remove_delta_contains hlen hmut]
    have := hδ x
    tauto
  rw [← Bool.not_eq_true, contains_iff_of_nonempty fun ds => nonempty_merge hm]
  simp only [hmem, not_exists, not_and, not_not]

/-- Device 1 adds an element twice and removes it; device 2 has only heard of the first add. -/
def superseded : List (Action DeviceId (SetOp ℕ)) :=
  [.update (dev 1) (.add 7), .update (dev 1) (.add 7), .update (dev 1) (.remove 7),
    .deliver (dev 2) 1]

/-- Device 3 holds the active dot, and loses the element. -/
theorem merge_remove_delta_active : ∃ n : Net DeviceId (SetOp ℕ) (AddWinsSet ℕ),
    Runs (replicated .dev ℕ) Free n ∧ ∃ ev m, n.log[2]? = some ev ∧
      (n.doc (dev 3)).merge .dev ev.delta = some m ∧ m.contains 7 = false := by
  have h : ((Net.init (replicated .dev ℕ)).exec (replicated .dev ℕ) Free
      (superseded ++ [.deliver (dev 3) 2])).any (fun n => (n.log[2]?).any fun ev =>
        ev.op = .remove 7 ∧ (ev.pre.dots 7).len < 2 ^ 64 ∧
          ∀ x ∈ ((n.doc (dev 3)).dots 7).toList, x ∈ ev.pre.dots 7) = true := by decide
  obtain ⟨n, hexec, h⟩ := (Option.any_eq_true _ _).mp h
  obtain ⟨ev, hev, h⟩ := (Option.any_eq_true _ _).mp h
  obtain ⟨hop, hlen, hdots⟩ := of_decide_eq_true h
  have hn := Runs.init.exec hexec
  obtain ⟨m, hm, hiff⟩ := merge_remove_delta .dev n hn (dev 3) 2 ev 7 hev hop hlen
  exact ⟨n, hn, ev, m, hev, hm, hiff.mpr fun x hx => .inl (hdots x (BTreeSet.mem_toList.mpr hx))⟩

/-- Device 2 knows of no add that the remover had not seen, and keeps the element. -/
theorem not_merge_remove_delta : ¬ ∀ (p : Profile) (n : Net DeviceId (SetOp ℕ) (AddWinsSet ℕ)),
    Runs (replicated p ℕ) Free n → ∀ (r : DeviceId) (i : ℕ)
      (ev : Event DeviceId (SetOp ℕ) (AddWinsSet ℕ)) (e : ℕ), n.log[i]? = some ev →
      ev.op = .remove e → (∀ x ∈ (n.doc r).dots e, ev.pre.ctx.contains x = true) →
      ∃ m, (n.doc r).merge p ev.delta = some m ∧ m.contains e = false := by
  intro hall
  have h : ((Net.init (replicated .dev ℕ)).exec (replicated .dev ℕ) Free superseded).any
      (fun n => (n.log[2]?).any fun ev =>
        (ev.op = .remove 7 ∧ ∀ x ∈ ((n.doc (dev 2)).dots 7).toList, ev.pre.ctx.contains x = true) ∧
          ((n.doc (dev 2)).merge .dev ev.delta).all (fun m => m.contains 7) = true) = true := by
    decide
  obtain ⟨n, hexec, h⟩ := (Option.any_eq_true _ _).mp h
  obtain ⟨ev, hev, h⟩ := (Option.any_eq_true _ _).mp h
  obtain ⟨⟨hop, hsaw⟩, hkeep⟩ := of_decide_eq_true h
  obtain ⟨m, hm, hlost⟩ := hall .dev n (Runs.init.exec hexec) (dev 2) 2 ev 7 hev hop
    fun x hx => hsaw x (BTreeSet.mem_toList.mpr hx)
  rw [hm, Option.all_some, hlost] at hkeep
  cases hkeep

end RealmGuard.AddWinsSet
