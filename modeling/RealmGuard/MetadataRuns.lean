import RealmGuard.WrappedCounter

/-!
# The size of causal metadata

Where replicas merge full states of each other and deltas in causal order, every
context is a version vector and every entry holds at most one dot of each device
(`metadata_per_device`), whatever the number of operations. As long as no counter
wraps this is a property of closed histories (`Presence.dc_eq_empty`,
`Presence.dots_eq_of_device`). Any run of a release build has a shadow, in which
each wrapped add is a removal and no counter wraps (`shadowed`).
-/

namespace RealmGuard

open Lib DotContext AddWinsSet

namespace VaultDoc

variable {V : Type} [LinearOrder V] {n n' : DocNet V} {s t s' t' δ η : VaultDoc V}
  {d : DeviceId} {op : DocOp V}

/-! ## One operation -/

/-- Without a cloud the largest counter is the prefix. -/
theorem run_eq_max_of_top {c : DotContext} (hdc : c.dc = .empty) (h : c.top d = maxU64) :
    c.run d = maxU64 := by
  rcases c.top_eq_zero_or_mem d with h0 | hm
  · exact absurd (h.symm.trans h0) (by decide)
  · rw [h, mem_observed] at hm
    rcases hm.2 with hle | hmem
    · exact le_antisymm (le_maxU64 _) hle
    · rw [hdc] at hmem
      exact absurd hmem (BTreeSet.not_mem_empty _)

/-- The shadow of an operation is an operation of the shadow, and an add only below the limit. -/
theorem shadow_mutate (hs : Shadow ∅ s.entries t.entries) (hdc : t.entries.ctx.dc = .empty)
    (hone : OneDot t.entries) (h : (replicated .release V).mutate d op s = some (s', δ)) :
    ∃ op' t' η, (replicated .release V).mutate d op' t = some (t', η) ∧
      Shadow ∅ s'.entries t'.entries ∧ Shadow s.entries.ctx.observed δ.entries η.entries ∧
      ∀ id, (presence .release V).kind op' = some (.add id) → t.entries.ctx.top d ≠ maxU64 := by
  have hone' := hs.oneDot hone
  cases op with
  | addEntry id =>
    obtain ⟨hadd, -, -⟩ := addEntry_eq_some.mp h
    by_cases htop : s.entries.ctx.top d = maxU64
    · have hrun := run_eq_max_of_top (hs.ctx ▸ hdc) htop
      obtain ⟨t', η, ht, hs', hδ⟩ := shadow_wrapped hs hone' hrun hadd
      exact ⟨.removeEntry id, ⟨t', t.fields⟩, ⟨η, .empty⟩, removeEntry_eq_some.mpr ⟨ht, rfl, rfl⟩,
        hs', hδ, fun _ hk => by cases hk⟩
    · obtain ⟨t', η, ht, hs', hδ⟩ := shadow_add hs hone' htop hadd
      exact ⟨.addEntry id, ⟨t', t.fields⟩, ⟨η, .empty⟩, addEntry_eq_some.mpr ⟨ht, rfl, rfl⟩,
        hs', hδ, fun _ _ => hs.ctx ▸ htop⟩
  | removeEntry id =>
    obtain ⟨hrem, -, -⟩ := removeEntry_eq_some.mp h
    obtain ⟨t', η, ht, hs', hδ⟩ := shadow_remove hs hone' hrem
    exact ⟨.removeEntry id, ⟨t', t.fields⟩, ⟨η, .empty⟩, removeEntry_eq_some.mpr ⟨ht, rfl, rfl⟩,
      hs', hδ, fun _ hk => by cases hk⟩
  | setField id f v ts =>
    obtain ⟨rfl, rfl⟩ := Prod.mk.inj (Option.some.inj h)
    refine ⟨.setField id f v ts, _, _, rfl, hs, ?_, fun _ hk => by cases hk⟩
    exact { shadow_new with
      zero_dc := fun _ hx => (BTreeSet.not_mem_empty _ hx).elim
      zero := fun _ _ hx => (BTreeSet.not_mem_empty _ hx).elim }

/-! ## The shadow of a run -/

/-- The run `n'` without wrapped counters that goes along with `n`. -/
structure Shadowed (n n' : DocNet V) : Prop where
  run : Runs (replicated .release V) Causal n'
  hist : n'.hist = n.hist
  past : n'.log.map Event.past = n.log.map Event.past
  adds : ∀ d, (presence .release V).adds n'.log d ≤ ((n'.doc d).entries.ctx.top d).toNat
  doc : ∀ d, Shadow ∅ (n.doc d).entries (n'.doc d).entries
  length : n'.pool.length = n.pool.length
  pool : ∀ (i : ℕ) (m m' : Message (VaultDoc V)), n.pool[i]? = some m → n'.pool[i]? = some m' →
    m'.hist = m.hist ∧ ∃ seen, Shadow seen m.doc.entries m'.doc.entries ∧
      (seen = ∅ ∨ ∃ j ev', m.hist = {j} ∧ n'.log[j]? = some ev' ∧
        seen = ev'.pre.entries.ctx.observed)

theorem Shadowed.noWrap (h : Shadowed n n') : (presence .release V).NoWrap n'.log :=
  .inr fun d => (h.adds d).trans_lt (UInt64.toNat_lt _)

theorem Shadowed.dc_eq_empty (h : Shadowed n n') (d : DeviceId) :
    (n'.doc d).entries.ctx.dc = .empty :=
  Presence.dc_eq_empty h.run h.noWrap (.replica d) (h.run.closed.1 d)

theorem Shadowed.oneDot (h : Shadowed n n') (d : DeviceId) : OneDot (n'.doc d).entries :=
  fun _ _ hx _ hy hd =>
    Presence.dots_eq_of_device h.run h.noWrap (.replica d) (h.run.closed.1 d) hx hy hd

/-- What an operation found observed, a replica that takes its delta has observed. -/
theorem Shadowed.seen_subset (h : Shadowed n n') {r : DeviceId} {m : Message (VaultDoc V)}
    {seen : Set Dot} (hc : Closed n.log (n.hist r ∪ m.hist))
    (hseen : seen = ∅ ∨ ∃ j ev', m.hist = {j} ∧ n'.log[j]? = some ev' ∧
      seen = ev'.pre.entries.ctx.observed) : seen ⊆ (n.doc r).entries.ctx.observed := by
  rcases hseen with rfl | ⟨j, ev', hj, hev', rfl⟩
  · exact Set.empty_subset _
  · intro x hx
    have hold : n'.Holds ev'.pre ev'.past := .pre (List.mem_of_getElem? hev')
    obtain ⟨i, id, hm⟩ := (Presence.sound h.run h.noWrap hold).made hx
    have hi : i ∈ ev'.past := (Presence.mem_observed_iff_mem h.run h.noWrap hold
      (h.run.closed.2 j ev' hev') hm).mp hx
    have hmem : i ∈ n.hist r ∪ m.hist :=
      hc.congr h.past j (Finset.mem_union_right _ (hj ▸ Finset.mem_singleton_self j)) ev' hev' hi
    rw [hj, Finset.mem_union, Finset.mem_singleton] at hmem
    have hir : i ∈ n'.hist r := by
      rw [h.hist]
      exact hmem.resolve_right (h.run.past_lt hev' i hi).ne
    rw [(h.doc r).observed]
    exact (Presence.sound h.run h.noWrap (.replica r)).known hir hm

theorem shadowed_init : Shadowed (Net.init (replicated .release V))
    (Net.init (replicated .release V)) where
  run := .init
  hist := rfl
  past := rfl
  adds _ := Nat.zero_le _
  doc _ := shadow_new
  length := rfl
  pool i m m' hm hm' := by
    obtain rfl := Option.some.inj (hm.symm.trans hm')
    obtain rfl := List.mem_singleton.mp (List.mem_of_getElem? hm)
    exact ⟨rfl, ∅, shadow_new, .inl rfl⟩

/-- The pool after a message is sent along with its shadow. -/
theorem Shadowed.pool_snoc (h : Shadowed n n') {log' : List (DocEvent V)}
    (hlog : ∀ (j : ℕ) ev', n'.log[j]? = some ev' → log'[j]? = some ev')
    {m₀ m₀' : Message (VaultDoc V)} (hhist : m₀'.hist = m₀.hist) {seen : Set Dot}
    (hm₀ : Shadow seen m₀.doc.entries m₀'.doc.entries)
    (hseen : seen = ∅ ∨ ∃ j ev', m₀.hist = {j} ∧ log'[j]? = some ev' ∧
      seen = ev'.pre.entries.ctx.observed) (i : ℕ) (m m' : Message (VaultDoc V))
    (hm : (n.pool ++ [m₀])[i]? = some m) (hm' : (n'.pool ++ [m₀'])[i]? = some m') :
    m'.hist = m.hist ∧ ∃ seen, Shadow seen m.doc.entries m'.doc.entries ∧
      (seen = ∅ ∨ ∃ j ev', m.hist = {j} ∧ log'[j]? = some ev' ∧
        seen = ev'.pre.entries.ctx.observed) := by
  have hlt : ∀ {l : List (Message (VaultDoc V))} {a : Message (VaultDoc V)}, l[i]? = some a →
      i < l.length := fun ha => (List.getElem?_eq_some_iff.mp ha).1
  rcases getElem?_snoc_iff.mp hm with hm | ⟨rfl, rfl⟩ <;>
    rcases getElem?_snoc_iff.mp hm' with hm' | ⟨hi, rfl⟩
  · obtain ⟨hh, seen, hsh, hs⟩ := h.pool i m m' hm hm'
    refine ⟨hh, seen, hsh, hs.imp_right ?_⟩
    rintro ⟨j, ev', hj, hev', rfl⟩
    exact ⟨j, ev', hj, hlog j ev' hev', rfl⟩
  · have := hlt hm
    have := h.length
    omega
  · have := hlt hm'
    have := h.length
    omega
  · exact ⟨hhist, seen, hm₀, hseen⟩

theorem Shadowed.update (h : Shadowed n n') {d : DeviceId} {op : DocOp V} {m : DocNet V}
    (hs : n.step (replicated .release V) (.update d op) = some m) : ∃ m', Shadowed m m' := by
  obtain ⟨s, δ, hmut, rfl⟩ := Net.step_update hs
  obtain ⟨op', t, η, hmut', hst, hδη, htop⟩ :=
    shadow_mutate (h.doc d) (h.dc_eq_empty d) (h.oneDot d) hmut
  have hwf := wellFormed_of_holds h.run h.noWrap (.replica d)
  have hlen : n'.log.length = n.log.length := by
    rw [← List.length_map Event.past, h.past, List.length_map]
  refine ⟨_, h.run.step (a := .update d op') trivial (Net.update_eq hmut'), ?_, ?_, fun d' => ?_,
    fun d' => ?_, ?_, ?_⟩
  · rw [h.hist, hlen]
  · simp [h.past, h.hist]
  · show (presence .release V).adds (n'.log ++ [_]) d' ≤ _
    by_cases hd : d' = d
    · subst hd
      have hroom : ∀ id, (presence .release V).kind op' = some (.add id) → Profile.release = .dev ∨
          ((n'.doc d').entries.ctx.top d').toNat + 1 < 2 ^ 64 := fun id hk =>
        .inr (toNat_add_one_lt (htop id hk))
      have hle : (presence .release V).adds (n'.log ++ [⟨d', op', n'.hist d', n'.doc d', η⟩]) d' ≤
          (t.entries.ctx.top d').toNat :=
        Presence.adds_le_top_mutate (v := presence .release V) hwf hroom hmut' (h.adds d')
      simpa using hle
    · rw [Presence.adds_snoc_of_device_ne (Ne.symm hd)]
      simpa [hd] using h.adds d'
  · by_cases hd : d' = d
    · subst hd
      simpa using hst
    · simpa [hd] using h.doc d'
  · simp [h.length]
  · refine h.pool_snoc (fun j ev' hev' => getElem?_snoc_iff.mpr (.inl hev')) (by rw [hlen]) hδη
      (.inr ⟨n.log.length, _, rfl, getElem?_snoc_iff.mpr (.inr ⟨hlen.symm, rfl⟩), ?_⟩)
    exact (h.doc d).observed

theorem Shadowed.publish (h : Shadowed n n') {d : DeviceId} {m : DocNet V}
    (hs : n.step (replicated .release V) (.publish d) = some m) : ∃ m', Shadowed m m' := by
  obtain rfl := Net.step_publish hs
  refine ⟨_, h.run.step (a := .publish d) trivial rfl, h.hist, h.past, h.adds, h.doc, ?_, ?_⟩
  · simp [h.length]
  · refine h.pool_snoc (fun _ _ hev' => hev') ?_ (h.doc d) (.inl rfl)
    rw [h.hist]

theorem Shadowed.deliver (h : Shadowed n n') {d : DeviceId} {i : ℕ} {m : DocNet V}
    (ha : Causal n (.deliver d i)) (hs : n.step (replicated .release V) (.deliver d i) = some m) :
    ∃ m', Shadowed m m' := by
  obtain ⟨m, hm, s, hmerge, rfl⟩ := Net.step_deliver hs
  obtain ⟨m', hm'⟩ : ∃ m', n'.pool[i]? = some m' := by
    have hlt := (List.getElem?_eq_some_iff.mp hm).1
    exact ⟨_, List.getElem?_eq_getElem (h.length ▸ hlt)⟩
  obtain ⟨hhist, seen, hsh, hseen⟩ := h.pool i m m' hm hm'
  have hc := ha m hm
  obtain ⟨c, hc', hst⟩ := shadow_merge (h.doc d) hsh (h.seen_subset hc hseen)
    (merge_eq_some.mp hmerge).1
  obtain ⟨t, ht⟩ : ∃ t, (n'.doc d).merge .release m'.doc = some t := merge_release _ _
  obtain rfl : t.entries = c := Option.some.inj ((merge_eq_some.mp ht).1.symm.trans hc')
  refine ⟨_, h.run.step (a := .deliver d i) (fun m₁ hm₁ => ?_) (Net.deliver_eq hm' ht), ?_,
    h.past, fun d' => ?_, fun d' => ?_, h.length, h.pool⟩
  · obtain rfl := Option.some.inj (hm'.symm.trans hm₁)
    rw [h.hist, hhist]
    exact hc.congr h.past
  · rw [h.hist, hhist]
  · by_cases hd : d' = d
    · subst hd
      have hwf := wellFormed_of_holds h.run h.noWrap (.replica d')
      have hwf' := wellFormed_of_holds h.run h.noWrap (.message (List.mem_of_getElem? hm'))
      have hsub : (n'.doc d').observed ⊆ t.observed := by
        rw [hwf.observed_merge hwf' ht]
        exact Set.subset_union_left
      have hle := top_le_top hsub d'
      rw [UInt64.le_iff_toNat_le] at hle
      simpa using (h.adds d').trans hle
    · simpa [hd] using h.adds d'
  · by_cases hd : d' = d
    · subst hd
      simpa using hst
    · simpa [hd] using h.doc d'

/-- A step of the run is a step of its shadow. -/
theorem Shadowed.step (h : Shadowed n n') {a : Action DeviceId (DocOp V)} {m : DocNet V}
    (ha : CausalDirect n a) (hs : n.step (replicated .release V) a = some m) :
    ∃ m', Shadowed m m' := by
  cases a with
  | update d op => exact h.update hs
  | publish d => exact h.publish hs
  | combine i j => exact absurd ha id
  | deliver d i => exact h.deliver ha hs

/-- **Every run has a shadow that never wraps.** -/
theorem shadowed (hn : Runs (replicated .release V) CausalDirect n) : ∃ n', Shadowed n n' := by
  refine hn.invariant (P := fun n => ∃ n', Shadowed n n') ⟨_, shadowed_init⟩ ?_
  rintro n a m ⟨n', h⟩ hs
  exact h.step hs.1 hs.2

/-- **Causal metadata stays proportional to devices.** In every replica the context has no cloud,
and a present entry holds at most one dot of each device. -/
theorem metadata_per_device (p : Profile) (n : DocNet V) (hn : Runs (replicated p V) CausalDirect n)
    (r : DeviceId) : (n.doc r).entries.ctx.dc = .empty ∧
      ∀ id ds, (n.doc r).entries.entries.get? id = some ds →
        ∀ x ∈ ds, ∀ y ∈ ds, x.device = y.device → x = y := by
  have hone : OneDot (n.doc r).entries → ∀ id ds,
      (n.doc r).entries.entries.get? id = some ds → ∀ x ∈ ds, ∀ y ∈ ds, x.device = y.device →
        x = y := fun h id ds hds x hx y hy => by
    rw [← dots_eq_of_get? hds] at hx hy
    exact h id x hx y hy
  cases p with
  | dev =>
    have hc := hn.mono fun _ _ ha => ha.causal
    have hw : (presence .dev V).NoWrap n.log := .inl rfl
    refine ⟨Presence.dc_eq_empty hc hw (.replica r) (hc.closed.1 r), hone fun id x hx y hy hd => ?_⟩
    exact Presence.dots_eq_of_device hc hw (.replica r) (hc.closed.1 r) hx hy hd
  | release =>
    obtain ⟨n', h⟩ := shadowed hn
    refine ⟨?_, hone ((h.doc r).oneDot (h.oneDot r))⟩
    rw [(h.doc r).ctx]
    exact h.dc_eq_empty r

/-- Device 2 takes two deltas, removes and adds the entry; device 1 takes its full state. -/
def relayed : List (Action DeviceId (DocOp ℕ)) :=
  [.update (dev 1) (.addEntry (eid 1)), .update (dev 1) (.addEntry (eid 1)), .deliver (dev 2) 1,
    .deliver (dev 2) 2, .update (dev 2) (.removeEntry (eid 1)),
    .update (dev 2) (.addEntry (eid 1)), .update (dev 1) (.addEntry (eid 1)), .publish (dev 2),
    .deliver (dev 1) 6]

theorem metadata_per_device_relayed : ∃ n, Runs (replicated .release ℕ) CausalDirect n ∧
    ((n.doc (dev 1)).entries.dots (eid 1)).len = 2 ∧ (n.doc (dev 1)).entries.ctx.dc = .empty := by
  have h : ((Net.init (replicated .release ℕ)).exec (replicated .release ℕ) CausalDirect
      relayed).any (fun n => ((n.doc (dev 1)).entries.dots (eid 1)).len = 2) = true := by decide
  obtain ⟨n, hexec, h⟩ := (Option.any_eq_true _ _).mp h
  have hn := Runs.init.exec hexec
  exact ⟨n, hn, of_decide_eq_true h, (metadata_per_device .release n hn (dev 1)).1⟩

end VaultDoc

end RealmGuard
