import RealmGuard.Presence

/-!
# Presence in runs

The invariant of `Presence` holds of every run (`sound`), and the dot kernel of
every document is the join of the kernels of the deltas in its history
(`kernel_eq_join`). From there on a document's active dots are a matter of its
history alone: `mem_dots_iff` and `mem_observed_iff`.
-/

namespace RealmGuard.Presence

open Lib DotContext AddWinsSet

variable {Op S : Type} {p : Profile} {T : DeltaType DeviceId Op S} {E : Type} [LinearOrder E]
  {v : Presence p T E} {ok : Net DeviceId Op S → Action DeviceId Op → Prop}
  {n : Net DeviceId Op S}

/-- An operation keeps the invariant. -/
theorem step_sound {d : DeviceId} {op : Op} {s δ : S} (hn : Runs T ok n)
    (hw : v.NoWrap (n.log ++ [⟨d, op, n.hist d, n.doc d, δ⟩])) (hl : v.Labels n.log)
    (hs : v.Sound n.log (n.hist d) (v.view (n.doc d)))
    (hm : T.mutate d op (n.doc d) = some (s, δ)) :
    v.Labels (n.log ++ [⟨d, op, n.hist d, n.doc d, δ⟩]) ∧
      v.Sound (n.log ++ [⟨d, op, n.hist d, n.doc d, δ⟩]) (insert n.log.length (n.hist d))
        (v.view s) ∧
      v.Sound (n.log ++ [⟨d, op, n.hist d, n.doc d, δ⟩]) {n.log.length} (v.view δ) := by
  have hh := hn.hist_lt (.replica d)
  cases hk : v.kind op with
  | none =>
    obtain ⟨hs', hδ⟩ := v.other hk hm
    rw [hs', hδ]
    exact ⟨hl.snoc_of_ne (by simp [hk]), hs.snoc_other hh hk, sound_delta_other hk⟩
  | some k =>
    cases k with
    | add e =>
      have htop := hs.top_lt hl hk hw
      obtain ⟨x, hx, hspec, hfull⟩ := add_spec hs.wellFormed htop (v.add hk hm)
      have hown : ∀ i ev', n.log[i]? = some ev' → ev'.device = d → i ∈ n.hist d :=
        fun i ev' hev' hd => hd ▸ hn.own_mem hev'
      exact ⟨hl.snoc_add hs hown hk hx hspec hfull, hs.snoc_add hh hk hspec,
        hs.delta_add hh hk hspec⟩
    | remove e =>
      have hspec := remove_spec hs.wellFormed (v.remove hk hm)
      exact ⟨hl.snoc_of_ne (by simp [hk]), hs.snoc_remove hh hk hspec,
        hs.delta_remove hh hk hspec⟩

/-- The invariant holds of every document of every run. -/
theorem labels_sound (hn : Runs T ok n) (hw : v.NoWrap n.log) :
    ∀ t h, n.Holds t h → v.Labels n.log ∧ v.Sound n.log h (v.view t) := by
  refine fun t h ht => hn.holds
    (P := fun log t h => v.NoWrap log → v.Labels log ∧ v.Sound log h (v.view t)) ?_ ?_ ?_ t h ht hw
  · exact fun _ => ⟨labels_nil, v.init ▸ sound_new⟩
  · intro n a b c h h' _ _ _ ha hb hm hw
    obtain ⟨hl, ha⟩ := ha hw
    exact ⟨hl, ha.merge (hb hw).2 (v.merge hm)⟩
  · intro n n' d op s δ hn _ _ hm hlog ih
    rw [hlog]
    obtain hstep := fun hw : v.NoWrap (n.log ++ [⟨d, op, n.hist d, n.doc d, δ⟩]) =>
      step_sound hn hw (ih _ _ (.replica d) hw.of_snoc).1 (ih _ _ (.replica d) hw.of_snoc).2 hm
    refine ⟨fun hw => ⟨(hstep hw).1, (hstep hw).2.1⟩, fun hw => ⟨(hstep hw).1, (hstep hw).2.2⟩,
      fun t h ht hw => ⟨(hstep hw).1, ?_⟩⟩
    exact (ih t h ht hw.of_snoc).2.snoc (hn.hist_lt ht)

theorem labels (hn : Runs T ok n) (hw : v.NoWrap n.log) : v.Labels n.log :=
  (labels_sound hn hw _ _ (.replica (dev 0))).1

theorem sound (hn : Runs T ok n) (hw : v.NoWrap n.log) {t : S} {h : Finset ℕ}
    (ht : n.Holds t h) : v.Sound n.log h (v.view t) :=
  (labels_sound hn hw t h ht).2

/-- Merges of documents of a run return. -/
theorem merge_isSome (hn : Runs T ok n) (hw : v.NoWrap n.log) {a b : S} {h h' : Finset ℕ}
    (ha : n.Holds a h) (hb : n.Holds b h') : ∃ c, (v.view a).merge p (v.view b) = some c :=
  (labels hn hw).merge_isSome (sound hn hw ha) (sound hn hw hb)

/-- The device that made a dot has observed it. -/
theorem mem_maker (hn : Runs T ok n) (hw : v.NoWrap n.log) {i : ℕ} {x : Dot} {e : E}
    (hm : v.Made n.log i x e) : x ∈ (v.view (n.doc x.device)).ctx.observed := by
  obtain ⟨ev, hev, hrest⟩ := hm
  have hm : v.Made n.log i x e := ⟨ev, hev, hrest⟩
  refine (sound hn hw (.replica x.device)).known ?_ hm
  rw [← (labels hn hw).device hm hev]
  exact hn.own_mem hev

/-! ## What an operation did -/

theorem add_event (hn : Runs T ok n) (hw : v.NoWrap n.log) {i : ℕ} {ev : Event DeviceId Op S}
    {e : E} (hev : n.log[i]? = some ev) (hk : v.kind ev.op = some (.add e)) :
    ∃ x s', v.Made n.log i x e ∧ AddSpec (v.view ev.pre) e s' (v.view ev.delta) x := by
  obtain ⟨x, s', -, hspec⟩ := (labels hn hw).spec hev hk
  exact ⟨x, s', ⟨ev, hev, hk, hspec.mem_delta_dots.mpr ⟨rfl, rfl⟩⟩, hspec⟩

theorem remove_event (hn : Runs T ok n) (hw : v.NoWrap n.log) {i : ℕ}
    {ev : Event DeviceId Op S} {e : E} (hev : n.log[i]? = some ev)
    (hk : v.kind ev.op = some (.remove e)) :
    ∃ s', RemoveSpec (v.view ev.pre) e s' (v.view ev.delta) := by
  obtain ⟨m, hm⟩ := hn.performed hev
  obtain ⟨s, hmut⟩ := hm.mutate
  have hpre := sound hn hw (.pre (List.mem_of_getElem? hev))
  exact ⟨_, remove_spec hpre.wellFormed (v.remove hk hmut)⟩

theorem other_event (hn : Runs T ok n) {i : ℕ} {ev : Event DeviceId Op S}
    (hev : n.log[i]? = some ev) (hk : v.kind ev.op = none) :
    v.view ev.delta = .new := by
  obtain ⟨m, hm⟩ := hn.performed hev
  obtain ⟨s, hmut⟩ := hm.mutate
  exact (v.other hk hmut).2

/-! ## The kernel of a document -/

/-- An operation moves the set up by its delta. -/
theorem kernel_update {d : DeviceId} {op : Op} {s δ : S} (hn : Runs T ok n)
    (hw : v.NoWrap (n.log ++ [⟨d, op, n.hist d, n.doc d, δ⟩]))
    (hm : T.mutate d op (n.doc d) = some (s, δ)) :
    (v.view s).kernel = (v.view (n.doc d)).kernel ⊔ (v.view δ).kernel := by
  have hl := labels hn hw.of_snoc
  have hs := sound hn hw.of_snoc (.replica d)
  cases hk : v.kind op with
  | none =>
    obtain ⟨hs', hδ⟩ := v.other hk hm
    rw [hs', hδ, kernel_new, sup_bot_eq]
  | some k =>
    cases k with
    | add e =>
      have htop := hs.top_lt hl hk hw
      obtain ⟨x, -, hspec, -⟩ := add_spec hs.wellFormed htop (v.add hk hm)
      exact hspec.kernel (fun e' y hy => hs.seen hy) (hl.exclusive hs e)
    | remove e =>
      exact (remove_spec hs.wellFormed (v.remove hk hm)).kernel (hl.exclusive hs e)

/-- **The set a document holds is the join of its history's deltas.** -/
theorem kernel_eq_join (hn : Runs T ok n) (hw : v.NoWrap n.log) :
    ∀ t h, n.Holds t h → (v.view t).kernel = join T (fun s => (v.view s).kernel) n.log h := by
  refine hn.eq_join (C := v.NoWrap) (fun _ _ => NoWrap.of_snoc) ?_ ?_ ?_ hw
  · rw [v.init, kernel_new]
  · intro n a b c h h' hn hw ha hb hm
    exact ((sound hn hw ha).wellFormed.merge (sound hn hw hb).wellFormed (v.merge hm)).2
  · intro n d op s δ hn hw _ hm
    exact kernel_update hn hw hm

/-- A dot has been observed when some delta of the history carries it. -/
theorem mem_observed_iff (hn : Runs T ok n) (hw : v.NoWrap n.log) {t : S} {h : Finset ℕ}
    (ht : n.Holds t h) {x : Dot} : x ∈ (v.view t).ctx.observed ↔
      ∃ i ∈ h, ∃ ev, n.log[i]? = some ev ∧ x ∈ (v.view ev.delta).ctx.observed := by
  show x ∈ (v.view t).kernel.seen ↔ _
  rw [kernel_eq_join hn hw t h ht, join, DotKernel.mem_sup_seen]
  refine exists_congr fun i => and_congr_right fun hi => ?_
  obtain ⟨ev, hev⟩ : ∃ ev, n.log[i]? = some ev := ⟨_, List.getElem?_eq_getElem (hn.hist_lt ht i hi)⟩
  rw [deltaAt_eq hev]
  constructor
  · exact fun hx => ⟨ev, hev, hx⟩
  · rintro ⟨ev', hev', hx⟩
    obtain rfl := Option.some.inj (hev.symm.trans hev')
    exact hx

/-- A dot is active when some delta of the history has it active and none has it
observed but inactive. -/
theorem mem_dots_iff (hn : Runs T ok n) (hw : v.NoWrap n.log) {t : S} {h : Finset ℕ}
    (ht : n.Holds t h) {x : Dot} {e : E} (hx : 0 < x.counter) : x ∈ (v.view t).dots e ↔
      (∃ i ∈ h, ∃ ev, n.log[i]? = some ev ∧ x ∈ (v.view ev.delta).dots e) ∧
        ∀ i ∈ h, ∀ ev, n.log[i]? = some ev → x ∈ (v.view ev.delta).ctx.observed →
          x ∈ (v.view ev.delta).dots e := by
  have hlive : x ∈ (v.view t).dots e ↔ x ∈ (v.view t).kernel.live e := (and_iff_right hx).symm
  rw [hlive, kernel_eq_join hn hw t h ht, join, DotKernel.mem_sup_live]
  have hev : ∀ i ∈ h, ∃ ev, n.log[i]? = some ev := fun i hi =>
    ⟨_, List.getElem?_eq_getElem (hn.hist_lt ht i hi)⟩
  refine and_congr (exists_congr fun i => and_congr_right fun hi => ?_)
    (forall_congr' fun i => forall_congr' fun hi => ?_)
  · obtain ⟨ev, hev⟩ := hev i hi
    rw [deltaAt_eq hev, mem_kernel_live, and_iff_right hx]
    constructor
    · exact fun hx => ⟨ev, hev, hx⟩
    · rintro ⟨ev', hev', hx⟩
      obtain rfl := Option.some.inj (hev.symm.trans hev')
      exact hx
  · obtain ⟨ev, hev⟩ := hev i hi
    rw [deltaAt_eq hev, mem_kernel_live, and_iff_right hx]
    constructor
    · intro hx ev' hev'
      obtain rfl := Option.some.inj (hev.symm.trans hev')
      exact hx
    · exact fun hx => hx ev hev

end RealmGuard.Presence
