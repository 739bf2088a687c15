import RealmGuard.ObservedRemove

/-!
# Contexts under causal delivery

A document with a closed history has observed, of each device, the dots up to
some counter: its context is a version vector with no cloud (`dc_eq_empty`). Of
the dots a device made for an element at most one is active
(`dots_eq_of_device`), since a device supersedes what it finds active, and what
it does not find active is dead in its past.
-/

namespace RealmGuard.Presence

open Lib DotContext AddWinsSet

variable {Op S : Type} {p : Profile} {T : DeltaType DeviceId Op S} {E : Type} [LinearOrder E]
  {v : Presence p T E} {n : Net DeviceId Op S} {i j : ℕ} {x y : Dot} {e e' : E}
  {ev : Event DeviceId Op S} {t : S} {h : Finset ℕ}

/-- An operation makes one dot. -/
theorem Labels.dot_unique {log : List (Event DeviceId Op S)} (hl : v.Labels log)
    (hx : v.Made log i x e) (hy : v.Made log i y e') : x = y := by
  obtain ⟨ev, hev, hk, hx⟩ := hx
  obtain ⟨ev', hev', hk', hy⟩ := hy
  obtain rfl := Option.some.inj (hev.symm.trans hev')
  obtain rfl := SetOp.add.inj (Option.some.inj (hk.symm.trans hk'))
  obtain ⟨z, s', -, hspec⟩ := hl.spec hev hk
  rw [(hspec.mem_delta_dots.mp hx).2, (hspec.mem_delta_dots.mp hy).2]

variable (hn : Runs T Causal n) (hw : v.NoWrap n.log)
include hn hw

/-- A device counts its dots. -/
theorem counter_lt_of_past (hi : v.Made n.log i x e) (hj : v.Made n.log j y e')
    (hd : x.device = y.device) (hev : n.log[j]? = some ev) (hpast : i ∈ ev.past) :
    x.counter < y.counter := by
  obtain ⟨ev', hev', hk, hy⟩ := hj
  obtain rfl := Option.some.inj (hev.symm.trans hev')
  obtain ⟨z, s', -, hspec⟩ := (labels hn hw).spec hev hk
  obtain rfl := (hspec.mem_delta_dots.mp hy).2
  have hold : n.Holds ev.pre ev.past := .pre (List.mem_of_getElem? hev)
  have hseen : Dot.new y.device x.counter ∈ (v.view ev.pre).ctx.observed := by
    rw [← hd]
    exact (sound hn hw hold).known hpast hi
  have hle := le_top hseen
  have hc := hspec.counter
  rw [UInt64.le_iff_toNat_le] at hle
  rw [UInt64.lt_iff_toNat_lt]
  omega

/-- Of two adds of a device one lies in the past of the other. -/
theorem own_order (hi : v.Made n.log i x e) (hj : v.Made n.log j y e')
    (hd : x.device = y.device) (hne : i ≠ j) :
    (∃ ev, n.log[j]? = some ev ∧ i ∈ ev.past) ∨ ∃ ev, n.log[i]? = some ev ∧ j ∈ ev.past := by
  have hl := labels hn hw
  obtain ⟨ev, hev, -⟩ := id hi
  obtain ⟨ev', hev', -⟩ := id hj
  have hdev : ev.device = ev'.device := by rw [hl.device hi hev, hl.device hj hev', hd]
  rcases Nat.lt_or_gt_of_ne hne with hlt | hlt
  · exact .inl ⟨ev', hev', hn.own_past hev hev' hdev hlt⟩
  · exact .inr ⟨ev, hev, hn.own_past hev' hev hdev.symm hlt⟩

/-- A closed history has the earlier adds of a device. -/
theorem mem_of_counter_lt (hc : Closed n.log h) (hi : v.Made n.log i x e)
    (hj : v.Made n.log j y e') (hd : x.device = y.device) (hlt : x.counter < y.counter)
    (hjh : j ∈ h) : i ∈ h := by
  have hne : i ≠ j := by
    rintro rfl
    exact hlt.ne (congrArg Dot.counter ((labels hn hw).dot_unique hi hj))
  rcases own_order hn hw hi hj hd hne with ⟨ev, hev, hpast⟩ | ⟨ev, hev, hpast⟩
  · exact hc j hjh ev hev hpast
  · exact absurd (counter_lt_of_past hn hw hj hi hd.symm hev hpast) (not_lt_of_ge hlt.le)

/-- The counters observed of a device have no gap. -/
theorem mem_observed_of_le (ht : n.Holds t h) (hc : Closed n.log h)
    (hx : x ∈ (v.view t).ctx.observed) {k : UInt64} (h0 : 0 < k) (hk : k ≤ x.counter) :
    Dot.new x.device k ∈ (v.view t).ctx.observed := by
  obtain ⟨i, e, hi⟩ := (sound hn hw ht).made hx
  obtain ⟨j, e', hj⟩ := (labels hn hw).down hi h0 hk
  have hih : i ∈ h := (mem_observed_iff_mem hn hw ht hc hi).mp hx
  rcases lt_or_eq_of_le hk with hlt | rfl
  · exact (sound hn hw ht).known (mem_of_counter_lt hn hw hc hj hi rfl hlt hih) hj
  · exact hx

/-- **The context is a version vector.** -/
theorem dc_eq_empty (ht : n.Holds t h) (hc : Closed n.log h) :
    (v.view t).ctx.dc = .empty := by
  have hcan := (sound hn hw ht).wellFormed.canonical
  refine BTreeSet.ext fun x => iff_of_false (fun hx => ?_) (BTreeSet.not_mem_empty x)
  have hgap := hcan.gap x hx
  have hlt := x.counter.toNat_lt
  have hr : ((v.view t).ctx.run x.device).toNat + 1 < 2 ^ 64 := by omega
  have hsucc := toNat_add_one hr
  have hle : (v.view t).ctx.run x.device + 1 ≤ x.counter := by
    rw [UInt64.le_iff_toNat_le]
    omega
  have hobs := mem_observed_of_le hn hw ht hc (mem_observed.mpr ⟨hcan.dc_pos hx, .inr hx⟩)
    (pos_add_one hr) hle
  rcases (mem_observed.mp hobs).2 with hcov | hdc
  · rw [UInt64.le_iff_toNat_le] at hcov
    change ((v.view t).ctx.run x.device + 1).toNat ≤ ((v.view t).ctx.run x.device).toNat at hcov
    omega
  · have hg := hcan.gap _ hdc
    change ((v.view t).ctx.run x.device).toNat + 2 ≤ ((v.view t).ctx.run x.device + 1).toNat at hg
    omega

/-- An add kills the dots of its element made in its past. -/
theorem dots_eq_of_past (ht : n.Holds t h) (hc : Closed n.log h) (hx : x ∈ (v.view t).dots e)
    (hi : v.Made n.log i x e) (hj : v.Made n.log j y e) (hjh : j ∈ h) (hev : n.log[j]? = some ev)
    (hpast : i ∈ ev.past) : x = y := by
  have hpos := hi.pos hn hw
  obtain ⟨-, hlive⟩ := (mem_dots_iff hn hw ht hpos).mp hx
  obtain ⟨ev', hev', hk, hy⟩ := hj
  obtain rfl := Option.some.inj (hev.symm.trans hev')
  obtain ⟨z, s', -, hspec⟩ := (labels hn hw).spec hev hk
  have hold : n.Holds ev.pre ev.past := .pre (List.mem_of_getElem? hev)
  have hpre : x ∈ (v.view ev.pre).dots e := by
    obtain ⟨ev₀, hev₀, -, hx₀⟩ := hi
    refine (mem_dots_iff hn hw hold hpos).mpr ⟨⟨i, hpast, ev₀, hev₀, hx₀⟩, ?_⟩
    intro k hk ev' hev' hx'
    exact hlive k (hc j hjh ev hev hk) ev' hev' hx'
  have hmem := hlive j hjh ev hev ((hspec.delta_observed x).mpr (.inr hpre))
  rw [(hspec.mem_delta_dots.mp hmem).2, (hspec.mem_delta_dots.mp hy).2]

/-- **At most one dot of a device is active for an element.** -/
theorem dots_eq_of_device (ht : n.Holds t h) (hc : Closed n.log h)
    (hx : x ∈ (v.view t).dots e) (hy : y ∈ (v.view t).dots e) (hd : x.device = y.device) :
    x = y := by
  have hs := sound hn hw ht
  obtain ⟨i, hi⟩ := hs.owner hx
  obtain ⟨j, hj⟩ := hs.owner hy
  have hih := (mem_observed_iff_mem hn hw ht hc hi).mp (hs.seen hx)
  have hjh := (mem_observed_iff_mem hn hw ht hc hj).mp (hs.seen hy)
  by_cases hij : i = j
  · subst hij
    exact (labels hn hw).dot_unique hi hj
  · rcases own_order hn hw hi hj hd hij with ⟨ev, hev, hpast⟩ | ⟨ev, hev, hpast⟩
    · exact dots_eq_of_past hn hw ht hc hx hi hj hjh hev hpast
    · exact (dots_eq_of_past hn hw ht hc hy hj hi hih hev hpast).symm

end RealmGuard.Presence
