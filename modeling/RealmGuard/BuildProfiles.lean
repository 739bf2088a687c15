import RealmGuard.AddAfterMerge
import RealmGuard.DeltaMutators
import RealmGuard.Lib.Later

/-!
# Builds over whole runs

A build with overflow checks panics where an addition on a dot counter would wrap; a release
build goes on. The two go through the same systems exactly as long as no device adds
`2 ^ 64 - 1` times (`builds_agree`): below that a dev build never panics, whatever the
interleaving, since the counters of a run are those its devices drew (`adds_eq_top`).
-/

namespace RealmGuard

open Lib DotContext AddWinsSet

/-! ## The adds of a device are the counters it drew -/

namespace Presence

variable {Op S : Type} {p : Profile} {T : DeltaType DeviceId Op S} {E : Type} [LinearOrder E]
  {v : Presence p T E} {ok : Net DeviceId Op S → Action DeviceId Op → Prop}
  {n : Net DeviceId Op S}

/-- A device's own context counts its adds. -/
theorem adds_le_top (hn : Runs T ok n) (hw : v.NoWrap n.log) (d : DeviceId) :
    v.adds n.log d ≤ ((v.view (n.doc d)).ctx.top d).toNat := by
  induction hn with
  | refl => exact Nat.zero_le _
  | @step n n' a hn h ih =>
    obtain ⟨-, hs⟩ := h
    cases a with
    | update d' op =>
      obtain ⟨s, δ, hm, rfl⟩ := Net.step_update hs
      by_cases hd : d' = d
      · subst hd
        have hpre := sound hn hw.of_snoc (.replica d')
        have hroom : ∀ e, v.kind op = some (.add e) → _ := fun e hk =>
          hpre.top_lt (labels hn hw.of_snoc) hk hw
        simpa only [Function.update_self] using
          adds_le_top_mutate hpre.wellFormed hroom hm (ih hw.of_snoc)
      · rw [adds_snoc_of_device_ne hd]
        simpa only [Function.update_of_ne (Ne.symm hd)] using ih hw.of_snoc
    | publish d' =>
      obtain rfl := Net.step_publish hs
      exact ih hw
    | combine i j =>
      obtain ⟨a, -, b, -, s, -, rfl⟩ := Net.step_combine hs
      exact ih hw
    | deliver d' i =>
      obtain ⟨m, hm, s, hmerge, rfl⟩ := Net.step_deliver hs
      by_cases hd : d' = d
      · subst hd
        have ha := sound hn hw (.replica d')
        have hb := sound hn hw (.message (List.mem_of_getElem? hm))
        have hkernel := (ha.wellFormed.merge hb.wellFormed (v.merge hmerge)).2
        have hobs : (v.view s).ctx.observed = (v.view (n.doc d')).ctx.observed ∪
            (v.view m.doc).ctx.observed := congrArg DotKernel.seen hkernel
        have hle := top_le_top (hobs ▸ Set.subset_union_left) d'
        simpa only [Function.update_self] using
          (ih hw).trans (UInt64.le_iff_toNat_le.mp hle)
      · simpa only [Function.update_of_ne (Ne.symm hd)] using ih hw

/-- **The counters a device drew are its adds.** -/
theorem adds_eq_top (hn : Runs T ok n) (hw : v.NoWrap n.log) (d : DeviceId) :
    v.adds n.log d = ((v.view (n.doc d)).ctx.top d).toNat :=
  (adds_le_top hn hw d).antisymm ((sound hn hw (.replica d)).top_le (labels hn hw) d)

end Presence

namespace AddWinsSet

variable {E : Type} [LinearOrder E]

theorem agree_remove (s : AddWinsSet E) (e : E) : Agree fun p => s.remove p e :=
  (agree_insertAll .new (s.dots e)).bind fun _ => agree_const _

/-- A removal overflows when the dots it carries complete a device. -/
theorem remove_overflows {s : AddWinsSet E} {e : E} :
    s.remove .dev e = none ↔ ∃ d, Full {y | y ∈ s.dots e} d := by
  have hrem : s.remove .dev e = none ↔ insertAll .dev .new (s.dots e) = none := by
    unfold remove
    cases insertAll .dev DotContext.new (s.dots e) <;> simp
  rw [hrem, insertAll, foldlM_insert_eq_none canonical_new.compact, observed_new]
  refine exists_congr fun d => ?_
  rw [and_iff_right fun hf : Full ∅ d => Set.notMem_empty _ (hf 1 (by decide)), Set.empty_union]
  exact full_congr fun k _ => BTreeSet.mem_toList

end AddWinsSet

namespace VaultDoc

variable {V : Type} [LinearOrder V] {n n' : DocNet V}

/-! ## A step -/

theorem agree_removeEntry (d : VaultDoc V) (id : EntryId) : Agree fun p => d.removeEntry p id :=
  (AddWinsSet.agree_remove d.entries id).bind fun _ => agree_const _

theorem agree_mutate (device : DeviceId) (op : DocOp V) (d : VaultDoc V) :
    Agree fun p => (replicated p V).mutate device op d :=
  match op with
  | .addEntry id => agree_addEntry d id device
  | .removeEntry id => agree_removeEntry d id
  | .setField .. => agree_const _

/-- A step of a dev build that does not panic is the step of a release build. -/
theorem agree_step (n : DocNet V) (a : Action DeviceId (DocOp V)) :
    Agree fun p => n.step (replicated p V) a :=
  match a with
  | .update d op => (agree_mutate d op (n.doc d)).bind fun _ => agree_const _
  | .publish _ => agree_const _
  | .combine i j => (agree_const n.pool[i]?).bind fun x => (agree_const n.pool[j]?).bind fun y =>
    (agree_merge x.doc y.doc).bind fun _ => agree_const _
  | .deliver d i => (agree_const n.pool[i]?).bind fun x =>
    (agree_merge (n.doc d) x.doc).bind fun _ => agree_const _

theorem noWrap_dev : (presence .dev V).NoWrap n.log := .inl rfl

section Dev

variable (hn : Runs (replicated .dev V) Free n)
include hn

/-- In a dev build no device ever adds `2 ^ 64 - 1` times. -/
theorem adds_lt_of_dev (d : DeviceId) : (presence .release V).adds n.log d < 2 ^ 64 - 1 := by
  have htop := Presence.adds_eq_top (v := presence .dev V) hn noWrap_dev d
  have hlast := last_not_mem hn noWrap_dev (.replica d) rfl d
  have hne : (n.doc d).entries.ctx.top d ≠ maxU64 := fun hmax => by
    rcases top_eq_zero_or_mem (n.doc d).entries.ctx d with h0 | hmem
    · rw [h0] at hmax
      cases hmax
    · exact hlast (hmax ▸ hmem)
  have hlt := toNat_add_one_lt hne
  show (presence .dev V).adds n.log d < 2 ^ 64 - 1
  rw [htop]
  show ((n.doc d).entries.ctx.top d).toNat < 2 ^ 64 - 1
  omega

/-- An add returns while its device has adds left. -/
theorem addEntry_dev_ne_none {d : DeviceId} (id : EntryId)
    (hadds : (presence .dev V).adds n.log d + 1 < 2 ^ 64 - 1) :
    (n.doc d).addEntry .dev id d ≠ none := by
  intro hnone
  have hw := noWrap_dev (n := n)
  have hs := Presence.sound (v := presence .dev V) hn hw (.replica d)
  have htop : ((n.doc d).entries.ctx.top d).toNat ≤ (presence .dev V).adds n.log d :=
    hs.top_le (Presence.labels hn hw) d
  have hne : (n.doc d).entries.ctx.top d ≠ maxU64 := fun hmax => by
    rw [hmax, maxU64_toNat] at htop
    omega
  -- the new counter is not the last one either
  have hnext : ∀ d', Dot.new d' maxU64 ≠ (n.doc d).entries.ctx.next d := fun d' he => by
    have hc : maxU64.toNat = ((n.doc d).entries.ctx.top d + 1).toNat :=
      congrArg (fun x : Dot => x.counter.toNat) he
    rw [toNat_add_one (toNat_add_one_lt hne), maxU64_toNat] at hc
    omega
  have hold : ∀ d', Dot.new d' maxU64 ∉ (n.doc d).entries.ctx.observed :=
    last_not_mem hn hw (.replica d) rfl
  rcases add_overflows.mp (addEntry_eq_none.mp hnone) with hmax | hfull | ⟨d', hfull⟩
  · exact hne hmax
  · exact (hfull maxU64 (by decide)).elim (hold d) (hnext d)
  · exact (hfull maxU64 (by decide)).elim (hnext d') fun hdot => hold d' (hs.seen hdot)

theorem removeEntry_dev_ne_none (d : DeviceId) (id : EntryId) :
    (n.doc d).removeEntry .dev id ≠ none := by
  intro hnone
  have hw := noWrap_dev (n := n)
  have hs := Presence.sound (v := presence .dev V) hn hw (.replica d)
  have hrem : (n.doc d).entries.remove .dev id = none := by
    cases h : (n.doc d).entries.remove .dev id with
    | none => rfl
    | some q => simp [removeEntry, h] at hnone
  obtain ⟨d', hfull⟩ := remove_overflows.mp hrem
  exact last_not_mem hn hw (.replica d) rfl d' (hs.seen (hfull maxU64 (by decide)))

/-- Where no device has reached its last add, a dev build takes the step of a release build. -/
theorem step_dev_of_release {a : Action DeviceId (DocOp V)}
    (hs : n.step (replicated .release V) a = some n')
    (hadds : ∀ d, (presence .release V).adds n'.log d < 2 ^ 64 - 1) :
    n.step (replicated .dev V) a = some n' := by
  have hw := noWrap_dev (n := n)
  suffices hreturns : ∃ m, n.step (replicated .dev V) a = some m by
    obtain ⟨m, hm⟩ := hreturns
    rw [hm]
    exact (agree_step n a .release m hm).symm.trans hs
  cases a with
  | update d op =>
    obtain ⟨s, δ, hm, rfl⟩ := Net.step_update hs
    suffices hmut : (replicated .dev V).mutate d op (n.doc d) ≠ none by
      obtain ⟨⟨s, δ⟩, hmut⟩ := Option.ne_none_iff_exists'.mp hmut
      exact ⟨_, Net.update_eq hmut⟩
    cases op with
    | addEntry id =>
      have hlt := hadds d
      rw [show (presence .release V).adds (n.log ++ [⟨d, .addEntry id, n.hist d, n.doc d, δ⟩]) d =
        (presence .release V).adds n.log d + 1 from Presence.adds_snoc_self rfl] at hlt
      exact addEntry_dev_ne_none hn id hlt
    | removeEntry id => exact removeEntry_dev_ne_none hn d id
    | setField id f v ts => exact Option.some_ne_none _
  | publish d => exact ⟨_, rfl⟩
  | combine i j =>
    simp only [Net.step, Option.bind_eq_bind, Option.bind_eq_some_iff, Option.some.injEq] at hs
    obtain ⟨x, hx, y, hy, -⟩ := hs
    obtain ⟨c, hc⟩ := merge_isSome_of_holds hn hw (.message (List.mem_of_getElem? hx))
      (.message (List.mem_of_getElem? hy))
    exact ⟨_, Net.combine_eq hx hy hc⟩
  | deliver d i =>
    obtain ⟨m, hm, -⟩ := Net.step_deliver hs
    obtain ⟨c, hc⟩ := merge_isSome_of_holds hn hw (.replica d)
      (.message (List.mem_of_getElem? hm))
    exact ⟨_, Net.deliver_eq hm hc⟩

end Dev

/-! ## A run -/

theorem exec_release_of_dev : ∀ {as : List (Action DeviceId (DocOp V))} {n : DocNet V},
    n.exec (replicated .dev V) Free as = some n' →
    n.exec (replicated .release V) Free as = some n' := by
  intro as n h
  exact Agree.foldlM (g := fun p n a => if True then Net.step (replicated p V) n a else none)
    (fun n a => by simpa using agree_step n a) as n .release n' h

theorem exec_dev_of_release : ∀ {as : List (Action DeviceId (DocOp V))} {n : DocNet V},
    Runs (replicated .dev V) Free n → n.exec (replicated .release V) Free as = some n' →
    (∀ d, (presence .release V).adds n'.log d < 2 ^ 64 - 1) →
    n.exec (replicated .dev V) Free as = some n' := by
  intro as
  induction as with
  | nil => exact fun _ h _ => h
  | cons a as ih =>
    intro n hn h hadds
    rw [Net.exec, List.foldlM_cons, Option.bind_eq_bind, Option.bind_eq_some_iff] at h
    obtain ⟨n₁, h₁, h⟩ := h
    rw [if_pos trivial] at h₁
    have hlater : Later (replicated .release V) Free n₁ n' := .exec h
    have hadds₁ : ∀ d, (presence .release V).adds n₁.log d < 2 ^ 64 - 1 := fun d =>
      (hlater.log_prefix.sublist.countP_le ..).trans_lt (hadds d)
    have hdev := step_dev_of_release hn h₁ hadds₁
    rw [Net.exec, List.foldlM_cons, if_pos trivial, hdev]
    exact ih (hn.step trivial hdev) h hadds

/-- **A dev build goes through a run exactly when a release build does with fewer than
`2 ^ 64 - 1` adds by each device**, and then through the same systems. -/
theorem builds_agree (as : List (Action DeviceId (DocOp V))) (n : DocNet V) :
    (Net.init (replicated .dev V)).exec (replicated .dev V) Free as = some n ↔
      (Net.init (replicated .release V)).exec (replicated .release V) Free as = some n ∧
        ∀ d, (presence .release V).adds n.log d < 2 ^ 64 - 1 := by
  constructor
  · intro h
    exact ⟨exec_release_of_dev h, adds_lt_of_dev (Runs.init.exec h)⟩
  · rintro ⟨h, hadds⟩
    exact exec_dev_of_release .init h hadds

end VaultDoc

end RealmGuard
