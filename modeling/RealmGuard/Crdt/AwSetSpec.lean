import RealmGuard.Crdt.AwSet
import RealmGuard.Crdt.ContextOps
import RealmGuard.Lib.DotKernel

/-!
# The add-wins set as a dot kernel

`kernel s` is the abstract state of a set: the dots its context has observed and
the active dots of each element. A merge is the join of kernels, whatever the
two sets hold (`kernel_merge`), and a well-formed set is determined by its
kernel (`WellFormed.ext`). `add_spec` and `remove_spec` give both results of the
two mutators; they move the kernel up by their delta as long as no dot is active
for two elements (`AddSpec.kernel`, `RemoveSpec.kernel`).
-/

namespace RealmGuard.AddWinsSet

open Lib DotContext

variable {E : Type} [LinearOrder E] {p : Profile} {s o m : AddWinsSet E}

/-- Every element has an active dot, counters start at 1, the context is canonical. -/
structure WellFormed (s : AddWinsSet E) : Prop where
  nonempty : ∀ e ds, s.entries.get? e = some ds → ∃ x, x ∈ ds
  pos : ∀ e x, x ∈ s.dots e → 0 < x.counter
  canonical : s.ctx.Canonical

def kernel (s : AddWinsSet E) : DotKernel Dot E where
  seen := s.ctx.observed
  live e := {x | 0 < x.counter ∧ x ∈ s.dots e}

theorem mem_kernel_live {e : E} {x : Dot} :
    x ∈ s.kernel.live e ↔ 0 < x.counter ∧ x ∈ s.dots e := Iff.rfl

theorem dots_eq_of_get? {e : E} {ds : BTreeSet Dot} (h : s.entries.get? e = some ds) :
    s.dots e = ds := by
  rw [dots, h, Option.getD_some]

theorem contains_iff_get? {e : E} : s.contains e = true ↔ ∃ ds, s.entries.get? e = some ds :=
  Option.isSome_iff_exists

theorem contains_of_mem {e : E} {x : Dot} (h : x ∈ s.dots e) : s.contains e = true := by
  unfold dots at h
  cases hg : s.entries.get? e with
  | none => rw [hg] at h; exact absurd h (BTreeSet.not_mem_empty x)
  | some ds => exact contains_iff_get?.mpr ⟨ds, hg⟩

theorem contains_iff_of_nonempty {e : E}
    (hs : ∀ ds, s.entries.get? e = some ds → ∃ x, x ∈ ds) :
    s.contains e = true ↔ ∃ x, x ∈ s.dots e := by
  constructor
  · intro h
    obtain ⟨ds, hds⟩ := contains_iff_get?.mp h
    rw [dots_eq_of_get? hds]
    exact hs ds hds
  · rintro ⟨x, hx⟩
    exact contains_of_mem hx

theorem WellFormed.contains_iff (hs : s.WellFormed) {e : E} :
    s.contains e = true ↔ ∃ x, x ∈ s.dots e :=
  contains_iff_of_nonempty (hs.nonempty e)

theorem wellFormed_new : (new : AddWinsSet E).WellFormed where
  nonempty _ _ h := nomatch h
  pos _ x hx := (BTreeSet.not_mem_empty x hx).elim
  canonical := canonical_new

theorem kernel_new : (new : AddWinsSet E).kernel = ⊥ := by
  refine DotKernel.ext observed_new (funext fun e => Set.ext fun x => ?_)
  exact iff_of_false (fun h => BTreeSet.not_mem_empty x h.2) (Set.notMem_empty x)

/-- A set without empty entries is determined by its active dots and its context. -/
theorem ext_of_nonempty (hs : ∀ e ds, s.entries.get? e = some ds → ∃ x, x ∈ ds)
    (ho : ∀ e ds, o.entries.get? e = some ds → ∃ x, x ∈ ds) (hdots : ∀ e, s.dots e = o.dots e)
    (hctx : s.ctx = o.ctx) : s = o := by
  obtain ⟨es, c⟩ := s
  obtain ⟨es', c'⟩ := o
  congr
  refine BTreeMap.ext_get? fun e => ?_
  have he := hdots e
  have hne := hs e
  have hne' := ho e
  simp only [dots] at he hne hne'
  cases h1 : es.get? e with
  | none =>
    cases h2 : es'.get? e with
    | none => rfl
    | some ds' =>
      obtain ⟨x, hx⟩ := hne' ds' h2
      rw [h1, h2, Option.getD_none, Option.getD_some] at he
      exact absurd (he ▸ hx) (BTreeSet.not_mem_empty x)
  | some ds =>
    cases h2 : es'.get? e with
    | none =>
      obtain ⟨x, hx⟩ := hne ds h1
      rw [h1, h2, Option.getD_none, Option.getD_some] at he
      exact absurd (he ▸ hx) (BTreeSet.not_mem_empty x)
    | some ds' =>
      rw [h1, h2, Option.getD_some, Option.getD_some] at he
      rw [he]

/-- A well-formed set is determined by its kernel. -/
theorem WellFormed.ext (hs : s.WellFormed) (ho : o.WellFormed) (h : s.kernel = o.kernel) :
    s = o := by
  have hctx : s.ctx = o.ctx := hs.canonical.ext ho.canonical (congrArg DotKernel.seen h)
  refine ext_of_nonempty hs.nonempty ho.nonempty (fun e => BTreeSet.ext fun x => ?_) hctx
  have hx : x ∈ s.kernel.live e ↔ x ∈ o.kernel.live e := by rw [h]
  exact ⟨fun hm => (hx.mp ⟨hs.pos e x hm, hm⟩).2, fun hm => (hx.mpr ⟨ho.pos e x hm, hm⟩).2⟩

/-! ## Merge -/

/-- The dots a merge keeps for an element. -/
theorem mem_mergedDots {e : E} {x : Dot} :
    x ∈ (mergedDots s o e).getD .empty ↔ (x ∈ s.dots e ∨ x ∈ o.dots e) ∧
      (x ∈ s.dots e ∨ ¬ s.ctx.contains x = true) ∧ (x ∈ o.dots e ∨ ¬ o.ctx.contains x = true) := by
  have hfilter : x ∈ ((s.dots e).union (o.dots e)).filter (fun d =>
      ((s.dots e).contains d || !s.ctx.contains d) &&
        ((o.dots e).contains d || !o.ctx.contains d)) ↔
      (x ∈ s.dots e ∨ x ∈ o.dots e) ∧ (x ∈ s.dots e ∨ ¬ s.ctx.contains x = true) ∧
        (x ∈ o.dots e ∨ ¬ o.ctx.contains x = true) := by
    simp
  rw [← hfilter, mergedDots]
  split
  · next h => exact iff_of_false (BTreeSet.not_mem_empty x) (BTreeSet.isEmpty_iff.mp h x)
  · exact Iff.rfl

theorem mergedDots_nonempty {e : E} {ds : BTreeSet Dot} (h : mergedDots s o e = some ds) :
    ∃ x, x ∈ ds := by
  dsimp only [mergedDots] at h
  split at h
  · cases h
  · next hne =>
    obtain rfl := Option.some.inj h
    rw [BTreeSet.isEmpty_iff] at hne
    exact Classical.not_forall_not.mp hne

theorem merge_eq_some : s.merge p o = some m ↔
    (∀ e, m.entries.get? e = mergedDots s o e) ∧ s.ctx.merge p o.ctx = some m.ctx := by
  have hget : ∀ e, ((BTreeSet.ofList (s.entries.keys ++ o.entries.keys)).toList.foldl
      (BTreeMap.insertIf (mergedDots s o)) .empty).get? e = mergedDots s o e := by
    intro e
    rw [BTreeMap.get?_foldl_insertIf]
    split
    · simp
    · next hmem =>
      rw [BTreeSet.mem_toList, BTreeSet.mem_ofList, List.mem_append, not_or, BTreeMap.mem_keys,
        BTreeMap.mem_keys] at hmem
      cases h : mergedDots s o e with
      | none => rfl
      | some ds =>
        obtain ⟨x, hx⟩ := mergedDots_nonempty h
        have hx' := (mem_mergedDots (s := s) (o := o) (e := e) (x := x)).mp (by rw [h]; exact hx)
        exact (hx'.1.elim (fun hs => hmem.1 (contains_of_mem hs))
          fun ho => hmem.2 (contains_of_mem ho)).elim
  simp only [merge, Option.bind_eq_bind, Option.bind_eq_some_iff, Option.some.injEq]
  constructor
  · rintro ⟨c, hc, rfl⟩
    exact ⟨hget, hc⟩
  · rintro ⟨he, hc⟩
    refine ⟨m.ctx, hc, ?_⟩
    obtain ⟨es, c⟩ := m
    congr
    exact BTreeMap.ext_get? fun e => (hget e).trans (he e).symm

theorem merge_eq_none : s.merge p o = none ↔ s.ctx.merge p o.ctx = none := by
  unfold merge
  cases s.ctx.merge p o.ctx <;> simp

theorem merge_release (s o : AddWinsSet E) : ∃ m, s.merge .release o = some m := by
  obtain ⟨c, hc⟩ := DotContext.merge_release s.ctx o.ctx
  exact Option.ne_none_iff_exists'.mp fun h => Option.some_ne_none c (hc.symm.trans
    (merge_eq_none.mp h))

theorem mem_dots_merge (h : s.merge p o = some m) {e : E} {x : Dot} :
    x ∈ m.dots e ↔ (x ∈ s.dots e ∨ x ∈ o.dots e) ∧
      (x ∈ s.dots e ∨ ¬ s.ctx.contains x = true) ∧ (x ∈ o.dots e ∨ ¬ o.ctx.contains x = true) := by
  rw [dots, (merge_eq_some.mp h).1 e, mem_mergedDots]

theorem nonempty_merge (h : s.merge p o = some m) {e : E} {ds : BTreeSet Dot}
    (he : m.entries.get? e = some ds) : ∃ x, x ∈ ds :=
  mergedDots_nonempty (((merge_eq_some.mp h).1 e).symm.trans he)

/-- **A merge joins the kernels.** -/
theorem kernel_merge (hfit : CloudsFit p s.ctx o.ctx) (h : s.merge p o = some m) :
    m.kernel = s.kernel ⊔ o.kernel := by
  have hctx := merge_spec hfit (merge_eq_some.mp h).2
  refine DotKernel.ext hctx.observed (funext fun e => Set.ext fun x => ?_)
  rw [DotKernel.sup_live, mem_kernel_live, mem_kernel_live, mem_kernel_live, mem_dots_merge h]
  show _ ↔ _ ∧ (_ ∨ ¬ (0 < x.counter ∧ s.ctx.contains x = true)) ∧
    (_ ∨ ¬ (0 < x.counter ∧ o.ctx.contains x = true))
  by_cases hx : 0 < x.counter <;> simp [hx]

theorem WellFormed.merge (hs : s.WellFormed) (ho : o.WellFormed) (h : s.merge p o = some m) :
    m.WellFormed ∧ m.kernel = s.kernel ⊔ o.kernel := by
  refine ⟨⟨fun e ds he => nonempty_merge h he, fun e x hx => ?_,
    (hs.canonical.merge ho.canonical (merge_eq_some.mp h).2).1⟩,
    kernel_merge (hs.canonical.cloudsFit ho.canonical p) h⟩
  exact ((mem_dots_merge h).mp hx).1.elim (hs.pos e x) (ho.pos e x)

/-! ## The mutators -/

/-- What `insertAll` returns on a compact context. -/
theorem insertAll_spec {ds : BTreeSet Dot} {c c' : DotContext} (hc : c.Compact)
    (hroom : Room p c ds.toList) (h : insertAll p c ds = some c') :
    InsertAllSpec c ds.toList c' :=
  foldlM_insert_spec hc hroom h

theorem insertAll_canonical {ds : BTreeSet Dot} {c c' : DotContext} (hc : c.Canonical)
    (hpos : ∀ x ∈ ds, 0 < x.counter) (h : insertAll p c ds = some c') :
    c'.Canonical ∧ ∀ x, x ∈ c'.observed ↔ x ∈ ds ∨ x ∈ c.observed := by
  have hzero : ∀ d, Dot.new d 0 ∉ ds.toList := fun d hd =>
    lt_irrefl _ (hpos _ (BTreeSet.mem_toList.mp hd))
  have hroom : Room p c ds.toList := fun _ d =>
    ⟨0, fun hm => lt_irrefl _ hm.1, fun hm => lt_irrefl _ (hc.dc_pos hm), hzero d⟩
  have hs := insertAll_spec hc.compact hroom h
  refine ⟨hs.compact.canonical (fun d hd => (hs.observed _).mpr ?_) fun d hd => ?_, fun x => ?_⟩
  · exact ((hs.isSome d).mp hd).imp (hc.isSome_iff d).mp fun hm =>
      ⟨hm, zero_lt_one_u64⟩
  · exact (hs.zero d hd).elim (fun hm => lt_irrefl _ (hc.dc_pos hm)) (hzero d)
  · rw [hs.observed, BTreeSet.mem_toList, and_iff_left_of_imp (hpos x), or_comm]

theorem add_eq_some {e : E} {d : DeviceId} {s' δ : AddWinsSet E} :
    s.add p e d = some (s', δ) ↔ ∃ x c₀, s.ctx.nextDot p d = some (s'.ctx, x) ∧
      DotContext.new.insert p x = some c₀ ∧ insertAll p c₀ (s.dots e) = some δ.ctx ∧
      s'.entries = s.entries.insert e (BTreeSet.empty.insert x) ∧
      δ.entries = BTreeMap.empty.insert e (BTreeSet.empty.insert x) := by
  simp only [add, Option.bind_eq_bind, Option.bind_eq_some_iff, Option.some.injEq, Prod.mk.injEq]
  constructor
  · rintro ⟨⟨c, x⟩, hc, c₀, hc₀, c₁, hc₁, rfl, rfl⟩
    exact ⟨x, c₀, hc, hc₀, hc₁, rfl, rfl⟩
  · rintro ⟨x, c₀, hc, hc₀, hc₁, he, hδ⟩
    refine ⟨(s'.ctx, x), hc, c₀, hc₀, δ.ctx, hc₁, ?_, ?_⟩
    · rw [← he]
    · rw [← hδ]

/-- A release build adds to any set. -/
theorem add_release (s : AddWinsSet E) (e : E) (d : DeviceId) :
    ∃ s' δ, s.add .release e d = some (s', δ) := by
  obtain ⟨c, hc⟩ := insert_release s.ctx (Dot.new d (s.ctx.top d + 1))
  obtain ⟨c₀, hc₀⟩ := insert_release .new (Dot.new d (s.ctx.top d + 1))
  obtain ⟨c₁, hc₁⟩ := foldlM_insert_release (s.dots e).toList c₀
  have hnext : s.ctx.nextDot .release d = some (c, Dot.new d (s.ctx.top d + 1)) :=
    nextDot_eq_some.mpr ⟨rfl, rfl, hc⟩
  exact ⟨⟨s.entries.insert e (BTreeSet.empty.insert (Dot.new d (s.ctx.top d + 1))), c⟩,
    ⟨BTreeMap.empty.insert e (BTreeSet.empty.insert (Dot.new d (s.ctx.top d + 1))), c₁⟩,
    add_eq_some.mpr ⟨_, c₀, hnext, hc₀, hc₁, rfl, rfl⟩⟩

theorem remove_eq_some {e : E} {s' δ : AddWinsSet E} :
    s.remove p e = some (s', δ) ↔ insertAll p .new (s.dots e) = some δ.ctx ∧
      s' = ⟨s.entries.remove e, s.ctx⟩ ∧ δ.entries = .empty := by
  simp only [remove, Option.bind_eq_bind, Option.bind_eq_some_iff, Option.some.injEq, Prod.mk.injEq]
  constructor
  · rintro ⟨c, hc, rfl, rfl⟩
    exact ⟨hc, rfl, rfl⟩
  · rintro ⟨hc, rfl, hδ⟩
    exact ⟨δ.ctx, hc, rfl, by rw [← hδ]⟩

/-- Both results of an add that labels `e` with the new dot `x`. -/
structure AddSpec (s : AddWinsSet E) (e : E) (s' δ : AddWinsSet E) (x : Dot) : Prop where
  counter : x.counter.toNat = (s.ctx.top x.device).toNat + 1
  get? : ∀ e', s'.entries.get? e' =
    if e' = e then some (BTreeSet.empty.insert x) else s.entries.get? e'
  canonical : s'.ctx.Canonical
  observed : s'.ctx.observed = Insert.insert x s.ctx.observed
  delta_get? : ∀ e', δ.entries.get? e' = if e' = e then some (BTreeSet.empty.insert x) else none
  delta_canonical : δ.ctx.Canonical
  delta_observed : ∀ y, y ∈ δ.ctx.observed ↔ y = x ∨ y ∈ s.dots e

/-- Both results of a removal. -/
structure RemoveSpec (s : AddWinsSet E) (e : E) (s' δ : AddWinsSet E) : Prop where
  get? : ∀ e', s'.entries.get? e' = if e' = e then none else s.entries.get? e'
  ctx : s'.ctx = s.ctx
  delta_get? : ∀ e', δ.entries.get? e' = none
  delta_canonical : δ.ctx.Canonical
  delta_observed : ∀ y, y ∈ δ.ctx.observed ↔ y ∈ s.dots e

theorem AddSpec.fresh {e : E} {s' δ : AddWinsSet E} {x : Dot} (h : AddSpec s e s' δ x) :
    ¬ s.ctx.contains x = true := by
  refine not_contains_of_top_lt ?_
  rw [UInt64.lt_iff_toNat_lt, h.counter]
  omega

theorem add_spec {e : E} {d : DeviceId} {s' δ : AddWinsSet E} (hs : s.WellFormed)
    (htop : p = .dev ∨ (s.ctx.top d).toNat + 1 < 2 ^ 64) (h : s.add p e d = some (s', δ)) :
    ∃ x, x.device = d ∧ AddSpec s e s' δ x ∧ (p = .dev → ¬ Full s'.ctx.observed d) := by
  obtain ⟨x, c₀, hnext, hc₀, hc₁, he, hδ⟩ := add_eq_some.mp h
  obtain ⟨rfl, hadd, hins⟩ := nextDot_eq_some.mp hnext
  have hcounter : x.counter.toNat = (s.ctx.top x.device).toNat + 1 := by
    rcases Profile.add_one_eq_some hadd with ⟨-, hc⟩ | ⟨rfl, hmax, -⟩
    · exact hc
    · rcases htop with hp | hlt
      · cases hp
      · rw [hmax] at hlt
        exact absurd hlt (by decide)
  have hx : 0 < x.counter := by
    rw [pos_iff_toNat]
    omega
  obtain ⟨hcan, hobs⟩ := hs.canonical.insert hx hins
  obtain ⟨hcan₀, hobs₀⟩ := canonical_new.insert hx hc₀
  obtain ⟨hcan₁, hobs₁⟩ := insertAll_canonical hcan₀ (hs.pos e) hc₁
  have hspec : AddSpec s e s' δ x := by
    refine ⟨hcounter, fun e' => ?_, hcan, hobs, fun e' => ?_, hcan₁, fun y => ?_⟩
    · rw [he, BTreeMap.get?_insert]
    · rw [hδ, BTreeMap.get?_insert, BTreeMap.get?_empty]
    · rw [hobs₁, hobs₀, observed_new, Set.mem_insert_iff, or_iff_left (Set.notMem_empty y), or_comm]
  refine ⟨x, rfl, hspec, fun hp hfull => ?_⟩
  have hnone : s.ctx.insert p x = none := by
    refine insert_eq_none.mpr ⟨hp, hspec.fresh, fun k hk => observed_inserted.mpr ?_⟩
    have hmem := hfull k hk
    rw [hobs] at hmem
    exact hmem.elim (fun h => .inr ⟨h, hx⟩) .inl
  rw [hins] at hnone
  cases hnone

theorem remove_spec {e : E} {s' δ : AddWinsSet E} (hs : s.WellFormed)
    (h : s.remove p e = some (s', δ)) : RemoveSpec s e s' δ := by
  obtain ⟨hc, rfl, hδ⟩ := remove_eq_some.mp h
  obtain ⟨hcan, hobs⟩ := insertAll_canonical canonical_new (hs.pos e) hc
  refine ⟨fun e' => BTreeMap.get?_remove _ _ _, rfl, fun e' => ?_, hcan, fun y => ?_⟩
  · rw [hδ, BTreeMap.get?_empty]
  · rw [hobs, observed_new, or_iff_left (Set.notMem_empty y)]

section Spec

variable {e e' : E} {s' δ : AddWinsSet E} {x y : Dot}

theorem mem_singleton : y ∈ BTreeSet.empty.insert x ↔ y = x := by simp

theorem AddSpec.mem_dots (h : AddSpec s e s' δ x) :
    y ∈ s'.dots e' ↔ if e' = e then y = x else y ∈ s.dots e' := by
  rw [dots, h.get?]
  split
  · rw [Option.getD_some, mem_singleton]
  · rfl

theorem AddSpec.mem_delta_dots (h : AddSpec s e s' δ x) : y ∈ δ.dots e' ↔ e' = e ∧ y = x := by
  rw [dots, h.delta_get?]
  split
  · next he => rw [Option.getD_some, mem_singleton, and_iff_right he]
  · next he => exact iff_of_false (BTreeSet.not_mem_empty y) fun hy => he hy.1

theorem AddSpec.pos (h : AddSpec s e s' δ x) : 0 < x.counter := by
  rw [pos_iff_toNat, h.counter]
  exact Nat.succ_pos _

theorem AddSpec.not_mem_observed (h : AddSpec s e s' δ x) : x ∉ s.ctx.observed := fun hx =>
  h.fresh hx.2

theorem RemoveSpec.mem_dots (h : RemoveSpec s e s' δ) :
    y ∈ s'.dots e' ↔ e' ≠ e ∧ y ∈ s.dots e' := by
  rw [dots, h.get?]
  split
  · next he => exact iff_of_false (BTreeSet.not_mem_empty y) fun hy => hy.1 he
  · next he => exact (and_iff_right he).symm

theorem RemoveSpec.not_mem_delta_dots (h : RemoveSpec s e s' δ) : y ∉ δ.dots e' := by
  rw [dots, h.delta_get?]
  exact BTreeSet.not_mem_empty y

theorem AddSpec.wellFormed (hs : s.WellFormed) (h : AddSpec s e s' δ x) :
    s'.WellFormed ∧ δ.WellFormed := by
  refine ⟨⟨fun e' ds he => ?_, fun e' y hy => ?_, h.canonical⟩,
    fun e' ds he => ?_, fun e' y hy => ?_, h.delta_canonical⟩
  · rw [h.get?] at he
    split at he
    · obtain rfl := Option.some.inj he
      exact ⟨x, mem_singleton.mpr rfl⟩
    · exact hs.nonempty e' ds he
  · rw [h.mem_dots] at hy
    split at hy
    · exact hy ▸ h.pos
    · exact hs.pos e' y hy
  · rw [h.delta_get?] at he
    split at he
    · obtain rfl := Option.some.inj he
      exact ⟨x, mem_singleton.mpr rfl⟩
    · cases he
  · exact (h.mem_delta_dots.mp hy).2 ▸ h.pos

theorem RemoveSpec.wellFormed (hs : s.WellFormed) (h : RemoveSpec s e s' δ) :
    s'.WellFormed ∧ δ.WellFormed := by
  refine ⟨⟨fun e' ds he => ?_, fun e' y hy => hs.pos e' y (h.mem_dots.mp hy).2,
    h.ctx ▸ hs.canonical⟩, fun e' ds he => ?_, fun e' y hy => ?_, h.delta_canonical⟩
  · rw [h.get?] at he
    split at he
    · cases he
    · exact hs.nonempty e' ds he
  · rw [h.delta_get?] at he
    cases he
  · exact absurd hy h.not_mem_delta_dots

/-- The element's dots have been observed and are active for no other element. -/
def Exclusive (s : AddWinsSet E) (e : E) : Prop :=
  ∀ y ∈ s.dots e, y ∈ s.ctx.observed ∧ ∀ e', y ∈ s.dots e' → e' = e

theorem AddSpec.kernel (hseen : ∀ e y, y ∈ s.dots e → y ∈ s.ctx.observed)
    (hex : Exclusive s e) (h : AddSpec s e s' δ x) : s'.kernel = s.kernel ⊔ δ.kernel := by
  refine DotKernel.ext (Set.ext fun y => ?_) (funext fun e' => Set.ext fun y => ?_)
  · show y ∈ s'.ctx.observed ↔ y ∈ s.ctx.observed ∨ y ∈ δ.ctx.observed
    rw [h.observed, h.delta_observed, Set.mem_insert_iff]
    have := hseen e y
    tauto
  · rw [DotKernel.sup_live, mem_kernel_live, mem_kernel_live, mem_kernel_live, h.mem_dots,
      h.mem_delta_dots]
    show _ ↔ _ ∧ (_ ∨ y ∉ s.ctx.observed) ∧ (_ ∨ y ∉ δ.ctx.observed)
    rw [h.delta_observed]
    by_cases he : e' = e
    · subst he
      by_cases hy : y = x
      · have := h.pos
        have := h.not_mem_observed
        simp_all
      · simp only [hy, if_true, and_false, false_iff, not_and, or_false, false_or]
        exact fun h1 _ h2 => h2 h1.2
    · simp only [he, if_false, false_and, and_false, or_false, false_or]
      refine ⟨fun hy => ⟨hy, .inl hy, ?_⟩, And.left⟩
      rintro (rfl | hye)
      · exact h.not_mem_observed (hseen e' y hy.2)
      · exact he ((hex y hye).2 e' hy.2)

theorem RemoveSpec.kernel (hex : Exclusive s e) (h : RemoveSpec s e s' δ) :
    s'.kernel = s.kernel ⊔ δ.kernel := by
  refine DotKernel.ext (Set.ext fun y => ?_) (funext fun e' => Set.ext fun y => ?_)
  · show y ∈ s'.ctx.observed ↔ y ∈ s.ctx.observed ∨ y ∈ δ.ctx.observed
    rw [h.ctx, h.delta_observed]
    exact (or_iff_left_of_imp fun hy => (hex y hy).1).symm
  · rw [DotKernel.sup_live, mem_kernel_live, mem_kernel_live, mem_kernel_live, h.mem_dots]
    show _ ↔ _ ∧ (_ ∨ y ∉ s.ctx.observed) ∧ (_ ∨ y ∉ δ.ctx.observed)
    rw [h.delta_observed]
    have hδ : y ∉ δ.dots e' := h.not_mem_delta_dots
    simp only [hδ, and_false, or_false, false_or]
    constructor
    · rintro ⟨hpos, hne, hy⟩
      exact ⟨⟨hpos, hy⟩, .inl ⟨hpos, hy⟩, fun hye => hne ((hex y hye).2 e' hy)⟩
    · rintro ⟨⟨hpos, hy⟩, -, hn⟩
      exact ⟨hpos, fun he => hn (he ▸ hy), hy⟩

end Spec

end RealmGuard.AddWinsSet
