import RealmGuard.JoinLaws

/-!
# Merging arbitrary documents

A decoded document satisfies no invariant: counters may be `0`, dots may lie
outside the context, `cc` and `dc` may overlap. What merging such documents into
a new one keeps is `Gathered`: the join of their `abs`, a compact context, and an
entry of `cc` for each device that had one or whose counter `1` was in a cloud.

That determines the result but for counter `0`, which `contains` answers by the
presence of an entry in `cc`. It is here that the order of the merges matters:
`ContextDiffers` and `EntryDiffers` say when. In a dev build there is one more
way to differ, a merge that completes a device's counters and panics.
`convergent_iff` is the exact condition.
-/

namespace RealmGuard.VaultDoc

open Lib DotContext

variable {V : Type} [LinearOrder V] {p : Profile} {l l' S : List (VaultDoc V)}
  {x s o m m' : VaultDoc V} {d : DeviceId} {id : EntryId}

/-- Merge a sequence of documents into a new one. -/
def mergeAll (p : Profile) (l : List (VaultDoc V)) : Option (VaultDoc V) :=
  l.foldlM (VaultDoc.merge p) .new

theorem mergeAll_snoc :
    mergeAll p (l ++ [o]) = some m ↔ ∃ s, mergeAll p l = some s ∧ s.merge p o = some m := by
  rw [mergeAll, List.foldlM_append, Option.bind_eq_bind, Option.bind_eq_some_iff]
  refine exists_congr fun s => and_congr_right fun _ => ?_
  rw [List.foldlM_cons]
  cases VaultDoc.merge p s o <;> simp

/-- The device has an entry in `cc`. -/
def Keyed (x : VaultDoc V) (d : DeviceId) : Prop := (x.entries.ctx.cc.get? d).isSome = true

/-- Counter `k` of the device is in the cloud. -/
def Clouded (x : VaultDoc V) (d : DeviceId) (k : UInt64) : Prop := Dot.new d k ∈ x.entries.ctx.dc

/-- The context contains counter `0` of the device. -/
def ZeroSeen (x : VaultDoc V) (d : DeviceId) : Prop :=
  x.entries.ctx.contains (Dot.new d 0) = true

/-- Counter `0` of the device is active for the entry. -/
def ZeroLive (x : VaultDoc V) (d : DeviceId) (id : EntryId) : Prop :=
  Dot.new d 0 ∈ x.entries.dots id

/-- The clouds of the documents together miss some counter of each device. -/
def CloudsMiss (p : Profile) (l : List (VaultDoc V)) : Prop :=
  p = .release → ∀ d, ∃ k, ∀ x ∈ l, ¬ x.Clouded d k

theorem cloudsMiss_dev (l : List (VaultDoc V)) : CloudsMiss .dev l := fun hp => nomatch hp

theorem CloudsMiss.mono (h : CloudsMiss p l') (hl : ∀ x ∈ l, x ∈ l') : CloudsMiss p l :=
  fun hp d => (h hp d).imp fun _ hk x hx => hk x (hl x hx)

/-- Clouds that a `usize` can count together miss some counter of each device. -/
theorem cloudsMiss_of_len (h : (S.map fun x => x.entries.ctx.dc.len).sum < 2 ^ 64) :
    CloudsMiss p S := by
  intro _ d
  have hlen : (S.flatMap fun x => x.entries.ctx.dc.toList).length < 2 ^ 64 := by
    rw [List.length_flatMap]
    exact h
  obtain ⟨k, hk⟩ := exists_not_mem_of_length_lt hlen d
  exact ⟨k, fun x hx hm => hk (List.mem_flatMap.mpr ⟨x, hx, BTreeSet.mem_toList.mpr hm⟩)⟩

/-- What merging the documents of a list keeps. -/
structure Gathered (l : List (VaultDoc V)) (m : VaultDoc V) : Prop where
  abs : IsLUB {s | ∃ x ∈ l, x.abs = s} m.abs
  observed : ∀ y, y ∈ m.entries.ctx.observed ↔ ∃ x ∈ l, y ∈ x.entries.ctx.observed
  compact : m.entries.ctx.Compact
  nonempty : ∀ id ds, m.entries.entries.get? id = some ds → ∃ y, y ∈ ds
  keyed : ∀ d, m.Keyed d ↔ ∃ x ∈ l, x.Keyed d ∨ x.Clouded d 1
  clouded : ∀ d k, m.Clouded d k → ∃ x ∈ l, x.Clouded d k

theorem gathered_nil : Gathered [] (.new : VaultDoc V) where
  abs := by
    rw [abs_new]
    exact ⟨fun s ⟨x, hx, _⟩ => absurd hx List.not_mem_nil, fun _ _ => bot_le⟩
  observed y := by
    show y ∈ DotContext.new.observed ↔ _
    simp
  compact := canonical_new.compact
  nonempty _ _ h := nomatch h
  keyed d := by
    refine iff_of_false (fun h => nomatch h) ?_
    rintro ⟨x, hx, -⟩
    exact List.not_mem_nil hx
  clouded d k h := absurd h (BTreeSet.not_mem_empty _)

theorem Gathered.cloudsFit (hs : Gathered l s) (hmiss : CloudsMiss p (l ++ [o])) :
    CloudsFit p s.entries.ctx o.entries.ctx := by
  intro hp d
  obtain ⟨k, hk⟩ := hmiss hp d
  refine ⟨k, fun h => ?_, hk o (List.mem_append_right _ (List.mem_singleton_self _))⟩
  obtain ⟨x, hx, hxk⟩ := hs.clouded d k h
  exact hk x (List.mem_append_left _ hx) hxk

theorem exists_mem_snoc {α : Type*} {l : List α} {a : α} {P : α → Prop} :
    (∃ x ∈ l ++ [a], P x) ↔ (∃ x ∈ l, P x) ∨ P a := by
  simp [or_and_right, exists_or]

theorem forall_mem_snoc {α : Type*} {l : List α} {a : α} {P : α → Prop} :
    (∀ x ∈ l ++ [a], P x) ↔ (∀ x ∈ l, P x) ∧ P a := by
  simp [or_imp, forall_and]

theorem Gathered.snoc (hs : Gathered l s) (hmiss : CloudsMiss p (l ++ [o]))
    (h : s.merge p o = some m) : Gathered (l ++ [o]) m := by
  have hfit := hs.cloudsFit hmiss
  have hes := (merge_eq_some.mp h).1
  have hctx := merge_spec hfit (AddWinsSet.merge_eq_some.mp hes).2
  refine ⟨?_, fun y => ?_, hctx.compact, fun id ds he => AddWinsSet.nonempty_merge hes he,
    fun d => ?_, fun d k hk => ?_⟩
  · have hset : {t | ∃ x ∈ l ++ [o], x.abs = t} = insert o.abs {t | ∃ x ∈ l, x.abs = t} := by
      ext t
      show (∃ x ∈ l ++ [o], x.abs = t) ↔ t = o.abs ∨ ∃ x ∈ l, x.abs = t
      rw [exists_mem_snoc, or_comm, eq_comm]
    rw [hset, abs_merge hfit h, sup_comm]
    exact hs.abs.insert o.abs
  · rw [hctx.observed, exists_mem_snoc, ← hs.observed]
    exact Iff.rfl
  · rw [exists_mem_snoc, ← hs.keyed]
    exact (hctx.isSome_of_compact hs.compact d).trans Iff.rfl
  · rw [exists_mem_snoc]
    exact (hctx.mem_dc hk).imp (hs.clouded d k) id

theorem gathered : ∀ {l : List (VaultDoc V)} {m : VaultDoc V}, CloudsMiss p l →
    mergeAll p l = some m → Gathered l m := by
  intro l
  induction l using List.reverseRecOn with
  | nil => exact fun _ h => Option.some.inj h ▸ gathered_nil
  | append_singleton l o ih =>
    intro m hmiss h
    obtain ⟨s, hs, hm⟩ := mergeAll_snoc.mp h
    exact (ih (hmiss.mono fun x hx => List.mem_append_left _ hx) hs).snoc hmiss hm

/-- Results gathered from the same documents are equal if they agree on counter `0`. -/
theorem Gathered.ext (hm : Gathered l m) (hm' : Gathered l' m') (hl : ∀ x, x ∈ l ↔ x ∈ l')
    (hzero : ∀ d, m.Clouded d 0 ↔ m'.Clouded d 0)
    (hlive : ∀ d id, m.ZeroLive d id ↔ m'.ZeroLive d id) : m = m' := by
  have hset : {s | ∃ x ∈ l, x.abs = s} = {s | ∃ x ∈ l', x.abs = s} := by
    ext s
    exact exists_congr fun x => and_congr_left fun _ => hl x
  have habs : m.abs = m'.abs := hm.abs.unique (hset ▸ hm'.abs)
  have hkernel : m.entries.kernel = m'.entries.kernel := congrArg Prod.fst habs
  have hctx : m.entries.ctx = m'.entries.ctx := by
    refine hm.compact.ext hm'.compact (congrArg DotKernel.seen hkernel) (fun d => ?_) hzero
    refine (hm.keyed d).trans (Iff.trans ?_ (hm'.keyed d).symm)
    exact exists_congr fun x => and_congr_left fun _ => hl x
  have hdots : ∀ id, m.entries.dots id = m'.entries.dots id := fun id => BTreeSet.ext fun y => by
    by_cases hy : 0 < y.counter
    · have h := congrArg (fun k => y ∈ k.live id) hkernel
      rw [eq_iff_iff, AddWinsSet.mem_kernel_live, AddWinsSet.mem_kernel_live, and_iff_right hy,
        and_iff_right hy] at h
      exact h
    · rw [Dot.eq_new_zero hy]
      exact hlive y.device id
  have hes : m.entries = m'.entries :=
    AddWinsSet.ext_of_nonempty hm.nonempty hm'.nonempty hdots hctx
  have hf : m.fields = m'.fields := allKeys_injective (congrArg Prod.snd habs)
  obtain ⟨es, fs⟩ := m
  obtain ⟨es', fs'⟩ := m'
  congr

/-! ## Counter `0` in the context -/

/-- One document alone gives the device its entry, by its counter `1`; another has counter `0`
in its cloud. The entry covers it only if that document is not the last. -/
def ContextDiffers (S : List (VaultDoc V)) (d : DeviceId) : Prop :=
  (∃ x ∈ S, x.Clouded d 0) ∧
    ∃ t ∈ S, ¬ t.Keyed d ∧ t.Clouded d 1 ∧ ∀ x ∈ S, x.Keyed d ∨ x.Clouded d 1 → x = t

/-- One merge more drops counter `0` from the cloud where either side has an entry. -/
theorem Gathered.clouded_zero_merge (hg : Gathered l s) (hmiss : CloudsMiss p (l ++ [o]))
    (hm : s.merge p o = some m) (d : DeviceId) :
    m.Clouded d 0 ↔ (s.Clouded d 0 ∨ o.Clouded d 0) ∧ ¬ (s.Keyed d ∨ o.Keyed d) := by
  have hctx := (AddWinsSet.merge_eq_some.mp (merge_eq_some.mp hm).1).2
  exact (merge_spec (hg.cloudsFit hmiss) hctx).zero d

/-- Counter `0` stays in the cloud when no document but the last gives the device an entry, and
the last only by its counter `1`. -/
theorem clouded_zero_snoc : ∀ {l : List (VaultDoc V)} {o m : VaultDoc V}, CloudsMiss p (l ++ [o]) →
    mergeAll p (l ++ [o]) = some m → (m.Clouded d 0 ↔ (∃ x ∈ l ++ [o], x.Clouded d 0) ∧
      ¬ o.Keyed d ∧ ∀ x ∈ l, ¬ (x.Keyed d ∨ x.Clouded d 1)) := by
  intro l
  induction l using List.reverseRecOn with
  | nil =>
    intro o m hmiss h
    obtain ⟨s, hs, hm⟩ := mergeAll_snoc.mp h
    have hg := gathered (hmiss.mono (by simp)) hs
    have hk : ¬ s.Keyed d := fun hk => by simpa using (hg.keyed d).mp hk
    have hz : ¬ s.Clouded d 0 := fun hz => by simpa using hg.clouded d 0 hz
    rw [hg.clouded_zero_merge hmiss hm]
    simp [hk, hz]
  | append_singleton l o' ih =>
    intro o m hmiss h
    obtain ⟨s, hs, hm⟩ := mergeAll_snoc.mp h
    have hmiss' : CloudsMiss p (l ++ [o']) := hmiss.mono fun x hx => List.mem_append_left _ hx
    have hg := gathered hmiss' hs
    have hkeyed := hg.keyed d
    have hall : (∀ x ∈ l ++ [o'], ¬ (x.Keyed d ∨ x.Clouded d 1)) ↔ ¬ s.Keyed d := by
      rw [hkeyed]
      push Not
      exact Iff.rfl
    rw [hg.clouded_zero_merge hmiss hm, ih hmiss' hs, hall, exists_mem_snoc (l := l ++ [o'])]
    constructor
    · rintro ⟨h, hn⟩
      exact ⟨h.imp And.left id, fun hk => hn (.inr hk), fun hk => hn (.inl hk)⟩
    · rintro ⟨h, hko, hks⟩
      have hno := hall.mpr hks
      refine ⟨h.imp (fun hz => ⟨hz, fun hk => ?_, fun x hx => ?_⟩) id, fun hk => hk.elim hks hko⟩
      · exact hno o' (List.mem_append_right _ (List.mem_singleton_self _)) (.inl hk)
      · exact hno x (List.mem_append_left _ hx)

/-! ## Counter `0` in the entries -/

/-- Counter `0` is live in one document; another has neither it nor an entry for the device but
gives the device one by its counter `1`; none has seen it dead. It dies if that one comes first. -/
def EntryDiffers (S : List (VaultDoc V)) (d : DeviceId) (id : EntryId) : Prop :=
  (∃ x ∈ S, x.ZeroLive d id) ∧ (∃ x ∈ S, ¬ x.ZeroLive d id ∧ ¬ x.ZeroSeen d ∧ x.Clouded d 1) ∧
    ∀ x ∈ S, x.ZeroSeen d → x.ZeroLive d id

/-- What one merge makes of counter `0` for an entry. -/
theorem zero_merge (d : DeviceId) (id : EntryId) (hs : s.entries.ctx.Compact)
    (hfit : CloudsFit p s.entries.ctx o.entries.ctx) (h : s.merge p o = some m) :
    (m.ZeroSeen d ↔ s.ZeroSeen d ∨ o.ZeroSeen d ∨ o.Clouded d 1) ∧
    (m.ZeroLive d id ↔ (s.ZeroLive d id ∨ o.ZeroLive d id) ∧
      (s.ZeroLive d id ∨ ¬ s.ZeroSeen d) ∧ (o.ZeroLive d id ∨ ¬ o.ZeroSeen d)) := by
  have hes := (merge_eq_some.mp h).1
  exact ⟨(merge_spec hfit (AddWinsSet.merge_eq_some.mp hes).2).contains_zero hs d,
    AddWinsSet.mem_dots_merge hes⟩

/-- A property that the first merge establishes and later ones keep. -/
theorem mergeAll_cons_induction {P : VaultDoc V → Prop} (hmiss : CloudsMiss p (x :: l))
    (hfirst : ∀ m, VaultDoc.new.merge p x = some m → P m)
    (hstep : ∀ s o m, s.entries.ctx.Compact → CloudsFit p s.entries.ctx o.entries.ctx → o ∈ l →
      s.merge p o = some m → P s → P m) : ∀ {m}, mergeAll p (x :: l) = some m → P m := by
  induction l using List.reverseRecOn with
  | nil =>
    intro m h
    obtain ⟨s, hs, hm⟩ := mergeAll_snoc.mp (show mergeAll p ([] ++ [x]) = some m from h)
    obtain rfl := Option.some.inj hs
    exact hfirst m hm
  | append_singleton l o ih =>
    intro m h
    rw [← List.cons_append] at h hmiss
    obtain ⟨s, hs, hm⟩ := mergeAll_snoc.mp h
    have hmiss' : CloudsMiss p (x :: l) := hmiss.mono fun y hy => List.mem_append_left _ hy
    have hg := gathered hmiss' hs
    refine hstep s o m hg.compact (hg.cloudsFit hmiss) (by simp) hm (ih hmiss' ?_ hs)
    exact fun s o m hc hf ho => hstep s o m hc hf (List.mem_append_left _ ho)

/-- A property of the documents merged and the result that one more merge keeps. -/
theorem mergeAll_induction {P : List (VaultDoc V) → VaultDoc V → Prop} (nil : P [] .new)
    (snoc : ∀ l s o m, s.entries.ctx.Compact → CloudsFit p s.entries.ctx o.entries.ctx →
      s.merge p o = some m → P l s → P (l ++ [o]) m) :
    ∀ {l : List (VaultDoc V)} {m : VaultDoc V}, CloudsMiss p l → mergeAll p l = some m → P l m := by
  intro l
  induction l using List.reverseRecOn with
  | nil => exact fun _ h => Option.some.inj h ▸ nil
  | append_singleton l o ih =>
    intro m hmiss h
    obtain ⟨s, hs, hm⟩ := mergeAll_snoc.mp h
    have hmiss' : CloudsMiss p l := hmiss.mono fun x hx => List.mem_append_left _ hx
    have hg := gathered hmiss' hs
    exact snoc l s o m hg.compact (hg.cloudsFit hmiss) hm (ih hmiss' hs)

section ZeroLive

variable (hmiss : CloudsMiss p l) (h : mergeAll p l = some m)
include hmiss h

theorem exists_zeroLive : m.ZeroLive d id → ∃ x ∈ l, x.ZeroLive d id := by
  refine mergeAll_induction (P := fun l m => m.ZeroLive d id → ∃ x ∈ l, x.ZeroLive d id) ?_ ?_
    hmiss h
  · exact fun hm => absurd hm (BTreeSet.not_mem_empty _)
  · intro l s o m hc hf hm ih hlive
    rw [exists_mem_snoc]
    exact ((zero_merge d id hc hf hm).2.mp hlive).1.imp ih (fun hx => hx)

/-- Dead in one document, dead in the result. -/
theorem not_zeroLive_of_dead (hdead : ∃ x ∈ l, x.ZeroSeen d ∧ ¬ x.ZeroLive d id) :
    ¬ m.ZeroLive d id := by
  refine (mergeAll_induction (P := fun l m => (∃ x ∈ l, x.ZeroSeen d ∧ ¬ x.ZeroLive d id) →
    m.ZeroSeen d ∧ ¬ m.ZeroLive d id) ?_ ?_ hmiss h hdead).2
  · rintro ⟨x, hx, -⟩
    exact absurd hx List.not_mem_nil
  · intro l s o m hc hf hm ih hx
    obtain ⟨hseen, hlive⟩ := zero_merge d id hc hf hm
    rw [hseen, hlive]
    rcases exists_mem_snoc.mp hx with hx | ⟨hos, hol⟩
    · obtain ⟨hss, hsl⟩ := ih hx
      exact ⟨.inl hss, fun hn => hn.2.1.elim hsl fun hn => hn hss⟩
    · exact ⟨.inr (.inl hos), fun hn => hn.2.2.elim hol fun hn => hn hos⟩

/-- Where no document has counter `0` dead or would cover it, it is live in the result when it
is in some document. -/
theorem zeroLive_iff (hseen : ∀ x ∈ l, x.ZeroSeen d → x.ZeroLive d id)
    (hone : ∀ x ∈ l, x.Clouded d 1 → x.ZeroLive d id) :
    m.ZeroLive d id ↔ ∃ x ∈ l, x.ZeroLive d id := by
  refine (mergeAll_induction (P := fun l m => (∀ x ∈ l, x.ZeroSeen d → x.ZeroLive d id) →
    (∀ x ∈ l, x.Clouded d 1 → x.ZeroLive d id) → (m.ZeroSeen d → m.ZeroLive d id) ∧
      (m.ZeroLive d id ↔ ∃ x ∈ l, x.ZeroLive d id)) ?_ ?_ hmiss h hseen hone).2
  · refine fun _ _ => ⟨fun hm => (nomatch hm), iff_of_false (BTreeSet.not_mem_empty _) ?_⟩
    rintro ⟨x, hx, -⟩
    exact List.not_mem_nil hx
  · intro l s o m hc hf hm ih hseen hone
    obtain ⟨hms, hml⟩ := zero_merge d id hc hf hm
    obtain ⟨hseen, hos⟩ := forall_mem_snoc.mp hseen
    obtain ⟨hone, ho1⟩ := forall_mem_snoc.mp hone
    obtain ⟨hsl, hex⟩ := ih hseen hone
    have hmo : m.ZeroLive d id ↔ s.ZeroLive d id ∨ o.ZeroLive d id := by
      rw [hml, and_iff_left_iff_imp]
      exact fun _ => ⟨(Classical.em _).imp_right fun hn hs => hn (hsl hs),
        (Classical.em _).imp_right fun hn hs => hn (hos hs)⟩
    rw [hmo, hms, exists_mem_snoc, ← hex]
    exact ⟨fun hm => hm.imp hsl fun h => h.elim hos ho1, Iff.rfl⟩

end ZeroLive

/-! ## Completed devices -/

/-- The documents that do not have all counters of the device in their prefix have them all
together. -/
def Completes (S : List (VaultDoc V)) (d : DeviceId) : Prop :=
  Full {y | ∃ x ∈ S, x.entries.ctx.run d ≠ maxU64 ∧ y ∈ x.entries.ctx.observed} d

theorem mergeAll_isSome (hmiss : CloudsMiss p l) (hd : p = .release ∨ ∀ d, ¬ Completes l d) :
    ∃ m, mergeAll p l = some m := by
  induction l using List.reverseRecOn with
  | nil => exact ⟨_, rfl⟩
  | append_singleton l o ih =>
    have hsub : ∀ x ∈ l, x ∈ l ++ [o] := fun x hx => List.mem_append_left _ hx
    obtain ⟨s, hs⟩ := ih (hmiss.mono hsub) (hd.imp (fun hx => hx) fun hd d hf => hd d fun k hk => by
      obtain ⟨x, hx, hrest⟩ := hf k hk
      exact ⟨x, hsub x hx, hrest⟩)
    have hg := gathered (hmiss.mono hsub) hs
    cases hm : s.merge p o with
    | some m => exact ⟨m, mergeAll_snoc.mpr ⟨s, hs, hm⟩⟩
    | none =>
      obtain ⟨hp, d, hf, hsr, hor⟩ := DotContext.merge_eq_none.mp (merge_eq_none.mp hm)
      rcases hd with hr | hd
      · exact nomatch hp.symm.trans hr
      · refine absurd (fun k hk => ?_) (hd d)
        rcases hf k hk with hy | hy
        · obtain ⟨x, hx, hy⟩ := (hg.observed _).mp hy
          refine ⟨x, hsub x hx, fun hxr => hsr ((hg.compact.full_iff d).mp fun k' hk' => ?_), hy⟩
          exact (hg.observed _).mpr ⟨x, hx, mem_observed.mpr ⟨hk', .inl (hxr ▸ le_maxU64 k')⟩⟩
        · exact ⟨o, List.mem_append_right _ (List.mem_singleton_self _), hor, hy⟩

/-- A dev build that returns has completed no device out of incomplete documents. -/
theorem run_ne_max (hl : ∀ x ∈ l, x.entries.ctx.run d ≠ maxU64) (h : mergeAll .dev l = some m) :
    m.entries.ctx.run d ≠ maxU64 := by
  induction l using List.reverseRecOn generalizing m with
  | nil =>
    obtain rfl := Option.some.inj h
    exact (by decide : (0 : UInt64) ≠ maxU64)
  | append_singleton l o ih =>
    obtain ⟨hl, ho⟩ := forall_mem_snoc.mp hl
    obtain ⟨s, hs, hm⟩ := mergeAll_snoc.mp h
    have hs' := gathered (cloudsMiss_dev l) hs
    have hg := hs'.snoc (cloudsMiss_dev _) hm
    intro hr
    have hnone : s.merge .dev o = none := by
      refine merge_eq_none.mpr (DotContext.merge_eq_none.mpr ⟨rfl, d, fun k hk => ?_, ih hl hs, ho⟩)
      have hmem := (hg.compact.full_iff d).mpr hr k hk
      have hctx := merge_spec (hs'.cloudsFit (cloudsMiss_dev _)) (AddWinsSet.merge_eq_some.mp
        (merge_eq_some.mp hm).1).2
      rwa [hctx.observed] at hmem
    rw [hm] at hnone
    cases hnone

/-! ## Convergence -/

/-- All sequences that list the documents of `S` merge to one and the same document. -/
def Convergent (p : Profile) (S : List (VaultDoc V)) : Prop :=
  ∃ m, ∀ l, (∀ x, x ∈ l ↔ x ∈ S) → mergeAll p l = some m

theorem Convergent.not_completes (h : Convergent .dev S) (d : DeviceId) : ¬ Completes S d := by
  classical
  intro hf
  obtain ⟨m, hm⟩ := h
  let u := S.filter fun x => x.entries.ctx.run d ≠ maxU64
  have hu : ∀ x, x ∈ u ++ S ↔ x ∈ S := fun x => by
    rw [List.mem_append]
    exact or_iff_right_of_imp fun hx => (List.mem_filter.mp hx).1
  have hall := hm (u ++ S) hu
  rw [mergeAll, List.foldlM_append, Option.bind_eq_bind, Option.bind_eq_some_iff] at hall
  obtain ⟨s, hs, -⟩ := hall
  have hr := run_ne_max (d := d) (fun x hx => of_decide_eq_true (List.mem_filter.mp hx).2) hs
  have hg := gathered (cloudsMiss_dev u) hs
  refine hr ((hg.compact.full_iff d).mp fun k hk => ?_)
  obtain ⟨x, hx, hxr, hy⟩ := hf k hk
  exact (hg.observed _).mpr ⟨x, List.mem_filter.mpr ⟨hx, decide_eq_true hxr⟩, hy⟩

section Necessary

variable (hmiss : CloudsMiss p S) (h : Convergent p S)
include hmiss h

theorem Convergent.not_contextDiffers (d : DeviceId) : ¬ ContextDiffers S d := by
  classical
  rintro ⟨hz, t, ht, hkey, hone, hall⟩
  obtain ⟨m, hm⟩ := h
  let rest := S.filter fun x => x ≠ t
  have hrest : ∀ x, x ∈ rest ++ [t] ↔ x ∈ S := fun x => by
    rw [List.mem_append, List.mem_filter, List.mem_singleton]
    by_cases hx : x = t <;> simp [hx, ht]
  have hrest' : ∀ x, x ∈ (rest ++ [t]) ++ [t] ↔ x ∈ S := fun x => by
    rw [List.mem_append, hrest, List.mem_singleton]
    exact or_iff_left_of_imp fun he => he ▸ ht
  have hlast := (clouded_zero_snoc (d := d) (hmiss.mono fun x hx => (hrest x).mp hx)
    (hm _ hrest)).mpr
  have hagain := (clouded_zero_snoc (d := d) (hmiss.mono fun x hx => (hrest' x).mp hx)
    (hm _ hrest')).mp
  obtain ⟨x, hx, hxz⟩ := hz
  have hzero := hlast ⟨⟨x, (hrest x).mpr hx, hxz⟩, hkey, fun y hy hk =>
    of_decide_eq_true (List.mem_filter.mp hy).2 (hall y (List.mem_filter.mp hy).1 hk)⟩
  exact (hagain hzero).2.2 t (List.mem_append_right _ (List.mem_singleton_self _)) (.inr hone)

theorem Convergent.not_entryDiffers (d : DeviceId) (id : EntryId) : ¬ EntryDiffers S d id := by
  rintro ⟨⟨j, hj, hlive⟩, ⟨i, hi, hdead, hseen, hone⟩, hall⟩
  obtain ⟨m, hm⟩ := h
  have hcons : ∀ x ∈ S, ∀ y, y ∈ x :: S ↔ y ∈ S := fun x hx y => by
    rw [List.mem_cons]
    exact or_iff_right_of_imp fun he => he ▸ hx
  have hmiss' : ∀ x ∈ S, CloudsMiss p (x :: S) := fun x hx =>
    hmiss.mono fun y hy => (hcons x hx y).mp hy
  have hfit : ∀ x ∈ S, CloudsFit p (VaultDoc.new : VaultDoc V).entries.ctx x.entries.ctx :=
    fun x hx => gathered_nil.cloudsFit (hmiss.mono (by simpa using hx))
  have hnew : ¬ (VaultDoc.new : VaultDoc V).ZeroLive d id := BTreeSet.not_mem_empty _
  have hnew' : ¬ (VaultDoc.new : VaultDoc V).ZeroSeen d := fun hs => nomatch hs
  -- first the document that has it live: it stays live
  have hstays : m.ZeroLive d id := by
    refine mergeAll_cons_induction (P := fun m => m.ZeroLive d id) (hmiss' j hj) ?_ ?_
      (hm _ (hcons j hj))
    · intro m hm
      exact (zero_merge d id canonical_new.compact (hfit j hj) hm).2.mpr
        ⟨.inr hlive, .inr hnew', .inl hlive⟩
    · intro s o m hc hf ho hm hs
      refine (zero_merge d id hc hf hm).2.mpr ⟨.inl hs, .inl hs, ?_⟩
      exact (Classical.em _).imp_right fun hn hs => hn (hall o ho hs)
  -- first the document that gives the device an entry: it stays dead
  have hdies : m.ZeroSeen d ∧ ¬ m.ZeroLive d id := by
    refine mergeAll_cons_induction (P := fun m => m.ZeroSeen d ∧ ¬ m.ZeroLive d id) (hmiss' i hi)
      ?_ ?_ (hm _ (hcons i hi))
    · intro m hm
      obtain ⟨hms, hml⟩ := zero_merge d id canonical_new.compact (hfit i hi) hm
      exact ⟨hms.mpr (.inr (.inr hone)), fun hn => (hml.mp hn).1.elim hnew hdead⟩
    · rintro s o m hc hf ho hm ⟨hss, hsl⟩
      obtain ⟨hms, hml⟩ := zero_merge d id hc hf hm
      exact ⟨hms.mpr (.inl hss), fun hn => (hml.mp hn).2.1.elim hsl fun hn => hn hss⟩
  exact hdies.2 hstays

end Necessary

section Sufficient

variable (hmiss : CloudsMiss p S) (hl : ∀ x, x ∈ l ↔ x ∈ S) (hl' : ∀ x, x ∈ l' ↔ x ∈ S)
  (hm : mergeAll p l = some m) (hm' : mergeAll p l' = some m')
include hmiss hl hl' hm hm'

theorem clouded_zero_of (hd : ¬ ContextDiffers S d) (h : m.Clouded d 0) : m'.Clouded d 0 := by
  rcases List.eq_nil_or_concat l with rfl | ⟨l₀, o, rfl⟩
  · obtain rfl := Option.some.inj hm
    exact absurd h (BTreeSet.not_mem_empty _)
  rcases List.eq_nil_or_concat l' with rfl | ⟨l₀', o', rfl⟩
  · exact absurd ((hl' o).mpr ((hl o).mp (by simp))) List.not_mem_nil
  rw [List.concat_eq_append] at hl hl' hm hm'
  obtain ⟨⟨x, hx, hxz⟩, hkey, hno⟩ :=
    (clouded_zero_snoc (hmiss.mono fun x hx => (hl x).mp hx) hm).mp h
  have hone : ¬ o.Clouded d 1 := fun hone => hd ⟨⟨x, (hl x).mp hx, hxz⟩, o, (hl o).mp (by simp),
    hkey, hone, fun y hy hk => by
      rcases List.mem_append.mp ((hl y).mpr hy) with hy | hy
      · exact absurd hk (hno y hy)
      · exact List.mem_singleton.mp hy⟩
  have hall : ∀ y ∈ S, ¬ (y.Keyed d ∨ y.Clouded d 1) := fun y hy => by
    rcases List.mem_append.mp ((hl y).mpr hy) with hy | hy
    · exact hno y hy
    · rw [List.mem_singleton.mp hy]
      exact fun hk => hk.elim hkey hone
  refine (clouded_zero_snoc (hmiss.mono fun x hx => (hl' x).mp hx) hm').mpr
    ⟨⟨x, (hl' x).mpr ((hl x).mp hx), hxz⟩, ?_, ?_⟩
  · exact fun hk => hall o' ((hl' o').mp (by simp)) (.inl hk)
  · exact fun y hy => hall y ((hl' y).mp (List.mem_append_left _ hy))

theorem zeroLive_of (hd : ¬ EntryDiffers S d id) (h : m.ZeroLive d id) : m'.ZeroLive d id := by
  have hml := hmiss.mono fun x hx => (hl x).mp hx
  have hml' := hmiss.mono fun x hx => (hl' x).mp hx
  obtain ⟨x, hx, hlive⟩ := exists_zeroLive hml hm h
  have hseen : ∀ y ∈ S, y.ZeroSeen d → y.ZeroLive d id := fun y hy hs => by
    by_contra hn
    exact not_zeroLive_of_dead hml hm ⟨y, (hl y).mpr hy, hs, hn⟩ h
  have hone : ∀ y ∈ S, y.Clouded d 1 → y.ZeroLive d id := fun y hy ho => by
    by_contra hn
    exact hd ⟨⟨x, (hl x).mp hx, hlive⟩, ⟨y, hy, hn, fun hs => hn (hseen y hy hs), ho⟩, hseen⟩
  exact (zeroLive_iff hml' hm' (fun y hy => hseen y ((hl' y).mp hy))
    fun y hy => hone y ((hl' y).mp hy)).mpr ⟨x, (hl' x).mpr ((hl x).mp hx), hlive⟩

end Sufficient

/-- **When merging decoded documents converges.** Order and repetition play no part exactly if,
in a dev build, no device's counters are completed, and the documents do not differ over
counter `0` of a device, in the context or for an entry. (A `usize` counts the dots in the
clouds of the documents held.) -/
theorem convergent_iff (p : Profile) (S : List (VaultDoc V))
    (hlen : (S.map fun x => x.entries.ctx.dc.len).sum < 2 ^ 64) :
    Convergent p S ↔ (p = .release ∨ ∀ d, ¬ Completes S d) ∧ (∀ d, ¬ ContextDiffers S d) ∧
      ∀ d id, ¬ EntryDiffers S d id := by
  have hmiss : CloudsMiss p S := cloudsMiss_of_len hlen
  constructor
  · intro h
    refine ⟨?_, h.not_contextDiffers hmiss, h.not_entryDiffers hmiss⟩
    cases p with
    | dev => exact .inr h.not_completes
    | release => exact .inl rfl
  · rintro ⟨hdev, hctx, hentry⟩
    obtain ⟨m, hm⟩ := mergeAll_isSome hmiss hdev
    refine ⟨m, fun l hl => ?_⟩
    have hml := hmiss.mono fun x hx => (hl x).mp hx
    obtain ⟨m', hm'⟩ := mergeAll_isSome hml (hdev.imp_right fun hd d hf => hd d fun k hk => by
      obtain ⟨x, hx, hrest⟩ := hf k hk
      exact ⟨x, (hl x).mp hx, hrest⟩)
    have hS : ∀ x, x ∈ S ↔ x ∈ S := fun x => Iff.rfl
    rw [hm', (gathered hml hm').ext (gathered hmiss hm) hl (fun d => ?_) fun d id => ?_]
    · exact ⟨clouded_zero_of hmiss hl hS hm' hm (hctx d),
        clouded_zero_of hmiss hS hl hm hm' (hctx d)⟩
    · exact ⟨zeroLive_of hmiss hl hS hm' hm (hentry d id),
        zeroLive_of hmiss hS hl hm hm' (hentry d id)⟩

/-- Prefixes alone converge in a release build. -/
theorem convergent_iff_observedUpTo : Convergent .release [observedUpTo 2, observedUpTo 5] :=
  (convergent_iff .release _ (by decide)).mpr ⟨.inl rfl,
    fun d ⟨⟨x, hx, hz⟩, _⟩ => by
      rcases List.mem_pair.mp hx with rfl | rfl <;> exact BTreeSet.not_mem_empty _ hz,
    fun d id ⟨⟨x, hx, hz⟩, _⟩ => by
      rcases List.mem_pair.mp hx with rfl | rfl <;> exact BTreeSet.not_mem_empty _ hz⟩

/-- Merged into a new document, this one keeps counter `0` in its cloud; merged again, it loses
it, since its counter `1` has given the device an entry. -/
def zeroAndOne : VaultDoc ℕ := ⟨⟨.empty, ⟨.empty, .ofList [⟨dev 1, 0⟩, ⟨dev 1, 1⟩]⟩⟩, .empty⟩

/-- Merging a document twice can differ from merging it once. -/
theorem not_convergent_zeroAndOne :
    ¬ ∀ (p : Profile) (l l' : List (VaultDoc ℕ)) (m m' : VaultDoc ℕ), (∀ x, x ∈ l ↔ x ∈ l') →
      mergeAll p l = some m → mergeAll p l' = some m' → m = m' := by
  intro hall
  have h : ((mergeAll .dev [zeroAndOne]).any fun m =>
      (mergeAll .dev [zeroAndOne, zeroAndOne]).any fun m' => m ≠ m') = true := by decide
  obtain ⟨m, hm, h⟩ := (Option.any_eq_true _ _).mp h
  obtain ⟨m', hm', hne⟩ := (Option.any_eq_true _ _).mp h
  exact of_decide_eq_true hne (hall .dev _ _ m m' (by simp) hm hm')

end RealmGuard.VaultDoc
