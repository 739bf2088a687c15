import RealmGuard.Crdt.AwSetSpec
import RealmGuard.Lib.Replication

/-!
# Labels in runs

A replicated type has a `Presence` when its documents hold an add-wins set that
each operation adds to, removes from or leaves alone. `Made log i x e` says that
operation `i` added `e` under the dot `x`. The invariant of a run is in two
parts: `Labels` says of the log that no two operations made the same dot and
that the dots of a device have no gap, and `Sound` says of a document and its
history that its dots were made by operations of the log for the same elements
and that it has observed the dots made in its history.

A device draws its dots from its own replica, which has its whole past in its
history: there lies the freshness of a new dot. The counter must not wrap:
`NoWrap` holds of every dev build, and of a release build as long as each device
adds fewer than `2 ^ 64` times.
-/

namespace RealmGuard

open Lib DotContext AddWinsSet

/-- The operations on a set. -/
inductive SetOp (E : Type) where
  | add (e : E)
  | remove (e : E)
deriving DecidableEq

namespace SetOp

variable {E : Type}

def isAdd : SetOp E → Bool
  | .add _ => true
  | .remove _ => false

end SetOp

/-- The add-wins set inside the documents of a replicated type. -/
structure Presence {Op S : Type} (p : Profile) (T : DeltaType DeviceId Op S) (E : Type)
    [LinearOrder E] where
  view : S → AddWinsSet E
  kind : Op → Option (SetOp E)
  init : view T.init = .new
  merge : ∀ {a b c : S}, T.merge a b = some c → (view a).merge p (view b) = some (view c)
  add : ∀ {d : DeviceId} {op : Op} {e : E} {s s' δ : S}, kind op = some (.add e) →
    T.mutate d op s = some (s', δ) → (view s).add p e d = some (view s', view δ)
  remove : ∀ {d : DeviceId} {op : Op} {e : E} {s s' δ : S}, kind op = some (.remove e) →
    T.mutate d op s = some (s', δ) → (view s).remove p e = some (view s', view δ)
  other : ∀ {d : DeviceId} {op : Op} {s s' δ : S}, kind op = none →
    T.mutate d op s = some (s', δ) → view s' = view s ∧ view δ = .new

namespace Presence

variable {Op S : Type} {p : Profile} {T : DeltaType DeviceId Op S} {E : Type} [LinearOrder E]
  (v : Presence p T E)

/-- The number of adds `d` performed. -/
def adds (log : List (Event DeviceId Op S)) (d : DeviceId) : ℕ :=
  log.countP fun ev => ev.device = d ∧ (v.kind ev.op).any SetOp.isAdd = true

/-- No device's counter wrapped. -/
def NoWrap (log : List (Event DeviceId Op S)) : Prop := p = .dev ∨ ∀ d, v.adds log d < 2 ^ 64

/-- Operation `i` added `e` under the dot `x`. -/
def Made (log : List (Event DeviceId Op S)) (i : ℕ) (x : Dot) (e : E) : Prop :=
  ∃ ev, log[i]? = some ev ∧ v.kind ev.op = some (.add e) ∧ x ∈ (v.view ev.delta).dots e

/-- What holds of the dots a log made. -/
structure Labels (log : List (Event DeviceId Op S)) : Prop where
  spec : ∀ {i : ℕ} {ev : Event DeviceId Op S} {e : E}, log[i]? = some ev →
    v.kind ev.op = some (.add e) →
    ∃ x s', x.device = ev.device ∧ AddSpec (v.view ev.pre) e s' (v.view ev.delta) x
  count : ∀ {i : ℕ} {x : Dot} {e : E}, v.Made log i x e → x.counter.toNat ≤ v.adds log x.device
  unique : ∀ {i j : ℕ} {x : Dot} {e e' : E}, v.Made log i x e → v.Made log j x e' → i = j
  down : ∀ {i : ℕ} {x : Dot} {e : E} {k : UInt64}, v.Made log i x e → 0 < k → k ≤ x.counter →
    ∃ j e', v.Made log j (.new x.device k) e'
  notMax : ∀ {i : ℕ} {x : Dot} {e : E}, p = .dev → v.Made log i x e → x.counter ≠ maxU64

/-- What holds of a document with history `h`. -/
structure Sound (log : List (Event DeviceId Op S)) (h : Finset ℕ) (s : AddWinsSet E) : Prop where
  wellFormed : s.WellFormed
  seen : ∀ {e : E} {x : Dot}, x ∈ s.dots e → x ∈ s.ctx.observed
  made : ∀ {x : Dot}, x ∈ s.ctx.observed → ∃ i e, v.Made log i x e
  owner : ∀ {e : E} {x : Dot}, x ∈ s.dots e → ∃ i, v.Made log i x e
  known : ∀ {i : ℕ} {x : Dot} {e : E}, i ∈ h → v.Made log i x e → x ∈ s.ctx.observed

variable {v} {log : List (Event DeviceId Op S)} {ev : Event DeviceId Op S} {h : Finset ℕ}
  {s s' δ : AddWinsSet E} {i j : ℕ} {x y : Dot} {e e' : E}

/-! ## The log -/

theorem Made.lt (hm : v.Made log i x e) : i < log.length := by
  obtain ⟨ev, hev, -⟩ := hm
  exact (List.getElem?_eq_some_iff.mp hev).1

theorem made_snoc : v.Made (log ++ [ev]) i x e ↔ v.Made log i x e ∨
    i = log.length ∧ v.kind ev.op = some (.add e) ∧ x ∈ (v.view ev.delta).dots e := by
  constructor
  · rintro ⟨ev', hev', hk, hx⟩
    rcases getElem?_snoc_iff.mp hev' with hev' | ⟨rfl, rfl⟩
    · exact .inl ⟨ev', hev', hk, hx⟩
    · exact .inr ⟨rfl, hk, hx⟩
  · rintro (⟨ev', hev', hk, hx⟩ | ⟨rfl, hk, hx⟩)
    · exact ⟨ev', getElem?_snoc_iff.mpr (.inl hev'), hk, hx⟩
    · exact ⟨ev, getElem?_snoc_iff.mpr (.inr ⟨rfl, rfl⟩), hk, hx⟩

/-- An operation that adds nothing makes no dot. -/
theorem made_snoc_of_ne (hk : ∀ e, v.kind ev.op ≠ some (.add e)) :
    v.Made (log ++ [ev]) i x e ↔ v.Made log i x e := by
  rw [made_snoc]
  exact or_iff_left fun hm => hk e hm.2.1

theorem not_made_last (hk : ∀ e, v.kind ev.op ≠ some (.add e)) :
    ¬ v.Made (log ++ [ev]) log.length y e' := fun hm =>
  lt_irrefl _ ((made_snoc_of_ne hk).mp hm).lt

/-- An add makes the dot it draws, for its element. -/
theorem made_last_iff (hk : v.kind ev.op = some (.add e))
    (hspec : AddSpec (v.view ev.pre) e s' (v.view ev.delta) x) :
    v.Made (log ++ [ev]) log.length y e' ↔ e' = e ∧ y = x := by
  rw [made_snoc, or_iff_right fun hm : v.Made log log.length y e' => lt_irrefl _ hm.lt,
    and_iff_right rfl, ← hspec.mem_delta_dots]
  refine and_iff_right_of_imp fun hy => ?_
  rw [(hspec.mem_delta_dots.mp hy).1, hk]

theorem Made.snoc (hm : v.Made log i x e) : v.Made (log ++ [ev]) i x e := made_snoc.mpr (.inl hm)

theorem Made.of_snoc (hm : v.Made (log ++ [ev]) i x e) (hi : i < log.length) :
    v.Made log i x e :=
  (made_snoc.mp hm).resolve_right fun h => hi.ne h.1

theorem adds_snoc_self (hk : v.kind ev.op = some (.add e)) :
    v.adds (log ++ [ev]) ev.device = v.adds log ev.device + 1 := by
  simp [adds, hk, SetOp.isAdd]

theorem adds_snoc_of_device_ne {d : DeviceId} (h : ev.device ≠ d) :
    v.adds (log ++ [ev]) d = v.adds log d := by
  simp [adds, h]

theorem adds_snoc_of_kind_ne {d : DeviceId} (h : ∀ e, v.kind ev.op ≠ some (.add e)) :
    v.adds (log ++ [ev]) d = v.adds log d := by
  cases hk : v.kind ev.op with
  | none => simp [adds, hk]
  | some k =>
    cases k with
    | add e => exact absurd hk (h e)
    | remove e => simp [adds, hk, SetOp.isAdd]

theorem adds_le_length (d : DeviceId) : v.adds log d ≤ log.length := List.countP_le_length

theorem adds_le_snoc (d : DeviceId) : v.adds log d ≤ v.adds (log ++ [ev]) d := by
  rw [adds, adds, List.countP_append]
  exact Nat.le_add_right _ _

theorem NoWrap.of_snoc (hw : v.NoWrap (log ++ [ev])) : v.NoWrap log :=
  hw.imp id fun h d => (adds_le_snoc d).trans_lt (h d)

theorem Labels.same_element (hl : v.Labels log) (hm : v.Made log i x e) (hm' : v.Made log j x e') :
    e = e' := by
  obtain rfl := hl.unique hm hm'
  obtain ⟨ev, hev, hk, -⟩ := hm
  obtain ⟨ev', hev', hk', -⟩ := hm'
  obtain rfl := Option.some.inj (hev.symm.trans hev')
  exact SetOp.add.inj (Option.some.inj (hk.symm.trans hk'))

/-- A dot carries the device of the operation that made it. -/
theorem Labels.device (hl : v.Labels log) (hm : v.Made log i x e) (hev : log[i]? = some ev) :
    ev.device = x.device := by
  obtain ⟨ev', hev', hk, hx⟩ := hm
  obtain rfl := Option.some.inj (hev.symm.trans hev')
  obtain ⟨y, s', hd, hspec⟩ := hl.spec hev hk
  rw [(hspec.mem_delta_dots.mp hx).2, hd]

theorem labels_nil : v.Labels [] where
  spec hev := absurd (List.mem_of_getElem? hev) List.not_mem_nil
  count hm := absurd hm.lt (Nat.not_lt_zero _)
  unique hm := absurd hm.lt (Nat.not_lt_zero _)
  down hm := absurd hm.lt (Nat.not_lt_zero _)
  notMax _ hm := absurd hm.lt (Nat.not_lt_zero _)

/-- An operation that adds nothing leaves the labels as they are. -/
theorem Labels.snoc_of_ne (hl : v.Labels log) (hk : ∀ e, v.kind ev.op ≠ some (.add e)) :
    v.Labels (log ++ [ev]) where
  spec hev hk' := by
    rcases getElem?_snoc_iff.mp hev with hev | ⟨-, rfl⟩
    · exact hl.spec hev hk'
    · exact absurd hk' (hk _)
  count hm := (hl.count ((made_snoc_of_ne hk).mp hm)).trans (adds_le_snoc _)
  unique hm hm' := hl.unique ((made_snoc_of_ne hk).mp hm) ((made_snoc_of_ne hk).mp hm')
  down hm h0 hle := by
    obtain ⟨j, e', hj⟩ := hl.down ((made_snoc_of_ne hk).mp hm) h0 hle
    exact ⟨j, e', hj.snoc⟩
  notMax hp hm := hl.notMax hp ((made_snoc_of_ne hk).mp hm)

/-! ## Documents -/

theorem sound_new : v.Sound log ∅ (.new : AddWinsSet E) where
  wellFormed := wellFormed_new
  seen hx := (BTreeSet.not_mem_empty _ hx).elim
  made hx := by
    change _ ∈ DotContext.new.observed at hx
    rw [observed_new] at hx
    exact absurd hx (Set.notMem_empty _)
  owner hx := (BTreeSet.not_mem_empty _ hx).elim
  known hi := absurd hi (Finset.notMem_empty _)

theorem Sound.snoc (hs : v.Sound log h s) (hh : ∀ i ∈ h, i < log.length) :
    v.Sound (log ++ [ev]) h s where
  wellFormed := hs.wellFormed
  seen := hs.seen
  made hx := by
    obtain ⟨i, e, hm⟩ := hs.made hx
    exact ⟨i, e, hm.snoc⟩
  owner hx := by
    obtain ⟨i, hm⟩ := hs.owner hx
    exact ⟨i, hm.snoc⟩
  known hi hm := hs.known hi (hm.of_snoc (hh _ hi))

theorem Sound.merge {a b c : AddWinsSet E} {h' : Finset ℕ} (ha : v.Sound log h a)
    (hb : v.Sound log h' b) (hm : a.merge p b = some c) : v.Sound log (h ∪ h') c := by
  obtain ⟨hwf, hk⟩ := ha.wellFormed.merge hb.wellFormed hm
  have hobs : c.ctx.observed = a.ctx.observed ∪ b.ctx.observed := congrArg DotKernel.seen hk
  have hdots : ∀ {e x}, x ∈ c.dots e → x ∈ a.dots e ∨ x ∈ b.dots e := fun hx =>
    ((mem_dots_merge hm).mp hx).1
  refine ⟨hwf, fun hx => ?_, fun hx => ?_, fun hx => ?_, fun hi hmade => ?_⟩
  · rw [hobs]
    exact (hdots hx).imp ha.seen hb.seen
  · rw [hobs] at hx
    exact hx.elim ha.made hb.made
  · exact (hdots hx).elim ha.owner hb.owner
  · rw [hobs]
    exact (Finset.mem_union.mp hi).imp (ha.known · hmade) (hb.known · hmade)

/-- Merges of sound documents return. -/
theorem Labels.merge_isSome {a b : AddWinsSet E} {h' : Finset ℕ} (hl : v.Labels log)
    (ha : v.Sound log h a) (hb : v.Sound log h' b) : ∃ c, a.merge p b = some c := by
  rw [← Option.isSome_iff_exists, Option.isSome_iff_ne_none]
  intro hnone
  obtain ⟨hp, d, hfull, -⟩ := DotContext.merge_eq_none.mp (AddWinsSet.merge_eq_none.mp hnone)
  obtain ⟨i, e, hm⟩ := (hfull maxU64 (by decide)).elim ha.made hb.made
  exact hl.notMax hp hm rfl

/-- The dots of an element belong to it alone. -/
theorem Labels.exclusive (hl : v.Labels log) (hs : v.Sound log h s) (e : E) : Exclusive s e := by
  intro y hy
  refine ⟨hs.seen hy, fun e' hy' => ?_⟩
  obtain ⟨i, hi⟩ := hs.owner hy
  obtain ⟨j, hj⟩ := hs.owner hy'
  exact hl.same_element hj hi

/-! ## Operations -/

section Add

/-- The largest counter of the adding device is one it made. -/
theorem Sound.top_le (hl : v.Labels log) (hs : v.Sound log h s) (d : DeviceId) :
    (s.ctx.top d).toNat ≤ v.adds log d := by
  rcases top_eq_zero_or_mem s.ctx d with h0 | hmem
  · rw [h0]
    exact Nat.zero_le _
  · obtain ⟨i, e, hm⟩ := hs.made hmem
    exact hl.count hm

theorem Sound.top_lt (hl : v.Labels log) (hs : v.Sound log h s)
    (hk : v.kind ev.op = some (.add e)) (hw : v.NoWrap (log ++ [ev])) :
    p = .dev ∨ (s.ctx.top ev.device).toNat + 1 < 2 ^ 64 := by
  refine hw.imp id fun hlt => ?_
  have hadds := hlt ev.device
  have htop := hs.top_le hl ev.device
  rw [adds_snoc_self hk] at hadds
  omega

/-- An operation counts in its device's own context. -/
theorem adds_le_top_mutate {d : DeviceId} {op : Op} {t t' δ : S} (hwf : (v.view t).WellFormed)
    (hroom : ∀ e, v.kind op = some (.add e) →
      p = .dev ∨ ((v.view t).ctx.top d).toNat + 1 < 2 ^ 64)
    (hm : T.mutate d op t = some (t', δ))
    (hadds : v.adds log d ≤ ((v.view t).ctx.top d).toNat) :
    v.adds (log ++ [⟨d, op, h, t, δ⟩]) d ≤ ((v.view t').ctx.top d).toNat := by
  cases hk : v.kind op with
  | none =>
    rw [adds_snoc_of_kind_ne (by simp [hk]), (v.other hk hm).1]
    exact hadds
  | some k =>
    cases k with
    | add e =>
      obtain ⟨x, rfl, hspec, -⟩ := add_spec hwf (hroom e hk) (v.add hk hm)
      have hmem : Dot.new x.device x.counter ∈ (v.view t').ctx.observed := by
        rw [hspec.observed]
        exact .inl rfl
      have hle := le_top hmem
      have hcount : v.adds (log ++ [⟨x.device, op, h, t, δ⟩]) x.device =
          v.adds log x.device + 1 := adds_snoc_self hk
      rw [UInt64.le_iff_toNat_le, hspec.counter] at hle
      omega
    | remove e =>
      rw [adds_snoc_of_kind_ne (by simp [hk]), (remove_spec hwf (v.remove hk hm)).ctx]
      exact hadds

/-- No earlier operation made the dot that an add draws. -/
theorem AddSpec.not_made (hl : v.Labels log) (hs : v.Sound log h s)
    (hown : ∀ i ev', log[i]? = some ev' → ev'.device = x.device → i ∈ h)
    (hspec : AddSpec s e s' δ x) : ¬ v.Made log i x e' := fun hm => by
  obtain ⟨ev', hev', hrest⟩ := hm
  have hi := hown i ev' hev' (hl.device ⟨ev', hev', hrest⟩ hev')
  exact hspec.not_mem_observed (hs.known hi ⟨ev', hev', hrest⟩)

/-- The counters of the adding device below the new one have all been observed. -/
theorem AddSpec.mem_of_lt (hl : v.Labels log) (hs : v.Sound log h s)
    (hown : ∀ i ev', log[i]? = some ev' → ev'.device = x.device → i ∈ h)
    (hspec : AddSpec s e s' δ x) {k : UInt64} (h0 : 0 < k) (hk : k < x.counter) :
    (∃ j e', v.Made log j (.new x.device k) e') ∧ Dot.new x.device k ∈ s.ctx.observed := by
  have hc := hspec.counter
  rw [UInt64.lt_iff_toNat_lt] at hk h0
  change 0 < k.toNat at h0
  have hmem : Dot.new x.device (s.ctx.top x.device) ∈ s.ctx.observed :=
    (top_eq_zero_or_mem s.ctx x.device).resolve_left fun hz => by
      rw [hz] at hc
      change x.counter.toNat = 1 at hc
      omega
  obtain ⟨i, e₁, hm⟩ := hs.made hmem
  have hle : k ≤ s.ctx.top x.device := by
    rw [UInt64.le_iff_toNat_le]
    omega
  obtain ⟨j, e₂, hj⟩ := hl.down hm (UInt64.lt_iff_toNat_lt.mpr h0) hle
  refine ⟨⟨j, e₂, hj⟩, ?_⟩
  obtain ⟨ev', hev', hrest⟩ := hj
  have hj' : v.Made log j (.new x.device k) e₂ := ⟨ev', hev', hrest⟩
  have hd : ev'.device = (Dot.new x.device k).device := hl.device hj' hev'
  exact hs.known (hown j ev' hev' hd) hj'

/-- An add makes one dot, new to the log. -/
theorem Labels.snoc_add (hl : v.Labels log) (hs : v.Sound log ev.past (v.view ev.pre))
    (hown : ∀ i ev', log[i]? = some ev' → ev'.device = ev.device → i ∈ ev.past)
    (hk : v.kind ev.op = some (.add e)) (hx : x.device = ev.device)
    (hspec : AddSpec (v.view ev.pre) e s' (v.view ev.delta) x)
    (hfull : p = .dev → ¬ Full s'.ctx.observed ev.device) : v.Labels (log ++ [ev]) := by
  rw [← hx] at hown hfull
  have hnew : ∀ {i : ℕ} {y : Dot} {e' : E}, v.Made (log ++ [ev]) i y e' →
      v.Made log i y e' ∨ i = log.length ∧ y = x := by
    intro i y e' hm
    refine (made_snoc.mp hm).imp id fun ⟨hi, hk', hy⟩ => ⟨hi, ?_⟩
    exact (hspec.mem_delta_dots.mp hy).2
  have hfresh : ∀ {i : ℕ} {e' : E}, ¬ v.Made log i x e' := AddSpec.not_made hl hs hown hspec
  refine ⟨fun hev' hk' => ?_, fun hm => ?_, fun hm hm' => ?_, fun {i y e₁ k} hm h0 hle => ?_,
    fun hp hm => ?_⟩
  · rcases getElem?_snoc_iff.mp hev' with hev' | ⟨-, rfl⟩
    · exact hl.spec hev' hk'
    · obtain rfl := SetOp.add.inj (Option.some.inj (hk.symm.trans hk'))
      exact ⟨x, s', hx, hspec⟩
  · rcases hnew hm with hm | ⟨-, rfl⟩
    · exact (hl.count hm).trans (adds_le_snoc _)
    · have htop := hs.top_le hl ev.device
      rw [hx, adds_snoc_self hk, hspec.counter, hx]
      omega
  · rcases hnew hm with hm | ⟨hi, hy⟩ <;> rcases hnew hm' with hm' | ⟨hj, hy'⟩
    · exact hl.unique hm hm'
    · exact absurd (hy' ▸ hm) hfresh
    · exact absurd (hy ▸ hm') hfresh
    · rw [hi, hj]
  · rcases hnew hm with hm | ⟨-, rfl⟩
    · obtain ⟨j, e', hj⟩ := hl.down hm h0 hle
      exact ⟨j, e', hj.snoc⟩
    · rcases lt_or_eq_of_le hle with hlt | rfl
      · obtain ⟨⟨j, e', hj⟩, -⟩ := AddSpec.mem_of_lt hl hs hown hspec h0 hlt
        exact ⟨j, e', hj.snoc⟩
      · exact ⟨i, e₁, hm⟩
  · rcases hnew hm with hm | ⟨-, rfl⟩
    · exact hl.notMax hp hm
    · intro hmax
      refine hfull hp fun k h0 => ?_
      rw [hspec.observed]
      rcases lt_or_eq_of_le (le_maxU64 k) with hlt | rfl
      · exact .inr (AddSpec.mem_of_lt hl hs hown hspec h0 (hmax ▸ hlt)).2
      · exact .inl (by rw [← hmax]; rfl)

theorem Sound.snoc_add (hs : v.Sound log ev.past (v.view ev.pre))
    (hh : ∀ i ∈ ev.past, i < log.length) (hk : v.kind ev.op = some (.add e))
    (hspec : AddSpec (v.view ev.pre) e s' (v.view ev.delta) x) :
    v.Sound (log ++ [ev]) (insert log.length ev.past) s' where
  wellFormed := (hspec.wellFormed hs.wellFormed).1
  seen hy := by
    rw [hspec.mem_dots] at hy
    rw [hspec.observed]
    split at hy
    · exact .inl hy
    · exact .inr (hs.seen hy)
  made hy := by
    rw [hspec.observed] at hy
    rcases hy with rfl | hy
    · exact ⟨_, e, (made_last_iff hk hspec).mpr ⟨rfl, rfl⟩⟩
    · exact (hs.snoc hh).made hy
  owner hy := by
    rw [hspec.mem_dots] at hy
    split at hy
    · next he => exact ⟨_, (made_last_iff hk hspec).mpr ⟨he, hy⟩⟩
    · exact (hs.snoc hh).owner hy
  known hi hm := by
    rw [hspec.observed]
    rcases Finset.mem_insert.mp hi with rfl | hi
    · exact .inl ((made_last_iff hk hspec).mp hm).2
    · exact .inr ((hs.snoc hh).known hi hm)

theorem Sound.delta_add (hs : v.Sound log ev.past (v.view ev.pre))
    (hh : ∀ i ∈ ev.past, i < log.length) (hk : v.kind ev.op = some (.add e))
    (hspec : AddSpec (v.view ev.pre) e s' (v.view ev.delta) x) :
    v.Sound (log ++ [ev]) {log.length} (v.view ev.delta) where
  wellFormed := (hspec.wellFormed hs.wellFormed).2
  seen hy := (hspec.delta_observed _).mpr (.inl (hspec.mem_delta_dots.mp hy).2)
  made hy := by
    rcases (hspec.delta_observed _).mp hy with rfl | hy
    · exact ⟨_, e, (made_last_iff hk hspec).mpr ⟨rfl, rfl⟩⟩
    · obtain ⟨i, hi⟩ := (hs.snoc hh).owner hy
      exact ⟨i, e, hi⟩
  owner hy := ⟨_, (made_last_iff hk hspec).mpr (hspec.mem_delta_dots.mp hy)⟩
  known hi hm := by
    obtain rfl := Finset.mem_singleton.mp hi
    exact (hspec.delta_observed _).mpr (.inl ((made_last_iff hk hspec).mp hm).2)

end Add

theorem Sound.snoc_remove (hs : v.Sound log ev.past (v.view ev.pre))
    (hh : ∀ i ∈ ev.past, i < log.length) (hk : v.kind ev.op = some (.remove e))
    (hspec : RemoveSpec (v.view ev.pre) e s' (v.view ev.delta)) :
    v.Sound (log ++ [ev]) (insert log.length ev.past) s' where
  wellFormed := (hspec.wellFormed hs.wellFormed).1
  seen hy := by
    rw [hspec.ctx]
    exact hs.seen (hspec.mem_dots.mp hy).2
  made hy := by
    rw [hspec.ctx] at hy
    exact (hs.snoc hh).made hy
  owner hy := (hs.snoc hh).owner (hspec.mem_dots.mp hy).2
  known hi hm := by
    rw [hspec.ctx]
    rcases Finset.mem_insert.mp hi with rfl | hi
    · exact absurd hm (not_made_last (by simp [hk]))
    · exact (hs.snoc hh).known hi hm

theorem Sound.delta_remove (hs : v.Sound log ev.past (v.view ev.pre))
    (hh : ∀ i ∈ ev.past, i < log.length) (hk : v.kind ev.op = some (.remove e))
    (hspec : RemoveSpec (v.view ev.pre) e s' (v.view ev.delta)) :
    v.Sound (log ++ [ev]) {log.length} (v.view ev.delta) where
  wellFormed := (hspec.wellFormed hs.wellFormed).2
  seen hy := absurd hy hspec.not_mem_delta_dots
  made hy := (hs.snoc hh).made (hs.seen ((hspec.delta_observed _).mp hy))
  owner hy := absurd hy hspec.not_mem_delta_dots
  known hi hm := by
    obtain rfl := Finset.mem_singleton.mp hi
    exact absurd hm (not_made_last (by simp [hk]))

/-- An operation that is no set operation leaves the set as it was. -/
theorem Sound.snoc_other (hs : v.Sound log ev.past (v.view ev.pre))
    (hh : ∀ i ∈ ev.past, i < log.length) (hk : v.kind ev.op = none) :
    v.Sound (log ++ [ev]) (insert log.length ev.past) (v.view ev.pre) where
  wellFormed := hs.wellFormed
  seen := hs.seen
  made := (hs.snoc hh).made
  owner := (hs.snoc hh).owner
  known hi hm := by
    rcases Finset.mem_insert.mp hi with rfl | hi
    · exact absurd hm (not_made_last (by simp [hk]))
    · exact (hs.snoc hh).known hi hm

theorem sound_delta_other (hk : v.kind ev.op = none) :
    v.Sound (log ++ [ev]) {log.length} (.new : AddWinsSet E) where
  wellFormed := wellFormed_new
  seen hx := (BTreeSet.not_mem_empty _ hx).elim
  made hx := sound_new.made hx
  owner hx := (BTreeSet.not_mem_empty _ hx).elim
  known hi hm := by
    obtain rfl := Finset.mem_singleton.mp hi
    exact absurd hm (not_made_last (by simp [hk]))

end Presence

end RealmGuard
