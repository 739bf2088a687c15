import Mathlib.Data.Finset.Max
import RealmGuard.PresenceRuns

/-!
# Observed-remove semantics

Under causal delivery presence is a function of history: an element is present
when some add of it lies in the past of no removal of it (`contains_iff_survives`).
A context is then exactly the adds of the history (`mem_observed_iff_mem`), so a
dot dies at a removal or at a later add of the same element, and of the adds
that no removal saw the last one is still active.
-/

namespace RealmGuard

open Lib DotContext AddWinsSet

namespace Presence

variable {Op S : Type} {p : Profile} {T : DeltaType DeviceId Op S} {E : Type} [LinearOrder E]
  {v : Presence p T E} {n : Net DeviceId Op S} {i j : ℕ} {x : Dot} {e : E}
  {ev : Event DeviceId Op S}

/-- Some add of `e` in `h` lies in the past of no removal of `e` in `h`. -/
def Survives (v : Presence p T E) (log : List (Event DeviceId Op S)) (h : Finset ℕ) (e : E) :
    Prop :=
  ∃ i ∈ h, ∃ ev, log[i]? = some ev ∧ v.kind ev.op = some (.add e) ∧
    ∀ j ∈ h, ∀ ev', log[j]? = some ev' → v.kind ev'.op = some (.remove e) → i ∉ ev'.past

section Free

variable {ok : Net DeviceId Op S → Action DeviceId Op → Prop}

/-- The active dots of a delta are the one its operation made. -/
theorem made_of_mem_delta (hn : Runs T ok n) (hw : v.NoWrap n.log) (hev : n.log[i]? = some ev)
    (hx : x ∈ (v.view ev.delta).dots e) : v.Made n.log i x e := by
  cases hk : v.kind ev.op with
  | none =>
    rw [other_event hn hev hk] at hx
    exact absurd hx (BTreeSet.not_mem_empty x)
  | some k =>
    cases k with
    | add e' =>
      obtain ⟨y, s', -, hspec⟩ := add_event hn hw hev hk
      obtain ⟨rfl, -⟩ := hspec.mem_delta_dots.mp hx
      exact ⟨ev, hev, hk, hx⟩
    | remove e' =>
      obtain ⟨s', hspec⟩ := remove_event hn hw hev hk
      exact absurd hx hspec.not_mem_delta_dots

/-- The dots a delta has observed: the one it made, and those its operation found
active for its element. -/
theorem delta_observed (hn : Runs T ok n) (hw : v.NoWrap n.log) (hev : n.log[i]? = some ev)
    (hx : x ∈ (v.view ev.delta).ctx.observed) :
    (∃ e, v.Made n.log i x e) ∨ ∃ e, x ∈ (v.view ev.pre).dots e ∧
      (v.kind ev.op = some (.add e) ∨ v.kind ev.op = some (.remove e)) := by
  cases hk : v.kind ev.op with
  | none =>
    rw [other_event hn hev hk] at hx
    change x ∈ DotContext.new.observed at hx
    rw [observed_new] at hx
    exact absurd hx (Set.notMem_empty x)
  | some k =>
    cases k with
    | add e =>
      obtain ⟨y, s', hy, hspec⟩ := add_event hn hw hev hk
      rcases (hspec.delta_observed x).mp hx with rfl | hx
      · exact .inl ⟨e, hy⟩
      · exact .inr ⟨e, hx, .inl rfl⟩
    | remove e =>
      obtain ⟨s', hspec⟩ := remove_event hn hw hev hk
      exact .inr ⟨e, (hspec.delta_observed x).mp hx, .inr rfl⟩

theorem Made.pos (hn : Runs T ok n) (hw : v.NoWrap n.log) (hm : v.Made n.log i x e) :
    0 < x.counter := by
  obtain ⟨ev, hev, hk, hx⟩ := hm
  obtain ⟨y, s', -, hspec⟩ := add_event hn hw hev hk
  rw [(hspec.mem_delta_dots.mp hx).2]
  exact hspec.pos

end Free

section Causal

variable (hn : Runs T Causal n) (hw : v.NoWrap n.log)
include hn hw

/-- A delta carries a dot only if the operation that made it is the delta's own or
in its past. -/
theorem mem_past_of_delta (hm : v.Made n.log i x e) :
    ∀ {j : ℕ} {ev : Event DeviceId Op S}, n.log[j]? = some ev →
      x ∈ (v.view ev.delta).ctx.observed → i = j ∨ i ∈ ev.past := by
  intro j
  induction j using Nat.strong_induction_on with
  | h j ih =>
    intro ev hev hx
    rcases delta_observed hn hw hev hx with ⟨e', hj⟩ | ⟨e', hpre, -⟩
    · exact .inl ((labels hn hw).unique hm hj)
    · have hold : n.Holds ev.pre ev.past := .pre (List.mem_of_getElem? hev)
      have hseen := (sound hn hw hold).seen hpre
      obtain ⟨k, hk, ev', hev', hx'⟩ := (mem_observed_iff hn hw hold).mp hseen
      rcases ih k (hn.past_lt hev k hk) hev' hx' with rfl | hi
      · exact .inr hk
      · exact .inr (hn.closed.2 j ev hev k hk ev' hev' hi)

/-- A document with a closed history has observed a dot when the operation that
made it is in its history. -/
theorem mem_observed_iff_mem {t : S} {h : Finset ℕ} (ht : n.Holds t h) (hc : Closed n.log h)
    (hm : v.Made n.log i x e) : x ∈ (v.view t).ctx.observed ↔ i ∈ h := by
  refine ⟨fun hx => ?_, fun hi => (sound hn hw ht).known hi hm⟩
  obtain ⟨j, hj, ev, hev, hx⟩ := (mem_observed_iff hn hw ht).mp hx
  rcases mem_past_of_delta hn hw hm hev hx with rfl | hi
  · exact hj
  · exact hc j hj ev hev hi

/-- A dot that a removal saw is not active: the removal carries it, or what
deactivated it is in the removal's past. -/
theorem not_mem_dots_of_removed {t : S} {h : Finset ℕ} (ht : n.Holds t h) (hc : Closed n.log h)
    (hm : v.Made n.log i x e) (hj : j ∈ h) (hev : n.log[j]? = some ev)
    (hk : v.kind ev.op = some (.remove e)) (hi : i ∈ ev.past) : x ∉ (v.view t).dots e := by
  intro hx
  have hpos := hm.pos hn hw
  obtain ⟨s', hspec⟩ := remove_event hn hw hev hk
  obtain ⟨-, hlive⟩ := (mem_dots_iff hn hw ht hpos).mp hx
  refine hspec.not_mem_delta_dots (hlive j hj ev hev ((hspec.delta_observed x).mpr ?_))
  have hold : n.Holds ev.pre ev.past := .pre (List.mem_of_getElem? hev)
  obtain ⟨ev₀, hev₀, -, hx₀⟩ := hm
  refine (mem_dots_iff hn hw hold hpos).mpr ⟨⟨i, hi, ev₀, hev₀, hx₀⟩, fun k hk ev' hev' hx' => ?_⟩
  exact hlive k (hc j hj ev hev hk) ev' hev' hx'

/-- **Presence is observed-remove**: an element is present when some add of it lies
in the past of no removal of it. -/
theorem contains_iff_survives {t : S} {h : Finset ℕ} (ht : n.Holds t h) (hc : Closed n.log h) :
    (v.view t).contains e = true ↔ v.Survives n.log h e := by
  have hs := sound hn hw ht
  rw [hs.wellFormed.contains_iff]
  constructor
  · rintro ⟨x, hx⟩
    obtain ⟨⟨i, hi, ev, hev, hxi⟩, -⟩ := (mem_dots_iff hn hw ht (hs.wellFormed.pos e x hx)).mp hx
    have hm := made_of_mem_delta hn hw hev hxi
    obtain ⟨ev₀, hev₀, hk, -⟩ := hm
    refine ⟨i, hi, ev₀, hev₀, hk, fun j hj ev' hev' hk' hpast => ?_⟩
    exact not_mem_dots_of_removed hn hw ht hc (made_of_mem_delta hn hw hev hxi) hj hev' hk' hpast hx
  · -- the last of the adds that no removal saw
    classical
    rintro ⟨i₀, hi₀, ev₀, hev₀, hk₀, hno₀⟩
    let good : Finset ℕ := h.filter fun i => ∃ ev, n.log[i]? = some ev ∧
      v.kind ev.op = some (.add e) ∧ ∀ j ∈ h, ∀ ev', n.log[j]? = some ev' →
        v.kind ev'.op = some (.remove e) → i ∉ ev'.past
    obtain ⟨i, hi, hmax⟩ := good.exists_max_image id
      ⟨i₀, Finset.mem_filter.mpr ⟨hi₀, ev₀, hev₀, hk₀, hno₀⟩⟩
    obtain ⟨hih, ev, hev, hk, hno⟩ := Finset.mem_filter.mp hi
    obtain ⟨x, s', hm, hspec⟩ := add_event hn hw hev hk
    refine ⟨x, (mem_dots_iff hn hw ht hspec.pos).mpr
      ⟨⟨i, hih, ev, hev, hspec.mem_delta_dots.mpr ⟨rfl, rfl⟩⟩, fun k hkh ev' hev' hx => ?_⟩⟩
    rcases delta_observed hn hw hev' hx with ⟨e', hk'⟩ | ⟨e', hpre, hop⟩
    · obtain rfl := (labels hn hw).same_element hm hk'
      obtain ⟨ev'', hev'', -, hx''⟩ := hk'
      obtain rfl := Option.some.inj (hev'.symm.trans hev'')
      exact hx''
    · have hold : n.Holds ev'.pre ev'.past := .pre (List.mem_of_getElem? hev')
      have hcl : Closed n.log ev'.past := hn.closed.2 k ev' hev'
      have hpast : i ∈ ev'.past :=
        (mem_observed_iff_mem hn hw hold hcl hm).mp ((sound hn hw hold).seen hpre)
      obtain ⟨j, hj⟩ := (sound hn hw hold).owner hpre
      obtain rfl := (labels hn hw).same_element hm hj
      rcases hop with hadd | hrem
      · have hgood : k ∈ good := by
          refine Finset.mem_filter.mpr ⟨hkh, ev', hev', hadd, fun l hl ev'' hev'' hk'' hkl => ?_⟩
          exact hno l hl ev'' hev'' hk'' (hn.closed.2 l ev'' hev'' k hkl ev' hev' hpast)
        have hle := hmax k hgood
        have hlt := hn.past_lt hev' i hpast
        exact absurd hle (not_le.mpr hlt)
      · exact absurd hpast (hno k hkh ev' hev' hrem)

end Causal

end Presence

end RealmGuard
