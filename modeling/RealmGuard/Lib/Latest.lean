import Mathlib.Order.Bounds.Basic
import Mathlib.Order.WithBot

/-!
# The greatest element, or none

`Latest s k`: the optional value `k` is the greatest element of `s`, and there is
none when `s` is empty. Unions and insertions move it by `⊔`.
-/

namespace RealmGuard.Lib

variable {α : Type*} [LinearOrder α] {s t : Set α} {a : α} {k l : WithBot α}

/-- `k` is the greatest of `s`, or `⊥` when `s` is empty. -/
def Latest (s : Set α) (k : WithBot α) : Prop :=
  IsGreatest (insert ⊥ (((↑) : α → WithBot α) '' s)) k

theorem latest_empty : Latest (∅ : Set α) ⊥ := by
  refine ⟨.inl rfl, ?_⟩
  rintro _ (rfl | ⟨a, ha, -⟩)
  · exact le_rfl
  · exact absurd ha (Set.notMem_empty a)

theorem Latest.union (hs : Latest s k) (ht : Latest t l) : Latest (s ∪ t) (k ⊔ l) := by
  have h := IsGreatest.union hs ht
  rwa [← Set.insert_union_distrib, ← Set.image_union] at h

theorem Latest.insert (hs : Latest s k) (a : α) : Latest (insert a s) (k ⊔ (a : WithBot α)) := by
  have h := IsGreatest.insert (a : WithBot α) hs
  rwa [Set.insert_comm, ← Set.image_insert_eq, max_comm] at h

theorem latest_bot_iff : Latest s ⊥ ↔ s = ∅ := by
  constructor
  · intro h
    refine Set.eq_empty_of_forall_notMem fun a ha => ?_
    exact WithBot.coe_ne_bot (le_bot_iff.mp (h.2 (.inr ⟨a, ha, rfl⟩)))
  · rintro rfl
    exact latest_empty

theorem latest_coe_iff : Latest s (a : WithBot α) ↔ IsGreatest s a := by
  constructor
  · rintro ⟨hmem, hub⟩
    have ha : a ∈ s := by
      rcases hmem with h | ⟨b, hb, h⟩
      · exact absurd h WithBot.coe_ne_bot
      · exact WithBot.coe_inj.mp h ▸ hb
    exact ⟨ha, fun b hb => WithBot.coe_le_coe.mp (hub (.inr ⟨b, hb, rfl⟩))⟩
  · rintro ⟨ha, hub⟩
    refine ⟨.inr ⟨a, ha, rfl⟩, ?_⟩
    rintro _ (rfl | ⟨b, hb, rfl⟩)
    · exact bot_le
    · exact WithBot.coe_le_coe.mpr (hub hb)

end RealmGuard.Lib
