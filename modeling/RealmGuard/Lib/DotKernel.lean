import Mathlib.Data.Finset.Lattice.Fold
import Mathlib.Data.Set.Lattice

/-!
# The dot kernel

The abstract state behind observed-remove sets: the labels `seen`, and for each
element the labels still `live`. Per element a label is unknown, live without
being seen, live and seen, or seen and dead; these four states form a chain in
this order and the join takes the larger (`sup_live`). So the kernel is a
join-semilattice with no condition relating `live` to `seen`, and a label is
live in a finite join when some member has it live and none has it dead
(`mem_sup_live`).
-/

namespace RealmGuard.Lib

@[ext] structure DotKernel (X E : Type*) where
  seen : Set X
  live : E → Set X

namespace DotKernel

variable {X E : Type*}

instance : Max (DotKernel X E) where
  max a b :=
    { seen := a.seen ∪ b.seen
      live := fun e => {x | (x ∈ a.live e ∨ x ∈ b.live e) ∧
        (x ∈ a.live e ∨ x ∉ a.seen) ∧ (x ∈ b.live e ∨ x ∉ b.seen)} }

instance : Bot (DotKernel X E) where
  bot := ⟨∅, fun _ => ∅⟩

theorem sup_seen (a b : DotKernel X E) : (a ⊔ b).seen = a.seen ∪ b.seen := rfl

theorem sup_live (a b : DotKernel X E) (e : E) (x : X) :
    x ∈ (a ⊔ b).live e ↔ (x ∈ a.live e ∨ x ∈ b.live e) ∧
      (x ∈ a.live e ∨ x ∉ a.seen) ∧ (x ∈ b.live e ∨ x ∉ b.seen) := Iff.rfl

instance : SemilatticeSup (DotKernel X E) :=
  SemilatticeSup.mk'
    (fun a b => by
      refine DotKernel.ext (Set.union_comm _ _) (funext fun e => Set.ext fun x => ?_)
      rw [sup_live, sup_live]
      tauto)
    (fun a b c => by
      refine DotKernel.ext (Set.union_assoc _ _ _) (funext fun e => Set.ext fun x => ?_)
      simp only [sup_live, sup_seen, Set.mem_union]
      grind)
    (fun a => by
      refine DotKernel.ext (Set.union_self _) (funext fun e => Set.ext fun x => ?_)
      rw [sup_live]
      tauto)

theorem bot_sup (a : DotKernel X E) : ⊥ ⊔ a = a := by
  refine DotKernel.ext (Set.empty_union _) (funext fun e => Set.ext fun x => ?_)
  rw [sup_live]
  show (False ∨ _) ∧ (False ∨ ¬ False) ∧ _ ↔ _
  tauto

instance : OrderBot (DotKernel X E) where
  bot_le a := sup_eq_right.mp (bot_sup a)

@[simp] theorem bot_seen : (⊥ : DotKernel X E).seen = ∅ := rfl

@[simp] theorem bot_live (e : E) : (⊥ : DotKernel X E).live e = ∅ := rfl

/-- A label is seen in a finite join when some member has seen it. -/
theorem mem_sup_seen {ι : Type*} {s : Finset ι} {f : ι → DotKernel X E} {x : X} :
    x ∈ (s.sup f).seen ↔ ∃ i ∈ s, x ∈ (f i).seen := by
  classical
  induction s using Finset.induction_on with
  | empty => simp
  | insert i s _ ih =>
    rw [Finset.sup_insert, sup_seen, Set.mem_union, ih]
    simp

/-- A label is live in a finite join when it is live in some member and dead in none. -/
theorem mem_sup_live {ι : Type*} {s : Finset ι} {f : ι → DotKernel X E} {e : E} {x : X} :
    x ∈ (s.sup f).live e ↔
      (∃ i ∈ s, x ∈ (f i).live e) ∧ ∀ i ∈ s, x ∈ (f i).seen → x ∈ (f i).live e := by
  classical
  induction s using Finset.induction_on with
  | empty => simp
  | insert i s _ ih =>
    have hseen := mem_sup_seen (s := s) (f := f) (x := x)
    rw [Finset.sup_insert, sup_live, ih, hseen]
    simp only [Finset.exists_mem_insert, Finset.forall_mem_insert]
    constructor
    · rintro ⟨hor, hi, hs⟩
      refine ⟨hor.imp id And.left, fun h => hi.resolve_right (not_not.mpr h), fun j hj hx => ?_⟩
      exact (hs.resolve_right fun hn => hn ⟨j, hj, hx⟩).2 j hj hx
    · rintro ⟨hor, hi, hs⟩
      refine ⟨hor.imp id fun h => ⟨h, hs⟩, ?_, ?_⟩
      · exact (Classical.em _).imp hi id
      · rcases Classical.em (∃ j ∈ s, x ∈ (f j).seen) with ⟨j, hj, hx⟩ | hn
        · exact .inl ⟨⟨j, hj, hs j hj hx⟩, hs⟩
        · exact .inr hn

end DotKernel

end RealmGuard.Lib
