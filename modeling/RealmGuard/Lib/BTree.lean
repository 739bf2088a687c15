import Mathlib.Data.List.Sort
import Mathlib.Data.Option.Basic

/-!
# Ordered maps and sets

`BTreeMap K V` is a finite map held as its list of entries in ascending key
order, so that equal maps are equal values and iteration is the list itself.
`BTreeSet` is a map to `Unit`. Everything about a map is read through `get?`
(`BTreeMap.ext_get?`), everything about a set through membership.

The loops a program runs over such a collection are `foldl`s over its list;
`get?_foldl_upsert` and `get?_foldl_insertIf` compute the two shapes that
occur: updating one map by the entries of another, and filling a map from a
list of keys.
-/

namespace RealmGuard.Lib

structure BTreeMap (K : Type*) (V : Type*) [LinearOrder K] where
  toList : List (K × V)
  sorted : toList.Pairwise fun a b => a.1 < b.1
deriving DecidableEq

namespace BTreeMap

variable {K V W : Type*} [LinearOrder K]

/-- Sorted insertion, replacing the value of an existing key. -/
def insertList (k : K) (v : V) : List (K × V) → List (K × V)
  | [] => [(k, v)]
  | p :: l =>
    if k < p.1 then (k, v) :: p :: l
    else if k = p.1 then (k, v) :: l
    else p :: insertList k v l

theorem mem_insertList {k : K} {v : V} {q : K × V} :
    ∀ {l : List (K × V)}, q ∈ insertList k v l → q = (k, v) ∨ q ∈ l
  | [], h => by simpa [insertList] using h
  | p :: l, h => by
    unfold insertList at h
    split at h
    · simpa using h
    · split at h
      · rcases List.mem_cons.mp h with h | h
        · exact .inl h
        · exact .inr (List.mem_cons_of_mem _ h)
      · rcases List.mem_cons.mp h with h | h
        · exact .inr (h ▸ List.mem_cons_self)
        · exact (mem_insertList h).imp id (List.mem_cons_of_mem _)

theorem sorted_insertList (k : K) (v : V) {l : List (K × V)}
    (h : l.Pairwise fun a b => a.1 < b.1) :
    (insertList k v l).Pairwise fun a b => a.1 < b.1 := by
  induction l with
  | nil => simp [insertList]
  | cons p l ih =>
    obtain ⟨hp, hl⟩ := List.pairwise_cons.mp h
    unfold insertList
    split
    · next hk =>
      refine List.pairwise_cons.mpr ⟨fun q hq => ?_, h⟩
      rcases List.mem_cons.mp hq with rfl | hq
      · exact hk
      · exact hk.trans (hp q hq)
    · next hk =>
      split
      · next he =>
        subst he
        exact List.pairwise_cons.mpr ⟨hp, hl⟩
      · next he =>
        refine List.pairwise_cons.mpr ⟨fun q hq => ?_, ih hl⟩
        rcases mem_insertList hq with rfl | hq
        · exact lt_of_le_of_ne (not_lt.mp hk) (Ne.symm he)
        · exact hp q hq

def empty : BTreeMap K V := ⟨[], .nil⟩

def insert (m : BTreeMap K V) (k : K) (v : V) : BTreeMap K V :=
  ⟨insertList k v m.toList, sorted_insertList k v m.sorted⟩

def get? (m : BTreeMap K V) (k : K) : Option V := m.toList.lookup k

/-- The entries whose key satisfies `p`. -/
def filterKeys (p : K → Bool) (m : BTreeMap K V) : BTreeMap K V :=
  ⟨m.toList.filter fun q => p q.1, m.sorted.filter _⟩

def remove (m : BTreeMap K V) (k : K) : BTreeMap K V := m.filterKeys fun k' => k' ≠ k

def keys (m : BTreeMap K V) : List K := m.toList.map Prod.fst

def values (m : BTreeMap K V) : List V := m.toList.map Prod.snd

/-! ## Lookup -/

theorem lookup_cons_if (k j : K) (w : V) (l : List (K × V)) :
    ((j, w) :: l).lookup k = if k = j then some w else l.lookup k := by
  rw [List.lookup_cons]
  by_cases h : k = j
  · simp [h]
  · rw [beq_eq_false_iff_ne.mpr h, if_neg h]

theorem lookup_insertList (k k' : K) (v : V) (l : List (K × V)) :
    (insertList k v l).lookup k' = if k' = k then some v else l.lookup k' := by
  induction l with
  | nil => by_cases h : k' = k <;> simp [insertList, lookup_cons_if, h]
  | cons p l ih =>
    obtain ⟨j, w⟩ := p
    by_cases h1 : k < j
    · by_cases h : k' = k <;> simp [insertList, h1, lookup_cons_if, h]
    · by_cases h2 : k = j
      · by_cases h : k' = k <;> simp_all [insertList, lookup_cons_if]
      · by_cases h3 : k' = j
        · subst h3
          simp [insertList, h1, h2, Ne.symm h2]
        · simp [insertList, h1, h2, lookup_cons_if, h3, ih]

theorem lookup_eq_none {k : K} :
    ∀ {l : List (K × V)}, (∀ p ∈ l, p.1 ≠ k) → l.lookup k = none
  | [], _ => rfl
  | (j, w) :: l, h => by
    have hj : k ≠ j := Ne.symm (h _ List.mem_cons_self)
    simp [lookup_cons_if, hj, lookup_eq_none fun p hp => h p (List.mem_cons_of_mem _ hp)]

theorem lookup_eq_some_iff {k : K} {v : V} {l : List (K × V)}
    (h : l.Pairwise fun a b => a.1 < b.1) : l.lookup k = some v ↔ (k, v) ∈ l := by
  induction l with
  | nil => simp
  | cons p l ih =>
    obtain ⟨j, w⟩ := p
    obtain ⟨hp, hl⟩ := List.pairwise_cons.mp h
    by_cases hk : k = j
    · subst hk
      have hn : (k, v) ∉ l := fun hm => lt_irrefl k (hp _ hm)
      simp [hn, eq_comm]
    · simp [lookup_cons_if, hk, ih hl]

theorem mem_toList {m : BTreeMap K V} {k : K} {v : V} : (k, v) ∈ m.toList ↔ m.get? k = some v :=
  (lookup_eq_some_iff m.sorted).symm

@[simp] theorem get?_empty (k : K) : (empty : BTreeMap K V).get? k = none := rfl

@[simp] theorem get?_insert (m : BTreeMap K V) (k k' : K) (v : V) :
    (m.insert k v).get? k' = if k' = k then some v else m.get? k' :=
  lookup_insertList k k' v m.toList

@[simp] theorem get?_filterKeys (p : K → Bool) (m : BTreeMap K V) (k : K) :
    (m.filterKeys p).get? k = if p k then m.get? k else none := by
  apply Option.ext
  intro v
  rw [← mem_toList]
  by_cases h : p k <;> simp [filterKeys, h, mem_toList]

@[simp] theorem get?_remove (m : BTreeMap K V) (k k' : K) :
    (m.remove k).get? k' = if k' = k then none else m.get? k' := by
  by_cases h : k' = k <;> simp [remove, h]

theorem ext_get? {m₁ m₂ : BTreeMap K V} (h : ∀ k, m₁.get? k = m₂.get? k) : m₁ = m₂ := by
  obtain ⟨l₁, h₁⟩ := m₁
  obtain ⟨l₂, h₂⟩ := m₂
  congr
  have hirr : Std.Irrefl fun a b : K × V => a.1 < b.1 := ⟨fun a => lt_irrefl a.1⟩
  have hasymm : Std.Antisymm fun a b : K × V => a.1 < b.1 :=
    ⟨fun a b hab hba => (lt_asymm hab hba).elim⟩
  refine h₁.eq_of_mem_iff h₂ fun q => ?_
  rw [← lookup_eq_some_iff (v := q.2) h₁, ← lookup_eq_some_iff (v := q.2) h₂]
  exact Eq.congr_left (h q.1)

theorem mem_keys {m : BTreeMap K V} {k : K} : k ∈ m.keys ↔ (m.get? k).isSome := by
  simp [keys, Option.isSome_iff_exists, mem_toList]

theorem mem_values {m : BTreeMap K V} {v : V} : v ∈ m.values ↔ ∃ k, m.get? k = some v := by
  simp [values, mem_toList]

theorem keys_pairwise (m : BTreeMap K V) : m.keys.Pairwise (· < ·) :=
  List.pairwise_map.mpr m.sorted

theorem keys_nodup (m : BTreeMap K V) : m.keys.Nodup := m.keys_pairwise.imp ne_of_lt

/-! ## Loops -/

/-- `for (k, w) in o { m[k] = f(m.get(k), w) }`. -/
def upsertAll (f : Option V → W → V) (m : BTreeMap K V) (o : BTreeMap K W) : BTreeMap K V :=
  o.toList.foldl (fun acc q => acc.insert q.1 (f (acc.get? q.1) q.2)) m

theorem get?_foldl_upsert (f : Option V → W → V) (k : K) :
    ∀ {l : List (K × W)} (_ : l.Pairwise fun a b => a.1 < b.1) (m : BTreeMap K V),
      (l.foldl (fun acc q => acc.insert q.1 (f (acc.get? q.1) q.2)) m).get? k =
        (l.lookup k).elim (m.get? k) fun w => some (f (m.get? k) w)
  | [], _, _ => rfl
  | (j, w) :: l, h, m => by
    obtain ⟨hj, hl⟩ := List.pairwise_cons.mp h
    rw [List.foldl_cons, get?_foldl_upsert f k hl, lookup_cons_if]
    by_cases hk : k = j
    · subst hk
      have hn : l.lookup k = none := lookup_eq_none fun p hp => (hj p hp).ne'
      simp [hn]
    · simp [hk]

theorem get?_upsertAll (f : Option V → W → V) (m : BTreeMap K V) (o : BTreeMap K W) (k : K) :
    (m.upsertAll f o).get? k = (o.get? k).elim (m.get? k) fun w => some (f (m.get? k) w) :=
  get?_foldl_upsert f k o.sorted m

/-- `for k in ks { if let Some(v) = g(k) { m.insert(k, v) } }`. -/
def insertIf (g : K → Option V) (m : BTreeMap K V) (k : K) : BTreeMap K V :=
  match g k with
  | some v => m.insert k v
  | none => m

theorem get?_foldl_insertIf (g : K → Option V) (k : K) :
    ∀ (ks : List K) (m : BTreeMap K V),
      (ks.foldl (insertIf g) m).get? k = if k ∈ ks then (g k).or (m.get? k) else m.get? k
  | [], _ => rfl
  | j :: ks, m => by
    rw [List.foldl_cons, get?_foldl_insertIf g k ks]
    by_cases hk : k = j
    · subst hk
      cases hg : g k <;> simp [insertIf, hg]
    · have hj : (insertIf g m j).get? k = m.get? k := by
        unfold insertIf
        split <;> simp [hk]
      simp [hj, hk]

end BTreeMap

/-- An ordered set: a map that holds no values. -/
structure BTreeSet (α : Type*) [LinearOrder α] where
  map : BTreeMap α Unit
deriving DecidableEq

namespace BTreeSet

variable {α : Type*} [LinearOrder α]

def empty : BTreeSet α := ⟨.empty⟩

def toList (s : BTreeSet α) : List α := s.map.keys

def contains (s : BTreeSet α) (a : α) : Bool := (s.map.get? a).isSome

def insert (s : BTreeSet α) (a : α) : BTreeSet α := ⟨s.map.insert a ()⟩

def remove (s : BTreeSet α) (a : α) : BTreeSet α := ⟨s.map.remove a⟩

/-- `retain`: the members satisfying `p`. -/
def filter (p : α → Bool) (s : BTreeSet α) : BTreeSet α := ⟨s.map.filterKeys p⟩

def ofList (l : List α) : BTreeSet α := l.foldl insert empty

def union (s t : BTreeSet α) : BTreeSet α := t.toList.foldl insert s

def isEmpty (s : BTreeSet α) : Bool := s.toList.isEmpty

def len (s : BTreeSet α) : Nat := s.toList.length

instance : Membership α (BTreeSet α) := ⟨fun s a => s.contains a = true⟩

instance (s : BTreeSet α) (a : α) : Decidable (a ∈ s) :=
  inferInstanceAs (Decidable (s.contains a = true))

@[simp] theorem contains_eq_true {s : BTreeSet α} {a : α} : s.contains a = true ↔ a ∈ s := Iff.rfl

theorem mem_iff_get? {s : BTreeSet α} {a : α} : a ∈ s ↔ (s.map.get? a).isSome = true := Iff.rfl

@[simp] theorem mem_toList {s : BTreeSet α} {a : α} : a ∈ s.toList ↔ a ∈ s := BTreeMap.mem_keys

theorem toList_nodup (s : BTreeSet α) : s.toList.Nodup := s.map.keys_nodup

@[simp] theorem not_mem_empty (a : α) : a ∉ (empty : BTreeSet α) := by
  intro h
  cases h

@[simp] theorem mem_insert {s : BTreeSet α} {a b : α} : b ∈ s.insert a ↔ b = a ∨ b ∈ s := by
  by_cases h : b = a <;> simp [mem_iff_get?, insert, h]

@[simp] theorem mem_remove {s : BTreeSet α} {a b : α} : b ∈ s.remove a ↔ b ≠ a ∧ b ∈ s := by
  by_cases h : b = a <;> simp [mem_iff_get?, remove, h]

@[simp] theorem mem_filter {s : BTreeSet α} {p : α → Bool} {a : α} :
    a ∈ s.filter p ↔ a ∈ s ∧ p a = true := by
  by_cases h : p a <;> simp [mem_iff_get?, filter, h]

theorem mem_foldl_insert {a : α} :
    ∀ {l : List α} {s : BTreeSet α}, a ∈ l.foldl insert s ↔ a ∈ l ∨ a ∈ s
  | [], _ => by simp
  | b :: l, s => by
    rw [List.foldl_cons, mem_foldl_insert, mem_insert, List.mem_cons]
    tauto

@[simp] theorem mem_ofList {l : List α} {a : α} : a ∈ ofList l ↔ a ∈ l := by
  simp [ofList, mem_foldl_insert]

@[simp] theorem mem_union {s t : BTreeSet α} {a : α} : a ∈ s.union t ↔ a ∈ s ∨ a ∈ t := by
  rw [union, mem_foldl_insert, mem_toList, or_comm]

theorem ext {s t : BTreeSet α} (h : ∀ a, a ∈ s ↔ a ∈ t) : s = t := by
  obtain ⟨m₁⟩ := s
  obtain ⟨m₂⟩ := t
  congr
  refine BTreeMap.ext_get? fun a => ?_
  have ha := h a
  simp only [mem_iff_get?] at ha
  cases hs : m₁.get? a <;> cases ht : m₂.get? a <;> simp_all

theorem toList_remove (s : BTreeSet α) (a : α) :
    (s.remove a).toList = s.toList.filter fun b => b ≠ a :=
  (List.filter_map (f := Prod.fst) (p := fun b => decide (b ≠ a)) (l := s.map.toList)).symm

theorem len_remove {s : BTreeSet α} {a : α} (h : a ∈ s) : (s.remove a).len + 1 = s.len := by
  have hf : s.toList.filter (fun b => b ≠ a) = s.toList.erase a := by
    rw [s.toList_nodup.erase_eq_filter]
    exact List.filter_congr fun b _ => by by_cases hb : b = a <;> simp [hb]
  rw [len, toList_remove, hf, List.length_erase_of_mem (mem_toList.mpr h), len]
  exact Nat.sub_add_cancel (List.length_pos_of_mem (mem_toList.mpr h))

theorem eq_of_len_eq_zero {s : BTreeSet α} (h : s.len = 0) (a : α) : a ∉ s := by
  rw [← mem_toList, List.eq_nil_of_length_eq_zero h]
  exact List.not_mem_nil

theorem isEmpty_iff {s : BTreeSet α} : s.isEmpty = true ↔ ∀ a, a ∉ s := by
  rw [isEmpty, List.isEmpty_iff, List.eq_nil_iff_forall_not_mem]
  simp

end BTreeSet

end RealmGuard.Lib
