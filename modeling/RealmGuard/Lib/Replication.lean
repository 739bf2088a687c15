import Mathlib.Data.Finset.Lattice.Fold
import Mathlib.Logic.Function.Basic
import RealmGuard.Lib.Steps

/-!
# Runs of delta-state replicas

A `DeltaType` is a replicated data type: its operations return the new state of
a replica and a delta to ship, and states and deltas merge. `Net` is a system of
replicas, one for each device, with the pool of everything ever sent: deltas,
joins of them, and snapshots. A message stays in the pool, so it can be
delivered late, twice or never. `hist` and `log` are ghosts: `log` lists the
operations performed, and `hist` is the set of those (by position in `log`) that
a replica or a message accounts for.

`Runs.holds` is the induction over runs: a property of a document and its
history that holds of the initial document, of both results of an operation and
of merges holds wherever a document occurs. `Runs.eq_join` is its first use:
when every operation moves its state up by its delta in a join-semilattice,
every document is the join of the deltas in its history.
-/

namespace RealmGuard.Lib

/-- A replicated data type; `none` is a panic. -/
structure DeltaType (Dev Op S : Type) where
  init : S
  mutate : Dev → Op → S → Option (S × S)
  merge : S → S → Option S

/-- An operation performed: by which device, from which state and history. -/
structure Event (Dev Op S : Type) where
  device : Dev
  op : Op
  past : Finset ℕ
  pre : S
  delta : S

structure Message (S : Type) where
  doc : S
  hist : Finset ℕ

structure Net (Dev Op S : Type) where
  doc : Dev → S
  hist : Dev → Finset ℕ
  log : List (Event Dev Op S)
  pool : List (Message S)

/-- One step: a local operation, a snapshot put in the pool, the join of two
messages of the pool, the delivery of one. -/
inductive Action (Dev Op : Type) where
  | update (d : Dev) (op : Op)
  | publish (d : Dev)
  | combine (i j : ℕ)
  | deliver (d : Dev) (i : ℕ)

variable {Dev Op S : Type} [DecidableEq Dev]

namespace Net

/-- All replicas empty; the pool holds the empty document only. -/
def init (T : DeltaType Dev Op S) : Net Dev Op S where
  doc _ := T.init
  hist _ := ∅
  log := []
  pool := [⟨T.init, ∅⟩]

def step (T : DeltaType Dev Op S) (n : Net Dev Op S) : Action Dev Op → Option (Net Dev Op S)
  | .update d op => do
    let (s, delta) ← T.mutate d op (n.doc d)
    some
      { doc := Function.update n.doc d s
        hist := Function.update n.hist d (insert n.log.length (n.hist d))
        log := n.log ++ [⟨d, op, n.hist d, n.doc d, delta⟩]
        pool := n.pool ++ [⟨delta, {n.log.length}⟩] }
  | .publish d => some { n with pool := n.pool ++ [⟨n.doc d, n.hist d⟩] }
  | .combine i j => do
    let a ← n.pool[i]?
    let b ← n.pool[j]?
    let s ← T.merge a.doc b.doc
    some { n with pool := n.pool ++ [⟨s, a.hist ∪ b.hist⟩] }
  | .deliver d i => do
    let m ← n.pool[i]?
    let s ← T.merge (n.doc d) m.doc
    some
      { n with
        doc := Function.update n.doc d s
        hist := Function.update n.hist d (n.hist d ∪ m.hist) }

/-- A sequence of steps that `ok` allows. -/
def exec (T : DeltaType Dev Op S) (ok : Net Dev Op S → Action Dev Op → Prop)
    [∀ n a, Decidable (ok n a)] (n : Net Dev Op S) (as : List (Action Dev Op)) :
    Option (Net Dev Op S) := as.foldlM (fun n a => if ok n a then step T n a else none) n

/-- A document occurs in the system with history `h`. -/
inductive Holds (n : Net Dev Op S) : S → Finset ℕ → Prop where
  | replica (d : Dev) : Holds n (n.doc d) (n.hist d)
  | message {m : Message S} : m ∈ n.pool → Holds n m.doc m.hist
  | pre {ev : Event Dev Op S} : ev ∈ n.log → Holds n ev.pre ev.past
  | delta {ev : Event Dev Op S} {i : ℕ} : n.log[i]? = some ev → Holds n ev.delta {i}

end Net

/-- A step that `ok` allows. -/
abbrev Net.Allowed (T : DeltaType Dev Op S) (ok : Net Dev Op S → Action Dev Op → Prop)
    (n : Net Dev Op S) (a : Action Dev Op) (n' : Net Dev Op S) : Prop :=
  ok n a ∧ n.step T a = some n'

/-- The systems reachable by steps that `ok` allows. -/
abbrev Runs (T : DeltaType Dev Op S) (ok : Net Dev Op S → Action Dev Op → Prop) :
    Net Dev Op S → Prop := ReachesBy (Net.Allowed T ok) (Net.init T)

/-- Any step at all. -/
abbrev Free (_ : Net Dev Op S) (_ : Action Dev Op) : Prop := True

/-- Each document's history is closed: it has the past of each operation in it. -/
def Closed (log : List (Event Dev Op S)) (h : Finset ℕ) : Prop :=
  ∀ i ∈ h, ∀ ev, log[i]? = some ev → ev.past ⊆ h

/-- Deliveries that leave the receiver's history closed: of a delta, once its
past is there; of a snapshot of a replica whose history is closed, always. -/
def Causal (n : Net Dev Op S) : Action Dev Op → Prop
  | .deliver d i => ∀ m, n.pool[i]? = some m → Closed n.log (n.hist d ∪ m.hist)
  | _ => True

instance (log : List (Event Dev Op S)) (h : Finset ℕ) : Decidable (Closed log h) :=
  decidable_of_iff (∀ i ∈ h, (log[i]?).all (fun ev => ev.past ⊆ h) = true) <| by
    simp [Closed, Option.all_eq_true]

instance (n : Net Dev Op S) : ∀ a, Decidable (Causal n a)
  | .deliver d i =>
    decidable_of_iff ((n.pool[i]?).all (fun m => Closed n.log (n.hist d ∪ m.hist)) = true) <| by
      simp [Causal, Option.all_eq_true]
  | .update _ _ => .isTrue trivial
  | .publish _ => .isTrue trivial
  | .combine _ _ => .isTrue trivial

/-- Causal delivery of single deltas and full states: no two messages are joined on the way. -/
def CausalDirect (n : Net Dev Op S) : Action Dev Op → Prop
  | .combine _ _ => False
  | a => Causal n a

instance (n : Net Dev Op S) : ∀ a, Decidable (CausalDirect n a)
  | .combine _ _ => .isFalse id
  | .update d op => inferInstanceAs (Decidable (Causal n (.update d op)))
  | .publish d => inferInstanceAs (Decidable (Causal n (.publish d)))
  | .deliver d i => inferInstanceAs (Decidable (Causal n (.deliver d i)))

omit [DecidableEq Dev] in
theorem CausalDirect.causal {n : Net Dev Op S} {a : Action Dev Op} (h : CausalDirect n a) :
    Causal n a := by
  cases a with
  | combine i j => exact trivial
  | update d op => exact h
  | publish d => exact h
  | deliver d i => exact h

omit [DecidableEq Dev] in
/-- Whether a history is closed is a matter of the pasts alone. -/
theorem Closed.congr {log log' : List (Event Dev Op S)} {h : Finset ℕ}
    (hpast : log'.map Event.past = log.map Event.past) (hc : Closed log h) : Closed log' h := by
  intro i hi ev' hev'
  have hmap : (log.map Event.past)[i]? = some ev'.past := by
    rw [← hpast, List.getElem?_map, hev', Option.map_some]
  rw [List.getElem?_map, Option.map_eq_some_iff] at hmap
  obtain ⟨ev, hev, he⟩ := hmap
  exact he ▸ hc i hi ev hev

/-! ## What a step does -/

theorem getElem?_snoc_iff {α : Type*} {l : List α} {x y : α} {i : ℕ} :
    (l ++ [x])[i]? = some y ↔ l[i]? = some y ∨ i = l.length ∧ x = y := by
  rcases Nat.lt_trichotomy i l.length with h | h | h
  · rw [List.getElem?_append_left h]
    exact (or_iff_left fun hi => h.ne hi.1).symm
  · subst h
    simp
  · rw [List.getElem?_append_right h.le, List.getElem?_eq_none (by simpa using by omega),
      List.getElem?_eq_none h.le]
    simp [h.ne']

section Step

variable {T : DeltaType Dev Op S} {n n' : Net Dev Op S}

theorem Net.step_update {d : Dev} {op : Op} (h : n.step T (.update d op) = some n') :
    ∃ s delta, T.mutate d op (n.doc d) = some (s, delta) ∧
      n' = { doc := Function.update n.doc d s
             hist := Function.update n.hist d (insert n.log.length (n.hist d))
             log := n.log ++ [⟨d, op, n.hist d, n.doc d, delta⟩]
             pool := n.pool ++ [⟨delta, {n.log.length}⟩] } := by
  simp only [step, Option.bind_eq_bind, Option.bind_eq_some_iff, Option.some.injEq] at h
  obtain ⟨⟨s, delta⟩, hm, rfl⟩ := h
  exact ⟨s, delta, hm, rfl⟩

theorem Net.step_publish {d : Dev} (h : n.step T (.publish d) = some n') :
    n' = { n with pool := n.pool ++ [⟨n.doc d, n.hist d⟩] } := (Option.some.inj h).symm

theorem Net.step_combine {i j : ℕ} (h : n.step T (.combine i j) = some n') :
    ∃ a ∈ n.pool, ∃ b ∈ n.pool, ∃ s, T.merge a.doc b.doc = some s ∧
      n' = { n with pool := n.pool ++ [⟨s, a.hist ∪ b.hist⟩] } := by
  simp only [step, Option.bind_eq_bind, Option.bind_eq_some_iff, Option.some.injEq] at h
  obtain ⟨a, ha, b, hb, s, hs, rfl⟩ := h
  exact ⟨a, List.mem_of_getElem? ha, b, List.mem_of_getElem? hb, s, hs, rfl⟩

theorem Net.step_deliver {d : Dev} {i : ℕ} (h : n.step T (.deliver d i) = some n') :
    ∃ m, n.pool[i]? = some m ∧ ∃ s, T.merge (n.doc d) m.doc = some s ∧
      n' = { n with
             doc := Function.update n.doc d s
             hist := Function.update n.hist d (n.hist d ∪ m.hist) } := by
  simp only [step, Option.bind_eq_bind, Option.bind_eq_some_iff, Option.some.injEq] at h
  obtain ⟨m, hm, s, hs, rfl⟩ := h
  exact ⟨m, hm, s, hs, rfl⟩

/-- What was sent stays in the pool. -/
theorem Net.pool_subset {a : Action Dev Op} (h : n.step T a = some n') : n.pool ⊆ n'.pool := by
  cases a with
  | update d op =>
    obtain ⟨s, delta, -, rfl⟩ := Net.step_update h
    exact List.subset_append_left _ _
  | publish d =>
    obtain rfl := Net.step_publish h
    exact List.subset_append_left _ _
  | combine i j =>
    obtain ⟨a, -, b, -, s, -, rfl⟩ := Net.step_combine h
    exact List.subset_append_left _ _
  | deliver d i =>
    obtain ⟨m, -, s, -, rfl⟩ := Net.step_deliver h
    exact fun _ hm => hm

theorem Net.update_eq {d : Dev} {op : Op} {s delta : S}
    (h : T.mutate d op (n.doc d) = some (s, delta)) :
    n.step T (.update d op) = some
      { doc := Function.update n.doc d s
        hist := Function.update n.hist d (insert n.log.length (n.hist d))
        log := n.log ++ [⟨d, op, n.hist d, n.doc d, delta⟩]
        pool := n.pool ++ [⟨delta, {n.log.length}⟩] } := by
  rw [step, h]
  rfl

theorem Net.combine_eq {i j : ℕ} {a b : Message S} {s : S} (hi : n.pool[i]? = some a)
    (hj : n.pool[j]? = some b) (h : T.merge a.doc b.doc = some s) :
    n.step T (.combine i j) = some { n with pool := n.pool ++ [⟨s, a.hist ∪ b.hist⟩] } := by
  simp only [step, hi, hj, Option.bind_eq_bind, Option.bind_some, h]

theorem Net.deliver_eq {d : Dev} {i : ℕ} {m : Message S} {s : S} (hi : n.pool[i]? = some m)
    (h : T.merge (n.doc d) m.doc = some s) :
    n.step T (.deliver d i) = some
      { n with
        doc := Function.update n.doc d s
        hist := Function.update n.hist d (n.hist d ∪ m.hist) } := by
  simp only [step, hi, Option.bind_eq_bind, Option.bind_some, h]

/-- Histories grow. -/
theorem Net.hist_subset {a : Action Dev Op} (h : n.step T a = some n') (d : Dev) :
    n.hist d ⊆ n'.hist d := by
  cases a with
  | update d' op =>
    obtain ⟨s, delta, -, rfl⟩ := Net.step_update h
    by_cases hd : d = d'
    · subst hd
      simp
    · simp [hd]
  | publish d' =>
    obtain rfl := Net.step_publish h
    exact subset_rfl
  | combine i j =>
    obtain ⟨a, -, b, -, s, -, rfl⟩ := Net.step_combine h
    exact subset_rfl
  | deliver d' i =>
    obtain ⟨m, -, s, -, rfl⟩ := Net.step_deliver h
    by_cases hd : d = d'
    · subst hd
      simp
    · simp [hd]

/-- Only an operation is logged. -/
theorem Net.log_step {a : Action Dev Op} (h : n.step T a = some n') :
    n'.log = n.log ∨ ∃ d op s delta, a = .update d op ∧
      T.mutate d op (n.doc d) = some (s, delta) ∧
        n'.log = n.log ++ [⟨d, op, n.hist d, n.doc d, delta⟩] := by
  cases a with
  | update d op =>
    obtain ⟨s, delta, hm, rfl⟩ := Net.step_update h
    exact .inr ⟨d, op, s, delta, rfl, hm, rfl⟩
  | publish d =>
    obtain rfl := Net.step_publish h
    exact .inl rfl
  | combine i j =>
    obtain ⟨a, -, b, -, s, -, rfl⟩ := Net.step_combine h
    exact .inl rfl
  | deliver d i =>
    obtain ⟨m, -, s, -, rfl⟩ := Net.step_deliver h
    exact .inl rfl

/-- An operation of the log was there before the step, or is the one performed. -/
theorem Net.event_step {a : Action Dev Op} (h : n.step T a = some n') {i : ℕ}
    {ev : Event Dev Op S} (hev : n'.log[i]? = some ev) : n.log[i]? = some ev ∨
      ∃ s, a = .update ev.device ev.op ∧ i = n.log.length ∧ ev.past = n.hist ev.device ∧
        ev.pre = n.doc ev.device ∧ T.mutate ev.device ev.op ev.pre = some (s, ev.delta) := by
  rcases Net.log_step h with hlog | ⟨d, op, s, delta, rfl, hmut, hlog⟩
  · exact .inl (hlog ▸ hev)
  · rw [hlog] at hev
    rcases getElem?_snoc_iff.mp hev with hev | ⟨rfl, rfl⟩
    · exact .inl hev
    · exact .inr ⟨s, rfl, rfl, rfl, rfl, hmut⟩

/-- The documents after a step: those before it, a merge of two of them, and both results of
an operation. -/
theorem Net.holds_step {a : Action Dev Op} (h : n.step T a = some n') {t : S} {k : Finset ℕ}
    (ht : n'.Holds t k) : n.Holds t k ∨
      (∃ x y i j, n.Holds x i ∧ n.Holds y j ∧ T.merge x y = some t ∧ k = i ∪ j ∧
        n'.log = n.log) ∨
      ∃ d op s delta, a = .update d op ∧ T.mutate d op (n.doc d) = some (s, delta) ∧
        (t = s ∧ k = insert n.log.length (n.hist d) ∨ t = delta ∧ k = {n.log.length}) := by
  cases a with
  | update d op =>
    obtain ⟨s, delta, hmut, rfl⟩ := Net.step_update h
    have hdelta : ∀ {k : Finset ℕ}, k = {n.log.length} → ∃ d' op' s' delta',
        Action.update d op = .update d' op' ∧ T.mutate d' op' (n.doc d') = some (s', delta') ∧
          (delta = s' ∧ k = insert n.log.length (n.hist d') ∨
            delta = delta' ∧ k = {n.log.length}) :=
      fun hk => ⟨d, op, s, delta, rfl, hmut, .inr ⟨rfl, hk⟩⟩
    rcases ht with d' | hm | hev | hev
    · by_cases hd : d' = d
      · subst hd
        exact .inr (.inr ⟨d', op, s, delta, rfl, hmut, .inl (by simp)⟩)
      · simpa [hd] using .inl (.replica d')
    · rcases List.mem_append.mp hm with hm | hm
      · exact .inl (.message hm)
      · obtain rfl := List.mem_singleton.mp hm
        exact .inr (.inr (hdelta rfl))
    · rcases List.mem_append.mp hev with hev | hev
      · exact .inl (.pre hev)
      · obtain rfl := List.mem_singleton.mp hev
        exact .inl (.replica d)
    · rcases getElem?_snoc_iff.mp hev with hev | ⟨rfl, rfl⟩
      · exact .inl (.delta hev)
      · exact .inr (.inr (hdelta rfl))
  | publish d =>
    obtain rfl := Net.step_publish h
    rcases ht with d' | hm | hev | hev
    · exact .inl (.replica d')
    · rcases List.mem_append.mp hm with hm | hm
      · exact .inl (.message hm)
      · obtain rfl := List.mem_singleton.mp hm
        exact .inl (.replica d)
    · exact .inl (.pre hev)
    · exact .inl (.delta hev)
  | combine i j =>
    obtain ⟨a, ha, b, hb, s, hm, rfl⟩ := Net.step_combine h
    rcases ht with d' | hm' | hev | hev
    · exact .inl (.replica d')
    · rcases List.mem_append.mp hm' with hm' | hm'
      · exact .inl (.message hm')
      · obtain rfl := List.mem_singleton.mp hm'
        exact .inr (.inl ⟨_, _, _, _, .message ha, .message hb, hm, rfl, rfl⟩)
    · exact .inl (.pre hev)
    · exact .inl (.delta hev)
  | deliver d i =>
    obtain ⟨m, hi, s, hm, rfl⟩ := Net.step_deliver h
    rcases ht with d' | hm' | hev | hev
    · by_cases hd : d' = d
      · subst hd
        have hi := List.mem_of_getElem? hi
        exact .inr (.inl ⟨_, _, _, _, .replica d', .message hi, by simpa using hm, by simp, rfl⟩)
      · simpa [hd] using .inl (.replica d')
    · exact .inl (.message hm')
    · exact .inl (.pre hev)
    · exact .inl (.delta hev)

end Step

section Run

variable {T : DeltaType Dev Op S} {ok : Net Dev Op S → Action Dev Op → Prop}
  {n n' : Net Dev Op S}

theorem Runs.init : Runs T ok (Net.init T) := .refl

theorem Runs.step {a : Action Dev Op} (hn : Runs T ok n) (ha : ok n a)
    (hs : n.step T a = some n') : Runs T ok n' := ReachesBy.step hn ⟨ha, hs⟩

theorem Runs.mono {ok' : Net Dev Op S → Action Dev Op → Prop} (hle : ∀ n a, ok n a → ok' n a)
    (h : Runs T ok n) : Runs T ok' n := ReachesBy.mono (fun _ _ _ => And.imp_left (hle _ _)) h

variable [∀ n a, Decidable (ok n a)]

theorem Net.allowed_of_ite {a : Action Dev Op}
    (h : (if ok n a then n.step T a else none) = some n') : Net.Allowed T ok n a n' :=
  Option.ite_none_right_eq_some.mp h

theorem Runs.exec {as : List (Action Dev Op)} (hn : Runs T ok n)
    (h : n.exec T ok as = some n') : Runs T ok n' :=
  hn.foldlM (fun _ _ _ => Net.allowed_of_ite) h

end Run

/-! ## The induction over documents -/

section Induction

variable {T : DeltaType Dev Op S} {ok : Net Dev Op S → Action Dev Op → Prop}

/-- A property of a document and its history, relative to the log, that holds of
the initial document, of both results of an operation and of merges, and that a
longer log keeps, holds of every document of every run. -/
theorem Runs.holds {P : List (Event Dev Op S) → S → Finset ℕ → Prop}
    (init : P [] T.init ∅)
    (merge : ∀ {n a b c h h'}, Runs T ok n → n.Holds a h → n.Holds b h' →
      P n.log a h → P n.log b h' → T.merge a b = some c → P n.log c (h ∪ h'))
    (update : ∀ {n n' d op s delta}, Runs T ok n → Runs T ok n' → ok n (.update d op) →
      T.mutate d op (n.doc d) = some (s, delta) →
      n'.log = n.log ++ [⟨d, op, n.hist d, n.doc d, delta⟩] →
      (∀ t h, n.Holds t h → P n.log t h) →
      P n'.log s (insert n.log.length (n.hist d)) ∧ P n'.log delta {n.log.length} ∧
        ∀ t h, n.Holds t h → P n'.log t h)
    {n : Net Dev Op S} (hn : Runs T ok n) : ∀ t h, n.Holds t h → P n.log t h := by
  induction hn with
  | refl =>
    rintro t h (d | hm | hev | hev)
    · exact init
    · obtain rfl := List.mem_singleton.mp hm
      exact init
    · exact absurd hev List.not_mem_nil
    · exact absurd (List.mem_of_getElem? hev) List.not_mem_nil
  | @step n n' a hn h ih =>
    obtain ⟨ha, hs⟩ := h
    have hkeep : ∀ t h, n.Holds t h → P n'.log t h := by
      rcases Net.log_step hs with hlog | ⟨d, op, s, delta, rfl, hmut, hlog⟩
      · exact hlog ▸ ih
      · exact (update hn (Runs.step hn ha hs) ha hmut hlog ih).2.2
    intro t h ht
    rcases Net.holds_step hs ht with ht | ⟨x, y, i, j, hx, hy, hm, rfl, hlog⟩ | hnew
    · exact hkeep t h ht
    · exact hlog ▸ merge hn hx hy (ih x i hx) (ih y j hy) hm
    · obtain ⟨d, op, s, delta, rfl, hmut, hres⟩ := hnew
      obtain ⟨s', delta', hmut', rfl⟩ := Net.step_update hs
      obtain ⟨rfl, rfl⟩ := Prod.mk.inj (Option.some.inj (hmut.symm.trans hmut'))
      obtain ⟨hdoc, hdelta, -⟩ := update hn (Runs.step hn ha hs) ha hmut rfl ih
      rcases hres with ⟨rfl, rfl⟩ | ⟨rfl, rfl⟩
      · exact hdoc
      · exact hdelta

/-! ## Histories -/

/-- Histories speak of operations performed. -/
theorem Runs.hist_lt {n : Net Dev Op S} (hn : Runs T ok n) {t : S} {h : Finset ℕ}
    (ht : n.Holds t h) : ∀ i ∈ h, i < n.log.length := by
  refine hn.holds (P := fun log _ h => ∀ i ∈ h, i < log.length) ?_ ?_ ?_ t h ht
  · exact fun i hi => absurd hi (Finset.notMem_empty i)
  · intro n a b c h h' _ _ _ ha hb _ i hi
    exact (Finset.mem_union.mp hi).elim (ha i) (hb i)
  · intro n n' d op s delta _ _ _ _ hlog ih
    have hlen : n'.log.length = n.log.length + 1 := by rw [hlog]; simp
    refine ⟨fun i hi => ?_, fun i hi => ?_, fun t h ht i hi => ?_⟩
    · rcases Finset.mem_insert.mp hi with rfl | hi
      · omega
      · have := ih _ _ (.replica d) i hi
        omega
    · rw [Finset.mem_singleton.mp hi]
      omega
    · have := ih t h ht i hi
      omega

/-- A replica accounts for the operations it performed. -/
theorem Runs.own_mem {n : Net Dev Op S} (hn : Runs T ok n) {i : ℕ} {ev : Event Dev Op S}
    (hev : n.log[i]? = some ev) : i ∈ n.hist ev.device := by
  induction hn generalizing i ev with
  | refl => exact absurd (List.mem_of_getElem? hev) List.not_mem_nil
  | step _ h ih =>
    obtain ⟨-, hs⟩ := h
    rcases Net.event_step hs hev with hev | ⟨s, rfl, rfl, -⟩
    · exact Net.hist_subset hs _ (ih hev)
    · obtain ⟨s, delta, -, rfl⟩ := Net.step_update hs
      simp

/-- The empty document is in the pool. -/
theorem Runs.init_mem_pool {n : Net Dev Op S} (hn : Runs T ok n) : ⟨T.init, ∅⟩ ∈ n.pool := by
  induction hn with
  | refl => exact List.mem_singleton_self _
  | step _ h ih => exact Net.pool_subset h.2 ih

/-- The delta of every operation is in the pool. -/
theorem Runs.delta_mem_pool {n : Net Dev Op S} (hn : Runs T ok n) {i : ℕ} {ev : Event Dev Op S}
    (hev : n.log[i]? = some ev) : ⟨ev.delta, {i}⟩ ∈ n.pool := by
  induction hn generalizing i ev with
  | refl => exact absurd (List.mem_of_getElem? hev) List.not_mem_nil
  | step _ h ih =>
    obtain ⟨-, hs⟩ := h
    rcases Net.event_step hs hev with hev | ⟨s, rfl, rfl, -, hpre, hmut⟩
    · exact Net.pool_subset hs (ih hev)
    · obtain ⟨s', delta, hmut', rfl⟩ := Net.step_update hs
      rw [← hpre, hmut] at hmut'
      obtain ⟨rfl, rfl⟩ := Prod.mk.inj (Option.some.inj hmut')
      exact List.mem_append_right _ (List.mem_singleton_self _)

/-- The system in which an operation was performed. -/
structure Performed (T : DeltaType Dev Op S) (ok : Net Dev Op S → Action Dev Op → Prop)
    (log : List (Event Dev Op S)) (i : ℕ) (ev : Event Dev Op S) (m : Net Dev Op S) : Prop where
  run : Runs T ok m
  allowed : ok m (.update ev.device ev.op)
  log_eq : m.log = log.take i
  pre : ev.pre = m.doc ev.device
  past : ev.past = m.hist ev.device
  mutate : ∃ s, T.mutate ev.device ev.op ev.pre = some (s, ev.delta)

/-- Every operation of the log was performed in an earlier system of the run. -/
theorem Runs.performed {n : Net Dev Op S} (hn : Runs T ok n) {i : ℕ} {ev : Event Dev Op S}
    (hev : n.log[i]? = some ev) : ∃ m, Performed T ok n.log i ev m := by
  induction hn generalizing i ev with
  | refl => exact absurd (List.mem_of_getElem? hev) List.not_mem_nil
  | @step n n' a hn h ih =>
    obtain ⟨ha, hs⟩ := h
    have htake : ∀ i ≤ n.log.length, n'.log.take i = n.log.take i := fun i hi => by
      rcases Net.log_step hs with hlog | ⟨d, op, s, delta, -, -, hlog⟩
      · rw [hlog]
      · rw [hlog, List.take_append_of_le_length hi]
    rcases Net.event_step hs hev with hev | ⟨s, rfl, rfl, hpast, hpre, hmut⟩
    · obtain ⟨m, hm⟩ := ih hev
      have hi : i ≤ n.log.length := (List.getElem?_eq_some_iff.mp hev).1.le
      exact ⟨m, { hm with log_eq := hm.log_eq.trans (htake i hi).symm }⟩
    · exact ⟨n, hn, ha, by rw [htake _ le_rfl, List.take_length], hpre, hpast, s, hmut⟩

/-- An operation's past lies before it. -/
theorem Runs.past_lt {n : Net Dev Op S} (hn : Runs T ok n) {i : ℕ} {ev : Event Dev Op S}
    (hev : n.log[i]? = some ev) : ∀ j ∈ ev.past, j < i := by
  obtain ⟨m, hm⟩ := hn.performed hev
  intro j hj
  have hlt := hm.run.hist_lt (.replica ev.device) j (hm.past ▸ hj)
  rw [hm.log_eq, List.length_take] at hlt
  omega

/-- An operation's past has the earlier operations of its device. -/
theorem Runs.own_past {n : Net Dev Op S} (hn : Runs T ok n) {i j : ℕ} {ev ev' : Event Dev Op S}
    (hi : n.log[i]? = some ev) (hj : n.log[j]? = some ev') (hd : ev.device = ev'.device)
    (hlt : i < j) : i ∈ ev'.past := by
  obtain ⟨m, hm⟩ := hn.performed hj
  have hi' : m.log[i]? = some ev := by rw [hm.log_eq, List.getElem?_take_of_lt hlt, hi]
  rw [hm.past, ← hd]
  exact hm.run.own_mem hi'

/-- What was just sent can be delivered at once where that leaves a closed history. -/
theorem Runs.deliver_last {T : DeltaType Dev Op S} {n : Net Dev Op S} {d : Dev} {s : S}
    {pool : List (Message S)} {m : Message S} (hn : Runs T Causal n) (hpool : n.pool = pool ++ [m])
    (hc : Closed n.log (n.hist d ∪ m.hist)) (hm : T.merge (n.doc d) m.doc = some s) :
    Runs T Causal { n with
      doc := Function.update n.doc d s
      hist := Function.update n.hist d (n.hist d ∪ m.hist) } := by
  have hlast : n.pool[pool.length]? = some m := hpool ▸ List.getElem?_concat_length
  refine hn.step (a := .deliver d pool.length) (fun m' hm' => ?_) (Net.deliver_eq hlast hm)
  obtain rfl := Option.some.inj (hlast.symm.trans hm')
  exact hc

/-- The history of everything is closed. -/
theorem Runs.closed_range {n : Net Dev Op S} (hn : Runs T ok n) :
    Closed n.log (Finset.range n.log.length) := by
  intro i hi ev hev j hj
  exact Finset.mem_range.mpr ((hn.past_lt hev j hj).trans (Finset.mem_range.mp hi))

omit [DecidableEq Dev] in
/-- A longer log says the same about a closed history. -/
theorem Closed.snoc {log : List (Event Dev Op S)} {h : Finset ℕ} (hc : Closed log h)
    (hlt : ∀ i ∈ h, i < log.length) (ev : Event Dev Op S) : Closed (log ++ [ev]) h := by
  intro i hi ev' hev'
  rcases getElem?_snoc_iff.mp hev' with hev' | ⟨rfl, -⟩
  · exact hc i hi ev' hev'
  · exact absurd (hlt _ hi) (lt_irrefl _)

omit [DecidableEq Dev] in
/-- A closed history with an operation performed on it is closed. -/
theorem Closed.snoc_insert {log : List (Event Dev Op S)} (ev : Event Dev Op S)
    (hc : Closed log ev.past) (hlt : ∀ i ∈ ev.past, i < log.length) :
    Closed (log ++ [ev]) (insert log.length ev.past) := by
  intro i hi ev' hev'
  rcases Finset.mem_insert.mp hi with rfl | hi
  · rw [List.getElem?_concat_length, Option.some.injEq] at hev'
    exact hev' ▸ Finset.subset_insert _ _
  · exact (hc.snoc hlt ev i hi ev' hev').trans (Finset.subset_insert _ _)

/-- Under causal delivery the history of every replica and the past of every
operation is closed. -/
theorem Runs.closed {n : Net Dev Op S} (hn : Runs T Causal n) :
    (∀ d, Closed n.log (n.hist d)) ∧
      ∀ (i : ℕ) (ev : Event Dev Op S), n.log[i]? = some ev → Closed n.log ev.past := by
  induction hn with
  | refl =>
    exact ⟨fun _ i hi => absurd hi (Finset.notMem_empty i),
      fun _ _ hev => absurd (List.mem_of_getElem? hev) List.not_mem_nil⟩
  | @step n n' a hn h ih =>
    obtain ⟨ha, hs⟩ := h
    obtain ⟨hdoc, hpast⟩ := ih
    cases a with
    | update d op =>
      obtain ⟨s, delta, hmut, rfl⟩ := Net.step_update hs
      have hlt : ∀ d', ∀ i ∈ n.hist d', i < n.log.length := fun d' => Runs.hist_lt hn (.replica d')
      refine ⟨fun d' => ?_, fun i ev hev => ?_⟩
      · by_cases hd : d' = d
        · subst hd
          simpa using Closed.snoc_insert ⟨d', op, n.hist d', n.doc d', delta⟩ (hdoc d') (hlt d')
        · simpa [hd] using (hdoc d').snoc (hlt d') _
      · rcases getElem?_snoc_iff.mp hev with hev | ⟨rfl, rfl⟩
        · refine (hpast i ev hev).snoc (fun j hj => ?_) _
          exact (Runs.past_lt hn hev j hj).trans (List.getElem?_eq_some_iff.mp hev).1
        · exact (hdoc d).snoc (hlt d) _
    | publish d =>
      obtain rfl := Net.step_publish hs
      exact ⟨hdoc, hpast⟩
    | combine i j =>
      obtain ⟨a, ha, b, hb, s, hm, rfl⟩ := Net.step_combine hs
      exact ⟨hdoc, hpast⟩
    | deliver d i =>
      obtain ⟨m, hi, s, hm, rfl⟩ := Net.step_deliver hs
      refine ⟨fun d' => ?_, hpast⟩
      by_cases hd : d' = d
      · subst hd
        simpa using ha m hi
      · simpa [hd] using hdoc d'

/-! ## Folds of deltas -/

/-- The delta of operation `i`. -/
def deltaAt (T : DeltaType Dev Op S) (log : List (Event Dev Op S)) (i : ℕ) : S :=
  (log[i]?).elim T.init Event.delta

omit [DecidableEq Dev] in
theorem deltaAt_eq {log : List (Event Dev Op S)} {i : ℕ} {ev : Event Dev Op S}
    (h : log[i]? = some ev) : deltaAt T log i = ev.delta := by
  rw [deltaAt, h, Option.elim_some]

/-- A fold of deltas is a document of a run: each merge is a message put together from
two others. -/
theorem Runs.foldlM_deltas {log : List (Event Dev Op S)}
    (hmerge : ∀ {n : Net Dev Op S} {a b h h'}, Runs T Free n → n.log = log → n.Holds a h →
      n.Holds b h' → ∃ c, T.merge a b = some c) :
    ∀ {l : List ℕ}, (∀ i ∈ l, i < log.length) → ∀ {n : Net Dev Op S} {m : Message S},
      Runs T Free n → n.log = log → m ∈ n.pool → ∃ n' t, Runs T Free n' ∧ n'.log = log ∧
        (l.map (deltaAt T log)).foldlM T.merge m.doc = some t ∧
          n'.Holds t (m.hist ∪ l.toFinset) := by
  intro l
  induction l with
  | nil =>
    intro _ n m hn hlog hm
    exact ⟨n, m.doc, hn, hlog, rfl, by simpa using Net.Holds.message hm⟩
  | cons i l ih =>
    intro hl n m hn hlog hm
    obtain ⟨ev, hev⟩ : ∃ ev, log[i]? = some ev :=
      ⟨_, List.getElem?_eq_getElem (hl i List.mem_cons_self)⟩
    have hδ := hn.delta_mem_pool (hlog ▸ hev)
    obtain ⟨c, hc⟩ := hmerge hn hlog (.message hm) (.message hδ)
    obtain ⟨j, hj⟩ := List.getElem?_of_mem hm
    obtain ⟨k, hk⟩ := List.getElem?_of_mem hδ
    have hstep := Net.combine_eq hj hk hc
    obtain ⟨n', t, hn', hlog', hfold, ht⟩ := ih (fun i hi => hl i (List.mem_cons_of_mem _ hi))
      (m := ⟨c, m.hist ∪ {i}⟩) (hn.step (a := .combine j k) trivial hstep) hlog
      (List.mem_append_right _ (List.mem_singleton_self _))
    refine ⟨n', t, hn', hlog', ?_, ?_⟩
    · rw [List.map_cons, List.foldlM_cons, deltaAt_eq hev, hc]
      exact hfold
    · rwa [List.toFinset_cons, ← Finset.singleton_union, ← Finset.union_assoc]

/-! ## Documents as joins of deltas -/

section Join

variable {L : Type*} [SemilatticeSup L] [OrderBot L]

/-- The join of the deltas of the operations in `h`. -/
def join (T : DeltaType Dev Op S) (abs : S → L) (log : List (Event Dev Op S)) (h : Finset ℕ) : L :=
  h.sup fun i => abs (deltaAt T log i)

omit [DecidableEq Dev] in
theorem join_snoc (abs : S → L) {log : List (Event Dev Op S)} (ev : Event Dev Op S) {h : Finset ℕ}
    (hh : ∀ i ∈ h, i < log.length) : join T abs (log ++ [ev]) h = join T abs log h :=
  Finset.sup_congr rfl fun i hi => by
    rw [deltaAt, deltaAt, List.getElem?_append_left (hh i hi)]

/-- **A replicated data type whose operations move up by their delta**: every
document of a run is the join of the deltas in its history. What a merge and an
operation do may rest on a property `C` of the log that shorter logs keep. -/
theorem Runs.eq_join {C : List (Event Dev Op S) → Prop} {abs : S → L}
    (hC : ∀ log ev, C (log ++ [ev]) → C log) (hinit : abs T.init = ⊥)
    (hmerge : ∀ {n a b c h h'}, Runs T ok n → C n.log → n.Holds a h → n.Holds b h' →
      T.merge a b = some c → abs c = abs a ⊔ abs b)
    (hupdate : ∀ {n d op s delta}, Runs T ok n →
      C (n.log ++ [⟨d, op, n.hist d, n.doc d, delta⟩]) → ok n (.update d op) →
      T.mutate d op (n.doc d) = some (s, delta) → abs s = abs (n.doc d) ⊔ abs delta)
    {n : Net Dev Op S} (hn : Runs T ok n) (hlog : C n.log) :
    ∀ t h, n.Holds t h → abs t = join T abs n.log h := by
  refine fun t h ht => hn.holds (P := fun log t h => C log → abs t = join T abs log h)
    (fun _ => hinit) ?_ ?_ t h ht hlog
  · intro n a b c h h' hr ha hb iha ihb hm hc
    rw [hmerge hr hc ha hb hm, iha hc, ihb hc, join, join, join, Finset.sup_union]
  · intro n n' d op s delta hr hr' hok hmut hlog ih
    rw [hlog]
    have hdelta : abs delta = join T abs (n.log ++ [⟨d, op, n.hist d, n.doc d, delta⟩])
        {n.log.length} := by
      simp [join, deltaAt]
    have hold : ∀ t h, n.Holds t h → C (n.log ++ [⟨d, op, n.hist d, n.doc d, delta⟩]) →
        abs t = join T abs (n.log ++ [⟨d, op, n.hist d, n.doc d, delta⟩]) h := fun t h ht hc => by
      rw [join_snoc abs _ (hr.hist_lt ht)]
      exact ih t h ht (hC _ _ hc)
    refine ⟨fun hc => ?_, fun _ => hdelta, hold⟩
    rw [hupdate hr hc hok hmut, hold _ _ (.replica d) hc, hdelta, join, join, join,
      Finset.sup_singleton, Finset.sup_insert, sup_comm]

end Join

end Induction

end RealmGuard.Lib
