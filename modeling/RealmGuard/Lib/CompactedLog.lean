import RealmGuard.Lib.ByteReplication
import RealmGuard.Lib.Steps

/-!
# A log that is compacted

`LogNet` is a `ByteNet` whose pool is a log on a server that drops messages: two messages for
their join, and any that a replica has read for a snapshot of it. `kept` is what the log still
has; the pool stays as the ghost of all that was ever shipped.

What is kept always accounts for every operation (`Compacted.covers`), so that whoever reads it
has them all.
-/

namespace RealmGuard.Lib

variable {Dev Op S : Type} [DecidableEq Dev]

/-- `kept` and `read d` are positions in the pool: what the log still has, and what `d` has in
its document. -/
structure LogNet (Dev Op S : Type) where
  net : ByteNet Dev Op S
  kept : Finset ℕ
  read : Dev → Finset ℕ

/-- `snapshot d drop` ships the document of `d` in place of messages that `d` has read. -/
inductive LogAction (Dev Op : Type) where
  | update (d : Dev) (op : Op)
  | receive (d : Dev) (i k : ℕ)
  | reload (d : Dev)
  | snapshot (d : Dev) (drop : Finset ℕ)
  | join (i j : ℕ)

namespace LogNet

variable (T : DeltaType Dev Op S) (C : ByteCodec S)

def init : LogNet Dev Op S :=
  ⟨.init T C, Finset.range (ByteNet.init T C).pool.length, fun _ => ∅⟩

/-- `d` has the message at `i` in its document. -/
def noteRead (c : LogNet Dev Op S) (d : Dev) (i : ℕ) : Dev → Finset ℕ :=
  Function.update c.read d (insert i (c.read d))

/-- A message is appended to the log, and dropped ones go. -/
def append (c : LogNet Dev Op S) (drop : Finset ℕ) : Finset ℕ :=
  insert c.net.pool.length (c.kept \ drop)

/-- The replica at the server's end ships what it makes; only what is kept can be received or
joined. -/
def step (c : LogNet Dev Op S) : LogAction Dev Op → Option (LogNet Dev Op S)
  | .update d op => do
    let net ← c.net.step T C (.update d op)
    some ⟨net, c.append ∅, c.noteRead d c.net.pool.length⟩
  | .receive d i k =>
    if i ∈ c.kept then do
      let net ← c.net.step T C (.receive d i k)
      let whole := (c.net.pool[i]?).any (·.length ≤ k)
      some ⟨net, c.kept, if whole then c.noteRead d i else c.read⟩
    else none
  | .reload d => do
    let net ← c.net.step T C (.reload d)
    some { c with net := net }
  | .snapshot d drop =>
    if drop ⊆ c.read d then do
      let net ← c.net.step T C (.publish d)
      some ⟨net, c.append drop, c.noteRead d c.net.pool.length⟩
    else none
  | .join i j =>
    if i ∈ c.kept ∧ j ∈ c.kept then do
      let net ← c.net.step T C (.combine i j)
      some ⟨net, c.append {i, j}, c.read⟩
    else none

/-- The reachable systems. -/
abbrev Runs : LogNet Dev Op S → Prop := Reaches (step T C) (init T C)

end LogNet

/-! ## What the log accounts for -/

variable {T : DeltaType Dev Op S} {C : ByteCodec S} {n n' : Net Dev Op S} {c c' : LogNet Dev Op S}

/-- A message keeps its position. -/
theorem Net.getElem?_pool {a : Action Dev Op} (h : n.step T a = some n') {i : ℕ} {m : Message S}
    (hm : n.pool[i]? = some m) : n'.pool[i]? = some m := by
  have hlt : i < n.pool.length := (List.getElem?_eq_some_iff.mp hm).1
  have hsnoc : ∀ m', (n.pool ++ [m'])[i]? = some m := fun m' => by
    rw [List.getElem?_append_left hlt, hm]
  cases a with
  | update d op =>
    obtain ⟨s, delta, -, rfl⟩ := Net.step_update h
    exact hsnoc _
  | publish d =>
    obtain rfl := Net.step_publish h
    exact hsnoc _
  | combine i j =>
    obtain ⟨a, -, b, -, s, -, rfl⟩ := Net.step_combine h
    exact hsnoc _
  | deliver d i =>
    obtain ⟨m', -, s, -, rfl⟩ := Net.step_deliver h
    exact hm

/-- The message at `i` is in the history of `d`. -/
def HasRead (n : Net Dev Op S) (d : Dev) (i : ℕ) : Prop :=
  ∃ m, n.pool[i]? = some m ∧ m.hist ⊆ n.hist d

/-- The run that a compacted log mirrors. -/
structure Compacted (T : DeltaType Dev Op S) (C : ByteCodec S) (n : Net Dev Op S)
    (c : LogNet Dev Op S) : Prop where
  runs : Lib.Runs T Free n
  mirrors : Mirrors C n c.net
  read : ∀ d, ∀ i ∈ c.read d, HasRead n d i
  covers : CoversLog c.kept n

/-- What was read stays read. -/
theorem HasRead.step {a : Action Dev Op} {d : Dev} {i : ℕ} (h : HasRead n d i)
    (hs : n.step T a = some n') : HasRead n' d i := by
  obtain ⟨m, hm, hsub⟩ := h
  exact ⟨m, Net.getElem?_pool hs hm, hsub.trans (Net.hist_subset hs d)⟩

theorem LogNet.forall_noteRead {P : Dev → ℕ → Prop} {d : Dev} {i : ℕ}
    (h : ∀ d, ∀ i ∈ c.read d, P d i) (hnew : P d i) : ∀ d', ∀ j ∈ c.noteRead d i d', P d' j := by
  intro d' j hj
  unfold LogNet.noteRead at hj
  by_cases hd : d' = d
  · subst hd
    rw [Function.update_self, Finset.mem_insert] at hj
    rcases hj with rfl | hj
    · exact hnew
    · exact h d' j hj
  · rw [Function.update_of_ne hd] at hj
    exact h d' j hj

omit [DecidableEq Dev] in
/-- What is kept beside a new message accounts for the operations, when the new one accounts for
what was dropped. -/
theorem CoversLog.append {kept drop : Finset ℕ} (h : CoversLog kept n)
    {m : Message S} (hpool : n'.pool = n.pool ++ [m])
    (hlog : ∀ i < n'.log.length, i < n.log.length ∨ i ∈ m.hist)
    (hdrop : ∀ j ∈ drop, ∀ m', n.pool[j]? = some m' → m'.hist ⊆ m.hist) :
    CoversLog (insert n.pool.length (kept \ drop)) n' := by
  intro i hi
  have hnew : n'.pool[n.pool.length]? = some m := by
    rw [hpool, List.getElem?_append_right le_rfl, Nat.sub_self]
    rfl
  have hlast : i ∈ m.hist → ∃ j ∈ insert n.pool.length (kept \ drop), ∃ m',
      n'.pool[j]? = some m' ∧ i ∈ m'.hist :=
    fun him => ⟨_, Finset.mem_insert_self _ _, m, hnew, him⟩
  rcases hlog i hi with hlt | him
  · obtain ⟨j, hj, m', hm', him⟩ := h i hlt
    by_cases hjd : j ∈ drop
    · exact hlast (hdrop j hjd m' hm' him)
    · have hlt' : j < n.pool.length := (List.getElem?_eq_some_iff.mp hm').1
      refine ⟨j, Finset.mem_insert_of_mem (Finset.mem_sdiff.mpr ⟨hj, hjd⟩), m', ?_, him⟩
      rw [hpool, List.getElem?_append_left hlt', hm']
  · exact hlast him

/-- **A step of the log is one of the mirrored system, or none**, and what is kept still accounts
for every operation. -/
theorem Compacted.step {a : LogAction Dev Op} (h : Compacted T C n c)
    (hs : c.step T C a = some c') : ∃ n', Compacted T C n' c' := by
  have hlen : c.net.pool.length = n.pool.length := h.mirrors.pool.length_eq.symm
  cases a with
  | update d op =>
    obtain ⟨net, hnet, hc⟩ := Option.bind_eq_some_iff.mp hs
    obtain rfl := Option.some.inj hc
    obtain ⟨n', hn', hm⟩ := h.mirrors.update hnet
    have hread := fun d i hi => (h.read d i hi).step hn'
    refine ⟨n', h.runs.step trivial hn', hm, LogNet.forall_noteRead hread ?_, ?_⟩
    · obtain ⟨s, delta, -, rfl⟩ := Net.step_update hn'
      refine ⟨⟨delta, {n.log.length}⟩, hlen ▸ List.getElem?_concat_length, ?_⟩
      show {n.log.length} ⊆ Function.update n.hist d (insert n.log.length (n.hist d)) d
      rw [Function.update_self]
      exact Finset.singleton_subset_iff.mpr (Finset.mem_insert_self _ _)
    · obtain ⟨s, delta, -, rfl⟩ := Net.step_update hn'
      show CoversLog (insert c.net.pool.length (c.kept \ ∅)) _
      rw [hlen]
      refine h.covers.append rfl (fun i hi => ?_) fun j hj => absurd hj (Finset.notMem_empty j)
      rw [List.length_append, List.length_singleton] at hi
      rw [Finset.mem_singleton]
      omega
  | receive d i k =>
    obtain ⟨-, hs⟩ := Option.ite_none_right_eq_some.mp hs
    obtain ⟨net, hnet, hc⟩ := Option.bind_eq_some_iff.mp hs
    obtain rfl := Option.some.inj hc
    obtain ⟨bytes, hbytes, ⟨hk, rfl⟩ | ⟨hk, n', hn', hm⟩⟩ := h.mirrors.deliver hnet
    · -- the transfer broke off, and is not noted
      have hwhole : ¬ (c.net.pool[i]?).any (·.length ≤ k) = true := by
        simpa [hbytes] using hk
      refine ⟨n, h.runs, h.mirrors, ?_, h.covers⟩
      dsimp only
      rw [if_neg hwhole]
      exact h.read
    · have hwhole : (c.net.pool[i]?).any (·.length ≤ k) = true := by simpa [hbytes] using hk
      have hread := fun d i hi => (h.read d i hi).step hn'
      obtain ⟨m, hmi, s, -, rfl⟩ := Net.step_deliver hn'
      refine ⟨_, h.runs.step trivial hn', hm, ?_, h.covers⟩
      dsimp only
      rw [if_pos hwhole]
      refine LogNet.forall_noteRead hread ⟨m, hmi, ?_⟩
      show m.hist ⊆ Function.update n.hist d (n.hist d ∪ m.hist) d
      rw [Function.update_self]
      exact Finset.subset_union_right
  | reload d =>
    obtain ⟨net, hnet, hc⟩ := Option.bind_eq_some_iff.mp hs
    obtain rfl := Option.some.inj hc
    exact ⟨n, { h with mirrors := h.mirrors.reload hnet }⟩
  | snapshot d drop =>
    obtain ⟨hdrop, hs⟩ := Option.ite_none_right_eq_some.mp hs
    obtain ⟨net, hnet, hc⟩ := Option.bind_eq_some_iff.mp hs
    obtain rfl := Option.some.inj hc
    obtain ⟨n', hn', hm⟩ := h.mirrors.publish hnet
    have hread := fun d i hi => (h.read d i hi).step hn'
    refine ⟨n', h.runs.step trivial hn', hm, LogNet.forall_noteRead hread ?_, ?_⟩
    · obtain rfl := Net.step_publish hn'
      exact ⟨⟨n.doc d, n.hist d⟩, hlen ▸ List.getElem?_concat_length, subset_rfl⟩
    · obtain rfl := Net.step_publish hn'
      show CoversLog (insert c.net.pool.length (c.kept \ drop)) _
      rw [hlen]
      refine h.covers.append rfl (fun i hi => .inl hi) fun j hj m hm => ?_
      obtain ⟨m', hm', hsub⟩ := h.read d j (hdrop hj)
      obtain rfl := Option.some.inj (hm'.symm.trans hm)
      exact hsub
  | join i j =>
    obtain ⟨-, hs⟩ := Option.ite_none_right_eq_some.mp hs
    obtain ⟨net, hnet, hc⟩ := Option.bind_eq_some_iff.mp hs
    obtain rfl := Option.some.inj hc
    obtain ⟨n', hn', hm⟩ := h.mirrors.combine hnet
    have hread := fun d i hi => (h.read d i hi).step hn'
    refine ⟨n', h.runs.step trivial hn', hm, hread, ?_⟩
    simp only [Net.step, Option.bind_eq_bind, Option.bind_eq_some_iff, Option.some.injEq] at hn'
    obtain ⟨a, ha, b, hb, s, -, rfl⟩ := hn'
    show CoversLog (insert c.net.pool.length (c.kept \ {i, j})) _
    rw [hlen]
    refine h.covers.append rfl (fun i hi => .inl hi) fun j' hj' m hm => ?_
    rcases Finset.mem_insert.mp hj' with rfl | hj'
    · obtain rfl := Option.some.inj (ha.symm.trans hm)
      exact Finset.subset_union_left
    · rw [Finset.mem_singleton.mp hj'] at hm
      obtain rfl := Option.some.inj (hb.symm.trans hm)
      exact Finset.subset_union_right

/-- **Every run of a compacted log mirrors a run**, and the log accounts for all of it. -/
theorem LogNet.Runs.exists_compacted {bytes : List UInt8} (hinit : C.encode T.init = some bytes)
    (hc : LogNet.Runs T C c) : ∃ n, Compacted T C n c := by
  refine hc.invariant (P := fun c => ∃ n, Compacted T C n c) ⟨.init T, .init, mirrors_init hinit,
    fun d i hi => absurd hi (Finset.notMem_empty i), fun i hi => absurd hi (Nat.not_lt_zero i)⟩ ?_
  rintro c a c' ⟨n, h⟩ hs
  exact h.step hs

end RealmGuard.Lib
