import Mathlib.Data.List.Forall2
import RealmGuard.Lib.Replication

/-!
# Replicas that exchange bytes

`ByteNet` is a system of replicas as deployed: the pool holds encoded documents, a replica
decodes what it receives, a transfer may break off anywhere, and a replica may save its
document and load it again. Input that breaks off is refused and changes nothing.

`Mirrors` relates such a system to a `Net`: the same documents, and a pool of their
encodings. Every step is a step of the mirrored `Net` or none (`Mirrors.step`), so that
every run mirrors a run (`ByteNet.Runs.mirrored`). In the other direction full transfers
always succeed where merges do (`Mirrors.receive_all`): a replica that has received the whole
pool, in any order and with any broken transfers in between, has all operations in its history.
-/

namespace RealmGuard.Lib

variable {Dev Op S : Type} [DecidableEq Dev]

/-- An encoding of states; `none` is a panic, or a refusal. -/
structure ByteCodec (S : Type) where
  encode : S → Option (List UInt8)
  decode : List UInt8 → Option S
  decode_encode : ∀ s bytes, encode s = some bytes → decode bytes = some s
  decode_take : ∀ s bytes k, encode s = some bytes → k < bytes.length →
    decode (bytes.take k) = none

/-- `ops` is a ghost: the operations performed. -/
structure ByteNet (Dev Op S : Type) where
  doc : Dev → S
  pool : List (List UInt8)
  ops : List (Dev × Op)

/-- `receive d i k`: the first `k` bytes of message `i` reach `d`. -/
inductive ByteAction (Dev Op : Type) where
  | update (d : Dev) (op : Op)
  | publish (d : Dev)
  | combine (i j : ℕ)
  | receive (d : Dev) (i k : ℕ)
  | reload (d : Dev)

namespace ByteNet

variable (T : DeltaType Dev Op S) (C : ByteCodec S)

/-- The pool holds the empty document only. -/
def init : ByteNet Dev Op S := ⟨fun _ => T.init, (C.encode T.init).toList, []⟩

def step (c : ByteNet Dev Op S) : ByteAction Dev Op → Option (ByteNet Dev Op S)
  | .update d op => do
    let (s, delta) ← T.mutate d op (c.doc d)
    let bytes ← C.encode delta
    some ⟨Function.update c.doc d s, c.pool ++ [bytes], c.ops ++ [(d, op)]⟩
  | .publish d => do
    let bytes ← C.encode (c.doc d)
    some { c with pool := c.pool ++ [bytes] }
  | .combine i j => do
    let a ← c.pool[i]?
    let b ← c.pool[j]?
    let s ← T.merge (← C.decode a) (← C.decode b)
    let bytes ← C.encode s
    some { c with pool := c.pool ++ [bytes] }
  | .receive d i k => do
    let bytes ← c.pool[i]?
    match C.decode (bytes.take k) with
    | some m => do
      let s ← T.merge (c.doc d) m
      some { c with doc := Function.update c.doc d s }
    | none => some c
  | .reload d => do
    let bytes ← C.encode (c.doc d)
    let s ← C.decode bytes
    some { c with doc := Function.update c.doc d s }

def exec (c : ByteNet Dev Op S) (as : List (ByteAction Dev Op)) : Option (ByteNet Dev Op S) :=
  as.foldlM (step T C) c

/-- The reachable systems. -/
abbrev Runs : ByteNet Dev Op S → Prop := Reaches (step T C) (init T C)

end ByteNet

variable {T : DeltaType Dev Op S} {C : ByteCodec S} {n : Net Dev Op S} {c c' : ByteNet Dev Op S}

/-- The documents of `n`, and its pool encoded. -/
structure Mirrors (C : ByteCodec S) (n : Net Dev Op S) (c : ByteNet Dev Op S) : Prop where
  doc : n.doc = c.doc
  pool : List.Forall₂ (fun m bytes => C.encode m.doc = some bytes) n.pool c.pool
  ops : n.log.map (fun ev => (ev.device, ev.op)) = c.ops

omit [DecidableEq Dev] in
theorem mirrors_init {bytes : List UInt8} (h : C.encode T.init = some bytes) :
    Mirrors C (Net.init T) (ByteNet.init T C) where
  doc := rfl
  pool := by
    show List.Forall₂ _ _ (C.encode T.init).toList
    rw [h]
    exact .cons h .nil
  ops := rfl

namespace Mirrors

section

variable (h : Mirrors C n c)
include h

omit [DecidableEq Dev] in
theorem exists_message {i : ℕ} {bytes : List UInt8} (hi : c.pool[i]? = some bytes) :
    ∃ m, n.pool[i]? = some m ∧ C.encode m.doc = some bytes := by
  have hlen := h.pool.length_eq
  have hlt : i < n.pool.length := hlen ▸ (List.getElem?_eq_some_iff.mp hi).1
  refine ⟨n.pool[i], List.getElem?_eq_getElem hlt, ?_⟩
  obtain ⟨hlt', rfl⟩ := List.getElem?_eq_some_iff.mp hi
  exact List.Forall₂.get h.pool hlt hlt'

omit [DecidableEq Dev] in
theorem exists_bytes {i : ℕ} {m : Message S} (hi : n.pool[i]? = some m) :
    ∃ bytes, c.pool[i]? = some bytes ∧ C.encode m.doc = some bytes := by
  have hlen := h.pool.length_eq
  have hlt : i < c.pool.length := hlen ▸ (List.getElem?_eq_some_iff.mp hi).1
  refine ⟨c.pool[i], List.getElem?_eq_getElem hlt, ?_⟩
  obtain ⟨hlt', rfl⟩ := List.getElem?_eq_some_iff.mp hi
  exact List.Forall₂.get h.pool hlt' hlt

omit [DecidableEq Dev] in
/-- The pool is mirrored when one more message is. -/
theorem pool_snoc {m : Message S} {bytes : List UInt8} (hm : C.encode m.doc = some bytes) :
    List.Forall₂ (fun m bytes => C.encode m.doc = some bytes) (n.pool ++ [m])
      (c.pool ++ [bytes]) := List.rel_append h.pool (.cons hm .nil)

theorem update {d : Dev} {op : Op} (hs : c.step T C (.update d op) = some c') :
    ∃ n', n.step T (.update d op) = some n' ∧ Mirrors C n' c' := by
  simp only [ByteNet.step, Option.bind_eq_bind, Option.bind_eq_some_iff, Option.some.injEq] at hs
  obtain ⟨⟨s, δ⟩, hmut, bytes, henc, rfl⟩ := hs
  rw [← h.doc] at hmut
  refine ⟨_, Net.update_eq hmut, ?_, h.pool_snoc henc, ?_⟩
  · rw [h.doc]
  · rw [List.map_append, h.ops]
    rfl

theorem publish {d : Dev} (hs : c.step T C (.publish d) = some c') :
    ∃ n', n.step T (.publish d) = some n' ∧ Mirrors C n' c' := by
  simp only [ByteNet.step, Option.bind_eq_bind, Option.bind_eq_some_iff, Option.some.injEq] at hs
  obtain ⟨bytes, henc, rfl⟩ := hs
  rw [← h.doc] at henc
  exact ⟨_, rfl, h.doc, h.pool_snoc henc, h.ops⟩

theorem combine {i j : ℕ} (hs : c.step T C (.combine i j) = some c') :
    ∃ n', n.step T (.combine i j) = some n' ∧ Mirrors C n' c' := by
  simp only [ByteNet.step, Option.bind_eq_bind, Option.bind_eq_some_iff, Option.some.injEq] at hs
  obtain ⟨a, ha, b, hb, x, hx, y, hy, s, hmerge, bytes, henc, rfl⟩ := hs
  obtain ⟨ma, hma, hea⟩ := h.exists_message ha
  obtain ⟨mb, hmb, heb⟩ := h.exists_message hb
  obtain rfl := Option.some.inj ((C.decode_encode _ _ hea).symm.trans hx)
  obtain rfl := Option.some.inj ((C.decode_encode _ _ heb).symm.trans hy)
  exact ⟨_, Net.combine_eq hma hmb hmerge, h.doc, h.pool_snoc henc, h.ops⟩

/-- A transfer that broke off is refused; one that did not is a delivery. -/
theorem deliver {d : Dev} {i k : ℕ} (hs : c.step T C (.receive d i k) = some c') :
    ∃ bytes, c.pool[i]? = some bytes ∧
      (k < bytes.length ∧ c' = c ∨
        bytes.length ≤ k ∧ ∃ n', n.step T (.deliver d i) = some n' ∧ Mirrors C n' c') := by
  simp only [ByteNet.step, Option.bind_eq_bind, Option.bind_eq_some_iff] at hs
  obtain ⟨bytes, hi, hs⟩ := hs
  obtain ⟨m, hm, henc⟩ := h.exists_message hi
  refine ⟨bytes, hi, ?_⟩
  by_cases hk : k < bytes.length
  · rw [C.decode_take _ _ _ henc hk] at hs
    exact .inl ⟨hk, (Option.some.inj hs).symm⟩
  · rw [List.take_of_length_le (not_lt.mp hk), C.decode_encode _ _ henc] at hs
    obtain ⟨s, hmerge, hs⟩ := Option.bind_eq_some_iff.mp hs
    obtain rfl := Option.some.inj hs
    rw [← h.doc] at hmerge
    refine .inr ⟨not_lt.mp hk, _, Net.deliver_eq hm hmerge, ?_, h.pool, h.ops⟩
    rw [h.doc]

/-- Loading what was saved changes nothing. -/
theorem reload {d : Dev} (hs : c.step T C (.reload d) = some c') : Mirrors C n c' := by
  simp only [ByteNet.step, Option.bind_eq_bind, Option.bind_eq_some_iff, Option.some.injEq] at hs
  obtain ⟨bytes, henc, s, hdec, rfl⟩ := hs
  obtain rfl := Option.some.inj ((C.decode_encode _ _ henc).symm.trans hdec)
  refine ⟨?_, h.pool, h.ops⟩
  rw [Function.update_eq_self]
  exact h.doc

/-- **A step is one of the mirrored system, or none.** -/
theorem step {a : ByteAction Dev Op} (hs : c.step T C a = some c') :
    ∃ n', (n' = n ∨ ∃ a', n.step T a' = some n') ∧ Mirrors C n' c' := by
  cases a with
  | update d op =>
    obtain ⟨n', hn', h'⟩ := h.update hs
    exact ⟨n', .inr ⟨_, hn'⟩, h'⟩
  | publish d =>
    obtain ⟨n', hn', h'⟩ := h.publish hs
    exact ⟨n', .inr ⟨_, hn'⟩, h'⟩
  | combine i j =>
    obtain ⟨n', hn', h'⟩ := h.combine hs
    exact ⟨n', .inr ⟨_, hn'⟩, h'⟩
  | receive d i k =>
    obtain ⟨bytes, -, ⟨-, rfl⟩ | ⟨-, n', hn', h'⟩⟩ := h.deliver hs
    · exact ⟨n, .inl rfl, h⟩
    · exact ⟨n', .inr ⟨_, hn'⟩, h'⟩
  | reload d => exact ⟨n, .inl rfl, h.reload hs⟩

end

end Mirrors

/-- **Every run of replicas that exchange bytes mirrors a run.** -/
theorem ByteNet.Runs.mirrored {bytes : List UInt8} (hinit : C.encode T.init = some bytes)
    (hc : ByteNet.Runs T C c) : ∃ n, Lib.Runs T Free n ∧ Mirrors C n c := by
  refine hc.invariant (P := fun c => ∃ n, Lib.Runs T Free n ∧ Mirrors C n c)
    ⟨_, .init, mirrors_init hinit⟩ ?_
  rintro c a c' ⟨n, hn, h⟩ hs
  obtain ⟨n', rfl | ⟨a, ha⟩, h'⟩ := h.step hs
  · exact ⟨n', hn, h'⟩
  · exact ⟨n', hn.step trivial ha, h'⟩

/-! ## Receiving the whole pool -/

/-- What `d` has after some receptions: nothing else changed, and the messages that arrived in
full are in its history. -/
structure Received (T : DeltaType Dev Op S) (C : ByteCodec S) (n : Net Dev Op S) (d : Dev)
    (l : List (ℕ × ℕ)) (n' : Net Dev Op S) (c' : ByteNet Dev Op S) : Prop where
  runs : Lib.Runs T Free n'
  mirrors : Mirrors C n' c'
  log : n'.log = n.log
  pool : n'.pool = n.pool
  others : ∀ d' ≠ d, n'.hist d' = n.hist d'
  grows : n.hist d ⊆ n'.hist d
  arrived : ∀ q ∈ l, ∀ m bytes, n.pool[q.1]? = some m → C.encode m.doc = some bytes →
    bytes.length ≤ q.2 → m.hist ⊆ n'.hist d

theorem Received.pool_eq {d : Dev} {l : List (ℕ × ℕ)} {n' : Net Dev Op S}
    (hr : Received T C n d l n' c') (h : Mirrors C n c) : c'.pool = c.pool := by
  have hpool := hr.mirrors.pool
  rw [hr.pool] at hpool
  exact List.right_unique_forall₂' (fun _ _ _ hb hb' => Option.some.inj (hb.symm.trans hb')) hpool
    h.pool

variable {log : List (Event Dev Op S)}

/-- One reception returns. -/
theorem Mirrors.receive (h : Mirrors C n c) (hn : Lib.Runs T Free n)
    (hmerge : ∀ {a b h h'}, n.Holds a h → n.Holds b h' → ∃ s, T.merge a b = some s) (d : Dev)
    {i : ℕ} (k : ℕ) (hi : i < c.pool.length) :
    ∃ n' c', c.step T C (.receive d i k) = some c' ∧ Received T C n d [(i, k)] n' c' := by
  have hbytes : c.pool[i]? = some c.pool[i] := List.getElem?_eq_getElem hi
  obtain ⟨m, hm, henc⟩ := h.exists_message hbytes
  by_cases hk : k < (c.pool[i]).length
  · refine ⟨n, c, ?_, hn, h, rfl, rfl, fun _ _ => rfl, subset_rfl,
      fun q hq m' bytes' hm' henc' => ?_⟩
    · simp only [ByteNet.step, hbytes, Option.bind_eq_bind, Option.bind_some,
        C.decode_take _ _ _ henc hk]
    · obtain rfl := List.mem_singleton.mp hq
      obtain rfl := Option.some.inj (hm.symm.trans hm')
      obtain rfl := Option.some.inj (henc.symm.trans henc')
      exact fun hle => absurd hk (not_lt.mpr hle)
  · obtain ⟨s, hs⟩ := hmerge (.replica d) (.message (List.mem_of_getElem? hm))
    have hstep : c.step T C (.receive d i k) =
        some { c with doc := Function.update c.doc d s } := by
      simp only [ByteNet.step, hbytes, Option.bind_eq_bind, Option.bind_some,
        List.take_of_length_le (not_lt.mp hk), C.decode_encode _ _ henc, ← h.doc, hs]
    refine ⟨_, _, hstep, hn.step (a := .deliver d i) trivial (Net.deliver_eq hm hs),
      ⟨?_, h.pool, h.ops⟩, rfl, rfl, fun d' hd => Function.update_of_ne hd _ _, ?_, ?_⟩
    · rw [h.doc]
    · simp
    · intro q hq m' bytes' hm' _ _
      obtain rfl := List.mem_singleton.mp hq
      obtain rfl := Option.some.inj (hm.symm.trans hm')
      simp

/-- **Receptions return**, as long as merges of the documents around do. -/
theorem Mirrors.receive_all (d : Dev)
    (hmerge : ∀ {n : Net Dev Op S} {a b h h'}, Lib.Runs T Free n → n.log = log → n.Holds a h →
      n.Holds b h' → ∃ s, T.merge a b = some s) : ∀ {l : List (ℕ × ℕ)} {n : Net Dev Op S}
      {c : ByteNet Dev Op S}, Mirrors C n c → Lib.Runs T Free n → n.log = log →
      (∀ q ∈ l, q.1 < c.pool.length) →
      ∃ n' c', c.exec T C (l.map fun q => .receive d q.1 q.2) = some c' ∧
        Received T C n d l n' c' := by
  intro l
  induction l with
  | nil =>
    intro n c h hn _ _
    exact ⟨n, c, rfl, hn, h, rfl, rfl, fun _ _ => rfl, subset_rfl,
      fun q hq => absurd hq List.not_mem_nil⟩
  | cons q l ih =>
    intro n c h hn hlog hl
    obtain ⟨n₁, c₁, hs, h₁⟩ := h.receive hn (fun ha hb => hmerge hn hlog ha hb) d q.2
      (hl q List.mem_cons_self)
    have hlen : c₁.pool.length = c.pool.length := by
      rw [← h₁.mirrors.pool.length_eq, h₁.pool, h.pool.length_eq]
    obtain ⟨n₂, c₂, hexec, h₂⟩ := ih h₁.mirrors h₁.runs (h₁.log.trans hlog) fun q hq =>
      hlen ▸ hl q (List.mem_cons_of_mem _ hq)
    refine ⟨n₂, c₂, ?_, h₂.runs, h₂.mirrors, h₂.log.trans h₁.log, h₂.pool.trans h₁.pool,
      fun d' hd => (h₂.others d' hd).trans (h₁.others d' hd), h₁.grows.trans h₂.grows, ?_⟩
    · rw [List.map_cons, ByteNet.exec, List.foldlM_cons, hs]
      exact hexec
    · intro q' hq' m bytes hm henc hle
      rcases List.mem_cons.mp hq' with rfl | hq'
      · exact (h₁.arrived q' (List.mem_singleton_self _) m bytes hm henc hle).trans h₂.grows
      · exact h₂.arrived q' hq' m bytes (h₁.pool ▸ hm) henc hle

omit [DecidableEq Dev] in
/-- The receptions have every message of the pool arrive in full. -/
def Exhausts (c : ByteNet Dev Op S) (l : List (ℕ × ℕ)) : Prop :=
  (∀ q ∈ l, q.1 < c.pool.length) ∧
    ∀ i bytes, c.pool[i]? = some bytes → ∃ k, (i, k) ∈ l ∧ bytes.length ≤ k

omit [DecidableEq Dev] in
/-- The receptions have every message of `kept` arrive in full. -/
def ExhaustsOn (kept : Finset ℕ) (c : ByteNet Dev Op S) (l : List (ℕ × ℕ)) : Prop :=
  (∀ q ∈ l, q.1 < c.pool.length) ∧
    ∀ i ∈ kept, ∀ bytes, c.pool[i]? = some bytes → ∃ k, (i, k) ∈ l ∧ bytes.length ≤ k

omit [DecidableEq Dev] in
/-- The messages of `kept` account for all operations. -/
def CoversLog (kept : Finset ℕ) (n : Net Dev Op S) : Prop :=
  ∀ i < n.log.length, ∃ j ∈ kept, ∃ m, n.pool[j]? = some m ∧ i ∈ m.hist

omit [DecidableEq Dev] in
theorem Exhausts.on {l : List (ℕ × ℕ)} (h : Exhausts c l) (kept : Finset ℕ) :
    ExhaustsOn kept c l := ⟨h.1, fun i _ => h.2 i⟩

/-- The whole pool accounts for all operations. -/
theorem Runs.covers (hn : Lib.Runs T Free n) : CoversLog (Finset.range n.pool.length) n := by
  intro i hi
  obtain ⟨j, hj⟩ := List.getElem?_of_mem (hn.delta_mem_pool (List.getElem?_eq_getElem hi))
  have hlt : j < n.pool.length := (List.getElem?_eq_some_iff.mp hj).1
  exact ⟨j, Finset.mem_range.mpr hlt, _, hj, Finset.mem_singleton_self i⟩

/-- Where messages that account for all operations have arrived, so have the operations. -/
theorem Received.hist_eq {d : Dev} {l : List (ℕ × ℕ)} {n' : Net Dev Op S} {kept : Finset ℕ}
    (hr : Received T C n d l n' c') (h : Mirrors C n c) (hkept : CoversLog kept n)
    (hl : ExhaustsOn kept c l) : n'.hist d = Finset.range n.log.length := by
  refine Finset.Subset.antisymm (fun i hi => ?_) fun i hi => ?_
  · rw [← hr.log]
    exact Finset.mem_range.mpr (hr.runs.hist_lt (.replica d) i hi)
  · obtain ⟨j, hjk, m, hj, him⟩ := hkept i (Finset.mem_range.mp hi)
    obtain ⟨bytes, hbytes, henc⟩ := h.exists_bytes hj
    obtain ⟨k, hk, hle⟩ := hl.2 j hjk bytes hbytes
    exact hr.arrived (j, k) hk m bytes hj henc hle him

end RealmGuard.Lib
