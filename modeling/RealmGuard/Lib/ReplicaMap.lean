import RealmGuard.Lib.Replication

/-!
# Maps between replicated types

A `Reading` takes the documents of one replicated type to those of another, and
an operation to one of the other type, which may depend on what the device
held. Where merges and operations commute with the reading (`Follows`), a step
of one system is a step of the other (`Net.step_map`) and a run of one is a run
of the other (`Runs.map`). Histories are the same, and so is what is closed.
-/

namespace RealmGuard.Lib

/-- Documents and operations of one type, read as those of another. -/
structure Reading (Dev Op S Op' S' : Type) where
  doc : S → S'
  op : Dev → Op → S → Op'

variable {Dev Op S Op' S' : Type}

namespace Reading

variable (f : Reading Dev Op S Op' S')

def event (ev : Event Dev Op S) : Event Dev Op' S' :=
  ⟨ev.device, f.op ev.device ev.op ev.pre, ev.past, f.doc ev.pre, f.doc ev.delta⟩

def message (m : Message S) : Message S' := ⟨f.doc m.doc, m.hist⟩

def net (n : Net Dev Op S) : Net Dev Op' S' where
  doc d := f.doc (n.doc d)
  hist := n.hist
  log := n.log.map f.event
  pool := n.pool.map f.message

def action (n : Net Dev Op S) : Action Dev Op → Action Dev Op'
  | .update d op => .update d (f.op d op (n.doc d))
  | .publish d => .publish d
  | .combine i j => .combine i j
  | .deliver d i => .deliver d i

/-- What a step computes commutes with the reading. -/
def Follows (T : DeltaType Dev Op S) (T' : DeltaType Dev Op' S') (n : Net Dev Op S) :
    Action Dev Op → Prop
  | .update d op => ∀ s δ, T.mutate d op (n.doc d) = some (s, δ) →
    T'.mutate d (f.op d op (n.doc d)) (f.doc (n.doc d)) = some (f.doc s, f.doc δ)
  | .publish _ => True
  | .combine i j => ∀ a b c, n.pool[i]? = some a → n.pool[j]? = some b →
    T.merge a.doc b.doc = some c → T'.merge (f.doc a.doc) (f.doc b.doc) = some (f.doc c)
  | .deliver d i => ∀ m c, n.pool[i]? = some m → T.merge (n.doc d) m.doc = some c →
    T'.merge (f.doc (n.doc d)) (f.doc m.doc) = some (f.doc c)

theorem getElem?_log {log : List (Event Dev Op S)} {i : ℕ} {ev' : Event Dev Op' S'} :
    (log.map f.event)[i]? = some ev' ↔ ∃ ev, log[i]? = some ev ∧ f.event ev = ev' := by
  rw [List.getElem?_map, Option.map_eq_some_iff]

theorem getElem?_pool {n : Net Dev Op S} {i : ℕ} {m : Message S} (h : n.pool[i]? = some m) :
    (f.net n).pool[i]? = some (f.message m) := by
  show (n.pool.map f.message)[i]? = _
  rw [List.getElem?_map, h, Option.map_some]

theorem closed_iff {log : List (Event Dev Op S)} {h : Finset ℕ} :
    Closed (log.map f.event) h ↔ Closed log h := by
  unfold Closed
  constructor
  · intro hc i hi ev hev
    exact hc i hi (f.event ev) ((f.getElem?_log).mpr ⟨ev, hev, rfl⟩)
  · intro hc i hi ev' hev'
    obtain ⟨ev, hev, rfl⟩ := (f.getElem?_log).mp hev'
    exact hc i hi ev hev

theorem causal {n : Net Dev Op S} {a : Action Dev Op} (h : Causal n a) :
    Causal (f.net n) (f.action n a) := by
  cases a with
  | update d op => exact trivial
  | publish d => exact trivial
  | combine i j => exact trivial
  | deliver d i =>
    intro m' hm'
    change (n.pool.map f.message)[i]? = some m' at hm'
    rw [List.getElem?_map, Option.map_eq_some_iff] at hm'
    obtain ⟨m, hm, rfl⟩ := hm'
    exact f.closed_iff.mpr (h m hm)

variable [DecidableEq Dev]

theorem doc_update (g : Dev → S) (d : Dev) (s : S) :
    (fun d' => f.doc (Function.update g d s d')) =
      Function.update (fun d' => f.doc (g d')) d (f.doc s) :=
  funext fun d' => Function.apply_update (fun _ => f.doc) g d s d'

variable {T : DeltaType Dev Op S} {T' : DeltaType Dev Op' S'}

/-- A step of one system is a step of the other. -/
theorem step {n n' : Net Dev Op S} {a : Action Dev Op} (hf : f.Follows T T' n a)
    (h : n.step T a = some n') : (f.net n).step T' (f.action n a) = some (f.net n') := by
  cases a with
  | update d op =>
    obtain ⟨s, δ, hmut, rfl⟩ := Net.step_update h
    refine (Net.update_eq (hf s δ hmut)).trans (congrArg some ?_)
    simp only [net, event, message, doc_update, List.map_append, List.map_cons, List.map_nil,
      List.length_map]
  | publish d =>
    obtain rfl := Net.step_publish h
    refine congrArg some ?_
    simp only [net, message, List.map_append, List.map_cons, List.map_nil]
  | combine i j =>
    simp only [Net.step, Option.bind_eq_bind, Option.bind_eq_some_iff, Option.some.injEq] at h
    obtain ⟨a, ha, b, hb, c, hc, rfl⟩ := h
    refine (Net.combine_eq (f.getElem?_pool ha) (f.getElem?_pool hb) (hf a b c ha hb hc)).trans
      (congrArg some ?_)
    simp only [net, message, List.map_append, List.map_cons, List.map_nil]
  | deliver d i =>
    obtain ⟨m, hm, s, hs, rfl⟩ := Net.step_deliver h
    refine (Net.deliver_eq (f.getElem?_pool hm) (hf m s hm hs)).trans (congrArg some ?_)
    simp only [net, message, doc_update]

/-- A run of one system is a run of the other, as far as merges and operations commute with the
reading. They may do so only under a property `C` of the log that shorter logs keep. -/
theorem runs {C : List (Event Dev Op S) → Prop} {ok : Net Dev Op S → Action Dev Op → Prop}
    {ok' : Net Dev Op' S' → Action Dev Op' → Prop} (hC : ∀ log ev, C (log ++ [ev]) → C log)
    (hinit : f.doc T.init = T'.init)
    (hok : ∀ {n a}, ok n a → ok' (f.net n) (f.action n a))
    (hf : ∀ {n a n'}, Runs T ok n → n.step T a = some n' → C n'.log → f.Follows T T' n a)
    {n : Net Dev Op S} (hn : Runs T ok n) (hlog : C n.log) : Runs T' ok' (f.net n) := by
  induction hn with
  | refl =>
    have h0 : f.net (Net.init T) = Net.init T' := by
      simp only [net, Net.init, message, List.map_cons, List.map_nil, hinit]
    exact h0 ▸ .init
  | @step n n' a hn h ih =>
    obtain ⟨ha, hs⟩ := h
    have hlog' : C n.log := by
      rcases Net.log_step hs with he | ⟨d, op, s, δ, -, -, he⟩
      · exact he ▸ hlog
      · exact hC _ _ (he ▸ hlog)
    exact (ih hlog').step (hok ha) (f.step (hf hn hs hlog) hs)

end Reading

end RealmGuard.Lib
