import RealmGuard.FieldRuns

/-!
# Clocks of fields

`max_hlc` looks at the registers a replica still holds, yet is the greatest clock of all
writes it has absorbed, the lost ones too (`maxHlc_exact`). It is there to move a device's
`HlcClock` past what a merge brought in. `ClockNet` is the system of devices that do so:
a write is stamped by `tick`, and a reception is followed by `update` with `max_hlc`. Its
runs stamp every write ahead of the registers its device holds, so that no edit is lost
(`clocked_writes`).
-/

namespace RealmGuard

open Lib

namespace VaultDoc

variable {V : Type} [LinearOrder V] {p : Profile} {n : DocNet V}
  {ok : DocNet V → Action DeviceId (DocOp V) → Prop}

/-- The clocks of the writes, to any field, that a history absorbs. -/
def absorbedClocks (log : List (DocEvent V)) (h : Finset ℕ) : Set Hlc :=
  {k | ∃ id f i v ts, Absorbed log id f h i ∧ Wrote log id f i v ts ∧ k = ts.hlc}

/-- A register is as late as the writes absorbed on its field. -/
theorem exists_register_of_absorbed (hn : Runs (replicated p V) ok n) {t : VaultDoc V}
    {h : Finset ℕ} (ht : n.Holds t h) {k : Hlc} (hk : k ∈ absorbedClocks n.log h) :
    ∃ id f reg, t.register id f = some reg ∧ k ≤ reg.ts.hlc := by
  obtain ⟨id, f, i, v, ts, ha, hw, rfl⟩ := hk
  obtain ⟨reg, hreg⟩ := Option.isSome_iff_exists.mp ((register_isSome_iff hn ht).mpr ⟨i, ha⟩)
  have hle := ((isGreatest_register hn ht).mp hreg).2 ⟨i, v, ts, ha, hw, rfl⟩
  exact ⟨id, f, reg, hreg, hlc_le_of_key_le hle⟩

/-- A register holds a write that was absorbed. -/
theorem hlc_mem_absorbedClocks (hn : Runs (replicated p V) ok n) {t : VaultDoc V} {h : Finset ℕ}
    (ht : n.Holds t h) {id : EntryId} {f : FieldId} {reg : LwwRegister V}
    (hreg : t.register id f = some reg) : reg.ts.hlc ∈ absorbedClocks n.log h := by
  obtain ⟨i, v, ts, ha, hw, hkey⟩ := ((isGreatest_register hn ht).mp hreg).1
  refine ⟨id, f, i, v, ts, ha, hw, ?_⟩
  exact congrArg (fun k => (ofLex k).1.hlc) hkey

theorem isGreatest_maxHlc (hn : Runs (replicated p V) ok n) {t : VaultDoc V} {h : Finset ℕ}
    (ht : n.Holds t h) {k : Hlc} (hk : t.maxHlc = some k) :
    IsGreatest (absorbedClocks n.log h) k := by
  constructor
  · obtain ⟨id, f, reg, hreg, rfl⟩ := maxHlc_mem hk
    exact hlc_mem_absorbedClocks hn ht hreg
  · intro c hc
    obtain ⟨id, f, reg, hreg, hle⟩ := exists_register_of_absorbed hn ht hc
    obtain ⟨k', hk', hle'⟩ := exists_le_maxHlc hreg
    obtain rfl := Option.some.inj (hk.symm.trans hk')
    exact hle.trans hle'

/-- **`max_hlc` is the greatest clock of the writes absorbed**, on any field, and `None` when
none was. -/
theorem maxHlc_exact (p : Profile) (n : DocNet V) (hn : Runs (replicated p V) Free n)
    (t : VaultDoc V) (h : Finset ℕ) (ht : n.Holds t h) :
    (∀ k, t.maxHlc = some k ↔ IsGreatest (absorbedClocks n.log h) k) ∧
      (t.maxHlc = none ↔ absorbedClocks n.log h = ∅) := by
  have hnone : t.maxHlc = none ↔ absorbedClocks n.log h = ∅ := by
    constructor
    · intro hm
      refine Set.eq_empty_of_forall_notMem fun c hc => ?_
      obtain ⟨id, f, reg, hreg, -⟩ := exists_register_of_absorbed hn ht hc
      obtain ⟨k, hk, -⟩ := exists_le_maxHlc hreg
      exact Option.some_ne_none k (hk.symm.trans hm)
    · intro he
      refine Option.eq_none_iff_forall_ne_some.mpr fun k hk => ?_
      exact Set.notMem_empty k (he ▸ (isGreatest_maxHlc hn ht hk).1)
  refine ⟨fun k => ⟨isGreatest_maxHlc hn ht, fun hg => ?_⟩, hnone⟩
  cases hm : t.maxHlc with
  | none => exact absurd (hnone.mp hm ▸ hg.1) (Set.notMem_empty k)
  | some k' => rw [(isGreatest_maxHlc hn ht hm).unique hg]

/-- Device 1 writes a field twice; device 2 writes it in between, loses, removes the entry and
hears of both writes. -/
def overtaken : List (Action DeviceId (DocOp ℕ)) :=
  [.update (dev 1) (.setField (eid 1) ⟨0⟩ 5 ⟨⟨9, 0⟩, dev 1⟩),
    .update (dev 2) (.setField (eid 1) ⟨0⟩ 8 ⟨⟨3, 0⟩, dev 2⟩),
    .update (dev 2) (.removeEntry (eid 1)), .deliver (dev 2) 1]

theorem maxHlc_exact_overtaken : ∃ n : DocNet ℕ, Runs (replicated .dev ℕ) Free n ∧
    (n.doc (dev 2)).maxHlc = some ⟨9, 0⟩ ∧
    IsGreatest (absorbedClocks n.log (n.hist (dev 2))) ⟨9, 0⟩ := by
  have h : ((Net.init (replicated .dev ℕ)).exec (replicated .dev ℕ) Free overtaken).any
      (fun n => (n.doc (dev 2)).maxHlc = some ⟨9, 0⟩) = true := by decide
  obtain ⟨n, hexec, h⟩ := (Option.any_eq_true _ _).mp h
  have hmax := of_decide_eq_true h
  have hn := Runs.init.exec hexec
  exact ⟨n, hn, hmax, ((maxHlc_exact .dev n hn _ _ (.replica (dev 2))).1 _).mp hmax⟩

/-! ## Writes stamped ahead -/

/-- What runs with writes stamped ahead keep: a write that was absorbed before another of its
field never shows where that one was absorbed; stamps follow the writes absorbed before, on
any field; and no two are the same. -/
structure EditsKept (n : DocNet V) : Prop where
  later : ∀ (r : DeviceId) (id : EntryId) (f : FieldId) (i j : ℕ) (v v' : V) (ts ts' : Timestamp)
    (ev : DocEvent V), Wrote n.log id f i v ts → n.log[j]? = some ev →
    ev.op = .setField id f v' ts' → Absorbed n.log id f ev.past i →
    Absorbed n.log id f (n.hist r) j → (n.doc r).register id f ≠ some ⟨v, ts⟩
  causal : ∀ (id id' : EntryId) (f f' : FieldId) (i j : ℕ) (v v' : V) (ts ts' : Timestamp)
    (ev : DocEvent V), Wrote n.log id f i v ts → n.log[j]? = some ev →
    ev.op = .setField id' f' v' ts' → Absorbed n.log id f ev.past i → ts.hlc < ts'.hlc
  distinct : ∀ (id id' : EntryId) (f f' : FieldId) (i j : ℕ) (v v' : V) (ts ts' : Timestamp),
    i ≠ j → Wrote n.log id f i v ts → Wrote n.log id' f' j v' ts' → ts ≠ ts'

theorem editsKept_of_ahead (hn : Runs (replicated p V) Ahead n) : EditsKept n where
  later r id f i j v v' ts ts' ev hi hev hop ha hr hreg := by
    have hg := (isGreatest_register hn (.replica r)).mp hreg
    have hle := hg.2 ⟨j, v', ts', hr, ⟨ev, hev, hop⟩, rfl⟩
    exact not_lt_of_ge hle (key_lt_of_hlc_lt (hlc_lt_of_ahead hn hi hev hop ha))
  causal _ _ _ _ _ _ _ _ _ _ _ hi hev hop ha := hlc_lt_of_ahead hn hi hev hop ha
  distinct _ _ _ _ i j _ _ _ _ hij hi hj := by
    rcases lt_or_gt_of_ne hij with hlt | hgt
    · exact ts_ne_of_ahead hn hi hj hlt
    · exact (ts_ne_of_ahead hn hj hi hgt).symm

theorem regKey_congr {d e : VaultDoc V} (h : e.fields = d.fields) (id : EntryId) (f : FieldId) :
    e.regKey id f = d.regKey id f := by
  rw [regKey_eq, regKey_eq, h]

/-- After a write that is at or past every register, every register is at or before it. -/
theorem hlc_le_setField {d : VaultDoc V} {id id' : EntryId} {f f' : FieldId} {v : V}
    {ts : Timestamp} {reg : LwwRegister V}
    (hle : ∀ id f old, d.register id f = some old → old.ts.hlc ≤ ts.hlc)
    (hreg : (d.setField id f v ts).1.register id' f' = some reg) : reg.ts.hlc ≤ ts.hlc := by
  have hkey := regKey_setField d id id' f f' v ts
  rw [regKey_eq_coe.mpr hreg] at hkey
  split at hkey
  · rcases max_choice (d.regKey id f) (toLex (ts, v) : Timestamp ×ₗ V) with hmax | hmax
    · exact hle id f reg (regKey_eq_coe.mp (hkey.trans hmax).symm)
    · exact (congrArg (fun k : Timestamp ×ₗ V => (ofLex k).1.hlc)
        (WithBot.coe_inj.mp (hkey.trans hmax))).le
  · exact hle id' f' reg (regKey_eq_coe.mp hkey.symm)

end VaultDoc

/-! ## Devices with a clock -/

/-- The clock of a device that has merged something into `doc`, moved past it. -/
def HlcClock.advance {V : Type} [LinearOrder V] (c : HlcClock) (now : UInt64)
    (doc : VaultDoc V) : HlcClock :=
  doc.maxHlc.elim c fun remote => (c.update now remote).1

theorem HlcClock.advance_none {V : Type} [LinearOrder V] {doc : VaultDoc V} (c : HlcClock)
    (now : UInt64) (h : doc.maxHlc = none) : c.advance now doc = c := by
  unfold advance
  rw [h]
  rfl

theorem HlcClock.last_advance {V : Type} [LinearOrder V] {doc : VaultDoc V} {k : Hlc}
    (c : HlcClock) (now : UInt64) (h : doc.maxHlc = some k) :
    (c.advance now doc).last = (max c.last k).nextLocal now := by
  unfold advance
  rw [h]
  exact c.update_eq_nextLocal_max now k

/-- Replicas, each with the clock of its device. -/
structure ClockNet (V : Type) [LinearOrder V] where
  net : DocNet V
  clock : DeviceId → HlcClock

/-- A step; writes and receptions read physical time. -/
inductive ClockAction (V : Type) where
  | addEntry (d : DeviceId) (id : EntryId)
  | removeEntry (d : DeviceId) (id : EntryId)
  | write (d : DeviceId) (id : EntryId) (field : FieldId) (value : V) (now : UInt64)
  | publish (d : DeviceId)
  | combine (i j : ℕ)
  | receive (d : DeviceId) (i : ℕ) (now : UInt64)

/-- The device whose clock a step moves. -/
def ClockAction.moves {V : Type} : ClockAction V → Option DeviceId
  | .write d _ _ _ _ => some d
  | .receive d _ _ => some d
  | _ => none

namespace ClockNet

open VaultDoc

variable {V : Type} [LinearOrder V] {p : Profile} {n n' : ClockNet V}

def init (p : Profile) (V : Type) [LinearOrder V] : ClockNet V :=
  ⟨.init (replicated p V), fun _ => .new⟩

/-- A step of the replicas alone. -/
def lift (p : Profile) (n : ClockNet V) (a : Action DeviceId (DocOp V)) : Option (ClockNet V) :=
  (n.net.step (replicated p V) a).map fun net => ⟨net, n.clock⟩

def step (p : Profile) (n : ClockNet V) : ClockAction V → Option (ClockNet V)
  | .addEntry d id => n.lift p (.update d (.addEntry id))
  | .removeEntry d id => n.lift p (.update d (.removeEntry id))
  | .write d id field value now => do
    let stamped := (n.clock d).tick now
    let net ← n.net.step (replicated p V) (.update d (.setField id field value (.new stamped.2 d)))
    some ⟨net, Function.update n.clock d stamped.1⟩
  | .publish d => n.lift p (.publish d)
  | .combine i j => n.lift p (.combine i j)
  | .receive d i now => do
    let net ← n.net.step (replicated p V) (.deliver d i)
    match (net.doc d).maxHlc with
    | some remote => some ⟨net, Function.update n.clock d ((n.clock d).update now remote).1⟩
    | none => some ⟨net, n.clock⟩

/-- A step that takes no clock to both limits, from where no event would move it up. -/
def within (p : Profile) (n : ClockNet V) (a : ClockAction V) : Option (ClockNet V) :=
  (n.step p a).filter fun n' => ∀ d ∈ a.moves, (n'.clock d).last ≠ .saturated

/-- Reachable without a clock at both limits. -/
abbrev Runs (p : Profile) : ClockNet V → Prop := Reaches (within p) (.init p V)

def exec (p : Profile) (n : ClockNet V) (as : List (ClockAction V)) : Option (ClockNet V) :=
  as.foldlM (within p) n

theorem within_eq_some {a : ClockAction V} : n.within p a = some n' ↔
    n.step p a = some n' ∧ ∀ d ∈ a.moves, (n'.clock d).last ≠ .saturated := by
  rw [within, Option.filter_eq_some_iff, decide_eq_true_iff]

theorem lift_eq {a : Action DeviceId (DocOp V)} {net : DocNet V}
    (h : n.net.step (replicated p V) a = some net) : n.lift p a = some ⟨net, n.clock⟩ := by
  rw [lift, h]
  rfl

theorem step_write {d : DeviceId} {id : EntryId} {f : FieldId} {v : V} {now : UInt64}
    (h : n.step p (.write d id f v now) = some n') :
    ∃ net, n.net.step (replicated p V)
        (.update d (.setField id f v (.new ((n.clock d).tick now).2 d))) = some net ∧
      n' = ⟨net, Function.update n.clock d ((n.clock d).tick now).1⟩ := by
  simp only [step, Option.bind_eq_bind, Option.bind_eq_some_iff, Option.some.injEq] at h
  obtain ⟨net, hnet, rfl⟩ := h
  exact ⟨net, hnet, rfl⟩

theorem step_receive {d : DeviceId} {i : ℕ} {now : UInt64}
    (h : n.step p (.receive d i now) = some n') :
    ∃ net, n.net.step (replicated p V) (.deliver d i) = some net ∧
      n' = ⟨net, Function.update n.clock d ((n.clock d).advance now (net.doc d))⟩ := by
  simp only [step, Option.bind_eq_bind, Option.bind_eq_some_iff] at h
  obtain ⟨net, hnet, h⟩ := h
  refine ⟨net, hnet, ?_⟩
  cases hmax : (net.doc d).maxHlc <;> simpa [HlcClock.advance, hmax] using h.symm

/-- A device's clock is at or past every register it holds; no write took the last clock. -/
structure Clocked (p : Profile) (n : ClockNet V) : Prop where
  runs : Lib.Runs (replicated p V) Ahead n.net
  registers : ∀ d id f reg, (n.net.doc d).register id f = some reg →
    reg.ts.hlc ≤ (n.clock d).last
  stamps : ∀ id f i v ts, Wrote n.net.log id f i v ts → ts.hlc ≠ .saturated
  clocks : ∀ d, (n.clock d).last ≠ .saturated

theorem clocked_init : Clocked p (.init p V) where
  runs := .init
  registers _ _ _ _ h := by cases h
  stamps _ _ _ _ _ h := by
    obtain ⟨ev, hev, -⟩ := h
    exact absurd (List.mem_of_getElem? hev) List.not_mem_nil
  clocks _ := by
    show (default : Hlc) ≠ .saturated
    decide

/-- The clock of a device is past its document again once `max_hlc` has moved it, whatever it
was. -/
theorem clocked_advance {net : DocNet V} {clock : DeviceId → HlcClock} {d : DeviceId}
    {c : HlcClock} {now : UInt64} (hruns : Lib.Runs (replicated p V) Ahead net)
    (hstamps : ∀ id f i v ts, Wrote net.log id f i v ts → ts.hlc ≠ .saturated)
    (hclocks : ∀ r, (clock r).last ≠ .saturated)
    (hother : ∀ r ≠ d, ∀ id f reg, (net.doc r).register id f = some reg →
      reg.ts.hlc ≤ (clock r).last)
    (hc : c.last ≠ .saturated) (hsat : (c.advance now (net.doc d)).last ≠ .saturated) :
    Clocked p ⟨net, Function.update clock d (c.advance now (net.doc d))⟩ := by
  refine ⟨hruns, fun r id f reg hreg => ?_, hstamps, fun r => ?_⟩
  · by_cases hr : r = d
    · subst hr
      obtain ⟨k, hk, hle⟩ := exists_le_maxHlc hreg
      -- the greatest clock was some write's, so it is not the last
      obtain ⟨id₀, f₀, i₀, v₀, ts₀, -, hw₀, rfl⟩ := (isGreatest_maxHlc hruns (.replica r) hk).1
      have hmax : max c.last ts₀.hlc ≠ .saturated := by
        rcases max_choice c.last ts₀.hlc with hm | hm
        · rw [hm]
          exact hc
        · rw [hm]
          exact hstamps id₀ f₀ i₀ v₀ ts₀ hw₀
      show reg.ts.hlc ≤ (Function.update clock r _ r).last
      rw [Function.update_self, c.last_advance now hk]
      exact (hle.trans (le_max_right _ _)).trans (Hlc.lt_nextLocal_iff.mpr hmax).le
    · show reg.ts.hlc ≤ (Function.update clock d _ r).last
      rw [Function.update_of_ne hr]
      exact hother r hr id f reg hreg
  · show (Function.update clock d _ r).last ≠ .saturated
    by_cases hr : r = d
    · subst hr
      rwa [Function.update_self]
    · rw [Function.update_of_ne hr]
      exact hclocks r

section Step

variable (h : Clocked p n)
include h

/-- What moves no document leaves the invariant as it is. -/
theorem Clocked.same {a : Action DeviceId (DocOp V)} (ha : Ahead n.net a)
    (hdoc : ∀ net, n.net.step (replicated p V) a = some net →
      (∀ d id f, (net.doc d).register id f = (n.net.doc d).register id f) ∧
        ∀ id f i v ts, Wrote net.log id f i v ts → Wrote n.net.log id f i v ts)
    (hs : n.lift p a = some n') : Clocked p n' := by
  obtain ⟨net, hnet, rfl⟩ := Option.map_eq_some_iff.mp hs
  obtain ⟨hreg, hlog⟩ := hdoc net hnet
  exact
    { runs := h.runs.step ha hnet
      registers := fun d id f reg hr => h.registers d id f reg ((hreg d id f) ▸ hr)
      stamps := fun id f i v ts hw => h.stamps id f i v ts (hlog id f i v ts hw)
      clocks := h.clocks }

omit h in
/-- A step that leaves the log as it is writes nothing. -/
theorem wrote_of_log {m net : DocNet V} (hlog : net.log = m.log) (id : EntryId) (f : FieldId)
    (i : ℕ) (v : V) (ts : Timestamp) (hw : Wrote net.log id f i v ts) :
    Wrote m.log id f i v ts := hlog ▸ hw

omit h in
/-- The writes after an operation: those before it, and the operation if it is one. -/
theorem wrote_update {m net : DocNet V} {d : DeviceId} {op : DocOp V}
    (hs : m.step (replicated p V) (.update d op) = some net) {id : EntryId} {f : FieldId} {i : ℕ}
    {v : V} {ts : Timestamp} (hw : Wrote net.log id f i v ts) :
    Wrote m.log id f i v ts ∨ op = .setField id f v ts := by
  obtain ⟨s, δ, -, rfl⟩ := Net.step_update hs
  obtain ⟨ev, hev, hop⟩ := hw
  rcases getElem?_snoc_iff.mp hev with hev | ⟨-, rfl⟩
  · exact .inl ⟨ev, hev, hop⟩
  · exact .inr hop

/-- Presence is none of the clock's business. -/
theorem Clocked.presence {d : DeviceId} {op : DocOp V} (hop : ∀ id f v ts, op ≠ .setField id f v ts)
    (hs : n.lift p (.update d op) = some n') : Clocked p n' := by
  refine h.same ?_ (fun net hnet => ⟨fun r id f => ?_, fun id f i v ts hw => ?_⟩) hs
  · cases op with
    | addEntry id => exact trivial
    | removeEntry id => exact trivial
    | setField id f v ts => exact absurd rfl (hop id f v ts)
  · by_cases hr : r = d
    · subst hr
      exact register_of_presence (hop id f) hnet
    · obtain ⟨s, δ, -, rfl⟩ := Net.step_update hnet
      simp only [Function.update_of_ne hr]
  · exact (wrote_update hnet hw).resolve_right (hop id f v ts)

theorem Clocked.clocks_update {d : DeviceId} {c : HlcClock}
    (hsat : (Function.update n.clock d c d).last ≠ .saturated) (r : DeviceId) :
    (Function.update n.clock d c r).last ≠ .saturated := by
  by_cases hr : r = d
  · subst hr
    exact hsat
  · rw [Function.update_of_ne hr]
    exact h.clocks r

/-- A stamp of `tick` is ahead of what the device holds. -/
theorem Clocked.ahead (d : DeviceId) (id : EntryId) (f : FieldId) (v : V) (now : UInt64) :
    Ahead n.net (.update d (.setField id f v (.new ((n.clock d).tick now).2 d))) := by
  refine ⟨rfl, fun id' f' reg hreg => (h.registers d id' f' reg hreg).trans_lt ?_⟩
  exact Hlc.lt_nextLocal_iff.mpr (h.clocks d)

theorem Clocked.write {d : DeviceId} {id : EntryId} {f : FieldId} {v : V} {now : UInt64}
    (hs : n.step p (.write d id f v now) = some n') (hsat : (n'.clock d).last ≠ .saturated) :
    Clocked p n' := by
  obtain ⟨net, hnet, rfl⟩ := step_write hs
  have hahead := h.ahead d id f v now
  have hlast : (Function.update n.clock d ((n.clock d).tick now).1 d).last =
      ((n.clock d).tick now).2 := by
    rw [Function.update_self]
    rfl
  have hruns := h.runs.step hahead hnet
  refine ⟨hruns, fun r id' f' reg hreg => ?_, fun id' f' i v' ts hw => ?_, h.clocks_update hsat⟩
  · obtain ⟨s, δ, hm, rfl⟩ := Net.step_update hnet
    by_cases hr : r = d
    · subst hr
      have hdoc : s = ((n.net.doc r).setField id f v (.new ((n.clock r).tick now).2 r)).1 :=
        (congrArg Prod.fst (Option.some.inj hm)).symm
      simp only [Function.update_self, hdoc] at hreg
      refine le_of_le_of_eq ?_ hlast.symm
      exact hlc_le_setField (fun id f old hold => (hahead.2 id f old hold).le) hreg
    · simp only [Function.update_of_ne hr] at hreg ⊢
      exact h.registers r id' f' reg hreg
  · rcases wrote_update hnet hw with hw | hop
    · exact h.stamps id' f' i v' ts hw
    · obtain ⟨-, -, -, rfl⟩ := DocOp.setField.inj hop
      exact hlast ▸ hsat

theorem Clocked.receive {d : DeviceId} {i : ℕ} {now : UInt64}
    (hs : n.step p (.receive d i now) = some n') (hsat : (n'.clock d).last ≠ .saturated) :
    Clocked p n' := by
  obtain ⟨net, hnet, rfl⟩ := step_receive hs
  have hruns := h.runs.step (a := .deliver d i) trivial hnet
  obtain ⟨m, -, s, -, hm⟩ := Net.step_deliver hnet
  have hlog : net.log = n.net.log := by rw [hm]
  simp only [Function.update_self] at hsat
  refine clocked_advance hruns
    (fun id f i v ts hw => h.stamps id f i v ts (wrote_of_log hlog id f i v ts hw)) h.clocks
    (fun r hr id f reg hreg => ?_) (h.clocks d) hsat
  have hdoc : net.doc r = n.net.doc r := by
    rw [hm]
    exact Function.update_of_ne hr _ _
  exact h.registers r id f reg (hdoc ▸ hreg)

end Step

theorem Clocked.step {a : ClockAction V} (h : Clocked p n) (hs : n.step p a = some n')
    (hsat : ∀ d ∈ a.moves, (n'.clock d).last ≠ .saturated) : Clocked p n' := by
  cases a with
  | addEntry d id => exact h.presence (fun _ _ _ _ => by simp) hs
  | removeEntry d id => exact h.presence (fun _ _ _ _ => by simp) hs
  | write d id f v now => exact h.write hs (hsat d rfl)
  | publish d =>
    refine h.same (a := .publish d) trivial (fun net hnet => ?_) hs
    obtain rfl := Net.step_publish hnet
    exact ⟨fun _ _ _ => rfl, fun _ _ _ _ _ hw => hw⟩
  | combine i j =>
    refine h.same (a := .combine i j) trivial (fun net hnet => ?_) hs
    obtain ⟨a, -, b, -, s, -, rfl⟩ := Net.step_combine hnet
    exact ⟨fun _ _ _ => rfl, fun _ _ _ _ _ hw => hw⟩
  | receive d i now => exact h.receive hs (hsat d rfl)

theorem Runs.clocked (hn : Runs p n) : Clocked p n := by
  refine hn.invariant clocked_init fun n a n' ih hs => ?_
  obtain ⟨hs, hsat⟩ := within_eq_some.mp hs
  exact ih.step hs hsat

/-- **Devices that move their clock past what they merge lose no edit.** A write takes effect at
once, and the edits of the run are kept. -/
theorem clocked_writes (p : Profile) (n : ClockNet V) (hn : Runs p n) :
    (∀ (n' : ClockNet V) (d : DeviceId) (id : EntryId) (f : FieldId) (v : V) (now : UInt64),
      n.step p (.write d id f v now) = some n' →
      (n'.net.doc d).register id f = some ⟨v, .new ((n.clock d).tick now).2 d⟩) ∧
    EditsKept n.net := by
  have h := hn.clocked
  refine ⟨fun n' d id f v now hs => ?_, editsKept_of_ahead h.runs⟩
  obtain ⟨net, hnet, rfl⟩ := step_write hs
  exact (h.ahead d id f v now).register hnet

/-- Device 2, whose physical clock is far behind, overwrites what it received. -/
def lateClock : List (ClockAction ℕ) :=
  [.addEntry (dev 1) (eid 1), .write (dev 1) (eid 1) ⟨0⟩ 7 90, .publish (dev 1),
    .receive (dev 2) 3 4, .write (dev 2) (eid 1) ⟨0⟩ 8 5]

theorem clocked_writes_lateClock : ∃ n : ClockNet ℕ, Runs .dev n ∧
    (n.net.doc (dev 2)).register (eid 1) ⟨0⟩ = some ⟨8, ⟨⟨90, 2⟩, dev 2⟩⟩ ∧ EditsKept n.net := by
  have h : ((init .dev ℕ).exec .dev lateClock).any (fun n =>
      (n.net.doc (dev 2)).register (eid 1) ⟨0⟩ = some ⟨8, ⟨⟨90, 2⟩, dev 2⟩⟩) = true := by decide
  obtain ⟨n, hexec, h⟩ := (Option.any_eq_true _ _).mp h
  have hn : Runs .dev n := Reaches.exec hexec
  exact ⟨n, hn, of_decide_eq_true h, (clocked_writes .dev n hn).2⟩

end ClockNet

end RealmGuard
