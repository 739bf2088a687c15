import RealmGuard.FieldClocks

/-!
# Forged clocks

Decoding checks no timestamp, so a server can hand a device any. `Exposed` is a device that
merges whatever documents it is given, and moves its clock past them. A forged clock does no
harm as long as it is farther from the limit than the device has events; one at the limit spoils
its field for good, and sets the clock back at each reception, so that the device's own writes
are told apart by their values only (`forged_clocks`).
-/

namespace RealmGuard

open Lib

/-! ## How far a clock has come -/

namespace Hlc

/-- The number of clocks below. -/
def rank (h : Hlc) : ℕ := h.wallMs.toNat * 2 ^ 32 + h.counter.toNat

theorem rank_mk (w : UInt64) (k : UInt32) : rank ⟨w, k⟩ = w.toNat * 2 ^ 32 + k.toNat := rfl

theorem rank_lt_rank {a b : Hlc} : a.rank < b.rank ↔ a < b := by
  have ha := a.counter.toNat_lt
  have hb := b.counter.toNat_lt
  rw [lt_iff, UInt64.lt_iff_toNat_lt, UInt32.lt_iff_toNat_lt, ← UInt64.toNat_inj]
  unfold rank
  omega

theorem rank_le_rank {a b : Hlc} : a.rank ≤ b.rank ↔ a ≤ b := by
  rw [← not_lt, rank_lt_rank, not_lt]

theorem le_saturated (h : Hlc) : h ≤ saturated := by
  have hw := h.wallMs.toNat_lt
  have hc := h.counter.toNat_lt
  have hs : saturated.rank = 2 ^ 96 - 1 := by decide
  rw [← rank_le_rank, hs]
  unfold rank
  omega

theorem ne_saturated_of_rank_lt {h : Hlc} (hlt : h.rank < saturated.rank) : h ≠ saturated := by
  rintro rfl
  exact lt_irrefl _ hlt

theorem rank_inc_le (h : Hlc) : h.inc.rank ≤ h.rank + 1 := by
  have hc := h.counter.toNat_lt
  by_cases hc1 : h.counter.toNat + 1 < 2 ^ 32
  · have hadd : (h.counter + 1).toNat = h.counter.toNat + 1 := by
      rw [UInt32.toNat_add]
      exact Nat.mod_eq_of_lt hc1
    rw [inc_of_counter_lt hc1, rank_mk, hadd]
    unfold rank
    omega
  · have hle : (saturatingAdd64 h.wallMs 1).toNat ≤ h.wallMs.toNat + 1 := by
      by_cases hw1 : h.wallMs.toNat + 1 < 2 ^ 64
      · rw [show saturatingAdd64 h.wallMs 1 = h.wallMs + 1 from if_pos hw1, toNat_add_one hw1]
      · rw [show saturatingAdd64 h.wallMs 1 = maxU64 from if_neg hw1, maxU64_toNat]
        omega
    rw [inc_of_counter_max hc1, rank_mk, UInt32.toNat_zero]
    unfold rank
    omega

/-- An event moves a clock by one, or to physical time. -/
theorem rank_nextLocal_le (h : Hlc) (now : UInt64) :
    (h.nextLocal now).rank ≤ max (h.rank + 1) (rank ⟨now, 0⟩) := by
  unfold nextLocal
  split
  · exact le_max_right _ _
  · exact h.rank_inc_le.trans (le_max_left _ _)

/-- No physical time is past a wall at its limit. -/
theorem nextLocal_maxU64 (k : UInt32) (now : UInt64) :
    nextLocal ⟨maxU64, k⟩ now = inc ⟨maxU64, k⟩ := if_neg (not_lt.mpr (le_maxU64 now))

/-- The last clock is followed by an earlier one. -/
theorem nextLocal_saturated (now : UInt64) : saturated.nextLocal now = ⟨maxU64, 0⟩ :=
  (nextLocal_maxU64 maxU32 now).trans (by decide)

end Hlc

/-! ## Registers -/

namespace VaultDoc

variable {V : Type} [LinearOrder V] {id : EntryId} {f : FieldId}

/-- A write stamped past the register there takes effect. -/
theorem register_setField_of_lt {d : VaultDoc V} {v : V} {ts : Timestamp}
    (h : ∀ reg, d.register id f = some reg → reg.ts.hlc < ts.hlc) :
    (d.setField id f v ts).1.register id f = some ⟨v, ts⟩ := by
  have hkey := regKey_setField d id id f f v ts
  rw [if_pos ⟨rfl, rfl⟩] at hkey
  refine regKey_eq_coe.mp (hkey.trans (sup_eq_right.mpr ?_))
  cases hreg : d.register id f with
  | none => exact regKey_eq_bot.mpr hreg ▸ bot_le
  | some reg =>
    rw [regKey_eq_coe.mpr hreg]
    exact WithBot.coe_le_coe.mpr (key_lt_of_hlc_lt (h reg hreg)).le

/-- A register of a merged document is one of the two. -/
theorem register_of_regKey_sup {d o m : VaultDoc V} {reg : LwwRegister V}
    (h : m.regKey id f = d.regKey id f ⊔ o.regKey id f) (hreg : m.register id f = some reg) :
    d.register id f = some reg ∨ o.register id f = some reg := by
  have hkey := (regKey_eq_coe.mpr hreg).symm.trans h
  rcases max_choice (d.regKey id f) (o.regKey id f) with hmax | hmax
  · exact .inl (regKey_eq_coe.mp (hkey.trans hmax).symm)
  · exact .inr (regKey_eq_coe.mp (hkey.trans hmax).symm)

theorem register_congr {d e : VaultDoc V} (h : d.regKey id f = e.regKey id f)
    {reg : LwwRegister V} (hreg : d.register id f = some reg) : e.register id f = some reg :=
  regKey_eq_coe.mp (h ▸ regKey_eq_coe.mpr hreg)

end VaultDoc

/-! ## A device that merges what it is given -/

/-- A device and its clock. -/
structure Exposed (V : Type) [LinearOrder V] where
  clock : HlcClock
  doc : VaultDoc V

/-- `absorb` merges any document at all. -/
inductive ExposedAction (V : Type) [LinearOrder V] where
  | addEntry (id : EntryId)
  | removeEntry (id : EntryId)
  | write (id : EntryId) (field : FieldId) (value : V) (now : UInt64)
  | absorb (other : VaultDoc V) (now : UInt64)

variable {V : Type} [LinearOrder V]

/-- How far the clocks that an action brings have come. -/
def ExposedAction.brings : ExposedAction V → ℕ
  | .write _ _ _ now => Hlc.rank ⟨now, 0⟩
  | .absorb other now => max (Hlc.rank ⟨now, 0⟩) (other.maxHlc.elim 0 Hlc.rank)
  | _ => 0

/-- A reception has set the clock since the last write, if it had before. -/
def ExposedAction.heard (was : Bool) : ExposedAction V → Bool
  | .write .. => false
  | .absorb .. => true
  | _ => was

namespace Exposed

open VaultDoc

def init (V : Type) [LinearOrder V] : Exposed V := ⟨.new, .new⟩

def step (p : Profile) (device : DeviceId) (c : Exposed V) : ExposedAction V → Option (Exposed V)
  | .addEntry id => do
    let (doc, _) ← c.doc.addEntry p id device
    some { c with doc := doc }
  | .removeEntry id => do
    let (doc, _) ← c.doc.removeEntry p id
    some { c with doc := doc }
  | .write id field value now =>
    let stamped := c.clock.tick now
    some ⟨stamped.1, (c.doc.setField id field value (.new stamped.2 device)).1⟩
  | .absorb other now => do
    let doc ← c.doc.merge p other
    some ⟨c.clock.advance now doc, doc⟩

def exec (p : Profile) (device : DeviceId) (c : Exposed V) (as : List (ExposedAction V)) :
    Option (Exposed V) := as.foldlM (step p device) c

variable {p : Profile} {device : DeviceId} {c c' : Exposed V} {id : EntryId} {f : FieldId}

/-- What a step makes of the registers and the clock. -/
theorem step_regKey {a : ExposedAction V} (hs : c.step p device a = some c') :
    ((∃ id, a = .addEntry id ∨ a = .removeEntry id) ∧ c'.clock = c.clock ∧
      ∀ id f, c'.doc.regKey id f = c.doc.regKey id f) ∨
    (∃ id f v now, a = .write id f v now ∧ c'.clock.last = c.clock.last.nextLocal now ∧
      c'.doc = (c.doc.setField id f v (.new c'.clock.last device)).1) ∨
    ∃ o now, a = .absorb o now ∧ c'.clock = c.clock.advance now c'.doc ∧
      ∀ id f, c'.doc.regKey id f = c.doc.regKey id f ⊔ o.regKey id f := by
  cases a with
  | addEntry id =>
    obtain ⟨⟨doc, δ⟩, hadd, hs⟩ := Option.bind_eq_some_iff.mp hs
    obtain rfl := Option.some.inj hs
    exact .inl ⟨⟨id, .inl rfl⟩, rfl, regKey_congr (addEntry_eq_some.mp hadd).2.1⟩
  | removeEntry id =>
    obtain ⟨⟨doc, δ⟩, hrem, hs⟩ := Option.bind_eq_some_iff.mp hs
    obtain rfl := Option.some.inj hs
    exact .inl ⟨⟨id, .inr rfl⟩, rfl, regKey_congr (removeEntry_eq_some.mp hrem).2.1⟩
  | write id f v now =>
    obtain rfl := Option.some.inj hs
    exact .inr (.inl ⟨id, f, v, now, rfl, rfl, rfl⟩)
  | absorb o now =>
    obtain ⟨doc, hm, hs⟩ := Option.bind_eq_some_iff.mp hs
    obtain rfl := Option.some.inj hs
    exact .inr (.inr ⟨o, now, rfl, rfl, regKey_merge hm⟩)

/-! ## Clocks far from the limit -/

/-- The clock is at or past every register, and has come no farther than `bound`. -/
structure Within (bound : ℕ) (c : Exposed V) : Prop where
  registers : ∀ id f reg, c.doc.register id f = some reg → reg.ts.hlc ≤ c.clock.last
  rank : c.clock.last.rank ≤ bound

theorem within_init : Within 0 (init V) where
  registers _ _ _ h := by cases h
  rank := by
    show Hlc.rank ⟨0, 0⟩ ≤ 0
    decide

theorem Within.mono {b b' : ℕ} (h : Within b c) (hb : b ≤ b') : Within b' c :=
  ⟨h.registers, h.rank.trans hb⟩

theorem Within.lt_nextLocal {b : ℕ} (h : Within b c) (hb : b < Hlc.saturated.rank)
    (now : UInt64) (reg : LwwRegister V) (hreg : c.doc.register id f = some reg) :
    reg.ts.hlc < c.clock.last.nextLocal now :=
  (h.registers id f reg hreg).trans_lt
    (Hlc.lt_nextLocal_iff.mpr (Hlc.ne_saturated_of_rank_lt (h.rank.trans_lt hb)))

/-- A write takes effect, stamped past every register. -/
theorem Within.write {b : ℕ} (h : Within b c) (hb : b < Hlc.saturated.rank) {v : V} {now : UInt64}
    (hs : c.step p device (.write id f v now) = some c') :
    c'.doc.register id f = some ⟨v, .new c'.clock.last device⟩ ∧
      ∀ id' f' reg, c.doc.register id' f' = some reg → reg.ts.hlc < c'.clock.last := by
  obtain rfl := Option.some.inj hs
  exact ⟨register_setField_of_lt fun reg hreg => h.lt_nextLocal hb now reg hreg,
    fun _ _ reg hreg => h.lt_nextLocal hb now reg hreg⟩

/-- **A step comes one event nearer to the limit**, as long as what it brings is within the
bound. -/
theorem Within.step {b : ℕ} (h : Within b c) (hb : b < Hlc.saturated.rank) {a : ExposedAction V}
    (ha : a.brings ≤ b) (hs : c.step p device a = some c') : Within (b + 1) c' := by
  rcases step_regKey hs with ⟨-, hclock, hkey⟩ | ⟨id, f, v, now, rfl, hlast, hdoc⟩ |
    ⟨o, now, rfl, hclock, hkey⟩
  · refine ⟨fun id f reg hreg => ?_, ?_⟩
    · rw [hclock]
      exact h.registers id f reg (register_congr (hkey id f) hreg)
    · rw [hclock]
      exact h.rank.trans b.le_succ
  · refine ⟨fun id' f' reg hreg => ?_, ?_⟩
    · rw [hdoc] at hreg
      refine hlc_le_setField (fun id f old hold => ?_) hreg
      show old.ts.hlc ≤ c'.clock.last
      rw [hlast]
      exact (h.lt_nextLocal hb now old hold).le
    · rw [hlast]
      exact (Hlc.rank_nextLocal_le _ now).trans
        (max_le (Nat.succ_le_succ h.rank) (ha.trans b.le_succ))
  · -- the clocks of both documents are within the bound
    have hrank : ∀ id f reg, c'.doc.register id f = some reg → reg.ts.hlc.rank ≤ b := by
      intro id f reg hreg
      rcases register_of_regKey_sup (hkey id f) hreg with hreg | hreg
      · exact (Hlc.rank_le_rank.mpr (h.registers id f reg hreg)).trans h.rank
      · obtain ⟨k, hk, hle⟩ := exists_le_maxHlc hreg
        have hbring : max (Hlc.rank ⟨now, 0⟩) (o.maxHlc.elim 0 Hlc.rank) ≤ b := ha
        rw [hk] at hbring
        exact (Hlc.rank_le_rank.mpr hle).trans ((le_max_right _ _).trans hbring)
    cases hmax : c'.doc.maxHlc with
    | none =>
      refine ⟨fun id f reg hreg => ?_, ?_⟩
      · obtain ⟨k, hk, -⟩ := exists_le_maxHlc hreg
        rw [hmax] at hk
        cases hk
      · rw [hclock, c.clock.advance_none now hmax]
        exact h.rank.trans b.le_succ
    | some k =>
      obtain ⟨id₀, f₀, reg₀, hreg₀, rfl⟩ := maxHlc_mem hmax
      have hle : (max c.clock.last reg₀.ts.hlc).rank ≤ b := by
        rcases max_choice c.clock.last reg₀.ts.hlc with hm | hm
        · rw [hm]
          exact h.rank
        · rw [hm]
          exact hrank id₀ f₀ reg₀ hreg₀
      have hlast : c'.clock.last = (max c.clock.last reg₀.ts.hlc).nextLocal now := by
        rw [hclock, c.clock.last_advance now hmax]
      refine ⟨fun id f reg hreg => ?_, ?_⟩
      · rw [hlast]
        obtain ⟨k, hk, hregk⟩ := exists_le_maxHlc hreg
        obtain rfl := Option.some.inj (hmax.symm.trans hk)
        exact ((hregk.trans (le_max_right _ _)).trans_lt (Hlc.lt_nextLocal_iff.mpr
          (Hlc.ne_saturated_of_rank_lt (hle.trans_lt hb)))).le
      · rw [hlast]
        exact (Hlc.rank_nextLocal_le _ now).trans
          (max_le (Nat.succ_le_succ hle) ((le_max_left _ _).trans (ha.trans b.le_succ)))

theorem Within.exec {as : List (ExposedAction V)} {b : ℕ} (h : Within b c)
    (ha : ∀ a ∈ as, a.brings ≤ b) (hb : b + as.length ≤ Hlc.saturated.rank)
    (hexec : c.exec p device as = some c') : Within (b + as.length) c' := by
  -- the bound that the steps to come will have moved up by their number
  have hrun := foldlM_keeps (P := fun rest c => ∃ k, k + rest.length = b + as.length ∧ Within k c ∧
    ∀ a ∈ rest, a.brings ≤ k) ?_ ⟨b, rfl, h, ha⟩ hexec
  · obtain ⟨k, hk, hc', -⟩ := hrun
    exact hc'.mono hk.le
  · rintro c a rest c' ⟨k, hk, hc, hrest⟩ hs
    rw [List.length_cons] at hk
    refine ⟨k + 1, by omega, hc.step (by omega) (hrest a List.mem_cons_self) hs, ?_⟩
    exact fun a' ha' => (hrest a' (List.mem_cons_of_mem _ ha')).trans k.le_succ

/-! ## A clock at the limit -/

/-- The field holds a write stamped by the last clock. -/
def Spoiled (c : Exposed V) (id : EntryId) (f : FieldId) : Prop :=
  ∃ reg, c.doc.register id f = some reg ∧ reg.ts.hlc = .saturated

/-- Registers only move up. -/
theorem regKey_le_step {a : ExposedAction V} (hs : c.step p device a = some c') (id : EntryId)
    (f : FieldId) : c.doc.regKey id f ≤ c'.doc.regKey id f := by
  rcases step_regKey hs with ⟨-, -, hkey⟩ | ⟨id', f', v, now, rfl, -, hdoc⟩ |
    ⟨o, now, rfl, -, hkey⟩
  · exact (hkey id f).ge
  · rw [hdoc, regKey_setField]
    split
    · next heq =>
      obtain ⟨rfl, rfl⟩ := heq
      exact le_sup_left
    · exact le_rfl
  · rw [hkey id f]
    exact le_sup_left

theorem Spoiled.step {a : ExposedAction V} (h : c.Spoiled id f)
    (hs : c.step p device a = some c') : c'.Spoiled id f := by
  obtain ⟨reg, hreg, hsat⟩ := h
  have hle := regKey_le_step hs id f
  rw [regKey_eq_coe.mpr hreg] at hle
  cases hreg' : c'.doc.register id f with
  | none =>
    rw [regKey_eq_bot.mpr hreg'] at hle
    exact absurd (le_bot_iff.mp hle) (WithBot.coe_ne_bot)
  | some reg' =>
    rw [regKey_eq_coe.mpr hreg'] at hle
    have hlc := hlc_le_of_key_le (WithBot.coe_le_coe.mp hle)
    exact ⟨reg', hreg', le_antisymm (Hlc.le_saturated _) (hsat ▸ hlc)⟩

theorem Spoiled.exec {as : List (ExposedAction V)} (h : c.Spoiled id f)
    (hexec : c.exec p device as = some c') : c'.Spoiled id f :=
  (Reaches.exec hexec).invariant (P := fun c => c.Spoiled id f) h fun _ _ _ ih hs => ih.step hs

/-- If there was a reception since the last write, then with a field spoiled the clock is where
receptions set it. -/
def SetBack (c : Exposed V) (was : Bool) : Prop :=
  was = true → ∀ id f, c.Spoiled id f → c.clock.last = ⟨maxU64, 0⟩

theorem setBack_false (c : Exposed V) : c.SetBack false := fun hwas => by cases hwas

theorem SetBack.step {was : Bool} (h : c.SetBack was) {a : ExposedAction V}
    (hs : c.step p device a = some c') : c'.SetBack (a.heard was) := by
  rintro hwas id f ⟨reg, hreg, hsat⟩
  rcases step_regKey hs with ⟨⟨id', rfl | rfl⟩, hclock, hkey⟩ | ⟨id', f', v, now, rfl, -⟩ |
    ⟨o, now, rfl, hclock, -⟩
  · exact hclock ▸ h hwas id f ⟨reg, register_congr (hkey id f) hreg, hsat⟩
  · exact hclock ▸ h hwas id f ⟨reg, register_congr (hkey id f) hreg, hsat⟩
  · cases hwas
  · -- the clock moves past the last one
    obtain ⟨k, hk, hle⟩ := exists_le_maxHlc hreg
    have hkeq : k = .saturated := le_antisymm k.le_saturated (hsat ▸ hle)
    rw [hclock, c.clock.last_advance now hk, hkeq, max_eq_right (Hlc.le_saturated _),
      Hlc.nextLocal_saturated]

theorem SetBack.exec {as : List (ExposedAction V)} {was : Bool} (h : c.SetBack was)
    (hexec : c.exec p device as = some c') : c'.SetBack (as.foldl ExposedAction.heard was) := by
  have hrun := foldlM_keeps (P := fun rest c =>
    ∃ w, rest.foldl ExposedAction.heard w = as.foldl ExposedAction.heard was ∧ c.SetBack w)
    ?_ ⟨was, rfl, h⟩ hexec
  · obtain ⟨w, hw, hc'⟩ := hrun
    exact hw ▸ hc'
  · rintro c a rest c' ⟨w, hw, hc⟩ hs
    exact ⟨a.heard w, hw, hc.step hs⟩

/-- The stamp of a write to a clock that was set back. -/
theorem SetBack.last_write (h : c.SetBack true) (hspoiled : c.Spoiled id f) {id' : EntryId}
    {f' : FieldId} {v : V} {now : UInt64} (hs : c.step p device (.write id' f' v now) = some c') :
    c'.clock.last = ⟨maxU64, 1⟩ := by
  obtain rfl := Option.some.inj hs
  show c.clock.last.nextLocal now = _
  rw [h rfl id f hspoiled, Hlc.nextLocal_maxU64]
  decide

/-- Each write is the first since a reception. -/
def FirstWrites : Bool → List (ExposedAction V) → Prop
  | _, [] => True
  | was, a :: as => (∀ id f v now, a = .write id f v now → was = true) ∧
    FirstWrites (a.heard was) as

/-- The value that an action brings for a field, and its timestamp: for a write, the one of every
first write since a reception. -/
def keyOf (device : DeviceId) (id : EntryId) (f : FieldId) :
    ExposedAction V → WithBot (Timestamp ×ₗ V)
  | .write id' f' v _ =>
    if id = id' ∧ f = f' then (toLex (.new ⟨maxU64, 1⟩ device, v) : Timestamp ×ₗ V) else ⊥
  | .absorb o _ => o.regKey id f
  | _ => ⊥

theorem SetBack.regKey_step {was : Bool} (h : c.SetBack was) (hspoiled : c.Spoiled id f)
    {a : ExposedAction V} (ha : ∀ id f v now, a = .write id f v now → was = true)
    (hs : c.step p device a = some c') (id' : EntryId) (f' : FieldId) :
    c'.doc.regKey id' f' = c.doc.regKey id' f' ⊔ keyOf device id' f' a := by
  rcases step_regKey hs with ⟨⟨id, rfl | rfl⟩, -, hkey⟩ | ⟨id₀, f₀, v, now, rfl, -, hdoc⟩ |
    ⟨o, now, rfl, -, hkey⟩
  · exact (hkey id' f').trans (sup_bot_eq _).symm
  · exact (hkey id' f').trans (sup_bot_eq _).symm
  · obtain rfl := ha _ _ _ _ rfl
    rw [hdoc, regKey_setField, h.last_write hspoiled hs, keyOf]
    split
    · next heq =>
      obtain ⟨rfl, rfl⟩ := heq
      rfl
    · exact (sup_bot_eq _).symm
  · exact hkey id' f'

theorem SetBack.regKey_exec {as : List (ExposedAction V)} {was : Bool} (h : c.SetBack was)
    (hspoiled : c.Spoiled id f) (hfirst : FirstWrites was as)
    (hexec : c.exec p device as = some c') (id' : EntryId) (f' : FieldId) :
    c'.doc.regKey id' f' =
      as.foldl (fun key a => key ⊔ keyOf device id' f' a) (c.doc.regKey id' f') := by
  let reached (rest : List (ExposedAction V)) (c : Exposed V) : WithBot (Timestamp ×ₗ V) :=
    rest.foldl (fun key a => key ⊔ keyOf device id' f' a) (c.doc.regKey id' f')
  have hrun := foldlM_keeps (P := fun rest c₁ => reached rest c₁ = reached as c ∧
    c₁.Spoiled id f ∧ ∃ w, c₁.SetBack w ∧ FirstWrites w rest) ?_ ⟨rfl, hspoiled, was, h, hfirst⟩
    hexec
  · exact hrun.1
  · rintro c₁ a rest c₂ ⟨hreached, hspoiled, w, hback, hfirst, hrest⟩ hs
    refine ⟨?_, hspoiled.step hs, a.heard w, hback.step hs, hrest⟩
    rw [← hreached]
    simp only [reached, List.foldl_cons, hback.regKey_step hspoiled hfirst hs]

/-- What becomes of a device that has a spoiled field, where `was` says if there was a reception
since its last write: it keeps the field, each write that is the first since a reception has the
same stamp, and where there are no others the register of a field is the greatest that it was,
was absorbed or was written under this stamp. -/
structure Stuck (p : Profile) (device : DeviceId) (was : Bool) (c : Exposed V) (id : EntryId)
    (f : FieldId) : Prop where
  spoiled : ∀ as c', c.exec p device as = some c' → c'.Spoiled id f
  stamp : ∀ as c', c.exec p device as = some c' → as.foldl ExposedAction.heard was = true →
    ∀ id' f' v now c'', c'.step p device (.write id' f' v now) = some c'' →
      c''.clock.last = ⟨maxU64, 1⟩
  register : ∀ as c', FirstWrites was as → c.exec p device as = some c' → ∀ id' f',
    c'.doc.regKey id' f' =
      as.foldl (fun key a => key ⊔ keyOf device id' f' a) (c.doc.regKey id' f')

theorem SetBack.stuck {was : Bool} (h : c.SetBack was) (hspoiled : c.Spoiled id f) :
    Stuck p device was c id f := by
  refine ⟨fun as c' => hspoiled.exec, fun as c' hexec hheard id' f' v now c'' hs => ?_,
    fun as c' hfirst hexec => h.regKey_exec hspoiled hfirst hexec⟩
  have hset := h.exec hexec
  rw [hheard] at hset
  exact hset.last_write (hspoiled.exec hexec) hs

/-- **What forged clocks can do.** As long as those accepted, and physical times, are farther from
the limit than there are events, every write takes effect, stamped past all that the device has.
Once a field holds a write stamped by the last clock, the device is stuck with it. -/
theorem forged_clocks (p : Profile) (device : DeviceId) (as : List (ExposedAction V))
    (c : Exposed V) (hexec : (init V).exec p device as = some c) :
    ((∀ a ∈ as, a.brings + as.length < Hlc.saturated.rank) →
      ∀ id f v now c', c.step p device (.write id f v now) = some c' →
        c'.doc.register id f = some ⟨v, .new c'.clock.last device⟩ ∧
          ∀ id' f' reg, c.doc.register id' f' = some reg → reg.ts.hlc < c'.clock.last) ∧
    ∀ id f, c.Spoiled id f → Stuck p device (as.foldl ExposedAction.heard false) c id f := by
  refine ⟨fun hbrings id f v now c' hs => ?_,
    fun id f hspoiled => ((setBack_false _).exec hexec).stuck hspoiled⟩
  have hpos : 0 < Hlc.saturated.rank := by decide
  have hbound : Hlc.saturated.rank - 1 - as.length + as.length < Hlc.saturated.rank := by
    cases as with
    | nil =>
      rw [List.length_nil]
      omega
    | cons a as =>
      have := hbrings a List.mem_cons_self
      omega
  have h : Within _ c := (within_init.mono (Nat.zero_le _)).exec
    (fun a ha => Nat.le_sub_of_add_le (Nat.le_sub_one_of_lt (hbrings a ha))) hbound.le hexec
  exact h.write hbound hs

/-- A document with one write, by a device nobody knows. -/
def forged (k : Hlc) : VaultDoc ℕ := ((.new : VaultDoc ℕ).setField (eid 1) ⟨0⟩ 5 ⟨k, dev 9⟩).1

/-- Two writes of a field, each the first since a reception. -/
def setBackTwice : List (ExposedAction ℕ) :=
  [.write (eid 1) ⟨1⟩ 8 6, .absorb .new 7, .addEntry (eid 1), .write (eid 1) ⟨1⟩ 3 9]

/-- A clock of the far future is overtaken; after the last one, a field that a device has written
twice keeps the greater value. -/
theorem forged_clocks_overtaken : ∃ c c' d d' : Exposed ℕ,
    (init ℕ).exec .dev (dev 1) [.absorb (forged ⟨9000000000000000000, 0⟩) 4] = some c ∧
    c.step .dev (dev 1) (.write (eid 1) ⟨0⟩ 7 6) = some c' ∧
    c'.doc.register (eid 1) ⟨0⟩ = some ⟨7, .new c'.clock.last (dev 1)⟩ ∧
    (init ℕ).exec .dev (dev 1) [.absorb (forged .saturated) 4] = some d ∧
    Stuck .dev (dev 1) true d (eid 1) ⟨0⟩ ∧
    d.exec .dev (dev 1) setBackTwice = some d' ∧ FirstWrites true setBackTwice ∧
    d'.doc.register (eid 1) ⟨1⟩ = some ⟨8, ⟨⟨maxU64, 1⟩, dev 1⟩⟩ := by
  have h : ((init ℕ).exec .dev (dev 1) [.absorb (forged ⟨9000000000000000000, 0⟩) 4]).any (fun c =>
      (c.step .dev (dev 1) (.write (eid 1) ⟨0⟩ 7 6)).isSome) = true := by decide
  have h' : ((init ℕ).exec .dev (dev 1) [.absorb (forged .saturated) 4]).any (fun d =>
      d.doc.register (eid 1) ⟨0⟩ = some ⟨5, ⟨.saturated, dev 9⟩⟩ ∧
        (d.exec .dev (dev 1) setBackTwice).any fun d' =>
          d'.doc.register (eid 1) ⟨1⟩ = some ⟨8, ⟨⟨maxU64, 1⟩, dev 1⟩⟩) = true := by decide
  obtain ⟨c, hc, h⟩ := (Option.any_eq_true _ _).mp h
  obtain ⟨c', hc'⟩ := Option.isSome_iff_exists.mp h
  obtain ⟨d, hd, h'⟩ := (Option.any_eq_true _ _).mp h'
  obtain ⟨hforged, h'⟩ := of_decide_eq_true h'
  obtain ⟨d', hd', h'⟩ := (Option.any_eq_true _ _).mp h'
  have hwrite := (forged_clocks .dev (dev 1) _ c hc).1 (by decide +kernel) _ _ _ _ _ hc'
  have hstuck := (forged_clocks .dev (dev 1) _ d hd).2 (eid 1) ⟨0⟩ ⟨_, hforged, rfl⟩
  have hfirst : FirstWrites true setBackTwice := by
    simp [FirstWrites, setBackTwice, ExposedAction.heard]
  exact ⟨c, c', d, d', hc, hc', hwrite.1, hd, hstuck, hd', hfirst, of_decide_eq_true h'⟩

end Exposed

end RealmGuard
