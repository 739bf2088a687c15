import RealmGuard.DeltaMutators
import RealmGuard.FieldRuns
import RealmGuard.Lib.Later

/-!
# Nothing goes back

Documents of a run are ordered as their histories are. A replica, or a snapshot, that
accounts for the operations another document accounts for has observed its dots, does not
revive a dot dead there, holds no register older than its own, and does not change when it
merges it (`nothing_goes_back`). So a late, repeated or outdated message is harmless.
-/

namespace RealmGuard.VaultDoc

open Lib DotContext AddWinsSet

variable {V : Type} [LinearOrder V] {p : Profile} {n n' : DocNet V}
  {ok : DocNet V → Action DeviceId (DocOp V) → Prop} {t t' : VaultDoc V} {h h' : Finset ℕ}

/-- What `t'` keeps of `t`: its dots, its removals, its registers and its clock; `t` has nothing
to add to it. -/
structure Keeps (p : Profile) (t t' : VaultDoc V) : Prop where
  seen : ∀ x, t.entries.ctx.contains x = true → t'.entries.ctx.contains x = true
  dead : ∀ id x, t.entries.ctx.contains x = true → x ∉ t.entries.dots id →
    x ∉ t'.entries.dots id
  register : ∀ id f reg, t.register id f = some reg →
    ∃ reg', t'.register id f = some reg' ∧ reg.key ≤ reg'.key
  clock : ∀ k, t.maxHlc = some k → ∃ k', t'.maxHlc = some k' ∧ k ≤ k'
  absorbed : t'.merge p t = some t'

theorem abs_le_of_subset (hn : Runs (replicated p V) ok n) (hlater : Later (replicated p V) ok n n')
    (hw : (presence p V).NoWrap n.log) (hw' : (presence p V).NoWrap n'.log) (ht : n.Holds t h)
    (ht' : n'.Holds t' h') (hh : h ⊆ h') : t.abs ≤ t'.abs := by
  rw [abs_eq_join hn hw t h ht, abs_eq_join (hlater.runs hn) hw' t' h' ht']
  exact hlater.join_le abs (hn.hist_lt ht) hh

section Le

variable (hle : t.abs ≤ t'.abs)
include hle

theorem register_le (id : EntryId) (f : FieldId) : t.regKey id f ≤ t'.regKey id f := by
  have hid : allKeys t.fields id ≤ allKeys t'.fields id := hle.2 id
  rw [regKey_eq, regKey_eq]
  unfold allKeys at hid
  cases ht : t.fields.get? id with
  | none => exact bot_le
  | some fs =>
    cases ht' : t'.fields.get? id with
    | none =>
      rw [ht, ht'] at hid
      exact absurd (le_bot_iff.mp hid) WithBot.coe_ne_bot
    | some fs' =>
      rw [ht, ht'] at hid
      exact WithBot.coe_le_coe.mp hid f

theorem exists_register_le {id : EntryId} {f : FieldId} {reg : LwwRegister V}
    (hreg : t.register id f = some reg) :
    ∃ reg', t'.register id f = some reg' ∧ reg.key ≤ reg'.key := by
  have hkey := register_le hle id f
  rw [regKey_eq_coe.mpr hreg] at hkey
  cases hreg' : t'.register id f with
  | none =>
    rw [regKey_eq_bot.mpr hreg'] at hkey
    exact absurd (le_bot_iff.mp hkey) WithBot.coe_ne_bot
  | some reg' =>
    rw [regKey_eq_coe.mpr hreg'] at hkey
    exact ⟨reg', rfl, WithBot.coe_le_coe.mp hkey⟩

/-- A document above another keeps what that one has. -/
theorem keeps_of_le (ht : t.WellFormed) (ht' : t'.WellFormed)
    (hfull : p = .dev → ∀ d, ¬ Full t.observed d ∧ ¬ Full t'.observed d) : Keeps p t t' where
  seen x hx := by
    refine ht.canonical.contains_mono ht'.canonical (fun k hk => ?_) hx
    have hseen : t.abs.1.seen ∪ t'.abs.1.seen = t'.abs.1.seen :=
      congrArg DotKernel.seen (sup_eq_right.mpr hle.1)
    show _ ∈ t'.abs.1.seen
    rw [← hseen]
    exact .inl hk
  dead id x hx hdead hlive := by
    have hpos := ht'.pos id x hlive
    have hobs : x ∈ t.entries.ctx.observed := mem_observed_of_contains hpos hx
    have hsup : t.entries.kernel ⊔ t'.entries.kernel = t'.entries.kernel := sup_eq_right.mpr hle.1
    have hmem : x ∈ (t.entries.kernel ⊔ t'.entries.kernel).live id := by
      rw [hsup]
      exact ⟨hpos, hlive⟩
    rcases ((DotKernel.sup_live _ _ id x).mp hmem).2.1 with h | h
    · exact hdead h.2
    · exact h hobs
  register id f reg hreg := exists_register_le hle hreg
  clock k hk := by
    obtain ⟨id, f, reg, hreg, rfl⟩ := maxHlc_mem hk
    obtain ⟨reg', hreg', hkey⟩ := exists_register_le hle hreg
    obtain ⟨k', hk', hle'⟩ := exists_le_maxHlc hreg'
    exact ⟨k', hk', (hlc_le_of_key_le hkey).trans hle'⟩
  absorbed := by
    have hself : t'.merge p t' = some t' := ht'.merge_self
    refine Eq.trans ?_ hself
    refine ht'.merge_congr ht ht' ht' ?_ fun hp => ?_
    · rw [sup_idem, sup_eq_left.mpr hle]
    · have hf := hfull hp
      simpa using ⟨fun d => (hf d).2, fun d => (hf d).1, fun d => (hf d).2⟩

end Le

/-- **Nothing goes back.** A document that accounts for the operations of another, of the same
system or an earlier one, keeps what that one has. -/
theorem nothing_goes_back (p : Profile) (n n' : DocNet V) (hn : Runs (replicated p V) Free n)
    (hlater : Later (replicated p V) Free n n')
    (hadds : p = .dev ∨ ∀ d, (presence p V).adds n'.log d < 2 ^ 64) (t t' : VaultDoc V)
    (h h' : Finset ℕ) (ht : n.Holds t h) (ht' : n'.Holds t' h') (hh : h ⊆ h') :
    Keeps p t t' := by
  have hn' := hlater.runs hn
  have hw : (presence p V).NoWrap n.log :=
    hadds.imp_right fun hlt d => (hlater.log_prefix.countP_le).trans_lt (hlt d)
  refine keeps_of_le (abs_le_of_subset hn hlater hw hadds ht ht' hh) (wellFormed_of_holds hn hw ht)
    (wellFormed_of_holds hn' hadds ht') fun hp d => ?_
  exact ⟨not_full_of_holds hn hw ht hp d, not_full_of_holds hn' hadds ht' hp d⟩

/-- Device 2 hears of an entry, removes it, and is sent the delta and a snapshot of device 1
again. -/
def stale : List (Action DeviceId (DocOp ℕ)) :=
  [.update (dev 1) (.addEntry (eid 1)),
    .update (dev 1) (.setField (eid 1) ⟨0⟩ 5 ⟨⟨1, 0⟩, dev 1⟩), .publish (dev 1),
    .deliver (dev 2) 3]

theorem nothing_goes_back_stale : ∃ n n' : DocNet ℕ, Runs (replicated .dev ℕ) Free n ∧
    (n'.doc (dev 2)).containsEntry (eid 1) = false ∧
    (n.doc (dev 1)).containsEntry (eid 1) = true ∧
    Keeps .dev (n.doc (dev 1)) (n'.doc (dev 2)) := by
  have h : ((Net.init (replicated .dev ℕ)).exec (replicated .dev ℕ) Free stale).any
      (fun n => (n.exec (replicated .dev ℕ) Free
          [.update (dev 2) (.removeEntry (eid 1)), .deliver (dev 2) 1, .deliver (dev 2) 3]).any
        fun n' => (n'.doc (dev 2)).containsEntry (eid 1) = false ∧
          (n.doc (dev 1)).containsEntry (eid 1) = true ∧
          n.hist (dev 1) ⊆ n'.hist (dev 2)) = true := by decide
  obtain ⟨n, hexec, h⟩ := (Option.any_eq_true _ _).mp h
  obtain ⟨n', hexec', h⟩ := (Option.any_eq_true _ _).mp h
  obtain ⟨hout, hin, hh⟩ := of_decide_eq_true h
  have hn := Runs.init.exec hexec
  have hlater := Later.exec hexec'
  exact ⟨n, n', hn, hout, hin, nothing_goes_back .dev n n' hn hlater (.inl rfl) _ _ _ _
    (.replica (dev 1)) (.replica (dev 2)) hh⟩

end RealmGuard.VaultDoc
