import RealmGuard.Lib.ByteReplication
import RealmGuard.MessageSizes

/-!
# Synchronising over bytes

The system as deployed: devices ship encoded documents to a log and read them back, a
transfer may break off after any byte, and a device may save its document and load it again.
Every such run mirrors one of replicas that exchange documents (`bytes_mirror`), so what
holds of those holds of the bytes. And nothing gets stuck: whatever happened before, a device
that reads the whole log, in any order and through any broken transfers, succeeds, and any two
that do hold equal documents (`caught_up`).
-/

namespace RealmGuard.VaultDoc

open Lib Lib.Postcard

variable {V : Type} [LinearOrder V] [Wire V] [Measured V]

/-- The most bytes a vector can hold (`isize::MAX`); one more is a panic. -/
def isizeMax : ℕ := 2 ^ 63 - 1

/-- Documents by `codec::encode` and `codec::decode`. -/
def byteCodec (V : Type) [LinearOrder V] [Wire V] [Measured V] : ByteCodec (VaultDoc V) where
  encode d :=
    match Codec.encode d with
    | .ok bytes => if bytes.length ≤ isizeMax then some bytes else none
    | .error _ => none
  decode bytes := (Codec.decode bytes).toOption
  decode_encode d bytes h := by
    obtain ⟨hlen, hbytes⟩ := Option.ite_none_right_eq_some.mp h
    obtain rfl := Option.some.inj hbytes
    have hfits : Fits d := Measured.fits d (hlen.trans_lt (by decide))
    rw [Codec.decode_encoding hfits]
    rfl
  decode_take d bytes k h hk := by
    obtain ⟨hlen, hbytes⟩ := Option.ite_none_right_eq_some.mp h
    obtain rfl := Option.some.inj hbytes
    have hfits : Fits d := Measured.fits d (hlen.trans_lt (by decide))
    rw [Codec.decode_take hfits hk]
    rfl

abbrev DocByteNet (V : Type) [LinearOrder V] : Type := ByteNet DeviceId (DocOp V) (VaultDoc V)

/-- The number of adds `d` performed. -/
def addsPerformed (ops : List (DeviceId × DocOp V)) (d : DeviceId) : ℕ :=
  ops.countP fun q => q.1 = d ∧ ((presence .dev V).kind q.2).any SetOp.isAdd = true

theorem encode_init (p : Profile) :
    (byteCodec V).encode (replicated p V).init = some [0, 0, 0, 0] := rfl

theorem adds_eq_of_mirrors {p : Profile} {n : DocNet V} {c : DocByteNet V}
    (h : Mirrors (byteCodec V) n c) (d : DeviceId) :
    (presence p V).adds n.log d = addsPerformed c.ops d := by
  rw [addsPerformed, ← h.ops, List.countP_map]
  rfl

/-- **Every run over bytes mirrors a run over documents**: the same operations and documents,
and a log of their encodings. -/
theorem bytes_mirror (p : Profile) (c : DocByteNet Ciphertext)
    (hc : ByteNet.Runs (replicated p Ciphertext) (byteCodec Ciphertext) c) :
    ∃ n, Runs (replicated p Ciphertext) Free n ∧ Mirrors (byteCodec Ciphertext) n c :=
  hc.mirrored (encode_init p)

/-- Devices agree that have read messages which account for all operations. -/
theorem agree_of_covers {p : Profile} {n : DocNet Ciphertext} {c : DocByteNet Ciphertext}
    (hn : Runs (replicated p Ciphertext) Free n) (h : Mirrors (byteCodec Ciphertext) n c)
    (hadds : p = .dev ∨ ∀ d, addsPerformed c.ops d < 2 ^ 64) {kept kept' : Finset ℕ}
    (hkept : CoversLog kept n) (hkept' : CoversLog kept' n) (d d' : DeviceId) {l l' : List (ℕ × ℕ)}
    (hl : ExhaustsOn kept c l) (hl' : ExhaustsOn kept' c l') :
    ∃ c', c.exec (replicated p Ciphertext) (byteCodec Ciphertext)
        (l.map (fun q => .receive d q.1 q.2) ++ l'.map fun q => .receive d' q.1 q.2) = some c' ∧
      c'.pool = c.pool ∧ c'.doc d = c'.doc d' := by
  have hw : (presence p Ciphertext).NoWrap n.log :=
    hadds.imp_right fun hlt d => (adds_eq_of_mirrors h d).trans_lt (hlt d)
  have hmerge : ∀ {n' : DocNet Ciphertext} {a b : VaultDoc Ciphertext} {i j : Finset ℕ},
      Runs (replicated p Ciphertext) Free n' → n'.log = n.log → n'.Holds a i → n'.Holds b j →
      ∃ s, (replicated p Ciphertext).merge a b = some s :=
    fun hn' hlog ha hb => merge_isSome_of_holds hn' (hlog ▸ hw) ha hb
  obtain ⟨n₁, c₁, hexec₁, h₁⟩ := h.receive_all d hmerge hn rfl hl.1
  have hpool₁ : c₁.pool = c.pool := h₁.pool_eq h
  have hl₁ : ExhaustsOn kept' c₁ l' := by
    unfold ExhaustsOn
    rwa [hpool₁]
  have hkept₁ : CoversLog kept' n₁ := by
    unfold CoversLog
    rwa [h₁.log, h₁.pool]
  obtain ⟨n₂, c₂, hexec₂, h₂⟩ := h₁.mirrors.receive_all d' hmerge h₁.runs h₁.log hl₁.1
  refine ⟨c₂, ?_, (h₂.pool_eq h₁.mirrors).trans hpool₁, ?_⟩
  · rw [ByteNet.exec, List.foldlM_append]
    exact Option.bind_eq_some_iff.mpr ⟨c₁, hexec₁, hexec₂⟩
  · have hhist' : n₂.hist d' = Finset.range n.log.length := by
      rw [h₂.hist_eq h₁.mirrors hkept₁ hl₁, h₁.log]
    have hhist : n₂.hist d = Finset.range n.log.length := by
      by_cases hd : d = d'
      · rw [hd, hhist']
      · rw [h₂.others d hd, h₁.hist_eq h hkept hl]
    have hlog : n₂.log = n.log := h₂.log.trans h₁.log
    rw [← h₂.mirrors.doc]
    exact eq_of_hist_eq h₂.runs (hlog ▸ hw) (.replica d) (hhist.trans hhist'.symm ▸ .replica d')

/-- **Devices that have read the whole log agree.** From any state, reading it returns, whatever
the order and however many transfers break off; and any two devices that do end up with equal
documents. -/
theorem caught_up (p : Profile) (c : DocByteNet Ciphertext)
    (hc : ByteNet.Runs (replicated p Ciphertext) (byteCodec Ciphertext) c)
    (hadds : p = .dev ∨ ∀ d, addsPerformed c.ops d < 2 ^ 64) (d d' : DeviceId)
    (l l' : List (ℕ × ℕ)) (hl : Exhausts c l) (hl' : Exhausts c l') :
    ∃ c', c.exec (replicated p Ciphertext) (byteCodec Ciphertext)
        (l.map (fun q => .receive d q.1 q.2) ++ l'.map fun q => .receive d' q.1 q.2) = some c' ∧
      c'.pool = c.pool ∧ c'.doc d = c'.doc d' := by
  obtain ⟨n, hn, h⟩ := hc.mirrored (encode_init p)
  exact agree_of_covers hn h hadds hn.covers hn.covers d d' (hl.on _) (hl'.on _)

/-- Device 1 adds an entry, fills a field and publishes; device 2 removes an entry it has not
got and hears of the field through a broken transfer. -/
def interrupted : List (ByteAction DeviceId (DocOp Ciphertext)) :=
  [.update (dev 1) (.addEntry (eid 1)),
    .update (dev 1) (.setField (eid 1) ⟨300⟩ ⟨1, .replicate 24 9, [1, 2, 3]⟩ ⟨⟨1000, 0⟩, dev 1⟩),
    .publish (dev 1), .update (dev 2) (.removeEntry (eid 1)), .receive (dev 2) 2 17,
    .reload (dev 1)]

theorem exists_interrupted : ∃ c : DocByteNet Ciphertext,
    ByteNet.Runs (replicated .dev Ciphertext) (byteCodec Ciphertext) c ∧ c.pool.length = 5 ∧
      ∀ bytes ∈ c.pool, bytes.length ≤ 200 := by
  have h : ((ByteNet.init (replicated .dev Ciphertext) (byteCodec Ciphertext)).exec
      (replicated .dev Ciphertext) (byteCodec Ciphertext) interrupted).any (fun c =>
        c.pool.length = 5 ∧ ∀ bytes ∈ c.pool, bytes.length ≤ 200) = true := by decide +kernel
  obtain ⟨c, hexec, h⟩ := (Option.any_eq_true _ _).mp h
  obtain ⟨hlen, hall⟩ := of_decide_eq_true h
  exact ⟨c, Reaches.exec hexec, hlen, hall⟩

theorem bytes_mirror_interrupted : ∃ (c : DocByteNet Ciphertext) (n : DocNet Ciphertext),
    c.pool.length = 5 ∧ Runs (replicated .dev Ciphertext) Free n ∧
      Mirrors (byteCodec Ciphertext) n c := by
  obtain ⟨c, hc, hlen, -⟩ := exists_interrupted
  obtain ⟨n, hn, h⟩ := bytes_mirror .dev c hc
  exact ⟨c, n, hlen, hn, h⟩

theorem caught_up_interrupted : ∃ c c' : DocByteNet Ciphertext, c.pool.length = 5 ∧
    c.exec (replicated .dev Ciphertext) (byteCodec Ciphertext)
      ([(0, 200), (1, 200), (2, 200), (3, 200), (4, 200)].map
        (fun q => .receive (dev 2) q.1 q.2) ++ [(3, 5), (4, 200), (2, 200), (3, 200), (1, 200),
          (0, 200)].map fun q => .receive (dev 3) q.1 q.2) = some c' ∧
    c'.doc (dev 2) = c'.doc (dev 3) := by
  obtain ⟨c, hc, hlen, hall⟩ := exists_interrupted
  have hexhausts : ∀ l : List (ℕ × ℕ), (∀ q ∈ l, q.1 < 5) → (∀ i < 5, (i, 200) ∈ l) →
      Exhausts c l := by
    intro l hlt hfull
    refine ⟨fun q hq => hlen ▸ hlt q hq, fun i bytes hi => ⟨200, hfull i ?_, ?_⟩⟩
    · exact hlen ▸ (List.getElem?_eq_some_iff.mp hi).1
    · exact hall bytes (List.mem_of_getElem? hi)
  obtain ⟨c', hexec, -, hdoc⟩ := caught_up .dev c hc (.inl rfl) (dev 2) (dev 3)
    [(0, 200), (1, 200), (2, 200), (3, 200), (4, 200)]
    [(3, 5), (4, 200), (2, 200), (3, 200), (1, 200), (0, 200)]
    (hexhausts _ (by decide) (by decide)) (hexhausts _ (by decide) (by decide))
  exact ⟨c, c', hlen, hexec, hdoc⟩

end RealmGuard.VaultDoc
