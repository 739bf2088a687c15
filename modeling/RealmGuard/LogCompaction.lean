import RealmGuard.ByteSync
import RealmGuard.Lib.CompactedLog

/-!
# Compacting the log

The log of a server is compacted: a device ships a snapshot in place of what it has read, or
two messages are joined. A device that is far behind then reads less, and ends up with the
same document as one that has read everything that was ever shipped (`compacted`).
-/

namespace RealmGuard.VaultDoc

open Lib Lib.Postcard

/-- The log of documents in bytes. -/
abbrev DocLogNet (V : Type) [LinearOrder V] : Type := LogNet DeviceId (DocOp V) (VaultDoc V)

/-- **Compaction does not show.** From any state, reading what the log has kept returns, whatever
the order and however many transfers break off, and leaves a device with the document of one
that has read at least as much, or everything that was ever shipped. -/
theorem compacted (p : Profile) (c : DocLogNet Ciphertext)
    (hc : LogNet.Runs (replicated p Ciphertext) (byteCodec Ciphertext) c)
    (hadds : p = .dev ∨ ∀ d, addsPerformed c.net.ops d < 2 ^ 64) (d d' : DeviceId)
    (l l' : List (ℕ × ℕ)) (hl : ExhaustsOn c.kept c.net l) (hl' : ExhaustsOn c.kept c.net l') :
    ∃ c', c.net.exec (replicated p Ciphertext) (byteCodec Ciphertext)
        (l.map (fun q => .receive d q.1 q.2) ++ l'.map fun q => .receive d' q.1 q.2) = some c' ∧
      c'.pool = c.net.pool ∧ c'.doc d = c'.doc d' := by
  obtain ⟨n, h⟩ := hc.exists_compacted (encode_init p)
  exact agree_of_covers h.runs h.mirrors hadds h.covers h.covers d d' hl hl'

/-- Device 2 reads two messages and removes the entry; its snapshot replaces what it has read,
and its removal is joined with an add of device 1. -/
def tidied : List (LogAction DeviceId (DocOp Ciphertext)) :=
  [.update (dev 1) (.addEntry (eid 1)),
    .update (dev 1) (.setField (eid 1) ⟨300⟩ ⟨1, .replicate 24 9, [1, 2, 3]⟩ ⟨⟨1000, 0⟩, dev 1⟩),
    .receive (dev 2) 1 200, .receive (dev 2) 2 200, .update (dev 2) (.removeEntry (eid 1)),
    .snapshot (dev 2) {1, 2}, .update (dev 1) (.addEntry (eid 2)), .join 3 5]

theorem compacted_tidied : ∃ (c : DocLogNet Ciphertext) (c' : DocByteNet Ciphertext),
    c.kept = {0, 4, 6} ∧ c.net.pool.length = 7 ∧
    c.net.exec (replicated .dev Ciphertext) (byteCodec Ciphertext)
      ([(6, 200), (4, 9), (0, 200), (4, 200)].map (fun q => .receive (dev 3) q.1 q.2) ++
        [(0, 200), (1, 200), (2, 200), (3, 200), (4, 200), (5, 200), (6, 200)].map
          fun q => .receive (dev 1) q.1 q.2) = some c' ∧
    c'.doc (dev 3) = c'.doc (dev 1) := by
  have h : (tidied.foldlM (LogNet.step (replicated .dev Ciphertext) (byteCodec Ciphertext))
      (.init (replicated .dev Ciphertext) (byteCodec Ciphertext))).any (fun c =>
        c.kept = {0, 4, 6} ∧ c.net.pool.length = 7 ∧
          ∀ bytes ∈ c.net.pool, bytes.length ≤ 200) = true := by decide +kernel
  obtain ⟨c, hexec, h⟩ := (Option.any_eq_true _ _).mp h
  obtain ⟨hkept, hlen, hall⟩ := of_decide_eq_true h
  have hexhausts : ∀ l : List (ℕ × ℕ), (∀ q ∈ l, q.1 < 7) →
      (∀ i ∈ ({0, 4, 6} : Finset ℕ), (i, 200) ∈ l) → ExhaustsOn c.kept c.net l := by
    intro l hlt hfull
    refine ⟨fun q hq => hlen ▸ hlt q hq, fun i hi bytes hbytes => ⟨200, hfull i ?_, ?_⟩⟩
    · exact hkept ▸ hi
    · exact hall bytes (List.mem_of_getElem? hbytes)
  obtain ⟨c', hexec', -, hdoc⟩ := compacted .dev c (Reaches.exec hexec) (.inl rfl) (dev 3) (dev 1)
    [(6, 200), (4, 9), (0, 200), (4, 200)]
    [(0, 200), (1, 200), (2, 200), (3, 200), (4, 200), (5, 200), (6, 200)]
    (hexhausts _ (by decide) (by decide)) (hexhausts _ (by decide) (by decide))
  exact ⟨c, c', hkept, hlen, hexec', hdoc⟩

end RealmGuard.VaultDoc
