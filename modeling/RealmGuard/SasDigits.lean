import Mathlib.Order.Interval.Set.Nat
import RealmGuard.Lib.Numeral
import RealmGuard.PairingRuns

/-!
# The digits of a SAS

A SAS is four derived bytes, as a number modulo a million, in six digits. Every string of
six digits is the SAS of 4294 or 4295 of the `2 ^ 32` strings of bytes, and no other
string is the SAS of any (`ncard_formatSas`), so that none is worth guessing more than
another. A million derivations are as many as can show different SAS
(`Hkdf.SasDistinct.encard_le`).
-/

namespace RealmGuard

open Lib (wordsOf ofLetters padded decimal)

/-- Six digits. -/
def SixDigits (sas : String) : Prop := sas.toList ∈ wordsOf {c | c.isDigit = true} 6

instance (sas : String) : Decidable (SixDigits sas) :=
  inferInstanceAs (Decidable (sas.toList.length = 6 ∧ ∀ c ∈ sas.toList, c.isDigit = true))

/-- The number of four bytes, the most significant first. -/
def sasWord (bytes : List.Vector UInt8 4) : ℕ := ofLetters 256 UInt8.toNat bytes.toList

theorem toList_formatSas (bytes : List.Vector UInt8 4) :
    (formatSas bytes).toList = padded 6 (sasWord bytes % 1000000) := String.toList_ofList

/-- What a SAS says of the bytes it was made from. -/
theorem formatSas_eq_iff {bytes : List.Vector UInt8 4} {sas : String} :
    formatSas bytes = sas ↔ SixDigits sas ∧ sasWord bytes % 1000000 = decimal sas.toList := by
  rw [← String.toList_inj, toList_formatSas]
  exact Lib.padded_eq_iff (by decide) (Nat.mod_lt _ (by decide))

theorem sixDigits_formatSas (bytes : List.Vector UInt8 4) : SixDigits (formatSas bytes) :=
  (formatSas_eq_iff.mp rfl).1

theorem bijOn_decimal : Set.BijOn (fun sas : String => decimal sas.toList) {sas | SixDigits sas}
    (Set.Iio 1000000) := by
  have htoList : Set.BijOn String.toList {sas | SixDigits sas}
      (wordsOf {c | c.isDigit = true} 6) :=
    ⟨fun _ h => h, fun _ _ _ _ h => String.toList_inj.mp h, fun w hw => by
      refine ⟨.ofList w, ?_, String.toList_ofList⟩
      show (String.ofList w).toList ∈ wordsOf {c | c.isDigit = true} 6
      rwa [String.toList_ofList]⟩
  exact (Lib.bijOn_ofLetters (by decide) Lib.bijOn_digitVal 6).comp htoList

/-- Strings of bytes of one length are the words of that width. -/
theorem ncard_vectors (k : ℕ) (P : Bytes → Prop) :
    {bytes : List.Vector UInt8 k | P bytes.toList}.ncard =
      {w ∈ wordsOf (Set.univ : Set UInt8) k | P w}.ncard := by
  have himage : List.Vector.toList '' {bytes : List.Vector UInt8 k | P bytes.toList} =
      {w ∈ wordsOf (Set.univ : Set UInt8) k | P w} := by
    ext w
    constructor
    · rintro ⟨bytes, hP, rfl⟩
      exact ⟨⟨bytes.toList_length, fun _ _ => trivial⟩, hP⟩
    · rintro ⟨⟨hlen, -⟩, hP⟩
      exact ⟨⟨w, hlen⟩, hP, rfl⟩
  rw [← himage, Set.ncard_image_of_injective _ List.Vector.toList_injective]

/-- **How many strings of bytes show a SAS.** -/
theorem ncard_formatSas (sas : String) : {bytes | formatSas bytes = sas}.ncard =
    if SixDigits sas then 4294 + if decimal sas.toList < 967296 then 1 else 0 else 0 := by
  by_cases hsix : SixDigits sas
  · have hset : {bytes | formatSas bytes = sas} = {bytes : List.Vector UInt8 4 |
        ofLetters 256 UInt8.toNat bytes.toList % 1000000 = decimal sas.toList} := by
      ext bytes
      exact formatSas_eq_iff.trans (and_iff_right hsix)
    have hlt : decimal sas.toList < 1000000 := bijOn_decimal.mapsTo hsix
    rw [if_pos hsix, hset,
      ncard_vectors 4 fun w => ofLetters 256 UInt8.toNat w % 1000000 = decimal sas.toList,
      Lib.ncard_residue (by decide) Lib.bijOn_toNat 4 hlt]
    rfl
  · have hset : {bytes | formatSas bytes = sas} = ∅ :=
      Set.eq_empty_of_forall_notMem fun bytes h => hsix (formatSas_eq_iff.mp h).1
    rw [if_neg hsix, hset, Set.ncard_empty]

/-- No more than a million derivations show different SAS. -/
theorem Hkdf.SasDistinct.encard_le {hkdf : Hkdf} {made : Set Derivation}
    (h : hkdf.SasDistinct made) : made.encard ≤ 1000000 := by
  have hsub : (fun q : Derivation => (hkdf.expand q.1 q.2 4).map formatSas) '' made ⊆
      some '' {sas | SixDigits sas} := by
    rintro _ ⟨q, -, rfl⟩
    obtain ⟨bytes, hbytes⟩ := hkdf.exists_expand q.1 q.2 (show 4 ≤ 255 * 32 by decide)
    exact ⟨formatSas bytes, sixDigits_formatSas bytes, by simp [hbytes]⟩
  have hcard : {sas | SixDigits sas}.encard = 1000000 := by
    rw [← bijOn_decimal.injOn.encard_image, bijOn_decimal.image_eq,
      ← (Set.finite_Iio 1000000).cast_ncard_eq, Set.ncard_Iio_nat]
    rfl
  calc made.encard = _ := h.encard_image.symm
    _ ≤ _ := Set.encard_le_encard hsub
    _ = _ := (Option.some_injective _).encard_image _
    _ = 1000000 := hcard

end RealmGuard
