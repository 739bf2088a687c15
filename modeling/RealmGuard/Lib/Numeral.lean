import Mathlib.Data.Int.CardIntervalMod
import Mathlib.Data.Nat.Digits.Lemmas
import Mathlib.Data.Set.Card

/-!
# Numerals of a fixed width

Words over an alphabet whose letters stand for the numbers below a base, read with the
most significant letter first: the words of one width and the numbers below a power of
the base are in bijection (`bijOn_ofLetters`). Bytes are the letters of base 256, decimal
digits those of base 10, where padding with zeros gives the word back
(`padded_eq_iff`). How many words stand for numbers of one residue is
`ncard_residue`.
-/

namespace RealmGuard.Lib

/-! ## Words and numbers -/

section Letters

variable {α : Type} {b : ℕ} {digit : α → ℕ} {letters : Set α}

/-- The number of a word in base `b`. -/
def ofLetters (b : ℕ) (digit : α → ℕ) (w : List α) : ℕ := w.foldl (fun acc a => b * acc + digit a) 0

theorem ofLetters_eq_ofDigits (w : List α) :
    ofLetters b digit w = Nat.ofDigits b (w.map digit).reverse := by
  unfold ofLetters
  rw [Nat.ofDigits_eq_foldr, List.foldr_reverse, List.foldl_map]
  congr 1
  funext acc a
  simp only [Nat.cast_id]
  omega

/-- The words of a width. -/
def wordsOf (letters : Set α) (width : ℕ) : Set (List α) :=
  {w | w.length = width ∧ ∀ a ∈ w, a ∈ letters}

theorem injOn_map (h : Set.InjOn digit letters) (width : ℕ) :
    Set.InjOn (List.map digit) (wordsOf letters width) := by
  rintro w ⟨-, hw⟩ w' ⟨-, hw'⟩ heq
  induction w generalizing w' with
  | nil => exact (List.map_eq_nil_iff.mp heq.symm).symm
  | cons a w ih =>
    cases w' with
    | nil => cases heq
    | cons a' w' =>
      obtain ⟨hhead, htail⟩ := List.cons.inj heq
      rw [List.forall_mem_cons] at hw hw'
      rw [h hw.1 hw'.1 hhead, ih hw.2 hw'.2 htail]

theorem surjOn_map (h : Set.SurjOn digit letters (Set.Iio b)) (width : ℕ) :
    Set.SurjOn (List.map digit) (wordsOf letters width) (wordsOf (Set.Iio b) width) := by
  rintro ds ⟨rfl, hds⟩
  induction ds with
  | nil => exact ⟨[], ⟨rfl, fun _ h => absurd h List.not_mem_nil⟩, rfl⟩
  | cons d ds ih =>
    rw [List.forall_mem_cons] at hds
    obtain ⟨a, ha, rfl⟩ := h hds.1
    obtain ⟨w, ⟨hlen, hw⟩, rfl⟩ := ih hds.2
    exact ⟨a :: w, ⟨congrArg (· + 1) hlen, List.forall_mem_cons.mpr ⟨ha, hw⟩⟩, rfl⟩

theorem bijOn_map (h : Set.BijOn digit letters (Set.Iio b)) (width : ℕ) :
    Set.BijOn (List.map digit) (wordsOf letters width) (wordsOf (Set.Iio b) width) := by
  refine ⟨?_, injOn_map h.injOn width, surjOn_map h.surjOn width⟩
  rintro w ⟨hlen, hw⟩
  refine ⟨(List.length_map digit).trans hlen, fun d hd => ?_⟩
  obtain ⟨a, ha, rfl⟩ := List.mem_map.mp hd
  exact h.mapsTo (hw a ha)

theorem bijOn_reverse (width : ℕ) :
    Set.BijOn List.reverse (wordsOf letters width) (wordsOf letters width) := by
  have hmaps : Set.MapsTo List.reverse (wordsOf letters width) (wordsOf letters width) :=
    fun w hw => ⟨List.length_reverse.trans hw.1, fun a ha => hw.2 a (List.mem_reverse.mp ha)⟩
  exact ⟨hmaps, List.reverse_injective.injOn, fun w hw => ⟨w.reverse, hmaps hw, w.reverse_reverse⟩⟩

/-- **Words of one width are the numbers below a power of the base.** -/
theorem bijOn_ofLetters (hb : 1 < b) (h : Set.BijOn digit letters (Set.Iio b)) (width : ℕ) :
    Set.BijOn (ofLetters b digit) (wordsOf letters width) (Set.Iio (b ^ width)) := by
  have hdigits := (bijOn_reverse width).comp (bijOn_map h width)
  refine ((Nat.bijOn_ofDigits hb width).comp hdigits).congr ?_
  exact fun w _ => (ofLetters_eq_ofDigits w).symm

end Letters

/-! ## Bytes -/

theorem bijOn_toNat : Set.BijOn UInt8.toNat Set.univ (Set.Iio 256) := by
  refine ⟨fun x _ => x.toNat_lt, fun x _ y _ h => UInt8.toNat.inj h, fun n hn => ?_⟩
  exact ⟨UInt8.ofNat n, trivial, UInt8.toNat_ofNat_of_lt' hn⟩

/-! ## Decimal digits -/

/-- The number of a decimal digit. -/
def digitVal (c : Char) : ℕ := c.toNat - '0'.toNat

/-- The number of a decimal word. -/
def decimal (w : List Char) : ℕ := ofLetters 10 digitVal w

theorem bijOn_digitVal : Set.BijOn digitVal {c | c.isDigit = true} (Set.Iio 10) := by
  have hrange : ∀ c : Char, c.isDigit = true → 48 ≤ c.toNat ∧ c.toNat ≤ 57 :=
    fun c hc => Char.isDigit_iff_toNat.mp hc
  have hval : ∀ c, digitVal c = c.toNat - 48 := fun _ => rfl
  refine ⟨fun c hc => ?_, fun c hc c' hc' h => ?_, fun n hn => ⟨n.digitChar, ?_, ?_⟩⟩
  · have := hrange c hc
    rw [Set.mem_Iio, hval]
    omega
  · have := hrange c hc
    have := hrange c' hc'
    rw [hval, hval] at h
    exact Char.toNat_inj.mp (by omega)
  · exact Nat.isDigit_digitChar.trans (decide_eq_true hn)
  · exact Nat.toNat_digitChar_sub_48_of_lt_ten hn

/-- A number in decimal, padded with zeros to a width. -/
def padded (width n : ℕ) : List Char := (Nat.toDigits 10 n).leftpad width '0'

theorem decimal_padded (width n : ℕ) : decimal (padded width n) = n := by
  show Nat.ofDigitChars 10 (List.replicate _ '0' ++ Nat.toDigits 10 n) 0 = n
  rw [Nat.ofDigitChars_append, Nat.ofDigitChars_replicate_zero, Nat.mul_zero,
    Nat.ofDigitChars_ten_toDigits]

theorem padded_mem {width n : ℕ} (hpos : 0 < width) (h : n < 10 ^ width) :
    padded width n ∈ wordsOf {c | c.isDigit = true} width := by
  unfold padded
  refine ⟨?_, fun c hc => ?_⟩
  · rw [List.length_leftpad]
    exact max_eq_left ((Nat.length_toDigits_le_iff (by decide) hpos).mpr h)
  · rcases List.mem_append.mp hc with hc | hc
    · rw [List.eq_of_mem_replicate hc]
      rfl
    · exact Nat.isDigit_of_mem_toDigits (by decide) (by decide) hc

/-- The word of a number below a power of ten is the one that stands for it. -/
theorem padded_eq_iff {width n : ℕ} (hpos : 0 < width) (h : n < 10 ^ width) {w : List Char} :
    padded width n = w ↔ w ∈ wordsOf {c | c.isDigit = true} width ∧ n = decimal w := by
  constructor
  · rintro rfl
    exact ⟨padded_mem hpos h, (decimal_padded width n).symm⟩
  · rintro ⟨hw, rfl⟩
    exact (bijOn_ofLetters (by decide) bijOn_digitVal width).injOn (padded_mem hpos h) hw
      (decimal_padded width _)

/-! ## Residues -/

/-- How many words of a width stand for numbers of residue `v`. -/
theorem ncard_residue {α : Type} {b m v : ℕ} {digit : α → ℕ} {letters : Set α} (hb : 1 < b)
    (h : Set.BijOn digit letters (Set.Iio b)) (width : ℕ) (hv : v < m) :
    {w ∈ wordsOf letters width | ofLetters b digit w % m = v}.ncard =
      b ^ width / m + if v < b ^ width % m then 1 else 0 := by
  have hbij := bijOn_ofLetters hb h width
  have himage : ofLetters b digit '' {w ∈ wordsOf letters width | ofLetters b digit w % m = v} =
      ((Finset.range (b ^ width)).filter (· ≡ v [MOD m]) : Finset ℕ) := by
    ext n
    simp only [Finset.coe_filter, Finset.mem_range, Nat.ModEq, Nat.mod_eq_of_lt hv]
    constructor
    · rintro ⟨w, ⟨hw, hmod⟩, rfl⟩
      exact ⟨hbij.mapsTo hw, hmod⟩
    · rintro ⟨hn, hmod⟩
      obtain ⟨w, hw, rfl⟩ := hbij.surjOn hn
      exact ⟨w, ⟨hw, hmod⟩, rfl⟩
  have hinj : Set.InjOn (ofLetters b digit)
      {w ∈ wordsOf letters width | ofLetters b digit w % m = v} :=
    hbij.injOn.mono fun _ hw => hw.1
  rw [← hinj.ncard_image, himage, Set.ncard_coe_finset,
    ← Nat.count_eq_card_filter_range, Nat.count_modEq_card _ (by omega), Nat.mod_eq_of_lt hv]

end RealmGuard.Lib
