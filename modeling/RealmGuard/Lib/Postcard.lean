import Mathlib.Data.Vector.Basic
import RealmGuard.Lib.BTree

/-!
# The postcard wire format

A format with no type tags: integers wider than a byte are varints of seven bits
a byte, low bits first; a length is the varint of a `usize`; arrays of a fixed
length are their elements, and vectors, maps and sets their length and their
elements in order. A `Decoder` reads a value from the front of its input and
leaves the rest.

`Wire α` is a type with its encoding and the round trip (`Wire.reads`) for the
values whose lengths a `usize` holds. `Tight α` is what decoding accepts: any
bytes that read as `a` are at least as long as the encoding of `a`, and are that
encoding if they are no longer.
-/

namespace RealmGuard.Lib.Postcard

inductive Error where
  | unexpectedEnd
  | badVarint
deriving DecidableEq

def Error.text : Error → String
  | .unexpectedEnd => "Hit the end of buffer, expected more data"
  | .badVarint =>
    "Found a varint that didn't terminate. Is the usize too big for this platform?"

/-- Reads a value from the front of the input. -/
abbrev Decoder (α : Type) : Type := StateT (List UInt8) (Except Error) α

variable {α β γ : Type}

/-- The decoder reads `a` off `bytes`, whatever follows. -/
def Reads (m : Decoder α) (bytes : List UInt8) (a : α) : Prop :=
  ∀ rest, m (bytes ++ rest) = .ok (a, rest)

theorem Reads.pure (a : α) : Reads (pure a) [] a := fun _ => rfl

theorem Reads.bind {m : Decoder α} {f : α → Decoder β} {bs cs : List UInt8} {a : α} {b : β}
    (hm : Reads m bs a) (hf : Reads (f a) cs b) : Reads (m >>= f) (bs ++ cs) b := by
  intro rest
  show (m (bs ++ cs ++ rest) >>= fun q => f q.1 q.2) = _
  rw [List.append_assoc, hm]
  exact hf rest

theorem Reads.map {m : Decoder α} {bs : List UInt8} {a : α} (g : α → β) (hm : Reads m bs a) :
    Reads (g <$> m) bs (g a) := by
  intro rest
  show (m (bs ++ rest) >>= fun q => Except.ok (g q.1, q.2)) = _
  rw [hm]
  rfl

theorem bind_eq_ok {m : Decoder α} {f : α → Decoder β} {bs rest : List UInt8} {b : β} :
    (m >>= f) bs = .ok (b, rest) ↔ ∃ a mid, m bs = .ok (a, mid) ∧ f a mid = .ok (b, rest) := by
  show (m bs >>= fun q => f q.1 q.2) = _ ↔ _
  cases h : m bs with
  | error e => exact iff_of_false (fun he => nomatch he) fun ⟨_, _, he, _⟩ => nomatch he
  | ok q =>
    constructor
    · exact fun hf => ⟨q.1, q.2, rfl, hf⟩
    · rintro ⟨a, mid, he, hf⟩
      obtain rfl := Except.ok.inj he
      exact hf

theorem map_eq_ok {m : Decoder α} {g : α → β} {bs rest : List UInt8} {b : β} :
    (g <$> m) bs = .ok (b, rest) ↔ ∃ a, m bs = .ok (a, rest) ∧ g a = b := by
  show (m bs >>= fun q => Except.ok (g q.1, q.2)) = _ ↔ _
  cases h : m bs with
  | error e => exact iff_of_false (fun he => nomatch he) fun ⟨_, he, _⟩ => nomatch he
  | ok q =>
    constructor
    · intro he
      obtain ⟨h1, h2⟩ := Prod.mk.inj (Except.ok.inj he)
      exact ⟨q.1, by rw [← h2], h1⟩
    · rintro ⟨a, he, rfl⟩
      obtain rfl := Except.ok.inj he
      rfl

/-! ## Bytes and varints -/

def pop : Decoder UInt8
  | [] => .error .unexpectedEnd
  | b :: bs => .ok (b, bs)

theorem reads_pop (b : UInt8) : Reads pop [b] b := fun _ => rfl

theorem pop_eq_ok {bs rest : List UInt8} {b : UInt8} : pop bs = .ok (b, rest) ↔ bs = b :: rest := by
  cases bs with
  | nil => exact iff_of_false (fun h => nomatch h) fun h => nomatch h
  | cons c cs => simp [pop]

/-- Seven bits a byte, low bits first, in at most `max` bytes. -/
def varint : (max : ℕ) → ℕ → List UInt8
  | 0, _ => []
  | max + 1, n =>
    if n < 128 then [UInt8.ofNat n]
    else UInt8.ofNat (n % 128 + 128) :: varint max (n / 128)

/-- Read a varint of at most `max` bytes; the last may hold no more than `last`. -/
def takeVarint (last : ℕ) : (max : ℕ) → Decoder ℕ
  | 0 => throw .badVarint
  | max + 1 => do
    let val ← pop
    if val.toNat < 128 then
      if max = 0 ∧ last < val.toNat then throw .badVarint else pure val.toNat
    else do
      let rest ← takeVarint last max
      pure (val.toNat % 128 + 128 * rest)

theorem toNat_ofNat {n : ℕ} (h : n < 256) : (UInt8.ofNat n).toNat = n := by
  rw [UInt8.toNat_ofNat']
  exact Nat.mod_eq_of_lt h

/-- A byte below 128 is a varint, as long as the last byte may hold it. -/
theorem reads_takeVarint_byte {last max n : ℕ} (h128 : n < 128) (hlast : max = 0 → n ≤ last) :
    Reads (takeVarint last (max + 1)) [UInt8.ofNat n] n := by
  intro rest
  have hval : (UInt8.ofNat n).toNat = n := toNat_ofNat (by omega)
  refine bind_eq_ok.mpr ⟨_, rest, reads_pop _ rest, ?_⟩
  rw [hval, if_pos h128, if_neg (by omega)]
  rfl

theorem reads_takeVarint (last : ℕ) (hl : last < 128) : ∀ (max n : ℕ),
    n < (last + 1) * 128 ^ max → Reads (takeVarint last (max + 1)) (varint (max + 1) n) n := by
  intro max
  induction max with
  | zero =>
    intro n hn
    have h128 : n < 128 := by omega
    rw [varint, if_pos h128]
    exact reads_takeVarint_byte h128 fun _ => by omega
  | succ max ih =>
    intro n hn
    rw [varint]
    by_cases h128 : n < 128
    · rw [if_pos h128]
      exact reads_takeVarint_byte h128 fun h0 => by omega
    · have hval : (UInt8.ofNat (n % 128 + 128)).toNat = n % 128 + 128 := toNat_ofNat (by omega)
      have hdiv : n / 128 < (last + 1) * 128 ^ max := by
        rw [Nat.div_lt_iff_lt_mul (by decide), Nat.mul_assoc, ← Nat.pow_succ]
        exact hn
      rw [if_neg h128]
      intro rest
      refine bind_eq_ok.mpr ⟨_, _, reads_pop _ _, ?_⟩
      rw [hval, if_neg (by omega)]
      refine bind_eq_ok.mpr ⟨n / 128, rest, ih (n / 128) hdiv rest, ?_⟩
      show Except.ok _ = _
      rw [show (n % 128 + 128) % 128 + 128 * (n / 128) = n by omega]

/-! ## What is read, against the encoding of what it reads as -/

/-- `bytes` is no shorter than `enc`, and is `enc` if it is no longer. -/
def Covers (bytes enc : List UInt8) : Prop :=
  enc.length ≤ bytes.length ∧ (bytes.length ≤ enc.length → bytes = enc)

theorem Covers.refl (bytes : List UInt8) : Covers bytes bytes := ⟨le_rfl, fun _ => rfl⟩

theorem Covers.append {b b' e e' : List UInt8} (h : Covers b e) (h' : Covers b' e') :
    Covers (b ++ b') (e ++ e') := by
  obtain ⟨hle, heq⟩ := h
  obtain ⟨hle', heq'⟩ := h'
  unfold Covers
  rw [List.length_append, List.length_append]
  refine ⟨by omega, fun hlen => ?_⟩
  rw [heq (by omega), heq' (by omega)]

theorem Covers.of_lt {b e : List UInt8} (h : e.length < b.length) : Covers b e :=
  ⟨h.le, fun hle => absurd hle (by omega)⟩

/-- The decoder reads at least `enc a` for `a`. -/
def Tightly (m : Decoder α) (enc : α → List UInt8) : Prop :=
  ∀ {bs rest : List UInt8} {a : α}, m bs = .ok (a, rest) →
    ∃ bytes, bs = bytes ++ rest ∧ Covers bytes (enc a)

theorem varint_pos (max n : ℕ) : 0 < (varint (max + 1) n).length := by
  unfold varint
  by_cases h : n < 128 <;> simp [h]

/-- A byte above 127 continues a varint. -/
theorem Covers.varint_cons {val : UInt8} {max high : ℕ} {bytes : List UInt8}
    (hcov : Covers bytes (varint max high)) (hval : ¬ val.toNat < 128) (hmax : max ≠ 0) :
    Covers (val :: bytes) (varint (max + 1) (val.toNat % 128 + 128 * high)) := by
  have hlt := val.toNat_lt
  unfold varint
  by_cases hhigh : high = 0
  · -- a last byte of zero only pads the varint
    obtain ⟨max, rfl⟩ := Nat.exists_eq_succ_of_ne_zero hmax
    have hpos := (varint_pos max high).trans_le hcov.1
    rw [if_pos (by omega)]
    apply Covers.of_lt
    simpa using hpos
  · have hbyte : UInt8.ofNat ((val.toNat % 128 + 128 * high) % 128 + 128) = val := by
      rw [show (val.toNat % 128 + 128 * high) % 128 + 128 = val.toNat by omega,
        UInt8.ofNat_toNat]
    rw [if_neg (by omega), hbyte, show (val.toNat % 128 + 128 * high) / 128 = high by omega]
    exact (Covers.refl [val]).append hcov

theorem tightly_takeVarint (last max : ℕ) : Tightly (takeVarint last max) (varint max) := by
  induction max with
  | zero => intro bs rest n h; cases h
  | succ max ih =>
    intro bs rest n h
    obtain ⟨val, mid, hpop, hread⟩ := bind_eq_ok.mp h
    clear h
    obtain rfl := pop_eq_ok.mp hpop
    by_cases hval : val.toNat < 128
    · rw [if_pos hval] at hread
      by_cases hlast : max = 0 ∧ last < val.toNat
      · rw [if_pos hlast] at hread
        cases hread
      · rw [if_neg hlast] at hread
        obtain ⟨rfl, rfl⟩ := Prod.mk.inj (Except.ok.inj hread)
        refine ⟨[val], rfl, ?_⟩
        rw [varint, if_pos hval, UInt8.ofNat_toNat]
        exact .refl _
    · rw [if_neg hval] at hread
      obtain ⟨high, tail, hhigh, hread⟩ := bind_eq_ok.mp hread
      obtain ⟨rfl, rfl⟩ := Prod.mk.inj (Except.ok.inj hread)
      obtain ⟨bytes, rfl, hcov⟩ := ih hhigh
      refine ⟨val :: bytes, rfl, ?_⟩
      exact hcov.varint_cons hval fun h0 => by
        subst h0
        cases hhigh

/-! ## Types with an encoding -/

/-- A type on the wire. -/
class Wire (α : Type) where
  encode : α → List UInt8
  decode : Decoder α
  /-- Every length in the value is a `usize`. -/
  Fits : α → Prop
  reads : ∀ a, Fits a → Reads decode (encode a) a

export Wire (Fits)

instance : Wire UInt8 where
  encode b := [b]
  decode := pop
  Fits _ := True
  reads b _ := reads_pop b

/-- An integer type as a varint of at most `max + 1` bytes. -/
@[reducible] def Wire.ofNat (last max : ℕ) (hl : last < 128) (of : ℕ → α) (nat : α → ℕ)
    (hlt : ∀ a, nat a < (last + 1) * 128 ^ max) (hof : ∀ a, of (nat a) = a) : Wire α where
  encode a := varint (max + 1) (nat a)
  decode := of <$> takeVarint last (max + 1)
  Fits _ := True
  reads a _ := by
    have h := (reads_takeVarint last hl max (nat a) (hlt a)).map of
    rwa [hof] at h

instance : Wire UInt16 :=
  .ofNat 3 2 (by decide) UInt16.ofNat UInt16.toNat UInt16.toNat_lt fun _ => UInt16.ofNat_toNat

instance : Wire UInt32 :=
  .ofNat 15 4 (by decide) UInt32.ofNat UInt32.toNat UInt32.toNat_lt fun _ => UInt32.ofNat_toNat

instance : Wire UInt64 :=
  .ofNat 1 9 (by decide) UInt64.ofNat UInt64.toNat UInt64.toNat_lt fun _ => UInt64.ofNat_toNat

example : Wire.encode (300 : UInt16) = [172, 2] := by decide

variable [Wire α] [Wire β]

/-- The fields of a structure, one after the other. -/
instance : Wire (α × β) where
  encode p := Wire.encode p.1 ++ Wire.encode p.2
  decode := do
    let a ← Wire.decode
    let b ← Wire.decode
    pure (a, b)
  Fits p := Fits p.1 ∧ Fits p.2
  reads p h := by
    have hpair := (Wire.reads p.2 h.2).map (Prod.mk p.1)
    exact (Wire.reads p.1 h.1).bind hpair

/-- A structure, by the tuple of its fields. -/
@[reducible] def Wire.ofEquiv (e : γ ≃ α) : Wire γ where
  encode c := Wire.encode (e c)
  decode := e.symm <$> Wire.decode
  Fits c := Fits (e c)
  reads c h := by
    have hread := (Wire.reads (e c) h).map e.symm
    rwa [e.symm_apply_apply] at hread

def Wire.decodeVector : (n : ℕ) → Decoder (List.Vector α n)
  | 0 => pure .nil
  | n + 1 => do
    let a ← Wire.decode
    let v ← decodeVector n
    pure (a ::ᵥ v)

theorem Wire.reads_decodeVector : ∀ {n : ℕ} (v : List.Vector α n), (∀ a ∈ v.toList, Fits a) →
    Reads (decodeVector n) (v.toList.flatMap encode) v
  | 0, v, _ => by
    rw [v.eq_nil]
    exact Reads.pure _
  | n + 1, v, h => by
    obtain ⟨a, w, rfl⟩ := v.exists_eq_cons
    rw [List.Vector.toList_cons] at h ⊢
    have htail := (reads_decodeVector w fun b hb => h b (List.mem_cons_of_mem _ hb)).map (a ::ᵥ ·)
    exact (Wire.reads a (h a List.mem_cons_self)).bind htail

/-- An array of a fixed length. -/
instance (n : ℕ) : Wire (List.Vector α n) where
  encode v := v.toList.flatMap Wire.encode
  decode := Wire.decodeVector n
  Fits v := ∀ a ∈ v.toList, Fits a
  reads := Wire.reads_decodeVector

/-- A vector: its length and its elements. -/
instance : Wire (List α) where
  encode l := varint 10 l.length ++ l.flatMap Wire.encode
  decode := do
    let n ← takeVarint 1 10
    List.Vector.toList <$> Wire.decodeVector n
  Fits l := l.length < 2 ^ 64 ∧ ∀ a ∈ l, Fits a
  reads l h := by
    have helems := (Wire.reads_decodeVector ⟨l, rfl⟩ h.2).map List.Vector.toList
    exact (reads_takeVarint 1 (by decide) 9 l.length h.1).bind helems

variable {K : Type} [LinearOrder K]

/-- Fill a map from its entries. -/
def ofEntries (l : List (K × γ)) : BTreeMap K γ := l.foldl (fun m q => m.insert q.1 q.2) .empty

theorem ofEntries_toList (m : BTreeMap K γ) : ofEntries m.toList = m := by
  refine BTreeMap.ext_get? fun k => ?_
  rw [ofEntries, BTreeMap.get?_foldl_upsert (fun _ w => w) k m.sorted]
  show (m.get? k).elim _ _ = _
  cases m.get? k <;> rfl

instance [Wire K] : Wire (BTreeMap K β) where
  encode m := Wire.encode m.toList
  decode := ofEntries <$> Wire.decode
  Fits m := Fits m.toList
  reads m h := by
    have hread := (Wire.reads m.toList h).map ofEntries
    rwa [ofEntries_toList] at hread

theorem ofList_toList (s : BTreeSet K) : BTreeSet.ofList s.toList = s :=
  BTreeSet.ext fun a => by simp

instance [Wire K] : Wire (BTreeSet K) where
  encode s := Wire.encode s.toList
  decode := BTreeSet.ofList <$> Wire.decode
  Fits s := Fits s.toList
  reads s h := by
    have hread := (Wire.reads s.toList h).map BTreeSet.ofList
    rwa [ofList_toList] at hread

/-! ## Types whose values have one shortest encoding -/

/-- Decoding reads at least the encoding of what it returns. -/
class Tight (α : Type) [Wire α] : Prop where
  tightly : Tightly (Wire.decode (α := α)) Wire.encode

instance : Tight UInt8 where
  tightly h := by
    obtain rfl := pop_eq_ok.mp h
    exact ⟨_, rfl, .refl _⟩

instance [Tight α] [Tight β] : Tight (α × β) where
  tightly h := by
    obtain ⟨a, mid, ha, h⟩ := bind_eq_ok.mp h
    obtain ⟨b, rest, hb, h⟩ := bind_eq_ok.mp h
    obtain ⟨rfl, rfl⟩ := Prod.mk.inj (Except.ok.inj h)
    obtain ⟨bs, rfl, hcov⟩ := Tight.tightly ha
    obtain ⟨bs', rfl, hcov'⟩ := Tight.tightly hb
    exact ⟨bs ++ bs', (List.append_assoc _ _ _).symm, hcov.append hcov'⟩

theorem Tight.ofEquiv [Tight α] (e : γ ≃ α) :
    @Tight γ (.ofEquiv e) :=
  @Tight.mk γ (.ofEquiv e) fun {bs rest c} h => by
    obtain ⟨a, ha, rfl⟩ := map_eq_ok.mp h
    obtain ⟨bytes, hbs, hcov⟩ := Tight.tightly ha
    refine ⟨bytes, hbs, ?_⟩
    show Covers bytes (Wire.encode (e (e.symm a)))
    rwa [e.apply_symm_apply]

theorem Tight.decodeVector [Tight α] (n : ℕ) :
    Tightly (Wire.decodeVector n) fun v : List.Vector α n => v.toList.flatMap Wire.encode := by
  induction n with
  | zero =>
    intro bs rest v h
    obtain ⟨rfl, rfl⟩ := Prod.mk.inj (Except.ok.inj h)
    exact ⟨[], rfl, .refl _⟩
  | succ n ih =>
    intro bs rest v h
    obtain ⟨a, mid, ha, h⟩ := bind_eq_ok.mp h
    obtain ⟨w, tail, hw, h⟩ := bind_eq_ok.mp h
    obtain ⟨rfl, rfl⟩ := Prod.mk.inj (Except.ok.inj h)
    obtain ⟨bs, rfl, hcov⟩ := Tight.tightly ha
    obtain ⟨bs', rfl, hcov'⟩ := ih hw
    refine ⟨bs ++ bs', (List.append_assoc _ _ _).symm, ?_⟩
    show Covers _ ((a ::ᵥ w).toList.flatMap Wire.encode)
    rw [List.Vector.toList_cons]
    exact hcov.append hcov'

instance [Tight α] (n : ℕ) : Tight (List.Vector α n) := ⟨Tight.decodeVector n⟩

instance [Tight α] : Tight (List α) where
  tightly h := by
    obtain ⟨n, mid, hn, h⟩ := bind_eq_ok.mp h
    obtain ⟨v, hv, rfl⟩ := map_eq_ok.mp h
    obtain ⟨bs, rfl, hcov⟩ := tightly_takeVarint 1 10 hn
    obtain ⟨bs', rfl, hcov'⟩ := Tight.decodeVector n hv
    refine ⟨bs ++ bs', (List.append_assoc _ _ _).symm, ?_⟩
    show Covers _ (varint 10 v.toList.length ++ _)
    rw [v.toList_length]
    exact hcov.append hcov'

end RealmGuard.Lib.Postcard
