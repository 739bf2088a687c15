import Mathlib.Algebra.GroupWithZero.Nat
import RealmGuard.Lib.Postcard

/-!
# Sizes of postcard encodings

`Measured α` relates the values of a type on the wire to the number of bytes they
take. Input that breaks off before the end of an encoding is refused for want of
data (`starves`); an encoding has at least one byte, so one that a `usize`
measures is of a value whose lengths it holds (`fits`); and decoding never reads
fewer bytes than it takes to write what it read (`thrift`). For maps and sets the
last rests on the size of a map filled from a list: entries under the same key
replace each other, so it is at most that of the list.
-/

namespace RealmGuard.Lib

/-- A map filled from a list weighs no more than the list. -/
theorem BTreeMap.sum_insertList_le {K V : Type*} [LinearOrder K] (w : K × V → ℕ) (k : K) (v : V)
    (l : List (K × V)) : ((insertList k v l).map w).sum ≤ w (k, v) + (l.map w).sum := by
  induction l with
  | nil => simp [insertList]
  | cons q l ih =>
    unfold insertList
    split
    · simp
    · split
      · simp only [List.map_cons, List.sum_cons]
        omega
      · simp only [List.map_cons, List.sum_cons]
        omega

namespace Postcard

variable {α β γ : Type}

/-! ## Input that breaks off -/

/-- Every proper prefix of `bytes` ends too early for the decoder. -/
def Starves (m : Decoder α) (bytes : List UInt8) : Prop :=
  ∀ k < bytes.length, m (bytes.take k) = .error .unexpectedEnd

theorem bind_error {m : Decoder α} {f : α → Decoder β} {bs : List UInt8} {e : Error}
    (h : m bs = .error e) : (m >>= f) bs = .error e := by
  show (m bs >>= fun q => f q.1 q.2) = _
  rw [h]
  rfl

theorem bind_of_ok {m : Decoder α} {f : α → Decoder β} {bs rest : List UInt8} {a : α}
    (h : m bs = .ok (a, rest)) : (m >>= f) bs = f a rest := by
  show (m bs >>= fun q => f q.1 q.2) = _
  rw [h]
  rfl

theorem Starves.nil (m : Decoder α) : Starves m [] := fun _ hk => absurd hk (Nat.not_lt_zero _)

theorem Starves.bind {m : Decoder α} {f : α → Decoder β} {bs cs : List UInt8} {a : α}
    (hm : Starves m bs) (hr : Reads m bs a) (hf : Starves (f a) cs) :
    Starves (m >>= f) (bs ++ cs) := by
  intro k hk
  rw [List.length_append] at hk
  by_cases hlt : k < bs.length
  · rw [List.take_append_of_le_length hlt.le]
    exact bind_error (hm k hlt)
  · rw [List.take_append, List.take_of_length_le (by omega), bind_of_ok (hr _)]
    exact hf _ (by omega)

theorem Starves.map {m : Decoder α} {bs : List UInt8} (g : α → β) (hm : Starves m bs) :
    Starves (g <$> m) bs := by
  intro k hk
  show (m (bs.take k) >>= fun q => Except.ok (g q.1, q.2)) = _
  rw [hm k hk]
  rfl

theorem starves_pop (b : UInt8) : Starves pop [b] := by
  intro k hk
  obtain rfl : k = 0 := by simpa using hk
  rfl

theorem starves_takeVarint (last : ℕ) : ∀ (max n : ℕ), Starves (takeVarint last (max + 1))
    (varint (max + 1) n) := by
  intro max
  induction max with
  | zero =>
    intro n k hk
    obtain rfl : k = 0 := by
      unfold varint varint at hk
      split at hk <;> simpa using hk
    exact bind_error rfl
  | succ max ih =>
    intro n
    rw [varint]
    by_cases h128 : n < 128
    · rw [if_pos h128]
      intro k hk
      obtain rfl : k = 0 := by simpa using hk
      exact bind_error rfl
    · have hval : (UInt8.ofNat (n % 128 + 128)).toNat = n % 128 + 128 := toNat_ofNat (by omega)
      rw [if_neg h128]
      intro k hk
      cases k with
      | zero => exact bind_error rfl
      | succ k =>
        refine (bind_of_ok (reads_pop _ _)).trans ?_
        rw [hval, if_neg (by omega)]
        exact bind_error (ih (n / 128) k (by simpa using hk))

/-! ## Sizes -/

theorem length_varint_mono (max : ℕ) : ∀ {m n : ℕ}, m ≤ n →
    (varint max m).length ≤ (varint max n).length := by
  induction max with
  | zero => exact fun _ => le_rfl
  | succ max ih =>
    intro m n hle
    rw [varint, varint]
    by_cases hm : m < 128
    · rw [if_pos hm]
      exact varint_pos max n
    · rw [if_neg hm, if_neg (by omega), List.length_cons, List.length_cons]
      exact Nat.succ_le_succ (ih (Nat.div_le_div_right hle))

/-- The decoder reads at least as many bytes as `enc` writes for what it read. -/
def Thrift (m : Decoder α) (enc : α → List UInt8) : Prop :=
  ∀ {bs rest : List UInt8} {a : α}, m bs = .ok (a, rest) →
    (enc a).length + rest.length ≤ bs.length

theorem Tightly.thrift {m : Decoder α} {enc : α → List UInt8} (h : Tightly m enc) :
    Thrift m enc := by
  intro bs rest a hread
  obtain ⟨bytes, rfl, hle, -⟩ := h hread
  rw [List.length_append]
  omega

/-- What the sizes of encodings say of the values of a type. -/
class Measured (α : Type) [Wire α] : Prop where
  starves : ∀ a : α, Fits a → Starves (Wire.decode : Decoder α) (Wire.encode a)
  pos : ∀ a : α, 0 < (Wire.encode a).length
  fits : ∀ a : α, (Wire.encode a).length < 2 ^ 64 → Fits a
  thrift : Thrift (Wire.decode (α := α)) Wire.encode

instance : Measured UInt8 where
  starves b _ := starves_pop b
  pos _ := Nat.one_pos
  fits _ _ := trivial
  thrift := Tightly.thrift Tight.tightly

theorem Measured.ofNat {last max : ℕ} (hl : last < 128) {of : ℕ → α} {nat : α → ℕ}
    (hlt : ∀ a, nat a < (last + 1) * 128 ^ max) (hof : ∀ a, of (nat a) = a)
    (hle : ∀ n, nat (of n) ≤ n) : @Measured α (.ofNat last max hl of nat hlt hof) :=
  @Measured.mk α (.ofNat last max hl of nat hlt hof)
    (fun a _ => (starves_takeVarint last max (nat a)).map of)
    (fun a => varint_pos max (nat a))
    (fun _ _ => trivial)
    (fun {bs rest a} h => by
      obtain ⟨n, hn, rfl⟩ := map_eq_ok.mp h
      have hthrift := Tightly.thrift (tightly_takeVarint last (max + 1)) hn
      have hmono := length_varint_mono (max + 1) (hle n)
      show (varint (max + 1) (nat (of n))).length + rest.length ≤ bs.length
      omega)

instance : Measured UInt16 :=
  .ofNat (by decide) UInt16.toNat_lt (fun _ => UInt16.ofNat_toNat) fun n =>
    UInt16.toNat_ofNat' ▸ Nat.mod_le n _

instance : Measured UInt32 :=
  .ofNat (by decide) UInt32.toNat_lt (fun _ => UInt32.ofNat_toNat) fun n =>
    UInt32.toNat_ofNat' ▸ Nat.mod_le n _

instance : Measured UInt64 :=
  .ofNat (by decide) UInt64.toNat_lt (fun _ => UInt64.ofNat_toNat) fun n =>
    UInt64.toNat_ofNat' ▸ Nat.mod_le n _

variable [Wire α] [Wire β] [Measured α] [Measured β]

instance : Measured (α × β) where
  starves p h := (Measured.starves p.1 h.1).bind (Wire.reads p.1 h.1)
    ((Measured.starves p.2 h.2).map (Prod.mk p.1))
  pos p := by
    show 0 < (Wire.encode p.1 ++ Wire.encode p.2).length
    rw [List.length_append]
    exact Nat.add_pos_left (Measured.pos p.1) _
  fits p h := by
    change (Wire.encode p.1 ++ Wire.encode p.2).length < 2 ^ 64 at h
    rw [List.length_append] at h
    exact ⟨Measured.fits p.1 (by omega), Measured.fits p.2 (by omega)⟩
  thrift {bs rest p} h := by
    obtain ⟨a, mid, ha, h⟩ := bind_eq_ok.mp h
    obtain ⟨b, rest, hb, h⟩ := bind_eq_ok.mp h
    obtain ⟨rfl, rfl⟩ := Prod.mk.inj (Except.ok.inj h)
    have hfront := Measured.thrift ha
    have hback := Measured.thrift hb
    show (Wire.encode a ++ Wire.encode b).length + _ ≤ _
    rw [List.length_append]
    omega

/-- A structure takes the bytes of its fields. -/
theorem Measured.ofEquiv (e : γ ≃ α) : @Measured γ (.ofEquiv e) :=
  @Measured.mk γ (.ofEquiv e)
    (fun c h => (Measured.starves (e c) h).map e.symm)
    (fun c => Measured.pos (e c))
    (fun c h => Measured.fits (e c) h)
    (fun {bs rest c} h => by
      obtain ⟨a, ha, rfl⟩ := map_eq_ok.mp h
      have hthrift := Measured.thrift ha
      show (Wire.encode (e (e.symm a))).length + rest.length ≤ bs.length
      rwa [e.apply_symm_apply])

theorem starves_decodeVector : ∀ {n : ℕ} (v : List.Vector α n), (∀ a ∈ v.toList, Fits a) →
    Starves (Wire.decodeVector n : Decoder (List.Vector α n)) (v.toList.flatMap Wire.encode)
  | 0, v, _ => by
    rw [v.eq_nil]
    exact Starves.nil _
  | n + 1, v, h => by
    obtain ⟨a, w, rfl⟩ := v.exists_eq_cons
    rw [List.Vector.toList_cons] at h ⊢
    have htail := (starves_decodeVector w fun b hb => h b (List.mem_cons_of_mem _ hb)).map
      (a ::ᵥ ·)
    have ha := h a List.mem_cons_self
    exact (Measured.starves a ha).bind (Wire.reads a ha) htail

theorem thrift_decodeVector (n : ℕ) : Thrift (Wire.decodeVector n)
    fun v : List.Vector α n => v.toList.flatMap Wire.encode := by
  induction n with
  | zero =>
    intro bs rest v h
    obtain ⟨rfl, rfl⟩ := Prod.mk.inj (Except.ok.inj h)
    simp
  | succ n ih =>
    intro bs rest v h
    obtain ⟨a, mid, ha, h⟩ := bind_eq_ok.mp h
    obtain ⟨w, tail, hw, h⟩ := bind_eq_ok.mp h
    obtain ⟨rfl, rfl⟩ := Prod.mk.inj (Except.ok.inj h)
    have hfront := Measured.thrift ha
    have hback : (w.toList.flatMap Wire.encode).length + tail.length ≤ mid.length := ih hw
    show ((a ::ᵥ w).toList.flatMap Wire.encode).length + _ ≤ _
    rw [List.Vector.toList_cons, List.flatMap_cons, List.length_append]
    omega

/-- A list is no longer than its encoding, and neither is the encoding of a member. -/
theorem length_le_flatMap (l : List α) : l.length ≤ (l.flatMap Wire.encode).length ∧
    ∀ a ∈ l, (Wire.encode a).length ≤ (l.flatMap Wire.encode).length := by
  induction l with
  | nil => simp
  | cons a l ih =>
    have hpos := Measured.pos a
    rw [List.flatMap_cons, List.length_append, List.length_cons]
    refine ⟨by omega, fun b hb => ?_⟩
    rcases List.mem_cons.mp hb with rfl | hb
    · exact Nat.le_add_right _ _
    · exact (ih.2 b hb).trans (Nat.le_add_left _ _)

theorem fits_of_flatMap {l : List α} (h : (l.flatMap Wire.encode).length < 2 ^ 64) :
    ∀ a ∈ l, Fits a := fun a ha => Measured.fits a (((length_le_flatMap l).2 a ha).trans_lt h)

instance (n : ℕ) [NeZero n] : Measured (List.Vector α n) where
  starves v h := starves_decodeVector v h
  pos v := by
    have hlen := (length_le_flatMap v.toList).1
    rw [v.toList_length] at hlen
    exact (Nat.pos_of_neZero n).trans_le hlen
  fits v h := fits_of_flatMap h
  thrift := thrift_decodeVector n

instance : Measured (List α) where
  starves l h := by
    have helems := (starves_decodeVector ⟨l, rfl⟩ h.2).map List.Vector.toList
    exact (starves_takeVarint 1 9 l.length).bind
      (reads_takeVarint 1 (by decide) 9 l.length h.1) helems
  pos l := by
    show 0 < (varint 10 l.length ++ _).length
    rw [List.length_append]
    exact Nat.add_pos_left (varint_pos 9 _) _
  fits l h := by
    change (varint 10 l.length ++ l.flatMap Wire.encode).length < 2 ^ 64 at h
    rw [List.length_append] at h
    exact ⟨(length_le_flatMap l).1.trans_lt (by omega), fits_of_flatMap (by omega)⟩
  thrift {bs rest l} h := by
    obtain ⟨n, mid, hn, h⟩ := bind_eq_ok.mp h
    obtain ⟨v, hv, rfl⟩ := map_eq_ok.mp h
    have hfront := Tightly.thrift (tightly_takeVarint 1 10) hn
    have hback : (v.toList.flatMap Wire.encode).length + rest.length ≤ mid.length :=
      thrift_decodeVector n hv
    show (varint 10 v.toList.length ++ v.toList.flatMap Wire.encode).length + _ ≤ _
    rw [v.toList_length, List.length_append]
    omega

/-! ## Maps and sets -/

omit [Measured α] in
/-- A list that is no longer and weighs no more takes no more bytes. -/
theorem length_encode_list_le {l l' : List α} (hlen : l.length ≤ l'.length)
    (hsum : (l.map fun a => (Wire.encode a).length).sum ≤
      (l'.map fun a => (Wire.encode a).length).sum) :
    (Wire.encode l).length ≤ (Wire.encode l').length := by
  show (varint 10 l.length ++ _).length ≤ (varint 10 l'.length ++ _).length
  have hvar := length_varint_mono 10 hlen
  rw [List.length_append, List.length_append, List.length_flatMap, List.length_flatMap]
  omega

variable {K : Type} [LinearOrder K] [Wire K] [Measured K]

omit [Wire K] [Measured K] in
theorem sum_foldl_insert_le {V : Type} (w : K × V → ℕ) (l : List (K × V)) : ∀ m : BTreeMap K V,
    ((l.foldl (fun m q => m.insert q.1 q.2) m).toList.map w).sum ≤
      (m.toList.map w).sum + (l.map w).sum := by
  induction l with
  | nil => exact fun m => le_of_eq (by simp)
  | cons q l ih =>
    intro m
    have hins : ((m.insert q.1 q.2).toList.map w).sum ≤ w q + (m.toList.map w).sum :=
      BTreeMap.sum_insertList_le w q.1 q.2 m.toList
    have htail := ih (m.insert q.1 q.2)
    rw [List.foldl_cons, List.map_cons, List.sum_cons]
    omega

omit [Wire K] [Measured K] in
theorem sum_ofEntries_le {V : Type} (w : K × V → ℕ) (l : List (K × V)) :
    ((ofEntries l).toList.map w).sum ≤ (l.map w).sum :=
  (sum_foldl_insert_le w l .empty).trans_eq (Nat.zero_add _)

instance : Measured (BTreeMap K β) where
  starves m h := (Measured.starves m.toList h).map ofEntries
  pos m := Measured.pos m.toList
  fits m h := Measured.fits m.toList h
  thrift {bs rest m} h := by
    obtain ⟨l, hl, rfl⟩ := map_eq_ok.mp h
    have hlist := Measured.thrift hl
    have hlen : (ofEntries l).toList.length ≤ l.length := by
      simpa using sum_ofEntries_le (fun _ => 1) l
    have hle := length_encode_list_le hlen (sum_ofEntries_le _ l)
    show (Wire.encode (ofEntries l).toList).length + _ ≤ _
    omega

omit [Wire K] [Measured K] in
theorem sum_ofList_le (w : K → ℕ) (l : List K) :
    ((BTreeSet.ofList l).toList.map w).sum ≤ (l.map w).sum := by
  suffices hfold : ∀ s : BTreeSet K, ((l.foldl BTreeSet.insert s).toList.map w).sum ≤
      (s.toList.map w).sum + (l.map w).sum from (hfold .empty).trans_eq (Nat.zero_add _)
  induction l with
  | nil => exact fun s => le_of_eq (by simp)
  | cons a l ih =>
    intro s
    have hins : ((s.insert a).toList.map w).sum ≤ w a + (s.toList.map w).sum := by
      have h := BTreeMap.sum_insertList_le (fun q : K × Unit => w q.1) a () s.map.toList
      simp only [BTreeSet.toList, BTreeMap.keys, List.map_map]
      exact h
    have htail := ih (s.insert a)
    rw [List.foldl_cons, List.map_cons, List.sum_cons]
    omega

instance : Measured (BTreeSet K) where
  starves s h := (Measured.starves s.toList h).map BTreeSet.ofList
  pos s := Measured.pos s.toList
  fits s h := Measured.fits s.toList h
  thrift {bs rest s} h := by
    obtain ⟨l, hl, rfl⟩ := map_eq_ok.mp h
    have hlist := Measured.thrift hl
    have hlen : (BTreeSet.ofList l).toList.length ≤ l.length := by
      simpa using sum_ofList_le (fun _ => 1) l
    have hle := length_encode_list_le hlen (sum_ofList_le _ l)
    show (Wire.encode (BTreeSet.ofList l).toList).length + _ ≤ _
    omega

end Postcard

end RealmGuard.Lib
