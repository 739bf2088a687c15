import Mathlib.Data.Set.Function
import Mathlib.Data.Vector.Zip
import RealmGuard.Codec

/-!
# The cryptographic suite

What the core takes from audited crates: HKDF-SHA256, XChaCha20-Poly1305, X25519 and
BIP39, as the fields of a `Suite`, and the draws of the system generator as arguments.
The sizes they deal in are fields too. What is assumed of them beyond is a predicate
each: that opening undoes sealing (`Aead.Opens`) and an exchange commutes
(`X25519.Commutes`), that nothing opens but what was sealed (`Aead.Authentic`), and the
idealisations `Aead.Committing` and `Hkdf.KeysDistinct`, the latter over the derivations
that are made.

`Suite.transparent` hides nothing, and satisfies them.
-/

namespace RealmGuard

abbrev Bytes : Type := List UInt8

/-- The bytes of a label. -/
def label (s : String) : Bytes := s.toUTF8.data.toList

def keyLen : ℕ := 32

def xnonceLen : ℕ := 24

/-- A symmetric key, an X25519 key or an identity key. -/
abbrev Key : Type := List.Vector UInt8 keyLen

/-- What a call of the system generator for `n` bytes returns. -/
abbrev Draw (n : ℕ) : Type := Except String (List.Vector UInt8 n)

/-- `getrandom(&mut bytes)`. -/
def getrandom {n : ℕ} : Draw n → Except Error (List.Vector UInt8 n)
  | .ok bytes => .ok bytes
  | .error e => .error (.crypto s!"CSPRNG : {e}")

/-- `.map_err(|_| Error::Crypto(message))`. -/
def orCrypto {α : Type} (message : String) : Option α → Except Error α
  | some a => .ok a
  | none => .error (.crypto message)

/-- `bytes.try_into()`, to an array of length `n`. -/
def tryInto (n : ℕ) (bytes : Bytes) : Option (List.Vector UInt8 n) :=
  if h : bytes.length = n then some ⟨bytes, h⟩ else none

@[simp] theorem orCrypto_eq_ok {α : Type} {message : String} {o : Option α} {a : α} :
    orCrypto message o = .ok a ↔ o = some a := by
  cases o <;> simp [orCrypto]

@[simp] theorem getrandom_eq_ok {n : ℕ} {draw : Draw n} {bytes : List.Vector UInt8 n} :
    getrandom draw = .ok bytes ↔ draw = .ok bytes := by
  cases draw <;> simp [getrandom]

@[simp] theorem tryInto_toList {n : ℕ} (v : List.Vector UInt8 n) : tryInto n v.toList = some v := by
  unfold tryInto
  rw [dif_pos v.toList_length]
  rfl

theorem tryInto_eq_some {n : ℕ} {bytes : Bytes} {v : List.Vector UInt8 n} :
    tryInto n bytes = some v ↔ bytes = v.toList := by
  constructor
  · intro h
    unfold tryInto at h
    by_cases hn : bytes.length = n
    · rw [dif_pos hn] at h
      exact congrArg List.Vector.toList (Option.some.inj h)
    · rw [dif_neg hn] at h
      cases h
  · rintro rfl
    exact tryInto_toList v

/-! ## Key derivation -/

/-- HKDF-SHA256 without salt: `len` bytes from input key material and an info string, for up to
255 blocks of 32 bytes. -/
structure Hkdf where
  expand : (ikm info : Bytes) → (len : ℕ) → Option (List.Vector UInt8 len)
  isSome_expand : ∀ ikm info len, len ≤ 255 * 32 → (expand ikm info len).isSome = true

theorem Hkdf.exists_expand (hkdf : Hkdf) (ikm info : Bytes) {len : ℕ} (h : len ≤ 255 * 32) :
    ∃ okm, hkdf.expand ikm info len = some okm :=
  Option.isSome_iff_exists.mp (hkdf.isSome_expand ikm info len h)

/-- What a derivation takes: input key material and info. -/
abbrev Derivation : Type := Bytes × Bytes

/-- The derivations in `made` yield different keys. -/
def Hkdf.KeysDistinct (hkdf : Hkdf) (made : Set Derivation) : Prop :=
  Set.InjOn (fun q => hkdf.expand q.1 q.2 keyLen) made

/-! ## Authenticated encryption -/

/-- XChaCha20-Poly1305: it seals messages of up to `maxLen` bytes, `tagLen` bytes longer, which
is no more than a `usize` can measure. -/
structure Aead where
  tagLen : ℕ
  maxLen : ℕ
  encrypt : (key : Key) → (nonce : List.Vector UInt8 xnonceLen) → (msg aad : Bytes) → Option Bytes
  decrypt : (key : Key) → (nonce : List.Vector UInt8 xnonceLen) → (msg aad : Bytes) → Option Bytes
  maxLen_lt : maxLen + tagLen < 2 ^ 64
  isSome_encrypt : ∀ key nonce msg aad,
    (encrypt key nonce msg aad).isSome = true ↔ msg.length ≤ maxLen
  length_encrypt : ∀ key nonce msg aad c,
    encrypt key nonce msg aad = some c → c.length = msg.length + tagLen

namespace Aead

/-- `new_from_slice`: the length of the key is checked. -/
def newFromSlice (key : Bytes) : Option Key := tryInto keyLen key

variable (aead : Aead)

/-- Decryption undoes encryption. -/
def Opens : Prop := ∀ key nonce msg aad c,
  aead.encrypt key nonce msg aad = some c → aead.decrypt key nonce c aad = some msg

/-- Nothing opens but what was sealed, with that key, nonce and associated data. -/
def Authentic : Prop := ∀ key nonce msg aad c,
  aead.decrypt key nonce c aad = some msg → aead.encrypt key nonce msg aad = some c

/-- What was sealed under one key was not sealed under another. -/
def Committing : Prop := ∀ key key' nonce nonce' msg msg' aad aad' c,
  aead.encrypt key nonce msg aad = some c → aead.encrypt key' nonce' msg' aad' = some c →
    key' = key

end Aead

/-! ## Key exchange and mnemonics -/

/-- X25519 on the bytes of its keys. -/
structure X25519 where
  publicKey : Key → Key
  diffieHellman : (secret theirPublic : Key) → Key

/-- Both sides of an exchange get the same secret. -/
def X25519.Commutes (x25519 : X25519) : Prop := ∀ a b,
  x25519.diffieHellman a (x25519.publicKey b) = x25519.diffieHellman b (x25519.publicKey a)

/-- The phrase of an entropy, and the entropy of a phrase. -/
structure Bip39 where
  fromEntropy : Bytes → Except String String
  parse : String → Option Bytes

structure Suite where
  hkdf : Hkdf
  aead : Aead
  x25519 : X25519
  bip39 : Bip39

/-! ## A suite that hides nothing -/

/-- The key, the nonce and the first byte of the associated data. -/
def header (key : Key) (nonce : List.Vector UInt8 xnonceLen) (aad : Bytes) : Bytes :=
  key.toList ++ (nonce.toList ++ [aad.headD 0])

theorem header_length (key : Key) (nonce : List.Vector UInt8 xnonceLen) (aad : Bytes) :
    (header key nonce aad).length = 57 := by
  unfold header
  rw [List.length_append, List.length_append, key.toList_length, nonce.toList_length]
  rfl

namespace Suite

/-- Derived bytes are checksums, a public key is its secret, and sealed data is the message
behind its `header`. -/
def transparent : Suite where
  hkdf :=
    { expand := fun ikm info _ => some (List.Vector.ofFn fun i =>
        (ikm ++ info).foldl (fun sum b => 33 * sum + b) (UInt8.ofNat i))
      isSome_expand := fun _ _ _ _ => rfl }
  aead :=
    { tagLen := 57
      maxLen := 1000
      encrypt := fun key nonce msg aad =>
        if msg.length ≤ 1000 then some (header key nonce aad ++ msg) else none
      decrypt := fun key nonce c aad =>
        if c.take 57 = header key nonce aad ∧ c.length ≤ 1057 then some (c.drop 57) else none
      maxLen_lt := by decide
      isSome_encrypt := fun key nonce msg aad => by
        by_cases h : msg.length ≤ 1000 <;> simp [h]
      length_encrypt := fun key nonce msg aad c h => by
        obtain ⟨-, hc⟩ := Option.ite_none_right_eq_some.mp h
        rw [← Option.some.inj hc, List.length_append, header_length]
        omega }
  x25519 := ⟨id, fun a b => List.Vector.zipWith (· + ·) a b⟩
  bip39 := ⟨fun _ => .ok "", fun _ => none⟩

theorem transparent_commutes : transparent.x25519.Commutes := fun a b =>
  List.Vector.ext fun i => by
    show (List.Vector.zipWith _ a b).get i = (List.Vector.zipWith _ b a).get i
    rw [List.Vector.zipWith_get, List.Vector.zipWith_get]
    exact UInt8.add_comm _ _

theorem transparent_encrypt_eq_some {key : Key} {nonce : List.Vector UInt8 xnonceLen}
    {msg aad c : Bytes} : transparent.aead.encrypt key nonce msg aad = some c ↔
      msg.length ≤ 1000 ∧ c = header key nonce aad ++ msg :=
  Option.ite_none_right_eq_some.trans (and_congr_right' ⟨fun h => (Option.some.inj h).symm,
    fun h => congrArg some h.symm⟩)

theorem transparent_opens : transparent.aead.Opens := by
  intro key nonce msg aad c h
  obtain ⟨hle, rfl⟩ := transparent_encrypt_eq_some.mp h
  have hlen := header_length key nonce aad
  show (if _ then _ else _) = _
  rw [List.take_left' hlen, List.drop_left' hlen, List.length_append, hlen]
  exact if_pos ⟨rfl, by omega⟩

theorem transparent_authentic : transparent.aead.Authentic := by
  intro key nonce msg aad c h
  obtain ⟨⟨htake, hle⟩, hmsg⟩ := Option.ite_none_right_eq_some.mp h
  obtain rfl := Option.some.inj hmsg
  refine transparent_encrypt_eq_some.mpr ⟨?_, ?_⟩
  · rw [List.length_drop]
    omega
  · rw [← htake, List.take_append_drop]

theorem transparent_committing : transparent.aead.Committing := by
  intro key key' nonce nonce' msg msg' aad aad' c h h'
  obtain ⟨-, rfl⟩ := transparent_encrypt_eq_some.mp h
  obtain ⟨-, hcat⟩ := transparent_encrypt_eq_some.mp h'
  unfold header at hcat
  rw [List.append_assoc, List.append_assoc key'.toList] at hcat
  have hlen : key.toList.length = key'.toList.length := by
    rw [key.toList_length, key'.toList_length]
  exact List.Vector.toList_injective (List.append_inj hcat hlen).1.symm

end Suite

end RealmGuard
