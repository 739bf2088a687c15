import Mathlib.Data.List.Lex
import RealmGuard.Crypto.Suite
import RealmGuard.Lib.UInt

/-!
# The AEAD envelope

A `Ciphertext` (`crypto/aead.rs`) is a version, a nonce and sealed data; the version is
authenticated as associated data. `seal_eq_ok` and `open_eq_ok` say what sealing and
opening do. An envelope that was `Sealed` under a key opens under that key
(`open_of_sealed`), and under no key it was not sealed under (`Sealed.open_eq`);
nothing else opens (`sealed_of_open`).
-/

namespace RealmGuard

open Lib.Postcard (Wire Fits Tight)

/-- `1` is XChaCha20-Poly1305. -/
def aeadVersion : UInt8 := 1

/-- Version, nonce and sealed data, tag included. -/
structure Ciphertext where
  version : UInt8
  nonce : List.Vector UInt8 xnonceLen
  ciphertext : Bytes

namespace Ciphertext

def fields : Ciphertext ≃ UInt8 × List.Vector UInt8 xnonceLen × Bytes where
  toFun c := (c.version, c.nonce, c.ciphertext)
  invFun q := ⟨q.1, q.2.1, q.2.2⟩

instance : Wire Ciphertext := .ofEquiv fields

instance : Tight Ciphertext := .ofEquiv fields

instance : LinearOrder Ciphertext :=
  LinearOrder.lift' (fun c => toLex (c.version, toLex (c.nonce.toList, c.ciphertext)))
    fun a b h => by
      obtain ⟨v, ⟨n, hn⟩, l⟩ := a
      obtain ⟨v', ⟨n', hn'⟩, l'⟩ := b
      obtain ⟨rfl, rfl, rfl⟩ : v = v' ∧ n = n' ∧ l = l' := by simpa using h
      rfl

/-- Sealed data that a `usize` can measure. -/
theorem fits {c : Ciphertext} (h : c.ciphertext.length < 2 ^ 64) : Fits c :=
  ⟨trivial, fun _ _ => trivial, h, fun _ _ => trivial⟩

end Ciphertext

variable {aead : Aead} {key key' : Key} {nonce : List.Vector UInt8 xnonceLen}
  {draw : Draw xnonceLen} {m m' : Bytes} {c : Ciphertext}

/-- Seal `plaintext` under `key` with a drawn nonce. -/
def Aead.seal (aead : Aead) (draw : Draw xnonceLen) (key : Key) (plaintext : Bytes) :
    Except Error Ciphertext := do
  let cipher ← orCrypto "clé AEAD invalide" (newFromSlice key.toList)
  let nonce ← getrandom draw
  let ciphertext ← orCrypto "échec du chiffrement"
    (aead.encrypt cipher nonce plaintext [aeadVersion])
  pure ⟨aeadVersion, nonce, ciphertext⟩

/-- Authenticate and decrypt. -/
def Aead.open (aead : Aead) (key : Key) (c : Ciphertext) : Except Error Bytes := do
  if c.version ≠ aeadVersion then throw (.crypto "version AEAD inconnue")
  let cipher ← orCrypto "clé AEAD invalide" (newFromSlice key.toList)
  orCrypto "authentification échouée" (aead.decrypt cipher c.nonce c.ciphertext [c.version])

namespace Aead

@[simp] theorem newFromSlice_key (key : Key) : newFromSlice key.toList = some key :=
  tryInto_toList key

/-- The envelope was sealed under `key`, from `m`. -/
def Sealed (aead : Aead) (key : Key) (m : Bytes) (c : Ciphertext) : Prop :=
  aead.seal (.ok c.nonce) key m = .ok c

/-- No envelope in `made` was sealed under two of the keys. -/
def CommittingOn (aead : Aead) (keys : Set Key) (made : Set Ciphertext) : Prop :=
  ∀ c ∈ made, ∀ key ∈ keys, ∀ key' ∈ keys, ∀ m m',
    aead.Sealed key m c → aead.Sealed key' m' c → key' = key

theorem seal_eq_ok : aead.seal draw key m = .ok c ↔
    ∃ nonce data, draw = .ok nonce ∧ aead.encrypt key nonce m [aeadVersion] = some data ∧
      ⟨aeadVersion, nonce, data⟩ = c := by
  unfold Aead.seal
  rw [newFromSlice_key]
  simp

theorem open_eq_ok : aead.open key c = .ok m ↔
    c.version = aeadVersion ∧ aead.decrypt key c.nonce c.ciphertext [aeadVersion] = some m := by
  unfold Aead.open
  rw [newFromSlice_key]
  by_cases hv : c.version = aeadVersion
  · rw [if_neg (not_not.mpr hv), hv, and_iff_right rfl]
    exact orCrypto_eq_ok
  · rw [if_pos hv]
    exact iff_of_false (fun h => nomatch h) fun h => hv h.1

theorem exists_seal (nonce : List.Vector UInt8 xnonceLen) (key : Key)
    (h : m.length ≤ aead.maxLen) : ∃ c, aead.seal (.ok nonce) key m = .ok c := by
  obtain ⟨data, hdata⟩ := Option.isSome_iff_exists.mp
    ((aead.isSome_encrypt key nonce m [aeadVersion]).mpr h)
  exact ⟨_, seal_eq_ok.mpr ⟨nonce, data, rfl, hdata, rfl⟩⟩

/-- What was sealed, and its envelope, a `usize` can measure. -/
theorem Sealed.length_lt (h : aead.Sealed key m c) :
    m.length < 2 ^ 64 ∧ c.ciphertext.length < 2 ^ 64 := by
  obtain ⟨nonce, data, -, henc, rfl⟩ := seal_eq_ok.mp h
  have hlen := aead.length_encrypt _ _ _ _ _ henc
  have hmax := (aead.isSome_encrypt _ _ _ _).mp (Option.isSome_iff_exists.mpr ⟨data, henc⟩)
  have hlt := aead.maxLen_lt
  show m.length < 2 ^ 64 ∧ data.length < 2 ^ 64
  omega

theorem Sealed.fits (h : aead.Sealed key m c) : Fits c := Ciphertext.fits h.length_lt.2

theorem open_of_sealed (hopens : aead.Opens) (h : aead.Sealed key m c) :
    aead.open key c = .ok m := by
  obtain ⟨nonce, data, -, henc, rfl⟩ := seal_eq_ok.mp h
  exact open_eq_ok.mpr ⟨rfl, hopens _ _ _ _ _ henc⟩

theorem sealed_of_open (hauth : aead.Authentic) (h : aead.open key c = .ok m) :
    aead.Sealed key m c := by
  obtain ⟨hv, hdec⟩ := open_eq_ok.mp h
  refine seal_eq_ok.mpr ⟨c.nonce, c.ciphertext, rfl, hauth _ _ _ _ _ hdec, ?_⟩
  rw [← hv]

/-- Whatever nonce was drawn. -/
theorem sealed_of_seal (h : aead.seal draw key m = .ok c) : aead.Sealed key m c := by
  obtain ⟨nonce, data, -, henc, rfl⟩ := seal_eq_ok.mp h
  exact seal_eq_ok.mpr ⟨nonce, data, rfl, henc, rfl⟩

theorem Sealed.key_eq (hcom : aead.Committing) (h : aead.Sealed key m c)
    (h' : aead.Sealed key' m' c) : key' = key := by
  obtain ⟨nonce, data, -, henc, rfl⟩ := seal_eq_ok.mp h
  obtain ⟨nonce', data', -, henc', hc⟩ := seal_eq_ok.mp h'
  obtain rfl : data' = data := congrArg Ciphertext.ciphertext hc
  exact hcom _ _ _ _ _ _ _ _ _ henc henc'

theorem Committing.on (hcom : aead.Committing) (keys : Set Key) (made : Set Ciphertext) :
    aead.CommittingOn keys made := fun _ _ _ _ _ _ _ _ h h' => h.key_eq hcom h'

theorem CommittingOn.mono {keys keys' : Set Key} {made made' : Set Ciphertext}
    (hcom : aead.CommittingOn keys' made') (hkeys : keys ⊆ keys') (hmade : made ⊆ made') :
    aead.CommittingOn keys made :=
  fun c hc key hkey key' hkey' => hcom c (hmade hc) key (hkeys hkey) key' (hkeys hkey')

/-- An envelope that was not sealed under another key opens under its own only. -/
theorem Sealed.open_eq (hopens : aead.Opens) (hauth : aead.Authentic)
    (h : aead.Sealed key m c) (hkey : ∀ m', aead.Sealed key' m' c → key' = key) :
    aead.open key' c =
      if key' = key then .ok m else .error (.crypto "authentification échouée") := by
  by_cases hk : key' = key
  · rw [if_pos hk, hk]
    exact open_of_sealed hopens h
  · rw [if_neg hk]
    have hnone : aead.decrypt key' c.nonce c.ciphertext [aeadVersion] = none := by
      refine Option.eq_none_iff_forall_ne_some.mpr fun m' hm' => hk ?_
      have hv : c.version = aeadVersion := by
        obtain ⟨_, _, -, -, rfl⟩ := seal_eq_ok.mp h
        rfl
      exact hkey m' (sealed_of_open hauth (open_eq_ok.mpr ⟨hv, hm'⟩))
    obtain ⟨nonce, data, -, -, rfl⟩ := seal_eq_ok.mp h
    unfold Aead.open
    rw [newFromSlice_key]
    show orCrypto _ (aead.decrypt key' nonce data [aeadVersion]) = _
    rw [hnone]
    rfl

end Aead

end RealmGuard
