import RealmGuard.Crdt.AwSet
import RealmGuard.Crdt.Lww

/-!
# The vault document

`VaultDoc V` (`model/mod.rs`): the add-wins set of present entries and, for each
entry present or not, a map of last-writer-wins registers. Every mutator returns
the new document and the delta to propagate, itself a document.
-/

namespace RealmGuard

open Lib

/-- The sixteen bytes that name an entry. -/
structure EntryId where
  bytes : List.Vector UInt8 16

namespace EntryId

instance : LinearOrder EntryId :=
  LinearOrder.lift' (fun d => d.bytes.toList) fun a b h => by
    obtain ⟨⟨l, hl⟩⟩ := a
    obtain ⟨⟨l', hl'⟩⟩ := b
    congr

def fromBytes (bytes : List.Vector UInt8 16) : EntryId := ⟨bytes⟩

def asBytes (d : EntryId) : List.Vector UInt8 16 := d.bytes

end EntryId

/-- The entry whose bytes are all `n`. -/
def eid (n : UInt8) : EntryId := .fromBytes (List.Vector.replicate 16 n)

/-- The opaque tag of a field. -/
structure FieldId where
  tag : UInt16

namespace FieldId

instance : LinearOrder FieldId :=
  LinearOrder.lift' (fun d => d.tag) fun a b h => by
    obtain ⟨t⟩ := a
    obtain ⟨t'⟩ := b
    exact congrArg FieldId.mk h

end FieldId

structure VaultDoc (V : Type) [LinearOrder V] where
  entries : AddWinsSet EntryId
  fields : BTreeMap EntryId (BTreeMap FieldId (LwwRegister V))
deriving DecidableEq

namespace VaultDoc

variable {V : Type} [LinearOrder V]

def new : VaultDoc V := ⟨.new, .empty⟩

/-- Mark an entry present. -/
def addEntry (p : Profile) (d : VaultDoc V) (id : EntryId) (device : DeviceId) :
    Option (VaultDoc V × VaultDoc V) := do
  let (entries, delta) ← d.entries.add p id device
  some (⟨entries, d.fields⟩, ⟨delta, .empty⟩)

/-- Remove an entry; its registers are kept. -/
def removeEntry (p : Profile) (d : VaultDoc V) (id : EntryId) :
    Option (VaultDoc V × VaultDoc V) := do
  let (entries, delta) ← d.entries.remove p id
  some (⟨entries, d.fields⟩, ⟨delta, .empty⟩)

def containsEntry (d : VaultDoc V) (id : EntryId) : Bool := d.entries.contains id

def entryIds (d : VaultDoc V) : List EntryId := d.entries.elements

def len (d : VaultDoc V) : Nat := d.entries.len

def isEmpty (d : VaultDoc V) : Bool := d.entries.isEmpty

/-- The register of a field, whether or not the entry is present. -/
def register (d : VaultDoc V) (id : EntryId) (field : FieldId) : Option (LwwRegister V) :=
  (d.fields.get? id).bind fun entryFields => entryFields.get? field

/-- Write a field. The delta carries the resulting register. -/
def setField (d : VaultDoc V) (id : EntryId) (field : FieldId) (value : V) (ts : Timestamp) :
    VaultDoc V × VaultDoc V :=
  let entryFields := (d.fields.get? id).getD .empty
  let register :=
    match entryFields.get? field with
    | some reg => reg.set value ts
    | none => LwwRegister.new value ts
  (⟨d.entries, d.fields.insert id (entryFields.insert field register)⟩,
    ⟨.new, BTreeMap.empty.insert id (BTreeMap.empty.insert field register)⟩)

/-- The value of a field of a present entry. -/
def field (d : VaultDoc V) (id : EntryId) (field : FieldId) : Option V :=
  if !d.entries.contains id then none
  else do
    let fields ← d.fields.get? id
    let reg ← fields.get? field
    some reg.value

/-- The fields of an entry in ascending order, present or not. -/
def entryFields (d : VaultDoc V) (id : EntryId) : List (FieldId × V) :=
  match d.fields.get? id with
  | some fields => fields.toList.map fun q => (q.1, q.2.value)
  | none => []

def presenceContext (d : VaultDoc V) : DotContext := d.entries.context

/-- The largest `Hlc` of any register, present entries or not. -/
def maxHlc (d : VaultDoc V) : Option Hlc :=
  ((d.fields.values.flatMap fun entryFields => entryFields.values).map fun reg => reg.ts.hlc).max?

/-- The inner loop of `merge`: join the registers of one entry. -/
def mergeFields (selfFields otherFields : BTreeMap FieldId (LwwRegister V)) :
    BTreeMap FieldId (LwwRegister V) :=
  selfFields.upsertAll
    (fun selfReg otherReg =>
      match selfReg with
      | some reg => reg.merge otherReg
      | none => otherReg)
    otherFields

/-- Join another document, or a delta. -/
def merge (p : Profile) (d other : VaultDoc V) : Option (VaultDoc V) := do
  let entries ← d.entries.merge p other.entries
  some ⟨entries, d.fields.upsertAll
    (fun selfFields otherFields => mergeFields (selfFields.getD .empty) otherFields) other.fields⟩

end VaultDoc

end RealmGuard
