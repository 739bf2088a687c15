import RealmGuard.Crdt.Dot

/-!
# The add-wins set

`AddWinsSet E` (`crdt/awset.rs`): for each present element the dots of the adds
still active, and the context of all dots observed. `add` and `remove` return
the new set and the delta to propagate; `merge` is the join.
-/

namespace RealmGuard

open Lib

structure AddWinsSet (E : Type) [LinearOrder E] where
  entries : BTreeMap E (BTreeSet Dot)
  ctx : DotContext
deriving DecidableEq

namespace AddWinsSet

variable {E : Type} [LinearOrder E]

def new : AddWinsSet E := ⟨.empty, .new⟩

def contains (s : AddWinsSet E) (e : E) : Bool := (s.entries.get? e).isSome

def elements (s : AddWinsSet E) : List E := s.entries.keys

def len (s : AddWinsSet E) : Nat := s.entries.toList.length

def isEmpty (s : AddWinsSet E) : Bool := s.entries.toList.isEmpty

def context (s : AddWinsSet E) : DotContext := s.ctx

/-- The active dots of `e`. -/
def dots (s : AddWinsSet E) (e : E) : BTreeSet Dot := (s.entries.get? e).getD .empty

/-- `for d in ds { ctx.insert(d) }`. -/
def insertAll (p : Profile) (ctx : DotContext) (ds : BTreeSet Dot) : Option DotContext :=
  ds.toList.foldlM (DotContext.insert p) ctx

/-- Add `e` under a fresh dot of `device`; the new set and the delta, whose
context carries the superseded dots. -/
def add (p : Profile) (s : AddWinsSet E) (e : E) (device : DeviceId) :
    Option (AddWinsSet E × AddWinsSet E) := do
  let (ctx, dot) ← s.ctx.nextDot p device
  let superseded := s.dots e
  let dots := BTreeSet.empty.insert dot
  let deltaCtx ← DotContext.new.insert p dot
  let deltaCtx ← insertAll p deltaCtx superseded
  some (⟨s.entries.insert e dots, ctx⟩, ⟨BTreeMap.empty.insert e dots, deltaCtx⟩)

/-- Remove `e`; the new set and the delta: no entry, and the removed dots as context. -/
def remove (p : Profile) (s : AddWinsSet E) (e : E) : Option (AddWinsSet E × AddWinsSet E) := do
  let deltaCtx ← insertAll p DotContext.new (s.dots e)
  some (⟨s.entries.remove e, s.ctx⟩, ⟨.empty, deltaCtx⟩)

/-- The dots a merge keeps for `e`; an element left with none is dropped. -/
def mergedDots (s other : AddWinsSet E) (e : E) : Option (BTreeSet Dot) :=
  let sd := s.dots e
  let od := other.dots e
  let kept := (sd.union od).filter fun d =>
    (sd.contains d || !s.ctx.contains d) && (od.contains d || !other.ctx.contains d)
  if kept.isEmpty then none else some kept

def merge (p : Profile) (s other : AddWinsSet E) : Option (AddWinsSet E) := do
  let keys := BTreeSet.ofList (s.entries.keys ++ other.entries.keys)
  let merged := keys.toList.foldl (BTreeMap.insertIf (mergedDots s other)) .empty
  let ctx ← s.ctx.merge p other.ctx
  some ⟨merged, ctx⟩

end AddWinsSet

end RealmGuard
