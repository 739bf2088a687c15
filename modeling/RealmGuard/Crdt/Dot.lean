import RealmGuard.Crdt.Hlc
import RealmGuard.Lib.BTree

/-!
# Dots and causal contexts

A `Dot` labels one add; a `DotContext` is the set of dots observed, held as a
contiguous prefix per device (`cc`) and a cloud of dots beyond it (`dc`)
(`crdt/dot.rs`). Counters are `u64`: every operation that can compute `n + 1`
takes the build profile and returns `none` when that addition panics.
-/

namespace RealmGuard

open Lib

/-- The label of one add: its author and a counter (from 1) of that author. -/
structure Dot where
  device : DeviceId
  counter : UInt64

namespace Dot

instance : LinearOrder Dot :=
  LinearOrder.lift' (fun d => toLex (d.device, d.counter)) fun a b h => by
    obtain ⟨d, c⟩ := a
    obtain ⟨d', c'⟩ := b
    simpa using h

def new (device : DeviceId) (counter : UInt64) : Dot := ⟨device, counter⟩

theorem eq_new_zero {x : Dot} (h : ¬ 0 < x.counter) : x = new x.device 0 := by
  rw [← eq_zero_of_not_pos h]
  rfl

end Dot

/-- The dots observed: per device the largest contiguous counter, and the rest. -/
structure DotContext where
  cc : BTreeMap DeviceId UInt64
  dc : BTreeSet Dot
deriving DecidableEq

namespace DotContext

def new : DotContext := ⟨.empty, .empty⟩

/-- `cc.get(&d.device).is_some_and(|&n| d.counter <= n)`. -/
def covered (cc : BTreeMap DeviceId UInt64) (dot : Dot) : Bool :=
  (cc.get? dot.device).any fun n => dot.counter ≤ n

def contains (c : DotContext) (dot : Dot) : Bool := covered c.cc dot || c.dc.contains dot

/-- `while self.dc.remove(&Dot::new(device, n + 1)) { n += 1 }`. Each round
removes a dot, so `dc.len` rounds are enough (`compactLoop_eq`). -/
def compactLoop (p : Profile) (device : DeviceId) :
    Nat → BTreeSet Dot → UInt64 → Option (BTreeSet Dot × UInt64)
  | 0, dc, n => (p.add n 1).map fun _ => (dc, n)
  | fuel + 1, dc, n => do
    let m ← p.add n 1
    if dc.contains (Dot.new device m) then
      compactLoop p device fuel (dc.remove (Dot.new device m)) m
    else
      some (dc, n)

/-- Absorb into `cc` the longest contiguous run of `dc` for `device`. -/
def compactDevice (p : Profile) (c : DotContext) (device : DeviceId) : Option DotContext := do
  let (dc, n) ← compactLoop p device c.dc.len c.dc ((c.cc.get? device).getD 0)
  some ⟨if n > 0 then c.cc.insert device n else c.cc, dc⟩

/-- Record a dot, then compact. -/
def insert (p : Profile) (c : DotContext) (dot : Dot) : Option DotContext :=
  if c.contains dot then some c
  else compactDevice p { c with dc := c.dc.insert dot } dot.device

/-- The largest counter of `device` in the cloud. -/
def maxCloud (c : DotContext) (device : DeviceId) : UInt64 :=
  (((c.dc.toList.filter fun d => d.device = device).map Dot.counter).max?).getD 0

/-- Generate and record the next dot of `device`. -/
def nextDot (p : Profile) (c : DotContext) (device : DeviceId) : Option (DotContext × Dot) := do
  let base := (c.cc.get? device).getD 0
  let counter ← p.add (max base (c.maxCloud device)) 1
  let dot := Dot.new device counter
  let c ← c.insert p dot
  some (c, dot)

/-- The union of two contexts: join the prefixes, gather the clouds, purge the
cloud of what the prefixes cover, compact each device left in it. -/
def merge (p : Profile) (c other : DotContext) : Option DotContext :=
  let cc := c.cc.upsertAll (fun entry n => max (entry.getD 0) n) other.cc
  let dc := other.dc.toList.foldl BTreeSet.insert c.dc
  let dc := dc.filter fun d => !covered cc d
  let devices := BTreeSet.ofList (dc.toList.map Dot.device)
  devices.toList.foldlM (compactDevice p) ⟨cc, dc⟩

end DotContext

end RealmGuard
