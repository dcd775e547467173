/-
Releasing guards as a batch.

`release_blocks` takes the store lock once for a list of guards.  Under the lock it
releases each object whose last reference is the guard in the list; a duplicate gives up
its primary there and then, where that is known not to be the last reference.  What is
left goes the ordinary way after the lock is free.

Dropping the last reference of a live object while the lock is held would wait for the
lock for ever, so the model does not return there.
-/
import Kvbm.Store.World

namespace Kvbm

/-- The state of the loop under the lock. -/
structure Batch (ι : Type) where
  world : World ι
  /-- The reference still held for each position. -/
  entries : List (Option InnerId)
  /-- References to be dropped after the lock is free. -/
  deferred : List InnerId
  /-- Objects taken out of their allocation and defused. -/
  toDrop : List InnerId

namespace World

variable {ι : Type} [InactiveIndex ι] (w : World ι)

/-- `target_position`: a later position overwrites an earlier one. -/
def targetPosition (blocks : List InnerId) (i : InnerId) : Option Nat :=
  if i ∈ blocks then some (blocks.length - 1 - blocks.reverse.idxOf i) else none

/-- Drop a reference while the lock is held. -/
def dropUnderLock (p : InnerId) : Option (World ι) := if 0 < w.strong p then some w else none

/-- The object is taken out of its allocation and defused. -/
def unwrap (i : InnerId) : World ι := (w.subGuard i).setReleased i

def releaseEntryAt (blocks : List InnerId) (resetOnRelease : Option Bool) :
    Nat → Nat → Batch ι → Option (Batch ι)
  | 0, _, _ => none
  | fuel + 1, idx, b =>
    match (b.entries[idx]?).join with
    | none => some b
    | some i =>
      let id := (b.world.inners i).blockId
      let w :=
        match resetOnRelease with
        | none => b.world
        | some v => { b.world with store := b.world.store.setFlag id v }
      if w.store.ownedBy id i ∧ w.strong i = 1 then
        let entries := b.entries.set idx none
        match w.store.state id with
        | .primary h handle _ =>
          (w.store.retirePrimary id h handle).map fun (absent, s) =>
            { b with
              world := ({ w with store := s }.unwrap i).markLater absent.toList
              entries := entries
              toDrop := b.toDrop ++ [i] }
        | .duplicate _ handle _ =>
          let w := { w with store := w.store.resetSlot id }.markLater [handle]
          let keepalive := (w.inners i).keepalive
          let w := (w.unwrap i).clearKeepalive i
          let b := { b with world := w, entries := entries, toDrop := b.toDrop ++ [i] }
          match keepalive with
          | none => some b
          | some p =>
            let later := { b with world := w.addGuard p, deferred := b.deferred ++ [p] }
            match targetPosition blocks p with
            | none => some later
            | some j =>
              if j < idx then
                if ((b.entries[j]?).join).isSome then
                  (w.dropUnderLock p).bind fun w =>
                    releaseEntryAt blocks resetOnRelease fuel j { b with world := w }
                else some later
              else if idx < j then
                (w.dropUnderLock p).map fun w => { b with world := w }
              else some later
        | _ => none
      else some { b with world := w }

def releaseEntries (blocks : List InnerId) (resetOnRelease : Option Bool) :
    List Nat → Batch ι → Option (Batch ι)
  | [], b => some b
  | idx :: rest, b =>
    (releaseEntryAt blocks resetOnRelease (idx + 1) idx b).bind
      (releaseEntries blocks resetOnRelease rest)

/-- What is done under the lock; the references still to be dropped are in `deferred`, those that
were not resolved last. -/
def releaseBlocksLocked (blocks : List InnerId) (resetOnRelease : Option Bool) : Option (Batch ι) :=
  (releaseEntries blocks resetOnRelease (List.range blocks.length)
    ⟨w, blocks.map some, [], []⟩).map fun b =>
      { b with entries := [], deferred := b.deferred ++ b.entries.reduceOption }

end World

end Kvbm
