/-
The registry and the stores that share it.

A registry maps a sequence hash to the one live registration of it, whichever store the
block is in.  Each store belongs to a tier, and a registration counts per tier the slots
that hold its block.  The count is written after the store lock has been released, in a
step of its own.

A registration lives as long as somebody refers to it.  Only the references of clients,
slots and marks to be made are followed, so a registration may end here while an object
or a plan still refers to it; that allows more runs than the program has.
-/
import Kvbm.Registry.Presence
import Kvbm.Store.Step

namespace Kvbm

open Function

def SlotState.handle : SlotState → Option BlockRegistrationHandle
  | .primary _ x _ => some x
  | .duplicate _ x _ => some x
  | .inactive _ x => some x
  | .held _ x => some x
  | _ => none

def SlotState.registeredHash : SlotState → Option SequenceHash
  | .primary h _ _ => some h
  | .duplicate h _ _ => some h
  | .inactive h _ => some h
  | .held h _ => some h
  | _ => none

def BlockStore.slotsUnder {ι : Type} (s : BlockStore ι) (h : SequenceHash) : Nat :=
  ((Finset.range s.slotCount).filter fun id => (s.state id).registeredHash = some h).card

/-- Some slot or some mark to be made refers to the registration. -/
def World.refersTo {ι : Type} (w : World ι) (x : BlockRegistrationHandle) : Bool :=
  x ∈ w.absents || (List.range w.store.slotCount).any fun id => (w.store.state id).handle = some x

/-- Stores `κ` over one registry. -/
structure System (κ τ ι : Type) where
  stores : κ → World ι
  /-- `BlockRegistry`: weak references to registrations. -/
  registry : SequenceHash → Option BlockRegistrationHandle
  /-- The registration has not been dropped. -/
  live : BlockRegistrationHandle → Bool
  /-- References held by clients. -/
  clients : BlockRegistrationHandle → Nat
  nextHandle : Nat
  markers : BlockRegistrationHandle → PresenceMarkers τ

inductive SystemOp (κ : Type)
  | registerSequenceHash (h : SequenceHash)
  | matchSequenceHash (h : SequenceHash)
  | cloneHandle (x : BlockRegistrationHandle)
  | dropHandle (x : BlockRegistrationHandle)
  /-- The last reference goes. -/
  | expire (x : BlockRegistrationHandle)
  /-- The destructor of a registration takes its position in the registry. -/
  | removeEntry (x : BlockRegistrationHandle)
  | store (k : κ) (op : Op)

namespace System

variable {κ τ ι : Type} (s : System κ τ ι)

def upgrade (h : SequenceHash) : Option BlockRegistrationHandle := (s.registry h).filter s.live

def addClient (x : BlockRegistrationHandle) : System κ τ ι :=
  { s with clients := update s.clients x (s.clients x + 1) }

def registerSequenceHash (h : SequenceHash) : System κ τ ι :=
  match s.upgrade h with
  | some x => s.addClient x
  | none =>
    let x : BlockRegistrationHandle := ⟨s.nextHandle, h⟩
    addClient { s with
      registry := update s.registry h (some x)
      live := update s.live x true
      markers := update s.markers x .empty
      nextHandle := s.nextHandle + 1 } x

def matchSequenceHash (h : SequenceHash) : System κ τ ι :=
  match s.upgrade h with
  | some x => s.addClient x
  | none => s

def expire (x : BlockRegistrationHandle) : System κ τ ι := { s with live := update s.live x false }

/-- `remove_entry_if_identity`: the entry may be another's by now. -/
def removeEntry (x : BlockRegistrationHandle) : System κ τ ι :=
  if s.registry x.seqHash = some x then
    { s with registry := update s.registry x.seqHash none }
  else s

variable [DecidableEq κ] [DecidableEq τ] (s : System κ τ ι)

def setStore (k : κ) (w : World ι) : System κ τ ι := { s with stores := update s.stores k w }

/-- The mark that an operation makes, as `mark_present` and `mark_absent` do. -/
def mark (tier : κ → τ) (k : κ) : Op → System κ τ ι
  | .markPresent i =>
    let x := ((s.stores k).inners i).handle
    { s with markers := update s.markers x ((s.markers x).increment (tier k)) }
  | .markAbsent x =>
    { s with markers := update s.markers x ((s.markers x).decrement (tier k)).2 }
  | _ => s

variable [Fintype κ] [InactiveIndex ι] (s : System κ τ ι)

def enabled : SystemOp κ → Bool
  | .cloneHandle x => 0 < s.clients x
  | .dropHandle x => 0 < s.clients x
  | .expire x => s.live x ∧ s.clients x = 0 ∧ ∀ k, !(s.stores k).refersTo x
  | .removeEntry x => !s.live x
  | .store _ op => ∀ x ∈ op.handles, 0 < s.clients x
  | _ => true

def step (tier : κ → τ) (s : System κ τ ι) (op : SystemOp κ) : Option (System κ τ ι) :=
  if s.enabled op then
    match op with
    | .registerSequenceHash h => some (s.registerSequenceHash h)
    | .matchSequenceHash h => some (s.matchSequenceHash h)
    | .cloneHandle x => some (s.addClient x)
    | .dropHandle x => some { s with clients := update s.clients x (s.clients x - 1) }
    | .expire x => some (s.expire x)
    | .removeEntry x => some (s.removeEntry x)
    | .store k op => ((s.stores k).step op).map fun w => (s.mark tier k op).setStore k w
  else none

/-- The presence count of a hash for a tier. -/
def presence (h : SequenceHash) (t : τ) : Nat :=
  match s.upgrade h with
  | some x => (s.markers x).count t
  | none => 0

end System

/-- New stores over an empty registry. -/
def System.Initial {κ τ C : Type} [LruCache C] (s : System κ τ (Backend C)) : Prop :=
  (∀ k, (s.stores k).Initial) ∧ s.registry = (fun _ => none) ∧ s.live = (fun _ => false) ∧
    s.clients = (fun _ => 0) ∧ s.markers = fun _ => .empty

end Kvbm
