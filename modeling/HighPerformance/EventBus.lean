import Mathlib.Algebra.Group.Nat.Defs
import Mathlib.Algebra.Order.Group.Int
import Mathlib.Data.List.Basic
import Mathlib.Data.Nat.Notation
import Mathlib.Logic.Function.Basic

/-!
# The event bus and its subscription handles

`EventBus` keeps a list of callbacks for each message type and, in a second map,
the id of one subscription for each message type. A `SubscriptionHandle` calls
`unsubscribe` when it is destroyed. Message types are the values of `τ`, a
callback is a value of `κ`. The ids are of type `int`; counting beyond the largest
one is undefined and ends the program.

The handles are C++ objects. An `Event` is what a program can do with them; an
event that names an object that does not exist, or constructs one that does, is
no program, and the step ignores it.
-/

namespace HighPerformance

/-- `bus` says whether `bus_` is set, `id` is `id_`. -/
structure SubscriptionHandle where
  bus : Bool
  id : ℤ := -1
  deriving DecidableEq

structure EventBus (τ κ : Type) where
  subscribers : τ → Option (List κ) := fun _ => none
  typeSubscribers : List (τ × ℤ) := []
  id : ℤ := -1

inductive BusFault where
  | overflow
  deriving DecidableEq

namespace EventBus
variable {τ κ : Type} [DecidableEq τ]

/-- `++id_` -/
def nextId (id : ℤ) : Except BusFault ℤ :=
  if id < 2 ^ 31 - 1 then .ok (id + 1) else .error .overflow

/-- `type_subscribers_[t]` is assigned and the callback appended. -/
def subscribe (b : EventBus τ κ) (t : τ) (callback : κ) :
    Except BusFault (EventBus τ κ × SubscriptionHandle) := do
  let id ← nextId b.id
  return ({ subscribers := Function.update b.subscribers t
              (some ((b.subscribers t).getD [] ++ [callback]))
            typeSubscribers := (t, id) :: b.typeSubscribers.filter fun e => e.1 ≠ t
            id := id }, ⟨true, id⟩)

/-- The callbacks that `publish` invokes, in order. -/
def publish (b : EventBus τ κ) (t : τ) : List κ := (b.subscribers t).getD []

/-- The first entry with this id decides about the message type. -/
def unsubscribe (b : EventBus τ κ) (id : ℤ) : EventBus τ κ :=
  match b.typeSubscribers.find? fun e => e.2 = id with
  | none => b
  | some it => { b with
      subscribers := Function.update b.subscribers it.1 none
      typeSubscribers := b.typeSubscribers.filter fun e => e.1 ≠ it.1 }

end EventBus

namespace SubscriptionHandle
variable {τ κ : Type} [DecidableEq τ]

/-- The new handle and what is left of `other`. The last assignment of the
source is `id_ = -1`, to the new object. -/
def moveConstruct (other : SubscriptionHandle) : SubscriptionHandle × SubscriptionHandle :=
  (⟨other.bus, -1⟩, { other with bus := false })

/-- The assigned handle and what is left of `other`, which is another object. -/
def moveAssign (other : SubscriptionHandle) : SubscriptionHandle × SubscriptionHandle :=
  (⟨other.bus, other.id⟩, ⟨false, -1⟩)

/-- `~SubscriptionHandle` -/
def destroy (h : SubscriptionHandle) (b : EventBus τ κ) : EventBus τ κ :=
  if h.bus = true ∧ h.id ≠ -1 then b.unsubscribe h.id else b

end SubscriptionHandle

/-- What a program does; handles are named by numbers. -/
inductive BusEvent (τ κ : Type) where
  | subscribe (h : ℕ) (t : τ) (callback : κ)
  | moveConstruct (h other : ℕ)
  | moveAssign (h other : ℕ)
  | destroy (h : ℕ)
  | publish (t : τ)

/-- The bus and the handles that exist. -/
structure BusProgram (τ κ : Type) where
  bus : EventBus τ κ := {}
  handles : ℕ → Option SubscriptionHandle := fun _ => none

namespace BusProgram
variable {τ κ : Type} [DecidableEq τ]

def step (s : BusProgram τ κ) : BusEvent τ κ → Except BusFault (BusProgram τ κ)
  | .subscribe h t callback =>
      if s.handles h = none then do
        let r ← s.bus.subscribe t callback
        return { bus := r.1, handles := Function.update s.handles h (some r.2) }
      else .ok s
  | .moveConstruct h other =>
      match s.handles h, s.handles other with
      | none, some o =>
          .ok { s with handles := Function.update (Function.update s.handles other
              (some o.moveConstruct.2)) h (some o.moveConstruct.1) }
      | _, _ => .ok s
  | .moveAssign h other =>
      match s.handles h, s.handles other with
      | some _, some o =>
          if h = other then .ok s
          else .ok { s with handles := Function.update (Function.update s.handles other
            (some o.moveAssign.2)) h (some o.moveAssign.1) }
      | _, _ => .ok s
  | .destroy h =>
      match s.handles h with
      | some x => .ok { bus := x.destroy s.bus, handles := Function.update s.handles h none }
      | none => .ok s
  | .publish _ => .ok s

end BusProgram

end HighPerformance
