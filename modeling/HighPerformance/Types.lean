import Mathlib.Data.Nat.Notation

/-!
# Basic types, limits and failures

The integer types of `types.h` (order, ticker and client ids, prices, quantities
and priorities) are natural numbers here; where a computation of the source can
wrap, the definition that models it reduces modulo the width.
The enumerations have an underlying fixed-width integer type in the source, so
a value read from the network may be none of the named constants. Each of these
values is an `unnamed` constant, which makes the enumeration a copy of its
underlying type.

A call of the source may also end the process or be undefined. `Fault` lists
how: `ASSERT` and `FATAL` print their text and exit, `.at` throws inside a
`noexcept` function, a null pointer is followed, or a loop never ends.
-/

namespace HighPerformance

def orderIdInvalid : ℕ := 0xFFFFFFFFFFFFFFFF
def tickerIdInvalid : ℕ := 0xFFFFFFFF
def clientIdInvalid : ℕ := 0xFFFFFFFF
def priceInvalid : ℕ := 0xFFFFFFFFFFFFFFFF
def qtyInvalid : ℕ := 0xFFFFFFFF
def priorityInvalid : ℕ := 0xFFFFFFFFFFFFFFFF

/-- All the `...ToString` functions of integer types: the largest value of the
type is printed as a word. -/
def idToString (invalid n : ℕ) : String := if n = invalid then "INVALID" else toString n

def orderIdToString (n : ℕ) : String := idToString orderIdInvalid n
def tickerIdToString (n : ℕ) : String := idToString tickerIdInvalid n
def clientIdToString (n : ℕ) : String := idToString clientIdInvalid n
def priceToString (n : ℕ) : String := idToString priceInvalid n
def qtyToString (n : ℕ) : String := idToString qtyInvalid n
def priorityToString (n : ℕ) : String := idToString priorityInvalid n

def meMaxTickers : ℕ := 8
def meMaxNumClients : ℕ := 256
def meMaxOrderIds : ℕ := 1024 * 1024
def meMaxPriceLevels : ℕ := 256

/-- `Side`, an `int8_t`: 0, 1, -1, 2 and the 252 values without a name. -/
inductive Side where
  | invalid | buy | sell | max
  | unnamed (code : Fin 252)
  deriving DecidableEq, Repr

def sideToString : Side → String
  | .buy => "BUY"
  | .sell => "SELL"
  | .invalid => "INVALID"
  | _ => "UNKNOWN"

/-- The ways in which a call of the source does not return. -/
inductive Fault where
  | assertion (msg : String)
  | fatal (msg : String)
  | nullDeref
  | outOfRange (table : String)
  | diverges
  deriving DecidableEq, Repr

/-- Following a pointer that may be null. -/
def deref {α : Type} : Option α → Except Fault α
  | some p => .ok p
  | none => .error .nullDeref

@[simp] theorem deref_some {α : Type} (p : α) : deref (some p) = .ok p := rfl
@[simp] theorem deref_none {α : Type} : deref (none : Option α) = .error .nullDeref := rfl

/-- `ASSERT(cond, msg)` -/
def assert (cond : Bool) (msg : String) : Except Fault Unit :=
  if cond then .ok () else .error (.assertion msg)

@[simp] theorem assert_true (msg : String) : assert true msg = .ok () := rfl
@[simp] theorem assert_false (msg : String) : assert false msg = .error (.assertion msg) := rfl

theorem assert_eq_ok {cond : Bool} {msg : String} {x : Unit} :
    assert cond msg = .ok x ↔ cond = true := by
  cases cond <;> simp

/-- `.at(i)` on a `std::array` of `size` elements. -/
def at? (table : String) (size i : ℕ) : Except Fault Unit :=
  if i < size then .ok () else .error (.outOfRange table)

theorem at?_lt {table : String} {size i : ℕ} (h : i < size) : at? table size i = .ok () := by
  simp [at?, h]

theorem at?_eq_ok {table : String} {size i : ℕ} {x : Unit} :
    at? table size i = .ok x ↔ i < size := by
  unfold at?
  split <;> simp [*]

theorem bind_eq_ok {ε α β : Type} {x : Except ε α} {f : α → Except ε β} {b : β} :
    x.bind f = .ok b ↔ ∃ a, x = .ok a ∧ f a = .ok b := by
  cases x with
  | error e => simp [Except.bind]
  | ok a => simp [Except.bind]

theorem map_eq_ok {ε α β : Type} {x : Except ε α} {f : α → β} {b : β} (h : x.map f = .ok b) :
    ∃ a, x = .ok a ∧ f a = b := by
  cases x with
  | error e => cases h
  | ok a => exact ⟨a, rfl, Except.ok.inj h⟩

end HighPerformance
