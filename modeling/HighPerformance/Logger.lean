import HighPerformance.Types
import Mathlib.Data.Int.Notation
import Mathlib.Data.List.Basic

/-!
# The logger

`Logger::log` is a recursion over its arguments with a loop over the format inside. The model
follows the templates: `logText` is the overload without arguments, `logValue` the loop of the
other one, whose `rest` is the call with the remaining arguments. What is pushed to the
queue of the logger's thread is a list of elements.
-/

namespace HighPerformance

/-- The alternatives of `LogElement`; the floating point numbers are bit patterns. -/
inductive LogElement where
  | char (c : Char)
  | integer (n : ℤ)
  | longInteger (n : ℤ)
  | longLongInteger (n : ℤ)
  | unsignedInteger (n : ℕ)
  | unsignedLongInteger (n : ℕ)
  | unsignedLongLongInteger (n : ℕ)
  | float (bits : UInt32)
  | double (bits : UInt64)
  deriving DecidableEq

/-- An argument is one element or a string. -/
inductive LogArgument where
  | element (e : LogElement)
  | text (s : List Char)
  deriving DecidableEq

namespace Logger

/-- A string is pushed up to its terminating character. -/
def pushValue : LogArgument → List LogElement
  | .element e => [e]
  | .text s => (s.takeWhile (· ≠ '\x00')).map .char

def extraArguments : Fault := .fatal "extra arguments provided to log()"

def missingArguments : Fault := .fatal "missing arguments to log()"

/-- `log(const char *s)` -/
def logText : List Char → List LogElement → Except Fault (List LogElement)
  | [], queue => .ok queue
  | '%' :: '%' :: s, queue => logText s (queue ++ [.char '%'])
  | '%' :: _, _ => .error missingArguments
  | c :: s, queue => logText s (queue ++ [.char c])

/-- The loop of `log(const char *s, const T &value, A... args)`. -/
def logValue (value : LogArgument)
    (rest : List Char → List LogElement → Except Fault (List LogElement)) :
    List Char → List LogElement → Except Fault (List LogElement)
  | [], _ => .error extraArguments
  | '%' :: '%' :: s, queue => logValue value rest s (queue ++ [.char '%'])
  | '%' :: s, queue => rest s (queue ++ pushValue value)
  | c :: s, queue => logValue value rest s (queue ++ [.char c])

def log : List LogArgument → List Char → List LogElement → Except Fault (List LogElement)
  | [] => logText
  | value :: args => logValue value (log args)

/-! ## What a format means -/

inductive Piece where
  | literal (c : Char)
  | placeholder
  deriving DecidableEq

/-- The pieces of a format: a doubled percent sign is a literal one. -/
def pieces : List Char → List Piece
  | [] => []
  | '%' :: '%' :: s => .literal '%' :: pieces s
  | '%' :: s => .placeholder :: pieces s
  | c :: s => .literal c :: pieces s

def placeholders (s : List Char) : ℕ := (pieces s).count .placeholder

/-- The text with the arguments in the places of the placeholders. -/
def fill : List Piece → List LogArgument → List LogElement
  | [], _ => []
  | .literal c :: ps, args => .char c :: fill ps args
  | .placeholder :: ps, [] => fill ps []
  | .placeholder :: ps, a :: args => pushValue a ++ fill ps args

/-- What a call returns, and which of the two failures it ends with. -/
def outcome (args : List LogArgument) (s : List Char) (queue : List LogElement) :
    Except Fault (List LogElement) :=
  if placeholders s = args.length then .ok (queue ++ fill (pieces s) args)
  else .error (if placeholders s < args.length then extraArguments else missingArguments)

section Pieces
variable {args : List LogArgument} {queue : List LogElement} {s : List Char} {c : Char}

theorem pieces_placeholder (h : ∀ t, s ≠ '%' :: t) :
    pieces ('%' :: s) = .placeholder :: pieces s := by
  cases s with
  | nil => rfl
  | cons c s =>
    have hc : c ≠ '%' := fun hc => h s (by rw [hc])
    simp [pieces, hc]

theorem pieces_literal (h : c ≠ '%') : pieces (c :: s) = .literal c :: pieces s := by
  simp [pieces, h]

theorem outcome_literal {t : List Char} (h : pieces t = .literal c :: pieces s) :
    outcome args t queue = outcome args s (queue ++ [.char c]) := by
  have hcount : placeholders t = placeholders s := by
    have hne : Piece.literal c ≠ .placeholder := by simp
    rw [placeholders, h, List.count_cons_of_ne hne, placeholders]
  rw [outcome, outcome, hcount, h, fill, List.append_assoc, List.singleton_append]

theorem outcome_placeholder {t : List Char} {value : LogArgument}
    (h : pieces t = .placeholder :: pieces s) :
    outcome (value :: args) t queue = outcome args s (queue ++ pushValue value) := by
  have hcount : placeholders t = placeholders s + 1 := by
    rw [placeholders, h, List.count_cons_self, placeholders]
  simp only [outcome, hcount, List.length_cons, Nat.add_right_cancel_iff, Nat.add_lt_add_iff_right,
    h, fill, List.append_assoc]

end Pieces

theorem logText_eq (s : List Char) (queue : List LogElement) :
    logText s queue = outcome [] s queue := by
  fun_induction logText s queue with
  | case1 queue => simp [outcome, placeholders, pieces, fill]
  | case2 s queue ih =>
    rw [ih]
    exact (outcome_literal rfl).symm
  | case3 s queue hs =>
    have hplace : placeholders ('%' :: s) ≠ 0 := by
      rw [placeholders, pieces_placeholder fun t ht => hs t ht, List.count_cons_self]
      omega
    rw [outcome, List.length_nil, if_neg hplace, if_neg (Nat.not_lt_zero _)]
  | case4 c s queue h1 h2 ih =>
    rw [ih]
    exact (outcome_literal (pieces_literal fun hc => h2 hc)).symm

theorem logValue_eq {args : List LogArgument} {value : LogArgument}
    {rest : List Char → List LogElement → Except Fault (List LogElement)}
    (hrest : ∀ s queue, rest s queue = outcome args s queue) (s : List Char)
    (queue : List LogElement) : logValue value rest s queue = outcome (value :: args) s queue := by
  fun_induction logValue value rest s queue with
  | case1 queue => simp [outcome, placeholders, pieces]
  | case2 s queue ih =>
    rw [ih]
    exact (outcome_literal rfl).symm
  | case3 s queue hs =>
    rw [hrest]
    exact (outcome_placeholder (pieces_placeholder fun t ht => hs t ht)).symm
  | case4 c s queue h1 h2 ih =>
    rw [ih]
    exact (outcome_literal (pieces_literal fun hc => h2 hc)).symm

theorem log_eq (args : List LogArgument) (s : List Char) (queue : List LogElement) :
    log args s queue = outcome args s queue := by
  induction args generalizing s queue with
  | nil => exact logText_eq s queue
  | cons value args ih => exact logValue_eq ih s queue

end Logger

end HighPerformance
