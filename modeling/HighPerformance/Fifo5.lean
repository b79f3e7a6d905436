import HighPerformance.Fifo3

/-!
# The queue with proxies

`Fifo5` as `Fifo4`, where `push()` and `pop()` return a proxy through which the caller
accesses the element. A proxy is null when the queue is full, or empty; else
it has a cursor, and its destructor stores a cursor into the queue unless
`release()` was called. The destructor of `popper_t` stores `_pushCursor`, as that of
`pusher_t` does; nothing stores `_popCursor`.
-/

namespace HighPerformance
open FallibleRun

structure Fifo5 (T : Type) where
  capacity : ℕ
  ring : ℕ → T
  pushCursor : ℕ := 0
  cachedPopCursor : ℕ := 0
  popCursor : ℕ := 0
  cachedPushCursor : ℕ := 0

/-- A completed operation: `push(value)` and `pop(value)`, and the use of a proxy that
is filled or read and then destroyed, or released. -/
inductive Fifo5Call (T : Type) where
  | push (value : T)
  | pop
  | fillPusher (value : T)
  | releasePusher (value : Option T)
  | readPopper
  | releasePopper

inductive Fifo5Result (T : Type) where
  | pushed (ok : Bool)
  | popped (value : Option T)
  deriving DecidableEq

namespace Fifo5
variable {T : Type}

def full (q : Fifo5 T) (pushCursor popCursor : ℕ) : Bool :=
  Fifo3.difference pushCursor popCursor == q.capacity

def empty (pushCursor popCursor : ℕ) : Bool := pushCursor == popCursor

def element (q : Fifo5 T) (cursor : ℕ) : ℕ := cursor % q.capacity

def size (q : Fifo5 T) : ℕ := Fifo3.difference q.pushCursor q.popCursor

/-- `push()`. -/
def pusher (q : Fifo5 T) : Option ℕ × Fifo5 T :=
  if q.full q.pushCursor q.cachedPopCursor then
    let q := { q with cachedPopCursor := q.popCursor }
    if q.full q.pushCursor q.cachedPopCursor then (none, q) else (some q.pushCursor, q)
  else (some q.pushCursor, q)

def assign (q : Fifo5 T) (cursor : ℕ) (value : T) : Fifo5 T :=
  { q with ring := Function.update q.ring (q.element cursor) value }

def get (q : Fifo5 T) (cursor : ℕ) : T := q.ring (q.element cursor)

def destroyPusher (q : Fifo5 T) (cursor : ℕ) : Fifo5 T :=
  { q with pushCursor := (cursor + 1) % 2 ^ 64 }

def push (q : Fifo5 T) (value : T) : Bool × Fifo5 T :=
  match q.pusher with
  | (some cursor, q) => (true, (q.assign cursor value).destroyPusher cursor)
  | (none, q) => (false, q)

/-- `pop()`. -/
def popper (q : Fifo5 T) : Option ℕ × Fifo5 T :=
  if empty q.cachedPushCursor q.popCursor then
    let q := { q with cachedPushCursor := q.pushCursor }
    if empty q.cachedPushCursor q.popCursor then (none, q) else (some q.popCursor, q)
  else (some q.popCursor, q)

def destroyPopper (q : Fifo5 T) (cursor : ℕ) : Fifo5 T :=
  { q with pushCursor := (cursor + 1) % 2 ^ 64 }

def pop (q : Fifo5 T) : Option T × Fifo5 T :=
  match q.popper with
  | (some cursor, q) => (some (q.get cursor), q.destroyPopper cursor)
  | (none, q) => (none, q)

/-- The proxy is filled, if at all, and released. -/
def releasePusher (q : Fifo5 T) (value : Option T) : Bool × Fifo5 T :=
  match q.pusher, value with
  | (some cursor, q), some value => (true, q.assign cursor value)
  | (some _, q), none => (true, q)
  | (none, q), _ => (false, q)

/-- The proxy is read and released. -/
def releasePopper (q : Fifo5 T) : Option T × Fifo5 T :=
  match q.popper with
  | (some cursor, q) => (some (q.get cursor), q)
  | (none, q) => (none, q)

def call (q : Fifo5 T) : Fifo5Call T → Fifo5Result T × Fifo5 T
  | .push value | .fillPusher value => ((.pushed (q.push value).1), (q.push value).2)
  | .releasePusher value => (.pushed (q.releasePusher value).1, (q.releasePusher value).2)
  | .pop | .readPopper => (.popped q.pop.1, q.pop.2)
  | .releasePopper => (.popped q.releasePopper.1, q.releasePopper.2)

def step (q : Fifo5 T) (c : Fifo5Call T) : Fifo5 T := (q.call c).2

def init (capacity : ℕ) (ring : ℕ → T) : Fifo5 T := { capacity := capacity, ring := ring }

end Fifo5

namespace Fifo5Call
variable {T : Type}

/-- What a bounded queue holds, the oldest value first. -/
def deliver (capacity : ℕ) (held : List T) : Fifo5Call T → List T
  | .push value | .fillPusher value =>
      if held.length = capacity then held else held ++ [value]
  | .pop | .readPopper => held.tail
  | .releasePusher _ | .releasePopper => held

def held (capacity : ℕ) (calls : List (Fifo5Call T)) : List T :=
  calls.foldl (deliver capacity) []

/-- A push fails when the queue is full, a pop when it is empty, and else a pop
gives the oldest value. -/
def expected (capacity : ℕ) (held : List T) : Fifo5Call T → Fifo5Result T
  | .push _ | .fillPusher _ | .releasePusher _ => .pushed (held.length ≠ capacity)
  | .pop | .readPopper | .releasePopper => .popped held.head?

/-- A popper is destroyed. -/
def commitsPop : Fifo5Call T → Bool
  | .pop | .readPopper => true
  | _ => false

def reads : Fifo5Call T → Bool
  | .pop | .readPopper | .releasePopper => true
  | _ => false

/-- A popper was destroyed when the queue held two values that differ. -/
def Stale (capacity : ℕ) (calls : List (Fifo5Call T)) : Prop :=
  ∃ before c v w, before ++ [c] <+: calls ∧ c.commitsPop = true ∧
    held capacity before = [v, w] ∧ v ≠ w

/-- A popper that has an element is destroyed only when the queue holds exactly two
values, and if these differ nothing is read from then on. -/
def Allowed (capacity : ℕ) (done : List (Fifo5Call T)) (c : Fifo5Call T) : Prop :=
  held capacity done ≠ [] →
    (c.commitsPop = true → (held capacity done).length = 2) ∧
    (c.reads = true → ¬Stale capacity done)

section Calls
variable {n : ℕ} {done : List (Fifo5Call T)} {c : Fifo5Call T}

theorem held_concat : held n (done ++ [c]) = deliver n (held n done) c := by
  rw [held, List.foldl_append]
  rfl

theorem stale_nil : ¬Stale n ([] : List (Fifo5Call T)) := by
  rintro ⟨before, c, v, w, hprefix, -⟩
  simp at hprefix

theorem stale_concat : Stale n (done ++ [c]) ↔
    (c.commitsPop = true ∧ ∃ v w, held n done = [v, w] ∧ v ≠ w) ∨ Stale n done := by
  constructor
  · rintro ⟨before, d, v, w, hprefix, hcommits, hheld⟩
    rcases List.prefix_concat_iff.mp hprefix with heq | hold
    · obtain ⟨rfl, hd⟩ := List.append_inj' heq rfl
      cases hd
      exact .inl ⟨hcommits, v, w, hheld⟩
    · exact .inr ⟨before, d, v, w, hold, hcommits, hheld⟩
  · rintro (⟨hcommits, v, w, hheld⟩ | ⟨before, d, v, w, hprefix, hheld⟩)
    · exact ⟨done, c, v, w, List.prefix_refl _, hcommits, hheld⟩
    · exact ⟨before, d, v, w, hprefix.trans (List.prefix_append _ _), hheld⟩

theorem stale_concat_of_not_commits (hc : c.commitsPop = false) :
    Stale n (done ++ [c]) ↔ Stale n done := by
  simp [stale_concat, hc]

end Calls

end Fifo5Call

namespace Fifo5
open Fifo5Call
variable {T : Type}

/-- `_popCursor` stays at 0, and slot 0 has the oldest value unless a popper that was
destroyed has left a value behind. -/
structure Rep (n : ℕ) (done : List (Fifo5Call T)) (q : Fifo5 T) : Prop where
  capacity : q.capacity = n
  popCursor : q.popCursor = 0
  cachedPopCursor : q.cachedPopCursor = 0
  pushCursor : q.pushCursor = (held n done).length
  le : (held n done).length ≤ n
  cachedPushCursor : q.cachedPushCursor ≠ 0 → held n done ≠ []
  front : ∀ v, (held n done).head? = some v → (q.ring 0 = v ↔ ¬Stale n done)
  stale : Stale n done → held n done ≠ []

section Steps
variable {n : ℕ} {done : List (Fifo5Call T)} {q : Fifo5 T}

theorem rep_init (n : ℕ) (ring : ℕ → T) : Rep n [] (init n ring) := by
  constructor
  · rfl
  · rfl
  · rfl
  · rfl
  · exact Nat.zero_le n
  · intro hne
    exact (hne rfl).elim
  · intro v hv
    cases hv
  · intro hstale
    exact (stale_nil hstale).elim

theorem Rep.size (h : Rep n done q) (hn : n < 2 ^ 64) : q.size = (held n done).length := by
  rw [Fifo5.size, h.pushCursor, h.popCursor,
    Fifo3.difference_eq (Nat.zero_le _) (Nat.lt_of_le_of_lt h.le hn), Nat.sub_zero]

theorem Rep.full_iff (h : Rep n done q) (hn : n < 2 ^ 64) :
    q.full q.pushCursor 0 = true ↔ (held n done).length = n := by
  rw [full, h.pushCursor, h.capacity,
    Fifo3.difference_eq (Nat.zero_le _) (Nat.lt_of_le_of_lt h.le hn), Nat.sub_zero, beq_iff_eq]

theorem Rep.pusher_of_full (h : Rep n done q) (hn : n < 2 ^ 64)
    (hfull : (held n done).length = n) : q.pusher = (none, q) := by
  have htrue := (h.full_iff hn).mpr hfull
  have hsame : { q with cachedPopCursor := q.popCursor } = q :=
    congrArg (fun c => { q with cachedPopCursor := c }) (h.popCursor.trans h.cachedPopCursor.symm)
  unfold pusher
  rw [hsame, h.cachedPopCursor, if_pos htrue]
  simp only [h.cachedPopCursor, htrue, if_true]

theorem Rep.pusher_of_room (h : Rep n done q) (hn : n < 2 ^ 64)
    (hroom : (held n done).length ≠ n) : q.pusher = (some (held n done).length, q) := by
  unfold pusher
  rw [h.cachedPopCursor, if_neg (mt (h.full_iff hn).mp hroom), h.pushCursor]

theorem Rep.popper_of_nil (h : Rep n done q) (hnil : held n done = []) :
    q.popper = (none, q) := by
  have hcached : q.cachedPushCursor = 0 := by
    by_contra hne
    exact h.cachedPushCursor hne hnil
  have hpush : q.pushCursor = 0 := by rw [h.pushCursor, hnil, List.length_nil]
  have hsame : { q with cachedPushCursor := q.pushCursor } = q :=
    congrArg (fun c => { q with cachedPushCursor := c }) (hpush.trans hcached.symm)
  have hempty : empty q.cachedPushCursor q.popCursor = true := by
    rw [hcached, h.popCursor]
    rfl
  unfold popper
  rw [hsame, if_pos hempty]
  simp only [hempty, if_true]

theorem Rep.popper_of_ne_nil (h : Rep n done q) (hne : held n done ≠ []) :
    ∃ cached, q.popper = (some q.popCursor, { q with cachedPushCursor := cached }) := by
  have hpush : ¬empty q.pushCursor q.popCursor = true := by
    rw [empty, beq_iff_eq, h.pushCursor, h.popCursor, List.length_eq_zero_iff]
    exact hne
  unfold popper
  by_cases hcached : empty q.cachedPushCursor q.popCursor = true
  · refine ⟨q.pushCursor, ?_⟩
    rw [if_pos hcached]
    simp only [if_neg hpush]
  · refine ⟨q.cachedPushCursor, ?_⟩
    rw [if_neg hcached]

/-- What is written into the next slot is not the oldest value, unless it is the
only one. -/
theorem Rep.assign (h : Rep n done q) (hroom : (held n done).length ≠ n) (value : T)
    (hne : held n done ≠ []) : (q.assign (held n done).length value).ring 0 = q.ring 0 := by
  have hle := h.le
  have hpos : 0 < (held n done).length := List.length_pos_iff.mpr hne
  apply Function.update_of_ne
  rw [element, h.capacity, Nat.mod_eq_of_lt (by omega)]
  omega

theorem Rep.push (h : Rep n done q) (hn : n < 2 ^ 64) {c : Fifo5Call T} {value : T}
    (hcommits : c.commitsPop = false)
    (hdeliver : deliver n (held n done) c =
      if (held n done).length = n then held n done else held n done ++ [value]) :
    (q.push value).1 = decide ((held n done).length ≠ n) ∧
      Rep n (done ++ [c]) (q.push value).2 := by
  have hstale : Stale n (done ++ [c]) ↔ Stale n done := stale_concat_of_not_commits hcommits
  by_cases hfull : (held n done).length = n
  · rw [if_pos hfull] at hdeliver
    rw [Fifo5.push, h.pusher_of_full hn hfull]
    refine ⟨by simp [hfull], ?_⟩
    constructor
    · exact h.capacity
    · exact h.popCursor
    · exact h.cachedPopCursor
    · rw [held_concat, hdeliver]
      exact h.pushCursor
    · rw [held_concat, hdeliver]
      exact h.le
    · rw [held_concat, hdeliver]
      exact h.cachedPushCursor
    · rw [held_concat, hdeliver, hstale]
      exact h.front
    · rw [held_concat, hdeliver, hstale]
      exact h.stale
  · rw [if_neg hfull] at hdeliver
    rw [Fifo5.push, h.pusher_of_room hn hfull]
    refine ⟨by simp [hfull], ?_⟩
    have hle := h.le
    have hlen : (held n done ++ [value]).length = (held n done).length + 1 := by
      rw [List.length_append, List.length_singleton]
    have hne : held n done ++ [value] ≠ [] := List.append_ne_nil_of_right_ne_nil _ (by simp)
    constructor
    · exact h.capacity
    · exact h.popCursor
    · exact h.cachedPopCursor
    · rw [held_concat, hdeliver, hlen]
      exact Nat.mod_eq_of_lt (by omega)
    · rw [held_concat, hdeliver, hlen]
      omega
    · rw [held_concat, hdeliver]
      exact fun _ => hne
    · rw [held_concat, hdeliver, hstale]
      intro v hv
      by_cases hnil : held n done = []
      · -- The value is the first one.
        rw [hnil] at hv
        cases hv
        have hfresh : ¬Stale n done := fun hs => h.stale hs hnil
        simp only [hfresh, not_false_eq_true, iff_true]
        change Function.update q.ring (q.element _) value 0 = value
        rw [hnil, element, List.length_nil, Nat.zero_mod, Function.update_self]
      · rw [List.head?_append_of_ne_nil _ hnil] at hv
        rw [← h.front v hv]
        change (q.assign _ value).ring 0 = v ↔ _
        rw [h.assign hfull value hnil]
    · rw [held_concat, hdeliver]
      exact fun _ => hne

/-- A call that leaves what is held as it is, and changes no more than the next
slot and the copy of `_pushCursor`. -/
theorem Rep.unchanged (h : Rep n done q) {q' : Fifo5 T} {c : Fifo5Call T}
    (hdeliver : deliver n (held n done) c = held n done)
    (hstale : Stale n (done ++ [c]) ↔ Stale n done) (hcapacity : q'.capacity = q.capacity)
    (hpopCursor : q'.popCursor = q.popCursor)
    (hcachedPop : q'.cachedPopCursor = q.cachedPopCursor)
    (hpushCursor : q'.pushCursor = q.pushCursor)
    (hcached : q'.cachedPushCursor ≠ 0 → held n done ≠ [])
    (hring : held n done ≠ [] → q'.ring 0 = q.ring 0) : Rep n (done ++ [c]) q' := by
  constructor
  · exact hcapacity.trans h.capacity
  · exact hpopCursor.trans h.popCursor
  · exact hcachedPop.trans h.cachedPopCursor
  · rw [held_concat, hdeliver, hpushCursor]
    exact h.pushCursor
  · rw [held_concat, hdeliver]
    exact h.le
  · rw [held_concat, hdeliver]
    exact hcached
  · rw [held_concat, hdeliver, hstale]
    intro v hv
    have hne : held n done ≠ [] := by
      rintro hnil
      rw [hnil] at hv
      cases hv
    rw [hring hne]
    exact h.front v hv
  · rw [held_concat, hdeliver, hstale]
    exact h.stale

theorem Rep.releasePusher (h : Rep n done q) (hn : n < 2 ^ 64) (value : Option T) :
    (q.releasePusher value).1 = decide ((held n done).length ≠ n) ∧
      Rep n (done ++ [.releasePusher value]) (q.releasePusher value).2 := by
  have hstale : Stale n (done ++ [.releasePusher value]) ↔ Stale n done :=
    stale_concat_of_not_commits rfl
  by_cases hfull : (held n done).length = n
  · have heq : q.releasePusher value = (false, q) := by
      simp only [Fifo5.releasePusher, h.pusher_of_full hn hfull]
    rw [heq]
    exact ⟨by simp [hfull],
      h.unchanged rfl hstale rfl rfl rfl rfl h.cachedPushCursor fun _ => rfl⟩
  · cases value with
    | none =>
      have heq : q.releasePusher none = (true, q) := by
        simp only [Fifo5.releasePusher, h.pusher_of_room hn hfull]
      rw [heq]
      exact ⟨by simp [hfull],
        h.unchanged rfl hstale rfl rfl rfl rfl h.cachedPushCursor fun _ => rfl⟩
    | some v =>
      have heq : q.releasePusher (some v) = (true, q.assign (held n done).length v) := by
        simp only [Fifo5.releasePusher, h.pusher_of_room hn hfull]
      rw [heq]
      exact ⟨by simp [hfull],
        h.unchanged rfl hstale rfl rfl rfl rfl h.cachedPushCursor (h.assign hfull v)⟩

theorem Rep.releasePopper (h : Rep n done q) :
    (q.releasePopper.1 = (held n done).head? ↔ (held n done ≠ [] → ¬Stale n done)) ∧
      Rep n (done ++ [.releasePopper]) q.releasePopper.2 := by
  have hstale : Stale n (done ++ [.releasePopper]) ↔ Stale n done :=
    stale_concat_of_not_commits rfl
  cases hheld : held n done with
  | nil =>
    have heq : q.releasePopper = (none, q) := by
      simp only [Fifo5.releasePopper, h.popper_of_nil hheld]
    rw [heq]
    exact ⟨by simp, h.unchanged rfl hstale rfl rfl rfl rfl h.cachedPushCursor fun _ => rfl⟩
  | cons v rest =>
    have hne : held n done ≠ [] := by simp [hheld]
    obtain ⟨cached, hpopper⟩ := h.popper_of_ne_nil hne
    have heq : q.releasePopper = (some (q.ring 0), { q with cachedPushCursor := cached }) := by
      simp only [Fifo5.releasePopper, hpopper, get, element, h.popCursor, Nat.zero_mod]
    rw [heq]
    refine ⟨?_, h.unchanged rfl hstale rfl rfl rfl rfl (fun _ => hne) fun _ => rfl⟩
    rw [← h.front v (by rw [hheld]; rfl)]
    simp

/-- The destructor of a popper truncates the queue to the element that was read. -/
theorem Rep.pop (h : Rep n done q) {c : Fifo5Call T} (hcommits : c.commitsPop = true)
    (hdeliver : deliver n (held n done) c = (held n done).tail) :
    (q.pop.1 = (held n done).head? ∧ q.pop.2.size = (held n done).tail.length ↔
      (held n done ≠ [] → (held n done).length = 2 ∧ ¬Stale n done)) ∧
      ((held n done ≠ [] → (held n done).length = 2 ∧ ¬Stale n done) →
        Rep n (done ++ [c]) q.pop.2) := by
  cases hheld : held n done with
  | nil =>
    have heq : q.pop = (none, q) := by
      simp only [Fifo5.pop, h.popper_of_nil hheld]
    have hsize : q.size = 0 := by
      rw [Fifo5.size, h.pushCursor, h.popCursor, hheld]
      exact Fifo3.difference_eq (Nat.le_refl 0) (Nat.two_pow_pos 64)
    rw [heq]
    refine ⟨by simp [hsize], fun _ => ?_⟩
    apply h.unchanged (by rw [hdeliver, hheld]; rfl) _ rfl rfl rfl rfl h.cachedPushCursor
      fun _ => rfl
    simp [stale_concat, hheld]
  | cons v rest =>
    have hne : held n done ≠ [] := by simp [hheld]
    have hfront := h.front v (by rw [hheld]; rfl)
    obtain ⟨cached, hpopper⟩ := h.popper_of_ne_nil hne
    have heq : q.pop = (some (q.ring 0), { q with cachedPushCursor := cached, pushCursor := 1 }) := by
      simp [Fifo5.pop, hpopper, get, element, h.popCursor, destroyPopper]
    have hsize : ({ q with cachedPushCursor := cached, pushCursor := 1 } : Fifo5 T).size = 1 := by
      simp only [Fifo5.size, h.popCursor]
      rfl
    rw [heq]
    simp only [hsize]
    refine ⟨?_, fun hallowed => ?_⟩
    · rw [List.head?_cons, Option.some.injEq, hfront, List.tail_cons, List.length_cons]
      constructor
      · rintro ⟨hfresh, hone⟩ _
        exact ⟨by rw [← hone], hfresh⟩
      · intro hallowed
        obtain ⟨htwo, hfresh⟩ := hallowed (List.cons_ne_nil _ _)
        exact ⟨hfresh, (Nat.succ.inj htwo).symm⟩
    · obtain ⟨htwo, hfresh⟩ := hallowed (List.cons_ne_nil _ _)
      obtain ⟨w, rfl⟩ := List.length_eq_one_iff.mp (Nat.succ.inj htwo)
      have hnext : held n (done ++ [c]) = [w] := by
        rw [held_concat, hdeliver, hheld]
        rfl
      have hle := h.le
      rw [hheld] at hle
      constructor
      · exact h.capacity
      · exact h.popCursor
      · exact h.cachedPopCursor
      · rw [hnext]
        rfl
      · rw [hnext]
        exact Nat.le_of_succ_le hle
      · rw [hnext]
        exact fun _ => List.cons_ne_nil _ _
      · rw [hnext]
        intro u hu
        cases hu
        have hread : q.ring 0 = v := hfront.mpr hfresh
        have hstale : Stale n (done ++ [c]) ↔ v ≠ w := by
          rw [stale_concat]
          simp [hcommits, hheld, hfresh]
        rw [hstale, not_not]
        change q.ring 0 = w ↔ v = w
        rw [hread]
      · rw [hnext]
        exact fun _ => List.cons_ne_nil _ _

/-- What a call returns and what `size()` is after it are right exactly when the call is
allowed, and an allowed call keeps the representation. -/
theorem Rep.call (h : Rep n done q) (hn : n < 2 ^ 64) (c : Fifo5Call T) :
    ((q.call c).1 = expected n (held n done) c ∧
        (q.call c).2.size = (held n (done ++ [c])).length ↔ Allowed n done c) ∧
      (Allowed n done c → Rep n (done ++ [c]) (q.call c).2) := by
  cases c with
  | push value =>
    obtain ⟨hresult, hrep⟩ := h.push hn (c := .push value) rfl rfl
    refine ⟨?_, fun _ => hrep⟩
    simp [Fifo5.call, expected, hresult, hrep.size hn, Allowed, commitsPop, reads]
  | fillPusher value =>
    obtain ⟨hresult, hrep⟩ := h.push hn (c := .fillPusher value) rfl rfl
    refine ⟨?_, fun _ => hrep⟩
    simp [Fifo5.call, expected, hresult, hrep.size hn, Allowed, commitsPop, reads]
  | releasePusher value =>
    obtain ⟨hresult, hrep⟩ := h.releasePusher hn value
    refine ⟨?_, fun _ => hrep⟩
    simp [Fifo5.call, expected, hresult, hrep.size hn, Allowed, commitsPop, reads]
  | releasePopper =>
    obtain ⟨hresult, hrep⟩ := h.releasePopper
    refine ⟨?_, fun _ => hrep⟩
    simp [Fifo5.call, expected, hresult, hrep.size hn, Allowed, commitsPop, reads]
  | pop =>
    have hpop := h.pop (c := .pop) rfl rfl
    rw [held_concat]
    simpa [Fifo5.call, expected, Allowed, commitsPop, reads, deliver] using hpop
  | readPopper =>
    have hpop := h.pop (c := .readPopper) rfl rfl
    rw [held_concat]
    simpa [Fifo5.call, expected, Allowed, commitsPop, reads, deliver] using hpop

end Steps

/-- In a run of completed operations every result and every size is that of a bounded queue exactly
when no popper with an element is destroyed, but for one that finds two values, equal if anything is
read later. -/
theorem run_bounded_fifo_iff (n : ℕ) (hn : n < 2 ^ 64) (ring : ℕ → T)
    (calls : List (Fifo5Call T)) :
    (∀ done c, done ++ [c] <+: calls →
      ((done.foldl step (init n ring)).call c).1 = expected n (held n done) c ∧
        ((done.foldl step (init n ring)).call c).2.size = (held n (done ++ [c])).length) ↔
      ∀ done c, done ++ [c] <+: calls → Allowed n done c := by
  apply forall_history_iff (I := fun done => Rep n done (done.foldl step (init n ring)))
  · exact rep_init n ring
  · intro done c hrep
    rw [List.foldl_append]
    exact hrep.call hn c

/-- A pop that fails, a push, a release and a push. -/
theorem pushes_bounded_fifo : 2 < 2 ^ 64 ∧ ∀ done c,
    done ++ [c] <+: [.pop, .push 10, .releasePusher (some 20), .fillPusher 30, .push 40] →
    ((done.foldl step (init 2 fun _ : ℕ => 0)).call c).1 = expected 2 (held 2 done) c ∧
      ((done.foldl step (init 2 fun _ => 0)).call c).2.size = (held 2 (done ++ [c])).length := by
  refine ⟨by decide, (run_bounded_fifo_iff 2 (by decide) _ _).mpr ?_⟩
  have hcalls : [.pop, .push 10, .releasePusher (some 20), .fillPusher 30, .push 40] =
      ((((([] : List (Fifo5Call ℕ)).concat .pop).concat (.push 10)).concat
        (.releasePusher (some 20))).concat (.fillPusher 30)).concat (.push 40) := rfl
  rw [hcalls]
  simp only [List.concat_eq_append, forall_history_concat]
  simp [Allowed, held, commitsPop, reads]

/-- The second value pushed is never popped: the first one is returned again. -/
theorem second_pop_repeats : ¬∀ done c,
    done ++ [c] <+: [.push 10, .push 20, .pop, .pop] →
    ((done.foldl step (init 2 fun _ : ℕ => 0)).call c).1 = expected 2 (held 2 done) c ∧
      ((done.foldl step (init 2 fun _ => 0)).call c).2.size = (held 2 (done ++ [c])).length := by
  intro hright
  have hpop := (hright [.push 10, .push 20, .pop] .pop (List.prefix_refl _)).1
  revert hpop
  decide

end Fifo5

end HighPerformance
