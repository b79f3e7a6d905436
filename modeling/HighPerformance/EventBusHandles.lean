import HighPerformance.EventBus
import HighPerformance.FallibleRun
import HighPerformance.Types
import Mathlib.Data.List.Nodup

/-!
# How long a subscription lives

The registry says what handles are for: a subscription is owned by one handle,
passes on when the handle is moved and ends with its owner. The bus agrees with
the registry only as long as no owner goes whose id was lost in a move
construction, whose message type has another subscriber, or which is assigned to,
and as long as the ids last.
-/

namespace HighPerformance.EventBus
open FallibleRun

variable {τ κ : Type}

structure Subscription (τ κ : Type) where
  number : ℕ
  type : τ
  callback : κ

/-- The subscriptions that live, oldest first, and the handles that exist with
the subscription each of them owns. -/
structure Registry (τ κ : Type) where
  live : List (Subscription τ κ) := []
  owner : ℕ → Option (Option ℕ) := fun _ => none
  count : ℕ := 0

namespace Registry

/-- The subscription of a handle ends with it. -/
def finish (a : Registry τ κ) (owned : Option ℕ) : List (Subscription τ κ) :=
  a.live.filter fun s => some s.number ≠ owned

/-- A handle takes over what another one owns. -/
def pass (a : Registry τ κ) (h other : ℕ) (owned : Option ℕ) : ℕ → Option (Option ℕ) :=
  Function.update (Function.update a.owner other (some none)) h (some owned)

def step (a : Registry τ κ) : BusEvent τ κ → Registry τ κ
  | .subscribe h t callback =>
      if a.owner h = none then
        { live := a.live ++ [⟨a.count, t, callback⟩]
          owner := Function.update a.owner h (some (some a.count))
          count := a.count + 1 }
      else a
  | .moveConstruct h other =>
      match a.owner h, a.owner other with
      | none, some owned => { a with owner := a.pass h other owned }
      | _, _ => a
  | .moveAssign h other =>
      match a.owner h, a.owner other with
      | some old, some owned =>
          if h = other then a
          else { a with live := a.finish old, owner := a.pass h other owned }
      | _, _ => a
  | .destroy h =>
      match a.owner h with
      | some owned =>
          { a with live := a.finish owned, owner := Function.update a.owner h none }
      | none => a
  | .publish _ => a

variable [DecidableEq τ]

def liveAt (a : Registry τ κ) (t : τ) : List (Subscription τ κ) := a.live.filter fun s => s.type = t

/-- What a message of type `t` has to reach. -/
def expected (a : Registry τ κ) (t : τ) : List κ := (a.liveAt t).map (·.callback)

end Registry

/-- The program and the registry side by side. -/
def both [DecidableEq τ] (x : BusProgram τ κ × Registry τ κ) (e : BusEvent τ κ) :
    Except BusFault (BusProgram τ κ × Registry τ κ) := do
  let s ← x.1.step e
  return (s, x.2.step e)

/-- Every message would reach the living subscriptions to it, in order. -/
def Delivers [DecidableEq τ] (x : BusProgram τ κ × Registry τ κ) : Prop :=
  ∀ t, x.1.bus.publish t = x.2.expected t

/-- An owner is only destroyed when it has its id and its subscription is the
only one to its message type, nothing is assigned to an owner, and no more than
`2 ^ 31` subscriptions are made. -/
def KeepsSubscribers [DecidableEq τ] (x : BusProgram τ κ × Registry τ κ) : BusEvent τ κ → Prop
  | .subscribe h _ _ => x.2.owner h = none → x.2.count < 2 ^ 31
  | .destroy h => ∀ n, x.2.owner h = some (some n) →
      (∀ o, x.1.handles h = some o → o.id ≠ -1) ∧
      ∀ s ∈ x.2.live, s.number = n → x.2.liveAt s.type = [s]
  | .moveAssign h other => h ≠ other → ∀ owned, x.2.owner other = some owned →
      ∀ n, x.2.owner h ≠ some (some n)
  | _ => True

/-- Numbers identify subscriptions, and each living one has at most one owner. -/
structure Registry.Valid (a : Registry τ κ) : Prop where
  increasing : a.live.Pairwise fun s s' => s.number < s'.number
  bound : ∀ s ∈ a.live, s.number < a.count
  owned : ∀ h n, a.owner h = some (some n) → ∃ s ∈ a.live, s.number = n
  unique : ∀ h h' n, a.owner h = some (some n) → a.owner h' = some (some n) → h = h'

/-- The handle objects as the registry knows them. -/
def HandleMatches : Option SubscriptionHandle → Option (Option ℕ) → Prop
  | none, none => True
  | some x, some none => x.bus = false
  | some x, some (some n) => x.bus = true ∧ (x.id = n ∨ x.id = -1)
  | _, _ => False

structure Linked [DecidableEq τ] (x : BusProgram τ κ × Registry τ κ) : Prop where
  valid : x.2.Valid
  delivers : Delivers x
  id : x.1.bus.id = x.2.count - 1
  types : ∀ t i, (t, i) ∈ x.1.bus.typeSubscribers ↔
    ((x.2.liveAt t).getLast?.map fun s => (s.number : ℤ)) = some i
  handle : ∀ h, HandleMatches (x.1.handles h) (x.2.owner h)

namespace Registry
variable {a : Registry τ κ} {h other : ℕ} {owned : Option ℕ} {n : ℕ} {t : τ}
  {s s' : Subscription τ κ}

theorem Valid.number_inj (hv : a.Valid) (hs : s ∈ a.live) (hs' : s' ∈ a.live)
    (he : s.number = s'.number) : s = s' := by
  have hnd : (a.live.map (·.number)).Nodup :=
    List.pairwise_map.mpr (hv.increasing.imp fun hlt => Nat.ne_of_lt hlt)
  exact List.inj_on_of_nodup_map hnd hs hs' he

theorem finish_none (a : Registry τ κ) : a.finish none = a.live := by
  simp [finish]

theorem Valid.pass (hv : a.Valid) (hne : h ≠ other) (hfree : ∀ n, a.owner h ≠ some (some n))
    (hother : a.owner other = some owned) : Valid { a with owner := a.pass h other owned } := by
  have howner : ∀ h' n, a.pass h other owned h' = some (some n) →
      (h' = h ∧ a.owner other = some (some n)) ∨
        (h' ≠ h ∧ h' ≠ other ∧ a.owner h' = some (some n)) := by
    intro h' n hn
    simp only [Registry.pass, Function.update_apply] at hn
    by_cases hh : h' = h
    · simp only [hh, if_true] at hn
      exact .inl ⟨hh, hother.trans hn⟩
    · by_cases ho : h' = other
      · simp [ho, Ne.symm hne] at hn
      · simp only [hh, ho, if_false] at hn
        exact .inr ⟨hh, ho, hn⟩
  constructor
  · exact hv.increasing
  · exact hv.bound
  · intro h' n hn
    rcases howner h' n hn with ⟨-, ho⟩ | ⟨-, -, ho⟩
    · exact hv.owned other n ho
    · exact hv.owned h' n ho
  · intro h₁ h₂ n h₁n h₂n
    rcases howner h₁ n h₁n with ⟨rfl, ho⟩ | ⟨h₁h, h₁o, ho⟩
    · rcases howner h₂ n h₂n with ⟨rfl, -⟩ | ⟨-, h₂o, ho'⟩
      · rfl
      · exact (h₂o (hv.unique _ _ n ho' ho)).elim
    · rcases howner h₂ n h₂n with ⟨rfl, ho'⟩ | ⟨-, -, ho'⟩
      · exact (h₁o (hv.unique _ _ n ho ho')).elim
      · exact hv.unique _ _ n ho ho'

theorem Valid.destroy (hv : a.Valid) (hown : a.owner h = some owned) :
    Valid { a with live := a.finish owned, owner := Function.update a.owner h none } := by
  have howner : ∀ h' n, Function.update a.owner h none h' = some (some n) →
      h' ≠ h ∧ a.owner h' = some (some n) := by
    intro h' n hn
    by_cases hh : h' = h
    · simp [hh] at hn
    · rw [Function.update_of_ne hh] at hn
      exact ⟨hh, hn⟩
  constructor
  · exact hv.increasing.filter _
  · intro s hs
    exact hv.bound s (List.mem_of_mem_filter hs)
  · intro h' n hn
    obtain ⟨hh, hold⟩ := howner h' n hn
    obtain ⟨s, hs, rfl⟩ := hv.owned h' n hold
    refine ⟨s, List.mem_filter.mpr ⟨hs, ?_⟩, rfl⟩
    simp only [ne_eq, decide_eq_true_eq]
    rintro rfl
    exact hh (hv.unique _ _ _ hold hown)
  · intro h₁ h₂ n h₁n h₂n
    exact hv.unique _ _ n (howner h₁ n h₁n).2 (howner h₂ n h₂n).2

theorem Valid.subscribe (hv : a.Valid) (t : τ) (callback : κ) :
    Valid { live := a.live ++ [⟨a.count, t, callback⟩]
            owner := Function.update a.owner h (some (some a.count)), count := a.count + 1 } := by
  have howner : ∀ h' n, Function.update a.owner h (some (some a.count)) h' = some (some n) →
      (h' = h ∧ n = a.count) ∨ (a.owner h' = some (some n) ∧ n < a.count) := by
    intro h' n hn
    by_cases hh : h' = h
    · rw [hh, Function.update_self, Option.some.injEq, Option.some.injEq] at hn
      exact .inl ⟨hh, hn.symm⟩
    · rw [Function.update_of_ne hh] at hn
      obtain ⟨s, hs, rfl⟩ := hv.owned h' n hn
      exact .inr ⟨hn, hv.bound s hs⟩
  constructor
  · rw [List.pairwise_append]
    refine ⟨hv.increasing, List.pairwise_singleton _ _, ?_⟩
    intro s hs s' hs'
    rw [List.mem_singleton.mp hs']
    exact hv.bound s hs
  · intro s hs
    rcases List.mem_append.mp hs with hs | hs
    · exact Nat.lt_succ_of_lt (hv.bound s hs)
    · rw [List.mem_singleton.mp hs]
      exact Nat.lt_succ_self _
  · intro h' n hn
    rcases howner h' n hn with ⟨-, rfl⟩ | ⟨hold, -⟩
    · exact ⟨_, List.mem_append_right _ List.mem_cons_self, rfl⟩
    · obtain ⟨s, hs, rfl⟩ := hv.owned h' n hold
      exact ⟨s, List.mem_append_left _ hs, rfl⟩
  · intro h₁ h₂ n h₁n h₂n
    rcases howner h₁ n h₁n with ⟨rfl, rfl⟩ | ⟨hold₁, hlt⟩
    · rcases howner h₂ _ h₂n with ⟨rfl, -⟩ | ⟨-, hlt⟩
      · rfl
      · omega
    · rcases howner h₂ n h₂n with ⟨-, rfl⟩ | ⟨hold₂, -⟩
      · omega
      · exact hv.unique _ _ n hold₁ hold₂

variable [DecidableEq τ]

theorem liveAt_finish (a : Registry τ κ) (o : ℕ → Option (Option ℕ)) (n : ℕ) (t : τ) :
    liveAt { a with live := a.finish (some n), owner := o } t =
      (a.liveAt t).filter fun s => s.number ≠ n := by
  simp [liveAt, finish, List.filter_filter, Bool.and_comm]

theorem mem_liveAt : s ∈ a.liveAt t ↔ s ∈ a.live ∧ s.type = t := by
  simp [liveAt]

/-- A subscription that ends is missed by the messages of its type only. -/
theorem liveAt_finish_ne (hv : a.Valid) (o : ℕ → Option (Option ℕ)) (hs : s ∈ a.live)
    (ht : t ≠ s.type) :
    liveAt { a with live := a.finish (some s.number), owner := o } t = a.liveAt t := by
  rw [liveAt_finish, List.filter_eq_self]
  intro s' hs'
  obtain ⟨hlive, rfl⟩ := mem_liveAt.mp hs'
  simp only [ne_eq, decide_eq_true_eq]
  intro he
  exact ht (congrArg (·.type) (hv.number_inj hlive hs he))

theorem length_liveAt_finish (o : ℕ → Option (Option ℕ)) (hs : s ∈ a.live) :
    (liveAt { a with live := a.finish (some s.number), owner := o } s.type).length <
      (a.liveAt s.type).length := by
  rw [liveAt_finish, List.length_filter_lt_length_iff_exists]
  exact ⟨s, mem_liveAt.mpr ⟨hs, rfl⟩, by simp⟩

end Registry

section Programs
variable [DecidableEq τ] {x : BusProgram τ κ × Registry τ κ} {h other : ℕ} {t : τ}
  {s : Subscription τ κ} {o : SubscriptionHandle}

theorem linked_init : Linked (({}, {}) : BusProgram τ κ × Registry τ κ) := by
  constructor
  · constructor
    · exact List.Pairwise.nil
    · simp
    · simp
    · simp
  · intro t
    rfl
  · rfl
  · simp [Registry.liveAt]
  · intro h
    trivial

theorem Linked.exists_handle {owned : Option ℕ} (hl : Linked x) (ho : x.2.owner h = some owned) :
    ∃ o, x.1.handles h = some o ∧ HandleMatches (some o) (some owned) := by
  have hm := hl.handle h
  rw [ho] at hm
  cases hx : x.1.handles h with
  | none =>
    rw [hx] at hm
    cases owned <;> exact hm.elim
  | some o =>
    rw [hx] at hm
    exact ⟨o, rfl, hm⟩

theorem Linked.handle_none (hl : Linked x) : x.1.handles h = none ↔ x.2.owner h = none := by
  have hm := hl.handle h
  constructor
  · intro hx
    rw [hx] at hm
    cases ho : x.2.owner h with
    | none => rfl
    | some owned =>
      rw [ho] at hm
      cases owned <;> exact hm.elim
  · intro ho
    rw [ho] at hm
    cases hx : x.1.handles h with
    | none => rfl
    | some o =>
      rw [hx] at hm
      exact hm.elim

/-- `unsubscribe` finds the last subscription to a type and then drops the whole
type; an earlier one it does not find. -/
theorem Linked.unsubscribe_spec (hl : Linked x) (hs : s ∈ x.2.live) :
    ((x.2.liveAt s.type).getLast? = some s ∧ x.1.bus.unsubscribe s.number = { x.1.bus with
        subscribers := Function.update x.1.bus.subscribers s.type none
        typeSubscribers := x.1.bus.typeSubscribers.filter fun e => e.1 ≠ s.type }) ∨
    ((x.2.liveAt s.type).getLast? ≠ some s ∧ x.1.bus.unsubscribe s.number = x.1.bus) := by
  unfold unsubscribe
  cases hfind : x.1.bus.typeSubscribers.find? fun e => e.2 = (s.number : ℤ) with
  | none =>
    right
    refine ⟨fun hlast => ?_, rfl⟩
    have hmem : (s.type, (s.number : ℤ)) ∈ x.1.bus.typeSubscribers := by
      rw [hl.types, hlast]
      rfl
    rw [List.find?_eq_none] at hfind
    simpa using hfind _ hmem
  | some it =>
    left
    have hmem := List.mem_of_find?_eq_some hfind
    have hid : it.2 = (s.number : ℤ) := by simpa using List.find?_some hfind
    have hlast := (hl.types it.1 it.2).mp hmem
    obtain ⟨s', hs', hnum⟩ := Option.map_eq_some_iff.mp hlast
    obtain ⟨hlive, htype⟩ := Registry.mem_liveAt.mp (List.mem_of_getLast? hs')
    have hse : s' = s := by
      apply hl.valid.number_inj hlive hs
      rw [hid] at hnum
      exact_mod_cast hnum
    rw [hse] at hs' htype
    simp only [htype] at hs' ⊢
    exact ⟨hs', trivial⟩

theorem Linked.subscribe_eq (hl : Linked x) (ho : x.2.owner h = none) (callback : κ) :
    both x (.subscribe h t callback) = if x.2.count < 2 ^ 31 then
      .ok ({ bus := { subscribers := Function.update x.1.bus.subscribers t
                        (some ((x.1.bus.subscribers t).getD [] ++ [callback]))
                      typeSubscribers := (t, (x.2.count : ℤ)) ::
                        x.1.bus.typeSubscribers.filter fun e => e.1 ≠ t
                      id := x.2.count }
             handles := Function.update x.1.handles h (some ⟨true, x.2.count⟩) },
           x.2.step (.subscribe h t callback))
    else .error .overflow := by
  have hx := hl.handle_none.mpr ho
  have hid : x.1.bus.id + 1 = x.2.count := by
    rw [hl.id]
    omega
  have hlt : x.1.bus.id < 2 ^ 31 - 1 ↔ x.2.count < 2 ^ 31 := by
    rw [hl.id]
    omega
  simp only [both, BusProgram.step, hx, if_true, EventBus.subscribe, nextId, hlt]
  by_cases hcount : x.2.count < 2 ^ 31
  · rw [if_pos hcount, if_pos hcount, hid]
    rfl
  · rw [if_neg hcount, if_neg hcount]
    rfl

theorem Linked.subscribe (hl : Linked x) (ho : x.2.owner h = none) (callback : κ)
    (hcount : x.2.count < 2 ^ 31) :
    ∃ y, both x (.subscribe h t callback) = .ok y ∧ Linked y := by
  have hx := hl.handle_none.mpr ho
  refine ⟨_, (hl.subscribe_eq ho callback).trans (if_pos hcount), ?_⟩
  have hliveAt : ∀ t', Registry.liveAt (x.2.step (.subscribe h t callback)) t' =
      x.2.liveAt t' ++ if t = t' then [⟨x.2.count, t, callback⟩] else [] := by
    intro t'
    simp only [Registry.step, ho, if_true, Registry.liveAt, List.filter_append]
    by_cases ht : t = t'
    · simp [ht]
    · simp [ht]
  constructor
  · simp only [Registry.step, ho, if_true]
    exact hl.valid.subscribe t callback
  · intro t'
    simp only [Registry.expected, hliveAt, List.map_append]
    have hold : (x.1.bus.subscribers t').getD [] = x.2.expected t' := hl.delivers t'
    simp only [publish, Function.update_apply]
    by_cases ht : t' = t
    · subst ht
      simp [hold, Registry.expected]
    · simp [ht, Ne.symm ht, hold, Registry.expected]
  · simp only [Registry.step, ho, if_true]
    omega
  · intro t' i
    simp only [hliveAt]
    simp only [List.mem_cons, Prod.mk.injEq, List.mem_filter, hl.types]
    by_cases ht : t' = t
    · subst ht
      simp [eq_comm]
    · simp [ht, Ne.symm ht]
  · intro h'
    simp only [Registry.step, ho, if_true, Function.update_apply]
    by_cases hh : h' = h
    · simp [hh, HandleMatches]
    · simp only [hh, if_false]
      exact hl.handle h'

theorem Linked.pass {x' : BusProgram τ κ} {owned : Option ℕ} {left moved : SubscriptionHandle}
    (hl : Linked x) (hne : h ≠ other) (hfree : ∀ n, x.2.owner h ≠ some (some n))
    (ho : x.2.owner other = some owned) (hbus : x'.bus = x.1.bus)
    (hhandles : x'.handles =
      Function.update (Function.update x.1.handles other (some left)) h (some moved))
    (hleft : left.bus = false) (hmoved : HandleMatches (some moved) (some owned)) :
    Linked (x', { x.2 with owner := x.2.pass h other owned }) := by
  constructor
  · exact hl.valid.pass hne hfree ho
  · intro t
    simp only [hbus]
    exact hl.delivers t
  · simp only [hbus]
    exact hl.id
  · simp only [hbus]
    exact hl.types
  · intro h'
    simp only [hhandles, Registry.pass, Function.update_apply]
    by_cases hh : h' = h
    · simp only [hh, if_true]
      exact hmoved
    · by_cases hho : h' = other
      · simp only [hho, Ne.symm hne, if_true, if_false]
        exact hleft
      · simp only [hh, hho, if_false]
        exact hl.handle h'

theorem Linked.destroy {owned : Option ℕ} (hl : Linked x) (ho : x.2.owner h = some owned)
    (hk : KeepsSubscribers x (.destroy h)) : ∃ y, both x (.destroy h) = .ok y ∧ Linked y := by
  obtain ⟨o, hx, hm⟩ := hl.exists_handle ho
  have hhandle : ∀ h', HandleMatches (Function.update x.1.handles h none h')
      (Function.update x.2.owner h none h') := by
    intro h'
    by_cases hh : h' = h
    · simp [hh, HandleMatches]
    · simp only [Function.update_of_ne hh]
      exact hl.handle h'
  have hvalid := hl.valid.destroy ho
  have hnext : both x (.destroy h) =
      .ok ({ bus := o.destroy x.1.bus, handles := Function.update x.1.handles h none },
        { x.2 with live := x.2.finish owned, owner := Function.update x.2.owner h none }) := by
    simp only [both, BusProgram.step, hx, Registry.step, ho]
    rfl
  refine ⟨_, hnext, ?_⟩
  cases owned with
  | none =>
    have hbus : o.destroy x.1.bus = x.1.bus := by
      have hb : o.bus = false := hm
      simp [SubscriptionHandle.destroy, hb]
    rw [hbus]
    rw [Registry.finish_none] at hvalid ⊢
    exact ⟨hvalid, hl.delivers, hl.id, hl.types, hhandle⟩
  | some n =>
    obtain ⟨s, hs, rfl⟩ := hl.valid.owned h n ho
    obtain ⟨hid, honly⟩ := hk _ ho
    have halone := honly s hs rfl
    have hnum : o.id = s.number := hm.2.resolve_right (hid o hx)
    have hcall : o.destroy x.1.bus = x.1.bus.unsubscribe s.number := by
      simp [SubscriptionHandle.destroy, hm.1, hnum]
    have hgone : Registry.liveAt { x.2 with
        live := x.2.finish (some s.number), owner := Function.update x.2.owner h none } s.type =
        [] := by
      rw [Registry.liveAt_finish, halone]
      simp
    have hother : ∀ t, t ≠ s.type → Registry.liveAt { x.2 with
        live := x.2.finish (some s.number), owner := Function.update x.2.owner h none } t =
        x.2.liveAt t :=
      fun t ht => Registry.liveAt_finish_ne hl.valid _ hs ht
    rcases hl.unsubscribe_spec hs with ⟨-, hun⟩ | ⟨hlast, -⟩
    · rw [hcall, hun]
      constructor
      · exact hvalid
      · intro t
        by_cases ht : t = s.type
        · subst ht
          simp [publish, Registry.expected, hgone]
        · have hold : (x.1.bus.subscribers t).getD [] = x.2.expected t := hl.delivers t
          simp only [publish, Registry.expected, hother t ht, Function.update_of_ne ht, hold]
      · exact hl.id
      · intro t i
        simp only [List.mem_filter, hl.types]
        by_cases ht : t = s.type
        · subst ht
          simp [hgone]
        · simp [hother t ht, ht]
      · exact hhandle
    · rw [halone] at hlast
      simp at hlast

/-- If messages still reach everyone after an owner has gone, it had its id and
its subscription was the only one to its type. -/
theorem Linked.keeps_of_destroy {y : BusProgram τ κ × Registry τ κ} (hl : Linked x)
    (hy : both x (.destroy h) = .ok y) (hd : Delivers y) : KeepsSubscribers x (.destroy h) := by
  intro n ho
  obtain ⟨o, hx, hbus, hid⟩ := hl.exists_handle ho
  obtain ⟨s, hs, rfl⟩ := hl.valid.owned h n ho
  have hnext : both x (.destroy h) =
      .ok ({ bus := o.destroy x.1.bus, handles := Function.update x.1.handles h none },
        { x.2 with live := x.2.finish (some s.number)
                   owner := Function.update x.2.owner h none }) := by
    simp only [both, BusProgram.step, hx, Registry.step, ho]
    rfl
  cases hnext.symm.trans hy
  have hshort := Registry.length_liveAt_finish (Function.update x.2.owner h none) hs
  have hafter := hd s.type
  -- a bus that has not changed still calls the subscription that has ended
  have hchanged : o.destroy x.1.bus ≠ x.1.bus := by
    intro he
    have hbefore := hl.delivers s.type
    simp only [he, hbefore] at hafter
    have hlen := congrArg List.length hafter
    simp only [Registry.expected, List.length_map] at hlen
    omega
  have hnum : o.id = s.number := by
    apply hid.resolve_right
    intro hlost
    apply hchanged
    simp [SubscriptionHandle.destroy, hlost]
  constructor
  · intro o' hx'
    rw [hx, Option.some.injEq] at hx'
    rw [← hx', hnum]
    omega
  · intro s' hs' hnum'
    obtain rfl := hl.valid.number_inj hs' hs hnum'
    have hcall : o.destroy x.1.bus = x.1.bus.unsubscribe s'.number := by
      simp [SubscriptionHandle.destroy, hbus, hnum]
    rcases hl.unsubscribe_spec hs with ⟨-, hun⟩ | ⟨-, hun⟩
    · have hempty : (x.2.liveAt s'.type).filter (fun s => s.number ≠ s'.number) = [] := by
        rw [← Registry.liveAt_finish x.2 (Function.update x.2.owner h none)]
        simp only [hcall, hun, publish, Function.update_self, Registry.expected] at hafter
        exact List.map_eq_nil_iff.mp hafter.symm
      have hall : ∀ s ∈ x.2.liveAt s'.type, s = s' := by
        intro s hsl
        rw [List.filter_eq_nil_iff] at hempty
        have hn : s.number = s'.number := by simpa using hempty s hsl
        exact hl.valid.number_inj (Registry.mem_liveAt.mp hsl).1 hs hn
      have hnd : (x.2.liveAt s'.type).Nodup := by
        apply (hl.valid.increasing.filter _).imp
        rintro s₁ s₂ hlt rfl
        exact Nat.lt_irrefl _ hlt
      have hmem : s' ∈ x.2.liveAt s'.type := Registry.mem_liveAt.mpr ⟨hs, rfl⟩
      by_contra hne
      rcases (hnd.ne_singleton_iff s').mp hne with hnil | ⟨s, hsl, hss⟩
      · rw [hnil] at hmem
        cases hmem
      · exact hss (hall s hsl)
    · rw [hcall] at hchanged
      exact (hchanged hun).elim

/-- Assigning to an owner ends its subscription, which the bus goes on calling. -/
theorem Linked.moveAssign {old owned : Option ℕ} (hl : Linked x) (hne : h ≠ other)
    (hold : x.2.owner h = some old) (ho : x.2.owner other = some owned) :
    (KeepsSubscribers x (.moveAssign h other) →
        ∃ y, both x (.moveAssign h other) = .ok y ∧ Linked y) ∧
      ∀ y, both x (.moveAssign h other) = .ok y → Delivers y →
        KeepsSubscribers x (.moveAssign h other) := by
  obtain ⟨o, hx, hm⟩ := hl.exists_handle hold
  obtain ⟨o', hx', hm'⟩ := hl.exists_handle ho
  have hnext : both x (.moveAssign h other) =
      .ok ({ x.1 with handles := Function.update (Function.update x.1.handles other
          (some o'.moveAssign.2)) h (some o'.moveAssign.1) },
        { x.2 with live := x.2.finish old, owner := x.2.pass h other owned }) := by
    simp only [both, BusProgram.step, hx, hx', Registry.step, hold, ho, hne, if_false]
    rfl
  cases old with
  | none =>
    have hfree : ∀ n, x.2.owner h ≠ some (some n) := by simp [hold]
    rw [Registry.finish_none] at hnext
    constructor
    · intro _
      exact ⟨_, hnext, hl.pass hne hfree ho rfl rfl rfl hm'⟩
    · intro _ _ _ _ _ _
      exact hfree
  | some n =>
    obtain ⟨s, hs, rfl⟩ := hl.valid.owned h n hold
    constructor
    · intro hk
      exact (hk hne owned ho _ hold).elim
    · intro y hy hd
      cases hnext.symm.trans hy
      have hshort := Registry.length_liveAt_finish (x.2.pass h other owned) hs
      have hafter := (hl.delivers s.type).symm.trans (hd s.type)
      have hlen := congrArg List.length hafter
      simp only [Registry.expected, List.length_map] at hlen
      omega

theorem linked_step (hl : Linked x) (e : BusEvent τ κ) :
    (KeepsSubscribers x e → ∃ y, both x e = .ok y ∧ Linked y) ∧
      ∀ y, both x e = .ok y → Delivers y → KeepsSubscribers x e := by
  have hsame : both x e = .ok x → (KeepsSubscribers x e → ∃ y, both x e = .ok y ∧ Linked y) :=
    fun he _ => ⟨x, he, hl⟩
  cases e with
  | subscribe h t callback =>
    by_cases ho : x.2.owner h = none
    · constructor
      · exact fun hk => hl.subscribe ho callback (hk ho)
      · intro y hy _ _
        rw [hl.subscribe_eq ho callback] at hy
        by_contra hcount
        cases (if_neg hcount).symm.trans hy
    · constructor
      · have hx : x.1.handles h ≠ none := fun hx => ho (hl.handle_none.mp hx)
        apply hsame
        simp only [both, BusProgram.step, hx, if_false, Registry.step, ho]
        rfl
      · exact fun _ _ _ hfree => (ho hfree).elim
  | moveConstruct h other =>
    refine ⟨?_, fun _ _ _ => trivial⟩
    cases hold : x.2.owner h with
    | some old =>
      obtain ⟨o, hx, -⟩ := hl.exists_handle hold
      apply hsame
      simp only [both, BusProgram.step, hx, Registry.step, hold]
      rfl
    | none =>
      have hx := hl.handle_none.mpr hold
      cases ho : x.2.owner other with
      | none =>
        have hx' := hl.handle_none.mpr ho
        apply hsame
        simp only [both, BusProgram.step, hx, hx', Registry.step, hold, ho]
        rfl
      | some owned =>
        obtain ⟨o, hx', hm⟩ := hl.exists_handle ho
        intro _
        have hne : h ≠ other := by
          rintro rfl
          rw [hold] at ho
          cases ho
        have hmoved : HandleMatches (some o.moveConstruct.1) (some owned) := by
          cases owned with
          | none => exact hm
          | some n => exact ⟨hm.1, .inr rfl⟩
        have hpass : Linked ({ x.1 with handles := Function.update (Function.update
            x.1.handles other (some o.moveConstruct.2)) h (some o.moveConstruct.1) },
            { x.2 with owner := x.2.pass h other owned }) :=
          hl.pass hne (by simp [hold]) ho rfl rfl rfl hmoved
        refine ⟨_, ?_, hpass⟩
        simp only [both, BusProgram.step, hx, hx', Registry.step, hold, ho]
        rfl
  | moveAssign h other =>
    cases hold : x.2.owner h with
    | none =>
      have hx := hl.handle_none.mpr hold
      constructor
      · apply hsame
        simp only [both, BusProgram.step, hx, Registry.step, hold]
        rfl
      · intro _ _ _ _ _ _ n
        simp [hold]
    | some old =>
      cases ho : x.2.owner other with
      | none =>
        have hx := hl.handle_none.mpr ho
        obtain ⟨o, hx', -⟩ := hl.exists_handle hold
        constructor
        · apply hsame
          simp only [both, BusProgram.step, hx, hx', Registry.step, hold, ho]
          rfl
        · intro _ _ _ _ owned howned
          rw [ho] at howned
          cases howned
      | some owned =>
        by_cases hne : h = other
        · obtain ⟨o, hx, -⟩ := hl.exists_handle hold
          subst hne
          constructor
          · apply hsame
            simp only [both, BusProgram.step, hx, Registry.step, hold, if_true]
            rfl
          · exact fun _ _ _ hne => (hne rfl).elim
        · exact hl.moveAssign hne hold ho
  | destroy h =>
    cases ho : x.2.owner h with
    | none =>
      have hx := hl.handle_none.mpr ho
      constructor
      · apply hsame
        simp only [both, BusProgram.step, hx, Registry.step, ho]
        rfl
      · intro _ _ _ n hn
        rw [ho] at hn
        cases hn
    | some owned => exact ⟨hl.destroy ho, fun _ hy => hl.keeps_of_destroy hy⟩
  | publish t => exact ⟨hsame rfl, fun _ _ _ => trivial⟩

/-- Every part of a program returns and leaves each message to exactly the living
subscriptions to it, if and only if no owner goes in one of the ways that
`KeepsSubscribers` excludes and the ids last. -/
theorem delivers_iff (es : List (BusEvent τ κ)) :
    (∀ done, done <+: es → ∃ x, run both ({}, {}) done = .ok x ∧ Delivers x) ↔
      Meets both KeepsSubscribers (({}, {}) : BusProgram τ κ × Registry τ κ) es :=
  forall_run_ok_iff_meets linked_init (fun _ hl => hl.delivers)
    (fun _ e hl => (linked_step hl e).1) fun _ e y hl => (linked_step hl e).2 y

end Programs

/-- A handle is moved from the temporary into its owner, as in the constructor of
`HumanPoint`, and destroyed with it: the callback is still called. -/
theorem moved_handle_stays_subscribed : ∃ x,
    run both (({}, {}) : BusProgram ℕ ℕ × Registry ℕ ℕ)
      [.subscribe 0 7 42, .moveConstruct 1 0, .destroy 0, .destroy 1] = .ok x ∧
    x.1.bus.publish 7 = [42] ∧ ¬Delivers x := by
  refine ⟨_, rfl, by decide, ?_⟩
  intro hd
  have hseven := hd 7
  revert hseven
  decide

end HighPerformance.EventBus
