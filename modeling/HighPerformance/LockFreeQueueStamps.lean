import HighPerformance.LockFreeQueue
import HighPerformance.Types
import Mathlib.Data.Int.ModEq
import Mathlib.Data.Finset.Card
import Mathlib.Data.Finset.Dedup

/-!
# The stamps of the slots

The tail stamp of a slot is the ticket of its current round. No `push` has taken
that ticket while the slot is free; then a `push` owns the slot until it sets the
head stamp to the ticket, and after that the `pop` with this ticket until it moves
the tail stamp to the next round. `Stamped` ties stamps, tickets and the places
of the threads together for runs whose tickets stay below `2 ^ 63`.
-/

namespace HighPerformance.LockFreeQueue
open FallibleRun

variable {T : Type} {s s' : LockFreeQueue T} {t t' k k' i : ℕ}

/-- The slot of a ticket, by the remainder. -/
def slot (s : LockFreeQueue T) (k : ℕ) : QueueNode T := s.queue (k % s.capacity)

/-- The capacity is a power of two, and the mask the one below it. -/
def Rounded (s : LockFreeQueue T) : Prop :=
  ∃ e ≤ 62, s.capacity = 2 ^ e ∧ s.capacityMask = 2 ^ e - 1

/-- The slot at an index. -/
structure SlotOk (s : LockFreeQueue T) (i : ℕ) : Prop where
  residue : (s.queue i).tail % s.capacity = i
  stamps : (s.queue i).head = (s.queue i).tail ∨
    (s.queue i).head + s.capacity = (s.queue i).tail ∨ (s.queue i).head = 2 ^ 64 - 1
  free : s.pushed.length ≤ (s.queue i).tail →
    (s.queue i).data = none ∧ (s.queue i).head ≠ (s.queue i).tail
  full : (s.queue i).head = (s.queue i).tail → s.head ≤ (s.queue i).tail →
    ∃ v, (s.queue i).data = some v ∧ s.pushed[(s.queue i).tail]? = some v

/-- The tail stamp of a ticket's slot has passed the ticket when it has been popped. -/
structure TicketOk (s : LockFreeQueue T) (k : ℕ) : Prop where
  taken : k < s.pushed.length → k ≤ (s.slot k).tail
  popped : k ∈ s.popped.map Prod.fst ↔ k < (s.slot k).tail
  gone : k < (s.slot k).tail → k < s.head
  accepted : k ∈ s.accepted → k < s.pushed.length ∧ (k < (s.slot k).tail ∨ (s.slot k).head = k)

/-- What a thread knows where it is. -/
def Fits (s : LockFreeQueue T) : QueueThread T → Prop
  | .idle | .pushLoad _ | .popLoad => True
  | .pushTest _ k => k ≤ s.pushed.length
  | .pushExchange _ k =>
      k ≤ s.pushed.length ∧ (s.pushed.length ≤ k → (s.slot k).tail = k)
  | .pushWrite x k =>
      k < s.pushed.length ∧ (s.slot k).tail = k ∧ (s.slot k).head ≠ k ∧
        (s.slot k).data = none ∧ s.pushed[k]? = some x
  | .pushStamp k =>
      k < s.pushed.length ∧ (s.slot k).tail = k ∧ (s.slot k).head ≠ k ∧
        ∃ v, (s.slot k).data = some v ∧ s.pushed[k]? = some v
  | .popTest k => k ≤ s.head
  | .popExchange k => k ≤ s.head ∧ (s.head ≤ k → (s.slot k).head = k)
  | .popRead k =>
      k < s.head ∧ (s.slot k).tail = k ∧ (s.slot k).head = k ∧
        ∃ v, (s.slot k).data = some v ∧ s.pushed[k]? = some v
  | .popDestroy k r =>
      k < s.head ∧ (s.slot k).tail = k ∧ (s.slot k).head = k ∧
        ∃ v, r = some v ∧ s.pushed[k]? = some v
  | .popStamp k r =>
      k < s.head ∧ (s.slot k).tail = k ∧ (s.slot k).head = k ∧ (s.slot k).data = none ∧
        ∃ v, r = some v ∧ s.pushed[k]? = some v

structure Stamped (s : LockFreeQueue T) : Prop where
  rounded : s.Rounded
  few : s.pushed.length < 2 ^ 63
  tail : s.tail = s.pushed.length
  head : s.head ≤ s.pushed.length
  slots : ∀ i < s.capacity, s.SlotOk i
  tickets : ∀ k, s.TicketOk k
  threads : ∀ t, s.Fits (s.threads t)
  owners : ∀ t t' k, (s.threads t).ticket = some k → (s.threads t').ticket = some k → t = t'
  once : (s.popped.map Prod.fst).Nodup
  values : ∀ k x, (k, x) ∈ s.popped → ∃ v, x = some v ∧ s.pushed[k]? = some v

theorem Rounded.pos (h : s.Rounded) : 0 < s.capacity := by
  obtain ⟨e, -, hcap, -⟩ := h
  rw [hcap]
  exact Nat.two_pow_pos e

theorem Rounded.le (h : s.Rounded) : s.capacity ≤ 2 ^ 62 := by
  obtain ⟨e, he, hcap, -⟩ := h
  rw [hcap]
  exact Nat.pow_le_pow_right (by decide) he

theorem Rounded.index (h : s.Rounded) (k : ℕ) : k &&& s.capacityMask = k % s.capacity := by
  obtain ⟨e, -, hcap, hmask⟩ := h
  rw [hcap, hmask, Nat.and_two_pow_sub_one_eq_mod]

theorem Rounded.node (h : s.Rounded) (k : ℕ) : s.node k = s.slot k := by
  rw [LockFreeQueue.node, slot, h.index]

theorem Stamped.slot (h : s.Stamped) (k : ℕ) : s.SlotOk (k % s.capacity) :=
  h.slots _ (Nat.mod_lt k h.rounded.pos)

/-- The owner of a ticket has the round of its slot. -/
theorem Fits.ticket {x : QueueThread T} (h : s.Fits x) (hx : x.ticket = some k) :
    (s.slot k).tail = k ∧ (k < s.pushed.length ∧ (s.slot k).head ≠ k ∨ k < s.head) := by
  cases x with
  | idle | pushLoad | pushTest | pushExchange | popLoad | popTest | popExchange => cases hx
  | pushWrite x k =>
    cases hx
    exact ⟨h.2.1, .inl ⟨h.1, h.2.2.1⟩⟩
  | pushStamp k =>
    cases hx
    exact ⟨h.2.1, .inl ⟨h.1, h.2.2.1⟩⟩
  | popRead k =>
    cases hx
    exact ⟨h.2.1, .inr h.1⟩
  | popDestroy k r =>
    cases hx
    exact ⟨h.2.1, .inr h.1⟩
  | popStamp k r =>
    cases hx
    exact ⟨h.2.1, .inr h.1⟩

theorem Stamped.owner_lt (h : s.Stamped) (ht : (s.threads t).ticket = some k) :
    k < s.pushed.length := by
  have hhead := h.head
  rcases (Fits.ticket (h.threads t) ht).2 with hk | hk <;> omega

theorem Stamped.alone (h : s.Stamped) (ht : (s.threads t).ticket = some k)
    (ht' : (s.threads t').ticket = some k') (hk : k % s.capacity = k' % s.capacity) : t = t' := by
  have htail := (Fits.ticket (h.threads t) ht).1
  have htail' := (Fits.ticket (h.threads t') ht').1
  rw [LockFreeQueue.slot, hk] at htail
  rw [LockFreeQueue.slot, htail] at htail'
  subst htail'
  exact h.owners t t' k ht ht'

theorem Stamped.next_tail (h : s.Stamped) (hk : (s.slot s.head).head = s.head) :
    (s.slot s.head).tail = s.head := by
  have hfew := h.few
  have hhead := h.head
  rcases (h.slot s.head).stamps with heq | hpast | hnone
  · rw [← LockFreeQueue.slot, hk] at heq
    exact heq.symm
  · rw [← LockFreeQueue.slot, hk] at hpast
    have hpos := h.rounded.pos
    have := (h.tickets s.head).gone (by omega)
    omega
  · rw [← LockFreeQueue.slot, hk] at hnone
    omega

section Frames

theorem getElem?_prefix {xs ys : List T} {x : T} (h : xs <+: ys) (hx : xs[k]? = some x) :
    ys[k]? = some x := by
  obtain ⟨zs, rfl⟩ := h
  rw [List.getElem?_append_left (List.getElem?_eq_some_iff.mp hx).1, hx]

theorem SlotOk.frame (h : s.SlotOk i) (hqueue : s'.queue i = s.queue i)
    (hcap : s'.capacity = s.capacity) (hpushed : s.pushed <+: s'.pushed)
    (hhead : s.head ≤ s'.head) : s'.SlotOk i := by
  have hlen := hpushed.length_le
  constructor
  · rw [hqueue, hcap]
    exact h.residue
  · rw [hqueue, hcap]
    exact h.stamps
  · rw [hqueue]
    intro hle
    exact h.free (by omega)
  · rw [hqueue]
    intro heq hle
    obtain ⟨v, hv, hget⟩ := h.full heq (by omega)
    exact ⟨v, hv, getElem?_prefix hpushed hget⟩

/-- A thread keeps what it knows when its slot and the counters that it has read
stay, or when they move on. -/
theorem Fits.frame {x : QueueThread T} (h : s.Fits x)
    (hpushed : s.pushed <+: s'.pushed) (hhead : s.head ≤ s'.head)
    (howner : ∀ k, x.ticket = some k → s'.slot k = s.slot k)
    (hpush : ∀ k, s'.pushed.length ≤ k → k ≤ s.pushed.length → (s.slot k).tail = k →
      (s'.slot k).tail = k)
    (hpop : ∀ k, s'.head ≤ k → k ≤ s.head → (s.slot k).head = k → (s'.slot k).head = k) :
    s'.Fits x := by
  have hlen := hpushed.length_le
  cases x with
  | idle | pushLoad | popLoad => trivial
  | pushTest x k => exact Nat.le_trans h hlen
  | popTest k => exact Nat.le_trans h hhead
  | pushExchange x k =>
    constructor
    · exact Nat.le_trans h.1 hlen
    · intro hle
      exact hpush k hle h.1 (h.2 (Nat.le_trans hlen hle))
  | popExchange k =>
    constructor
    · exact Nat.le_trans h.1 hhead
    · intro hle
      exact hpop k hle h.1 (h.2 (Nat.le_trans hhead hle))
  | pushWrite x k =>
    rw [Fits, howner k rfl]
    exact ⟨Nat.lt_of_lt_of_le h.1 hlen, h.2.1, h.2.2.1, h.2.2.2.1,
      getElem?_prefix hpushed h.2.2.2.2⟩
  | pushStamp k =>
    obtain ⟨hk, htail, hne, v, hv, hget⟩ := h
    rw [Fits, howner k rfl]
    exact ⟨Nat.lt_of_lt_of_le hk hlen, htail, hne, v, hv, getElem?_prefix hpushed hget⟩
  | popRead k =>
    obtain ⟨hk, htail, heq, v, hv, hget⟩ := h
    rw [Fits, howner k rfl]
    exact ⟨Nat.lt_of_lt_of_le hk hhead, htail, heq, v, hv, getElem?_prefix hpushed hget⟩
  | popDestroy k r =>
    obtain ⟨hk, htail, heq, v, hv, hget⟩ := h
    rw [Fits, howner k rfl]
    exact ⟨Nat.lt_of_lt_of_le hk hhead, htail, heq, v, hv, getElem?_prefix hpushed hget⟩
  | popStamp k r =>
    obtain ⟨hk, htail, heq, hnone, v, hv, hget⟩ := h
    rw [Fits, howner k rfl]
    exact ⟨Nat.lt_of_lt_of_le hk hhead, htail, heq, hnone, v, hv,
      getElem?_prefix hpushed hget⟩

theorem TicketOk.frame (h : s.TicketOk k) (hslot : s'.slot k = s.slot k)
    (hpopped : s'.popped = s.popped) (haccepted : s'.accepted = s.accepted)
    (hpushed : s.pushed.length ≤ s'.pushed.length) (hhead : s.head ≤ s'.head)
    (htaken : k < s'.pushed.length → k ≤ (s.slot k).tail) : s'.TicketOk k := by
  constructor
  · rw [hslot]
    exact htaken
  · rw [hslot, hpopped]
    exact h.popped
  · rw [hslot]
    intro hk
    exact Nat.lt_of_lt_of_le (h.gone hk) hhead
  · rw [hslot, haccepted]
    intro hk
    have := h.accepted hk
    exact ⟨Nat.lt_of_lt_of_le this.1 hpushed, this.2⟩

theorem ticket_setThread {x : QueueThread T}
    (ht : (Function.update s.threads t x t').ticket = some k) :
    t' = t ∧ x.ticket = some k ∨ t' ≠ t ∧ (s.threads t').ticket = some k := by
  by_cases he : t' = t
  · rw [he, Function.update_self] at ht
    exact .inl ⟨he, ht⟩
  · rw [Function.update_of_ne he] at ht
    exact .inr ⟨he, ht⟩

theorem owners_win {x : QueueThread T}
    (h : ∀ t t' k, (s.threads t).ticket = some k → (s.threads t').ticket = some k → t = t')
    (hnone : ∀ t', (s.threads t').ticket ≠ some k') (hx : x.ticket = some k') :
    ∀ t₁ t₂ k, (Function.update s.threads t x t₁).ticket = some k →
      (Function.update s.threads t x t₂).ticket = some k → t₁ = t₂ := by
  intro t₁ t₂ k h₁ h₂
  rcases ticket_setThread h₁ with ⟨he₁, h₁⟩ | ⟨-, h₁⟩
  · have hk : k' = k := Option.some.inj (hx.symm.trans h₁)
    rcases ticket_setThread h₂ with ⟨he₂, -⟩ | ⟨-, h₂⟩
    · rw [he₁, he₂]
    · exact (hnone t₂ (hk ▸ h₂)).elim
  · rcases ticket_setThread h₂ with ⟨-, h₂⟩ | ⟨-, h₂⟩
    · have hk : k' = k := Option.some.inj (hx.symm.trans h₂)
      exact (hnone t₁ (hk ▸ h₁)).elim
    · exact h t₁ t₂ k h₁ h₂

theorem Stamped.move {x : QueueThread T} (h : s.Stamped) (hx : s.Fits x)
    (hticket : ∀ k, x.ticket = some k → (s.threads t).ticket = some k) :
    (s.setThread t x).Stamped := by
  constructor
  · exact h.rounded
  · exact h.few
  · exact h.tail
  · exact h.head
  · intro i hi
    exact (h.slots i hi).frame rfl rfl (List.prefix_refl _) (Nat.le_refl _)
  · intro k
    exact (h.tickets k).frame rfl rfl rfl (Nat.le_refl _) (Nat.le_refl _) (h.tickets k).taken
  · intro t'
    have hkeep : ∀ {y : QueueThread T}, s.Fits y → (s.setThread t x).Fits y := fun hy =>
      hy.frame (List.prefix_refl _) (Nat.le_refl _) (fun _ _ => rfl)
        (fun _ _ _ htail => htail) (fun _ _ _ hhead => hhead)
    by_cases he : t' = t
    · change (s.setThread t x).Fits (Function.update s.threads t x t')
      rw [he, Function.update_self]
      exact hkeep hx
    · change (s.setThread t x).Fits (Function.update s.threads t x t')
      rw [Function.update_of_ne he]
      exact hkeep (h.threads t')
  · intro t₁ t₂ k h₁ h₂
    have hold : ∀ {t'}, (Function.update s.threads t x t').ticket = some k →
        (s.threads t').ticket = some k := by
      intro t' ht
      rcases ticket_setThread ht with ⟨he, ht⟩ | ⟨-, ht⟩
      · rw [he]
        exact hticket k ht
      · exact ht
    exact h.owners t₁ t₂ k (hold h₁) (hold h₂)
  · exact h.once
  · exact h.values

end Frames

section Tickets

/-- A `push` wins the next ticket of `_tail`. -/
theorem Stamped.takeTail {x : T} (h : s.Stamped) (ht : s.threads t = .pushExchange x s.tail)
    (hfew : s.pushed.length + 1 < 2 ^ 63) :
    Stamped { s.setThread t (.pushWrite x s.tail) with
      tail := wrap (s.tail + 1), pushed := s.pushed ++ [x] } := by
  set s' : LockFreeQueue T := { s.setThread t (.pushWrite x s.tail) with
    tail := wrap (s.tail + 1), pushed := s.pushed ++ [x] } with hs'
  have hprefix : s.pushed <+: s'.pushed := List.prefix_append _ _
  have hlen : s'.pushed.length = s.pushed.length + 1 := List.length_append
  have hthread : s.Fits (.pushExchange x s.tail) := ht ▸ h.threads t
  rw [h.tail] at hthread
  have hslot := hthread.2 (Nat.le_refl _)
  have hfree := (h.slot s.pushed.length).free (Nat.le_of_eq hslot.symm)
  constructor
  · exact h.rounded
  · rw [hlen]
    exact hfew
  · change wrap (s.tail + 1) = _
    rw [hlen, h.tail, wrap]
    omega
  · have := h.head
    change s.head ≤ _
    omega
  · intro i hi
    exact (h.slots i hi).frame rfl rfl hprefix (Nat.le_refl _)
  · intro k
    refine (h.tickets k).frame rfl rfl rfl hprefix.length_le (Nat.le_refl _) ?_
    intro hk
    by_cases hlast : k = s.pushed.length
    · rw [hlast, hslot]
    · exact (h.tickets k).taken (by omega)
  · intro t'
    change s'.Fits (Function.update s.threads t (.pushWrite x s.tail) t')
    by_cases he : t' = t
    · rw [he, Function.update_self, h.tail]
      refine ⟨by omega, hslot, ?_, hfree.1, ?_⟩
      · have hne := hfree.2
        rw [← LockFreeQueue.slot, hslot] at hne
        exact hne
      · exact List.getElem?_concat_length
    · rw [Function.update_of_ne he]
      exact (h.threads t').frame hprefix (Nat.le_refl _) (fun _ _ => rfl)
        (fun _ _ _ htail => htail) (fun _ _ _ hhead => hhead)
  · intro t₁ t₂ k h₁ h₂
    -- No thread owns the ticket yet.
    have hnone : ∀ t', (s.threads t').ticket ≠ some s.tail := by
      intro t' ht'
      have := h.owner_lt ht'
      rw [h.tail] at this
      omega
    exact owners_win h.owners hnone rfl t₁ t₂ k h₁ h₂
  · exact h.once
  · intro k y hk
    obtain ⟨v, hv, hget⟩ := h.values k y hk
    exact ⟨v, hv, getElem?_prefix hprefix hget⟩

/-- A `pop` wins the next ticket of `_head`. -/
theorem Stamped.takeHead (h : s.Stamped) (ht : s.threads t = .popExchange s.head) :
    Stamped { s.setThread t (.popRead s.head) with head := wrap (s.head + 1) } := by
  set s' : LockFreeQueue T :=
    { s.setThread t (.popRead s.head) with head := wrap (s.head + 1) } with hs'
  have hfew := h.few
  have hle := h.head
  have hthread : s.Fits (.popExchange s.head) := ht ▸ h.threads t
  have hstamp := hthread.2 (Nat.le_refl _)
  have htail := h.next_tail hstamp
  have hlt : s.head < s.pushed.length := by
    by_contra hge
    have hfree := (h.slot s.head).free (by
      change s.pushed.length ≤ (s.slot s.head).tail
      omega)
    exact hfree.2 (hstamp.trans htail.symm)
  have hhead : s'.head = s.head + 1 := by
    change wrap (s.head + 1) = _
    rw [wrap]
    omega
  constructor
  · exact h.rounded
  · exact h.few
  · exact h.tail
  · change s'.head ≤ s.pushed.length
    omega
  · intro i hi
    exact (h.slots i hi).frame rfl rfl (List.prefix_refl _) (by omega)
  · intro k
    exact (h.tickets k).frame rfl rfl rfl (Nat.le_refl _) (by omega) (h.tickets k).taken
  · intro t'
    change s'.Fits (Function.update s.threads t (.popRead s.head) t')
    by_cases he : t' = t
    · rw [he, Function.update_self]
      have hfull := (h.slot s.head).full (hstamp.trans htail.symm) (Nat.le_of_eq htail.symm)
      rw [← LockFreeQueue.slot, htail] at hfull
      exact ⟨by omega, htail, hstamp, hfull⟩
    · rw [Function.update_of_ne he]
      exact (h.threads t').frame (List.prefix_refl _) (by omega) (fun _ _ => rfl)
        (fun _ _ _ htail => htail) (fun _ _ _ hhead => hhead)
  · intro t₁ t₂ k h₁ h₂
    -- No thread owns the ticket yet.
    have hnone : ∀ t', (s.threads t').ticket ≠ some s.head := by
      intro t' ht'
      rcases (Fits.ticket (h.threads t') ht').2 with ⟨-, hne⟩ | hlt
      · exact hne hstamp
      · exact Nat.lt_irrefl _ hlt
    exact owners_win h.owners hnone rfl t₁ t₂ k h₁ h₂
  · exact h.once
  · exact h.values

end Tickets

section Slots
variable {n : QueueNode T} {x : QueueThread T} {a : List ℕ} {p : List (ℕ × Option T)}

/-- An owner changes its slot, moves on, and may return. -/
def edit (s : LockFreeQueue T) (t k : ℕ) (n : QueueNode T) (x : QueueThread T) (a : List ℕ)
    (p : List (ℕ × Option T)) : LockFreeQueue T :=
  { (s.setNode k n).setThread t x with accepted := a, popped := p }

theorem queue_edit (hr : s.Rounded) (i : ℕ) :
    (s.edit t k n x a p).queue i = if i = k % s.capacity then n else s.queue i := by
  change Function.update s.queue (k &&& s.capacityMask) n i = _
  rw [hr.index, Function.update_apply]

theorem slot_edit (hr : s.Rounded) (j : ℕ) :
    (s.edit t k n x a p).slot j =
      if j % s.capacity = k % s.capacity then n else s.slot j :=
  queue_edit hr (j % s.capacity)

/-- Only the slot of the ticket, its tickets and the thread have to be looked at. The other
threads read a stamp only where the ticket is the next one. -/
theorem Stamped.edit (h : s.Stamped) (ht : (s.threads t).ticket = some k)
    (hx : (s.edit t k n x a p).Fits x) (hticket : ∀ j, x.ticket = some j → j = k)
    (hslot : (s.edit t k n x a p).SlotOk (k % s.capacity))
    (htickets : ∀ j, (s.edit t k n x a p).TicketOk j)
    (hhead : n.head = (s.slot k).head ∨ (s.slot k).head ≠ k)
    (honce : (p.map Prod.fst).Nodup)
    (hvalues : ∀ k x, (k, x) ∈ p → ∃ v, x = some v ∧ s.pushed[k]? = some v) :
    (s.edit t k n x a p).Stamped := by
  have hk := Fits.ticket (h.threads t) ht
  constructor
  · exact h.rounded
  · exact h.few
  · exact h.tail
  · exact h.head
  · intro i hi
    by_cases he : i = k % s.capacity
    · rw [he]
      exact hslot
    · have hsame : (s.edit t k n x a p).queue i = s.queue i := by
        rw [queue_edit h.rounded, if_neg he]
      exact (h.slots i hi).frame hsame rfl (List.prefix_refl _) (Nat.le_refl _)
  · exact htickets
  · intro t'
    change (s.edit t k n x a p).Fits (Function.update s.threads t x t')
    by_cases he : t' = t
    · rw [he, Function.update_self]
      exact hx
    · rw [Function.update_of_ne he]
      refine (h.threads t').frame (List.prefix_refl _) (Nat.le_refl _) ?_ ?_ ?_
      · intro j hj
        rw [slot_edit h.rounded, if_neg]
        intro hjk
        exact he (h.alone hj ht hjk)
      · intro j hge hle hj
        have hj' : j = s.pushed.length := Nat.le_antisymm hle hge
        rw [slot_edit h.rounded]
        split
        · next hjk =>
          have hround : (s.slot k).tail = j := by rw [LockFreeQueue.slot, ← hjk]; exact hj
          have := h.owner_lt ht
          omega
        · exact hj
      · intro j hge hle hj
        have hj' : j = s.head := Nat.le_antisymm hle hge
        rw [slot_edit h.rounded]
        split
        · next hjk =>
          have hround : (s.slot k).head = j := by rw [LockFreeQueue.slot, ← hjk]; exact hj
          rcases hhead with hsame | hne
          · rw [hsame, hround]
          · -- The next `pop` would find the ticket of the owner, a `push`.
            rw [hj'] at hjk hround
            have hnext := h.next_tail (by rw [LockFreeQueue.slot, hjk]; exact hround)
            rw [LockFreeQueue.slot, hjk] at hnext
            have hks : (s.slot k).tail = s.head := hnext
            omega
        · exact hj
  · intro t₁ t₂ j h₁ h₂
    have hold : ∀ {t'}, (Function.update s.threads t x t').ticket = some j →
        (s.threads t').ticket = some j := by
      intro t' ht'
      rcases ticket_setThread ht' with ⟨he, ht'⟩ | ⟨-, ht'⟩
      · rw [he, hticket j ht']
        exact ht
      · exact ht'
    exact h.owners t₁ t₂ j (hold h₁) (hold h₂)
  · exact honce
  · exact hvalues

/-- The tickets of other slots are not concerned. -/
theorem Stamped.tickets_edit (h : s.Stamped)
    (ha : ∀ j, j % s.capacity ≠ k % s.capacity → (j ∈ a ↔ j ∈ s.accepted))
    (hp : ∀ j, j % s.capacity ≠ k % s.capacity →
      (j ∈ p.map Prod.fst ↔ j ∈ s.popped.map Prod.fst))
    (hround : ∀ j, j % s.capacity = k % s.capacity → (s.edit t k n x a p).TicketOk j) (j : ℕ) :
    (s.edit t k n x a p).TicketOk j := by
  by_cases hj : j % s.capacity = k % s.capacity
  · exact hround j hj
  · have hslot : (s.edit t k n x a p).slot j = s.slot j := by
      rw [slot_edit h.rounded, if_neg hj]
    constructor
    · rw [hslot]
      exact (h.tickets j).taken
    · rw [hslot]
      exact (hp j hj).trans (h.tickets j).popped
    · rw [hslot]
      exact (h.tickets j).gone
    · rw [hslot]
      intro hmem
      exact (h.tickets j).accepted ((ha j hj).mp hmem)

theorem slotOk_edit (hr : s.Rounded) (hresidue : n.tail % s.capacity = k % s.capacity)
    (hstamps : n.head = n.tail ∨ n.head + s.capacity = n.tail ∨ n.head = 2 ^ 64 - 1)
    (hfree : s.pushed.length ≤ n.tail → n.data = none ∧ n.head ≠ n.tail)
    (hfull : n.head = n.tail → s.head ≤ n.tail →
      ∃ v, n.data = some v ∧ s.pushed[n.tail]? = some v) :
    (s.edit t k n x a p).SlotOk (k % s.capacity) := by
  constructor
  · rw [queue_edit hr, if_pos rfl]
    exact hresidue
  · rw [queue_edit hr, if_pos rfl]
    exact hstamps
  · rw [queue_edit hr, if_pos rfl]
    exact hfree
  · rw [queue_edit hr, if_pos rfl]
    exact hfull

theorem ticketOk_edit {j : ℕ} (hr : s.Rounded) (hj : j % s.capacity = k % s.capacity)
    (htaken : j < s.pushed.length → j ≤ n.tail) (hpopped : j ∈ p.map Prod.fst ↔ j < n.tail)
    (hgone : j < n.tail → j < s.head)
    (haccepted : j ∈ a → j < s.pushed.length ∧ (j < n.tail ∨ n.head = j)) :
    (s.edit t k n x a p).TicketOk j := by
  constructor
  · rw [slot_edit hr, if_pos hj]
    exact htaken
  · rw [slot_edit hr, if_pos hj]
    exact hpopped
  · rw [slot_edit hr, if_pos hj]
    exact hgone
  · rw [slot_edit hr, if_pos hj]
    exact haccepted

theorem Stamped.same_slot {j : ℕ} (h : s.Stamped) (hj : j % s.capacity = k % s.capacity) :
    s.slot j = s.slot k ∧ s.TicketOk j := by
  constructor
  · rw [LockFreeQueue.slot, hj, ← LockFreeQueue.slot]
  · exact h.tickets j

theorem Stamped.tickets_data (h : s.Stamped) (htail : n.tail = (s.slot k).tail)
    (hhead : n.head = (s.slot k).head) (j : ℕ) :
    (s.edit t k n x s.accepted s.popped).TicketOk j := by
  apply h.tickets_edit (fun _ _ => Iff.rfl) (fun _ _ => Iff.rfl)
  intro j hj
  obtain ⟨hslot, hok⟩ := h.same_slot hj
  rw [← hslot] at htail hhead
  apply ticketOk_edit h.rounded hj
  · rw [htail]
    exact hok.taken
  · rw [htail]
    exact hok.popped
  · rw [htail]
    exact hok.gone
  · rw [htail, hhead]
    exact hok.accepted

theorem Stamped.write {v : T} (h : s.Stamped) (ht : s.threads t = .pushWrite v k) :
    ((s.setNode k { s.node k with data := some v }).setThread t (.pushStamp k)).Stamped := by
  have hf : s.Fits (.pushWrite v k) := ht ▸ h.threads t
  obtain ⟨hk, htail, hne, -, hget⟩ := hf
  rw [h.rounded.node]
  apply h.edit (a := s.accepted) (p := s.popped)
  · rw [ht]
    rfl
  · rw [Fits, slot_edit h.rounded, if_pos rfl]
    exact ⟨hk, htail, hne, v, rfl, hget⟩
  · intro j hj
    cases hj
    rfl
  · apply slotOk_edit h.rounded
    · exact congrArg (· % s.capacity) htail
    · exact (h.slot k).stamps
    · intro hle
      exact (Nat.not_le.mpr hk (htail ▸ hle)).elim
    · intro heq
      exact (hne (heq.trans htail)).elim
  · exact h.tickets_data rfl rfl
  · exact .inl rfl
  · exact h.once
  · exact h.values

theorem Stamped.destroy {r : Option T} (h : s.Stamped) (ht : s.threads t = .popDestroy k r) :
    ((s.setNode k { s.node k with data := none }).setThread t (.popStamp k r)).Stamped := by
  have hf : s.Fits (.popDestroy k r) := ht ▸ h.threads t
  obtain ⟨hk, htail, hstamp, hr⟩ := hf
  have hle := h.head
  rw [h.rounded.node]
  apply h.edit (a := s.accepted) (p := s.popped)
  · rw [ht]
    rfl
  · rw [Fits, slot_edit h.rounded, if_pos rfl]
    exact ⟨hk, htail, hstamp, rfl, hr⟩
  · intro j hj
    cases hj
    rfl
  · apply slotOk_edit h.rounded
    · exact congrArg (· % s.capacity) htail
    · exact (h.slot k).stamps
    · intro hfull
      have hfull' : s.pushed.length ≤ k := htail ▸ hfull
      omega
    · intro _ hfull
      have hfull' : s.head ≤ k := htail ▸ hfull
      omega
  · exact h.tickets_data rfl rfl
  · exact .inl rfl
  · exact h.once
  · exact h.values

theorem Stamped.stampHead (h : s.Stamped) (ht : s.threads t = .pushStamp k) :
    Stamped { (s.setNode k { s.node k with head := k }).setThread t .idle with
      accepted := s.accepted ++ [k] } := by
  have hf : s.Fits (.pushStamp k) := ht ▸ h.threads t
  obtain ⟨hk, htail, hne, hv⟩ := hf
  have hfew := h.few
  rw [h.rounded.node]
  apply h.edit (p := s.popped)
  · rw [ht]
    rfl
  · trivial
  · intro j hj
    cases hj
  · apply slotOk_edit h.rounded
    · exact congrArg (· % s.capacity) htail
    · exact .inl htail.symm
    · intro hle
      exact (Nat.not_le.mpr hk (htail ▸ hle)).elim
    · intro _ _
      rw [htail]
      exact hv
  · apply h.tickets_edit
    · intro j hj
      rw [List.mem_append, List.mem_singleton]
      exact or_iff_left fun he => hj (he ▸ rfl)
    · exact fun _ _ => Iff.rfl
    · intro j hj
      obtain ⟨hslot, hok⟩ := h.same_slot hj
      have hround : (s.slot j).tail = k := hslot ▸ htail
      have hold : (s.slot j).head ≠ k := hslot ▸ hne
      apply ticketOk_edit h.rounded hj
      · rw [← hslot]
        exact hok.taken
      · rw [← hslot]
        exact hok.popped
      · rw [← hslot]
        exact hok.gone
      · intro hmem
        change j < _ ∧ (j < (s.slot k).tail ∨ k = j)
        rw [htail]
        rcases List.mem_append.mp hmem with hmem | hmem
        · obtain ⟨hlt, hpast | hhead⟩ := hok.accepted hmem
          · exact ⟨hlt, .inl (hround ▸ hpast)⟩
          · -- The old head stamp is the one of the round before.
            have hstamps := (h.slot j).stamps
            rw [← LockFreeQueue.slot] at hstamps
            have hpos := h.rounded.pos
            omega
        · rw [List.mem_singleton] at hmem
          exact ⟨hmem ▸ hk, .inr hmem.symm⟩
  · exact .inr hne
  · exact h.once
  · exact h.values

theorem Stamped.stampTail {r : Option T} (h : s.Stamped) (ht : s.threads t = .popStamp k r) :
    Stamped { (s.setNode k { s.node k with tail := wrap (k + s.capacity) }).setThread t .idle
      with popped := s.popped ++ [(k, r)] } := by
  have hf : s.Fits (.popStamp k r) := ht ▸ h.threads t
  obtain ⟨hk, htail, hstamp, hnone, hr⟩ := hf
  have hfew := h.few
  have hle := h.head
  have hpos := h.rounded.pos
  have hcap := h.rounded.le
  have hwrap : wrap (k + s.capacity) = k + s.capacity := by
    rw [wrap]
    omega
  rw [h.rounded.node, hwrap]
  apply h.edit (a := s.accepted)
  · rw [ht]
    rfl
  · trivial
  · intro j hj
    cases hj
  · apply slotOk_edit h.rounded
    · exact Nat.add_mod_right k s.capacity
    · exact .inr (.inl (congrArg (· + s.capacity) hstamp))
    · intro _
      constructor
      · exact hnone
      · change (s.slot k).head ≠ k + s.capacity
        omega
    · intro heq
      have heq' : (s.slot k).head = k + s.capacity := heq
      omega
  · apply h.tickets_edit
    · exact fun _ _ => Iff.rfl
    · intro j hj
      rw [List.map_append, List.mem_append, List.map_singleton, List.mem_singleton]
      exact or_iff_left fun he => hj (he ▸ rfl)
    · intro j hj
      obtain ⟨hslot, hok⟩ := h.same_slot hj
      have hround : (s.slot j).tail = k := hslot ▸ htail
      -- Below the next round are the tickets of this one and the earlier ones.
      have hbelow : j < k + s.capacity ↔ j ≤ k :=
        ⟨fun hlt => Nat.ModEq.le_of_lt_add hj hlt, fun hle => by omega⟩
      apply ticketOk_edit h.rounded hj
      · intro hlt
        have := hok.taken hlt
        change j ≤ k + s.capacity
        omega
      · change _ ↔ j < k + s.capacity
        rw [List.map_append, List.mem_append, List.map_singleton, List.mem_singleton,
          hok.popped, hround, hbelow, Nat.le_iff_lt_or_eq]
      · intro hlt
        have hlt' : j < k + s.capacity := hlt
        omega
      · intro hmem
        obtain ⟨hlt, hpast | hhead⟩ := hok.accepted hmem
        · refine ⟨hlt, .inl ?_⟩
          change j < k + s.capacity
          omega
        · refine ⟨hlt, .inl ?_⟩
          change j < k + s.capacity
          rw [hslot, hstamp] at hhead
          omega
  · exact .inl rfl
  · rw [List.map_append, List.nodup_append]
    refine ⟨h.once, List.nodup_singleton k, ?_⟩
    intro j hj j' hj' he
    rw [List.map_singleton, List.mem_singleton] at hj'
    rw [he, hj'] at hj
    have := (h.tickets k).popped.mp hj
    omega
  · intro j y hmem
    rcases List.mem_append.mp hmem with hmem | hmem
    · exact h.values j y hmem
    · rw [List.mem_singleton] at hmem
      cases hmem
      exact hr

end Slots

section Runs

theorem Stamped.advance {spurious : Bool} (h : s.Stamped)
    (hs : s.advance t spurious = .ok s') (hfew : s'.pushed.length < 2 ^ 63) : s'.Stamped := by
  simp only [LockFreeQueue.advance] at hs
  have hthread := h.threads t
  split at hs
  · cases hs
  · -- `push` loads `_tail`.
    cases hs
    apply h.move
    · exact Nat.le_of_eq h.tail
    · intro k hk
      cases hk
  · next x tail ht =>
    cases hs
    rw [ht] at hthread
    apply h.move
    · split
      · trivial
      · next heq =>
        rw [h.rounded.node, ne_eq, not_not] at heq
        exact ⟨hthread, fun _ => heq⟩
    · intro k hk
      split at hk <;> cases hk
  · next x tail ht =>
    split at hs
    · next hwin =>
      cases hs
      rw [← hwin.1] at ht ⊢
      apply h.takeTail ht
      have hlen : (s.pushed ++ [x]).length < 2 ^ 63 := hfew
      rwa [List.length_append] at hlen
    · cases hs
      apply h.move
      · exact Nat.le_of_eq h.tail
      · intro k hk
        cases hk
  · next ht =>
    cases hs
    exact h.write ht
  · next ht =>
    cases hs
    exact h.stampHead ht
  · -- `pop` loads `_head`.
    cases hs
    apply h.move
    · exact Nat.le_refl s.head
    · intro k hk
      cases hk
  · next head ht =>
    cases hs
    rw [ht] at hthread
    apply h.move
    · split
      · trivial
      · next heq =>
        rw [h.rounded.node, ne_eq, not_not] at heq
        exact ⟨hthread, fun _ => heq⟩
    · intro k hk
      split at hk <;> cases hk
  · next head ht =>
    split at hs
    · next hwin =>
      cases hs
      rw [← hwin.1] at ht ⊢
      exact h.takeHead ht
    · cases hs
      apply h.move
      · exact Nat.le_refl s.head
      · intro k hk
        cases hk
  · next head ht =>
    cases hs
    rw [ht] at hthread
    obtain ⟨hk, htail, hstamp, v, hv, hget⟩ := hthread
    apply h.move
    · rw [h.rounded.node]
      exact ⟨hk, htail, hstamp, v, hv, hget⟩
    · intro k hk
      rw [ht]
      exact hk
  · next ht =>
    cases hs
    exact h.destroy ht
  · next ht =>
    cases hs
    exact h.stampTail ht

theorem Stamped.step {a : QueueAction T} (h : s.Stamped) (hs : step s a = .ok s')
    (hfew : s'.pushed.length < 2 ^ 63) : s'.Stamped := by
  cases a with
  | push t x =>
    simp only [LockFreeQueue.step] at hs
    split at hs
    · cases hs
      exact h.move trivial (by intro k hk; cases hk)
    · cases hs
  | pop t =>
    simp only [LockFreeQueue.step] at hs
    split at hs
    · cases hs
      exact h.move trivial (by intro k hk; cases hk)
    · cases hs
  | advance t spurious => exact h.advance hs hfew

/-- Every ticket from which a whole round has been pushed on has been popped. -/
theorem Stamped.length_pushed_le (h : s.Stamped) :
    s.pushed.length ≤ s.popped.length + s.capacity := by
  have hpopped : List.range (s.pushed.length - s.capacity) ⊆ s.popped.map Prod.fst := by
    intro k hk
    rw [List.mem_range] at hk
    have hround := (h.tickets (k + s.capacity)).taken (by omega)
    have hslot : s.slot (k + s.capacity) = s.slot k := by
      rw [LockFreeQueue.slot, Nat.add_mod_right, ← LockFreeQueue.slot]
    rw [hslot] at hround
    have hpos := h.rounded.pos
    exact (h.tickets k).popped.mpr (by omega)
  have hlen := (List.nodup_range.subperm hpopped).length_le
  rw [List.length_range, List.length_map] at hlen
  omega

theorem Stamped.safe (h : s.Stamped) : s.Safe := by
  constructor
  · exact h.values
  · exact h.once
  · intro t x k ht
    have hf : s.Fits (.pushWrite x k) := ht ▸ h.threads t
    rw [h.rounded.node]
    exact hf.2.2.2.1
  · intro t k ht
    have hf : s.Fits (.popRead k) := ht ▸ h.threads t
    rw [h.rounded.node]
    exact hf.2.2.2
  · intro t t' k k' ht ht' hk
    rw [h.rounded.index, h.rounded.index] at hk
    exact h.alone ht ht' hk
  · intro k hk hle
    obtain ⟨hlt, hstored⟩ := (h.tickets k).accepted hk
    rw [h.rounded.node]
    rcases hstored with hgone | hstamp
    · have := (h.tickets k).gone hgone
      omega
    · have hround : (s.slot k).tail = k := by
        have htaken := (h.tickets k).taken hlt
        have hfew := h.few
        have hgone := (h.tickets k).gone
        have hstamps := (h.slot k).stamps
        rw [← LockFreeQueue.slot] at hstamps
        omega
      have hfull := (h.slot k).full
      rw [← LockFreeQueue.slot, hround] at hfull
      exact hfull hstamp hle
  · exact h.length_pushed_le

end Runs

end HighPerformance.LockFreeQueue
