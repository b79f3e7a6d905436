import HighPerformance.ThreadsafeListSteps
import HighPerformance.Types

/-!
# Runs of the list with a lock for each node

No step touches a node that is not in use, and nobody overtakes: the calls return what they return
one after the other, in the order in which they hold the lock of `head_`. As long as a thread is in a
call, one of the threads takes a step.
-/

namespace HighPerformance.ThreadsafeList
open FallibleRun CallHistory PipelinedPasses

variable {τ T : Type} [DecidableEq τ]

section Runs
variable {s s' : ThreadsafeList τ T} {nodes : List (ℕ × T)} {t : τ}
  {is : List (ThreadsafeListAction τ T)}

theorem Rep.init : Rep ({} : ThreadsafeList τ T) [] := by
  have howner : ∀ place, ownerOf ({} : ThreadsafeList τ T).heap place = none := by
    intro place
    exact (ownerOf_set rfl).trans (by split <;> rfl)
  refine ⟨rfl, ?_, List.nodup_nil, ?_, ?_, ?_, ?_, fun _ => trivial, ?_⟩
  · exact (nextOf_set rfl).trans (if_pos rfl)
  · intro place t
    rw [howner]
    exact ⟨fun h => (by cases h), fun h => (by cases h)⟩
  · intro a
    simp [ThreadsafeListPc.unreachable]
  · simp [ThreadsafeListPc.unreachable]
  · simp [ThreadsafeListPc.unreachable]
  · have hitems : ({} : ThreadsafeList τ T).items [] = [] := by
      rw [items, passAt_free (howner none)]
      rfl
    rw [hitems]
    exact Settled.init

theorem Good.step (h : Good s) (i : ThreadsafeListAction τ T) : ∃ s', s.step i = .ok s' ∧ Good s' := by
  obtain ⟨nodes, h⟩ := h
  cases i with
  | call t request address => exact ⟨_, rfl, nodes, h.call t request address⟩
  | go t => exact h.go t

/-- No step touches a node that is not in use, reads an element that is not there or destroys a mutex
that is locked. -/
theorem run_good (is : List (ThreadsafeListAction τ T)) :
    ∃ s, run step ({} : ThreadsafeList τ T) is = .ok s ∧ Good s := by
  have hmeets : Meets step (fun _ _ => True) ({} : ThreadsafeList τ T) is :=
    meets_of_forall fun _ _ => trivial
  rcases run_progress (E := fun _ => False) ⟨[], Rep.init⟩ hmeets
    (fun s i h _ => .inl (Good.step h i)) with h | ⟨_, _, hfalse⟩
  · exact h
  · exact hfalse.elim

omit [DecidableEq τ] in
theorem items_of_free (h : ∀ place, ownerOf s.heap place = none) :
    s.items nodes = cells (nodes.map Prod.snd) := by
  rw [items, passAt_free (h none), List.nil_append]
  induction nodes with
  | nil => rfl
  | cons e nodes ih =>
    rw [List.flatMap_cons, ih, segment, passAt_free (h _), passAt_free (h _)]
    rfl

theorem Rep.told_all (h : Rep s nodes) (hpc : s.pc t = .idle) :
    s.returned t = callsOf t (serial ListRequest.perform [] s.entered).2 := by
  have hnot : t ∉ walkers (s.items nodes) :=
    not_mem_walkers (by rw [hpc]; rfl) (by rw [hpc]; rfl)
  have hnone : callsOf t (listWalk.settle (s.items nodes)).2 = [] :=
    callsOf_eq_nil fun e he hte => hnot (hte ▸ mem_walkers_of_result e he)
  rw [h.settled.calls t, hnone, told, hpc]
  simp [ThreadsafeListPc.pending]

/-- When no thread is in a call, the list is what the calls leave, and all other nodes are gone. -/
theorem Rep.at_rest (h : Rep s nodes) (hidle : ∀ t, s.pc t = .idle) :
    Chain s.heap none nodes ∧
      nodes.map Prod.snd = (serial ListRequest.perform [] s.entered).1 ∧
      ∀ a, (s.heap (some a)).isSome ↔ a ∈ nodes.map Prod.fst := by
  have hnobody : ∀ place, ownerOf s.heap place = none := by
    intro place
    cases howner : ownerOf s.heap place with
    | none => rfl
    | some t => exact (h.owner_calls howner (hidle t)).elim
  refine ⟨h.chain, ?_, ?_⟩
  · rw [h.settled.contents, items_of_free hnobody, settle_cells]
  · intro a
    rw [h.inUse]
    refine or_iff_left ?_
    rintro ⟨t, ht⟩
    rw [hidle t] at ht
    cases ht

/-- Any interleaving of the steps goes well, and each thread is told what its calls return when the
calls are performed one after the other in the order in which they held the lock of `head_`. When
nobody is in a call, the list holds what these calls leave, and no other node is in use. -/
theorem run_pipelined (is : List (ThreadsafeListAction τ T)) :
    ∃ s, run step ({} : ThreadsafeList τ T) is = .ok s ∧
      (∀ t, s.returned t <+: callsOf t (serial ListRequest.perform [] s.entered).2) ∧
      (∀ t, s.pc t = .idle →
        s.returned t = callsOf t (serial ListRequest.perform [] s.entered).2) ∧
      ((∀ t, s.pc t = .idle) → ∃ nodes, Chain s.heap none nodes ∧
        nodes.map Prod.snd = (serial ListRequest.perform [] s.entered).1 ∧
        ∀ a, (s.heap (some a)).isSome ↔ a ∈ nodes.map Prod.fst) := by
  obtain ⟨s, hs, nodes, h⟩ := run_good is
  refine ⟨s, hs, ?_, fun t ht => h.told_all ht, fun hidle => ⟨nodes, h.at_rest hidle⟩⟩
  intro t
  rw [h.settled.calls t, told, List.append_assoc]
  exact List.prefix_append _ _

/-! ### No deadlock -/

/-- The thread takes a step. -/
def CanGo (s : ThreadsafeList τ T) (t : τ) : Prop := ∃ s', s.go t = .ok s' ∧ s'.pc t ≠ s.pc t

theorem lock_canGo {place : Option ℕ} {pc : ThreadsafeListPc T} {n : ListNode τ T}
    (hn : s.heap place = some n) (hfree : n.owner = none) (hgo : s.go t = s.lock t place pc)
    (hne : pc ≠ s.pc t) : CanGo s t := by
  refine ⟨_, hgo.trans (lock_eq_ok hn hfree), ?_⟩
  change Function.update s.pc t pc t ≠ s.pc t
  rwa [Function.update_self]

theorem pc_goto {pc : ThreadsafeListPc T} : (s.goto t pc).pc t = pc := Function.update_self ..

theorem pc_leave {result : ListRequest T × ListAnswer T} : (s.leave t result).pc t = .idle :=
  Function.update_self ..

/-- The mutex that a thread locks next. -/
def waitsFor : ThreadsafeListPc T → Option (Option ℕ)
  | .pushLock _ _ | .lockHead _ => some none
  | .lockNext _ _ next => some (some next)
  | _ => none

theorem Rep.canGo (h : Rep s nodes) (hwaits : waitsFor (s.pc t) = none) (hcall : s.pc t ≠ .idle) :
    CanGo s t := by
  obtain ⟨s', hgo, -⟩ := h.go t
  refine ⟨s', hgo, ?_⟩
  unfold ThreadsafeList.go at hgo
  cases hpc : s.pc t with
  | idle => exact (hcall hpc).elim
  | pushLock value newNode | lockHead k | lockNext k current next =>
    rw [hpc] at hwaits
    cases hwaits
  | pushUnlock value | unlockLast k current | unlockFound p next res =>
    rw [hpc] at hgo
    obtain ⟨u, -, rfl⟩ := map_eq_ok hgo
    rw [pc_leave]
    nofun
  | unlockCurrent w current next | unlockRemoved p current oldNext | advance p current next =>
    rw [hpc] at hgo
    obtain ⟨u, -, rfl⟩ := map_eq_ok hgo
    rw [pc_goto]
    nofun
  | pushLink value newNode =>
    rw [hpc] at hgo
    obtain ⟨head, -, hgo⟩ := bind_eq_ok.mp hgo
    obtain ⟨n, -, hgo⟩ := bind_eq_ok.mp hgo
    cases hgo
    change (ThreadsafeList.goto _ t _).pc t ≠ _
    rw [pc_goto]
    nofun
  | readNext k current =>
    rw [hpc] at hgo
    obtain ⟨n, -, hgo⟩ := bind_eq_ok.mp hgo
    cases hnext : n.next with
    | some next =>
      rw [hnext] at hgo
      cases hgo
      rw [pc_goto]
      nofun
    | none =>
      rw [hnext] at hgo
      cases hgo
      rw [pc_goto]
      nofun
  | visit w next =>
    rw [hpc] at hgo
    obtain ⟨n, -, hgo⟩ := bind_eq_ok.mp hgo
    obtain ⟨x, -, hgo⟩ := bind_eq_ok.mp hgo
    cases w with
    | forEach f visited =>
      cases hgo
      rw [pc_goto]
      nofun
    | findFirstIf p =>
      by_cases hp : p x
      · cases (if_pos hp).symm.trans hgo
        rw [pc_goto]
        nofun
      · cases (if_neg hp).symm.trans hgo
        rw [pc_goto]
        nofun
  | test p current next =>
    rw [hpc] at hgo
    obtain ⟨n, -, hgo⟩ := bind_eq_ok.mp hgo
    obtain ⟨x, -, hgo⟩ := bind_eq_ok.mp hgo
    cases hgo
    rw [pc_goto]
    cases p x with
    | true => nofun
    | false => nofun
  | unlink p current next =>
    rw [hpc] at hgo
    obtain ⟨c, -, hgo⟩ := bind_eq_ok.mp hgo
    obtain ⟨n, -, hgo⟩ := bind_eq_ok.mp hgo
    cases hgo
    rw [pc_goto]
    nofun
  | delete p current oldNext =>
    rw [hpc] at hgo
    obtain ⟨n, -, hgo⟩ := bind_eq_ok.mp hgo
    by_cases hn : n.owner.isSome
    · cases (if_pos hn).symm.trans hgo
    · cases (if_neg hn).symm.trans hgo
      rw [pc_goto]
      nofun

theorem Rep.canLock (h : Rep s nodes) {place : Option ℕ}
    (hwaits : waitsFor (s.pc t) = some place) (hfree : ownerOf s.heap place = none) : CanGo s t := by
  have hok := h.pcOk t
  cases hpc : s.pc t with
  | pushLock value newNode =>
    rw [hpc] at hwaits
    cases hwaits
    obtain ⟨n, hn⟩ := h.head_live
    have hgo : s.go t = s.lock t none (.pushLink value newNode) := by rw [ThreadsafeList.go, hpc]
    refine lock_canGo hn (owner_eq hn ▸ hfree) hgo ?_
    rw [hpc]
    nofun
  | lockHead k =>
    rw [hpc] at hwaits
    cases hwaits
    obtain ⟨n, hn⟩ := h.head_live
    have hn' : n.owner = none := owner_eq hn ▸ hfree
    refine ⟨((s.set none (some { n with owner := some t })).goto t (.readNext k none)).enter t
      k.request, ?_, ?_⟩
    · rw [ThreadsafeList.go, hpc]
      change s.lockHead t k = _
      rw [ThreadsafeList.lockHead, node_eq_ok hn]
      exact if_neg (by simp [hn'])
    · change (ThreadsafeList.goto _ t _).pc t ≠ _
      rw [pc_goto, hpc]
      nofun
  | lockNext k current next =>
    rw [hpc] at hwaits hok
    cases hwaits
    obtain ⟨n, hn⟩ := h.place_live (h.next_mem hok.1 hok.2)
    have hgo : s.go t = s.lock t (some next) (afterLock k current next) := by
      rw [ThreadsafeList.go, hpc]
    refine lock_canGo hn (owner_eq hn ▸ hfree) hgo ?_
    rw [hpc]
    cases k with
    | walk w => nofun
    | removeIf p => nofun
  | _ =>
    rw [hpc] at hwaits
    cases hwaits

theorem Rep.waits_mem (h : Rep s nodes) {place : Option ℕ}
    (hwaits : waitsFor (s.pc t) = some place) : place ∈ places nodes := by
  have hok := h.pcOk t
  cases hpc : s.pc t with
  | pushLock value newNode | lockHead k =>
    rw [hpc] at hwaits
    cases hwaits
    exact List.mem_cons_self
  | lockNext k current next =>
    rw [hpc] at hwaits hok
    cases hwaits
    exact h.next_mem hok.1 hok.2
  | _ =>
    rw [hpc] at hwaits
    cases hwaits

/-- A thread that has locked a place waits for the node behind it, if for any. -/
theorem Rep.waits_next (h : Rep s nodes) {place place' : Option ℕ}
    (howner : ownerOf s.heap place = some t) (hwaits : waitsFor (s.pc t) = some place') :
    ∃ next, place' = some next ∧ nextOf s.heap place = some next := by
  have hok := h.pcOk t
  have hheld := (h.locks place t).mp howner
  cases hpc : s.pc t with
  | pushLock value newNode | lockHead k =>
    rw [hpc] at hheld
    cases hheld
  | lockNext k current next =>
    rw [hpc] at hwaits hok hheld
    cases hwaits
    rw [List.mem_singleton.mp hheld]
    exact ⟨next, rfl, hok.2⟩
  | _ =>
    rw [hpc] at hwaits
    cases hwaits

/-- The threads that have locked places wait for each other from the front to the end of the list;
the one in front waits for nobody. -/
theorem Rep.canGo_behind (h : Rep s nodes) {place : Option ℕ} {rest : List (ℕ × T)}
    (hrest : Chain s.heap place rest) (howner : ownerOf s.heap place = some t) : ∃ u, CanGo s u := by
  induction rest generalizing place t with
  | nil =>
    refine ⟨t, h.canGo ?_ (h.owner_calls howner)⟩
    cases hwaits : waitsFor (s.pc t) with
    | none => rfl
    | some place' =>
      obtain ⟨next, -, hnext⟩ := h.waits_next howner hwaits
      cases hnext.symm.trans hrest
  | cons e rest ih =>
    obtain ⟨hb, -, hrest⟩ := hrest
    cases hwaits : waitsFor (s.pc t) with
    | none => exact ⟨t, h.canGo hwaits (h.owner_calls howner)⟩
    | some place' =>
      obtain ⟨next, rfl, hnext⟩ := h.waits_next howner hwaits
      cases hb.symm.trans hnext
      cases howner' : ownerOf s.heap (some e.1) with
      | none => exact ⟨t, h.canLock hwaits howner'⟩
      | some u => exact ih hrest howner'

/-- As long as a thread is in a call, one of the threads takes a step. -/
theorem run_deadlockFree (is : List (ThreadsafeListAction τ T)) :
    ∃ s, run step ({} : ThreadsafeList τ T) is = .ok s ∧
      ∀ t, s.pc t ≠ .idle → ∃ u, CanGo s u := by
  obtain ⟨s, hs, nodes, h⟩ := run_good is
  refine ⟨s, hs, ?_⟩
  intro t hcall
  cases hwaits : waitsFor (s.pc t) with
  | none => exact ⟨t, h.canGo hwaits hcall⟩
  | some place =>
    cases howner : ownerOf s.heap place with
    | none => exact ⟨t, h.canLock hwaits howner⟩
    | some u =>
      obtain ⟨-, post, -, -, hpost⟩ := h.chain.split (h.waits_mem hwaits)
      exact h.canGo_behind hpost howner

end Runs

end HighPerformance.ThreadsafeList
