import HighPerformance.LockFreeStack
import Mathlib.Data.List.Nodup
import Mathlib.Data.List.Perm.Subperm

/-!
# The steps of the lock-free stack

Each step of a thread finds the nodes that it needs and leaves a stack behind the heap on which the
calls that have taken effect have had their effect in this order, unless it is a scan that deletes a
node again.
-/

namespace HighPerformance.LockFreeStack
open FallibleRun CallHistory HazardPointer

/-- A step of thread `t` leaves to the others what they have, and spares what they protect. -/
structure Frame (t : ThreadId) (s s' : LockFreeStack) : Prop where
  pc : ∀ u ≠ t, s'.pc u = s.pc u
  returned : ∀ u ≠ t, s'.returned u = s.returned u
  calls : ∀ u ≠ t, callsOf u s'.calls = callsOf u s.calls
  retiredList : ∀ u ≠ t, s'.retiredList u = s.retiredList u
  hpList : ∀ u ≠ t, s'.hpList (slot u) = s.hpList (slot u)
  active : ∀ u ≠ t, s'.active (slot u) = s.active (slot u)
  own : ∀ u ≠ t, ∀ a ∈ s.limbo u, s'.heap a = s.heap a
  guard : ∀ u ≠ t, ∀ a, (s.pc u).guard = some a → s'.heap a = s.heap a ∧
    (s'.pc t).fresh ≠ some a ∧ (a ∈ s'.retiredList t → (s'.pc t).Spares (slot u) a)

section Frames
variable {s s' : LockFreeStack} {nodes nodes' : List (ℕ × ℤ)} {t u : ThreadId} {a : ℕ}
  {pc : LockFreeStackPc} {heap heap' : ℕ → Option LockFreeStackNode}

theorem pending_congr (h : ∀ a, pc.own = some a → heap' a = heap a) :
    pc.pending heap' = pc.pending heap := by
  cases pc with
  | loadData hp a => rw [LockFreeStackPc.pending, LockFreeStackPc.pending, h a rfl]
  | _ => rfl

theorem Frame.limbo (f : Frame t s s') (hu : u ≠ t) : s'.limbo u = s.limbo u := by
  rw [LockFreeStack.limbo, LockFreeStack.limbo, f.retiredList u hu, f.pc u hu]

theorem Frame.told (f : Frame t s s') (hu : u ≠ t) : s'.told u = s.told u := by
  rw [LockFreeStack.told, LockFreeStack.told, f.returned u hu, f.pc u hu,
    pending_congr fun a ha => f.own u hu a (mem_limbo_of_own ha)]

theorem Frame.counts (f : Frame t s s') (h : s.Counts u) (hu : u ≠ t) : s'.Counts u := by
  obtain ⟨hretired, hfew, hlast⟩ := h
  rw [← f.retiredList u hu, ← f.returned u hu, ← f.pc u hu] at hretired
  rw [← f.returned u hu] at hfew hlast
  rw [← f.pc u hu] at hlast
  exact ⟨hretired, hfew, hlast⟩

theorem Frame.pcOk (f : Frame t s s') (h : Rep s nodes) (hu : u ≠ t) : s'.PcOk u (s'.pc u) := by
  have hok := h.pcOk u
  have hown := fun a ha => f.own u hu a (mem_limbo_of_own ha)
  have hguard := f.guard u hu
  rw [f.pc u hu]
  cases hpc : s.pc u with
  | pushLoad value a | pushCas value a =>
    rw [hpc] at hok hown
    obtain ⟨next, hn⟩ := hok
    exact ⟨next, (hown a rfl).trans hn⟩
  | validate hp oldHead =>
    rw [hpc] at hok
    obtain ⟨rfl, hold⟩ := hok
    exact ⟨rfl, (f.hpList u hu).trans hold⟩
  | popCas hp a next =>
    rw [hpc] at hok hguard
    obtain ⟨hhp, data, hn⟩ := hok
    exact ⟨hhp, data, (hguard a rfl).1.trans hn⟩
  | sweep protectedPtrs kept rest toDelete deleted value =>
    rw [hpc] at hok
    obtain ⟨hlength, hkept, hretired, hdeleted⟩ := hok
    exact ⟨hlength, hkept, (f.retiredList u hu).trans hretired, hdeleted⟩
  | _ =>
    rw [hpc] at hok
    exact hok

theorem Frame.protected (f : Frame t s s') (h : s.Protected u a) (hguard : (s.pc u).guard = some a)
    (hu : u ≠ t) : s'.Protected u a := by
  obtain ⟨hheap, hfresh, hspares⟩ := f.guard u hu a hguard
  refine ⟨(f.hpList u hu).trans h.hp, ?_, ?_, ?_⟩
  · rw [hheap]
    exact h.inUse
  · intro v
    by_cases hv : v = t
    · rw [hv]
      exact hfresh
    · rw [f.pc v hv]
      exact h.old v
  · intro v
    by_cases hv : v = t
    · rw [hv]
      exact hspares
    · rw [f.pc v hv, f.retiredList v hv]
      exact h.spared v

/-- What is left to show of a step is what thread `t` and the stack see. -/
theorem Rep.of_frame (h : Rep s nodes) (f : Frame t s s') (hlinks : Links s'.heap s'.head nodes')
    (hnodup : (nodes'.map Prod.fst).Nodup)
    (hinUse : ∀ a, (s'.heap a).isSome ↔ a ∈ nodes'.map Prod.fst ∨ ∃ u, a ∈ s'.limbo u)
    (hapart : ∀ u, ∀ a ∈ s'.limbo u, a ∉ nodes'.map Prod.fst)
    (halone : ∀ u ≠ t, ∀ a ∈ s'.limbo t, a ∉ s.limbo u) (hlimboNodup : (s'.limbo t).Nodup)
    (hactive : s'.active (slot t) = (s'.pc t).usesHp) (hok : s'.PcOk t (s'.pc t))
    (hguarded : ∀ a, (s'.pc t).guard = some a → s'.Protected t a) (hcounts : s'.Counts t)
    (hreplays : Replays LockFreeStackCall.Effect [] s'.calls (nodes'.map Prod.snd))
    (hanswers : callsOf t s'.calls = s'.told t) : Rep s' nodes' := by
  refine ⟨hlinks, hnodup, hinUse, hapart, ?_, ?_, ?_, ?_, ?_, ?_, hreplays, ?_⟩
  · intro u v a hu hv
    by_cases hut : u = t
    · by_contra hne
      have hvt : v ≠ t := fun hvt => hne (hut.trans hvt.symm)
      rw [f.limbo hvt] at hv
      exact halone v hvt a (hut ▸ hu) hv
    · rw [f.limbo hut] at hu
      by_cases hvt : v = t
      · exact (halone u hut a (hvt ▸ hv) hu).elim
      · rw [f.limbo hvt] at hv
        exact h.alone u v a hu hv
  · intro u
    by_cases hu : u = t
    · rw [hu]
      exact hlimboNodup
    · rw [f.limbo hu]
      exact h.limboNodup u
  · intro u
    by_cases hu : u = t
    · rw [hu]
      exact hactive
    · rw [f.active u hu, f.pc u hu]
      exact h.active u
  · intro u
    by_cases hu : u = t
    · rw [hu]
      exact hok
    · exact f.pcOk h hu
  · intro u a
    by_cases hu : u = t
    · rw [hu]
      exact hguarded a
    · intro hguard
      rw [f.pc u hu] at hguard
      exact f.protected (h.guarded u a hguard) hguard hu
  · intro u
    by_cases hu : u = t
    · rw [hu]
      exact hcounts
    · exact f.counts (h.counts u) hu
  · intro u
    by_cases hu : u = t
    · rw [hu]
      exact hanswers
    · rw [f.calls u hu, f.told hu]
      exact h.answers u

theorem Rep.keeps (h : Rep s nodes) (hpcs : s'.pc = Function.update s.pc t pc)
    (hheap : s'.heap = s.heap) (hhead : s'.head = s.head)
    (hretired : ∀ u ≠ t, s'.retiredList u = s.retiredList u)
    (hlimbo : s'.retiredList t ++ pc.own.toList = s.limbo t)
    (hhpList : ∀ u ≠ t, s'.hpList (slot u) = s.hpList (slot u))
    (hactives : ∀ u ≠ t, s'.active (slot u) = s.active (slot u))
    (hreturned : ∀ u ≠ t, s'.returned u = s.returned u)
    (hcalls : ∀ u ≠ t, callsOf u s'.calls = callsOf u s.calls) (hfresh : pc.fresh = none)
    (hspares : ∀ u ≠ t, ∀ a, (s.pc u).guard = some a → a ∈ s'.retiredList t → pc.Spares (slot u) a)
    (hactive : s'.active (slot t) = pc.usesHp) (hok : s'.PcOk t pc)
    (hguarded : ∀ a, pc.guard = some a → s'.Protected t a) (hcounts : s'.Counts t)
    (hreplays : Replays LockFreeStackCall.Effect [] s'.calls (nodes.map Prod.snd))
    (hanswers : callsOf t s'.calls = s'.told t) : Rep s' nodes := by
  have hself : s'.pc t = pc := by rw [hpcs, Function.update_self]
  have hother : ∀ u ≠ t, s'.pc u = s.pc u := fun u hu => by rw [hpcs, Function.update_of_ne hu]
  have hframe : Frame t s s' := by
    refine ⟨hother, hreturned, hcalls, hretired, hhpList, hactives, fun _ _ _ _ => by rw [hheap], ?_⟩
    intro u hu a hguard
    rw [hself, hheap, hfresh]
    exact ⟨rfl, (Option.some_ne_none _).symm, hspares u hu a hguard⟩
  have hsame : s'.limbo t = s.limbo t := by rw [LockFreeStack.limbo, hself, hlimbo]
  have hlimbos : ∀ u, s'.limbo u = s.limbo u := by
    intro u
    by_cases hu : u = t
    · rw [hu, hsame]
    · exact hframe.limbo hu
  refine h.of_frame hframe (hheap ▸ hhead ▸ h.links) h.nodup ?_ ?_ ?_ (hsame ▸ h.limboNodup t)
    (hself ▸ hactive) (hself ▸ hok) (hself ▸ hguarded) hcounts hreplays hanswers
  · intro a
    simp only [hheap, hlimbos]
    exact h.inUse a
  · intro u a ha
    exact h.apart u a (hlimbos u ▸ ha)
  · intro u hu a ha hua
    exact hu (h.alone u t a hua (hsame ▸ ha))

end Frames

/-! ### The steps -/

section Steps
variable {s s' : LockFreeStack} {nodes : List (ℕ × ℤ)} {t u : ThreadId} {pc : LockFreeStackPc}
  {hpList : Table} {active : ℕ → Bool} {call : LockFreeStackCall} {a hp i : ℕ}
  {oldHead next : Option ℕ} {res : PopResult} {value : ℤ}

theorem toDelete_of_not_scans (h : pc.scans = false) : pc.toDelete = [] := by
  cases pc with
  | sweep => cases h
  | _ => rfl

theorem spares_of_not_scans (h : pc.scans = false) : pc.Spares i a := by
  cases pc with
  | collect | sweep => cases h
  | _ => trivial

/-- The counts of a thread that goes on with what it has retired and returned. -/
theorem Counts.congr (h : s.Counts t) (hretired : s'.retiredList t = s.retiredList t)
    (hreturned : s'.returned t = s.returned t) (hscans : (s.pc t).scans = false)
    (hscans' : (s'.pc t).scans = false) : s'.Counts t := by
  obtain ⟨hlength, hfew, -⟩ := h
  rw [toDelete_of_not_scans hscans, hscans] at hlength
  refine ⟨?_, hreturned ▸ hfew, ?_⟩
  · rw [hretired, hreturned, toDelete_of_not_scans hscans', hscans']
    exact hlength
  · rw [hscans']
    exact fun hscans => (Bool.false_ne_true hscans).elim

/-- A step between two places of a call with the same nodes and the same answer. -/
structure Quiet (heap : ℕ → Option LockFreeStackNode) (old new : LockFreeStackPc) : Prop where
  own : new.own = old.own
  fresh : new.fresh = none
  scans : old.scans = false ∧ new.scans = false
  pending : new.pending heap = old.pending heap

/-- The thread may change its own hazard pointer. -/
theorem Rep.moves (h : Rep s nodes) (hquiet : Quiet s.heap (s.pc t) pc)
    (hhpList : ∀ u ≠ t, hpList (slot u) = s.hpList (slot u))
    (hactives : ∀ u ≠ t, active (slot u) = s.active (slot u))
    (hactive : active (slot t) = pc.usesHp)
    (hok : ({ s.goto t pc with hpList := hpList, active := active } : LockFreeStack).PcOk t pc)
    (hguarded : ∀ a, pc.guard = some a →
      ({ s.goto t pc with hpList := hpList, active := active } : LockFreeStack).Protected t a) :
    Rep { s.goto t pc with hpList := hpList, active := active } nodes := by
  have hself : (s.goto t pc).pc t = pc := Function.update_self ..
  refine h.keeps (t := t) rfl rfl rfl (fun _ _ => rfl) ?_ hhpList hactives (fun _ _ => rfl)
    (fun _ _ => rfl) hquiet.fresh ?_ hactive hok hguarded ?_ h.replays ?_
  · rw [hquiet.own]
    rfl
  · exact fun _ _ _ _ _ => spares_of_not_scans hquiet.scans.2
  · exact (h.counts t).congr rfl rfl hquiet.scans.1 (hself.symm ▸ hquiet.scans.2)
  · rw [told, hself]
    change callsOf t s.calls = s.returned t ++ pc.pending s.heap
    rw [hquiet.pending]
    exact h.answers t

theorem Rep.moves_goto (h : Rep s nodes) (hquiet : Quiet s.heap (s.pc t) pc)
    (huses : pc.usesHp = (s.pc t).usesHp) (hok : (s.goto t pc).PcOk t pc)
    (hguarded : ∀ a, pc.guard = some a → (s.goto t pc).Protected t a) : Rep (s.goto t pc) nodes := by
  have hactive : s.active (slot t) = pc.usesHp := by rw [h.active, huses]
  exact h.moves hquiet (fun _ _ => rfl) (fun _ _ => rfl) hactive hok hguarded

theorem Rep.acquire (h : Rep s nodes) (hpc : s.pc t = .acquire i) : Rep (s.acquire t i) nodes := by
  have hok : s.PcOk t (.acquire i) := hpc ▸ h.pcOk t
  obtain rfl : i = 0 := hok
  have hfree : s.active (slot t) = false := by
    rw [h.active, hpc]
    rfl
  have hnext : s.acquire t 0 = { s.goto t (.popLoad (slot t)) with
      active := Function.update s.active (slot t) true } := by
    rw [LockFreeStack.acquire, if_pos (by decide), Nat.add_zero, hfree, if_neg Bool.false_ne_true]
  rw [hnext]
  refine h.moves ?_ (fun _ _ => rfl) ?_ (Function.update_self ..) rfl (of_none rfl)
  · rw [hpc]
    exact ⟨rfl, rfl, ⟨rfl, rfl⟩, rfl⟩
  · intro u hu
    exact Function.update_of_ne (fun hslot => hu (slot_inj.mp hslot)) ..

theorem Rep.popLoad (h : Rep s nodes) (hpc : s.pc t = .popLoad hp) :
    Rep (s.goto t (.protect hp s.head)) nodes := by
  have hok : s.PcOk t (.popLoad hp) := hpc ▸ h.pcOk t
  refine h.moves_goto ?_ ?_ hok (of_none rfl)
  · rw [hpc]
    exact ⟨rfl, rfl, ⟨rfl, rfl⟩, rfl⟩
  · rw [hpc]
    rfl

theorem Rep.setHp (h : Rep s nodes) (hquiet : Quiet s.heap (s.pc t) pc) (huses : (s.pc t).usesHp = true)
    (huses' : pc.usesHp = true) (hguard : pc.guard = none)
    (hok : ({ s.goto t pc with
      hpList := Function.update s.hpList (slot t) oldHead } : LockFreeStack).PcOk t pc) :
    Rep { s.goto t pc with hpList := Function.update s.hpList (slot t) oldHead } nodes := by
  have hactive : s.active (slot t) = pc.usesHp := by rw [h.active, huses, huses']
  refine h.moves hquiet ?_ (fun _ _ => rfl) hactive hok ?_
  · intro u hu
    exact Function.update_of_ne (fun hslot => hu (slot_inj.mp hslot)) ..
  · intro a ha
    cases hguard.symm.trans ha

theorem Rep.protect (h : Rep s nodes) (hpc : s.pc t = .protect hp oldHead) :
    Rep { s.goto t (.validate hp oldHead) with
      hpList := Function.update s.hpList hp oldHead } nodes := by
  have hok : s.PcOk t (.protect hp oldHead) := hpc ▸ h.pcOk t
  obtain rfl : hp = slot t := hok
  refine h.setHp ?_ ?_ rfl rfl ⟨rfl, Function.update_self ..⟩
  · rw [hpc]
    exact ⟨rfl, rfl, ⟨rfl, rfl⟩, rfl⟩
  · rw [hpc]
    rfl

theorem Rep.clearPointer (h : Rep s nodes) (hpc : s.pc t = .clearPointer hp res) :
    Rep { s.goto t (.clearActive hp res) with hpList := Function.update s.hpList hp none } nodes := by
  have hok : s.PcOk t (.clearPointer hp res) := hpc ▸ h.pcOk t
  obtain rfl : hp = slot t := hok
  refine h.setHp ?_ ?_ rfl rfl rfl
  · rw [hpc]
    exact ⟨rfl, rfl, ⟨rfl, rfl⟩, rfl⟩
  · rw [hpc]
    rfl

theorem Rep.protected_goto (h : Rep s nodes) (ha : a ∈ nodes.map Prod.fst)
    (hhp : s.hpList (slot t) = some a) (hfresh : pc.fresh = none) : (s.goto t pc).Protected t a := by
  refine ⟨hhp, (h.inUse a).mpr (.inl ha), ?_, ?_⟩
  · intro u
    by_cases hu : u = t
    · rw [hu, goto_pc_self, hfresh]
      exact (Option.some_ne_none _).symm
    · rw [goto_pc_other hu]
      exact fun hfresh' => h.apart u a (mem_limbo_of_own (own_of_fresh hfresh')) ha
  · intro u hu
    exact (h.apart u a (mem_limbo_of_retired hu) ha).elim

theorem Rep.givesUp (h : Rep s nodes) (hquiet : Quiet s.heap (s.pc t) .idle)
    (huses : (s.pc t).usesHp = true) (hhp : hp = slot t) (hnone : res.node = none)
    (heffect : LockFreeStackCall.Effect (nodes.map Prod.snd) res.call (nodes.map Prod.snd)) :
    Rep ((s.goto t (.clearPointer hp res)).enter t res.call) nodes := by
  have hself : ((s.goto t (.clearPointer hp res)).enter t res.call).pc t = .clearPointer hp res :=
    Function.update_self ..
  refine h.keeps (t := t) rfl rfl rfl (fun _ _ => rfl) ?_ (fun _ _ => rfl) (fun _ _ => rfl)
    (fun _ _ => rfl) ?_ rfl (fun _ _ _ _ _ => trivial) ?_ hhp (of_none rfl) ?_
    (h.replays.concat t heffect) ?_
  · rw [limbo, ← hquiet.own, LockFreeStackPc.own, hnone]
    rfl
  · intro u hu
    exact callsOf_concat_other (Ne.symm hu)
  · exact (h.active t).trans huses
  · exact (h.counts t).congr rfl rfl hquiet.scans.1 (hself.symm ▸ rfl)
  · rw [told, hself]
    change callsOf t (s.calls ++ [(t, res.call)]) = s.returned t ++ [res.call]
    rw [callsOf_concat_own, h.answers t, told, ← hquiet.pending]
    exact congrArg (· ++ [res.call]) (List.append_nil _)

theorem Rep.validate (h : Rep s nodes) (hpc : s.pc t = .validate hp oldHead) :
    Rep (s.validate t hp oldHead) nodes := by
  have hok : s.PcOk t (.validate hp oldHead) := hpc ▸ h.pcOk t
  obtain ⟨rfl, hhp⟩ := hok
  have huses : (s.pc t).usesHp = true := by
    rw [hpc]
    rfl
  have hquiet : ∀ {pc : LockFreeStackPc}, pc.own = none → pc.fresh = none → pc.scans = false →
      pc.pending s.heap = [] → Quiet s.heap (s.pc t) pc := by
    intro pc hown hfresh hscans hpending
    rw [hpc]
    exact ⟨hown, hfresh, ⟨rfl, hscans⟩, hpending⟩
  unfold LockFreeStack.validate
  by_cases hsame : oldHead = s.head
  · rw [if_pos hsame]
    have hlinks := h.links
    rw [← hsame] at hlinks
    cases nodes with
    | nil =>
      obtain rfl : oldHead = none := hlinks
      exact h.givesUp (hquiet rfl rfl rfl rfl) huses rfl rfl .popEmpty
    | cons e rest =>
      obtain ⟨rfl, -⟩ := hlinks
      refine h.moves_goto (hquiet rfl rfl rfl rfl) huses.symm rfl ?_
      intro a ha
      cases ha
      exact h.protected_goto List.mem_cons_self hhp rfl
  · rw [if_neg hsame]
    exact h.moves_goto (hquiet rfl rfl rfl rfl) huses.symm rfl (of_none rfl)

theorem Rep.loadNext (h : Rep s nodes) (hpc : s.pc t = .loadNext hp a) :
    ∃ s', s.loadNext t hp a = .ok s' ∧ Rep s' nodes := by
  have hok : s.PcOk t (.loadNext hp a) := hpc ▸ h.pcOk t
  have hguard : (s.pc t).guard = some a := by
    rw [hpc]
    rfl
  obtain ⟨hhp, hin, hold, hspared⟩ := h.guarded t a hguard
  obtain ⟨n, hn⟩ := Option.isSome_iff_exists.mp hin
  refine ⟨s.goto t (.popCas hp a n.next), ?_, ?_⟩
  · rw [LockFreeStack.loadNext, node_eq_ok hn]
    rfl
  refine h.moves_goto ?_ ?_ ⟨hok, n.data, hn⟩ ?_
  · rw [hpc]
    exact ⟨rfl, rfl, ⟨rfl, rfl⟩, rfl⟩
  · rw [hpc]
    rfl
  · intro b hb
    cases hb
    refine ⟨hhp, hin, ?_, ?_⟩
    · intro u
      by_cases hu : u = t
      · rw [hu, goto_pc_self]
        exact (Option.some_ne_none _).symm
      · rw [goto_pc_other hu]
        exact hold u
    · intro u hmem
      by_cases hu : u = t
      · rw [hu, goto_pc_self]
        trivial
      · rw [goto_pc_other hu]
        exact hspared u hmem

theorem Rep.loadData (h : Rep s nodes) (hpc : s.pc t = .loadData hp a) :
    ∃ s', s.loadData t hp a = .ok s' ∧ Rep s' nodes := by
  have hok : s.PcOk t (.loadData hp a) := hpc ▸ h.pcOk t
  have hown : (s.pc t).own = some a := by
    rw [hpc]
    rfl
  obtain ⟨n, hn⟩ := Option.isSome_iff_exists.mp ((h.inUse a).mpr (.inr ⟨t, mem_limbo_of_own hown⟩))
  refine ⟨s.goto t (.clearPointer hp (.popped a n.data)), ?_, ?_⟩
  · rw [LockFreeStack.loadData, node_eq_ok hn]
    rfl
  refine h.moves_goto ?_ ?_ hok (of_none rfl)
  · rw [hpc]
    refine ⟨rfl, rfl, ⟨rfl, rfl⟩, ?_⟩
    rw [LockFreeStackPc.pending, LockFreeStackPc.pending, hn]
    rfl
  · rw [hpc]
    rfl

theorem Rep.returns (h : Rep s nodes) (hpc : s.pc t = .clearActive (slot t) res)
    (hnone : res.node = none) :
    Rep ({ s with active := Function.update s.active (slot t) false }.leave t res.call) nodes := by
  have hpop : taken (s.returned t ++ [res.call]) = taken (s.returned t) := by
    cases res with
    | popped node value => cases hnone
    | _ => simp [taken, LockFreeStackCall.isPop, PopResult.call]
  obtain ⟨hretired, hfew, -⟩ := h.counts t
  rw [hpc] at hretired
  refine h.keeps (t := t) rfl rfl rfl (fun _ _ => rfl) ?_ (fun _ _ => rfl) ?_
    (fun u hu => Function.update_of_ne hu ..) (fun _ _ => rfl) rfl (fun _ _ _ _ _ => trivial)
    (Function.update_self ..) trivial (of_none rfl) ?_ h.replays ?_
  · rw [limbo, hpc, LockFreeStackPc.own, hnone]
    rfl
  · exact fun u hu => Function.update_of_ne (fun hslot => hu (slot_inj.mp hslot)) ..
  · refine ⟨?_, ?_, ?_⟩
    · rw [leave_pc_self, leave_returned_self, hpop]
      exact hretired
    · rw [leave_returned_self, hpop]
      exact hfew
    · rw [leave_pc_self]
      exact fun hscans => (Bool.false_ne_true hscans).elim
  · refine (h.answers t).trans ?_
    rw [told, told, leave_pc_self, leave_returned_self, hpc]
    exact (List.append_nil _).symm

theorem Rep.clearActive (h : Rep s nodes) (hpc : s.pc t = .clearActive hp res) :
    Rep (s.clearActive t hp res) nodes := by
  have hok : s.PcOk t (.clearActive hp res) := hpc ▸ h.pcOk t
  obtain rfl : hp = slot t := hok
  cases res with
  | empty => exact h.returns hpc rfl
  | failed => exact h.returns hpc rfl
  | popped node value =>
    refine h.moves ?_ (fun _ _ => rfl) ?_ (Function.update_self ..) trivial (of_none rfl)
    · rw [hpc]
      exact ⟨rfl, rfl, ⟨rfl, rfl⟩, rfl⟩
    · exact fun u hu => Function.update_of_ne (fun hslot => hu (slot_inj.mp hslot)) ..

theorem Rep.popCas_failed (h : Rep s nodes) (hpc : s.pc t = .popCas hp a next)
    (hhead : s.head ≠ some a) : Rep (s.popCas t hp a next) nodes := by
  have hok : s.PcOk t (.popCas hp a next) := hpc ▸ h.pcOk t
  rw [LockFreeStack.popCas, if_neg hhead]
  refine h.givesUp ?_ ?_ hok.1 rfl (.popFailed _)
  · rw [hpc]
    exact ⟨rfl, rfl, ⟨rfl, rfl⟩, rfl⟩
  · rw [hpc]
    rfl

/-- The exchange takes the first node out of the stack. -/
theorem Rep.popCas (h : Rep s nodes) (hpc : s.pc t = .popCas hp a next) (hhead : s.head = some a) :
    Rep (s.popCas t hp a next) nodes.tail := by
  have hok : s.PcOk t (.popCas hp a next) := hpc ▸ h.pcOk t
  obtain ⟨hhp, data, hn⟩ := hok
  cases nodes with
  | nil =>
    have hnone : s.head = none := h.links
    cases hnone.symm.trans hhead
  | cons e rest =>
  obtain ⟨hfirst, next', hn', hlinks⟩ := h.links
  obtain rfl : a = e.1 := Option.some.inj (hhead.symm.trans hfirst)
  obtain ⟨rfl, rfl⟩ : next = next' ∧ data = e.2 := by
    have heq := Option.some.inj (hn.symm.trans hn')
    injection heq with hnext hdata
    exact ⟨hnext, hdata⟩
  have hnodup := h.nodup
  rw [List.map_cons, List.nodup_cons] at hnodup
  have hgo : s.popCas t hp e.1 next =
      ({ s with head := next }.goto t (.loadData hp e.1)).enter t (.pop e.2) := by
    rw [LockFreeStack.popCas, if_pos hhead, hn]
    rfl
  rw [hgo]
  generalize hs' : ({ s with head := next }.goto t (.loadData hp e.1)).enter t (.pop e.2) = s'
  have hheap : s'.heap = s.heap := by
    rw [← hs']
    rfl
  have hself : s'.pc t = .loadData hp e.1 := by
    rw [← hs']
    exact Function.update_self ..
  have hframe : Frame t s s' := by
    refine ⟨?_, ?_, ?_, ?_, ?_, ?_, fun _ _ _ _ => by rw [hheap], ?_⟩
    · rw [← hs']
      exact fun u hu => Function.update_of_ne hu ..
    · rw [← hs']
      exact fun _ _ => rfl
    · rw [← hs']
      exact fun u hu => callsOf_concat_other (Ne.symm hu)
    · rw [← hs']
      exact fun _ _ => rfl
    · rw [← hs']
      exact fun _ _ => rfl
    · rw [← hs']
      exact fun _ _ => rfl
    · intro u hu b hguard
      rw [hself, hheap]
      exact ⟨rfl, (Option.some_ne_none b).symm, fun _ => trivial⟩
  have hlimbo : s'.limbo t = s.limbo t ++ [e.1] := by
    rw [LockFreeStack.limbo, LockFreeStack.limbo, hself, hpc, ← hs', List.append_assoc]
    rfl
  have hnot : ∀ u, e.1 ∉ s.limbo u := fun u hmem => h.apart u e.1 hmem List.mem_cons_self
  have hlimbos : ∀ u b, b ∈ s'.limbo u ↔ b ∈ s.limbo u ∨ u = t ∧ b = e.1 := by
    intro u b
    by_cases hu : u = t
    · rw [hu, hlimbo, List.mem_append, List.mem_singleton]
      simp
    · rw [hframe.limbo hu]
      simp [hu]
  refine h.of_frame hframe ?_ hnodup.2 ?_ ?_ ?_ ?_ ?_ (hself ▸ hhp) (of_none (hself ▸ rfl)) ?_ ?_ ?_
  · rw [hheap, ← hs']
    exact hlinks
  · intro b
    simp only [hheap, hlimbos, h.inUse b, List.map_cons, List.tail_cons, List.mem_cons, exists_or]
    simp only [exists_eq_left]
    rw [or_assoc, or_left_comm, or_comm (a := b = e.1)]
  · intro u b hb
    rcases (hlimbos u b).mp hb with hb | ⟨-, rfl⟩
    · exact fun hmem => h.apart u b hb (List.mem_cons_of_mem _ hmem)
    · exact hnodup.1
  · intro u hu b hb hub
    rcases (hlimbos t b).mp hb with hb | ⟨-, rfl⟩
    · exact hu (h.alone u t b hub hb)
    · exact hnot u hub
  · rw [hlimbo]
    exact List.Nodup.append (h.limboNodup t) (List.nodup_singleton _)
      (List.disjoint_singleton.mpr (hnot t))
  · rw [hself, ← hs']
    refine (h.active t).trans ?_
    rw [hpc]
    rfl
  · refine (h.counts t).congr ?_ ?_ ?_ ?_
    · rw [← hs']
      rfl
    · rw [← hs']
      rfl
    · rw [hpc]
      rfl
    · rw [hself]
      rfl
  · rw [← hs']
    exact h.replays.concat t (.pop e.2 _)
  · have hanswers := h.answers t
    rw [told, hpc] at hanswers
    rw [told, hself, hheap, LockFreeStackPc.pending, hn, ← hs']
    change callsOf t (s.calls ++ [(t, _)]) = _
    rw [callsOf_concat_own, hanswers]
    exact congrArg (· ++ _) (List.append_nil _)

theorem Rep.retire (h : Rep s nodes) (hpc : s.pc t = .retire a value) :
    Rep (s.retire t a value) nodes := by
  have hretiredList : Function.update s.retiredList t (s.retiredList t ++ [a]) t =
      s.retiredList t ++ [a] := Function.update_self ..
  have hlimbo : Function.update s.retiredList t (s.retiredList t ++ [a]) t ++ [] = s.limbo t := by
    rw [hretiredList, List.append_nil, limbo, hpc]
    rfl
  obtain ⟨hlength, hfew, -⟩ := h.counts t
  rw [hpc] at hlength
  have hnext : (Function.update s.retiredList t (s.retiredList t ++ [a]) t).length =
      taken (s.returned t) + 1 := by
    rw [hretiredList, List.length_append]
    exact congrArg (· + 1) hlength
  have hactive : s.active (slot t) = false := by
    rw [h.active, hpc]
    rfl
  have hanswers := h.answers t
  rw [told, hpc] at hanswers
  unfold LockFreeStack.retire
  by_cases hscan : retireThreshold ≤ ((s.retires t (s.retiredList t ++ [a])).retiredList t).length
  · refine (if_pos hscan).symm ▸ ?_
    have hlast : taken (s.returned t) + 1 = retireThreshold :=
      le_antisymm hfew (hscan.trans hnext.le)
    refine h.keeps (t := t) rfl rfl rfl (fun u hu => Function.update_of_ne hu ..) hlimbo
      (fun _ _ => rfl) (fun _ _ => rfl) (fun _ _ => rfl) (fun _ _ => rfl) rfl ?_ hactive
      ⟨le_refl _, Nat.zero_le _⟩ (of_none rfl) ⟨?_, hfew, fun _ => hlast⟩ h.replays ?_
    · exact fun u _ b _ _ hslot => (Nat.not_lt_zero _ hslot).elim
    · rw [goto_pc_self]
      exact hnext
    · rw [told, goto_pc_self]
      exact hanswers
  · refine (if_neg hscan).symm ▸ ?_
    have hpop : taken (s.returned t ++ [.pop value]) = taken (s.returned t) + 1 := by
      simp [taken, LockFreeStackCall.isPop]
    have hreturned : ((s.retires t (s.retiredList t ++ [a])).leave t (.pop value)).returned t =
        s.returned t ++ [.pop value] := leave_returned_self
    refine h.keeps (t := t) rfl rfl rfl (fun u hu => Function.update_of_ne hu ..) hlimbo
      (fun _ _ => rfl) (fun _ _ => rfl) (fun u hu => Function.update_of_ne hu ..) (fun _ _ => rfl) rfl
      (fun _ _ _ _ _ => trivial) hactive trivial (of_none rfl) ⟨?_, ?_, ?_⟩ h.replays ?_
    · rw [leave_pc_self, hreturned, hpop]
      exact hnext
    · rw [hreturned, hpop, ← hnext]
      exact Nat.lt_of_not_le hscan
    · rw [leave_pc_self]
      exact fun hscans => (Bool.false_ne_true hscans).elim
    · rw [told, leave_pc_self, hreturned]
      exact hanswers.trans (List.append_nil _).symm

theorem Rep.scansOn (h : Rep s nodes) (hscans : (s.pc t).scans = true) (hscans' : pc.scans = true)
    (hdelete : pc.toDelete = (s.pc t).toDelete) (hpending : pc.pending s.heap = (s.pc t).pending s.heap)
    (hspares : ∀ u ≠ t, ∀ a, (s.pc u).guard = some a → a ∈ s.retiredList t → pc.Spares (slot u) a)
    (hok : (s.goto t pc).PcOk t pc) : Rep (s.goto t pc) nodes := by
  have hscan : ∀ {pc : LockFreeStackPc}, pc.scans = true →
      pc.own = none ∧ pc.fresh = none ∧ pc.guard = none ∧ pc.usesHp = false := by
    intro pc hscans
    cases pc with
    | collect | sweep => exact ⟨rfl, rfl, rfl, rfl⟩
    | _ => cases hscans
  obtain ⟨hown, -, -, huses⟩ := hscan hscans
  obtain ⟨hown', hfresh', hguard', huses'⟩ := hscan hscans'
  refine h.keeps (t := t) rfl rfl rfl (fun _ _ => rfl) ?_ (fun _ _ => rfl) (fun _ _ => rfl)
    (fun _ _ => rfl) (fun _ _ => rfl) hfresh' hspares ?_ hok ?_ ⟨?_, ?_, ?_⟩ h.replays ?_
  · rw [limbo, hown, hown']
    rfl
  · rw [huses', ← huses]
    exact h.active t
  · intro a ha
    cases hguard'.symm.trans ha
  · rw [goto_pc_self, hdelete, hscans', ← hscans]
    exact (h.counts t).retired
  · exact (h.counts t).few
  · exact fun _ => (h.counts t).last hscans
  · rw [told, goto_pc_self]
    change _ = s.returned t ++ pc.pending s.heap
    rw [hpending]
    exact h.answers t

theorem Rep.collect {protectedPtrs : List ℕ} (h : Rep s nodes)
    (hpc : s.pc t = .collect i protectedPtrs value) :
    Rep (s.collect t i protectedPtrs value) nodes := by
  have hok : s.PcOk t (.collect i protectedPtrs value) := hpc ▸ h.pcOk t
  obtain ⟨hlength, hi⟩ := hok
  have hspared : ∀ u a, (s.pc u).guard = some a → a ∈ s.retiredList t → slot u < i →
      a ∈ protectedPtrs := by
    intro u a hguard hmem
    have hspares := (h.guarded u a hguard).spared t hmem
    rw [hpc] at hspares
    exact hspares
  have hscans : (s.pc t).scans = true := by
    rw [hpc]
    rfl
  unfold LockFreeStack.collect
  by_cases hmore : i < threads * hpMax
  · rw [if_pos hmore]
    refine h.scansOn hscans rfl ?_ ?_ ?_ ⟨?_, hmore⟩
    · rw [hpc]
      rfl
    · rw [hpc]
      rfl
    · intro u hu b hguard hmem hslot
      rcases Nat.lt_succ_iff_lt_or_eq.mp hslot with hslot | rfl
      · exact List.mem_append_left _ (hspared u b hguard hmem hslot)
      · rw [(h.guarded u b hguard).hp]
        exact List.mem_append_right _ (List.mem_singleton_self b)
    · rw [List.length_append]
      refine Nat.add_le_add hlength ?_
      cases s.hpList i with
      | none => exact Nat.zero_le 1
      | some p => exact le_refl 1
  · rw [if_neg hmore]
    obtain rfl : i = threads * hpMax := le_antisymm hi (Nat.le_of_not_lt hmore)
    refine h.scansOn hscans rfl ?_ ?_ ?_ ⟨hlength, List.nil_subset _, rfl, rfl, Nat.zero_le 1⟩
    · rw [hpc]
      rfl
    · rw [hpc]
      rfl
    · exact fun u _ b hguard hmem => hspared u b hguard hmem slot_lt

section Sweep
variable {protectedPtrs kept rest toDelete deleted : List ℕ} {p : ℕ}

/-- Eight hazard pointers do not keep ten nodes: a scan does not come to the end of its list. -/
theorem Rep.rest_ne_nil (h : Rep s nodes)
    (hpc : s.pc t = .sweep protectedPtrs kept rest toDelete deleted value) : rest ≠ [] := by
  have hok : s.PcOk t (.sweep protectedPtrs kept rest toDelete deleted value) := hpc ▸ h.pcOk t
  obtain ⟨hlength, hkept, hretired, -, hone⟩ := hok
  have hscans : (s.pc t).scans = true := by
    rw [hpc]
    rfl
  have hcount := (h.counts t).retired
  rw [hpc, hretired, List.length_append] at hcount
  have hten := (h.counts t).last hscans
  have hnodup : kept.Nodup := by
    have hlimbo := h.limboNodup t
    rw [limbo, hretired, List.append_assoc] at hlimbo
    exact (List.nodup_append.mp hlimbo).1
  have hfew : kept.length ≤ protectedPtrs.length := (hnodup.subperm hkept).length_le
  rintro rfl
  have hsum : kept.length + 0 + toDelete.length = taken (s.returned t) + 1 := hcount
  rw [retireThreshold] at hten
  rw [threads, hpMax] at hlength
  omega

theorem deletes_again (x : LockFreeStack) : (p :: rest).foldlM deleteNode (x, [p]) =
    .error .doubleFree := by
  rw [List.foldlM_cons, deleteNode, if_pos (.inl (List.mem_singleton_self p))]
  rfl

/-- The first deletion of a scan. -/
theorem Rep.deletes (h : Rep s nodes)
    (hpc : s.pc t = .sweep protectedPtrs kept (p :: rest) [] [] value) (hp : p ∉ protectedPtrs) :
    Rep (((s.retires t (kept ++ rest)).set p none).goto t
      (.sweep protectedPtrs kept rest [p] [p] value)) nodes := by
  have hok : s.PcOk t (.sweep protectedPtrs kept (p :: rest) [] [] value) := hpc ▸ h.pcOk t
  obtain ⟨hlength, hkept, hretired, -⟩ := hok
  generalize hs' : ((s.retires t (kept ++ rest)).set p none).goto t
    (.sweep protectedPtrs kept rest [p] [p] value) = s'
  have hheap : s'.heap = Function.update s.heap p none := by
    rw [← hs']
    rfl
  have hself : s'.pc t = .sweep protectedPtrs kept rest [p] [p] value := by
    rw [← hs']
    exact goto_pc_self
  have hretired' : s'.retiredList t = kept ++ rest := by
    rw [← hs']
    exact Function.update_self ..
  have hlimbo : s.limbo t = kept ++ p :: rest := by
    rw [limbo, hpc, hretired]
    exact List.append_nil _
  have hlimbo' : s'.limbo t = kept ++ rest := by
    rw [limbo, hself, hretired']
    exact List.append_nil _
  have hnodup := h.limboNodup t
  rw [hlimbo, List.nodup_middle, List.nodup_cons] at hnodup
  have hmem : ∀ {b}, b ∈ s.limbo t ↔ b = p ∨ b ∈ s'.limbo t := by
    intro b
    rw [hlimbo, hlimbo', List.mem_append, List.mem_cons, List.mem_append]
    exact or_left_comm
  have hpMem : p ∈ s.limbo t := hmem.mpr (.inl rfl)
  have hframe : Frame t s s' := by
    refine ⟨?_, ?_, ?_, ?_, ?_, ?_, ?_, ?_⟩
    · rw [← hs']
      exact fun u hu => goto_pc_other hu
    · rw [← hs']
      exact fun _ _ => rfl
    · rw [← hs']
      exact fun _ _ => rfl
    · rw [← hs']
      exact fun u hu => Function.update_of_ne hu ..
    · rw [← hs']
      exact fun _ _ => rfl
    · rw [← hs']
      exact fun _ _ => rfl
    · intro u hu b hb
      rw [hheap]
      refine Function.update_of_ne ?_ ..
      rintro rfl
      exact hu (h.alone u t b hb hpMem)
    · intro u hu b hguard
      have hspared : b ∈ s.retiredList t → b ∈ protectedPtrs := by
        have hspares := (h.guarded u b hguard).spared t
        rw [hpc] at hspares
        exact hspares
      rw [hself, hheap, hretired']
      refine ⟨Function.update_of_ne ?_ .., (Option.some_ne_none _).symm, ?_⟩
      · rintro rfl
        refine hp (hspared ?_)
        rw [hretired]
        exact List.mem_append_right _ List.mem_cons_self
      · intro hb
        refine hspared ?_
        rw [hretired, List.mem_append, List.mem_cons]
        rw [List.mem_append] at hb
        exact hb.imp_right Or.inr
  refine h.of_frame hframe ?_ h.nodup ?_ ?_ ?_ (hlimbo' ▸ hnodup.2) ?_
    (hself ▸ ⟨hlength, hkept, hretired', rfl, le_refl 1⟩) (of_none (hself ▸ rfl)) ?_ ?_ ?_
  · rw [hheap, ← hs']
    refine h.links.congr ?_
    intro e he
    refine Function.update_of_ne ?_ ..
    rintro rfl
    exact h.apart t e.1 hpMem (List.mem_map_of_mem he)
  · intro b
    rw [hheap]
    by_cases hb : b = p
    · rw [hb, Function.update_self]
      refine iff_of_false Bool.false_ne_true ?_
      rintro (hnode | ⟨u, hu⟩)
      · exact h.apart t p hpMem hnode
      · by_cases hut : u = t
        · rw [hut, hlimbo'] at hu
          exact hnodup.1 hu
        · rw [hframe.limbo hut] at hu
          exact hut (h.alone u t p hu hpMem)
    · rw [Function.update_of_ne hb, h.inUse]
      refine or_congr_right (exists_congr fun u => ?_)
      by_cases hut : u = t
      · rw [hut, hmem]
        exact or_iff_right hb
      · rw [hframe.limbo hut]
  · intro u b hb
    by_cases hut : u = t
    · exact h.apart t b (hmem.mpr (.inr (hut ▸ hb)))
    · exact h.apart u b (hframe.limbo hut ▸ hb)
  · intro u hu b hb hub
    exact hu (h.alone u t b hub (hmem.mpr (.inr hb)))
  · rw [hself, ← hs']
    refine (h.active t).trans ?_
    rw [hpc]
    rfl
  · obtain ⟨hcount, hfew, hlast⟩ := h.counts t
    rw [hpc, hretired] at hcount
    rw [hpc] at hlast
    have hreturned : s'.returned t = s.returned t := by
      rw [← hs']
      rfl
    refine ⟨?_, hreturned ▸ hfew, fun _ => hreturned ▸ hlast rfl⟩
    rw [hretired', hreturned, hself, List.length_append]
    rw [List.length_append, List.length_cons] at hcount
    exact hcount
  · rw [← hs']
    exact h.replays
  · have hanswers := h.answers t
    rw [told, hpc] at hanswers
    rw [told, hself, ← hs']
    exact hanswers

/-- A turn of the loop of a scan: the second turn after a deletion deletes the node again. -/
theorem Rep.sweep (h : Rep s nodes)
    (hpc : s.pc t = .sweep protectedPtrs kept rest toDelete deleted value) :
    (toDelete ≠ [] ∧
      s.sweep t protectedPtrs kept rest toDelete deleted value = .error .doubleFree) ∨
      ∃ s', s.sweep t protectedPtrs kept rest toDelete deleted value = .ok s' ∧ Rep s' nodes := by
  have hok : s.PcOk t (.sweep protectedPtrs kept rest toDelete deleted value) := hpc ▸ h.pcOk t
  obtain ⟨hlength, hkept, hretired, rfl, hone⟩ := hok
  cases rest with
  | nil => exact (h.rest_ne_nil hpc rfl).elim
  | cons p rest =>
    cases toDelete with
    | cons q more =>
      obtain rfl : more = [] := by simpa using hone
      left
      refine ⟨List.cons_ne_nil _ _, ?_⟩
      unfold LockFreeStack.sweep
      by_cases hp : p ∈ protectedPtrs
      · refine (if_pos hp).trans ?_
        rw [deletes_again]
        rfl
      · refine (if_neg hp).trans ?_
        rw [List.singleton_append, deletes_again]
        rfl
    | nil =>
      right
      have hmem : p ∈ s.limbo t := by
        refine mem_limbo_of_retired ?_
        rw [hretired]
        exact List.mem_append_right _ List.mem_cons_self
      have hscans : (s.pc t).scans = true := by
        rw [hpc]
        rfl
      by_cases hp : p ∈ protectedPtrs
      · refine ⟨s.goto t (.sweep protectedPtrs (kept ++ [p]) rest [] [] value), ?_, ?_⟩
        · exact if_pos hp
        · refine h.scansOn hscans rfl ?_ ?_ ?_ ⟨hlength, ?_, ?_, rfl, Nat.zero_le 1⟩
          · rw [hpc]
            rfl
          · rw [hpc]
            rfl
          · intro u _ b hguard hb
            have hspares := (h.guarded u b hguard).spared t hb
            rw [hpc] at hspares
            exact hspares
          · exact List.append_subset.mpr ⟨hkept, List.cons_subset.mpr ⟨hp, List.nil_subset _⟩⟩
          · rw [List.append_assoc]
            exact hretired
      · refine ⟨_, ?_, h.deletes hpc hp⟩
        have huse : s.heap p ≠ none :=
          Option.isSome_iff_ne_none.mp ((h.inUse p).mpr (.inr ⟨t, hmem⟩))
        have hdelete : deleteNode (s.retires t (kept ++ rest), []) p =
            .ok ((s.retires t (kept ++ rest)).set p none, [p]) := by
          refine if_neg ?_
          rintro (hnil | hnone)
          · cases hnil
          · exact huse hnone
        refine (if_neg hp).trans ?_
        rw [List.nil_append, List.foldlM_cons, hdelete]
        rfl

end Sweep

theorem Rep.writes {n : LockFreeStackNode} (h : Rep s nodes)
    (hpcs : s'.pc = Function.update s.pc t pc) (hheap : s'.heap = Function.update s.heap a (some n))
    (hrest : s'.head = s.head ∧ s'.hpList = s.hpList ∧ s'.active = s.active ∧
      s'.retiredList = s.retiredList ∧ s'.calls = s.calls ∧ s'.returned = s.returned)
    (hnodes : a ∉ nodes.map Prod.fst) (hothers : ∀ u ≠ t, a ∉ s.limbo u)
    (hguards : ∀ u, (s.pc u).guard ≠ some a) (hretired : a ∉ s.retiredList t)
    (hown : ∀ b, (s.pc t).own = some b → b = a) (hown' : pc.own = some a)
    (hquiet : (s.pc t).scans = false ∧ pc.scans = false) (huses : pc.usesHp = (s.pc t).usesHp)
    (hguard : pc.guard = none) (hpending : (s.pc t).pending s.heap = [] ∧ pc.pending s'.heap = [])
    (hok : s'.PcOk t pc) : Rep s' nodes := by
  obtain ⟨hhead, hhpList, hactive, hretiredList, hcalls, hreturned⟩ := hrest
  have hself : s'.pc t = pc := by rw [hpcs, Function.update_self]
  have hsame : ∀ b, b ≠ a → s'.heap b = s.heap b := fun b hb => by rw [hheap, Function.update_of_ne hb]
  have hframe : Frame t s s' := by
    refine ⟨fun u hu => by rw [hpcs, Function.update_of_ne hu], fun _ _ => by rw [hreturned],
      fun _ _ => by rw [hcalls], fun _ _ => by rw [hretiredList], fun _ _ => by rw [hhpList],
      fun _ _ => by rw [hactive], ?_, ?_⟩
    · intro u hu b hb
      refine hsame b ?_
      rintro rfl
      exact hothers u hu hb
    · intro u hu b hb
      have hba : b ≠ a := by
        rintro rfl
        exact hguards u hb
      rw [hself]
      refine ⟨hsame b hba, ?_, fun _ => spares_of_not_scans hquiet.2⟩
      intro hfresh
      exact hba (Option.some.inj ((own_of_fresh hfresh).symm.trans hown'))
  have hlimbo : s'.limbo t = s.retiredList t ++ [a] := by
    rw [limbo, hself, hown', hretiredList]
    rfl
  have hmem : ∀ u b, b ≠ a → (b ∈ s'.limbo u ↔ b ∈ s.limbo u) := by
    intro u b hb
    by_cases hu : u = t
    · rw [hu, hlimbo, limbo, List.mem_append, List.mem_append, List.mem_singleton, Option.mem_toList]
      refine or_congr_right (iff_of_false hb ?_)
      exact fun hbt => hb (hown b hbt)
    · rw [hframe.limbo hu]
  have hnodup : (s'.limbo t).Nodup := by
    rw [hlimbo]
    exact List.Nodup.append (List.nodup_append.mp (h.limboNodup t)).1 (List.nodup_singleton a)
      (List.disjoint_singleton.mpr hretired)
  refine h.of_frame hframe ?_ h.nodup ?_ ?_ ?_ hnodup ?_ (hself ▸ hok) ?_ ?_ (hcalls ▸ h.replays) ?_
  · rw [hhead]
    refine h.links.congr ?_
    intro e he
    refine hsame e.1 ?_
    rintro rfl
    exact hnodes (List.mem_map_of_mem he)
  · intro b
    by_cases hb : b = a
    · rw [hb, hheap, Function.update_self]
      exact iff_of_true rfl (.inr ⟨t, mem_limbo_of_own (hself ▸ hown')⟩)
    · rw [hsame b hb, h.inUse]
      simp only [hmem _ b hb]
  · intro u b hb
    by_cases hba : b = a
    · rw [hba]
      exact hnodes
    · exact h.apart u b ((hmem u b hba).mp hb)
  · intro u hu b hb hub
    by_cases hba : b = a
    · exact hothers u hu (hba ▸ hub)
    · exact hu (h.alone u t b hub ((hmem t b hba).mp hb))
  · rw [hself, hactive, h.active, huses]
  · intro b hb
    rw [hself, hguard] at hb
    cases hb
  · refine (h.counts t).congr ?_ ?_ hquiet.1 (hself.symm ▸ hquiet.2)
    · rw [hretiredList]
    · rw [hreturned]
  · have hanswers := h.answers t
    rw [told, hpending.1] at hanswers
    rw [told, hself, hpending.2, hcalls, hreturned]
    exact hanswers

theorem Rep.push (h : Rep s nodes) (hpc : s.pc t = .idle) (hfree : s.heap a = none) :
    Rep ((s.set a (some { data := value })).goto t (.pushLoad value a)) nodes := by
  have hnot : ¬(a ∈ nodes.map Prod.fst ∨ ∃ u, a ∈ s.limbo u) := by
    rw [← h.inUse, hfree]
    exact Bool.false_ne_true
  rw [not_or, not_exists] at hnot
  refine h.writes (t := t) rfl rfl ⟨rfl, rfl, rfl, rfl, rfl, rfl⟩ hnot.1 (fun u _ => hnot.2 u) ?_
    (fun hmem => hnot.2 t (mem_limbo_of_retired hmem)) ?_ rfl ⟨?_, rfl⟩ ?_ rfl ⟨?_, rfl⟩
    ⟨none, Function.update_self ..⟩
  · intro u hguard
    have hin := (h.guarded u a hguard).inUse
    rw [hfree] at hin
    cases hin
  · rw [hpc]
    exact of_none rfl
  · rw [hpc]
    rfl
  · rw [hpc]
    rfl
  · rw [hpc]
    rfl

theorem Rep.setNext (h : Rep s nodes) (hpc : s.pc t = .pushLoad value a ∨ s.pc t = .pushCas value a) :
    Rep ((s.set a (some { next := s.head, data := value })).goto t (.pushCas value a)) nodes := by
  have hfresh : (s.pc t).fresh = some a := by
    rcases hpc with hpc | hpc
    · rw [hpc]
      rfl
    · rw [hpc]
      rfl
  have hown := own_of_fresh hfresh
  have hnodup := h.limboNodup t
  rw [limbo, hown] at hnodup
  refine h.writes (t := t) rfl rfl ⟨rfl, rfl, rfl, rfl, rfl, rfl⟩ (h.apart t a (mem_limbo_of_own hown))
    ?_ ?_ ?_ ?_ rfl ⟨?_, rfl⟩ ?_ rfl ⟨?_, rfl⟩ ⟨s.head, Function.update_self ..⟩
  · exact fun u hu hmem => hu (h.alone u t a hmem (mem_limbo_of_own hown))
  · exact fun u hguard => (h.guarded u a hguard).old t hfresh
  · exact fun hmem => (List.nodup_append.mp hnodup).2.2 a hmem a (List.mem_singleton_self a) rfl
  · exact fun b hb => Option.some.inj (hb.symm.trans hown)
  · rcases hpc with hpc | hpc
    · rw [hpc]
      rfl
    · rw [hpc]
      rfl
  · rcases hpc with hpc | hpc
    · rw [hpc]
      rfl
    · rw [hpc]
  · rcases hpc with hpc | hpc
    · rw [hpc]
      rfl
    · rw [hpc]
      rfl

theorem Rep.pushLoad (h : Rep s nodes) (hpc : s.pc t = .pushLoad value a) :
    ∃ s', s.pushLoad t value a = .ok s' ∧ Rep s' nodes := by
  have hok : s.PcOk t (.pushLoad value a) := hpc ▸ h.pcOk t
  obtain ⟨next, hn⟩ := hok
  refine ⟨_, ?_, h.setNext (.inl hpc)⟩
  rw [LockFreeStack.pushLoad, node_eq_ok hn]
  rfl

/-- The exchange puts the node on top of the stack. -/
theorem Rep.pushes (h : Rep s nodes) (hpc : s.pc t = .pushCas value a)
    (hn : s.heap a = some { next := s.head, data := value }) :
    Rep (({ s with head := some a }.enter t (.push value)).leave t (.push value))
      ((a, value) :: nodes) := by
  generalize hs' : ({ s with head := some a }.enter t (.push value)).leave t (.push value) = s'
  have hheap : s'.heap = s.heap := by
    rw [← hs']
    rfl
  have hself : s'.pc t = .idle := by
    rw [← hs']
    exact leave_pc_self
  have hreturned : s'.returned t = s.returned t ++ [.push value] := by
    rw [← hs']
    exact leave_returned_self
  have hretired : s'.retiredList t = s.retiredList t := by
    rw [← hs']
    rfl
  have hpop : taken (s.returned t ++ [.push value]) = taken (s.returned t) := by
    simp [taken, LockFreeStackCall.isPop]
  have hframe : Frame t s s' := by
    refine ⟨?_, ?_, ?_, ?_, ?_, ?_, fun _ _ _ _ => by rw [hheap], ?_⟩
    · rw [← hs']
      exact fun u hu => Function.update_of_ne hu ..
    · rw [← hs']
      exact fun u hu => Function.update_of_ne hu ..
    · rw [← hs']
      exact fun u hu => callsOf_concat_other (Ne.symm hu)
    · rw [← hs']
      exact fun _ _ => rfl
    · rw [← hs']
      exact fun _ _ => rfl
    · rw [← hs']
      exact fun _ _ => rfl
    · intro u hu b hguard
      rw [hself, hheap]
      exact ⟨rfl, (Option.some_ne_none b).symm, fun _ => trivial⟩
  have hlimbo : s.limbo t = s'.limbo t ++ [a] := by
    rw [limbo, limbo, hself, hpc, hretired, List.append_assoc]
    rfl
  have hmine : a ∈ s.limbo t := by
    rw [hlimbo]
    exact List.mem_append_right _ (List.mem_singleton_self a)
  have hnodup := h.limboNodup t
  rw [hlimbo] at hnodup
  obtain ⟨hlimboNodup, -, hne⟩ := List.nodup_append.mp hnodup
  have hmems : ∀ u b, b ∈ s.limbo u ↔ b ∈ s'.limbo u ∨ u = t ∧ b = a := by
    intro u b
    by_cases hu : u = t
    · rw [hu, hlimbo, List.mem_append, List.mem_singleton]
      simp
    · rw [hframe.limbo hu]
      simp [hu]
  obtain ⟨hcount, hfew, -⟩ := h.counts t
  rw [hpc] at hcount
  refine h.of_frame hframe ?_ ?_ ?_ ?_ ?_ hlimboNodup ?_ (hself ▸ trivial)
    (of_none (hself ▸ rfl)) ⟨?_, ?_, ?_⟩
    ?_ ?_
  · rw [hheap, ← hs']
    exact ⟨rfl, s.head, hn, h.links⟩
  · rw [List.map_cons, List.nodup_cons]
    exact ⟨h.apart t a hmine, h.nodup⟩
  · intro b
    simp only [hheap, h.inUse b, hmems, List.map_cons, List.mem_cons, exists_or, exists_eq_left]
    rw [or_comm (a := ∃ u, b ∈ s'.limbo u), ← or_assoc, or_comm (a := b ∈ nodes.map Prod.fst)]
  · intro u b hb hmem
    have hold : b ∈ s.limbo u := (hmems u b).mpr (.inl hb)
    rcases List.mem_cons.mp hmem with rfl | hmem
    · obtain rfl : u = t := h.alone u t b hold hmine
      exact hne b hb b (List.mem_singleton_self b) rfl
    · exact h.apart u b hold hmem
  · intro u hu b hb hub
    exact hu (h.alone u t b hub ((hmems t b).mpr (.inl hb)))
  · rw [hself, ← hs']
    refine (h.active t).trans ?_
    rw [hpc]
    rfl
  · rw [hself, hreturned, hpop, hretired]
    exact hcount
  · rw [hreturned, hpop]
    exact hfew
  · rw [hself]
    exact fun hscans => (Bool.false_ne_true hscans).elim
  · rw [← hs']
    exact h.replays.concat t (.push value _)
  · have hanswers := h.answers t
    rw [told, hpc] at hanswers
    rw [told, hself, hreturned, ← hs']
    change callsOf t (s.calls ++ [(t, _)]) = _
    rw [callsOf_concat_own, hanswers]
    exact (congrArg (· ++ [_]) (List.append_nil _)).trans (List.append_nil _).symm

theorem Rep.pushCas (h : Rep s nodes) (hpc : s.pc t = .pushCas value a) (spurious : Bool) :
    ∃ s', s.pushCas t value a spurious = .ok s' ∧
      (Rep s' nodes ∨ Rep s' ((a, value) :: nodes)) := by
  have hok : s.PcOk t (.pushCas value a) := hpc ▸ h.pcOk t
  obtain ⟨next, hn⟩ := hok
  by_cases hsame : s.head = next ∧ spurious = false
  · obtain ⟨rfl, rfl⟩ := hsame
    refine ⟨_, ?_, .inr (h.pushes hpc hn)⟩
    rw [LockFreeStack.pushCas, node_eq_ok hn]
    exact if_pos ⟨rfl, rfl⟩
  · refine ⟨s.set a (some { next := s.head, data := value }), ?_, .inl ?_⟩
    · rw [LockFreeStack.pushCas, node_eq_ok hn]
      exact if_neg hsame
    · have hsettled : (s.set a (some { next := s.head, data := value })).goto t (.pushCas value a) =
          s.set a (some { next := s.head, data := value }) := by
        rw [LockFreeStack.goto, ← hpc]
        exact congrArg (fun pc => { s.set a _ with pc := pc }) (Function.update_eq_self t s.pc)
      exact hsettled ▸ h.setNext (.inr hpc)

/-- Only a scan that has deleted a node fails. -/
theorem Rep.go (h : Rep s nodes) (t : ThreadId) (spurious : Bool) :
    ((s.pc t).toDelete ≠ [] ∧ s.go t spurious = .error .doubleFree) ∨
      ∃ s' nodes', s.go t spurious = .ok s' ∧ Rep s' nodes' := by
  have hkeeps : ∀ {r : Except LockFreeStackFault LockFreeStack}, (∃ s', r = .ok s' ∧ Rep s' nodes) →
      ∃ s' nodes', r = .ok s' ∧ Rep s' nodes' := by
    rintro r ⟨s', hs', h'⟩
    exact ⟨s', nodes, hs', h'⟩
  unfold LockFreeStack.go
  cases hpc : s.pc t with
  | idle => exact .inr ⟨s, nodes, rfl, h⟩
  | pushLoad value newNode => exact .inr (hkeeps (h.pushLoad hpc))
  | pushCas value newNode =>
    obtain ⟨s', hs', h' | h'⟩ := h.pushCas hpc spurious
    · exact .inr ⟨s', nodes, hs', h'⟩
    · exact .inr ⟨s', _, hs', h'⟩
  | acquire i => exact .inr ⟨_, nodes, rfl, h.acquire hpc⟩
  | popLoad hp => exact .inr ⟨_, nodes, rfl, h.popLoad hpc⟩
  | protect hp oldHead => exact .inr ⟨_, nodes, rfl, h.protect hpc⟩
  | validate hp oldHead => exact .inr ⟨_, nodes, rfl, h.validate hpc⟩
  | loadNext hp oldHead => exact .inr (hkeeps (h.loadNext hpc))
  | popCas hp oldHead next =>
    by_cases hhead : s.head = some oldHead
    · exact .inr ⟨_, _, rfl, h.popCas hpc hhead⟩
    · exact .inr ⟨_, nodes, rfl, h.popCas_failed hpc hhead⟩
  | loadData hp oldHead => exact .inr (hkeeps (h.loadData hpc))
  | clearPointer hp res => exact .inr ⟨_, nodes, rfl, h.clearPointer hpc⟩
  | clearActive hp res => exact .inr ⟨_, nodes, rfl, h.clearActive hpc⟩
  | retire node value => exact .inr ⟨_, nodes, rfl, h.retire hpc⟩
  | collect i protectedPtrs value => exact .inr ⟨_, nodes, rfl, h.collect hpc⟩
  | sweep protectedPtrs kept rest toDelete deleted value => exact (h.sweep hpc).imp_right hkeeps

theorem Rep.beginPush (h : Rep s nodes) (t : ThreadId) (value : ℤ) (address : ℕ) :
    Rep (s.push t value address) nodes := by
  unfold LockFreeStack.push
  cases hpc : s.pc t with
  | idle =>
    change Rep (if (s.heap address).isSome then s else _) nodes
    by_cases hused : (s.heap address).isSome
    · rw [if_pos hused]
      exact h
    · rw [if_neg hused]
      exact h.push hpc (by simpa using hused)
  | _ => exact h

theorem Rep.beginPop (h : Rep s nodes) (t : ThreadId) : Rep (s.pop t) nodes := by
  unfold LockFreeStack.pop
  cases hpc : s.pc t with
  | idle =>
    refine h.moves_goto ?_ ?_ rfl (of_none rfl)
    · rw [hpc]
      exact ⟨rfl, rfl, ⟨rfl, rfl⟩, rfl⟩
    · rw [hpc]
      rfl
  | _ => exact h

end Steps

end HighPerformance.LockFreeStack
