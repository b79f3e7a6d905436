import HighPerformance.ThreadsafeList

/-!
# The steps of the list with a lock for each node

Each step of a thread finds the nodes that it needs, and leaves a list behind the heap on which the
calls that have entered stay settled.
-/

namespace HighPerformance.ThreadsafeList
open FallibleRun CallHistory PipelinedPasses

variable {τ T : Type} [DecidableEq τ]

/-- A step of thread `t` leaves to the others what they have locked and what only they can reach. -/
structure Frame (t : τ) (s s' : ThreadsafeList τ T) (nodes nodes' : List (ℕ × T)) : Prop where
  pc : ∀ u ≠ t, s'.pc u = s.pc u
  returned : ∀ u ≠ t, s'.returned u = s.returned u
  held : ∀ u ≠ t, ∀ b ∈ (s.pc u).held,
    s'.heap b = s.heap b ∧ (b ∈ places nodes → b ∈ places nodes')
  unreachable : ∀ u ≠ t, ∀ a, (s.pc u).unreachable = some a → s'.heap (some a) = s.heap (some a)

section Frames
variable {s s' : ThreadsafeList τ T} {nodes nodes' : List (ℕ × T)} {t u : τ}

theorem Frame.pcOk (h : Rep s nodes) (f : Frame t s s' nodes nodes') (hu : u ≠ t) :
    PcOk s'.heap nodes' (s'.pc u) := by
  have hok := h.pcOk u
  have hheld := f.held u hu
  have hunreachable := f.unreachable u hu
  rw [f.pc u hu]
  cases hpc : s.pc u with
  | idle | pushUnlock => trivial
  | lockHead k =>
    rw [hpc] at hok
    exact hok
  | pushLock value newNode | pushLink value newNode =>
    rw [hpc] at hok hunreachable
    have hsame := hunreachable newNode rfl
    exact ⟨(ownerOf_congr hsame).trans hok.1, (dataOf_congr hsame).trans hok.2⟩
  | readNext k current | unlockLast k current | unlockRemoved p current oldNext =>
    rw [hpc] at hok hheld
    exact (hheld current List.mem_cons_self).2 hok
  | delete p current oldNext =>
    rw [hpc] at hok hheld hunreachable
    exact ⟨(hheld current List.mem_cons_self).2 hok.1,
      (ownerOf_congr (hunreachable oldNext rfl)).trans hok.2⟩
  | lockNext k current next | unlockCurrent w current next | test p current next =>
    rw [hpc] at hok hheld
    obtain ⟨hsame, hmem⟩ := hheld current List.mem_cons_self
    exact ⟨hmem hok.1, (nextOf_congr hsame).trans hok.2⟩
  | unlink p current next | advance p current next =>
    rw [hpc] at hok hheld
    obtain ⟨hsame, hmem⟩ := hheld current List.mem_cons_self
    obtain ⟨hplace, hnext, x, hx, hp⟩ := hok
    have hdata := (hheld (some next) (by simp [ThreadsafeListPc.held])).1
    exact ⟨hmem hplace, (nextOf_congr hsame).trans hnext, x, (dataOf_congr hdata).trans hx, hp⟩
  | visit w next | unlockFound p next res =>
    rw [hpc] at hok hheld
    exact (hheld (some next) List.mem_cons_self).2 hok

/-- What is left to show of a step is what thread `t` and the list see. -/
theorem Rep.of_frame (h : Rep s nodes) (f : Frame t s s' nodes nodes')
    (hhead : (s'.heap none).isSome) (hchain : Chain s'.heap none nodes')
    (hnodup : (nodes'.map Prod.fst).Nodup)
    (hlocks : ∀ place u, ownerOf s'.heap place = some u ↔ place ∈ (s'.pc u).held)
    (hinUse : ∀ a, (s'.heap (some a)).isSome ↔
      a ∈ nodes'.map Prod.fst ∨ ∃ u, (s'.pc u).unreachable = some a)
    (hapart : ∀ u a, (s'.pc u).unreachable = some a → a ∉ nodes'.map Prod.fst)
    (halone : ∀ u a, u ≠ t → (s'.pc t).unreachable = some a → (s'.pc u).unreachable ≠ some a)
    (hok : PcOk s'.heap nodes' (s'.pc t))
    (hsettled : Settled listWalk ListRequest.perform (s'.items nodes') s'.entered
      (Function.update s.told t (s'.told t))) : Rep s' nodes' := by
  refine ⟨hhead, hchain, hnodup, hlocks, hinUse, hapart, ?_, ?_, ?_⟩
  · intro u v a hu hv
    by_cases hut : u = t
    · by_contra hne
      exact halone v a (fun hvt => hne (hut.trans hvt.symm)) (hut ▸ hu) hv
    · by_cases hvt : v = t
      · exact (halone u a hut (hvt ▸ hv) hu).elim
      · rw [f.pc u hut] at hu
        rw [f.pc v hvt] at hv
        exact h.alone u v a hu hv
  · intro u
    by_cases hut : u = t
    · exact hut ▸ hok
    · exact f.pcOk h hut
  · have htold : Function.update s.told t (s'.told t) = s'.told := by
      funext u
      by_cases hut : u = t
      · rw [hut, Function.update_self]
      · rw [Function.update_of_ne hut, told, told, f.returned u hut, f.pc u hut]
    rw [htold] at hsettled
    exact hsettled

/-- Nobody else holds a mutex that is free or held by `t`. -/
theorem Rep.not_held (h : Rep s nodes) {place : Option ℕ}
    (hold : ownerOf s.heap place = none ∨ ownerOf s.heap place = some t) (hu : u ≠ t) :
    place ∉ (s.pc u).held := by
  intro hmem
  have howner := (h.locks place u).mpr hmem
  rcases hold with hold | hold
  · cases howner.symm.trans hold
  · exact hu (Option.some.inj (howner.symm.trans hold))

/-- A step that locks or unlocks one mutex. -/
theorem Rep.reown (h : Rep s nodes) {place : Option ℕ} {n : ListNode τ T} {owner : Option τ}
    {pc : ThreadsafeListPc T} (hn : s.heap place = some n)
    (hheap : s'.heap = Function.update s.heap place (some { n with owner := owner }))
    (hpc : s'.pc = Function.update s.pc t pc)
    (hreturned : ∀ u ≠ t, s'.returned u = s.returned u)
    (hold : n.owner = none ∨ n.owner = some t) (hnew : owner = none ∨ owner = some t)
    (hlocks : ∀ b, b ∈ pc.held ↔ if b = place then owner = some t else b ∈ (s.pc t).held)
    (hreach : ∀ u ≠ t, ∀ a, (s.pc u).unreachable = some a → place ≠ some a)
    (hunreachable : pc.unreachable = (s.pc t).unreachable)
    (hok : PcOk s'.heap nodes pc)
    (hsettled : Settled listWalk ListRequest.perform (s'.items nodes) s'.entered
      (Function.update s.told t (s'.told t))) : Rep s' nodes := by
  have hself : s'.pc t = pc := by rw [hpc, Function.update_self]
  have hother : ∀ u ≠ t, s'.pc u = s.pc u := fun u hu => by rw [hpc, Function.update_of_ne hu]
  have hreachable : ∀ u, (s'.pc u).unreachable = (s.pc u).unreachable := by
    intro u
    by_cases hu : u = t
    · rw [hu, hself, hunreachable]
    · rw [hother u hu]
  have hsome : ∀ b, (s'.heap b).isSome = (s.heap b).isSome := fun b => isSome_set hn hheap
  have hplace : ownerOf s.heap place = none ∨ ownerOf s.heap place = some t := by
    rwa [owner_eq hn]
  have hframe : Frame t s s' nodes nodes := by
    refine ⟨hother, hreturned, ?_, ?_⟩
    · intro u hu b hb
      have hne : b ≠ place := by
        rintro rfl
        exact h.not_held hplace hu hb
      exact ⟨by rw [hheap, Function.update_of_ne hne], id⟩
    · intro u hu a ha
      rw [hheap, Function.update_of_ne (Ne.symm (hreach u hu a ha))]
  refine h.of_frame hframe ?_ ?_ h.nodup ?_ ?_ ?_ ?_ ?_ hsettled
  · rw [hsome]
    exact h.head
  · exact h.chain.congr (fun _ => nextOf_same hn hheap rfl) fun _ => dataOf_same hn hheap rfl
  · intro b u
    rw [ownerOf_set hheap]
    by_cases hu : u = t
    · rw [hu, hself, hlocks]
      split
      · exact Iff.rfl
      · exact h.locks b t
    · rw [hother u hu]
      split
      · next hb =>
        subst hb
        constructor
        · intro he
          rcases hnew with hnew | hnew
          · cases hnew.symm.trans he
          · exact (hu (Option.some.inj (he.symm.trans hnew))).elim
        · intro hmem
          exact (h.not_held hplace hu hmem).elim
      · exact h.locks b u
  · intro a
    rw [hsome, h.inUse]
    simp only [hreachable]
  · intro u a ha
    rw [hreachable] at ha
    exact h.apart u a ha
  · intro u a hu ha hua
    rw [hreachable] at ha hua
    exact hu (h.alone u t a hua ha)
  · rw [hself]
    exact hok

theorem Rep.goto (h : Rep s nodes) {pc : ThreadsafeListPc T} (hpc : s'.pc = Function.update s.pc t pc)
    (hheap : s'.heap = s.heap) (hreturned : ∀ u ≠ t, s'.returned u = s.returned u)
    (hheld : pc.held = (s.pc t).held) (hunreachable : pc.unreachable = (s.pc t).unreachable)
    (hok : PcOk s.heap nodes pc)
    (hsettled : Settled listWalk ListRequest.perform (s'.items nodes) s'.entered
      (Function.update s.told t (s'.told t))) : Rep s' nodes := by
  have hself : s'.pc t = pc := by rw [hpc, Function.update_self]
  have hother : ∀ u ≠ t, s'.pc u = s.pc u := fun u hu => by rw [hpc, Function.update_of_ne hu]
  have hsame : ∀ u, (s'.pc u).unreachable = (s.pc u).unreachable ∧ (s'.pc u).held = (s.pc u).held := by
    intro u
    by_cases hu : u = t
    · rw [hu, hself, hunreachable, hheld]
      exact ⟨rfl, rfl⟩
    · rw [hother u hu]
      exact ⟨rfl, rfl⟩
  have hframe : Frame t s s' nodes nodes :=
    ⟨hother, hreturned, fun u _ b _ => ⟨congrFun hheap b, id⟩, fun u _ a _ => congrFun hheap _⟩
  refine h.of_frame hframe ?_ ?_ h.nodup ?_ ?_ ?_ ?_ ?_ hsettled
  · rw [hheap]
    exact h.head
  · rw [hheap]
    exact h.chain
  · intro b u
    rw [hheap, (hsame u).2]
    exact h.locks b u
  · intro a
    rw [hheap, h.inUse]
    simp only [fun u => (hsame u).1]
  · intro u a ha
    rw [(hsame u).1] at ha
    exact h.apart u a ha
  · intro u a hu ha hua
    rw [(hsame t).1] at ha
    rw [(hsame u).1] at hua
    exact hu (h.alone u t a hua ha)
  · rw [hself, hheap]
    exact hok

end Frames

/-! ### The steps -/

section Steps
variable {s s' : ThreadsafeList τ T} {nodes : List (ℕ × T)} {t u : τ} {place current : Option ℕ}
  {n : ListNode τ T} {k : ListPass T} {w : ListWalk T} {p : T → Bool} {next a : ℕ} {x : T}
  {pc : ThreadsafeListPc T} {result : ListRequest T × ListAnswer T}

def Good (s : ThreadsafeList τ T) : Prop := ∃ nodes, Rep s nodes

omit [DecidableEq τ] in
theorem node_eq_ok (hn : s.heap place = some n) : s.node place = .ok n := by
  rw [node, hn]

theorem lock_eq_ok (hn : s.heap place = some n) (hfree : n.owner = none) :
    s.lock t place pc = .ok ((s.set place (some { n with owner := some t })).goto t pc) := by
  rw [lock, node_eq_ok hn]
  exact if_neg (by simp [hfree])

theorem lock_eq_self (hn : s.heap place = some n) (howner : n.owner.isSome) :
    s.lock t place pc = .ok s := by
  rw [lock, node_eq_ok hn]
  exact if_pos howner

omit [DecidableEq τ] in
theorem unlock_eq_ok (hn : s.heap place = some n) :
    s.unlock place = .ok (s.set place (some { n with owner := none })) := by
  rw [unlock, node_eq_ok hn]
  rfl

theorem Rep.held_live (h : Rep s nodes) (hmem : place ∈ (s.pc t).held) :
    ∃ n, s.heap place = some n ∧ n.owner = some t :=
  Option.bind_eq_some_iff.mp ((h.locks place t).mpr hmem)

theorem Rep.owner_calls (h : Rep s nodes) {place : Option ℕ}
    (howner : ownerOf s.heap place = some t) : s.pc t ≠ .idle := by
  intro hpc
  have hheld := (h.locks place t).mp howner
  rw [hpc] at hheld
  cases hheld

theorem Rep.head_live (h : Rep s nodes) : ∃ n, s.heap none = some n :=
  Option.isSome_iff_exists.mp h.head

theorem Rep.place_live (h : Rep s nodes) (hmem : place ∈ places nodes) :
    ∃ n, s.heap place = some n := by
  cases place with
  | none => exact h.head_live
  | some a => exact Option.isSome_iff_exists.mp ((h.inUse a).mpr (.inl (mem_places.mp hmem)))

theorem Rep.next_mem (h : Rep s nodes) (hmem : current ∈ places nodes)
    (hnext : nextOf s.heap current = some next) : some next ∈ places nodes := by
  obtain ⟨pre, x, post, rfl, -⟩ := h.chain.next_some hmem hnext
  simp [places]

theorem Rep.ne_next (h : Rep s nodes) (hmem : current ∈ places nodes)
    (hnext : nextOf s.heap current = some next) : current ≠ some next := by
  obtain ⟨pre, x, post, rfl, hlast, -⟩ := h.chain.next_some hmem hnext
  have hnodup := nodup_places h.nodup
  rw [places_append, List.map_cons, List.nodup_append] at hnodup
  have hcurrent : current ∈ places pre := hlast ▸ lastPlace_mem
  exact hnodup.2.2 current hcurrent (some next) List.mem_cons_self

/-- A node of the list is not one that a thread has for itself. -/
theorem Rep.reachable (h : Rep s nodes) (hmem : place ∈ places nodes) (u : τ) (a : ℕ)
    (ha : (s.pc u).unreachable = some a) : place ≠ some a := by
  rintro rfl
  exact h.apart u a ha (mem_places.mp hmem)

/-- What has been decided stays as it was. -/
theorem Rep.settled_same (h : Rep s nodes) (hitems : s'.items nodes = s.items nodes)
    (hentered : s'.entered = s.entered) (htold : s'.told t = s.told t) :
    Settled listWalk ListRequest.perform (s'.items nodes) s'.entered
      (Function.update s.told t (s'.told t)) := by
  rw [hitems, hentered, htold, Function.update_eq_self]
  exact h.settled

theorem Rep.goes (h : Rep s nodes) (hheld : pc.held = (s.pc t).held)
    (hunreachable : pc.unreachable = (s.pc t).unreachable) (hok : PcOk s.heap nodes pc)
    (hsettled : ∀ s' : ThreadsafeList τ T, s'.pc = Function.update s.pc t pc → s'.heap = s.heap →
      s'.entered = s.entered → s'.returned = s.returned →
      Settled listWalk ListRequest.perform (s'.items nodes) s'.entered
        (Function.update s.told t (s'.told t))) : Rep (s.goto t pc) nodes :=
  h.goto (t := t) rfl rfl (fun _ _ => rfl) hheld hunreachable hok (hsettled _ rfl rfl rfl rfl)

theorem Rep.stays (h : Rep s nodes) (hheld : pc.held = (s.pc t).held)
    (hunreachable : pc.unreachable = (s.pc t).unreachable) (hbehind : pc.behind = (s.pc t).behind)
    (hbefore : pc.before = (s.pc t).before) (hpending : pc.pending = (s.pc t).pending)
    (hok : PcOk s.heap nodes pc) : Rep (s.goto t pc) nodes := by
  refine h.goes hheld hunreachable hok ?_
  intro s' hpcs hheap hentered hreturned
  have hself : s'.pc t = pc := by rw [hpcs, Function.update_self]
  refine h.settled_same (items_of_goto (t := t) ?_ ?_ ?_ ?_) hentered ?_
  · intro u hu
    rw [hpcs, Function.update_of_ne hu]
  · intro b
    rw [hheap]
  · rw [hself, hbehind]
  · rw [hself, hbefore]
  · rw [told, told, hreturned, hself, hpending]

theorem Rep.begin (h : Rep s nodes) (hpc : s.pc t = .idle) (hk : k.Starts) :
    Rep (s.goto t (.lockHead k)) nodes := by
  refine h.stays ?_ ?_ ?_ ?_ ?_ hk
  · rw [hpc]
    rfl
  · rw [hpc]
    rfl
  · rw [hpc]
    rfl
  · rw [hpc]
    rfl
  · rw [hpc]
    rfl

theorem Rep.unlockLeave (h : Rep s nodes) (hheld : (s.pc t).held = [place])
    (hpending : (s.pc t).pending = [result]) (hbehind : (s.pc t).behind = none)
    (hbefore : (s.pc t).before = none) (hunreachable : (s.pc t).unreachable = none)
    (hmem : place ∈ places nodes) :
    ∃ s', (s.unlock place).map (·.leave t result) = .ok s' ∧ Rep s' nodes := by
  have hlocked : place ∈ (s.pc t).held := by rw [hheld]; exact List.mem_singleton_self _
  obtain ⟨n, hn, howner⟩ := h.held_live hlocked
  refine ⟨_, by rw [unlock_eq_ok hn]; rfl, ?_⟩
  have hself : ((s.set place (some { n with owner := none })).leave t result).pc t = .idle :=
    Function.update_self ..
  have hother : ∀ u ≠ t,
      ((s.set place (some { n with owner := none })).leave t result).pc u = s.pc u :=
    fun u hu => Function.update_of_ne hu ..
  refine h.reown hn rfl rfl ?_ (.inr howner) (.inl rfl) ?_ ?_ ?_ trivial (h.settled_same ?_ rfl ?_)
  · intro u hu
    exact Function.update_of_ne hu ..
  · intro b
    rw [hheld]
    by_cases hb : b = place
    · simp [ThreadsafeListPc.held, hb]
    · simp [ThreadsafeListPc.held, hb]
  · exact fun u _ => h.reachable hmem u
  · exact hunreachable.symm
  · refine items_of_reown hother ?_ (.inr (owner_eq hn ▸ howner)) (.inl ?_) ?_ ?_ ?_ ?_
    · intro b hb
      exact (ownerOf_set rfl).trans (if_neg hb)
    · exact (ownerOf_set rfl).trans (if_pos rfl)
    · rw [hself, hbehind]
      rfl
    · rw [hself, hbefore]
      rfl
    · simp [hbehind]
    · simp [hbefore]
  · rw [told, told, hself, hpending]
    change Function.update s.returned t (s.returned t ++ [result]) t ++ [] = _
    rw [Function.update_self, List.append_nil]

/-- A thread locks the mutex of a place that it has reached, or finds it locked. -/
theorem Rep.lock (h : Rep s nodes) (hmem : place ∈ places nodes)
    (hheld : ∀ b, b ∈ pc.held ↔ b = place ∨ b ∈ (s.pc t).held)
    (hbehind : pc.behind = (s.pc t).behind) (hbefore : pc.before = (s.pc t).before)
    (hno : ∀ k, (s.pc t).behind ≠ some (place, k)) (hno' : (s.pc t).before = none)
    (hunreachable : pc.unreachable = (s.pc t).unreachable) (hpending : pc.pending = (s.pc t).pending)
    (hok : ∀ heap', (∀ b, nextOf heap' b = nextOf s.heap b) →
      (∀ b, dataOf heap' b = dataOf s.heap b) →
      (∀ b ≠ place, ownerOf heap' b = ownerOf s.heap b) → PcOk heap' nodes pc) :
    ∃ s', s.lock t place pc = .ok s' ∧ Rep s' nodes := by
  obtain ⟨n, hn⟩ := h.place_live hmem
  cases howner : n.owner with
  | some u => exact ⟨s, lock_eq_self hn (by rw [howner]; rfl), h⟩
  | none =>
    refine ⟨_, lock_eq_ok hn howner, ?_⟩
    have hself : ((s.set place (some { n with owner := some t })).goto t pc).pc t = pc :=
      Function.update_self ..
    refine h.reown hn rfl rfl (fun _ _ => rfl) (.inl howner) (.inr rfl) ?_ ?_ hunreachable ?_
      (h.settled_same ?_ rfl ?_)
    · intro b
      rw [hheld]
      by_cases hb : b = place
      · simp [hb]
      · simp [hb]
    · exact fun u _ => h.reachable hmem u
    · exact hok _ (fun _ => nextOf_same hn rfl rfl) (fun _ => dataOf_same hn rfl rfl)
        fun _ hb => (ownerOf_set rfl).trans (if_neg hb)
    · refine items_of_reown (fun u hu => Function.update_of_ne hu ..) ?_
        (.inl (owner_eq hn ▸ howner)) (.inr ?_) ?_ ?_ hno (by simp [hno'])
      · intro b hb
        exact (ownerOf_set rfl).trans (if_neg hb)
      · exact (ownerOf_set rfl).trans (if_pos rfl)
      · rw [hself, hbehind]
      · rw [hself, hbefore]
    · rw [told, told, hself, hpending]
      rfl

theorem Rep.pushLock (h : Rep s nodes) (hpc : s.pc t = .pushLock x a) :
    ∃ s', s.lock t none (.pushLink x a) = .ok s' ∧ Rep s' nodes := by
  have hok : PcOk s.heap nodes (.pushLock x a) := hpc ▸ h.pcOk t
  refine h.lock (by simp [places]) ?_ ?_ ?_ ?_ ?_ ?_ ?_ ?_
  · simp [hpc, ThreadsafeListPc.held]
  · rw [hpc]
    rfl
  · rw [hpc]
    rfl
  · simp [hpc, ThreadsafeListPc.behind]
  · rw [hpc]
    rfl
  · rw [hpc]
    rfl
  · rw [hpc]
    rfl
  · intro heap' _ hdata howner
    exact ⟨(howner _ (by simp)).trans hok.1, (hdata _).trans hok.2⟩

/-- The call enters the list behind all the others. -/
theorem Rep.lockHead (h : Rep s nodes) (hpc : s.pc t = .lockHead k) :
    ∃ s', s.lockHead t k = .ok s' ∧ Rep s' nodes := by
  obtain ⟨n, hn⟩ := h.head_live
  unfold ThreadsafeList.lockHead
  rw [node_eq_ok hn]
  cases howner : n.owner with
  | some u => exact ⟨s, if_pos (by rw [howner]; rfl), h⟩
  | none =>
    refine ⟨_, if_neg (by simp [howner]), ?_⟩
    have hk : k.Starts := by
      have hok := h.pcOk t
      rwa [hpc] at hok
    have hself : (((s.set none (some { n with owner := some t })).goto t (.readNext k none)).enter t
        k.request).pc t = .readNext k none := Function.update_self ..
    have hother : ∀ u ≠ t, (((s.set none (some { n with owner := some t })).goto t
        (.readNext k none)).enter t k.request).pc u = s.pc u :=
      fun u hu => Function.update_of_ne hu ..
    refine h.reown hn rfl rfl (fun _ _ => rfl) (.inl howner) (.inr rfl) ?_ ?_ ?_ ?_ ?_
    · intro b
      rw [hpc]
      by_cases hb : b = none
      · simp [ThreadsafeListPc.held, hb]
      · simp [ThreadsafeListPc.held, hb]
    · exact fun u _ => h.reachable (by simp [places]) u
    · rw [hpc]
      rfl
    · simp [PcOk, places]
    · have hrest : ∀ stand : ThreadsafeListPc T → Option (Option ℕ × ListPass T), ∀ a,
          (((s.set none (some { n with owner := some t })).goto t (.readNext k none)).enter t
            k.request).passAt stand (some a) = s.passAt stand (some a) := by
        intro stand a
        refine passAt_of_not_owned hother ((ownerOf_set rfl).trans (if_neg (by simp))) ?_
        intro ho
        have hmem := (h.locks _ t).mp ho
        rw [hpc] at hmem
        cases hmem
      have hitems : (((s.set none (some { n with owner := some t })).goto t
          (.readNext k none)).enter t k.request).items nodes = .pass t k :: s.items nodes := by
        have howner' : ownerOf s.heap none = none := owner_eq hn ▸ howner
        rw [items, items, passAt_free howner',
          passAt_here (t := t) (k := k) ((ownerOf_set rfl).trans (if_pos rfl)) (by rw [hself]; rfl),
          flatMap_congr fun e _ => segment_congr (hrest _ e.1) (hrest _ e.1)]
        rfl
      have htold : (((s.set none (some { n with owner := some t })).goto t
          (.readNext k none)).enter t k.request).told t = s.told t := by
        rw [told, told, hself, hpc]
        rfl
      rw [hitems, htold, Function.update_eq_self]
      exact h.settled.enter (not_mem_walkers (by rw [hpc]; rfl) (by rw [hpc]; rfl))
        (apply_eq_perform hk)

theorem Rep.readNext (h : Rep s nodes) (hpc : s.pc t = .readNext k current) :
    ∃ s', s.readNext t k current = .ok s' ∧ Rep s' nodes := by
  have hmem : current ∈ places nodes := by
    have hok := h.pcOk t
    rwa [hpc] at hok
  have hheld : current ∈ (s.pc t).held := by
    rw [hpc]
    exact List.mem_singleton_self _
  obtain ⟨n, hn, howner⟩ := h.held_live hheld
  have hnext : nextOf s.heap current = n.next := next_eq hn
  unfold ThreadsafeList.readNext
  rw [node_eq_ok hn]
  cases hnn : n.next with
  | some next =>
    refine ⟨s.goto t (.lockNext k current next), by simp [bind, Except.bind, hnn, pure, Except.pure],
      h.stays ?_ ?_ ?_ ?_ ?_ ⟨hmem, hnext.trans hnn⟩⟩
    · rw [hpc]
      rfl
    · rw [hpc]
      rfl
    · rw [hpc]
      rfl
    · rw [hpc]
      rfl
    · rw [hpc]
      rfl
  | none =>
    refine ⟨s.goto t (.unlockLast k current), by simp [bind, Except.bind, hnn, pure, Except.pure],
      h.goes ?_ ?_ hmem ?_⟩
    · rw [hpc]
      rfl
    · rw [hpc]
      rfl
    · intro s' hpcs hheap hentered hreturned
      have hself : s'.pc t = .unlockLast k current := by rw [hpcs, Function.update_self]
      have hother : ∀ u ≠ t, s'.pc u = s.pc u := fun u hu => by rw [hpcs, Function.update_of_ne hu]
      have howners : ∀ b, ownerOf s'.heap b = ownerOf s.heap b := fun b => by rw [hheap]
      have hlast := h.chain.next_none hmem (hnext.trans hnn)
      have hcurrent : ownerOf s.heap current = some t := (h.locks _ t).mpr hheld
      have howned : ∀ b, ownerOf s.heap b = some t → b = current := by
        intro b hb
        have hmem' := (h.locks b t).mp hb
        rw [hpc] at hmem'
        exact List.mem_singleton.mp hmem'
      obtain ⟨front, hitems, hitems'⟩ := items_split s s' (nodup_places h.nodup)
        (fun b _ hb => passAt_of_not_owned hother (howners b) fun ho => hb (hlast ▸ howned b ho))
        (by
          intro e _
          refine passAt_congr (howners _) ?_
          intro u _
          by_cases hu : u = t
          · rw [hu, hself, hpc]
            rfl
          · rw [hother u hu])
      have hbefore := hitems []
      have hafter := hitems' []
      rw [hlast, List.append_nil, List.flatMap_nil, List.append_nil,
        passAt_here hcurrent (by rw [hpc]; rfl)] at hbefore
      rw [hlast, List.append_nil, List.flatMap_nil, List.append_nil,
        passAt_elsewhere ((howners _).trans hcurrent) (by simp [hself, ThreadsafeListPc.behind]),
        List.append_nil] at hafter
      have hsettled := h.settled
      rw [hbefore] at hsettled
      have htold : s'.told t = s.told t ++ [listWalk.finish k] := by
        rw [told, told, hreturned, hself, hpc]
        exact (congrArg (· ++ [listWalk.finish k]) (List.append_nil _)).symm
      rw [hafter, hentered, htold]
      exact hsettled.finish

theorem Rep.lockNext (h : Rep s nodes) (hpc : s.pc t = .lockNext k current next) :
    ∃ s', s.lock t (some next) (afterLock k current next) = .ok s' ∧ Rep s' nodes := by
  have hok : PcOk s.heap nodes (.lockNext k current next) := hpc ▸ h.pcOk t
  obtain ⟨hmem, hnext⟩ := hok
  have hne := h.ne_next hmem hnext
  refine h.lock (h.next_mem hmem hnext) ?_ ?_ ?_ ?_ ?_ ?_ ?_ ?_
  · intro b
    rw [hpc]
    cases k with
    | walk w => simp [afterLock, ThreadsafeListPc.held, or_comm]
    | removeIf p => simp [afterLock, ThreadsafeListPc.held, or_comm]
  · rw [hpc]
    cases k with
    | walk w => rfl
    | removeIf p => rfl
  · rw [hpc]
    cases k with
    | walk w => rfl
    | removeIf p => rfl
  · simp [hpc, ThreadsafeListPc.behind, hne]
  · rw [hpc]
    rfl
  · rw [hpc]
    cases k with
    | walk w => rfl
    | removeIf p => rfl
  · rw [hpc]
    cases k with
    | walk w => rfl
    | removeIf p => rfl
  · intro heap' hnexts _ _
    have hboth : current ∈ places nodes ∧ nextOf heap' current = some next :=
      ⟨hmem, (hnexts current).trans hnext⟩
    cases k with
    | walk w => exact hboth
    | removeIf p => exact hboth

/-- What a thread sees that has locked a place and the node behind it. -/
theorem Rep.around (h : Rep s nodes) (hheld : (s.pc t).held = [current, some next])
    (hbehind : (s.pc t).behind = some (current, k)) (hbefore : (s.pc t).before = none)
    (hmem : current ∈ places nodes) (hnext : nextOf s.heap current = some next) :
    ∃ pre x post, nodes = pre ++ (next, x) :: post ∧ lastPlace none pre = current ∧
      dataOf s.heap (some next) = some x ∧ Chain s.heap (some next) post ∧
      ∀ s' : ThreadsafeList τ T, (∀ u ≠ t, s'.pc u = s.pc u) →
        (∀ b, b ≠ current → b ≠ some next → ownerOf s'.heap b = ownerOf s.heap b) →
        s'.passAt ThreadsafeListPc.before current = [] →
        ∃ front rest, s.items nodes = front ++ .pass t k :: .cell x :: rest ∧
          (∀ y, s'.items (pre ++ (next, y) :: post) =
            front ++ (s'.passAt ThreadsafeListPc.behind current ++
              (s'.passAt ThreadsafeListPc.before (some next) ++
                .cell y :: (s'.passAt ThreadsafeListPc.behind (some next) ++ rest)))) ∧
          s'.items (pre ++ post) =
            front ++ (s'.passAt ThreadsafeListPc.behind current ++ rest) := by
  have hne := h.ne_next hmem hnext
  obtain ⟨pre, x, post, rfl, hlast, hx, hpost⟩ := h.chain.next_some hmem hnext
  refine ⟨pre, x, post, rfl, hlast, hx, hpost, ?_⟩
  intro s' hother howner hbefore'
  have hcurrent : ownerOf s.heap current = some t := (h.locks _ t).mpr (by simp [hheld])
  have hnextOwner : ownerOf s.heap (some next) = some t := (h.locks _ t).mpr (by simp [hheld])
  have howner' : ∀ b, b ≠ current → b ≠ some next →
      ownerOf s'.heap b = ownerOf s.heap b ∧ ownerOf s.heap b ≠ some t := by
    intro b hbc hbn
    refine ⟨howner b hbc hbn, ?_⟩
    intro hb
    have hmem' := (h.locks b t).mp hb
    rw [hheld] at hmem'
    simp [hbc, hbn] at hmem'
  have hnone : ∀ b, ownerOf s.heap b = some t → s.passAt ThreadsafeListPc.before b = [] :=
    fun b hb => passAt_elsewhere hb (by simp [hbefore])
  obtain ⟨front, rest, hitems, hitems', hitems''⟩ := items_around hother (nodup_places h.nodup) hlast
    howner' (hbefore'.trans (hnone current hcurrent).symm)
  refine ⟨front, rest, ?_, hitems', hitems''⟩
  rw [hitems, passAt_here hcurrent hbehind, hnone _ hnextOwner,
    passAt_elsewhere hnextOwner (by simp [hbehind, hne])]
  rfl

/-- A thread that has locked a place and the node behind it unlocks the place and goes on. -/
theorem Rep.unlockBehind (h : Rep s nodes) (hheld : (s.pc t).held = [current, some next])
    (hmem : current ∈ places nodes) (hunreachable : (s.pc t).unreachable = none)
    (hnext : nextOf s.heap current = some next) (hpc : pc.held = [some next])
    (hpcUnreachable : pc.unreachable = none)
    (hok : ∀ heap : Option ℕ → Option (ListNode τ T), PcOk heap nodes pc)
    (hsettled : ∀ s' : ThreadsafeList τ T, s'.pc = Function.update s.pc t pc →
      (∀ b ≠ current, ownerOf s'.heap b = ownerOf s.heap b) → ownerOf s'.heap current = none →
      s'.entered = s.entered → s'.returned = s.returned →
      Settled listWalk ListRequest.perform (s'.items nodes) s'.entered
        (Function.update s.told t (s'.told t))) :
    ∃ s', (s.unlock current).map (·.goto t pc) = .ok s' ∧ Rep s' nodes := by
  have hcurrent : current ∈ (s.pc t).held := by
    rw [hheld]
    exact List.mem_cons_self
  have hne := h.ne_next hmem hnext
  obtain ⟨n, hn, howner⟩ := h.held_live hcurrent
  refine ⟨_, by rw [unlock_eq_ok hn]; rfl, ?_⟩
  refine h.reown hn rfl rfl (fun _ _ => rfl) (.inr howner) (.inl rfl) ?_ ?_ ?_ (hok _)
    (hsettled _ rfl ?_ ?_ rfl rfl)
  · intro b
    rw [hpc, hheld]
    by_cases hb : b = current
    · simp [hb, hne]
    · simp [hb]
  · exact fun u _ => h.reachable hmem u
  · rw [hunreachable, hpcUnreachable]
  · intro b hb
    exact (ownerOf_set rfl).trans (if_neg hb)
  · exact (ownerOf_set rfl).trans (if_pos rfl)

theorem Rep.unlockCurrent (h : Rep s nodes) (hpc : s.pc t = .unlockCurrent w current next) :
    ∃ s', (s.unlock current).map (·.goto t (.visit w next)) = .ok s' ∧ Rep s' nodes := by
  have hok : PcOk s.heap nodes (.unlockCurrent w current next) := hpc ▸ h.pcOk t
  obtain ⟨hmem, hnext⟩ := hok
  have hne := h.ne_next hmem hnext
  have hheld : (s.pc t).held = [current, some next] := by rw [hpc]; rfl
  have hbehind : (s.pc t).behind = some (current, .walk w) := by rw [hpc]; rfl
  have hbefore : (s.pc t).before = none := by rw [hpc]; rfl
  refine h.unlockBehind hheld hmem (by rw [hpc]; rfl) hnext rfl rfl
    (fun _ => h.next_mem hmem hnext) ?_
  intro s' hpcs howner hfree hentered hreturned
  have hself : s'.pc t = .visit w next := by rw [hpcs, Function.update_self]
  have hother : ∀ u ≠ t, s'.pc u = s.pc u := fun u hu => by rw [hpcs, Function.update_of_ne hu]
  refine h.settled_same ?_ hentered ?_
  · obtain ⟨pre, x, post, hnodes, -, -, -, haround⟩ := h.around hheld hbehind hbefore hmem hnext
    obtain ⟨front, rest, hitems, hitems', -⟩ :=
      haround s' hother (fun b hbc _ => howner b hbc) (passAt_free hfree)
    have hnextOwner : ownerOf s'.heap (some next) = some t :=
      (howner _ hne.symm).trans ((h.locks _ t).mpr (by simp [hheld]))
    rw [hitems, hnodes, hitems' x, passAt_free hfree, passAt_here hnextOwner (by rw [hself]; rfl),
      passAt_elsewhere hnextOwner (by simp [hself, ThreadsafeListPc.behind])]
    rfl
  · rw [told, told, hreturned, hself, hpc]
    rfl

/-- `remove_if` goes on behind a node that it keeps. -/
theorem Rep.advance (h : Rep s nodes) (hpc : s.pc t = .advance p current next) :
    ∃ s', (s.unlock current).map (·.goto t (.readNext (.removeIf p) (some next))) = .ok s' ∧
      Rep s' nodes := by
  have hok : PcOk s.heap nodes (.advance p current next) := hpc ▸ h.pcOk t
  obtain ⟨hmem, hnext, x, hx, hp⟩ := hok
  have hne := h.ne_next hmem hnext
  have hheld : (s.pc t).held = [current, some next] := by rw [hpc]; rfl
  have hbehind : (s.pc t).behind = some (current, .removeIf p) := by rw [hpc]; rfl
  have hbefore : (s.pc t).before = none := by rw [hpc]; rfl
  refine h.unlockBehind hheld hmem (by rw [hpc]; rfl) hnext rfl rfl
    (fun _ => h.next_mem hmem hnext) ?_
  intro s' hpcs howner hfree hentered hreturned
  have hself : s'.pc t = .readNext (.removeIf p) (some next) := by rw [hpcs, Function.update_self]
  have hother : ∀ u ≠ t, s'.pc u = s.pc u := fun u hu => by rw [hpcs, Function.update_of_ne hu]
  obtain ⟨pre, y, post, hnodes, -, hy, -, haround⟩ := h.around hheld hbehind hbefore hmem hnext
  cases hx.symm.trans hy
  obtain ⟨front, rest, hitems, hitems', -⟩ :=
    haround s' hother (fun b hbc _ => howner b hbc) (passAt_free hfree)
  have hnextOwner : ownerOf s'.heap (some next) = some t :=
    (howner _ hne.symm).trans ((h.locks _ t).mpr (by simp [hheld]))
  have hsettled := h.settled
  rw [hitems] at hsettled
  have htold : s'.told t = s.told t := by
    rw [told, told, hreturned, hself, hpc]
    rfl
  have hnone : s'.passAt ThreadsafeListPc.before (some next) = [] :=
    passAt_elsewhere hnextOwner (by simp [hself, ThreadsafeListPc.before])
  rw [hnodes, hitems' x, passAt_free hfree, hnone, passAt_here hnextOwner (by rw [hself]; rfl),
    hentered, htold, Function.update_eq_self]
  have hvisit : listWalk.visit (.removeIf p) x = (some x, .inl (.removeIf p)) := by
    simp [listWalk, hp]
  exact hsettled.move hvisit

/-- What a thread sees that stands before the node that it has locked. -/
theorem Rep.inFront (h : Rep s nodes) (hpc : s.pc t = .visit w next) :
    ∃ pre x post, nodes = pre ++ (next, x) :: post ∧ dataOf s.heap (some next) = some x ∧
      ∀ s' : ThreadsafeList τ T, (∀ u ≠ t, s'.pc u = s.pc u) →
        (∀ b, ownerOf s'.heap b = ownerOf s.heap b) → (s'.pc t).before = none →
        ∃ front rest, s.items nodes = front ++ .pass t (.walk w) :: .cell x :: rest ∧
          ∀ y, s'.items (pre ++ (next, y) :: post) =
            front ++ .cell y :: (s'.passAt ThreadsafeListPc.behind (some next) ++ rest) := by
  have hmem : some next ∈ places nodes := by
    have hok := h.pcOk t
    rwa [hpc] at hok
  obtain ⟨⟨a, x⟩, he, rfl⟩ := List.mem_map.mp (mem_places.mp hmem)
  obtain ⟨pre, post, rfl⟩ := List.append_of_mem he
  refine ⟨pre, x, post, rfl, h.chain.behind.2.1, ?_⟩
  intro s' hother howner hbefore'
  have hnextOwner : ownerOf s.heap (some a) = some t := (h.locks _ t).mpr (by
    rw [hpc]
    exact List.mem_singleton_self _)
  have howned : ∀ b, b ≠ some a → ownerOf s.heap b ≠ some t := by
    intro b hba hb
    have hmem' := (h.locks b t).mp hb
    rw [hpc] at hmem'
    exact hba (List.mem_singleton.mp hmem')
  have hne : lastPlace none pre ≠ some a := by
    have hnodup := nodup_places h.nodup
    rw [places_append, List.map_cons, List.nodup_append] at hnodup
    exact hnodup.2.2 _ lastPlace_mem (some a) List.mem_cons_self
  have hlast : ∀ stand, s'.passAt stand (lastPlace none pre) = s.passAt stand (lastPlace none pre) :=
    fun stand => passAt_of_not_owned hother (howner _) (howned _ hne)
  obtain ⟨front, rest, hitems, hitems', -⟩ := items_around hother (nodup_places h.nodup) rfl
    (fun b _ hba => ⟨howner b, howned b hba⟩) (hlast _)
  refine ⟨front ++ s.passAt ThreadsafeListPc.behind (lastPlace none pre), rest, ?_, ?_⟩
  · rw [hitems, passAt_here hnextOwner (by rw [hpc]; rfl),
      passAt_elsewhere hnextOwner (by simp [hpc, ThreadsafeListPc.behind])]
    simp
  · intro y
    have hnone : s'.passAt ThreadsafeListPc.before (some a) = [] :=
      passAt_elsewhere ((howner _).trans hnextOwner) (by simp [hbefore'])
    rw [hitems' y, hlast, hnone]
    simp

omit [DecidableEq τ] in
theorem value_eq_ok (hn : s.heap place = some n) (hx : dataOf s.heap place = some x) :
    value n = .ok x := by
  rw [value, ← data_eq hn, hx]

theorem Rep.edit {pre post : List (ℕ × T)} {y : T} (h : Rep s (pre ++ (next, x) :: post))
    (hn : s.heap (some next) = some n) (howner : n.owner = some t)
    (hheap : s'.heap = Function.update s.heap (some next) (some { n with data := some y }))
    (hpc : s'.pc = Function.update s.pc t pc) (hreturned : s'.returned = s.returned)
    (hheld : pc.held = (s.pc t).held) (hunreachable : pc.unreachable = (s.pc t).unreachable)
    (hok : PcOk s'.heap (pre ++ (next, y) :: post) pc)
    (hsettled : (∀ b, ownerOf s'.heap b = ownerOf s.heap b) →
      Settled listWalk ListRequest.perform (s'.items (pre ++ (next, y) :: post)) s'.entered
        (Function.update s.told t (s'.told t))) : Rep s' (pre ++ (next, y) :: post) := by
  have hself : s'.pc t = pc := by rw [hpc, Function.update_self]
  have hother : ∀ u ≠ t, s'.pc u = s.pc u := fun u hu => by rw [hpc, Function.update_of_ne hu]
  have hsame : ∀ u, (s'.pc u).held = (s.pc u).held ∧ (s'.pc u).unreachable = (s.pc u).unreachable := by
    intro u
    by_cases hu : u = t
    · rw [hu, hself]
      exact ⟨hheld, hunreachable⟩
    · rw [hother u hu]
      exact ⟨rfl, rfl⟩
  have howners : ∀ b, ownerOf s'.heap b = ownerOf s.heap b := fun _ => ownerOf_same hn hheap rfl
  have hnexts : ∀ b, nextOf s'.heap b = nextOf s.heap b := fun _ => nextOf_same hn hheap rfl
  have hfst : (pre ++ (next, y) :: post).map Prod.fst = (pre ++ (next, x) :: post).map Prod.fst := by
    simp
  have hmem : some next ∈ places (pre ++ (next, x) :: post) := by simp [places]
  have hframe : Frame t s s' (pre ++ (next, x) :: post) (pre ++ (next, y) :: post) := by
    refine ⟨hother, fun u _ => congrFun hreturned u, ?_, ?_⟩
    · intro u hu b hb
      have hne : b ≠ some next := by
        rintro rfl
        exact h.not_held (.inr (owner_eq hn ▸ howner)) hu hb
      refine ⟨by rw [hheap, Function.update_of_ne hne], ?_⟩
      simp [places]
    · intro u _ b hb
      rw [hheap, Function.update_of_ne (Ne.symm (h.reachable hmem u b hb))]
  refine h.of_frame hframe ?_ ?_ (hfst ▸ h.nodup) ?_ ?_ ?_ ?_ (hself ▸ hok) (hsettled howners)
  · rw [isSome_set hn hheap]
    exact h.head
  · refine h.chain.edit h.nodup hnexts ?_ ?_
    · intro b hb
      rw [dataOf_set hheap, if_neg hb]
    · rw [dataOf_set hheap, if_pos rfl]
  · intro b u
    rw [howners, (hsame u).1]
    exact h.locks b u
  · intro b
    rw [isSome_set hn hheap, hfst, h.inUse]
    simp only [fun u => (hsame u).2]
  · intro u b hb
    rw [hfst]
    rw [(hsame u).2] at hb
    exact h.apart u b hb
  · intro u b hu hb hub
    rw [(hsame t).2] at hb
    rw [(hsame u).2] at hub
    exact hu (h.alone u t b hub hb)

theorem visit_forEach {f : T → T} {visited : List T} (hn : s.heap (some next) = some n)
    (hx : dataOf s.heap (some next) = some x) :
    s.visit t (.forEach f visited) next =
      .ok ((s.set (some next) (some { n with data := some (f x) })).goto t
        (.readNext (.walk (.forEach f (visited ++ [x]))) (some next))) := by
  rw [ThreadsafeList.visit, node_eq_ok hn]
  simp [value_eq_ok hn hx, bind, Except.bind, pure, Except.pure]

theorem Rep.visitForEach (h : Rep s nodes) {f : T → T} {visited : List T}
    (hpc : s.pc t = .visit (.forEach f visited) next) :
    ∃ s', s.visit t (.forEach f visited) next = .ok s' ∧ Good s' := by
  obtain ⟨pre, x, post, rfl, hx, hfront⟩ := h.inFront hpc
  have hheld : some next ∈ (s.pc t).held := by
    rw [hpc]
    exact List.mem_singleton_self _
  obtain ⟨n, hn, howner⟩ := h.held_live hheld
  refine ⟨_, visit_forEach hn hx, pre ++ (next, f x) :: post, ?_⟩
  refine h.edit (t := t) hn howner rfl rfl rfl ?_ ?_ ?_ ?_
  · rw [hpc]
    rfl
  · rw [hpc]
    rfl
  · simp [PcOk, places]
  · intro howners
    have hself : ((s.set (some next) (some { n with data := some (f x) })).goto t
        (.readNext (.walk (.forEach f (visited ++ [x]))) (some next))).pc t =
        .readNext (.walk (.forEach f (visited ++ [x]))) (some next) := Function.update_self ..
    obtain ⟨front, rest, hitems, hitems'⟩ := hfront _ (fun u hu => Function.update_of_ne hu ..)
      howners (by rw [hself]; rfl)
    have hsettled := h.settled
    rw [hitems] at hsettled
    have hvisit : listWalk.visit (.walk (.forEach f visited)) x =
        (some (f x), .inl (.walk (.forEach f (visited ++ [x])))) := rfl
    have hnextOwner : ownerOf s.heap (some next) = some t := (h.locks _ t).mpr hheld
    have htold : ((s.set (some next) (some { n with data := some (f x) })).goto t
        (.readNext (.walk (.forEach f (visited ++ [x]))) (some next))).told t = s.told t := by
      rw [told, told, hself, hpc]
      rfl
    rw [hitems' (f x), passAt_here (t := t) ((howners _).trans hnextOwner) (by rw [hself]; rfl),
      htold, Function.update_eq_self]
    exact hsettled.move hvisit

theorem Rep.visitFind (h : Rep s nodes) (hpc : s.pc t = .visit (.findFirstIf p) next) :
    ∃ s', s.visit t (.findFirstIf p) next = .ok s' ∧ Rep s' nodes := by
  obtain ⟨pre, x, post, hnodes, hx, hfront⟩ := h.inFront hpc
  have hheld : some next ∈ (s.pc t).held := by
    rw [hpc]
    exact List.mem_singleton_self _
  have hmem : some next ∈ places nodes := by
    have hok := h.pcOk t
    rwa [hpc] at hok
  obtain ⟨n, hn, -⟩ := h.held_live hheld
  have hnextOwner : ownerOf s.heap (some next) = some t := (h.locks _ t).mpr hheld
  have hsettled := h.settled
  unfold ThreadsafeList.visit
  rw [node_eq_ok hn]
  cases hp : p x with
  | true =>
    refine ⟨s.goto t (.unlockFound p next x),
      by simp [value_eq_ok hn hx, bind, Except.bind, pure, Except.pure, hp],
      h.goes (by rw [hpc]; rfl) (by rw [hpc]; rfl) hmem ?_⟩
    intro s' hpcs hheap hentered hreturned
    have hself : s'.pc t = .unlockFound p next x := by rw [hpcs, Function.update_self]
    obtain ⟨front, rest, hitems, hitems'⟩ := hfront s'
      (fun u hu => by rw [hpcs, Function.update_of_ne hu]) (fun b => by rw [hheap])
      (by rw [hself]; rfl)
    rw [hitems] at hsettled
    have hvisit : listWalk.visit (.walk (.findFirstIf p)) x =
        (some x, .inr (.findFirstIf p, .found (some x))) := by simp [listWalk, hp]
    have htold : s'.told t = s.told t ++ [(.findFirstIf p, .found (some x))] := by
      rw [told, told, hreturned, hself, hpc]
      exact (congrArg (· ++ _) (List.append_nil _)).symm
    rw [hnodes, hitems' x, passAt_elsewhere (hheap ▸ hnextOwner)
      (by simp [hself, ThreadsafeListPc.behind]), hentered, htold]
    exact hsettled.stop hvisit
  | false =>
    refine ⟨s.goto t (.readNext (.walk (.findFirstIf p)) (some next)),
      by simp [value_eq_ok hn hx, bind, Except.bind, pure, Except.pure, hp],
      h.goes (by rw [hpc]; rfl) (by rw [hpc]; rfl) hmem ?_⟩
    intro s' hpcs hheap hentered hreturned
    have hself : s'.pc t = .readNext (.walk (.findFirstIf p)) (some next) := by
      rw [hpcs, Function.update_self]
    obtain ⟨front, rest, hitems, hitems'⟩ := hfront s'
      (fun u hu => by rw [hpcs, Function.update_of_ne hu]) (fun b => by rw [hheap])
      (by rw [hself]; rfl)
    rw [hitems] at hsettled
    have hvisit : listWalk.visit (.walk (.findFirstIf p)) x =
        (some x, .inl (.walk (.findFirstIf p))) := by simp [listWalk, hp]
    have htold : s'.told t = s.told t := by
      rw [told, told, hreturned, hself, hpc]
      rfl
    rw [hnodes, hitems' x, passAt_here (hheap ▸ hnextOwner) (by rw [hself]; rfl), hentered, htold,
      Function.update_eq_self]
    exact hsettled.move hvisit

theorem Rep.test (h : Rep s nodes) (hpc : s.pc t = .test p current next) :
    ∃ s', s.test t p current next = .ok s' ∧ Rep s' nodes := by
  have hok : PcOk s.heap nodes (.test p current next) := hpc ▸ h.pcOk t
  obtain ⟨hmem, hnext⟩ := hok
  obtain ⟨-, x, -, -, -, hx, -⟩ := h.chain.next_some hmem hnext
  obtain ⟨n, hn⟩ := h.place_live (h.next_mem hmem hnext)
  unfold ThreadsafeList.test
  rw [node_eq_ok hn]
  refine ⟨s.goto t (if p x then .unlink p current next else .advance p current next),
    by simp [value_eq_ok hn hx, bind, Except.bind, pure, Except.pure], ?_⟩
  cases hp : p x with
  | true =>
    exact h.stays (by rw [hpc]; rfl) (by rw [hpc]; rfl) (by rw [hpc]; rfl) (by rw [hpc]; rfl)
      (by rw [hpc]; rfl) ⟨hmem, hnext, x, hx, hp⟩
  | false =>
    exact h.stays (by rw [hpc]; rfl) (by rw [hpc]; rfl) (by rw [hpc]; rfl) (by rw [hpc]; rfl)
      (by rw [hpc]; rfl) ⟨hmem, hnext, x, hx, hp⟩

/-- `remove_if` takes the next node out of the list; from now on only it can reach the node. -/
theorem Rep.removed (h : Rep s nodes) (hpc : s.pc t = .unlink p current next) {c : ListNode τ T}
    (hc : s.heap current = some c) (hn : s.heap (some next) = some n)
    (hheap : s'.heap = Function.update (Function.update s.heap current
      (some { c with next := n.next })) (some next) (some { n with next := none }))
    (hpcs : s'.pc = Function.update s.pc t (.unlockRemoved p current next))
    (hentered : s'.entered = s.entered) (hreturned : s'.returned = s.returned) : Good s' := by
  have hok : PcOk s.heap nodes (.unlink p current next) := hpc ▸ h.pcOk t
  obtain ⟨hmem, hnext, x, hx, hp⟩ := hok
  have hne := h.ne_next hmem hnext
  have hheld : (s.pc t).held = [current, some next] := by rw [hpc]; rfl
  have hself : s'.pc t = .unlockRemoved p current next := by rw [hpcs, Function.update_self]
  have hother : ∀ u ≠ t, s'.pc u = s.pc u := fun u hu => by rw [hpcs, Function.update_of_ne hu]
  have hcut := cut_of_set hne hc hn hheap
  obtain ⟨pre, y, post, rfl, hlast, hy, hpost, haround⟩ := h.around hheld (by rw [hpc]; rfl)
    (by rw [hpc]; rfl) hmem hnext
  cases hx.symm.trans hy
  have hnextGone : some next ∉ places (pre ++ post) := by
    have hnodup := nodup_places h.nodup
    rw [places_append, List.map_cons, List.nodup_append, List.nodup_cons] at hnodup
    obtain ⟨-, ⟨hnextPost, -⟩, hdisjoint⟩ := hnodup
    rw [places_append, List.mem_append, not_or]
    exact ⟨fun hmem' => hdisjoint _ hmem' _ List.mem_cons_self rfl, hnextPost⟩
  have hheldOther : ∀ u ≠ t, ∀ b ∈ (s.pc u).held, b ≠ current ∧ b ≠ some next := by
    intro u hu b hb
    constructor
    · rintro rfl
      exact h.not_held (.inr ((h.locks _ t).mpr (by simp [hheld]))) hu hb
    · rintro rfl
      exact h.not_held (.inr ((h.locks _ t).mpr (by simp [hheld]))) hu hb
  have hframe : Frame t s s' (pre ++ (next, x) :: post) (pre ++ post) := by
    refine ⟨hother, fun u _ => congrFun hreturned u, ?_, ?_⟩
    · intro u hu b hb
      obtain ⟨hbc, hbn⟩ := hheldOther u hu b hb
      refine ⟨by rw [hheap, Function.update_of_ne hbn, Function.update_of_ne hbc], ?_⟩
      intro hbmem
      exact (mem_places_middle.mp hbmem).resolve_left hbn
    · intro u _ b hb
      have hbc := h.reachable hmem u b hb
      have hbn := h.reachable (h.next_mem hmem hnext) u b hb
      rw [hheap, Function.update_of_ne (Ne.symm hbn), Function.update_of_ne (Ne.symm hbc)]
  refine ⟨pre ++ post, h.of_frame hframe ?_ ?_ ?_ ?_ ?_ ?_ ?_ ?_ ?_⟩
  · rw [hcut.inUse]
    exact h.head
  · exact hcut.chain h.chain hpost hlast h.nodup
  · exact (((List.sublist_cons_self _ post).append_left pre).map Prod.fst).nodup h.nodup
  · intro b u
    rw [hcut.owner, h.locks]
    by_cases hu : u = t
    · rw [hu, hself, hheld]
      rfl
    · rw [hother u hu]
  · intro b
    rw [hcut.inUse, h.inUse, ← mem_places, ← mem_places, mem_places_middle]
    constructor
    · rintro ((hb | hb) | ⟨u, hu⟩)
      · refine .inr ⟨t, ?_⟩
        rw [hself, Option.some.inj hb]
        rfl
      · exact .inl hb
      · refine .inr ⟨u, ?_⟩
        by_cases hut : u = t
        · rw [hut, hpc] at hu
          cases hu
        · rwa [hother u hut]
    · rintro (hb | ⟨u, hu⟩)
      · exact .inl (.inr hb)
      · by_cases hut : u = t
        · rw [hut, hself] at hu
          exact .inl (.inl hu.symm)
        · rw [hother u hut] at hu
          exact .inr ⟨u, hu⟩
  · intro u b hu
    rw [← mem_places]
    by_cases hut : u = t
    · rw [hut, hself] at hu
      cases hu
      exact hnextGone
    · rw [hother u hut] at hu
      intro hb
      exact h.reachable (mem_places_middle.mpr (.inr hb)) u b hu rfl
  · intro u b hu hb hub
    rw [hself] at hb
    cases hb
    rw [hother u hu] at hub
    exact h.reachable (h.next_mem hmem hnext) u next hub rfl
  · rw [hself]
    rw [mem_places_middle] at hmem
    exact hmem.resolve_left hne
  · have hcurrentOwner : ownerOf s'.heap current = some t :=
      (hcut.owner _).trans ((h.locks _ t).mpr (by simp [hheld]))
    obtain ⟨front, rest, hitems, -, hitems'⟩ := haround s' hother (fun b _ _ => hcut.owner b)
      (passAt_elsewhere hcurrentOwner (by simp [hself, ThreadsafeListPc.before]))
    have hsettled := h.settled
    rw [hitems] at hsettled
    have hvisit : listWalk.visit (.removeIf p) x = (none, .inl (.removeIf p)) := by
      simp [listWalk, hp]
    have htold : s'.told t = s.told t := by
      rw [told, told, hreturned, hself, hpc]
      rfl
    rw [hitems', passAt_here hcurrentOwner (by rw [hself]; rfl), hentered, htold,
      Function.update_eq_self]
    exact hsettled.move hvisit

theorem Rep.unlink (h : Rep s nodes) (hpc : s.pc t = .unlink p current next) :
    ∃ s', s.unlink t p current next = .ok s' ∧ Good s' := by
  have hheld : (s.pc t).held = [current, some next] := by rw [hpc]; rfl
  have hcurrent : current ∈ (s.pc t).held := by simp [hheld]
  have hnext : some next ∈ (s.pc t).held := by simp [hheld]
  obtain ⟨c, hc, -⟩ := h.held_live hcurrent
  obtain ⟨n, hn, -⟩ := h.held_live hnext
  refine ⟨((s.set current (some { c with next := n.next })).set (some next)
    (some { n with next := none })).goto t (.unlockRemoved p current next), ?_,
    h.removed hpc hc hn rfl rfl rfl rfl⟩
  rw [ThreadsafeList.unlink, node_eq_ok hc, node_eq_ok hn]
  rfl

theorem Rep.unlockRemoved (h : Rep s nodes) (hpc : s.pc t = .unlockRemoved p current a) :
    ∃ s', (s.unlock (some a)).map (·.goto t (.delete p current a)) = .ok s' ∧ Rep s' nodes := by
  have hmem : current ∈ places nodes := by
    have hok := h.pcOk t
    rwa [hpc] at hok
  have hmine : (s.pc t).unreachable = some a := by
    rw [hpc]
    rfl
  have hne : current ≠ some a := h.reachable hmem t a hmine
  have hheld : (s.pc t).held = [current, some a] := by rw [hpc]; rfl
  have hlocked : some a ∈ (s.pc t).held := by simp [hheld]
  obtain ⟨n, hn, howner⟩ := h.held_live hlocked
  have hfree : ownerOf (s.set (some a) (some { n with owner := none })).heap (some a) = none :=
    (ownerOf_set rfl).trans (if_pos rfl)
  have hself : ((s.set (some a) (some { n with owner := none })).goto t (.delete p current a)).pc t =
      .delete p current a := Function.update_self ..
  refine ⟨_, by rw [unlock_eq_ok hn]; rfl, ?_⟩
  refine h.reown hn rfl rfl (fun _ _ => rfl) (.inr howner) (.inl rfl) ?_ ?_ ?_ ⟨hmem, hfree⟩
    (h.settled_same ?_ rfl ?_)
  · intro b
    rw [hheld]
    by_cases hb : b = some a
    · simp [ThreadsafeListPc.held, hb, hne.symm]
    · simp [ThreadsafeListPc.held, hb]
  · intro u hu b hb hab
    cases hab
    exact hu (h.alone u t a hb hmine)
  · rw [hpc]
    rfl
  · refine items_of_reown (fun u hu => Function.update_of_ne hu ..) ?_
      (.inr (owner_eq hn ▸ howner)) (.inl hfree) ?_ ?_ ?_ ?_
    · intro b hb
      exact (ownerOf_set rfl).trans (if_neg hb)
    · rw [hself, hpc]
      rfl
    · rw [hself, hpc]
      rfl
    · simp [hpc, ThreadsafeListPc.behind, hne]
    · simp [hpc, ThreadsafeListPc.before]
  · rw [told, told, hself, hpc]
    rfl

/-- A thread gives back, or takes from `new`, a node that nobody else has. -/
theorem Rep.own (h : Rep s nodes) {m : Option (ListNode τ T)}
    (hheap : s'.heap = Function.update s.heap (some a) m)
    (hpcs : s'.pc = Function.update s.pc t pc) (hentered : s'.entered = s.entered)
    (hreturned : s'.returned = s.returned) (ha : some a ∉ places nodes)
    (hfree : ownerOf s.heap (some a) = none) (hm : m.bind ListNode.owner = none)
    (hothers : ∀ u ≠ t, (s.pc u).unreachable ≠ some a)
    (hheld : pc.held = (s.pc t).held) (hbehind : pc.behind = (s.pc t).behind)
    (hbefore : pc.before = (s.pc t).before) (hpending : pc.pending = (s.pc t).pending)
    (hmine : ∀ b, pc.unreachable = some b ↔
      if b = a then m.isSome = true else (s.pc t).unreachable = some b)
    (hok : PcOk s'.heap nodes pc) : Rep s' nodes := by
  have hself : s'.pc t = pc := by rw [hpcs, Function.update_self]
  have hother : ∀ u ≠ t, s'.pc u = s.pc u := fun u hu => by rw [hpcs, Function.update_of_ne hu]
  have hsame : ∀ b, b ≠ some a → s'.heap b = s.heap b := fun b hb => by
    rw [hheap, Function.update_of_ne hb]
  have howners : ∀ b, ownerOf s'.heap b = ownerOf s.heap b := by
    intro b
    by_cases hb : b = some a
    · rw [hb, hfree, ownerOf, hheap, Function.comp_apply, Function.update_self, hm]
    · exact ownerOf_congr (hsame b hb)
  have hne : ∀ b ∈ places nodes, b ≠ some a := by
    rintro b hb rfl
    exact ha hb
  have hframe : Frame t s s' nodes nodes := by
    refine ⟨hother, fun u _ => congrFun hreturned u, ?_, ?_⟩
    · intro u _ b hb
      refine ⟨hsame b ?_, id⟩
      rintro rfl
      cases hfree.symm.trans ((h.locks _ u).mpr hb)
    · intro u hu b hb
      refine hsame _ ?_
      intro hba
      exact hothers u hu (hba ▸ hb)
  have hunreachable : ∀ u b, (s'.pc u).unreachable = some b → b ≠ a →
      (s.pc u).unreachable = some b := by
    intro u b hu hba
    by_cases hut : u = t
    · rw [hut, hself, hmine, if_neg hba] at hu
      rwa [hut]
    · rwa [hother u hut] at hu
  refine h.of_frame hframe ?_ ?_ h.nodup ?_ ?_ ?_ ?_ (hself ▸ hok) (h.settled_same ?_ hentered ?_)
  · rw [hsame none (by simp)]
    exact h.head
  · refine h.chain.shift (nextOf_congr (hsame _ (by simp))) ?_ ?_
    · intro e he
      exact nextOf_congr (hsame _ (hne _ (mem_places.mpr (List.mem_map_of_mem he))))
    · intro e he
      exact dataOf_congr (hsame _ (hne _ (mem_places.mpr (List.mem_map_of_mem he))))
  · intro b u
    rw [howners, h.locks]
    by_cases hu : u = t
    · rw [hu, hself, hheld]
    · rw [hother u hu]
  · intro b
    by_cases hb : b = a
    · subst hb
      rw [hheap, Function.update_self, ← mem_places]
      constructor
      · intro hm'
        refine .inr ⟨t, ?_⟩
        rw [hself, hmine, if_pos rfl]
        exact hm'
      · rintro (hb | ⟨u, hu⟩)
        · exact (ha hb).elim
        · by_cases hut : u = t
          · rw [hut, hself, hmine, if_pos rfl] at hu
            exact hu
          · rw [hother u hut] at hu
            exact (hothers u hut hu).elim
    · rw [hsame (some b) (by simp [hb]), h.inUse]
      refine or_congr_right ⟨?_, ?_⟩
      · rintro ⟨u, hu⟩
        refine ⟨u, ?_⟩
        by_cases hut : u = t
        · rw [hut, hself, hmine, if_neg hb]
          rwa [hut] at hu
        · rwa [hother u hut]
      · rintro ⟨u, hu⟩
        exact ⟨u, hunreachable u b hu hb⟩
  · intro u b hu
    by_cases hb : b = a
    · rw [hb, ← mem_places]
      exact ha
    · exact h.apart u b (hunreachable u b hu hb)
  · intro u b hu hb hub
    rw [hother u hu] at hub
    by_cases hba : b = a
    · exact hothers u hu (hba ▸ hub)
    · exact hu (h.alone u t b hub (hunreachable t b hb hba))
  · exact items_of_goto hother howners (by rw [hself, hbehind]) (by rw [hself, hbefore])
  · rw [told, told, hreturned, hself, hpending]

theorem Rep.delete (h : Rep s nodes) (hpc : s.pc t = .delete p current a) :
    ∃ s', s.delete t p current a = .ok s' ∧ Rep s' nodes := by
  have hok : PcOk s.heap nodes (.delete p current a) := hpc ▸ h.pcOk t
  obtain ⟨hmem, hfree⟩ := hok
  have hmine : (s.pc t).unreachable = some a := by
    rw [hpc]
    rfl
  obtain ⟨n, hn⟩ := Option.isSome_iff_exists.mp ((h.inUse a).mpr (.inr ⟨t, hmine⟩))
  have howner : n.owner = none := owner_eq hn ▸ hfree
  have hothers : ∀ u ≠ t, (s.pc u).unreachable ≠ some a := fun u hu hua =>
    hu (h.alone u t a hua hmine)
  have ha : some a ∉ places nodes := by
    rw [mem_places]
    exact h.apart t a hmine
  refine ⟨(s.set (some a) none).goto t (.readNext (.removeIf p) current), ?_,
    h.own (t := t) rfl rfl rfl rfl ha hfree rfl hothers ?_ ?_ ?_ ?_ ?_ hmem⟩
  · rw [ThreadsafeList.delete, node_eq_ok hn]
    exact if_neg (by simp [howner])
  · rw [hpc]
    rfl
  · rw [hpc]
    rfl
  · rw [hpc]
    rfl
  · rw [hpc]
    rfl
  · intro b
    rw [hpc]
    by_cases hb : b = a
    · simp [ThreadsafeListPc.unreachable, hb]
    · simp [ThreadsafeListPc.unreachable, hb, Ne.symm hb]

theorem Rep.pushFront (h : Rep s nodes) (hpc : s.pc t = .idle)
    (hfree : (s.heap (some a)).isSome = false) :
    Rep ((s.set (some a) (some { data := some x })).goto t (.pushLock x a)) nodes := by
  have hnone : s.heap (some a) = none := by simpa using hfree
  have hnot : ¬(a ∈ nodes.map Prod.fst ∨ ∃ u, (s.pc u).unreachable = some a) := by
    rw [← h.inUse, hfree]
    simp
  rw [not_or, not_exists] at hnot
  refine h.own (t := t) rfl rfl rfl rfl (by rw [mem_places]; exact hnot.1) ?_ rfl
    (fun u _ => hnot.2 u) ?_ ?_ ?_ ?_ ?_ ⟨?_, ?_⟩
  · rw [ownerOf, Function.comp_apply, hnone]
    rfl
  · rw [hpc]
    rfl
  · rw [hpc]
    rfl
  · rw [hpc]
    rfl
  · rw [hpc]
    rfl
  · intro b
    rw [hpc]
    by_cases hb : b = a
    · simp [ThreadsafeListPc.unreachable, hb]
    · simp [ThreadsafeListPc.unreachable, hb, Ne.symm hb]
  · exact (ownerOf_set rfl).trans (if_pos rfl)
  · exact (dataOf_set rfl).trans (if_pos rfl)

/-- The new node comes to the front of the list. -/
theorem Rep.linked (h : Rep s nodes) (hpc : s.pc t = .pushLink x a) {head : ListNode τ T}
    (hhead : s.heap none = some head) (hn : s.heap (some a) = some n)
    (hheap : s'.heap = Function.update (Function.update s.heap (some a)
      (some { n with next := head.next })) none (some { head with next := some a }))
    (hpcs : s'.pc = Function.update s.pc t (.pushUnlock x))
    (hentered : s'.entered = s.entered ++ [(t, .pushFront x)])
    (hreturned : s'.returned = s.returned) : Rep s' ((a, x) :: nodes) := by
  have hok : PcOk s.heap nodes (.pushLink x a) := hpc ▸ h.pcOk t
  obtain ⟨hfree, hx⟩ := hok
  have hmine : (s.pc t).unreachable = some a := by
    rw [hpc]
    rfl
  have ha := h.apart t a hmine
  have hself : s'.pc t = .pushUnlock x := by rw [hpcs, Function.update_self]
  have hother : ∀ u ≠ t, s'.pc u = s.pc u := fun u hu => by rw [hpcs, Function.update_of_ne hu]
  have hhead' : (Function.update s.heap (some a) (some { n with next := head.next })) none =
      some head := by rw [Function.update_of_ne (by simp), hhead]
  have howners : ∀ b, ownerOf s'.heap b = ownerOf s.heap b :=
    fun _ => (ownerOf_same hhead' hheap rfl).trans (ownerOf_same hn rfl rfl)
  have hdatas : ∀ b, dataOf s'.heap b = dataOf s.heap b :=
    fun _ => (dataOf_same hhead' hheap rfl).trans (dataOf_same hn rfl rfl)
  have hsome : ∀ b, (s'.heap b).isSome = (s.heap b).isSome :=
    fun _ => (isSome_set hhead' hheap).trans (isSome_set hn rfl)
  have hothers : ∀ u ≠ t, (s.pc u).unreachable ≠ some a := fun u hu hua =>
    hu (h.alone u t a hua hmine)
  have hheadOwner : ownerOf s.heap none = some t := (h.locks none t).mpr (by
    rw [hpc]
    exact List.mem_singleton_self _)
  have hplaces : ∀ b ∈ places nodes, b ∈ places ((a, x) :: nodes) := by
    intro b hb
    rcases List.mem_cons.mp hb with rfl | hb
    · exact List.mem_cons_self
    · exact List.mem_cons_of_mem _ (List.mem_cons_of_mem _ hb)
  have hnone : ∀ u ≠ t, none ∉ (s.pc u).held := fun u hu => h.not_held (.inr hheadOwner) hu
  have hframe : Frame t s s' nodes ((a, x) :: nodes) := by
    refine ⟨hother, fun u _ => congrFun hreturned u, ?_, ?_⟩
    · intro u hu b hb
      have hbn : b ≠ none := by
        rintro rfl
        exact hnone u hu hb
      have hba : b ≠ some a := by
        rintro rfl
        cases hfree.symm.trans ((h.locks _ u).mpr hb)
      exact ⟨by rw [hheap, Function.update_of_ne hbn, Function.update_of_ne hba], hplaces b⟩
    · intro u hu b hb
      have hba : some b ≠ some a := fun hba => hothers u hu (hba ▸ hb)
      rw [hheap, Function.update_of_ne (by simp), Function.update_of_ne hba]
  refine h.of_frame hframe ?_ ⟨?_, ?_, ?_⟩ ?_ ?_ ?_ ?_ ?_ ?_ ?_
  · rw [hsome]
    exact h.head
  · rw [nextOf_set hheap, if_pos rfl]
  · rw [hdatas, hx]
  · refine h.chain.shift ?_ ?_ (fun _ _ => hdatas _)
    · rw [nextOf_set hheap, if_neg (by simp), nextOf_set rfl, if_pos rfl, next_eq hhead]
    · intro e he
      have hea : some e.1 ≠ some a := by
        intro hea
        exact ha (Option.some.inj hea ▸ List.mem_map_of_mem he)
      rw [nextOf_set hheap, if_neg (by simp), nextOf_set rfl, if_neg hea]
  · exact List.nodup_cons.mpr ⟨ha, h.nodup⟩
  · intro b u
    rw [howners, h.locks]
    by_cases hu : u = t
    · rw [hu, hself, hpc]
      rfl
    · rw [hother u hu]
  · intro b
    rw [hsome, h.inUse, List.map_cons, List.mem_cons]
    constructor
    · rintro (hb | ⟨u, hu⟩)
      · exact .inl (.inr hb)
      · by_cases hut : u = t
        · rw [hut, hmine] at hu
          exact .inl (.inl (Option.some.inj hu).symm)
        · exact .inr ⟨u, by rwa [hother u hut]⟩
    · rintro ((rfl | hb) | ⟨u, hu⟩)
      · exact .inr ⟨t, hmine⟩
      · exact .inl hb
      · by_cases hut : u = t
        · rw [hut, hself] at hu
          cases hu
        · rw [hother u hut] at hu
          exact .inr ⟨u, hu⟩
  · intro u b hu
    by_cases hut : u = t
    · rw [hut, hself] at hu
      cases hu
    · rw [hother u hut] at hu
      rw [List.map_cons, List.mem_cons, not_or]
      exact ⟨fun hba => hothers u hut (by rw [hu, hba]), h.apart u b hu⟩
  · intro u b _ hb
    rw [hself] at hb
    cases hb
  · rw [hself]
    trivial
  · have hsame : ∀ stand : ThreadsafeListPc T → Option (Option ℕ × ListPass T),
        stand (s'.pc t) = stand (s.pc t) → ∀ b, s'.passAt stand b = s.passAt stand b := by
      intro stand hstand b
      refine passAt_congr (howners b) ?_
      intro u _
      by_cases hu : u = t
      · rw [hu, hstand]
      · rw [hother u hu]
    have hbehind := hsame ThreadsafeListPc.behind (by rw [hself, hpc]; rfl)
    have hbefore := hsame ThreadsafeListPc.before (by rw [hself, hpc]; rfl)
    have hitems : s'.items ((a, x) :: nodes) = .cell x :: s.items nodes := by
      have hnobody : ownerOf s'.heap (some a) = none := (howners _).trans hfree
      have hfront : s.passAt ThreadsafeListPc.behind none = [] :=
        passAt_elsewhere hheadOwner (by simp [hpc, ThreadsafeListPc.behind])
      rw [items, items, List.flatMap_cons, hbehind, hfront,
        flatMap_congr fun e _ => segment_congr (hbefore _) (hbehind _), segment,
        passAt_free hnobody, passAt_free hnobody]
      rfl
    have htold : s'.told t = s.told t ++ [(.pushFront x, .returned)] := by
      rw [told, told, hreturned, hself, hpc]
      exact (congrArg (· ++ _) (List.append_nil _)).symm
    rw [hitems, hentered, htold]
    exact h.settled.push (not_mem_walkers (by rw [hpc]; rfl) (by rw [hpc]; rfl)) fun _ => rfl

theorem Rep.pushLink (h : Rep s nodes) (hpc : s.pc t = .pushLink x a) :
    ∃ s', s.pushLink t x a = .ok s' ∧ Good s' := by
  have hheld : none ∈ (s.pc t).held := by
    rw [hpc]
    exact List.mem_singleton_self _
  have hmine : (s.pc t).unreachable = some a := by
    rw [hpc]
    rfl
  obtain ⟨head, hhead, -⟩ := h.held_live hheld
  obtain ⟨n, hn⟩ := Option.isSome_iff_exists.mp ((h.inUse a).mpr (.inr ⟨t, hmine⟩))
  refine ⟨(((s.set (some a) (some { n with next := head.next })).set none
    (some { head with next := some a })).goto t (.pushUnlock x)).enter t (.pushFront x), ?_,
    (a, x) :: nodes, h.linked hpc hhead hn rfl rfl rfl rfl⟩
  rw [ThreadsafeList.pushLink, node_eq_ok hhead, node_eq_ok hn]
  rfl

theorem Rep.go (h : Rep s nodes) (t : τ) : ∃ s', s.go t = .ok s' ∧ Good s' := by
  have hok := h.pcOk t
  unfold ThreadsafeList.go
  cases hpc : s.pc t with
  | idle => exact ⟨s, rfl, nodes, h⟩
  | pushLock value newNode =>
    obtain ⟨s', hs', h'⟩ := h.pushLock hpc
    exact ⟨s', hs', nodes, h'⟩
  | pushLink value newNode => exact h.pushLink hpc
  | pushUnlock value =>
    have hhead : none ∈ places nodes := List.mem_cons_self
    obtain ⟨s', hs', h'⟩ := h.unlockLeave (by rw [hpc]; rfl) (by rw [hpc]; rfl) (by rw [hpc]; rfl)
      (by rw [hpc]; rfl) (by rw [hpc]; rfl) hhead
    exact ⟨s', hs', nodes, h'⟩
  | lockHead k =>
    obtain ⟨s', hs', h'⟩ := h.lockHead hpc
    exact ⟨s', hs', nodes, h'⟩
  | readNext k current =>
    obtain ⟨s', hs', h'⟩ := h.readNext hpc
    exact ⟨s', hs', nodes, h'⟩
  | lockNext k current next =>
    obtain ⟨s', hs', h'⟩ := h.lockNext hpc
    exact ⟨s', hs', nodes, h'⟩
  | unlockLast k current =>
    rw [hpc] at hok
    obtain ⟨s', hs', h'⟩ := h.unlockLeave (by rw [hpc]; rfl) (by rw [hpc]; rfl) (by rw [hpc]; rfl)
      (by rw [hpc]; rfl) (by rw [hpc]; rfl) hok
    exact ⟨s', hs', nodes, h'⟩
  | unlockCurrent w current next =>
    obtain ⟨s', hs', h'⟩ := h.unlockCurrent hpc
    exact ⟨s', hs', nodes, h'⟩
  | visit w next =>
    cases w with
    | forEach f visited => exact h.visitForEach hpc
    | findFirstIf p =>
      obtain ⟨s', hs', h'⟩ := h.visitFind hpc
      exact ⟨s', hs', nodes, h'⟩
  | unlockFound p next res =>
    rw [hpc] at hok
    obtain ⟨s', hs', h'⟩ := h.unlockLeave (by rw [hpc]; rfl) (by rw [hpc]; rfl) (by rw [hpc]; rfl)
      (by rw [hpc]; rfl) (by rw [hpc]; rfl) hok
    exact ⟨s', hs', nodes, h'⟩
  | test p current next =>
    obtain ⟨s', hs', h'⟩ := h.test hpc
    exact ⟨s', hs', nodes, h'⟩
  | unlink p current next => exact h.unlink hpc
  | unlockRemoved p current oldNext =>
    obtain ⟨s', hs', h'⟩ := h.unlockRemoved hpc
    exact ⟨s', hs', nodes, h'⟩
  | delete p current oldNext =>
    obtain ⟨s', hs', h'⟩ := h.delete hpc
    exact ⟨s', hs', nodes, h'⟩
  | advance p current next =>
    obtain ⟨s', hs', h'⟩ := h.advance hpc
    exact ⟨s', hs', nodes, h'⟩

theorem Rep.call (h : Rep s nodes) (t : τ) (request : ListRequest T) (address : ℕ) :
    Rep (s.call t request address) nodes := by
  unfold ThreadsafeList.call
  cases hpc : s.pc t with
  | idle =>
    cases request with
    | pushFront value =>
      change Rep (if (s.heap (some address)).isSome then s else _) nodes
      by_cases hused : (s.heap (some address)).isSome
      · rw [if_pos hused]
        exact h
      · rw [if_neg hused]
        exact h.pushFront hpc (by simpa using hused)
    | forEach f => exact h.begin hpc rfl
    | findFirstIf p => exact h.begin hpc trivial
    | removeIf p => exact h.begin hpc trivial
  | _ => exact h

end Steps

end HighPerformance.ThreadsafeList
