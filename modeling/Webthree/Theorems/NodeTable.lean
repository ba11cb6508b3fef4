import Mathlib.Data.List.Destutter
import Webthree.Net.NodeTable

/-!
# Evictions

An eviction that has begun is to be settled once: a pong from the node least recently seen keeps it in its place, and otherwise a
check after the timeout gives the place to the new node. `Watch` keeps this account beside the table. The table follows it exactly
as long as nothing is settled: it looks for answers to evictions that begin in the future, and it never takes the overdue ones out
of `m_evictions`.
-/

namespace Webthree

namespace NodeTable

variable {P : NodeTableParams} {m : Moment}

/-! ## What is left alone -/

/-- The evictions and the timer are as before. -/
structure Quiet (s s' : NodeTable) : Prop where
  evictions : s'.m_evictions = s.m_evictions
  checks : s'.checks = s.checks
  isStopped : s'.isStopped = s.isStopped

/-- A table is as quiet as itself. -/
theorem Quiet.refl (s : NodeTable) : Quiet s s := ⟨rfl, rfl, rfl⟩

/-- Quiet changes compose. -/
theorem Quiet.trans {s s' s'' : NodeTable} (h : Quiet s s') (h' : Quiet s' s'') : Quiet s s'' :=
  ⟨h'.evictions.trans h.evictions, h'.checks.trans h.checks, h'.isStopped.trans h.isStopped⟩

/-- To make an entry is quiet. -/
theorem quiet_makeEntry (node : Node) (pending : Bool) (s : NodeTable) : Quiet s (s.makeEntry P node pending) := ⟨rfl, rfl, rfl⟩

/-- To clear a pending mark is quiet. -/
theorem quiet_clearPending (id : NodeID) (s : NodeTable) : Quiet s (s.clearPending id) := by
  unfold clearPending
  split
  · exact .refl s
  · exact ⟨rfl, rfl, rfl⟩

/-- To drop a node is quiet. -/
theorem quiet_dropNode (p : Nat) (s : NodeTable) : Quiet s (s.dropNode p) := ⟨rfl, rfl, rfl⟩

/-- To drop nodes is quiet. -/
theorem quiet_dropNodes (ps : List Nat) (s : NodeTable) : Quiet s (ps.foldl (fun s n => s.dropNode n) s) := by
  induction ps generalizing s with
  | nil => exact .refl s
  | cons p ps ih => exact (quiet_dropNode p s).trans (ih _)

/-- To add a node is quiet. -/
theorem quiet_addNode (node : Node) (relation : NodeRelation) (s : NodeTable) : Quiet s (s.addNode P node relation) := by
  cases relation with
  | Known => exact quiet_makeEntry node false s
  | Unknown =>
    simp only [addNode]
    split
    · exact .refl s
    split
    · exact ⟨rfl, rfl, rfl⟩
    split
    · exact .refl s
    · exact quiet_makeEntry node true s

/-- The answer to a search is quiet. -/
theorem quiet_onNeighbours (id : NodeID) (nodes : List Node) (s : NodeTable) : Quiet s (s.onNeighbours P m id nodes) := by
  have hfold : ∀ (l : List Node) (t : NodeTable), Quiet t (l.foldl (fun s n => s.addNode P n .Unknown) t) := by
    intro l
    induction l with
    | nil => exact fun t => .refl t
    | cons n l ih => exact fun t => (quiet_addNode n .Unknown t).trans (ih _)
  simp only [onNeighbours]
  split
  · refine Quiet.trans ?_ (hfold nodes _)
    exact ⟨rfl, rfl, rfl⟩
  · exact ⟨rfl, rfl, rfl⟩

/-- To place a node is quiet. -/
theorem quiet_placeNode (p : Nat) (s : NodeTable) : Quiet s (s.placeNode m p) := by
  simp only [placeNode]
  split
  · split
    · exact ⟨rfl, rfl, rfl⟩
    · exact ⟨rfl, rfl, rfl⟩
  · exact ⟨rfl, rfl, rfl⟩

/-- No eviction is settled by a pong, as none begins after it has arrived. -/
theorem quiet_onPong (id : NodeID) (src : UdpEndpoint) {s : NodeTable} (h : ∀ e ∈ s.m_evictions, e.since ≤ m.now) :
    Quiet s (s.onPong P m id src).1 := by
  have hnone : s.m_evictions.find? (answered m id) = none := by
    rw [List.find?_eq_none]
    intro e he
    simp only [answered, decide_eq_true_eq, not_and]
    exact fun _ => Nat.not_lt.mpr (h e he)
  simp only [onPong, hnone]
  split
  · exact quiet_clearPending id s
  split
  · have hping : Quiet s { s with m_pubkDiscoverPings := s.m_pubkDiscoverPings.erase src.address } := ⟨rfl, rfl, rfl⟩
    dsimp only
    exact hping.trans (quiet_addNode (P := P) _ _ _)
  · exact .refl s

/-! ## Evictions that begin -/

/-- A new endpoint changes neither id nor distance. -/
theorem entry_updateEndpoint (p q : Nat) (endpoint : UdpEndpoint) (s : NodeTable) :
    ((s.updateEndpoint p endpoint).entry q).id = (s.entry q).id ∧
      ((s.updateEndpoint p endpoint).entry q).distance = (s.entry q).distance := by
  simp only [entry, updateEndpoint, List.getD_eq_getElem?_getD, List.getElem?_modify]
  cases s.entries[q]? with
  | none => exact ⟨rfl, rfl⟩
  | some e =>
    by_cases h : p = q
    · simp [h]
    · simp [h]

/-- A new endpoint does not change which node is contested. -/
theorem contested_updateEndpoint (p q : Nat) (endpoint : UdpEndpoint) (s : NodeTable) :
    (s.updateEndpoint p endpoint).contested m q = s.contested m q := by
  have hentry := fun q => entry_updateEndpoint p q endpoint s
  have hlock : (s.updateEndpoint p endpoint).lock m = s.lock m := by
    funext r
    simp only [lock, (hentry r).1]
    rfl
  have hbucket : (s.updateEndpoint p endpoint).withoutNode q = s.withoutNode q := by
    simp only [withoutNode, bucket_UNSAFE, (hentry q).2]
    rfl
  simp only [contested, hlock, hbucket]

/-- The eviction that begins when a node is noted as active. -/
def started (P : NodeTableParams) (m : Moment) (s : NodeTable) (pubk : NodeID) (endpoint : UdpEndpoint) : Option EvictionTimeout :=
  (s.activeEntry P pubk endpoint).bind fun p =>
    (s.contested m p).bind fun c => if s.isOpen then some ⟨(s.entry c).id, m.now, (s.entry p).id⟩ else none

/-- An eviction that begins is the last one, and the timer is set for the first. -/
structure Noted (s s' : NodeTable) (e : Option EvictionTimeout) : Prop where
  evictions : s'.m_evictions = s.m_evictions ++ e.toList
  isStopped : s'.isStopped = s.isStopped
  checks_le : s.checks ≤ s'.checks
  scheduled : s.m_evictions = [] → e ≠ none → 0 < s'.checks ∨ s.isStopped = true

/-- A quiet change starts no eviction. -/
theorem Quiet.noted {s s' : NodeTable} (h : Quiet s s') : Noted s s' none where
  evictions := by rw [h.evictions, Option.toList_none, List.append_nil]
  isStopped := h.isStopped
  checks_le := h.checks.ge
  scheduled _ hne := absurd rfl hne

/-- The next check is ordered unless the table is stopped; the evictions are left. -/
theorem doCheckEvictions_cases (s : NodeTable) : s.doCheckEvictions.m_evictions = s.m_evictions ∧
    s.doCheckEvictions.isStopped = s.isStopped ∧ s.checks ≤ s.doCheckEvictions.checks ∧
      (0 < s.doCheckEvictions.checks ∨ s.isStopped = true) := by
  unfold doCheckEvictions
  split
  · next h => exact ⟨rfl, rfl, Nat.le_refl _, Or.inr h⟩
  · exact ⟨rfl, rfl, Nat.le_succ _, Or.inl (Nat.succ_pos _)⟩

/-- An eviction is started while the socket is open. -/
theorem noted_evict (c p : Nat) (s : NodeTable) :
    Noted s (s.evict m c p) (if s.isOpen then some ⟨(s.entry c).id, m.now, (s.entry p).id⟩ else none) := by
  by_cases hopen : s.isOpen = true
  · have hn : ¬(!s.isOpen) = true := by rw [hopen]; exact Bool.false_ne_true
    rw [evict, if_neg hn, if_pos hopen]
    obtain ⟨hev, hst, hle, hpos⟩ := doCheckEvictions_cases
      { s with m_evictions := s.m_evictions ++ [⟨(s.entry c).id, m.now, (s.entry p).id⟩] }
    dsimp only
    split
    · exact ⟨hev, hst, hle, fun _ _ => hpos⟩
    · next hlen =>
      refine ⟨rfl, rfl, Nat.le_refl _, fun hnil _ => absurd ?_ hlen⟩
      rw [hnil]
      rfl
  · have hn : (!s.isOpen) = true := by rw [Bool.not_eq_true] at hopen; rw [hopen]; rfl
    rw [evict, if_pos hn, if_neg hopen]
    exact (Quiet.refl s).noted

/-- To place a node keeps the socket and the entries. -/
theorem placeNode_frame (p : Nat) (s : NodeTable) :
    (s.placeNode m p).isOpen = s.isOpen ∧ (s.placeNode m p).entries = s.entries := by
  simp only [placeNode]
  split
  · split
    · exact ⟨rfl, rfl⟩
    · exact ⟨rfl, rfl⟩
  · exact ⟨rfl, rfl⟩

/-- A node that is noted starts an eviction where its bucket is full. -/
theorem noted_noteActiveNode (pubk : NodeID) (endpoint : UdpEndpoint) (s : NodeTable) :
    Noted s (s.noteActiveNode P m pubk endpoint) (started P m s pubk endpoint) := by
  unfold noteActiveNode started
  cases s.activeEntry P pubk endpoint with
  | none => exact (Quiet.refl s).noted
  | some p =>
    dsimp only [Option.bind_some]
    rw [contested_updateEndpoint]
    have hupdate : Quiet s (s.updateEndpoint p endpoint) := ⟨rfl, rfl, rfl⟩
    cases hc : s.contested m p with
    | none => exact (hupdate.trans (quiet_placeNode p _)).noted
    | some c =>
      have hplace := hupdate.trans (quiet_placeNode (m := m) p (s.updateEndpoint p endpoint))
      obtain ⟨hopen, hentries⟩ := placeNode_frame (m := m) p (s.updateEndpoint p endpoint)
      have hentry : ∀ q, (((s.updateEndpoint p endpoint).placeNode m p).entry q).id = (s.entry q).id := by
        intro q
        rw [entry, hentries]
        exact (entry_updateEndpoint p q endpoint s).1
      have hnoted := noted_evict (m := m) c p ((s.updateEndpoint p endpoint).placeNode m p)
      rw [hopen, hentry, hentry] at hnoted
      change Noted _ _ (if s.isOpen then _ else _) at hnoted
      refine ⟨?_, ?_, ?_, ?_⟩
      · rw [hnoted.evictions, hplace.evictions]
        rfl
      · rw [hnoted.isStopped, hplace.isStopped]
      · exact hplace.checks ▸ hnoted.checks_le
      · rw [← hplace.evictions, ← hplace.isStopped]
        exact hnoted.scheduled

/-! ## The account -/

/-- A table, the reading of the clock at its last event, the evictions that are pending, and those that the last event should
have settled: by keeping the node least recently seen, or by replacing it. -/
structure Watch where
  table : NodeTable
  clock : TimePoint
  pending : List EvictionTimeout
  kept : List EvictionTimeout
  replaced : List EvictionTimeout

/-- A pong of this node settles the eviction. -/
def inTime (m : Moment) (id : NodeID) (e : EvictionTimeout) : Bool := e.leastSeen = id ∧ m.now - e.since ≤ c_reqTimeout

/-- A check settles the eviction. -/
def overdue (m : Moment) (e : EvictionTimeout) : Bool := c_reqTimeout < m.now - e.since

namespace Watch

def new : Watch := ⟨NodeTable.new, 0, [], [], []⟩

/-- The eviction that begins with an event. -/
def begun (P : NodeTableParams) (m : Moment) (s : NodeTable) (ev : NodeTableEvent) : Option EvictionTimeout :=
  (s.handle P m ev).2.bind fun n => started P m (s.handle P m ev).1 n.1 n.2

/-- The step of the table, with the account of its evictions. A pong settles the first eviction that waits for it. -/
def next (P : NodeTableParams) (w : Watch) (i : Moment × NodeTableEvent) : Watch :=
  let table := w.table.next P i.1 i.2
  let begun := (begun P i.1 w.table i.2).toList
  match i.2 with
  | .pong id _ =>
    ⟨table, i.1.now, w.pending.eraseP (inTime i.1 id) ++ begun, (w.pending.find? (inTime i.1 id)).toList, []⟩
  | .checkEvictions =>
    ⟨table, i.1.now, (w.pending.filter fun e => !overdue i.1 e) ++ begun, [], w.pending.filter (overdue i.1)⟩
  | _ => ⟨table, i.1.now, w.pending ++ begun, [], []⟩

/-- The clock never goes back, and a check runs when it is scheduled. -/
def Allowed (w : Watch) (i : Moment × NodeTableEvent) : Prop :=
  w.clock ≤ i.1.now ∧ (i.2 = .checkEvictions → 0 < w.table.checks)

instance (w : Watch) (i : Moment × NodeTableEvent) : Decidable (Allowed w i) :=
  inferInstanceAs (Decidable (_ ∧ (_ → _)))

end Watch

/-- The node has a place in its bucket. -/
def Placed (s : NodeTable) (id : NodeID) : Prop := ∃ i, ∃ p ∈ s.m_state i, (s.entry p).id = id

/-- `m_evictions` has what is pending; a check is scheduled if something is, unless the timers are stopped; where a pong was in
time, the new node is discarded, and where a check found no answer, the new node has the place. -/
structure Right (w : Watch) : Prop where
  pending : w.table.m_evictions = w.pending
  scheduled : w.pending ≠ [] → 0 < w.table.checks ∨ w.table.isStopped = true
  kept : ∀ e ∈ w.kept, Placed w.table e.leastSeen ∧ ¬Placed w.table e.new
  replaced : ∀ e ∈ w.replaced, ¬Placed w.table e.leastSeen ∧ Placed w.table e.new

/-- An event should settle an eviction: a pong arrives in time, or a check finds an eviction overdue. -/
def Settles (s : NodeTable) (i : Moment × NodeTableEvent) : Prop :=
  match i.2 with
  | .pong id _ => ∃ e ∈ s.m_evictions, inTime i.1 id e = true
  | .checkEvictions => ∃ e ∈ s.m_evictions, overdue i.1 e = true
  | _ => False

/-! ## Steps -/

open Watch (begun Allowed)

/-- An event starts the eviction that it begins. -/
theorem noted_next (s : NodeTable) (ev : NodeTableEvent) : Noted (s.handle P m ev).1 (s.next P m ev) (begun P m s ev) := by
  unfold next begun
  rcases s.handle P m ev with ⟨t, n⟩
  cases n with
  | none => exact (Quiet.refl t).noted
  | some n => exact noted_noteActiveNode n.1 n.2 t

/-- An eviction is dated by the time it begins. -/
theorem since_of_begun {s : NodeTable} {ev : NodeTableEvent} {e : EvictionTimeout} (h : begun P m s ev = some e) :
    e.since = m.now := by
  unfold begun started at h
  obtain ⟨n, -, h⟩ := Option.bind_eq_some_iff.mp h
  obtain ⟨p, -, h⟩ := Option.bind_eq_some_iff.mp h
  obtain ⟨c, -, h⟩ := Option.bind_eq_some_iff.mp h
  split at h
  · cases h
    rfl
  · cases h

/-- Every event but the check and the stop is quiet until it begins an eviction. -/
theorem quiet_handle {s : NodeTable} (hclock : ∀ e ∈ s.m_evictions, e.since ≤ m.now) {ev : NodeTableEvent}
    (hcheck : ev ≠ .checkEvictions) (hstop : ev ≠ .stop) : Quiet s (s.handle P m ev).1 := by
  cases ev with
  | addNode node relation =>
    cases relation with
    | Known => exact quiet_addNode (P := P) node .Known s
    | Unknown => exact quiet_addNode (P := P) node .Unknown s
  | pong id src =>
    have hq := quiet_onPong (P := P) id src hclock
    simp only [handle]
    split
    · next heq => rwa [heq] at hq
    · next heq => rwa [heq] at hq
  | neighbours id src nodes => exact quiet_onNeighbours id nodes s
  | findNode id src => exact .refl s
  | pingNode id src source => exact quiet_addNode (P := P) _ .Unknown s
  | findNodeSent id => exact ⟨rfl, rfl, rfl⟩
  | checkEvictions => exact absurd rfl hcheck
  | disconnect => exact ⟨rfl, rfl, rfl⟩
  | stop => exact absurd rfl hstop

/-- Whatever the event, nothing is taken out of `m_evictions`. -/
theorem handle_evictions {s : NodeTable} (hclock : ∀ e ∈ s.m_evictions, e.since ≤ m.now) (ev : NodeTableEvent) :
    (s.handle P m ev).1.m_evictions = s.m_evictions := by
  by_cases hcheck : ev = .checkEvictions
  · subst hcheck
    simp only [handle, checkEvictions]
    split
    · rfl
    split
    · rw [(doCheckEvictions_cases _).1, (quiet_dropNodes _ _).evictions]
    · rw [(quiet_dropNodes _ _).evictions]
  by_cases hstop : ev = .stop
  · subst hstop
    rfl
  · exact (quiet_handle hclock hcheck hstop).evictions

/-- A check stays scheduled while nothing is overdue. -/
theorem handle_scheduled {s : NodeTable} (hclock : ∀ e ∈ s.m_evictions, e.since ≤ m.now) {ev : NodeTableEvent}
    (hs : ¬Settles s (m, ev)) (hsch : s.m_evictions ≠ [] → 0 < s.checks ∨ s.isStopped = true) (hne : s.m_evictions ≠ []) :
    0 < (s.handle P m ev).1.checks ∨ (s.handle P m ev).1.isStopped = true := by
  by_cases hcheck : ev = .checkEvictions
  · subst hcheck
    -- nothing is dropped, and so the evictions that remain are all of them
    have hexpired : s.m_evictions.filter (overdue m) = [] := by
      rw [List.filter_eq_nil_iff]
      exact fun e he ho => hs ⟨e, he, ho⟩
    unfold overdue at hexpired
    simp only [handle, checkEvictions, hexpired]
    split
    · next hst => exact Or.inr hst
    have hlen : 0 < s.m_evictions.length - ([].filterMap fun e : EvictionTimeout => s.m_nodes e.new).length := by
      exact List.length_pos_iff.mpr hne
    rw [if_pos hlen, (doCheckEvictions_cases _).2.1]
    exact (doCheckEvictions_cases _).2.2.2
  by_cases hstop : ev = .stop
  · subst hstop
    exact Or.inr rfl
  · have hq := quiet_handle (P := P) hclock hcheck hstop
    rw [hq.checks, hq.isStopped]
    exact hsch hne

/-- The evictions of the table begin before its last event. -/
def Clocked (w : Watch) : Prop := ∀ e ∈ w.table.m_evictions, e.since ≤ w.clock

/-- The evictions after an event are those before it and the one that it begins. -/
theorem next_evictions {w : Watch} {i : Moment × NodeTableEvent} (hw : Clocked w) (hi : Allowed w i) :
    (w.next P i).table.m_evictions = w.table.m_evictions ++ (begun P i.1 w.table i.2).toList := by
  obtain ⟨m, ev⟩ := i
  have hclock : ∀ e ∈ w.table.m_evictions, e.since ≤ m.now := fun e he => (hw e he).trans hi.1
  have htable : (w.next P (m, ev)).table = w.table.next P m ev := by cases ev <;> rfl
  rw [htable, (noted_next w.table ev).evictions, handle_evictions hclock]

/-- No eviction is dated in the future. -/
theorem next_clocked {w : Watch} {i : Moment × NodeTableEvent} (hw : Clocked w) (hi : Allowed w i) : Clocked (w.next P i) := by
  have hclock : (w.next P i).clock = i.1.now := by
    obtain ⟨m, ev⟩ := i
    cases ev <;> rfl
  intro e he
  rw [next_evictions hw hi, List.mem_append] at he
  rw [hclock]
  rcases he with he | he
  · exact (hw e he).trans hi.1
  · exact (since_of_begun (Option.mem_toList.mp he)).le

/-- One step keeps the account right exactly if it settles nothing. -/
theorem next_right {w : Watch} {i : Moment × NodeTableEvent} (hw : Clocked w) (hi : Allowed w i) (hr : Right w) :
    Right (w.next P i) ↔ ¬Settles w.table i := by
  have hev := next_evictions (P := P) hw hi
  refine ⟨fun h hs => ?_, fun hs => ?_⟩
  · have heq := hev.symm.trans h.pending
    rw [hr.pending] at heq
    obtain ⟨m, ev⟩ := i
    cases ev with
    | pong id src =>
      obtain ⟨e, he, hin⟩ := hs
      have hlen := congrArg List.length (List.append_cancel_right heq)
      rw [hr.pending] at he
      rw [List.length_eraseP_of_mem he hin] at hlen
      have := List.length_pos_of_mem he
      omega
    | checkEvictions =>
      obtain ⟨e, he, ho⟩ := hs
      rw [hr.pending] at he
      have hall := List.filter_eq_self.mp (List.append_cancel_right heq).symm e he
      rw [ho] at hall
      cases hall
    | _ => exact hs
  · obtain ⟨m, ev⟩ := i
    have hclock : ∀ e ∈ w.table.m_evictions, e.since ≤ m.now := fun e he => (hw e he).trans hi.1
    have hnoted := noted_next (P := P) (m := m) w.table ev
    have hsch : w.pending ++ (begun P m w.table ev).toList ≠ [] →
        0 < (w.table.next P m ev).checks ∨ (w.table.next P m ev).isStopped = true := by
      intro hne
      rw [hnoted.isStopped]
      by_cases hnil : w.table.m_evictions = []
      · have hbegun : begun P m w.table ev ≠ none := by
          intro hnone
          rw [hnone, ← hr.pending, hnil] at hne
          exact hne rfl
        exact hnoted.scheduled ((handle_evictions hclock ev).trans hnil) hbegun
      · have hh := handle_scheduled (P := P) hclock hs (fun h => hr.scheduled (hr.pending ▸ h)) hnil
        exact hh.imp (fun hpos => hpos.trans_le hnoted.checks_le) id
    -- nothing is settled by this event
    have hpending : (w.next P (m, ev)).pending = w.pending ++ (begun P m w.table ev).toList ∧
        (w.next P (m, ev)).kept = [] ∧ (w.next P (m, ev)).replaced = [] := by
      cases ev with
      | pong id src =>
        have hnone : ∀ e ∈ w.pending, ¬inTime m id e = true := fun e he hin => hs ⟨e, hr.pending ▸ he, hin⟩
        have hfind : w.pending.find? (inTime m id) = none := List.find?_eq_none.mpr hnone
        simp [Watch.next, List.eraseP_of_forall_not hnone, hfind]
      | checkEvictions =>
        have hnone : ∀ e ∈ w.pending, ¬overdue m e = true := fun e he ho => hs ⟨e, hr.pending ▸ he, ho⟩
        have hall : w.pending.filter (fun e => !overdue m e) = w.pending := by
          refine List.filter_eq_self.mpr fun e he => ?_
          rw [Bool.eq_false_iff.mpr (hnone e he)]
          rfl
        simp [Watch.next, hall, List.filter_eq_nil_iff.mpr hnone]
      | _ => exact ⟨rfl, rfl, rfl⟩
    have htable : (w.next P (m, ev)).table = w.table.next P m ev := by cases ev <;> rfl
    refine ⟨?_, ?_, ?_, ?_⟩
    · rw [hev, hpending.1, hr.pending]
    · rw [hpending.1, htable]
      exact hsch
    · rw [hpending.2.1]
      exact fun e he => absurd he List.not_mem_nil
    · rw [hpending.2.2]
      exact fun e he => absurd he List.not_mem_nil

/-- A new table is right. -/
theorem right_new : Right Watch.new where
  pending := rfl
  scheduled h := absurd rfl h
  kept _ he := absurd he List.not_mem_nil
  replaced _ he := absurd he List.not_mem_nil

/-! ## Runs -/

/-- The account of a run. -/
def watch (P : NodeTableParams) (es : List (Moment × NodeTableEvent)) : Watch := es.foldl (Watch.next P) Watch.new

/-- The account is right after each event of a run exactly if no pong from a node that may be evicted arrives in time and no
check finds an eviction overdue. -/
theorem evictions_right_iff {P : NodeTableParams} {es : List (Moment × NodeTableEvent)}
    (h : AllowedFrom (Watch.next P) Allowed Watch.new es) :
    (∀ l, l <+: es → Right (watch P l)) ↔ ∀ l i, l ++ [i] <+: es → ¬Settles (watch P l).table i := by
  have hsplit : ∀ l i, l ++ [i] <+: es → Clocked (watch P l) ∧ Allowed (watch P l) i := by
    intro l i hl
    obtain ⟨r, rfl⟩ := hl
    have hlast := (allowedFrom_append.mp (allowedFrom_append.mp h).1)
    refine ⟨?_, hlast.2.1⟩
    exact (Reach.start.foldl hlast.1).invariant (P := Clocked) (fun _ he => absurd he List.not_mem_nil) fun _ _ => next_clocked
  have hstep : ∀ l i, watch P (l ++ [i]) = (watch P l).next P i := fun l i => List.foldl_concat ..
  refine ⟨fun hr l i hl => ?_, fun hs l => ?_⟩
  · obtain ⟨hw, hi⟩ := hsplit l i hl
    refine (next_right (P := P) hw hi (hr l ((List.prefix_append l [i]).trans hl))).mp ?_
    rw [← hstep]
    exact hr _ hl
  · induction l using List.reverseRecOn with
    | nil => exact fun _ => right_new
    | append_singleton l i ih =>
      intro hl
      obtain ⟨hw, hi⟩ := hsplit l i hl
      rw [hstep]
      exact (next_right hw hi (ih ((List.prefix_append l [i]).trans hl))).mpr (hs l i hl)

namespace EvictionSample

/-- The first half of an id is its hash. -/
def params : NodeTableParams where
  sha3 id := id.setWidth 256
  id := 1
  test_allowLocal := true

/-- A node that is known. -/
def known (id : NodeID) : Moment × NodeTableEvent :=
  (⟨0, []⟩, .addNode ⟨id, ⟨.v4 0x01020304, 30303, 30303⟩⟩ .Known)

/-- The 16 nodes of a bucket, and a 17th that contests the place of the first. -/
def full : List (Moment × NodeTableEvent) := (List.range 17).map fun i => known (BitVec.ofNat 512 (32 + i))

/-- The first of the nodes answers after a millisecond. -/
def answer : Moment × NodeTableEvent := (⟨10 ^ 6, []⟩, .pong 32 ⟨.v4 0x01020304, 30303⟩)

/-- The check after 75 milliseconds. -/
def check : Moment × NodeTableEvent := (⟨75 * 10 ^ 6, []⟩, .checkEvictions)

end EvictionSample

open EvictionSample

theorem evictions_right_iff_sample :
    ((∀ l, l <+: full ++ [check] → Right (watch params l)) ↔
      ∀ l i, l ++ [i] <+: full ++ [check] → ¬Settles (watch params l).table i) ∧
      (watch params (full ++ [check])).pending = [⟨32, 0, 48⟩] :=
  ⟨evictions_right_iff (by decide +kernel), by decide +kernel⟩

/-- The answer is in time, and the eviction is still in `m_evictions`. -/
theorem eviction_not_settled :
    ¬∀ es, AllowedFrom (Watch.next params) Allowed Watch.new es → Right (watch params es) := by
  intro h
  have hright := h (full ++ [answer]) (by decide +kernel)
  exact absurd hright.pending (by decide +kernel)

end NodeTable

end Webthree
