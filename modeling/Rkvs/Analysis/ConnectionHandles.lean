import Rkvs.Interface.ConnectionHandles

/-!
# The handles of finished connections

The destructor of a connection sends nothing, so that the manager only ever hears of connections
that start. Its map has all of them, and is exact as long as none of them has finished.
-/

set_option autoImplicit false

namespace Rkvs.Analysis

open Rkvs.Library Rkvs.Model Rkvs.Interface Connections

/-! ## The parties -/

/-- INTERNAL: dropping a connection leaves the channel as it is.
SOURCE: connection.rs:252-261 -/
@[simp] theorem drop_eq (id : ℕ) (c : Channel) : TcpConnection.drop id c = c := rfl

/-- INTERNAL: a channel with a receiver has the value behind the others. -/
theorem poll_open {future : SendFuture} {c c' : Channel} (hopen : c.closed = false)
    (h : future.poll c = some c') : c'.queued = c.queued ++ [future.value] ∧ c'.closed = false := by
  unfold SendFuture.poll at h
  rw [hopen] at h
  rw [if_neg (by decide)] at h
  split_ifs at h with hfree
  obtain rfl := Option.some.inj h
  exact ⟨rfl, rfl⟩

/-- INTERNAL: a channel without a receiver stays as it is. -/
theorem poll_closed {future : SendFuture} {c c' : Channel} (hclosed : c.closed = true)
    (h : future.poll c = some c') : c' = c := by
  unfold SendFuture.poll at h
  rw [hclosed, if_pos rfl] at h
  exact (Option.some.inj h).symm

theorem mem_insert {handles : ConnectionManager.Handles} {id key : ℕ} {handle : ConnectionHandle} :
    id ∈ (handles.insert key handle).map Prod.fst ↔ id ∈ handles.map Prod.fst ∨ id = key := by
  unfold ConnectionManager.Handles.insert ConnectionManager.Handles.remove
  by_cases heq : id = key
  · simp [heq]
  · simp [heq, List.mem_filter]

/-- The id of the connection that is accepted next, or started. -/
def currentId? : Server.Phase → Option ℕ
  | .looping n => some n
  | .accepting n => some n
  | .starting n => some n
  | .closing => none
  | .ended => none

/-- INTERNAL: the id grows. -/
theorem currentId_next {n m : ℕ} (h : currentId? (Server.nextPhase n) = some m) : m = n + 1 := by
  unfold Server.nextPhase checkedAdd at h
  split_ifs at h with hsmall
  · exact (Option.some.inj h).symm
  · cases h

/-- INTERNAL: the server is at the head of its loop after a start. -/
theorem nextPhase_ne (n m : ℕ) : Server.nextPhase n ≠ .starting m := by
  unfold Server.nextPhase
  split <;> simp

/-! ## What holds in every state -/

/-- INTERNAL: the tasks of the started connections. -/
structure Spawned (server : Server.Phase) (tasks : ℕ → TaskPhase) (started : List ℕ) : Prop where
  spawned : ∀ id ∈ started, tasks id ≠ .absent
  starting : ∀ n, server = .starting n → tasks n ≠ .absent
  fresh : ∀ n, currentId? server = some n → ∀ id ∈ started, id < n

/-- INTERNAL: the channel and the map have the started connections. -/
structure Registered (channel : Channel) (manager : ConnectionManager.Phase)
    (started : List ℕ) : Prop where
  listens : ∀ handles, manager.handles? = some handles → channel.closed = false
  signals : ∀ data ∈ channel.queued, ∃ id, data = .startSignal ⟨⟨id⟩, id⟩
  never_awaits : ∀ handle handles, manager ≠ .awaiting handle handles
  registered : ∀ handles, manager.handles? = some handles → ∀ id,
    id ∈ handles.map Prod.fst ∨ .startSignal ⟨⟨id⟩, id⟩ ∈ channel.queued ↔ id ∈ started

/-- INTERNAL: tasks that have been spawned stay so. -/
theorem spawned_update {server : Server.Phase} {tasks : ℕ → TaskPhase} {started : List ℕ}
    (h : Spawned server tasks started) {id : ℕ} {phase : TaskPhase} (hphase : phase ≠ .absent) :
    Spawned server (Function.update tasks id phase) started := by
  have hkept : ∀ n, tasks n ≠ .absent → Function.update tasks id phase n ≠ .absent := by
    intro n hn
    by_cases heq : n = id
    · rw [heq, Function.update_self]
      exact hphase
    · rwa [Function.update_of_ne heq]
  exact ⟨fun n hn => hkept n (h.spawned n hn), fun n hn => hkept n (h.starting n hn), h.fresh⟩

/-- INTERNAL: a manager without a map knows nothing. -/
theorem registered_closed {channel : Channel} {manager : ConnectionManager.Phase}
    {started : List ℕ} (hnone : manager.handles? = none)
    (hsignals : ∀ data ∈ channel.queued, ∃ id, data = .startSignal ⟨⟨id⟩, id⟩) :
    Registered channel manager started where
  listens handles hsome := by
    rw [hnone] at hsome
    cases hsome
  signals := hsignals
  never_awaits handle handles heq := by
    rw [heq] at hnone
    cases hnone
  registered handles hsome := by
    rw [hnone] at hsome
    cases hsome

/-- INTERNAL: a start signal is sent, or lost when the manager is gone. -/
theorem registered_send {channel channel' : Channel} {manager : ConnectionManager.Phase}
    {started : List ℕ} {n : ℕ} (h : Registered channel manager started)
    (hsent : (send (.startSignal ⟨⟨n⟩, n⟩)).poll channel = some channel') :
    Registered channel' manager (started ++ [n]) := by
  cases hclosed : channel.closed with
  | true =>
    obtain rfl := poll_closed hclosed hsent
    apply registered_closed _ h.signals
    by_contra hsome
    obtain ⟨handles, hsome⟩ := Option.ne_none_iff_exists'.mp hsome
    rw [h.listens handles hsome] at hclosed
    cases hclosed
  | false =>
    obtain ⟨hqueued, hopen⟩ := poll_open hclosed hsent
    refine ⟨fun _ _ => hopen, fun data hdata => ?_, h.never_awaits, fun handles hsome id => ?_⟩
    · rw [hqueued] at hdata
      obtain hdata | hdata := List.mem_append.mp hdata
      · exact h.signals data hdata
      · exact ⟨n, List.mem_singleton.mp hdata⟩
    · rw [hqueued, List.mem_append, List.mem_append, ← or_assoc, h.registered handles hsome]
      simp [send]

/-- INTERNAL: the manager registers a started connection.
SOURCE: connection_manager.rs:25-35 -/
theorem registered_receive {channel : Channel} {handles : ConnectionManager.Handles}
    {started : List ℕ} {data : ConnectionData} {rest : List ConnectionData}
    (h : Registered channel (.receiving handles) started) (hnext : channel.queued = data :: rest) :
    Registered { channel with queued := rest } (ConnectionManager.process handles data)
      started := by
  have hall := h.signals
  have hregistered := h.registered handles rfl
  rw [hnext] at hall hregistered
  obtain ⟨n, rfl⟩ := hall data List.mem_cons_self
  refine ⟨fun _ _ => h.listens handles rfl, fun data hdata => ?_, ?_, ?_⟩
  · exact hall data (List.mem_cons_of_mem _ hdata)
  · rintro _ _ ⟨⟩
  · rintro _ ⟨⟩ id
    rw [mem_insert, ← hregistered, List.mem_cons, or_assoc]
    simp

/-- INTERNAL: what holds in every state. -/
def AllKnown (st : Connections) : Prop :=
  Spawned st.server st.tasks st.started ∧ Registered st.channel st.manager st.started

theorem allKnown_new : AllKnown Connections.new := by
  refine ⟨⟨?_, ?_, ?_⟩, fun _ _ => rfl, ?_, ?_, ?_⟩
  · rintro _ ⟨⟩
  · rintro _ ⟨⟩
  · rintro _ _ _ ⟨⟩
  · rintro _ ⟨⟩
  · rintro _ _ ⟨⟩
  · rintro _ ⟨⟩ id
    simp [Connections.new]

/-- INTERNAL: every step keeps it. -/
theorem allKnown_step {st st' : Connections} {a : Action} (h : AllKnown st) (hstep : Step st a st') :
    AllKnown st' := by
  obtain ⟨hspawned, hregistered⟩ := h
  cases hstep with
  | cancel => exact ⟨hspawned, hregistered⟩
  | enter looping go =>
    rw [looping] at hspawned
    exact ⟨⟨hspawned.spawned, nofun, hspawned.fresh⟩, hregistered⟩
  | leave looping stop => exact ⟨⟨hspawned.spawned, nofun, nofun⟩, hregistered⟩
  | @accept n accepting =>
    rw [accepting] at hspawned
    have hserving : TaskPhase.serving ≠ .absent := by decide
    obtain ⟨hold, -, hfresh⟩ := @spawned_update _ _ _ hspawned n _ hserving
    refine ⟨⟨hold, ?_, hfresh⟩, hregistered⟩
    rintro _ ⟨⟩
    show Function.update st.tasks n .serving n ≠ .absent
    rwa [Function.update_self]
  | acceptError accepting => exact ⟨⟨hspawned.spawned, nofun, nofun⟩, hregistered⟩
  | @start n channel starting sent =>
    refine ⟨⟨fun id hid => ?_, ?_, ?_⟩, registered_send hregistered sent⟩
    · obtain hid | hid := List.mem_append.mp hid
      · exact hspawned.spawned id hid
      · rw [List.mem_singleton.mp hid]
        exact hspawned.starting n starting
    · intro m hm
      exact absurd hm (nextPhase_ne n m)
    · intro m hm id hid
      obtain rfl := currentId_next hm
      obtain hid | hid := List.mem_append.mp hid
      · have hlt := hspawned.fresh n (by rw [starting]; rfl) id hid
        omega
      · rw [List.mem_singleton.mp hid]
        exact Nat.lt_succ_self n
  | join closing gone => exact ⟨⟨hspawned.spawned, nofun, nofun⟩, hregistered⟩
  | drop serving => exact ⟨spawned_update hspawned (by decide), hregistered⟩
  | finish returning => exact ⟨spawned_update hspawned (by decide), hregistered⟩
  | receive receiving next go =>
    rw [receiving] at hregistered
    exact ⟨hspawned, registered_receive hregistered next⟩
  | stop receiving next cancelled all =>
    refine ⟨hspawned, registered_closed rfl fun data hdata => ?_⟩
    apply hregistered.signals
    rw [next]
    exact List.mem_cons_of_mem _ hdata
  | disconnect receiving none gone all =>
    exact ⟨hspawned, registered_closed rfl hregistered.signals⟩
  | awaited awaiting finished => exact absurd awaiting (hregistered.never_awaits _ _)
  | joined closing finished => exact ⟨hspawned, registered_closed rfl hregistered.signals⟩
  | returned closing => exact ⟨hspawned, registered_closed rfl hregistered.signals⟩

/-! ## Finished connections -/

/-- INTERNAL: no started connection has finished. -/
def AllServed (st : Connections) : Prop := ∀ id ∈ st.started, st.tasks id ≠ .finished

/-- INTERNAL: a task that has been spawned has finished or not. -/
theorem unfinished_iff {st : Connections} {id : ℕ} (hspawned : st.tasks id ≠ .absent) :
    st.Unfinished id ↔ st.tasks id ≠ .finished := by
  unfold Unfinished
  cases hphase : st.tasks id with
  | absent => exact absurd hphase hspawned
  | serving => simp
  | returning => simp
  | finished => simp

/-- INTERNAL: with no more messages the map has all started connections.
SOURCE: connection_manager.rs:20-40 -/
theorem handlesExact_iff {st : Connections} (h : AllKnown st)
    {handles : ConnectionManager.Handles} (hsome : st.manager.handles? = some handles)
    (hempty : st.channel.queued = []) : HandlesExact st ↔ AllServed st := by
  have hkeys : ∀ id, id ∈ handles.map Prod.fst ↔ id ∈ st.started := by
    intro id
    have hregistered := h.2.registered handles hsome id
    simpa [hempty] using hregistered
  constructor
  · intro hexact id hid
    apply (unfinished_iff (h.1.spawned id hid)).mp
    exact ((hexact handles hsome hempty id).mp ((hkeys id).mpr hid)).2
  · intro hserved handles' hsome' _ id
    obtain rfl := Option.some.inj (hsome.symm.trans hsome')
    rw [hkeys]
    constructor
    · exact fun hid => ⟨hid, (unfinished_iff (h.1.spawned id hid)).mpr (hserved id hid)⟩
    · exact fun hid => hid.1

/-- INTERNAL: no started connection has finished after a step exactly if none had before, and the
step keeps them.
SOURCE: lib.rs:65-93 -/
theorem allServed_step {st st' : Connections} {a : Action} (h : AllKnown st)
    (hstep : Step st a st') : AllServed st' ↔ AllServed st ∧ StaysServed (st, a) := by
  unfold AllServed
  cases hstep with
  | cancel => exact (and_iff_left trivial).symm
  | enter looping go => exact (and_iff_left trivial).symm
  | leave looping stop => exact (and_iff_left trivial).symm
  | @accept n accepting =>
    refine Iff.trans (forall₂_congr fun id hid => ?_) (and_iff_left trivial).symm
    have hlt := h.1.fresh n (by rw [accepting]; rfl) id hid
    show Function.update st.tasks n .serving id ≠ .finished ↔ _
    rw [Function.update_of_ne (Nat.ne_of_lt hlt)]
  | acceptError accepting => exact (and_iff_left trivial).symm
  | @start n channel starting sent =>
    have hstays : StaysServed (st, .start) ↔ st.tasks n ≠ .finished := by
      rw [← unfinished_iff (h.1.starting n starting)]
      constructor
      · exact fun hall => hall n starting
      · intro hn m hm
        rw [starting] at hm
        cases hm
        exact hn
    rw [hstays]
    exact List.forall_mem_append.trans (and_congr_right fun _ => List.forall_mem_singleton)
  | join closing gone => exact (and_iff_left trivial).symm
  | @drop id serving =>
    refine Iff.trans (forall₂_congr fun m _ => ?_) (and_iff_left trivial).symm
    show Function.update st.tasks id .returning m ≠ .finished ↔ _
    by_cases heq : m = id
    · rw [heq, Function.update_self, serving]
      decide
    · rw [Function.update_of_ne heq]
  | @finish id returning =>
    show (∀ m ∈ st.started, Function.update st.tasks id .finished m ≠ .finished) ↔
      _ ∧ id ∉ st.started
    constructor
    · intro hall
      have hnot : id ∉ st.started := fun hid => hall id hid (Function.update_self ..)
      refine ⟨fun m hm => ?_, hnot⟩
      have hne : m ≠ id := fun heq => hnot (heq ▸ hm)
      have hother := hall m hm
      rwa [Function.update_of_ne hne] at hother
    · rintro ⟨hall, hnot⟩ m hm
      have hne : m ≠ id := fun heq => hnot (heq ▸ hm)
      rw [Function.update_of_ne hne]
      exact hall m hm
  | receive receiving next go => exact (and_iff_left trivial).symm
  | stop receiving next cancelled all => exact (and_iff_left trivial).symm
  | disconnect receiving none gone all => exact (and_iff_left trivial).symm
  | awaited awaiting finished => exact (and_iff_left trivial).symm
  | joined closing finished => exact (and_iff_left trivial).symm
  | returned closing => exact (and_iff_left trivial).symm

/-- INTERNAL: no started connection has finished exactly if all steps of the run keep them. -/
theorem allServed_run {steps : List (Connections × Action)} {st : Connections}
    (h : Run Step Connections.new steps st) :
    AllServed st ↔ ∀ p ∈ steps, StaysServed p := by
  induction h with
  | nil => simp [AllServed, Connections.new]
  | snoc before step ih =>
    rw [allServed_step (before.invariant allKnown_new (fun _ _ _ => allKnown_step)).2 step, ih,
      List.forall_mem_append, List.forall_mem_singleton]

/-- The map is exact in every state of a run whose steps do not finish started connections or start
finished ones; and after any other run it is not exact once there are no more messages.
SOURCE: lib.rs:65-93; connection.rs:252-261; connection_manager.rs:20-40 -/
theorem handles_exact_iff {steps : List (Connections × Action)} {st : Connections}
    (h : Run Step Connections.new steps st) :
    ((∀ p ∈ steps, StaysServed p) → (∀ p ∈ steps, HandlesExact p.1) ∧ HandlesExact st) ∧
      ∀ handles, st.manager.handles? = some handles → st.channel.queued = [] →
        (HandlesExact st ↔ ∀ p ∈ steps, StaysServed p) := by
  have hknown := (h.invariant allKnown_new fun _ _ _ => allKnown_step).2
  refine ⟨fun hstays => ?_, fun handles hsome hempty => ?_⟩
  · have hboth : ∀ s, AllKnown s ∧ AllServed s → HandlesExact s := by
      rintro s ⟨hs, hserved⟩ handles hsome hempty
      exact (handlesExact_iff hs hsome hempty).mpr hserved handles hsome hempty
    have hinv := h.invariant_of_guard (I := fun s => AllKnown s ∧ AllServed s)
      ⟨allKnown_new, by rintro _ ⟨⟩⟩ (fun s a s' hs hguard hstep =>
        ⟨allKnown_step hs.1 hstep, (allServed_step hs.1 hstep).mpr ⟨hs.2, hguard⟩⟩) hstays
    exact ⟨fun p hp => hboth p.1 (hinv.1 p hp), hboth st hinv.2⟩
  · rw [handlesExact_iff hknown hsome hempty, allServed_run h]

/-- The first connection is accepted. -/
def accepted : Connections :=
  ⟨.starting 0, Function.update (fun _ => .absent) 0 .serving, ⟨[], false⟩, .receiving [], false, []⟩

/-- Its start signal is sent. -/
def signalled : Connections :=
  { accepted with
    server := Server.nextPhase 0
    channel := ⟨[.startSignal ⟨⟨0⟩, 0⟩], false⟩
    started := [0] }

/-- The manager has its handle. -/
def registered : Connections :=
  { signalled with
    channel := ⟨[], false⟩
    manager := .receiving [(0, ⟨0⟩)] }

/-- Its task has finished. -/
def forgotten : Connections :=
  { registered with
    tasks := Function.update (Function.update registered.tasks 0 .returning) 0 .finished }

/-- The steps up to the registration. -/
def firstSteps : List (Connections × Action) :=
  [(Connections.new, .enter), ({ Connections.new with server := .accepting 0 }, .accept),
    (accepted, .start), (signalled, .receive)]

theorem firstSteps_run : Run Step Connections.new firstSteps registered := by
  have henter : Step Connections.new .enter { Connections.new with server := .accepting 0 } :=
    .enter rfl rfl
  have haccept : Step { Connections.new with server := .accepting 0 } .accept accepted :=
    .accept rfl
  have hstart : Step accepted .start signalled := .start rfl rfl
  have hreceive : Step signalled .receive registered :=
    @Step.receive signalled [] (.startSignal ⟨⟨0⟩, 0⟩) [] rfl rfl rfl
  exact (((Run.nil.snoc henter).snoc haccept).snoc hstart).snoc hreceive

/-- The first connection is served. -/
theorem handles_exact_first : HandlesExact registered := by
  apply ((handles_exact_iff firstSteps_run).1 ?_).2
  simp [firstSteps, StaysServed, accepted, Unfinished]

/-- The first connection has finished, and its handle stays. -/
theorem finished_handle_stays :
    ¬∀ (steps : List (Connections × Action)) (st : Connections),
      Run Step Connections.new steps st → HandlesExact st := by
  intro h
  have hdrop : Step registered (.drop 0)
      { registered with tasks := Function.update registered.tasks 0 .returning } := .drop rfl
  have hfinish : Step { registered with tasks := Function.update registered.tasks 0 .returning }
      (.finish 0) forgotten := .finish rfl
  have hexact := h _ _ ((firstSteps_run.snoc hdrop).snoc hfinish) [(0, ⟨0⟩)] rfl rfl 0
  have hunfinished := (hexact.mp (by decide)).2
  simp [Unfinished, forgotten] at hunfinished

end Rkvs.Analysis
