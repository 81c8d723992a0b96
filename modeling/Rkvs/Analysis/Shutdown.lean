import Rkvs.Analysis.ConnectionHandles
import Rkvs.Interface.Shutdown

/-!
# Shutting the server down

The server can end from every state but those in which the manager waits for a message after the
cancellation. The manager does not end before the connections that it has heard of.
-/

set_option autoImplicit false

namespace Rkvs.Analysis

open Rkvs.Library Rkvs.Model Rkvs.Interface Connections Relation

/-! ## The tasks that the manager waits for -/

/-- The handles that the manager has or waits for. -/
def heldHandles : ConnectionManager.Phase → List ConnectionHandle
  | .receiving handles => handles.map Prod.snd
  | .awaiting handle handles => handle :: handles.map Prod.snd
  | .closing handles => handles
  | .ended => []

/-- What holds of the manager in every state. -/
structure Managed (st : Connections) : Prop where
  known : AllKnown st
  own : ∀ handles, st.manager = .receiving handles → ∀ p ∈ handles, p.2 = ⟨p.1⟩
  spawned : ∀ handle ∈ heldHandles st.manager, st.tasks handle.taskHandle ≠ .absent
  gone : st.manager = .ended → st.channel.closed = true
  left : st.server = .closing → st.cancelled = true

theorem managed_new : Managed Connections.new where
  known := allKnown_new
  own := by
    rintro _ ⟨⟩ p hp
    cases hp
  spawned := by
    rintro _ ⟨⟩
  gone := by
    rintro ⟨⟩
  left := by
    rintro ⟨⟩

/-- INTERNAL: a task that has been spawned stays so. -/
theorem update_ne_absent {tasks : ℕ → TaskPhase} {id n : ℕ} {phase : TaskPhase}
    (h : tasks n ≠ .absent) (hphase : phase ≠ .absent) :
    Function.update tasks id phase n ≠ .absent := by
  by_cases heq : n = id
  · rw [heq, Function.update_self]
    exact hphase
  · rwa [Function.update_of_ne heq]

/-- INTERNAL: what is in the map after an insertion. -/
theorem mem_handles_insert {handles : ConnectionManager.Handles} {id : ℕ}
    {handle : ConnectionHandle} {p : ℕ × ConnectionHandle} :
    p ∈ handles.insert id handle ↔ p ∈ handles ∧ p.1 ≠ id ∨ p = (id, handle) := by
  unfold ConnectionManager.Handles.insert ConnectionManager.Handles.remove
  simp [List.mem_filter]

/-- INTERNAL: a receiver that is gone stays so. -/
theorem poll_keeps_closed {future : SendFuture} {c c' : Channel} (h : future.poll c = some c')
    (hclosed : c.closed = true) : c'.closed = true := by
  rw [poll_closed hclosed h]
  exact hclosed

/-- INTERNAL: the server does not leave its loop with a start. -/
theorem nextPhase_ne_closing (n : ℕ) : Server.nextPhase n ≠ .closing := by
  unfold Server.nextPhase
  split <;> simp

/-- INTERNAL: every step keeps it.
SOURCE: lib.rs:65-93; connection_manager.rs:20-40 -/
theorem managed_step {st st' : Connections} {a : Action} (h : Managed st) (hstep : Step st a st') :
    Managed st' := by
  have hknown := allKnown_step h.known hstep
  obtain ⟨hbefore, hown, hspawned, hgone, hleft⟩ := h
  cases hstep with
  | cancel => exact ⟨hknown, hown, hspawned, hgone, fun _ => rfl⟩
  | enter => exact ⟨hknown, hown, hspawned, hgone, nofun⟩
  | leave looping stop => exact ⟨hknown, hown, hspawned, hgone, fun _ => stop⟩
  | accept =>
    exact ⟨hknown, hown, fun handle hmem => update_ne_absent (hspawned handle hmem) (by decide),
      hgone, nofun⟩
  | acceptError => exact ⟨hknown, hown, hspawned, hgone, nofun⟩
  | @start n channel starting sent =>
    refine ⟨hknown, hown, hspawned, fun hended => poll_keeps_closed sent (hgone hended), ?_⟩
    exact fun hclosing => absurd hclosing (nextPhase_ne_closing n)
  | join => exact ⟨hknown, hown, hspawned, hgone, nofun⟩
  | drop =>
    exact ⟨hknown, hown, fun handle hmem => update_ne_absent (hspawned handle hmem) (by decide),
      hgone, hleft⟩
  | finish =>
    exact ⟨hknown, hown, fun handle hmem => update_ne_absent (hspawned handle hmem) (by decide),
      hgone, hleft⟩
  | @receive handles data rest receiving next go =>
    obtain ⟨n, rfl⟩ := hbefore.2.signals data (next ▸ List.mem_cons_self)
    have hstarted : n ∈ st.started := by
      apply (hbefore.2.registered handles (by rw [receiving]; rfl) n).mp
      exact Or.inr (next ▸ List.mem_cons_self)
    rw [receiving] at hspawned
    refine ⟨hknown, ?_, ?_, nofun, hleft⟩
    · rintro _ ⟨⟩ p hp
      obtain ⟨hp, -⟩ | rfl := mem_handles_insert.mp hp
      · exact hown handles receiving p hp
      · rfl
    · intro handle hmem
      obtain ⟨p, hp, rfl⟩ := List.mem_map.mp hmem
      obtain ⟨hp, -⟩ | rfl := mem_handles_insert.mp hp
      · exact hspawned p.2 (List.mem_map_of_mem hp)
      · exact hbefore.1.spawned n hstarted
  | stop receiving next cancelled all =>
    rw [receiving] at hspawned
    exact ⟨hknown, nofun, fun handle hmem => hspawned handle (all.mem_iff.mp hmem), nofun,
      hleft⟩
  | disconnect receiving none gone all =>
    rw [receiving] at hspawned
    exact ⟨hknown, nofun, fun handle hmem => hspawned handle (all.mem_iff.mp hmem), nofun,
      hleft⟩
  | awaited awaiting finished => exact absurd awaiting (hbefore.2.never_awaits _ _)
  | joined closing finished =>
    rw [closing] at hspawned
    exact ⟨hknown, nofun, fun handle hmem => hspawned handle (List.mem_cons_of_mem _ hmem), nofun,
      hleft⟩
  | returned closing => exact ⟨hknown, nofun, nofun, fun _ => rfl, hleft⟩

/-- INTERNAL: later states are managed. -/
theorem managed_reaches {st st' : Connections} (h : Managed st) (hreach : ReflTransGen Next st st') :
    Managed st' := by
  induction hreach with
  | refl => exact h
  | tail _ hnext ih =>
    obtain ⟨a, hstep⟩ := hnext
    exact managed_step ih hstep

/-! ## Stranded servers -/

/-- INTERNAL: where a stranded server is not. -/
theorem stranded_idle {st : Connections} (h : Stranded st) :
    (∀ n, st.server ≠ .accepting n) ∧ (∀ n, st.server ≠ .starting n) ∧ st.server ≠ .ended := by
  obtain hserver | ⟨n, hserver⟩ := h.server <;> rw [hserver] <;> exact ⟨nofun, nofun, nofun⟩

/-- A stranded server stays stranded.
SOURCE: lib.rs:68-92; connection_manager.rs:20-24 -/
theorem stranded_step {st st' : Connections} {a : Action} (h : Stranded st)
    (hstep : Step st a st') : Stranded st' := by
  obtain ⟨haccepting, hstarting, hended⟩ := stranded_idle h
  obtain ⟨hcancelled, hserver, ⟨handles, hmanager⟩, hqueue⟩ := h
  cases hstep with
  | cancel => exact ⟨rfl, hserver, ⟨handles, hmanager⟩, hqueue⟩
  | enter looping go =>
    rw [hcancelled] at go
    cases go
  | leave => exact ⟨hcancelled, Or.inl rfl, ⟨handles, hmanager⟩, hqueue⟩
  | accept accepting => exact absurd accepting (haccepting _)
  | acceptError accepting => exact absurd accepting (haccepting _)
  | start starting => exact absurd starting (hstarting _)
  | join closing gone =>
    rw [hmanager] at gone
    cases gone
  | drop => exact ⟨hcancelled, hserver, ⟨handles, hmanager⟩, hqueue⟩
  | finish => exact ⟨hcancelled, hserver, ⟨handles, hmanager⟩, hqueue⟩
  | receive receiving next =>
    rw [hqueue] at next
    cases next
  | stop receiving next =>
    rw [hqueue] at next
    cases next
  | disconnect receiving none gone => exact absurd gone.1 hended
  | awaited awaiting =>
    rw [hmanager] at awaiting
    cases awaiting
  | joined closing =>
    rw [hmanager] at closing
    cases closing
  | returned closing =>
    rw [hmanager] at closing
    cases closing

/-- INTERNAL: so it does not end. -/
theorem stranded_cannot_end {st : Connections} (h : Stranded st) : ¬CanEnd st := by
  rintro ⟨st', hreach, hended⟩
  have hstranded : Stranded st' := by
    clear hended
    induction hreach with
    | refl => exact h
    | tail _ hnext ih =>
      obtain ⟨a, hstep⟩ := hnext
      exact stranded_step ih hstep
  exact (stranded_idle hstranded).2.2 hended

/-! ## Ways to the end -/

/-- INTERNAL: a step towards the end. -/
theorem canEnd_of_step {st st' : Connections} {a : Action} (hstep : Step st a st')
    (h : CanEnd st') : CanEnd st := by
  obtain ⟨last, hreach, hended⟩ := h
  exact ⟨last, hreach.head ⟨a, hstep⟩, hended⟩

/-- INTERNAL: several steps towards the end. -/
theorem canEnd_of_reaches {st st' : Connections} (hreach : ReflTransGen Next st st')
    (h : CanEnd st') : CanEnd st := by
  obtain ⟨last, hlast, hended⟩ := h
  exact ⟨last, hreach.trans hlast, hended⟩

/-- A task that has been spawned can finish, and nothing else changes.
SOURCE: lib.rs:31-41; connection.rs:252-261 -/
theorem task_finishes {st : Connections} {id : ℕ} (hspawned : st.tasks id ≠ .absent) :
    ReflTransGen Next st { st with tasks := Function.update st.tasks id .finished } := by
  have hreturning : ∀ u : Connections, u.tasks id = .returning →
      ReflTransGen Next u { u with tasks := Function.update u.tasks id .finished } :=
    fun u hu => .single ⟨_, .finish hu⟩
  cases hphase : st.tasks id with
  | absent => exact absurd hphase hspawned
  | serving =>
    have hdrop : Step st (.drop id)
        { st with tasks := Function.update st.tasks id .returning } := .drop hphase
    have hlast := hreturning { st with tasks := Function.update st.tasks id .returning }
      (Function.update_self ..)
    rw [Function.update_idem] at hlast
    exact hlast.head ⟨_, hdrop⟩
  | returning => exact hreturning st hphase
  | finished =>
    rw [← hphase, Function.update_eq_self]

/-- A manager that waits for tasks gets to its end, while the server does nothing.
SOURCE: connection_manager.rs:37-39 -/
theorem manager_ends {order : List ConnectionHandle} {st : Connections}
    (hmanager : st.manager = .closing order)
    (hspawned : ∀ handle ∈ order, st.tasks handle.taskHandle ≠ .absent) :
    ∃ st', ReflTransGen Next st st' ∧ st'.manager = .ended ∧ st'.server = st.server ∧
      st'.cancelled = st.cancelled ∧ st'.channel.closed = true := by
  induction order generalizing st with
  | nil => exact ⟨_, .single ⟨_, .returned hmanager⟩, rfl, rfl, rfl, rfl⟩
  | cons handle rest ih =>
    have hfinishes := task_finishes (hspawned handle List.mem_cons_self)
    generalize hnow : { st with
      tasks := Function.update st.tasks handle.taskHandle .finished } = now at hfinishes
    have hclosing : now.manager = .closing (handle :: rest) := by rw [← hnow]; exact hmanager
    have hfinished : now.tasks handle.taskHandle = .finished := by
      rw [← hnow]
      exact Function.update_self ..
    have hjoined : Step now .joined { now with manager := .closing rest } :=
      .joined hclosing hfinished
    obtain ⟨st', hreach, hended, hserver, hcancelled, hclosed⟩ :=
      @ih { now with manager := .closing rest } rfl (by
        intro other hmem
        rw [← hnow]
        exact update_ne_absent (hspawned other (List.mem_cons_of_mem _ hmem)) (by decide))
    refine ⟨st', hfinishes.trans (hreach.head ⟨_, hjoined⟩), hended, ?_, ?_, hclosed⟩
    · rw [hserver, ← hnow]
    · rw [hcancelled, ← hnow]

/-- After the cancellation a message ends the manager.
SOURCE: connection_manager.rs:20-24 -/
theorem manager_stops {st : Connections} {handles : ConnectionManager.Handles}
    {data : ConnectionData} {rest : List ConnectionData} (h : Managed st)
    (hmanager : st.manager = .receiving handles) (hqueue : st.channel.queued = data :: rest)
    (hcancelled : st.cancelled = true) :
    ∃ st', ReflTransGen Next st st' ∧ st'.manager = .ended ∧ st'.server = st.server ∧
      st'.cancelled = true ∧ st'.channel.closed = true := by
  have hstop := Step.stop hmanager hqueue hcancelled (List.Perm.refl (handles.map Prod.snd))
  obtain ⟨st', hreach, hended, hserver, hkept, hclosed⟩ := manager_ends rfl
    (managed_step h hstop).spawned
  exact ⟨st', hreach.head ⟨_, hstop⟩, hended, hserver, hkept.trans hcancelled, hclosed⟩

/-- INTERNAL: the server ends with the manager. -/
theorem canEnd_closing {st : Connections} (h : Managed st) (hserver : st.server = .closing)
    (hcancelled : st.cancelled = true) (hleft : ¬Stranded st) : CanEnd st := by
  have hjoin : ∀ u : Connections, u.manager = .ended → u.server = .closing → CanEnd u :=
    fun u hgone hclosing => ⟨_, .single ⟨_, .join hclosing hgone⟩, rfl⟩
  cases hmanager : st.manager with
  | receiving handles =>
    cases hqueue : st.channel.queued with
    | nil => exact absurd ⟨hcancelled, Or.inl hserver, ⟨handles, hmanager⟩, hqueue⟩ hleft
    | cons data rest =>
      obtain ⟨st', hreach, hended, hsame, -⟩ := manager_stops h hmanager hqueue hcancelled
      exact canEnd_of_reaches hreach (hjoin st' hended (hsame.trans hserver))
  | awaiting handle handles => exact absurd hmanager (h.known.2.never_awaits _ _)
  | closing order =>
    have hspawned := h.spawned
    rw [hmanager] at hspawned
    obtain ⟨st', hreach, hended, hsame, -⟩ := manager_ends hmanager hspawned
    exact canEnd_of_reaches hreach (hjoin st' hended (hsame.trans hserver))
  | ended => exact hjoin st hmanager hserver

/-- INTERNAL: an error of `accept` ends the server.
SOURCE: lib.rs:69 -/
theorem canEnd_accepting {st : Connections} {n : ℕ} (hserver : st.server = .accepting n) :
    CanEnd st :=
  ⟨_, .single ⟨_, .acceptError hserver⟩, rfl⟩

/-- INTERNAL: at the head of its loop the server leaves it or goes on.
SOURCE: lib.rs:68 -/
theorem canEnd_looping {st : Connections} {n : ℕ} (h : Managed st)
    (hserver : st.server = .looping n) (hleft : ¬Stranded st) : CanEnd st := by
  cases hcancelled : st.cancelled with
  | false => exact canEnd_of_step (.enter hserver hcancelled) (canEnd_accepting rfl)
  | true =>
    have hleave := Step.leave hserver hcancelled
    apply canEnd_of_step hleave
    apply canEnd_closing (managed_step h hleave) rfl hcancelled
    rintro ⟨-, -, hmanager, hqueue⟩
    exact hleft ⟨hcancelled, Or.inr ⟨n, hserver⟩, hmanager, hqueue⟩

/-- INTERNAL: a start signal that was sent leaves a message behind, or the manager is gone.
SOURCE: lib.rs:79-87 -/
theorem canEnd_sent {st : Connections} {n : ℕ} {channel : Channel} (h : Managed st)
    (hserver : st.server = .starting n)
    (hsent : (send (.startSignal ⟨⟨n⟩, n⟩)).poll st.channel = some channel) : CanEnd st := by
  have hstart := Step.start hserver hsent
  apply canEnd_of_step hstart
  have hmanaged := managed_step h hstart
  generalize hnext : Server.nextPhase n = phase at hstart hmanaged ⊢
  cases phase with
  | looping m =>
    refine canEnd_looping hmanaged rfl ?_
    rintro ⟨-, -, ⟨handles, hmanager⟩, hqueue⟩
    have hopen : st.channel.closed = false := h.known.2.listens handles (by
      rw [show st.manager = .receiving handles from hmanager]
      rfl)
    have hqueued := (poll_open hopen hsent).1
    rw [show channel.queued = [] from hqueue] at hqueued
    exact absurd hqueued.symm (List.append_ne_nil_of_right_ne_nil _ (List.cons_ne_nil _ _))
  | accepting m => exact canEnd_accepting rfl
  | starting m => exact absurd hnext (nextPhase_ne n m)
  | closing => exact absurd hnext (nextPhase_ne_closing n)
  | ended => exact ⟨_, .refl, rfl⟩

/-- INTERNAL: when the channel is full, the manager ends and the signal is lost.
SOURCE: lib.rs:79-86 -/
theorem canEnd_starting {st : Connections} {n : ℕ} (h : Managed st)
    (hserver : st.server = .starting n) : CanEnd st := by
  have hlost : ∀ u : Connections, ReflTransGen Next st u → u.server = .starting n →
      u.channel.closed = true → CanEnd st := by
    intro u hreach hstarting hclosed
    apply canEnd_of_reaches hreach
    apply canEnd_sent (managed_reaches h hreach) hstarting
    unfold SendFuture.poll
    rw [if_pos hclosed]
  cases hsent : (send (.startSignal ⟨⟨n⟩, n⟩)).poll st.channel with
  | some channel => exact canEnd_sent h hserver hsent
  | none =>
    cases hmanager : st.manager with
    | receiving handles =>
      cases hqueue : st.channel.queued with
      | nil =>
        unfold SendFuture.poll at hsent
        rw [hqueue] at hsent
        split_ifs at hsent with hclosed hroom
        exact absurd (by decide) hroom
      | cons data rest =>
        have hcancel : Step st .cancel { st with cancelled := true } := .cancel
        obtain ⟨st', hreach, -, hsame, -, hclosed⟩ := manager_stops
          (managed_step h hcancel) hmanager hqueue rfl
        exact hlost st' (hreach.head ⟨_, hcancel⟩) (hsame.trans hserver) hclosed
    | awaiting handle handles => exact absurd hmanager (h.known.2.never_awaits _ _)
    | closing order =>
      have hspawned := h.spawned
      rw [hmanager] at hspawned
      obtain ⟨st', hreach, -, hsame, -, hclosed⟩ := manager_ends hmanager hspawned
      exact hlost st' hreach (hsame.trans hserver) hclosed
    | ended => exact hlost st .refl hserver (h.gone hmanager)

/-- In every state that the server, its tasks and the manager can get to, the server can still end,
unless the manager waits for a message and the server has seen the cancellation or will see it
before it accepts another connection. Such a state is never left.
SOURCE: lib.rs:65-93; connection_manager.rs:20-40; connection.rs:252-261 -/
theorem server_can_end_iff {steps : List (Connections × Action)} {st : Connections}
    (hrun : Run Step Connections.new steps st) : CanEnd st ↔ ¬Stranded st := by
  have hmanaged := (hrun.invariant managed_new fun _ _ _ => managed_step).2
  constructor
  · exact fun hend hstranded => stranded_cannot_end hstranded hend
  · intro hleft
    cases hserver : st.server with
    | looping n => exact canEnd_looping hmanaged hserver hleft
    | accepting n => exact canEnd_accepting hserver
    | starting n => exact canEnd_starting hmanaged hserver
    | closing => exact canEnd_closing hmanaged hserver (hmanaged.left hserver) hleft
    | ended => exact ⟨st, .refl, hserver⟩

/-- The first connection is cancelled before the loop is left: the manager waits. -/
theorem server_can_end_iff_idle : ∃ steps st, Run Step Connections.new steps st ∧
    Stranded st ∧ ¬CanEnd st := by
  have hrun := Run.nil.snoc (@Step.cancel Connections.new)
  have hstranded : Stranded { Connections.new with cancelled := true } :=
    ⟨rfl, Or.inr ⟨0, rfl⟩, ⟨[], rfl⟩, rfl⟩
  exact ⟨_, _, hrun, hstranded, fun hend => (server_can_end_iff hrun).mp hend hstranded⟩

/-! ## What the manager waits for -/

/-- The task of a started connection has finished, or the manager has its handle. -/
def Attended (st : Connections) (id : ℕ) : Prop :=
  id ∈ st.started ∧ (st.tasks id = .finished ∨ ⟨id⟩ ∈ heldHandles st.manager)

/-- INTERNAL: every step keeps it.
SOURCE: lib.rs:65-93; connection_manager.rs:20-40 -/
theorem attended_step {st st' : Connections} {a : Action} {id : ℕ} (hmanaged : Managed st)
    (h : Attended st id) (hstep : Step st a st') : Attended st' id := by
  obtain ⟨hstarted, hheld⟩ := h
  cases hstep with
  | cancel => exact ⟨hstarted, hheld⟩
  | enter => exact ⟨hstarted, hheld⟩
  | leave => exact ⟨hstarted, hheld⟩
  | @accept n accepting =>
    have hlt := hmanaged.known.1.fresh n (by rw [accepting]; rfl) id hstarted
    refine ⟨hstarted, hheld.imp_left fun hfinished => ?_⟩
    show Function.update st.tasks n .serving id = .finished
    rwa [Function.update_of_ne (Nat.ne_of_lt hlt)]
  | acceptError => exact ⟨hstarted, hheld⟩
  | start => exact ⟨List.mem_append_left _ hstarted, hheld⟩
  | join => exact ⟨hstarted, hheld⟩
  | @drop n serving =>
    refine ⟨hstarted, hheld.imp_left fun hfinished => ?_⟩
    have hne : id ≠ n := by
      rintro rfl
      rw [serving] at hfinished
      cases hfinished
    show Function.update st.tasks n .returning id = .finished
    rwa [Function.update_of_ne hne]
  | @finish n returning =>
    refine ⟨hstarted, hheld.imp_left fun hfinished => ?_⟩
    show Function.update st.tasks n .finished id = .finished
    by_cases heq : id = n
    · rw [heq, Function.update_self]
    · rwa [Function.update_of_ne heq]
  | @receive handles data rest receiving next go =>
    obtain ⟨n, rfl⟩ := hmanaged.known.2.signals data (next ▸ List.mem_cons_self)
    rw [receiving] at hheld
    refine ⟨hstarted, hheld.imp_right fun hmem => ?_⟩
    obtain ⟨p, hp, hhandle⟩ := List.mem_map.mp hmem
    have hown := hmanaged.own handles receiving p hp
    rw [hhandle] at hown
    have hid : id = p.1 := congrArg ConnectionHandle.taskHandle hown
    apply List.mem_map.mpr
    by_cases heq : p.1 = n
    · exact ⟨(n, ⟨n⟩), mem_handles_insert.mpr (Or.inr rfl), by rw [hid, heq]⟩
    · exact ⟨p, mem_handles_insert.mpr (Or.inl ⟨hp, heq⟩), hhandle⟩
  | stop receiving next cancelled all =>
    rw [receiving] at hheld
    exact ⟨hstarted, hheld.imp_right all.mem_iff.mpr⟩
  | disconnect receiving none gone all =>
    rw [receiving] at hheld
    exact ⟨hstarted, hheld.imp_right all.mem_iff.mpr⟩
  | awaited awaiting => exact absurd awaiting (hmanaged.known.2.never_awaits _ _)
  | joined closing finished =>
    rw [closing] at hheld
    refine ⟨hstarted, ?_⟩
    obtain hfinished | hmem := hheld
    · exact Or.inl hfinished
    · obtain rfl | hmem := List.mem_cons.mp hmem
      · exact Or.inl finished
      · exact Or.inr hmem
  | returned closing =>
    rw [closing] at hheld
    exact ⟨hstarted, hheld⟩

/-- INTERNAL: the manager attends to a connection that it hears of.
SOURCE: connection_manager.rs:32-34 -/
theorem attended_heard {st st' : Connections} {id : ℕ} {rest : List ConnectionData}
    (hmanaged : Managed st) (hgo : st.cancelled = false)
    (hqueue : st.channel.queued = .startSignal ⟨⟨id⟩, id⟩ :: rest)
    (hstep : Step st .receive st') : Attended st' id := by
  cases hstep with
  | @receive handles data rest' receiving next go =>
    obtain ⟨rfl, rfl⟩ := List.cons.inj (hqueue.symm.trans next)
    refine ⟨?_, Or.inr ?_⟩
    · apply (hmanaged.known.2.registered handles (by rw [receiving]; rfl) id).mp
      exact Or.inr (hqueue ▸ List.mem_cons_self)
    · exact List.mem_map.mpr ⟨(id, ⟨id⟩), mem_handles_insert.mpr (Or.inr rfl), rfl⟩
  | stop receiving next cancelled all =>
    rw [hgo] at cancelled
    cases cancelled

/-- INTERNAL: the manager attends to all connections that it has heard of. -/
theorem attended_run {steps : List (Connections × Action)} {st : Connections}
    (hrun : Run Step Connections.new steps st) {id : ℕ} (hheard : Heard steps id) :
    Attended st id := by
  induction hrun with
  | nil =>
    obtain ⟨_, _, hmem, -, -⟩ := hheard
    cases hmem
  | @snoc steps st a st' before step ih =>
    have hmanaged := (before.invariant managed_new fun _ _ _ => managed_step).2
    obtain ⟨u, rest, hmem, hgo, hqueue⟩ := hheard
    obtain hmem | hmem := List.mem_append.mp hmem
    · exact attended_step hmanaged (ih ⟨u, rest, hmem, hgo, hqueue⟩) step
    · cases List.mem_singleton.mp hmem
      exact attended_heard hmanaged hgo hqueue step

/-- When the manager has ended, every connection of which it had received the start signal before
the cancellation has finished.
SOURCE: lib.rs:65-93; connection_manager.rs:20-40 -/
theorem manager_waits {steps : List (Connections × Action)} {st : Connections}
    (hrun : Run Step Connections.new steps st) (hended : st.manager = .ended) {id : ℕ}
    (hheard : Heard steps id) : st.tasks id = .finished := by
  obtain ⟨-, hfinished | hheld⟩ := attended_run hrun hheard
  · exact hfinished
  · rw [hended] at hheld
    cases hheld

/-- The second connection is started after the cancellation, and its signal only ends the loop of
the manager. -/
theorem manager_waits_first : ∃ steps st, Run Step Connections.new steps st ∧
    st.manager = .ended ∧ Heard steps 0 ∧ st.tasks 0 = .finished ∧
      1 ∈ st.started ∧ st.tasks 1 = .serving := by
  have henter := firstSteps_run.snoc (@Step.enter registered 1 rfl rfl)
  have haccept := henter.snoc (Step.accept rfl)
  have hcancel := haccept.snoc Step.cancel
  have hstart := hcancel.snoc (Step.start rfl rfl)
  have hstop := hstart.snoc (Step.stop rfl rfl rfl (List.Perm.refl _))
  have hdrop := hstop.snoc (@Step.drop _ 0 rfl)
  have hfinish := hdrop.snoc (@Step.finish _ 0 rfl)
  have hjoined := hfinish.snoc (Step.joined rfl rfl)
  have hreturned := hjoined.snoc (Step.returned rfl)
  refine ⟨_, _, hreturned, rfl, ?_, manager_waits hreturned rfl ?_, by decide, rfl⟩
  all_goals exact ⟨signalled, [], by simp [firstSteps], rfl, rfl⟩

end Rkvs.Analysis
