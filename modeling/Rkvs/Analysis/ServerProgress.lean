import Mathlib.Data.Fintype.EquivFin
import Rkvs.Analysis.RunningProgress
import Rkvs.Analysis.RunningServer

/-!
# Every client is served

A connection that reads can go on with what its bytes begin with, and one that waits for the engine
gets an answer as soon as the operation has come to its end, which it does. Each request takes bytes of
the client, so with no further connections all of them are served at some time.
-/

set_option autoImplicit false

namespace Rkvs.Analysis

open Rkvs.Library Rkvs.Model Rkvs.Interface History

section
variable {Uuid : Type} {uuid : UuidCrate Uuid} {crc : Bytes → UInt32} {st st' : RunningServer}

/-! ## What is left to do -/

/-- What a connection still does, with the work that its requests make for the engine. -/
def connectionWeight (p : ConnectionPhase × Connection Unit) : ℕ :=
  match p.1 with
  | .absent => 0
  | .reading => 15 + 20 * p.2.unread.length
  | .waiting _ => 2 + 20 * p.2.unread.length
  | .closing => 1
  | .closed => 0

/-- The connections with their phases. -/
def tasksOf (st : RunningServer) (k : ℕ) : ConnectionPhase × Connection Unit :=
  (st.phases k, st.connections k)

/-- The connections that have been accepted are among these. -/
def Accepted (ks : List ℕ) (st : RunningServer) : Prop :=
  ks.Nodup ∧ ∀ k, (tasksOf st k).1 ≠ .absent → k ∈ ks

/-- How much work is left for the engine and the connections. -/
def ServerRank (ks : List ℕ) (n : ℕ) (st : RunningServer) : Prop :=
  Accepted ks st ∧ ∃ ids, Among ids st.engine ∧
    workLeft ids st.engine + total connectionWeight (tasksOf st) ks = n

/-- INTERNAL: a round leaves less for a connection to do.
SOURCE: connection.rs:218-247 -/
theorem round_weight {store : Model.Store Unit} {wake : Wake} {status : KeepAliveStatus}
    {c c' : Connection Unit}
    (h : (Connection.round uuid store wake).run c = .ok status c') :
    connectionWeight (.after status, c') < 2 + 20 * c.unread.length := by
  cases status with
  | closeNotify => exact show 1 < _ by omega
  | closeSilent => exact show 0 < _ by omega
  | keepAlive =>
    by_cases hwake : wake = .ready
    swap
    · rw [round_close hwake] at h
      cases h
    subst hwake
    by_cases hends : (requestFraming uuid).Ends c.unread
    · obtain ⟨unread, hsilent | ⟨-, hpanic⟩⟩ := @round_ends Uuid Unit uuid store c hends
      · rw [hsilent] at h
        cases h
      · rw [hpanic] at h
        cases h
    · obtain ⟨received, n, hscan⟩ := Framing.exists_item hends
      obtain ⟨status, written, events, hsend, -⟩ := @sendReply_returns Uuid Unit uuid
        (reply store c.store received).1
        { c with unread := c.unread.drop n, store := (reply store c.store received).2 }
      rw [round_item hscan, hsend] at h
      cases h
      obtain ⟨front, left, hunread, hlength, hfour, -⟩ := scanRequest_front hscan
      show 15 + 20 * (c.unread.drop n).length < _
      rw [hunread, List.drop_left' hlength, List.length_append]
      omega

/-- INTERNAL: a connection changes. -/
theorem tasksOf_went (st : RunningServer) (k : ℕ) (c : Connection Unit) (phase : ConnectionPhase) :
    tasksOf (st.went k c phase) = Function.update (tasksOf st) k (phase, c) := by
  funext j
  show (Function.update st.phases k phase j, Function.update st.connections k c j) = _
  by_cases heq : j = k
  · rw [heq, Function.update_self, Function.update_self, Function.update_self]
  · rw [Function.update_of_ne heq, Function.update_of_ne heq, Function.update_of_ne heq]
    rfl

/-- INTERNAL: only its phase changes. -/
theorem tasksOf_phase (st : RunningServer) (engine : RunningEngine) (k : ℕ)
    (phase : ConnectionPhase) :
    tasksOf { st with engine := engine, phases := Function.update st.phases k phase } =
      Function.update (tasksOf st) k (phase, st.connections k) := by
  have hwent := tasksOf_went st k (st.connections k) phase
  unfold RunningServer.went at hwent
  rw [Function.update_eq_self] at hwent
  exact hwent

section
variable {ks : List ℕ} {n k : ℕ}

/-- INTERNAL: a step of an accepted connection, and maybe of the engine. -/
theorem ServerRank.connection (h : ServerRank ks n st) {task : ConnectionPhase × Connection Unit}
    (htasks : tasksOf st' = Function.update (tasksOf st) k task) (hbegun : st.phases k ≠ .absent)
    {more : ℕ} (hengine : ∀ ids, Among ids st.engine →
      ∃ ids', Among ids' st'.engine ∧ workLeft ids' st'.engine = workLeft ids st.engine + more)
    (hless : more + connectionWeight task < connectionWeight (tasksOf st k)) :
    ∃ m < n, ServerRank ks m st' := by
  obtain ⟨⟨hnodup, hall⟩, ids, hids, rfl⟩ := h
  have hmem := hall k hbegun
  obtain ⟨ids', hids', hwork⟩ := hengine ids hids
  have htotal := @total_update _ (tasksOf st) ks k task connectionWeight hnodup hmem
  refine ⟨_, ?_, ⟨hnodup, fun j hj => ?_⟩, ids', hids', rfl⟩
  · rw [htasks, hwork]
    omega
  · by_cases heq : j = k
    · rw [heq]
      exact hmem
    · rw [htasks, Function.update_of_ne heq] at hj
      exact hall j hj

/-- Every step on the way to answers leaves less to do.
SOURCE: storage_engine.rs:75-121, 152-212; connection.rs:104-248 -/
theorem ServerRank.lower {a : RunningServer.Action} (h : ServerRank ks n st) (hserves : a.Serves)
    (hstep : RunningServer.Step crc uuid st a st') : ∃ m < n, ServerRank ks m st' := by
  have hsame : ∀ ids, Among ids st.engine →
      ∃ ids', Among ids' st.engine ∧ workLeft ids' st.engine = workLeft ids st.engine + 0 :=
    fun ids hids => ⟨ids, hids, rfl⟩
  cases hstep with
  | engine step inside =>
    obtain ⟨haccepted, ids, hids, rfl⟩ := h
    obtain ⟨hids', hless⟩ := hids.step hserves step
    exact ⟨_, Nat.add_lt_add_right hless _, haccepted, ids, hids', rfl⟩
  | accept absent => exact absurd hserves fun hp => hp
  | @ask k id n asked engine reading received sent =>
    have hmore : ∀ ids, Among ids st.engine →
        ∃ ids', Among ids' engine ∧ workLeft ids' engine = workLeft ids st.engine + 12 := by
      intro ids hids
      cases sent with
      | invoke fresh opened =>
        refine @Among.invoke _ _ id ids hids (commandOf asked.operation) fresh ?_ ?_ ?_
        all_goals rfl
    refine h.connection (tasksOf_phase ..) (by rw [reading]; nofun) hmore ?_
    unfold tasksOf
    rw [reading]
    show 12 + (2 + 20 * (st.connections k).unread.length) < 15 + 20 * (st.connections k).unread.length
    omega
  | answer waiting returned went =>
    refine h.connection (tasksOf_went ..) (by rw [waiting]; nofun) hsame ?_
    have hless := round_weight went
    unfold tasksOf
    rw [waiting]
    exact (Nat.zero_add _).symm ▸ hless
  | round reading unasked went =>
    refine h.connection (tasksOf_went ..) (by rw [reading]; nofun) hsame ?_
    have hless := round_weight went
    unfold tasksOf
    rw [reading]
    exact (Nat.zero_add _).symm ▸ hless.trans (Nat.add_lt_add_right (by decide) _)
  | notify closing went =>
    refine h.connection (tasksOf_went ..) (by rw [closing]; nofun) hsame ?_
    unfold tasksOf
    rw [closing]
    exact Nat.zero_lt_one
  | panic reading went =>
    refine h.connection (tasksOf_went ..) (by rw [reading]; nofun) hsame ?_
    unfold tasksOf
    rw [reading]
    show 0 + 0 < 15 + 20 * _
    omega

end

/-- INTERNAL: finitely many connections have been accepted. -/
theorem Accepted.task {ks : List ℕ} (h : Accepted ks st) {k : ℕ}
    {task : ConnectionPhase × Connection Unit}
    (htasks : tasksOf st' = Function.update (tasksOf st) k task) : ∃ ks', Accepted ks' st' := by
  have hothers : ∀ j, j ≠ k → (tasksOf st' j).1 ≠ .absent → j ∈ ks := by
    intro j hne hj
    rw [htasks, Function.update_of_ne hne] at hj
    exact h.2 j hj
  by_cases hold : k ∈ ks
  · refine ⟨ks, h.1, fun j hj => ?_⟩
    by_cases heq : j = k
    · rwa [heq]
    · exact hothers j heq hj
  · refine ⟨k :: ks, List.nodup_cons.mpr ⟨hold, h.1⟩, fun j hj => ?_⟩
    by_cases heq : j = k
    · rw [heq]
      exact List.mem_cons_self
    · exact List.mem_cons_of_mem _ (hothers j heq hj)

/-- Operations that have returned have been answered. -/
def AllAnswered (en : RunningEngine) : Prop :=
  ∀ id, en.operations id = .returned → Responded en.history id

/-- INTERNAL: an operation goes on. -/
theorem AllAnswered.moved {en en' : RunningEngine} (h : AllAnswered en) {id : ℕ}
    {phase : OperationPhase} (hoperations : en'.operations = Function.update en.operations id phase)
    (hphase : phase ≠ .returned) (hhistory : ∀ e ∈ en.history, e ∈ en'.history) : AllAnswered en' := by
  intro other hother
  rw [hoperations] at hother
  by_cases heq : other = id
  · rw [heq, Function.update_self] at hother
    exact absurd hother hphase
  · rw [Function.update_of_ne heq] at hother
    obtain ⟨value, hmem⟩ := h other hother
    exact ⟨value, hhistory _ hmem⟩

variable {s : SegmentSize} {base : List SsTableEntry} {clients : ℕ → Connection Unit}

/-- INTERNAL: there is always a number for one more operation. -/
theorem Among.fresh {ids : List ℕ} {en : RunningEngine} (h : Among ids en) :
    ∃ id, en.operations id = .absent := by
  obtain ⟨id, hid⟩ := Infinite.exists_notMem_finset ids.toFinset
  refine ⟨id, ?_⟩
  by_contra hne
  exact hid (List.mem_toFinset.mpr (h.2 id hne))

end

end Rkvs.Analysis
