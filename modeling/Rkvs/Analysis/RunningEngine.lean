import Rkvs.Analysis.RunningStore

/-!
# The running engine is linearizable

A write takes effect when it is inserted into the memtable. A lookup takes effect at an instant since
it began at which its answer was the last insert; a lookup that asks the levels has one, whatever is
flushed and compacted in the meantime. So the order of the inserts, with each lookup at its instant,
explains the answers that the clients get.
-/

set_option autoImplicit false

namespace Rkvs.Analysis

open Rkvs.Library Rkvs.Model Rkvs.Interface Rkvs.Interface.RunningEngine History

/-! ## Inserts as updates of a map -/

/-- The map that inserts have left. -/
def mapOf (inserts : List SsTableEntry) (key : String) : Option String :=
  Engine.valueAt inserts inserts.length key

/-- What a write puts under its key. -/
def writtenBy (x : Operation Command (Option String)) : String × Option String :=
  (Command.key x.op, (commandValue x.op).2)

/-- INTERNAL: an insert is an update. -/
theorem next_mapOf {inserts : List SsTableEntry} {command : Command} {e : SsTableEntry}
    (hwrite : Command.job command ≠ none)
    (hentry : (Command.key command, (commandValue command).2) = (e.key, e.value)) :
    keyValues.next (mapOf inserts) command = mapOf (inserts ++ [e]) := by
  have hmap : mapOf (inserts ++ [e]) = Function.update (mapOf inserts) e.key e.value := by
    funext key
    unfold mapOf Engine.valueAt lastTo
    rw [List.take_length, List.take_length, List.reverse_append, List.reverse_singleton,
      List.singleton_append]
    by_cases hkey : key = e.key
    · rw [hkey, Function.update_self, List.find?_cons_of_pos (by simp)]
      rfl
    · rw [Function.update_of_ne hkey, List.find?_cons_of_neg (by simpa using Ne.symm hkey)]
  obtain ⟨hkey, hvalue⟩ := Prod.mk.inj hentry
  rw [hmap, ← hkey, ← hvalue]
  cases command with
  | get key => exact absurd rfl hwrite
  | delete key => rfl
  | put key value => rfl

/-- The updates lead to the map that the inserts leave. -/
theorem after_mapOf {base news : List SsTableEntry}
    {updates : List (Operation Command (Option String))}
    (hwrites : ∀ u ∈ updates, Command.job u.op ≠ none)
    (hwritten : updates.map writtenBy = news.map fun e => (e.key, e.value)) :
    keyValues.after (mapOf base) updates = mapOf (base ++ news) := by
  induction updates generalizing base news with
  | nil =>
    rw [List.map_nil, eq_comm, List.map_eq_nil_iff] at hwritten
    rw [hwritten, List.append_nil]
    rfl
  | cons u updates ih =>
    cases news with
    | nil => cases hwritten
    | cons e news =>
      obtain ⟨hhead, htail⟩ := List.cons.inj hwritten
      have hnext := @next_mapOf base _ _ (hwrites u List.mem_cons_self) hhead
      have hrest := @ih (base ++ [e]) news (fun v hv => hwrites v (List.mem_cons_of_mem _ hv)) htail
      rw [List.append_assoc, List.singleton_append] at hrest
      rw [← hrest, ← hnext]
      rfl

/-- INTERNAL: after some of the updates. -/
theorem after_take {base news : List SsTableEntry}
    {updates : List (Operation Command (Option String))}
    (hwrites : ∀ u ∈ updates, Command.job u.op ≠ none)
    (hwritten : updates.map writtenBy = news.map fun e => (e.key, e.value)) (k : ℕ) (key : String) :
    keyValues.after (mapOf base) (updates.take k) key =
      Engine.valueAt (base ++ news) (base.length + k) key := by
  have hlength : updates.length = news.length := by
    rw [← List.length_map writtenBy, hwritten, List.length_map]
  have htake : (updates.take k).map writtenBy = (news.take k).map fun e => (e.key, e.value) := by
    rw [List.map_take, List.map_take, hwritten]
  rw [after_mapOf (fun u hu => hwrites u (List.mem_of_mem_take hu)) htake]
  unfold mapOf Engine.valueAt
  rw [List.take_length, List.take_length_add_append]

/-! ## Operations under way -/

/-- What has happened until a state: the inserts at the start and those since, the inserts before
each lookup in the levels, and the instants. -/
structure Trace where
  base : List SsTableEntry
  news : List SsTableEntry
  asked : ℕ → ℕ
  since : ℕ → ℕ
  upTo : ℕ → ℕ
  updates : List (Operation Command (Option String))
  queries : List (ℕ × Operation Command (Option String))

namespace Trace

def inserts (t : Trace) : List SsTableEntry := t.base ++ t.news

/-- A write is inserted. -/
def insert (t : Trace) (entry : WalEntry) (x : Operation Command (Option String)) : Trace :=
  { t with
    news := t.news ++ [SsTableEntry.fromValue entry.key ⟨entry.value, entry.sequenceNumber⟩]
    updates := t.updates ++ [x] }

/-- INTERNAL: the inserts go on. -/
theorem inserts_insert (t : Trace) (entry : WalEntry) (x : Operation Command (Option String)) :
    (t.insert entry x).inserts =
      t.inserts ++ [SsTableEntry.fromValue entry.key ⟨entry.value, entry.sequenceNumber⟩] :=
  (List.append_assoc ..).symm

/-- An operation that has taken effect as a write. -/
def Written (t : Trace) (id : ℕ) : Prop := id ∈ t.updates.map Operation.id

/-- The map after the first `k` updates. -/
def mapAt (t : Trace) (k : ℕ) : String → Option String :=
  keyValues.after (mapOf t.base) (t.updates.take k)

end Trace

/-- A command that a client waits for. -/
structure Awaited (t : Trace) (st : RunningEngine) (id : ℕ) (command : Command) : Prop where
  invoked : .invoke id command ∈ st.history
  unanswered : ¬Responded st.history id
  since : t.since id ≤ t.updates.length

/-- What holds of an operation in each of its phases. -/
def PhaseSound (t : Trace) (st : RunningEngine) (id : ℕ) : OperationPhase → Prop
  | .absent => ¬Invoked st.history id
  | .queued command => Awaited t st id command ∧ ¬t.Written id
  | .running command => Awaited t st id command ∧ ¬t.Written id
  | .asking key => Awaited t st id (.get key) ∧ ¬t.Written id ∧
      t.base.length + t.since id ≤ t.asked id
  | .forwarded command => Awaited t st id command ∧ (t.Written id → st.writer = .gone)
  | .answered command value => Awaited t st id command ∧ (⟨id, command, value⟩ ∈ t.updates ∨
      ¬t.Written id ∧ ∃ key k, command = .get key ∧ t.since id ≤ k ∧ k ≤ t.updates.length ∧
        value = t.mapAt k key)
  | .returned => True
  | .failed => True

/-- The writer thread inserts what a client waits for. -/
def Inserting (st : RunningEngine) (id : ℕ) (entry : WalEntry) : Prop :=
  ∃ command, st.operations id = .forwarded command ∧ Command.job command ≠ none ∧
    (Command.key command, (commandValue command).2) = (entry.key, entry.value)

/-- What holds of the operations in every state. -/
structure Traced (t : Trace) (st : RunningEngine) : Prop where
  instants : Instants keyValues (mapOf t.base) st.history t.since t.upTo t.updates t.queries
  writes : ∀ u ∈ t.updates, Command.job u.op ≠ none
  written : t.updates.map writtenBy = t.news.map fun e => (e.key, e.value)
  phases : ∀ id, PhaseSound t st id (st.operations id)
  inserting : ∀ id entry, st.writer = .inserting id entry → Inserting st id entry
  short : ∀ id command, .invoke id command ∈ st.history → Command.Short command

section
variable {t t' : Trace} {st st' : RunningEngine} {id : ℕ}

/-- INTERNAL: there are as many updates as inserts. -/
theorem Traced.length_updates (h : Traced t st) : t.updates.length = t.news.length := by
  rw [← List.length_map writtenBy, h.written, List.length_map]

/-- INTERNAL: what a step leaves of an operation that does not take part in it. -/
structure Apart (t t' : Trace) (st st' : RunningEngine) (id : ℕ) : Prop where
  invoked : Invoked st'.history id → Invoked st.history id
  history : ∀ e ∈ st.history, e ∈ st'.history
  responded : Responded st'.history id → Responded st.history id
  base : t'.base = t.base
  since : t'.since id = t.since id
  asked : t'.asked id = t.asked id
  updates : ∃ more, t'.updates = t.updates ++ more ∧ id ∉ more.map Operation.id
  gone : st.writer = .gone → st'.writer = .gone

/-- INTERNAL: its phase is sound as before. -/
theorem PhaseSound.apart {phase : OperationPhase} (h : PhaseSound t st id phase)
    (hapart : Apart t t' st st' id) : PhaseSound t' st' id phase := by
  obtain ⟨more, hupdates, hmore⟩ := hapart.updates
  have hwritten : t'.Written id → t.Written id := by
    intro hmem
    unfold Trace.Written at hmem ⊢
    rw [hupdates, List.map_append] at hmem
    exact (List.mem_append.mp hmem).resolve_right hmore
  have hlength : t.updates.length ≤ t'.updates.length := by
    rw [hupdates, List.length_append]
    exact Nat.le_add_right _ _
  have hmap : ∀ k, k ≤ t.updates.length → t'.mapAt k = t.mapAt k := by
    intro k hk
    unfold Trace.mapAt
    rw [hapart.base, hupdates, List.take_append_of_le_length hk]
  have hawaited : ∀ {command}, Awaited t st id command → Awaited t' st' id command := by
    intro command hcommand
    refine ⟨hapart.history _ hcommand.invoked, fun hres => ?_, ?_⟩
    · exact hcommand.unanswered (hapart.responded hres)
    · rw [hapart.since]
      exact hcommand.since.trans hlength
  cases phase with
  | absent => exact fun hinvoked => h (hapart.invoked hinvoked)
  | queued command => exact ⟨hawaited h.1, fun hmem => h.2 (hwritten hmem)⟩
  | running command => exact ⟨hawaited h.1, fun hmem => h.2 (hwritten hmem)⟩
  | asking key =>
    obtain ⟨hcommand, hnew, hasked⟩ := h
    refine ⟨hawaited hcommand, fun hmem => hnew (hwritten hmem), ?_⟩
    rw [hapart.base, hapart.since, hapart.asked]
    exact hasked
  | forwarded command =>
    exact ⟨hawaited h.1, fun hmem => hapart.gone (h.2 (hwritten hmem))⟩
  | answered command value =>
    obtain ⟨hcommand, hmem | ⟨hnew, key, k, hget, hsince, hk, hvalue⟩⟩ := h
    · refine ⟨hawaited hcommand, Or.inl ?_⟩
      rw [hupdates]
      exact List.mem_append_left _ hmem
    · refine ⟨hawaited hcommand, Or.inr ⟨fun hmem => hnew (hwritten hmem), key, k, hget, ?_,
        hk.trans hlength, ?_⟩⟩
      · rw [hapart.since]
        exact hsince
      · rw [hmap k hk]
        exact hvalue
  | returned => trivial
  | failed => trivial

/-- INTERNAL: steps that no operation takes part in. -/
theorem Traced.aside (h : Traced t st) (hoperations : st'.operations = st.operations)
    (hhistory : st'.history = st.history) (hgone : st.writer = .gone → st'.writer = .gone)
    (hinserting : ∀ id entry, st'.writer = .inserting id entry → Inserting st id entry) :
    Traced t st' := by
  refine ⟨hhistory ▸ h.instants, h.writes, h.written, fun id => ?_, fun id entry hwriter => ?_,
    hhistory ▸ h.short⟩
  · rw [hoperations]
    exact (h.phases id).apart ⟨fun hi => hhistory ▸ hi, fun e he => hhistory ▸ he,
      fun hres => hhistory ▸ hres, rfl, rfl, rfl, ⟨[], (List.append_nil _).symm, List.not_mem_nil⟩,
      hgone⟩
  · unfold Inserting
    rw [hoperations]
    exact hinserting id entry hwriter

/-- INTERNAL: steps in which one operation gets to another phase. -/
theorem Traced.moved (h : Traced t st) {phase : OperationPhase}
    (hoperations : st'.operations = Function.update st.operations id phase)
    (hhistory : st'.history = st.history) (hwriter : st'.writer = st.writer)
    (hidle : ∀ entry, st.writer ≠ .inserting id entry) (hphase : PhaseSound t st id phase) :
    Traced t st' := by
  have hapart : ∀ other, Apart t t st st' other := fun other =>
    ⟨fun hi => hhistory ▸ hi, fun e he => hhistory ▸ he, fun hres => hhistory ▸ hres, rfl, rfl, rfl,
      ⟨[], (List.append_nil _).symm, List.not_mem_nil⟩, fun hgone => hwriter.trans hgone⟩
  refine ⟨hhistory ▸ h.instants, h.writes, h.written, fun other => ?_,
    fun other entry hother => ?_, hhistory ▸ h.short⟩
  · rw [hoperations]
    by_cases heq : other = id
    · rw [heq, Function.update_self]
      exact hphase.apart (hapart id)
    · rw [Function.update_of_ne heq]
      exact (h.phases other).apart (hapart other)
  · rw [hwriter] at hother
    have hne : other ≠ id := fun heq => hidle entry (heq ▸ hother)
    unfold Inserting
    rw [hoperations, Function.update_of_ne hne]
    exact h.inserting other entry hother

/-- INTERNAL: a value that the inserts had at an instant is one of the map. -/
theorem Traced.mapAt_eq (h : Traced t st) (k : ℕ) (key : String) :
    t.mapAt k key = Engine.valueAt t.inserts (t.base.length + k) key :=
  after_take h.writes h.written k key

/-- INTERNAL: a client invokes an operation. -/
theorem Traced.invoke (h : Traced t st) {command : Command} (hfresh : st.operations id = .absent)
    (hshort : Command.Short command)
    (hoperations : st'.operations = Function.update st.operations id (.queued command))
    (hhistory : st'.history = st.history ++ [.invoke id command])
    (hwriter : st'.writer = st.writer) :
    Traced { t with since := Function.update t.since id t.updates.length } st' := by
  have habsent : ¬Invoked st.history id := by
    have hphase := h.phases id
    rw [hfresh] at hphase
    exact hphase
  obtain ⟨hsilent, hnew⟩ := h.instants.fresh habsent
  have hinvoked : .invoke id command ∈ st'.history :=
    hhistory ▸ List.mem_append_right _ (List.mem_singleton_self _)
  refine ⟨?_, h.writes, h.written, fun other => ?_, fun other entry hother => ?_,
    fun other c hmem => ?_⟩
  · rw [hhistory]
    exact h.instants.invoke command habsent
  · rw [hoperations]
    by_cases heq : other = id
    · rw [heq, Function.update_self]
      refine ⟨⟨hinvoked, fun hres => ?_, ?_⟩, hnew⟩
      · rw [hhistory] at hres
        exact hsilent (responded_snoc_invoke.mp hres)
      · dsimp only
        rw [Function.update_self]
    · rw [Function.update_of_ne heq]
      refine (h.phases other).apart ⟨fun hi => ?_, fun e he => ?_, fun hres => ?_, rfl, ?_, rfl,
        ⟨[], (List.append_nil _).symm, List.not_mem_nil⟩, fun hgone => hwriter.trans hgone⟩
      · obtain ⟨op, hop⟩ := hi
        rw [hhistory] at hop
        obtain hop | hop := List.mem_append.mp hop
        · exact ⟨op, hop⟩
        · cases List.mem_singleton.mp hop
          exact absurd rfl heq
      · rw [hhistory]
        exact List.mem_append_left _ he
      · rw [hhistory] at hres
        exact responded_snoc_invoke.mp hres
      · exact Function.update_of_ne heq _ _
  · rw [hwriter] at hother
    obtain ⟨c, hforwarded, hrest⟩ := h.inserting other entry hother
    have hne : other ≠ id := by
      intro heq
      rw [heq, hfresh] at hforwarded
      cases hforwarded
    refine ⟨c, ?_, hrest⟩
    rw [hoperations, Function.update_of_ne hne]
    exact hforwarded
  · rw [hhistory] at hmem
    obtain hmem | hmem := List.mem_append.mp hmem
    · exact h.short other c hmem
    · cases List.mem_singleton.mp hmem
      exact hshort

/-- INTERNAL: the instants of an operation that returns its answer. -/
theorem Traced.answer (h : Traced t st) {command : Command} {value : Option String}
    (hanswered : st.operations id = .answered command value) :
    ∃ queries, Instants keyValues (mapOf t.base) (st.history ++ [.respond id value]) t.since
      (Function.update t.upTo id t.updates.length) t.updates queries := by
  have hphase := h.phases id
  rw [hanswered] at hphase
  obtain ⟨hcommand, hmem | ⟨hnew, key, k, rfl, hsince, hk, hvalue⟩⟩ := hphase
  · exact ⟨_, @Instants.respond_update _ _ _ _ _ _ _ _ _ _ ⟨id, command, value⟩ h.instants hmem
      hcommand.unanswered⟩
  · exact ⟨_, @Instants.respond_query _ _ _ _ _ _ _ _ _ _ ⟨id, Command.get key, value⟩ h.instants k
      hcommand.invoked hcommand.unanswered hnew hsince hk hvalue rfl⟩

/-- INTERNAL: an operation returns its answer to the client. -/
theorem Traced.respond (h : Traced t st) {command : Command} {value : Option String}
    (hanswered : st.operations id = .answered command value)
    (hoperations : st'.operations = Function.update st.operations id .returned)
    (hhistory : st'.history = st.history ++ [.respond id value])
    (hwriter : st'.writer = st.writer) :
    ∃ queries, Traced { t with
      upTo := Function.update t.upTo id t.updates.length
      queries := queries } st' := by
  obtain ⟨queries, hinstants⟩ := h.answer hanswered
  refine ⟨queries, ?_, h.writes, h.written, fun other => ?_, fun other entry hother => ?_,
    fun other c hmem => ?_⟩
  · rw [hhistory]
    exact hinstants
  · rw [hoperations]
    by_cases heq : other = id
    · rw [heq, Function.update_self]
      trivial
    · rw [Function.update_of_ne heq]
      refine (h.phases other).apart ⟨fun hi => ?_, fun e he => ?_, fun hres => ?_, rfl, rfl, rfl,
        ⟨[], (List.append_nil _).symm, List.not_mem_nil⟩, fun hgone => hwriter.trans hgone⟩
      · obtain ⟨op, hop⟩ := hi
        rw [hhistory] at hop
        obtain hop | hop := List.mem_append.mp hop
        · exact ⟨op, hop⟩
        · cases List.mem_singleton.mp hop
      · rw [hhistory]
        exact List.mem_append_left _ he
      · rw [hhistory] at hres
        exact (responded_snoc_respond.mp hres).resolve_right heq
  · rw [hwriter] at hother
    obtain ⟨c, hforwarded, hrest⟩ := h.inserting other entry hother
    have hne : other ≠ id := by
      intro heq
      rw [heq, hanswered] at hforwarded
      cases hforwarded
    refine ⟨c, ?_, hrest⟩
    rw [hoperations, Function.update_of_ne hne]
    exact hforwarded
  · rw [hhistory] at hmem
    obtain hmem | hmem := List.mem_append.mp hmem
    · exact h.short other c hmem
    · cases List.mem_singleton.mp hmem

/-- INTERNAL: a write takes effect. -/
theorem Traced.insert (h : Traced t st) {command : Command} {entry : WalEntry}
    {value : Option String} (hinserting : st.writer = .inserting id entry)
    (hforwarded : st.operations id = .forwarded command)
    (hhistory : st'.history = st.history)
    (hnext : st'.operations = Function.update st.operations id (.answered command value) ∧
        st'.writer = .receiving ∨ st'.operations = st.operations ∧ st'.writer = .gone) :
    Traced (t.insert entry ⟨id, command, value⟩) st' := by
  have hphase := h.phases id
  rw [hforwarded] at hphase
  obtain ⟨⟨hinvoked, hunanswered, hsince⟩, hgone⟩ := hphase
  obtain ⟨c, hsame, hwrite, hentry⟩ := h.inserting id entry hinserting
  cases hforwarded.symm.trans hsame
  have hnew : ¬t.Written id := by
    intro hmem
    have hwriter := hgone hmem
    rw [hinserting] at hwriter
    cases hwriter
  have hallows : keyValues.allows (keyValues.after (mapOf t.base) t.updates) command value := by
    cases command with
    | get key => exact absurd rfl hwrite
    | delete key => trivial
    | put key v => trivial
  have hinstants := @Instants.take_effect _ _ _ _ _ _ _ _ _ _ h.instants ⟨id, command, value⟩
    hinvoked hunanswered hnew hsince hallows
  have hother : ∀ other, other ≠ id →
      PhaseSound (t.insert entry ⟨id, command, value⟩) st' other (st.operations other) := by
    intro other hne
    refine (h.phases other).apart ⟨fun hi => hhistory ▸ hi, fun e he => hhistory ▸ he,
      fun hres => hhistory ▸ hres, rfl, rfl, rfl, ⟨_, rfl, fun hmem => ?_⟩, fun hgone => ?_⟩
    · exact hne (List.mem_singleton.mp hmem)
    · rw [hinserting] at hgone
      cases hgone
  have hawaited : Awaited (t.insert entry ⟨id, command, value⟩) st' id command := by
    refine ⟨hhistory ▸ hinvoked, hhistory ▸ hunanswered, ?_⟩
    dsimp only [Trace.insert]
    rw [List.length_append]
    exact Nat.le_add_right_of_le hsince
  refine ⟨?_, fun u hu => ?_, ?_, fun other => ?_, fun other e hwriter => ?_, ?_⟩
  · rw [hhistory]
    exact hinstants
  · obtain hu | hu := List.mem_append.mp hu
    · exact h.writes u hu
    · rw [List.mem_singleton.mp hu]
      exact hwrite
  · dsimp only [Trace.insert]
    rw [List.map_append, List.map_append, h.written]
    exact congrArg _ (congrArg (fun p => [p]) hentry)
  · obtain ⟨hoperations, -⟩ | ⟨hoperations, hwriter⟩ := hnext
    · rw [hoperations]
      by_cases heq : other = id
      · rw [heq, Function.update_self]
        exact ⟨hawaited, Or.inl (List.mem_append_right _ (List.mem_singleton_self _))⟩
      · rw [Function.update_of_ne heq]
        exact hother other heq
    · rw [hoperations]
      by_cases heq : other = id
      · rw [heq, hforwarded]
        exact ⟨hawaited, fun _ => hwriter⟩
      · exact hother other heq
  · obtain ⟨-, hnot⟩ | ⟨-, hnot⟩ := hnext
    · rw [hnot] at hwriter
      cases hwriter
    · rw [hnot] at hwriter
      cases hwriter
  · rw [hhistory]
    exact h.short

/-- INTERNAL: a lookup begins to ask the levels. -/
theorem Traced.ask (h : Traced t st) {command : Command}
    (hrunning : st.operations id = .running command) (n : ℕ) :
    Traced { t with asked := Function.update t.asked id n } st := by
  refine ⟨h.instants, h.writes, h.written, fun other => ?_, h.inserting, h.short⟩
  by_cases heq : other = id
  · have hphase := h.phases id
    rw [heq]
    rw [hrunning] at hphase ⊢
    obtain ⟨⟨hinvoked, hunanswered, hsince⟩, hnew⟩ := hphase
    exact ⟨⟨hinvoked, hunanswered, hsince⟩, hnew⟩
  · exact (h.phases other).apart ⟨fun hi => hi, fun _ he => he, fun hres => hres, rfl, rfl,
      Function.update_of_ne heq _ _, ⟨[], (List.append_nil _).symm, List.not_mem_nil⟩,
      fun hgone => hgone⟩

/-! ## Every run -/

/-- INTERNAL: what holds in every state. -/
def RunningSound (crc : Bytes → UInt32) (s : SegmentSize) (base : List SsTableEntry) (st : RunningEngine) : Prop :=
  ∃ t flushed, t.base = base ∧ StoreSound crc s st t.inserts t.asked flushed ∧ Traced t st

end

section
variable {crc : Bytes → UInt32} {s : SegmentSize} {t : Trace} {st st' : RunningEngine}
  {flushed : List Sst.Segment} {id : ℕ}

/-- INTERNAL: a worker moves an operation without a change of the store. -/
theorem running_moved (hstore : StoreSound crc s st t.inserts t.asked flushed) (htraced : Traced t st)
    {phase : OperationPhase} (hoperations : st'.operations = (st.moved id phase).operations)
    (hshared : st'.store = st.store) (hbt : st'.bt = st.bt) (hhistory : st'.history = st.history)
    (hwriter : st'.writer = st.writer) (hidle : ∀ entry, st.writer ≠ .inserting id entry)
    (hasking : ∀ key, phase ≠ .asking key) (hphase : PhaseSound t st id phase) :
    RunningSound crc s t.base st' := by
  have hflushing : st'.flushing = st.flushing := by
    unfold flushing
    rw [hwriter]
  refine ⟨t, flushed, rfl, ?_, htraced.moved hoperations hhistory hwriter hidle hphase⟩
  exact (hstore.lookedUp hasking).congr hshared hbt hflushing (by rw [hoperations])
    (by rw [hwriter]; rfl) fun hnot => hwriter ▸ hnot

/-- INTERNAL: the writer thread inserts only what was forwarded to it. -/
theorem Traced.idle (h : Traced t st) {phase : OperationPhase} (hphase : st.operations id = phase)
    (hother : ∀ command, phase ≠ .forwarded command) (entry : WalEntry) :
    st.writer ≠ .inserting id entry := by
  intro hwriter
  obtain ⟨command, hforwarded, -⟩ := h.inserting id entry hwriter
  exact hother command (hphase.symm.trans hforwarded)

/-- A client or a worker takes a step.
SOURCE: storage_engine.rs:69-109, 152-212; memtable.rs:112-151 -/
theorem worker_step (hstore : StoreSound crc s st t.inserts t.asked flushed) (htraced : Traced t st)
    (hstep : RunningEngine.Step crc st (.worker id) st') : RunningSound crc s t.base st' := by
  have hphase := htraced.phases id
  cases hstep with
  | @take _ rest command next queued idle =>
    rw [queued] at hphase
    exact running_moved hstore htraced rfl rfl rfl rfl rfl (htraced.idle queued nofun) nofun hphase
  | @found _ key value running unlocked healthy here =>
    rw [running] at hphase
    refine running_moved hstore htraced rfl rfl rfl rfl rfl (htraced.idle running nofun) nofun
      ⟨hphase.1, Or.inr ⟨hphase.2, key, t.updates.length, rfl, hphase.1.since, Nat.le_refl _, ?_⟩⟩
    rw [htraced.mapAt_eq, htraced.length_updates, ← List.length_append]
    exact hstore.found here
  | @notFound _ key running unlocked healthy absent =>
    rw [running] at hphase
    obtain ⟨⟨hinvoked, hunanswered, hsince⟩, hnew⟩ := hphase
    have hasking : PhaseSound { t with asked := Function.update t.asked id t.inserts.length } st id
        (.asking key) := by
      refine ⟨⟨hinvoked, hunanswered, hsince⟩, hnew, ?_⟩
      dsimp only
      rw [Function.update_self]
      unfold Trace.inserts
      rw [List.length_append, ← htraced.length_updates]
      omega
    exact ⟨{ t with asked := Function.update t.asked id t.inserts.length }, flushed, rfl,
      hstore.notFound running unlocked absent, (htraced.ask running t.inserts.length).moved rfl rfl
        rfl (htraced.idle running nofun) hasking⟩
  | @lookupLevels _ key value asking answer =>
    rw [asking] at hphase
    obtain ⟨hcommand, hnew, hasked⟩ := hphase
    obtain ⟨i, hsince, hi, hget⟩ := hstore.answers asking
    cases hget.symm.trans answer
    have hlength : t.inserts.length = t.base.length + t.updates.length := by
      unfold Trace.inserts
      rw [List.length_append, htraced.length_updates]
    obtain ⟨k, rfl⟩ := Nat.exists_eq_add_of_le (show t.base.length ≤ i by omega)
    refine running_moved hstore htraced rfl rfl rfl rfl rfl (htraced.idle asking nofun) nofun
      ⟨hcommand, Or.inr ⟨hnew, key, k, rfl, by omega, by omega, ?_⟩⟩
    rw [htraced.mapAt_eq]
  | @lookupFails _ key kind asking failed =>
    exact running_moved hstore htraced rfl rfl rfl rfl rfl (htraced.idle asking nofun) nofun trivial
  | @readPanics _ key running poisoned =>
    exact running_moved hstore htraced rfl rfl rfl rfl rfl (htraced.idle running nofun) nofun trivial
  | @lookupPanics _ key asking poisoned =>
    exact running_moved hstore htraced rfl rfl rfl rfl rfl (htraced.idle asking nofun) nofun trivial
  | @dropped _ rest command next queued gone =>
    exact running_moved hstore htraced rfl rfl rfl rfl rfl (htraced.idle queued nofun) nofun trivial
  | @forward _ command running write listens =>
    rw [running] at hphase
    exact running_moved hstore htraced rfl rfl rfl rfl rfl (htraced.idle running nofun) nofun
      ⟨hphase.1, fun hmem => absurd hmem hphase.2⟩
  | @refused _ command sent gone =>
    exact running_moved hstore htraced rfl rfl rfl rfl rfl (fun entry => by rw [gone]; nofun) nofun
      trivial
  | @respond _ command value answered =>
    obtain ⟨queries, hafter⟩ := @Traced.respond t st
      { st.ended id .returned with history := st.history ++ [.respond id value] } id htraced _ _
      answered rfl rfl rfl
    have hover : ∀ key, OperationPhase.returned ≠ .asking key := nofun
    exact ⟨{ t with upTo := Function.update t.upTo id t.updates.length, queries := queries }, flushed,
      rfl, (hstore.lookedUp hover).congr rfl rfl rfl rfl rfl fun hnot => hnot, hafter⟩

/-- INTERNAL: the writer thread goes on without a change of the store. -/
theorem running_aside (hstore : StoreSound crc s st t.inserts t.asked flushed) (htraced : Traced t st)
    (hoperations : st'.operations = st.operations) (hhistory : st'.history = st.history)
    (hshared : st'.store = st.store) (hbt : st'.bt = st.bt) (hflushing : st'.flushing = st.flushing)
    (hpromised : promised st'.writer = promised st.writer) (hlistens : st.writer ≠ .gone)
    (hidle : ∀ id entry, st'.writer ≠ .inserting id entry) : RunningSound crc s t.base st' :=
  ⟨t, flushed, rfl, hstore.congr hshared hbt hflushing (by rw [hoperations]) hpromised
    fun _ => hlistens, htraced.aside hoperations hhistory (fun hgone => absurd hgone hlistens)
    fun id entry hwriter => absurd hwriter (hidle id entry)⟩

/-- The writer thread takes a step.
SOURCE: memtable.rs:357-419; memtable_flusher.rs:27-37 -/
theorem writer_step (hstore : StoreSound crc s st t.inserts t.asked flushed) (htraced : Traced t st)
    (hstep : RunningEngine.Step crc st .writer st') : RunningSound crc s t.base st' := by
  cases hstep with
  | @receive id rest command waiting next forwarded =>
    have hflushing : st.flushing = false := by
      unfold flushing
      rw [waiting]
    exact running_aside hstore htraced rfl rfl rfl rfl hflushing.symm (by rw [waiting]; rfl)
      (by rw [waiting]; nofun) nofun
  | @keep id received room =>
    have hflushing : st.flushing = false := by
      unfold flushing
      rw [received]
    exact running_aside hstore htraced rfl rfl rfl rfl hflushing.symm (by rw [received]; rfl)
      (by rw [received]; nofun) nofun
  | @clear id clearing =>
    exact ⟨t, flushed, rfl, hstore.clear clearing, htraced.aside rfl rfl
      (fun hgone => by rw [clearing] at hgone; cases hgone) nofun⟩
  | @append id n command job entry worker writing forwarded write next record appended =>
    have hphase := htraced.phases id
    rw [forwarded] at hphase
    have hshort := htraced.short id command hphase.1.invoked
    obtain ⟨hentry, -⟩ := entry_of_command write record
    refine ⟨t, flushed, rfl, hstore.append writing write hshort next record appended,
      htraced.aside rfl rfl (fun hgone => by rw [writing] at hgone; cases hgone) ?_⟩
    intro other e hwriter
    cases hwriter
    refine ⟨command, forwarded, by rw [write]; nofun, ?_⟩
    rw [hentry]
  | @appendFails id n command job entry worker kind writing forwarded write next record failed =>
    exact absurd failed (hstore.accepts writing write next record)
  | @numberPanics id writing panicked =>
    have hflushing : st.flushing = false := by
      unfold flushing
      rw [writing]
    exact running_aside hstore htraced rfl rfl rfl rfl hflushing.symm (by rw [writing]; rfl)
      (by rw [writing]; nofun) nofun
  | @appendPanics id n command job entry worker writing forwarded write next record panicked =>
    have hflushing : st.flushing = false := by
      unfold flushing
      rw [writing]
    obtain ⟨-, hworker⟩ := onWal_eq_error panicked
    rw [hworker]
    exact ⟨t, flushed, rfl, hstore.gone hflushing rfl worker.wal st.store.2.dir st.poisoned
      st.store.2.indexSparsityFactor, htraced.aside rfl rfl (fun _ => rfl) nofun⟩
  | @insert id command entry worker old inserting forwarded inserted =>
    obtain ⟨-, hworker⟩ := insertEntry_eq_ok inserted
    have hanswered : ∀ key,
        OperationPhase.answered command (old.bind MemTableValue.value) ≠ .asking key := nofun
    have hsound := hstore.insert inserting
      (pendingOf_update (by rw [forwarded]; nofun) hanswered t.asked) (Or.inl rfl) (st.store.1.currentSize +
        (SsTableEntry.fromValue entry.key ⟨entry.value, entry.sequenceNumber⟩).len)
    rw [hworker]
    refine ⟨t.insert entry ⟨id, command, old.bind MemTableValue.value⟩, flushed, rfl, ?_,
      htraced.insert inserting forwarded rfl (Or.inl ⟨rfl, rfl⟩)⟩
    rw [Trace.inserts_insert]
    exact hsound
  | @insertPanics id command entry worker inserting forwarded panicked =>
    have hsound := hstore.insert inserting rfl (Or.inr rfl) st.store.1.currentSize
    rw [insertEntry_eq_error panicked]
    refine ⟨t.insert entry ⟨id, command, none⟩, flushed, rfl, ?_,
      htraced.insert inserting forwarded rfl (Or.inr ⟨rfl, rfl⟩)⟩
    rw [Trace.inserts_insert]
    exact hsound

/-- Every step keeps it.
SOURCE: storage_engine.rs:69-109, 152-212; memtable.rs:112-151, 357-419; compaction.rs:200-240 -/
theorem running_step {base : List SsTableEntry} {a : RunningEngine.Action}
    (h : RunningSound crc s base st) (hclean : st.Clean a) (hstep : RunningEngine.Step crc st a st') :
    RunningSound crc s base st' := by
  obtain ⟨t, flushed, rfl, hstore, htraced⟩ := h
  cases a with
  | worker id => exact worker_step hstore htraced hstep
  | writer => exact writer_step hstore htraced hstep
  | invoke id command =>
    cases hstep with
    | invoke fresh opened =>
      have hqueued : ∀ key, OperationPhase.queued command ≠ .asking key := nofun
      exact ⟨{ t with since := Function.update t.since id t.updates.length }, flushed, rfl,
        (hstore.lookedUp hqueued).congr rfl rfl rfl rfl rfl fun hnot => hnot,
        htraced.invoke fresh hclean rfl rfl rfl⟩
  | close =>
    cases hstep with
    | close =>
      exact ⟨t, flushed, rfl, hstore.congr rfl rfl rfl rfl rfl fun hnot => hnot,
        htraced.aside rfl rfl (fun hgone => hgone) htraced.inserting⟩
  | leave =>
    cases hstep with
    | leave closing done idle =>
      exact ⟨t, flushed, rfl, hstore.congr rfl rfl rfl rfl rfl fun hnot => hnot,
        htraced.aside rfl rfl (fun hgone => hgone) htraced.inserting⟩
  | flush =>
    cases hstep with
    | @flush id flusher received full flushed' =>
      obtain ⟨segment, hafter⟩ := hstore.flush received full flushed' hclean
      exact ⟨t, _, rfl, hafter, htraced.aside rfl rfl
        (fun hgone => by rw [received] at hgone; cases hgone) nofun⟩
    | @flushFails id flusher e received full failed =>
      have hflushing : st.flushing = false := by
        unfold flushing
        rw [received]
      exact ⟨t, flushed, rfl, hstore.gone hflushing rfl st.store.1.wal flusher.dir true
        flusher.indexSparsityFactor, htraced.aside rfl rfl (fun _ => rfl) nofun⟩
  | notified m =>
    cases hstep with
    | notified returned =>
      have hlsm := lsmSound_step hstore.lsm (show Lsm.Clean ⟨st.bt, flushed⟩ (.notified m) from hclean)
        (.notified returned)
      exact ⟨t, flushed, rfl, hstore.compacted hlsm, htraced.aside rfl rfl (fun hgone => hgone)
        htraced.inserting⟩
  | timedOut m referenced =>
    cases hstep with
    | timedOut returned =>
      have hlsm := lsmSound_step hstore.lsm
        (show Lsm.Clean ⟨st.bt, flushed⟩ (.timedOut m referenced) from hclean) (.timedOut returned)
      exact ⟨t, flushed, rfl, hstore.compacted hlsm, htraced.aside rfl rfl (fun hgone => hgone)
        htraced.inserting⟩
  | compactionFails =>
    cases hstep with
    | notifiedFails failed =>
      exact ⟨t, flushed, rfl, hstore.compacted (hstore.lsm.files (notified_failed _ failed)),
        htraced.aside rfl rfl (fun hgone => hgone) htraced.inserting⟩
    | timedOutFails failed =>
      exact ⟨t, flushed, rfl, hstore.compacted (hstore.lsm.files (timedOut_failed _ failed)),
        htraced.aside rfl rfl (fun hgone => hgone) htraced.inserting⟩

/-- INTERNAL: an order of the operations that leads to what the log has. -/
theorem RunningSound.recorded {base : List SsTableEntry} (h : RunningSound crc s base st)
    (hlistens : st.writer ≠ .gone) :
    ∃ es order, LogSound crc s st.store.1.wal es ∧
      Linearizes keyValues (mapOf base) st.history order ∧
      keyValues.after (mapOf base) order = mapOf (insertsOf es) := by
  obtain ⟨t, flushed, rfl, hstore, htraced⟩ := h
  obtain ⟨es, hlog, hrecords⟩ := hstore.log hlistens
  have hsettled : ∀ {t' : Trace} {st' : RunningEngine}, Traced t' st' → t'.base = t.base →
      st'.history = st.history → insertsOf es = t'.inserts →
      ∃ order, Linearizes keyValues (mapOf t.base) st.history order ∧
        keyValues.after (mapOf t.base) order = mapOf (insertsOf es) := by
    intro t' st' htraced' hbase hhistory hinserts
    have hinstants := htraced'.instants
    have hafter := @after_mapOf t'.base _ _ htraced'.writes htraced'.written
    rw [hbase] at hinstants hafter
    rw [hhistory] at hinstants
    refine ⟨_, hinstants.linearizes, ?_⟩
    rw [hinstants.after, hafter, hinserts]
    unfold Trace.inserts
    rw [hbase]
  cases hwriter : st.writer with
  | inserting id entry =>
    -- the write takes effect with its record
    rw [hwriter] at hrecords
    obtain ⟨command, hforwarded, -⟩ := htraced.inserting id entry hwriter
    have hinserted := @Traced.insert t st { st with writer := .gone } id htraced command entry none
      hwriter hforwarded rfl (Or.inr ⟨rfl, rfl⟩)
    obtain ⟨order, hall⟩ := hsettled hinserted rfl rfl
      (hrecords.trans (t.inserts_insert entry _).symm)
    exact ⟨es, order, hlog, hall⟩
  | _ =>
    rw [hwriter] at hrecords
    obtain ⟨order, hall⟩ := hsettled htraced rfl rfl (hrecords.trans (List.append_nil _))
    exact ⟨es, order, hlog, hall⟩

/-- INTERNAL: a run of clean steps keeps it. -/
theorem RunningSound.run {base : List SsTableEntry} (h : RunningSound crc s base st)
    {steps : List (RunningEngine × RunningEngine.Action)}
    (hrun : Run (RunningEngine.Step crc) st steps st') (hclean : ∀ p ∈ steps, p.1.Clean p.2) :
    RunningSound crc s base st' :=
  (hrun.invariant_of_guard h (fun _ _ _ h hguard hstep => running_step h hguard hstep) hclean).2

section
variable {merge merge' : Sst.Merge} {fuel fuel' : ℕ}

end

end

end Rkvs.Analysis
