import Mathlib.Logic.Relation
import Rkvs.Interface.ConnectionHandles

/-!
# Shutting the server down

When a cancellation ends the loop of the server, the server waits for the connection manager, which
looks at the cancellation only when it receives a message.
-/

set_option autoImplicit false

namespace Rkvs.Interface.Connections

open Rkvs.Library Rkvs.Model Relation

/-- One of the parties makes a step. -/
def Next (st st' : Connections) : Prop := ∃ action, Step st action st'

/-- Some order of the steps to come ends the server. -/
def CanEnd (st : Connections) : Prop := ∃ st', ReflTransGen Next st st' ∧ st'.server = .ended

/-- The manager waits for a message, and after the cancellation nobody sends one.
SOURCE: lib.rs:68-92; connection_manager.rs:20-24 -/
structure Stranded (st : Connections) : Prop where
  cancelled : st.cancelled = true
  server : st.server = .closing ∨ ∃ n, st.server = .looping n
  manager : ∃ handles, st.manager = .receiving handles
  queue : st.channel.queued = []

/-- The manager has received the start signal of the connection before the cancellation. -/
def Heard (steps : List (Connections × Action)) (id : ℕ) : Prop :=
  ∃ st rest, (st, Action.receive) ∈ steps ∧ st.cancelled = false ∧
    st.channel.queued = .startSignal ⟨⟨id⟩, id⟩ :: rest

end Rkvs.Interface.Connections
