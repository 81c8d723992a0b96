import Mathlib.Logic.Basic

/-!
# How a stateful computation can end

`Runs x s Q E` says that `x`, started in `s`, either returns with a result and a state that
satisfy `Q`, or fails with an error and a state that satisfy `E`. The rules follow the way the
computation is put together, so that a proof about it goes along its text.
-/

set_option autoImplicit false

namespace Rkvs.Library

/-- A run from `s` ends in `Q` or fails in `E`. -/
def Runs {ε σ α : Type} (x : EStateM ε σ α) (s : σ) (Q : α → σ → Prop) (E : ε → σ → Prop) : Prop :=
  match x.run s with
  | .ok a s' => Q a s'
  | .error e s' => E e s'

namespace Runs

variable {ε σ α β : Type} {x : EStateM ε σ α} {s : σ} {Q : α → σ → Prop} {E : ε → σ → Prop}

/-- INTERNAL: a run that returns. -/
theorem of_ok {a : α} {s' : σ} (h : x.run s = .ok a s') (hQ : Q a s') : Runs x s Q E := by
  unfold Runs
  rwa [h]

/-- INTERNAL: a run that fails. -/
theorem of_error {e : ε} {s' : σ} (h : x.run s = .error e s') (hE : E e s') : Runs x s Q E := by
  unfold Runs
  rwa [h]

/-- INTERNAL: what holds of a result. -/
theorem ok (h : Runs x s Q E) {a : α} {s' : σ} (hrun : x.run s = .ok a s') : Q a s' := by
  unfold Runs at h
  rwa [hrun] at h

/-- INTERNAL: what holds of a failure. -/
theorem error (h : Runs x s Q E) {e : ε} {s' : σ} (hrun : x.run s = .error e s') : E e s' := by
  unfold Runs at h
  rwa [hrun] at h

/-- A sequence runs as its second part does from where the first has ended. -/
theorem bind {f : α → EStateM ε σ β} {R : β → σ → Prop} (hx : Runs x s Q E)
    (hf : ∀ a s', Q a s' → Runs (f a) s' R E) : Runs (x >>= f) s R E := by
  unfold Runs at hx ⊢
  rw [EStateM.run_bind]
  cases hrun : x.run s with
  | ok a s' =>
    rw [hrun] at hx
    exact hf a s' hx
  | error e s' =>
    rw [hrun] at hx
    exact hx

/-- What holds at the end may be weakened. -/
theorem mono {Q' : α → σ → Prop} {E' : ε → σ → Prop} (h : Runs x s Q E)
    (hQ : ∀ a s', Q a s' → Q' a s') (hE : ∀ e s', E e s' → E' e s') : Runs x s Q' E' := by
  unfold Runs at h ⊢
  cases hrun : x.run s with
  | ok a s' =>
    rw [hrun] at h
    exact hQ a s' h
  | error e s' =>
    rw [hrun] at h
    exact hE e s' h

end Runs

/-! ## Runs that do not depend on a part of the state -/

/-- A run that returns does so as well, and alike, from the state without the part that `erase`
takes away. -/
def Replays {ε σ α : Type} (erase : σ → σ) (x : EStateM ε σ α) : Prop :=
  ∀ s a s', x.run s = .ok a s' → x.run (erase s) = .ok a (erase s')

namespace Replays

variable {ε σ α β : Type} {erase : σ → σ} {x : EStateM ε σ α}

/-- A sequence replays if both parts do. -/
theorem bind {f : α → EStateM ε σ β} (hx : Replays erase x) (hf : ∀ a, Replays erase (f a)) :
    Replays erase (x >>= f) := by
  intro s b s' hrun
  rw [EStateM.run_bind] at hrun ⊢
  cases hfirst : x.run s with
  | ok a mid =>
    rw [hfirst] at hrun
    rw [hx s a mid hfirst]
    exact hf a mid b s' hrun
  | error e mid =>
    rw [hfirst] at hrun
    cases hrun

/-- What is looked up in the state may be used if it is not in the part taken away. -/
theorem get_bind {f : σ → EStateM ε σ β} (hsame : ∀ s, f (erase s) = f s)
    (hf : ∀ s, Replays erase (f s)) : Replays erase (get >>= f) := by
  intro s b s' hrun
  rw [EStateM.run_bind, EStateM.run_get] at hrun ⊢
  dsimp only at hrun ⊢
  rw [hsame]
  exact hf s s b s' hrun

/-- INTERNAL: a change that does not depend on what is left out. -/
theorem modify {g : σ → σ} (h : ∀ s, g (erase s) = erase (g s)) :
    Replays erase (modify g : EStateM ε σ PUnit) := by
  intro s b s' hrun
  cases hrun
  rw [EStateM.run_modify, h]

end Replays

end Rkvs.Library
