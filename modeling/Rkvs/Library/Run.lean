import Mathlib.Data.List.Forall2

/-!
# Runs of a step relation

A run is a list of steps, each with the state it was taken in. What every step keeps holds in every
state of a run.
-/

set_option autoImplicit false

namespace Rkvs.Library

variable {σ α : Type} {Step : σ → α → σ → Prop} {start s : σ} {steps : List (σ × α)}

/-- Steps from a state to another one. -/
inductive Run (Step : σ → α → σ → Prop) (start : σ) : List (σ × α) → σ → Prop
  | nil : Run Step start [] start
  | snoc {steps : List (σ × α)} {s : σ} {a : α} {s' : σ} (before : Run Step start steps s)
      (step : Step s a s') : Run Step start (steps ++ [(s, a)]) s'

namespace Run

/-- The last step of a run. -/
theorem of_snoc {a : α} {s' : σ} (h : Run Step start (steps ++ [(s, a)]) s') :
    Run Step start steps s ∧ Step s a s' := by
  generalize hall : steps ++ [(s, a)] = all at h
  cases h with
  | nil => exact absurd hall (List.append_ne_nil_of_right_ne_nil _ (List.cons_ne_nil _ _))
  | snoc before step =>
    obtain ⟨rfl, hlast⟩ := List.append_inj' hall rfl
    cases hlast
    exact ⟨before, step⟩

/-- Two runs, one after the other. -/
theorem trans {steps' : List (σ × α)} {s' : σ} (h : Run Step start steps s)
    (h' : Run Step s steps' s') : Run Step start (steps ++ steps') s' := by
  induction h' with
  | nil => rwa [List.append_nil]
  | snoc before step ih =>
    rw [← List.append_assoc]
    exact ih.snoc step

theorem single {a : α} {s' : σ} (h : Step s a s') : Run Step s [(s, a)] s' :=
  Run.nil.snoc h

/-- What every step that meets the guard keeps holds wherever all steps meet it. -/
theorem invariant_of_guard {guard : σ × α → Prop} {I : σ → Prop} (hstart : I start)
    (hstep : ∀ s a s', I s → guard (s, a) → Step s a s' → I s') (h : Run Step start steps s)
    (hguard : ∀ p ∈ steps, guard p) : (∀ p ∈ steps, I p.1) ∧ I s := by
  induction h with
  | nil => exact ⟨fun p hp => absurd hp List.not_mem_nil, hstart⟩
  | snoc before step ih =>
    obtain ⟨hbefore, hlast⟩ := ih fun p hp => hguard p (List.mem_append_left _ hp)
    refine ⟨fun p hp => ?_, ?_⟩
    · obtain hp | hp := List.mem_append.mp hp
      · exact hbefore p hp
      · rw [List.mem_singleton.mp hp]
        exact hlast
    · apply hstep _ _ _ hlast _ step
      exact hguard _ (List.mem_append_right _ (List.mem_singleton_self _))

/-- What every step keeps holds in every state. -/
theorem invariant {I : σ → Prop} (hstart : I start)
    (hstep : ∀ s a s', I s → Step s a s' → I s') (h : Run Step start steps s) :
    (∀ p ∈ steps, I p.1) ∧ I s :=
  @invariant_of_guard σ α Step start s steps (fun _ => True) I hstart
    (fun s a s' hs _ => hstep s a s' hs) h fun _ _ => trivial

/-- A run is no longer than the rank of its start if every step with the guard leads to a lower rank. -/
theorem length_le {guard : σ × α → Prop} {R : ℕ → σ → Prop} {n : ℕ} (hstart : R n start)
    (hstep : ∀ n s a s', R n s → guard (s, a) → Step s a s' → ∃ m < n, R m s')
    (h : Run Step start steps s) (hguard : ∀ p ∈ steps, guard p) :
    ∃ m, R m s ∧ steps.length + m ≤ n := by
  induction h with
  | nil => exact ⟨n, hstart, Nat.le_of_eq (Nat.zero_add _)⟩
  | snoc before step ih =>
    obtain ⟨m, hlast, hle⟩ := ih fun p hp => hguard p (List.mem_append_left _ hp)
    obtain ⟨m', hlt, hnext⟩ := hstep _ _ _ _ hlast
      (hguard _ (List.mem_append_right _ (List.mem_singleton_self _))) step
    refine ⟨m', hnext, ?_⟩
    rw [List.length_append, List.length_singleton]
    omega

/-- If a step from a state with the invariant meets the guard exactly when it leads to a good one,
all states of a run are good if and only if all steps meet the guard. -/
theorem good_iff {guard : σ × α → Prop} {I P : σ → Prop} (hstart : I start)
    (hgood : ∀ s, I s → P s) (hstep : ∀ s a s', I s → guard (s, a) → Step s a s' → I s')
    (hback : ∀ s a s', I s → Step s a s' → P s' → guard (s, a)) (h : Run Step start steps s) :
    ((∀ p ∈ steps, P p.1) ∧ P s) ↔ ∀ p ∈ steps, guard p := by
  constructor
  · intro hall
    have hboth : I s ∧ ∀ p ∈ steps, guard p := by
      induction h with
      | nil => exact ⟨hstart, fun p hp => absurd hp List.not_mem_nil⟩
      | @snoc steps s a s' before step ih =>
        have hlast : P s := hall.1 (s, a) (List.mem_append_right _ (List.mem_singleton_self _))
        obtain ⟨hI, hguards⟩ := ih ⟨fun p hp => hall.1 p (List.mem_append_left _ hp), hlast⟩
        have hguard := hback s a s' hI step hall.2
        refine ⟨hstep s a s' hI hguard step, fun p hp => ?_⟩
        obtain hp | hp := List.mem_append.mp hp
        · exact hguards p hp
        · rw [List.mem_singleton.mp hp]
          exact hguard
    exact hboth.2
  · intro hguards
    obtain ⟨hbefore, hlast⟩ := invariant_of_guard hstart hstep h hguards
    exact ⟨fun p hp => hgood p.1 (hbefore p hp), hgood s hlast⟩

/-- Every step leads to a state of the run. -/
theorem exists_next {P : σ → Prop} (h : Run Step start steps s)
    (hall : (∀ p ∈ steps, P p.1) ∧ P s) : ∀ p ∈ steps, ∃ s', Step p.1 p.2 s' ∧ P s' := by
  induction h with
  | nil => exact fun p hp => absurd hp List.not_mem_nil
  | snoc before step ih =>
    intro p hp
    obtain hp | hp := List.mem_append.mp hp
    · apply ih ⟨fun q hq => hall.1 q (List.mem_append_left _ hq), ?_⟩ p hp
      exact hall.1 _ (List.mem_append_right _ (List.mem_singleton_self _))
    · rw [List.mem_singleton.mp hp]
      exact ⟨_, step, hall.2⟩

/-- Two runs whose steps have the same labels go through related states if such steps lead from
related states to related ones. -/
theorem lockstep {γ : Type} {label : α → γ} {guard : γ → Prop} {R : σ → σ → Prop}
    {start' s' : σ} {steps' : List (σ × α)} (hstart : R start start')
    (hstep : ∀ s t a b u v, R s t → guard (label a) → label a = label b → Step s a u →
      Step t b v → R u v)
    (h : Run Step start steps s) (h' : Run Step start' steps' s')
    (hlabels : steps.map (fun p => label p.2) = steps'.map fun p => label p.2)
    (hguard : ∀ p ∈ steps, guard (label p.2)) :
    List.Forall₂ (fun p q => R p.1 q.1 ∧ guard (label p.2) ∧ label p.2 = label q.2 ∧
      (∃ u, Step p.1 p.2 u) ∧ ∃ v, Step q.1 q.2 v) steps steps' ∧ R s s' := by
  induction h generalizing steps' s' with
  | nil =>
    cases h' with
    | nil => exact ⟨List.Forall₂.nil, hstart⟩
    | snoc before' step' => simp at hlabels
  | snoc before step ih =>
    cases h' with
    | nil => simp at hlabels
    | snoc before' step' =>
      rw [List.map_append, List.map_append] at hlabels
      obtain ⟨hbefore, hlast⟩ := List.append_inj' hlabels rfl
      have hlabel := List.head_eq_of_cons_eq hlast
      have hnow := hguard _ (List.mem_append_right _ (List.mem_singleton_self _))
      obtain ⟨hall, hR⟩ := ih before' hbefore fun p hp => hguard p (List.mem_append_left _ hp)
      refine ⟨List.rel_append hall (List.Forall₂.cons ?_ List.Forall₂.nil), ?_⟩
      · exact ⟨hR, hnow, hlabel, ⟨_, step⟩, _, step'⟩
      · exact hstep _ _ _ _ _ _ hR hnow hlabel step step'

end Run

/-- What holds of the steps at the same place of two runs holds of the runs. -/
theorem forall₂_iff {R : σ → σ → Prop} {γ : Type} {f : σ → γ} {P Q : σ → Prop} {l l' : List σ}
    (h : List.Forall₂ R l l')
    (hpair : ∀ p q, R p q → ((f p = f q ∧ P p ∧ P q) ↔ Q p ∧ Q q)) :
    (l.map f = l'.map f ∧ (∀ p ∈ l, P p) ∧ ∀ p ∈ l', P p) ↔
      (∀ p ∈ l, Q p) ∧ ∀ p ∈ l', Q p := by
  induction h with
  | nil => simp
  | @cons p q l l' hR hall ih =>
    have hhead := hpair p q hR
    simp only [List.map_cons, List.cons.injEq, List.forall_mem_cons]
    constructor
    · rintro ⟨⟨hf, hmap⟩, ⟨hp, hl⟩, hq, hl'⟩
      obtain ⟨hQp, hQq⟩ := hhead.mp ⟨hf, hp, hq⟩
      obtain ⟨hQl, hQl'⟩ := ih.mp ⟨hmap, hl, hl'⟩
      exact ⟨⟨hQp, hQl⟩, hQq, hQl'⟩
    · rintro ⟨⟨hQp, hQl⟩, hQq, hQl'⟩
      obtain ⟨hf, hp, hq⟩ := hhead.mpr ⟨hQp, hQq⟩
      obtain ⟨hmap, hl, hl'⟩ := ih.mpr ⟨hQl, hQl'⟩
      exact ⟨⟨hf, hmap⟩, ⟨hp, hl⟩, hq, hl'⟩

end Rkvs.Library
