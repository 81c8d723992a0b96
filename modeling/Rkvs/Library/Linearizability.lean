import Mathlib.Data.List.Nodup
import Mathlib.Data.Nat.Notation
import Mathlib.Logic.Function.Basic

/-!
# Linearizable histories

A history has the invocations and the responses of operations in the order in which they occur. It
is linearizable if its operations can be put into one order in which an object that serves them one
after the other gives the same results, and in which an operation that returns before another one
is invoked does not come behind it. Operations that have not returned may be left out. The order is
found from instants: each update has a number, and each query that number of updates after which
its result is right.
-/

set_option autoImplicit false

namespace Rkvs.Library.History

variable {σ ω ρ : Type}

/-- An operation is invoked, or it returns. -/
inductive Event (ω ρ : Type)
  | invoke (id : ℕ) (op : ω)
  | respond (id : ℕ) (res : ρ)

/-- An operation with its result. -/
structure Operation (ω ρ : Type) where
  id : ℕ
  op : ω
  res : ρ

/-- An object that serves one operation after the other: its states, and the results it may give. -/
structure Sequential (σ ω ρ : Type) where
  next : σ → ω → σ
  allows : σ → ω → ρ → Prop

/-- The object gives these results from a state on. -/
def Sequential.Legal (spec : Sequential σ ω ρ) : σ → List (Operation ω ρ) → Prop
  | _, [] => True
  | s, x :: xs => spec.allows s x.op x.res ∧ spec.Legal (spec.next s x.op) xs

/-- The state after some operations. -/
def Sequential.after (spec : Sequential σ ω ρ) (s : σ) (xs : List (Operation ω ρ)) : σ :=
  xs.foldl (fun s x => spec.next s x.op) s

/-- An operation that was invoked. -/
def Invoked (h : List (Event ω ρ)) (id : ℕ) : Prop := ∃ op, .invoke id op ∈ h

/-- An operation that was responded to. -/
def Responded (h : List (Event ω ρ)) (id : ℕ) : Prop := ∃ res, .respond id res ∈ h

/-- The first operation has returned before the second one is invoked. -/
def Precedes (h : List (Event ω ρ)) (a b : ℕ) : Prop :=
  ∃ before after, h = before ++ after ∧ Responded before a ∧ Invoked after b

/-- An order of the operations that explains their results. -/
structure Linearizes (spec : Sequential σ ω ρ) (start : σ) (h : List (Event ω ρ))
    (order : List (Operation ω ρ)) : Prop where
  legal : spec.Legal start order
  distinct : (order.map Operation.id).Nodup
  invoked : ∀ x ∈ order, .invoke x.id x.op ∈ h
  responded : ∀ id res, .respond id res ∈ h → ∃ x ∈ order, x.id = id ∧ x.res = res
  realTime : order.Pairwise fun x y => ¬Precedes h y.id x.id

/-- The operations have an order that keeps the order of time and in which the responses are those
of the sequential object. -/
def Linearizable (spec : Sequential σ ω ρ) (start : σ) (h : List (Event ω ρ)) : Prop :=
  ∃ order, Linearizes spec start h order

/-! ## Longer histories -/

section
variable {h : List (Event ω ρ)} {id a b : ℕ} {op : ω} {res : ρ}

/-- INTERNAL: an invocation responds to nothing. -/
theorem responded_snoc_invoke : Responded (h ++ [.invoke id op]) a ↔ Responded h a := by
  unfold Responded
  simp

/-- INTERNAL: a response responds to its operation. -/
theorem responded_snoc_respond :
    Responded (h ++ [.respond id res]) a ↔ Responded h a ∨ a = id := by
  unfold Responded
  simp [exists_or]

/-- INTERNAL: an operation before another one was responded to. -/
theorem Precedes.responded (hp : Precedes h a b) : Responded h a := by
  obtain ⟨before, after, rfl, ⟨res, hres⟩, -⟩ := hp
  exact ⟨res, List.mem_append_left _ hres⟩

/-- INTERNAL: an operation after another one was invoked. -/
theorem Precedes.invoked (hp : Precedes h a b) : Invoked h b := by
  obtain ⟨before, after, rfl, -, op, hop⟩ := hp
  exact ⟨op, List.mem_append_right _ hop⟩

/-- What has happened before stays before. -/
theorem Precedes.append (hp : Precedes h a b) (more : List (Event ω ρ)) :
    Precedes (h ++ more) a b := by
  obtain ⟨before, after, rfl, hres, op, hop⟩ := hp
  exact ⟨before, after ++ more, List.append_assoc .., hres, op, List.mem_append_left _ hop⟩

/-- INTERNAL: where a longer history is cut. -/
theorem precedes_snoc {e : Event ω ρ} :
    Precedes (h ++ [e]) a b ↔ Precedes h a b ∨ Responded h a ∧ Invoked [e] b := by
  constructor
  · rintro ⟨before, after, hsplit, hres, hinv⟩
    rcases List.eq_nil_or_concat after with rfl | ⟨after, last, rfl⟩
    · obtain ⟨_, hmem⟩ := hinv
      cases hmem
    · rw [List.concat_eq_append, ← List.append_assoc] at hsplit
      obtain ⟨rfl, hlast⟩ := List.append_inj' hsplit rfl
      obtain rfl : e = last := List.head_eq_of_cons_eq hlast
      obtain ⟨op, hmem⟩ := hinv
      rw [List.concat_eq_append] at hmem
      obtain hmem | hmem := List.mem_append.mp hmem
      · exact Or.inl ⟨before, after, rfl, hres, op, hmem⟩
      · obtain ⟨res, hres⟩ := hres
        exact Or.inr ⟨⟨res, List.mem_append_left _ hres⟩, op, hmem⟩
  · rintro (⟨before, after, rfl, hres, op, hop⟩ | ⟨hres, hinv⟩)
    · exact ⟨before, after ++ [e], by rw [List.append_assoc], hres, op, List.mem_append_left _ hop⟩
    · exact ⟨h, [e], rfl, hres, hinv⟩

/-- An invocation comes after everything that has returned. -/
theorem precedes_snoc_invoke :
    Precedes (h ++ [.invoke id op]) a b ↔ Precedes h a b ∨ Responded h a ∧ b = id := by
  rw [precedes_snoc]
  unfold Invoked
  simp

/-- A response comes before nothing yet. -/
theorem precedes_snoc_respond : Precedes (h ++ [.respond id res]) a b ↔ Precedes h a b := by
  rw [precedes_snoc]
  unfold Invoked
  simp

end

/-! ## Operations of one process -/

/-- No operation is invoked twice. -/
def InvokedOnce (h : List (Event ω ρ)) : Prop :=
  ∀ id op op', .invoke id op ∈ h → .invoke id op' ∈ h → op = op'

section
variable {spec : Sequential σ ω ρ} {start : σ} {h : List (Event ω ρ)}
  {order : List (Operation ω ρ)}

/-- INTERNAL: nothing was invoked at first. -/
theorem InvokedOnce.nil : InvokedOnce ([] : List (Event ω ρ)) :=
  fun _ _ _ hmem => absurd hmem List.not_mem_nil

/-- A fresh operation is invoked. -/
theorem InvokedOnce.invoke {id : ℕ} (hall : InvokedOnce h) (hfresh : ¬Invoked h id) (op : ω) :
    InvokedOnce (h ++ [.invoke id op]) := by
  intro a op₁ op₂ h₁ h₂
  obtain h₁ | h₁ := List.mem_append.mp h₁
  · obtain h₂ | h₂ := List.mem_append.mp h₂
    · exact hall a op₁ op₂ h₁ h₂
    · cases List.mem_singleton.mp h₂
      exact absurd ⟨op₁, h₁⟩ hfresh
  · cases List.mem_singleton.mp h₁
    obtain h₂ | h₂ := List.mem_append.mp h₂
    · exact absurd ⟨op₂, h₂⟩ hfresh
    · cases List.mem_singleton.mp h₂
      rfl

/-- INTERNAL: a response invokes nothing. -/
theorem InvokedOnce.respond (hall : InvokedOnce h) (id : ℕ) (res : ρ) :
    InvokedOnce (h ++ [.respond id res]) := by
  intro a op₁ op₂ h₁ h₂
  refine hall a op₁ op₂ ((List.mem_append.mp h₁).resolve_right ?_)
    ((List.mem_append.mp h₂).resolve_right ?_)
  all_goals exact fun hmem => nomatch List.mem_singleton.mp hmem

/-- An operation that has returned is in the order. -/
theorem Linearizes.mem (hall : Linearizes spec start h order) (honce : InvokedOnce h) {id : ℕ}
    {op : ω} {res : ρ} (hinvoked : .invoke id op ∈ h) (hresponded : .respond id res ∈ h) :
    ⟨id, op, res⟩ ∈ order := by
  obtain ⟨⟨id', op', res'⟩, hmem, rfl, rfl⟩ := hall.responded id res hresponded
  cases honce id' op op' hinvoked (hall.invoked _ hmem)
  exact hmem

/-- INTERNAL: elements that a relation puts in a row are in the same order in every list that does not
contradict it. -/
theorem sublist_of_pairwise {α : Type} {R : α → α → Prop} {l order : List α}
    (horder : order.Pairwise fun x y => ¬R y x) (hl : l.Pairwise fun x y => x ≠ y ∧ R x y)
    (hmem : ∀ x ∈ l, x ∈ order) : l.Sublist order := by
  induction order generalizing l with
  | nil =>
    cases l with
    | nil => exact List.Sublist.slnil
    | cons x xs => exact absurd (hmem x List.mem_cons_self) List.not_mem_nil
  | cons o order ih =>
    obtain ⟨ho, htail⟩ := List.pairwise_cons.mp horder
    cases l with
    | nil => exact List.nil_sublist _
    | cons x xs =>
      obtain ⟨hx, hxs⟩ := List.pairwise_cons.mp hl
      obtain rfl | hlater := List.mem_cons.mp (hmem x List.mem_cons_self)
      · refine (ih htail hxs fun y hy => ?_).cons_cons _
        exact (List.mem_cons.mp (hmem y (List.mem_cons_of_mem _ hy))).resolve_left
          fun heq => (hx y hy).1 heq.symm
      · refine (ih htail hl fun y hy => ?_).cons _
        obtain rfl | hxs' := List.mem_cons.mp hy
        · exact hlater
        · refine (List.mem_cons.mp (hmem y hy)).resolve_left fun heq => ?_
          rw [heq] at hxs'
          exact ho x hlater (hx o hxs').2

/-- Operations of which each one has returned before the next is invoked are in this order. -/
theorem Linearizes.sublist (hall : Linearizes spec start h order) {l : List (Operation ω ρ)}
    (hmem : ∀ x ∈ l, x ∈ order)
    (hordered : l.Pairwise fun x y => x.id ≠ y.id ∧ Precedes h x.id y.id) : l.Sublist order :=
  @sublist_of_pairwise _ (fun x y => Precedes h x.id y.id) _ _ hall.realTime
    (hordered.imp fun ⟨hne, hprecedes⟩ => ⟨fun heq => hne (congrArg _ heq), hprecedes⟩) hmem

end

/-! ## Instants -/

/-- The updates in their order, and before each of them the queries with the number of the updates
so far. -/
def weave (queries : List (ℕ × Operation ω ρ)) (i : ℕ) :
    List (Operation ω ρ) → List (Operation ω ρ)
  | [] => (queries.filter fun q => q.1 = i).map Prod.snd
  | u :: us => (queries.filter fun q => q.1 = i).map Prod.snd ++ u :: weave queries (i + 1) us

variable {spec : Sequential σ ω ρ} {queries : List (ℕ × Operation ω ρ)}

/-- INTERNAL: the queries with one number. -/
theorem mem_queriesAt {i : ℕ} {x : Operation ω ρ} :
    x ∈ (queries.filter fun q => q.1 = i).map Prod.snd ↔ (i, x) ∈ queries := by
  constructor
  · intro hx
    obtain ⟨q, hq, rfl⟩ := List.mem_map.mp hx
    obtain ⟨hq, hi⟩ := List.mem_filter.mp hq
    rw [decide_eq_true_iff] at hi
    rwa [← hi]
  · exact fun hx => List.mem_map.mpr ⟨(i, x), List.mem_filter.mpr ⟨hx, by simp⟩, rfl⟩

/-- INTERNAL: the operations of a weave are the updates and the queries. -/
theorem mem_weave {us : List (Operation ω ρ)} {i : ℕ} {x : Operation ω ρ} :
    x ∈ weave queries i us ↔
      (∃ k : ℕ, us[k]? = some x) ∨ ∃ k, k ≤ us.length ∧ (i + k, x) ∈ queries := by
  induction us generalizing i with
  | nil =>
    rw [weave, mem_queriesAt]
    simp
  | cons u us ih =>
    rw [weave, List.mem_append, List.mem_cons, ih, mem_queriesAt]
    constructor
    · rintro (hx | rfl | ⟨k, hk⟩ | ⟨k, hk, hx⟩)
      · exact Or.inr ⟨0, Nat.zero_le _, hx⟩
      · exact Or.inl ⟨0, rfl⟩
      · exact Or.inl ⟨k + 1, hk⟩
      · exact Or.inr ⟨k + 1, Nat.succ_le_succ hk, by rwa [← Nat.add_assoc, Nat.add_right_comm]⟩
    · rintro (⟨_ | k, hk⟩ | ⟨_ | k, hk, hx⟩)
      · exact Or.inr (Or.inl (Option.some.inj hk).symm)
      · exact Or.inr (Or.inr (Or.inl ⟨k, hk⟩))
      · exact Or.inl hx
      · refine Or.inr (Or.inr (Or.inr ⟨k, Nat.le_of_succ_le_succ hk, ?_⟩))
        rwa [Nat.add_assoc, Nat.add_comm 1 k]

/-- INTERNAL: queries do not change the state. -/
theorem legal_queries {s : σ} {xs ys : List (Operation ω ρ)}
    (hxs : ∀ x ∈ xs, spec.allows s x.op x.res ∧ spec.next s x.op = s) (hys : spec.Legal s ys) :
    spec.Legal s (xs ++ ys) := by
  induction xs with
  | nil => exact hys
  | cons x xs ih =>
    obtain ⟨hallows, hsame⟩ := hxs x List.mem_cons_self
    refine ⟨hallows, ?_⟩
    rw [hsame]
    exact ih fun y hy => hxs y (List.mem_cons_of_mem _ hy)

/-- INTERNAL: the results are those of the states between the updates. -/
theorem legal_weave {us : List (Operation ω ρ)} {i : ℕ} {s : σ}
    (hus : ∀ k u, us[k]? = some u → spec.allows (spec.after s (us.take k)) u.op u.res)
    (hqueries : ∀ k x, k ≤ us.length → (i + k, x) ∈ queries →
      spec.allows (spec.after s (us.take k)) x.op x.res ∧
        spec.next (spec.after s (us.take k)) x.op = spec.after s (us.take k)) :
    spec.Legal s (weave queries i us) := by
  have hnow : ∀ x ∈ (queries.filter fun q => q.1 = i).map Prod.snd,
      spec.allows s x.op x.res ∧ spec.next s x.op = s :=
    fun x hx => hqueries 0 x (Nat.zero_le _) (mem_queriesAt.mp hx)
  induction us generalizing i s with
  | nil =>
    have hlegal := @legal_queries _ _ _ spec s _ [] hnow trivial
    rwa [List.append_nil] at hlegal
  | cons u us ih =>
    refine legal_queries hnow ⟨hus 0 u rfl, ?_⟩
    have hlater : ∀ k x, k ≤ us.length → (i + 1 + k, x) ∈ queries →
        spec.allows (spec.after (spec.next s u.op) (us.take k)) x.op x.res ∧
          spec.next (spec.after (spec.next s u.op) (us.take k)) x.op =
            spec.after (spec.next s u.op) (us.take k) := by
      intro k x hk hx
      rw [Nat.add_assoc, Nat.add_comm 1 k] at hx
      exact hqueries (k + 1) x (Nat.succ_le_succ hk) hx
    exact ih (fun k v hv => hus (k + 1) v hv) hlater
      fun x hx => hlater 0 x (Nat.zero_le _) (mem_queriesAt.mp hx)

/-- When operations take effect: `since` and `upTo` count the updates before an operation is invoked
and before it returns. -/
structure Instants (spec : Sequential σ ω ρ) (start : σ) (h : List (Event ω ρ))
    (since upTo : ℕ → ℕ) (updates : List (Operation ω ρ)) (queries : List (ℕ × Operation ω ρ)) :
    Prop where
  ordered : ∀ a b, Precedes h a b → upTo a ≤ since b
  update : ∀ k u, updates[k]? = some u →
    since u.id ≤ k ∧ (Responded h u.id → k < upTo u.id) ∧
      spec.allows (spec.after start (updates.take k)) u.op u.res
  query : ∀ k x, (k, x) ∈ queries → k ≤ updates.length ∧ since x.id ≤ k ∧ k ≤ upTo x.id ∧
    spec.allows (spec.after start (updates.take k)) x.op x.res ∧
      spec.next (spec.after start (updates.take k)) x.op = spec.after start (updates.take k)
  returns : queries.Pairwise fun p q => ¬Precedes h q.2.id p.2.id
  distinct : (updates.map Operation.id ++ queries.map fun q => q.2.id).Nodup
  invoked : ∀ x, x ∈ updates ∨ (∃ k, (k, x) ∈ queries) → .invoke x.id x.op ∈ h
  responded : ∀ id res, .respond id res ∈ h →
    ∃ x, (x ∈ updates ∨ ∃ k, (k, x) ∈ queries) ∧ x.id = id ∧ x.res = res
  counted : ∀ id, Responded h id → upTo id ≤ updates.length
  answered : ∀ q ∈ queries, Responded h q.2.id

/-- INTERNAL: the order of the instants does not contradict real time. -/
theorem pairwise_weave {h : List (Event ω ρ)} {since upTo : ℕ → ℕ}
    (hordered : ∀ a b, Precedes h a b → upTo a ≤ since b)
    (hreturns : queries.Pairwise fun p q => ¬Precedes h q.2.id p.2.id)
    {us : List (Operation ω ρ)} {i : ℕ}
    (hus : ∀ k u, us[k]? = some u → since u.id ≤ i + k ∧ (Responded h u.id → i + k < upTo u.id))
    (hqueries : ∀ k x, k ≤ us.length → (i + k, x) ∈ queries →
      since x.id ≤ i + k ∧ i + k ≤ upTo x.id) :
    (weave queries i us).Pairwise fun x y => ¬Precedes h y.id x.id := by
  have hsame : ∀ j, ((queries.filter fun q => q.1 = j).map Prod.snd).Pairwise
      fun x y => ¬Precedes h y.id x.id := fun j => List.pairwise_map.mpr (hreturns.filter _)
  induction us generalizing i with
  | nil => exact hsame i
  | cons u us ih =>
    have hlater : ∀ k x, k ≤ us.length → (i + 1 + k, x) ∈ queries →
        since x.id ≤ i + 1 + k ∧ i + 1 + k ≤ upTo x.id := by
      intro k x hk hx
      have heq : i + 1 + k = i + (k + 1) := by omega
      rw [heq] at hx ⊢
      exact hqueries (k + 1) x (Nat.succ_le_succ hk) hx
    have hmore : ∀ k v, us[k]? = some v →
        since v.id ≤ i + 1 + k ∧ (Responded h v.id → i + 1 + k < upTo v.id) := by
      intro k v hv
      have heq : i + 1 + k = i + (k + 1) := by omega
      rw [heq]
      exact hus (k + 1) v hv
    have hrest := ih hmore hlater
    -- what comes behind the update returns after it at the earliest
    have hbehind : ∀ y ∈ weave queries (i + 1) us, Responded h y.id → i + 1 ≤ upTo y.id := by
      intro y hy hres
      obtain ⟨k, hk⟩ | ⟨k, hk, hy⟩ := mem_weave.mp hy
      · have hlt := (hmore k y hk).2 hres
        omega
      · have hle := (hlater k y hk hy).2
        omega
    obtain ⟨hsince, hupTo⟩ := hus 0 u rfl
    rw [Nat.add_zero] at hsince hupTo
    refine List.pairwise_append.mpr ⟨hsame i, List.pairwise_cons.mpr ⟨?_, hrest⟩, ?_⟩
    · intro y hy hp
      have hle := hordered _ _ hp
      have hge := hbehind y hy hp.responded
      omega
    · intro x hx y hy hp
      have hle := hordered _ _ hp
      have hx := (hqueries 0 x (Nat.zero_le _) (mem_queriesAt.mp hx)).1
      obtain rfl | hy := List.mem_cons.mp hy
      · have hlt := hupTo hp.responded
        omega
      · have hge := hbehind y hy hp.responded
        omega

/-- INTERNAL: the queries with one number are different ones. -/
theorem nodup_queriesAt (hqueries : (queries.map fun q => q.2.id).Nodup) (i : ℕ) :
    (((queries.filter fun q => q.1 = i).map Prod.snd).map Operation.id).Nodup := by
  rw [List.map_map]
  exact hqueries.sublist (List.filter_sublist.map _)

/-- INTERNAL: the order has each operation once. -/
theorem nodup_weave {us : List (Operation ω ρ)} {i : ℕ}
    (hnodup : (us.map Operation.id ++ queries.map fun q => q.2.id).Nodup) :
    ((weave queries i us).map Operation.id).Nodup := by
  have hsame := nodup_queriesAt (List.nodup_append.mp hnodup).2.1
  induction us generalizing i with
  | nil => exact hsame i
  | cons u us ih =>
    obtain ⟨hupdates, hqueries, hapart⟩ := List.nodup_append.mp hnodup
    obtain ⟨hu, hus⟩ := List.nodup_cons.mp hupdates
    have hless : (us.map Operation.id ++ queries.map fun q => q.2.id).Nodup :=
      List.nodup_append.mpr ⟨hus, hqueries, fun a ha => hapart a (List.mem_cons_of_mem _ ha)⟩
    have hrest := @ih (i + 1) hless
    have hqueried : ∀ {k x}, (k, x) ∈ queries → x.id ∈ queries.map fun q => q.2.id :=
      fun hx => List.mem_map.mpr ⟨_, hx, rfl⟩
    rw [weave, List.map_append, List.map_cons]
    refine List.nodup_append.mpr ⟨hsame i, List.nodup_cons.mpr ⟨?_, hrest⟩, ?_⟩
    · intro hmem
      obtain ⟨y, hy, hid⟩ := List.mem_map.mp hmem
      obtain ⟨k, hk⟩ | ⟨k, -, hy⟩ := mem_weave.mp hy
      · exact hu (List.mem_map.mpr ⟨y, List.mem_of_getElem? hk, hid⟩)
      · exact hapart u.id List.mem_cons_self y.id (hqueried hy) hid.symm
    · intro a ha b hb hab
      obtain ⟨x, hx, rfl⟩ := List.mem_map.mp ha
      have hx := mem_queriesAt.mp hx
      obtain rfl | hb := List.mem_cons.mp hb
      · exact hapart u.id List.mem_cons_self x.id (hqueried hx) hab.symm
      · obtain ⟨y, hy, rfl⟩ := List.mem_map.mp hb
        obtain ⟨k, hk⟩ | ⟨k, -, hy⟩ := mem_weave.mp hy
        · exact hapart y.id (List.mem_map_of_mem (List.mem_cons_of_mem _
            (List.mem_of_getElem? hk))) x.id (hqueried hx) hab.symm
        · -- one query does not have two numbers
          have hone := List.inj_on_of_nodup_map hqueries hx hy hab
          have hnumber := congrArg Prod.fst hone
          dsimp only at hnumber
          omega

/-- A history with instants is linearizable. -/
theorem Instants.linearizes {start : σ} {h : List (Event ω ρ)} {since upTo : ℕ → ℕ}
    {updates : List (Operation ω ρ)} (hall : Instants spec start h since upTo updates queries) :
    Linearizes spec start h (weave queries 0 updates) where
  legal := by
    refine legal_weave (fun k u hu => (hall.update k u hu).2.2) fun k x _ hx => ?_
    rw [Nat.zero_add] at hx
    exact (hall.query k x hx).2.2.2
  distinct := nodup_weave hall.distinct
  invoked := by
    intro x hx
    obtain ⟨k, hk⟩ | ⟨k, -, hx⟩ := mem_weave.mp hx
    · exact hall.invoked x (Or.inl (List.mem_of_getElem? hk))
    · exact hall.invoked x (Or.inr ⟨_, hx⟩)
  responded := by
    intro id res hres
    obtain ⟨x, hx, hid, hsame⟩ := hall.responded id res hres
    refine ⟨x, mem_weave.mpr ?_, hid, hsame⟩
    obtain hx | ⟨k, hx⟩ := hx
    · exact Or.inl (List.mem_iff_getElem?.mp hx)
    · exact Or.inr ⟨k, (hall.query k x hx).1, by rwa [Nat.zero_add]⟩
  realTime := by
    refine pairwise_weave hall.ordered hall.returns (fun k u hu => ?_) fun k x _ hx => ?_
    · obtain ⟨hsince, hupTo, -⟩ := hall.update k u hu
      rw [Nat.zero_add]
      exact ⟨hsince, hupTo⟩
    · rw [Nat.zero_add] at hx ⊢
      obtain ⟨-, hsince, hupTo, -⟩ := hall.query k x hx
      exact ⟨hsince, hupTo⟩

/-- INTERNAL: queries leave the state. -/
theorem after_queries {s : σ} {xs ys : List (Operation ω ρ)} (hxs : ∀ x ∈ xs, spec.next s x.op = s) :
    spec.after s (xs ++ ys) = spec.after s ys := by
  induction xs with
  | nil => rfl
  | cons x xs ih =>
    have hsame : spec.after s (x :: xs ++ ys) = spec.after (spec.next s x.op) (xs ++ ys) := rfl
    rw [hsame, hxs x List.mem_cons_self]
    exact ih fun y hy => hxs y (List.mem_cons_of_mem _ hy)

/-- INTERNAL: the order leads where the updates lead. -/
theorem after_weave {us : List (Operation ω ρ)} {i : ℕ} {s : σ}
    (hqueries : ∀ k x, k ≤ us.length → (i + k, x) ∈ queries →
      spec.next (spec.after s (us.take k)) x.op = spec.after s (us.take k)) :
    spec.after s (weave queries i us) = spec.after s us := by
  have hnow : ∀ x ∈ (queries.filter fun q => q.1 = i).map Prod.snd, spec.next s x.op = s :=
    fun x hx => hqueries 0 x (Nat.zero_le _) (mem_queriesAt.mp hx)
  induction us generalizing i s with
  | nil =>
    have hsame := @after_queries _ _ _ spec s _ [] hnow
    rwa [List.append_nil] at hsame
  | cons u us ih =>
    have hlater : ∀ k x, k ≤ us.length → (i + 1 + k, x) ∈ queries →
        spec.next (spec.after (spec.next s u.op) (us.take k)) x.op =
          spec.after (spec.next s u.op) (us.take k) := by
      intro k x hk hx
      rw [Nat.add_assoc, Nat.add_comm 1 k] at hx
      exact hqueries (k + 1) x (Nat.succ_le_succ hk) hx
    rw [weave, after_queries hnow]
    exact ih hlater fun x hx => hlater 0 x (Nat.zero_le _) (mem_queriesAt.mp hx)

/-- The order leads where the updates lead. -/
theorem Instants.after {start : σ} {h : List (Event ω ρ)} {since upTo : ℕ → ℕ}
    {updates : List (Operation ω ρ)} (hall : Instants spec start h since upTo updates queries) :
    spec.after start (weave queries 0 updates) = spec.after start updates := by
  refine after_weave fun k x _ hx => ?_
  rw [Nat.zero_add] at hx
  exact (hall.query k x hx).2.2.2.2

/-! ## Instants of a longer history -/

section
variable {start : σ} {h : List (Event ω ρ)} {since upTo : ℕ → ℕ} {updates : List (Operation ω ρ)}

/-- Nothing has happened. -/
theorem Instants.nil : Instants spec start [] since upTo [] [] where
  ordered _ _ hp := by
    obtain ⟨_, hmem⟩ := hp.responded
    cases hmem
  update _ _ hu := by cases hu
  query _ _ hx := by cases hx
  returns := List.Pairwise.nil
  distinct := List.nodup_nil
  invoked _ hx := by
    obtain hx | ⟨_, hx⟩ := hx <;> cases hx
  responded _ _ hres := by cases hres
  counted _ hres := by
    obtain ⟨_, hmem⟩ := hres
    cases hmem
  answered _ hq := by cases hq

/-- INTERNAL: what is in the order has been invoked. -/
theorem Instants.invoked_update (hall : Instants spec start h since upTo updates queries) {k : ℕ}
    {u : Operation ω ρ} (hu : updates[k]? = some u) : Invoked h u.id :=
  ⟨u.op, hall.invoked u (Or.inl (List.mem_of_getElem? hu))⟩

/-- INTERNAL: every query was invoked. -/
theorem Instants.invoked_query (hall : Instants spec start h since upTo updates queries)
    {q : ℕ × Operation ω ρ} (hq : q ∈ queries) : Invoked h q.2.id :=
  ⟨q.2.op, hall.invoked q.2 (Or.inr ⟨q.1, hq⟩)⟩

/-- What has not been invoked has left nothing. -/
theorem Instants.fresh (hall : Instants spec start h since upTo updates queries) {id : ℕ}
    (hfresh : ¬Invoked h id) : ¬Responded h id ∧ id ∉ updates.map Operation.id := by
  constructor
  · rintro ⟨res, hres⟩
    obtain ⟨x, hx, rfl, -⟩ := hall.responded id res hres
    exact hfresh ⟨x.op, hall.invoked x hx⟩
  · intro hmem
    obtain ⟨u, hu, rfl⟩ := List.mem_map.mp hmem
    exact hfresh ⟨u.op, hall.invoked u (Or.inl hu)⟩

/-- An operation begins after the updates so far. -/
theorem Instants.invoke (hall : Instants spec start h since upTo updates queries) {id : ℕ}
    (op : ω) (hfresh : ¬Invoked h id) :
    Instants spec start (h ++ [.invoke id op]) (Function.update since id updates.length) upTo
      updates queries := by
  have hother : ∀ {a}, Invoked h a → a ≠ id := fun ha heq => hfresh (heq ▸ ha)
  have hsince : ∀ {a}, Invoked h a → Function.update since id updates.length a = since a :=
    fun ha => Function.update_of_ne (hother ha) _ _
  refine ⟨fun a b hp => ?_, fun k u hu => ?_, fun k x hx => ?_, ?_, hall.distinct, fun x hx => ?_,
    fun a res hres => ?_, fun a hres => ?_, fun q hq => ?_⟩
  · obtain hp | ⟨hres, rfl⟩ := precedes_snoc_invoke.mp hp
    · rw [hsince hp.invoked]
      exact hall.ordered a b hp
    · rw [Function.update_self]
      exact hall.counted a hres
  · rw [hsince (hall.invoked_update hu), responded_snoc_invoke]
    exact hall.update k u hu
  · rw [hsince (hall.invoked_query hx)]
    exact hall.query k x hx
  · refine hall.returns.imp_of_mem fun hp _ hnot hprecedes => ?_
    obtain hprecedes | ⟨-, heq⟩ := precedes_snoc_invoke.mp hprecedes
    · exact hnot hprecedes
    · exact hother (hall.invoked_query hp) heq
  · exact List.mem_append_left _ (hall.invoked x hx)
  · obtain hres | hres := List.mem_append.mp hres
    · exact hall.responded a res hres
    · cases List.mem_singleton.mp hres
  · exact hall.counted a (responded_snoc_invoke.mp hres)
  · exact responded_snoc_invoke.mpr (hall.answered q hq)

/-- An operation that has begun takes effect. -/
theorem Instants.take_effect (hall : Instants spec start h since upTo updates queries)
    {u : Operation ω ρ} (hinvoked : .invoke u.id u.op ∈ h) (hopen : ¬Responded h u.id)
    (hnew : u.id ∉ updates.map Operation.id) (hsince : since u.id ≤ updates.length)
    (hallows : spec.allows (spec.after start updates) u.op u.res) :
    Instants spec start h since upTo (updates ++ [u]) queries := by
  have htake : ∀ k, k ≤ updates.length → (updates ++ [u]).take k = updates.take k :=
    fun k hk => List.take_append_of_le_length hk
  have hlength : (updates ++ [u]).length = updates.length + 1 := by
    rw [List.length_append, List.length_singleton]
  refine ⟨hall.ordered, fun k v hv => ?_, fun k x hx => ?_, hall.returns, ?_, fun x hx => ?_,
    fun a res hres => ?_, fun a hres => ?_, hall.answered⟩
  · obtain hlt | hge := Nat.lt_or_ge k updates.length
    · rw [List.getElem?_append_left hlt] at hv
      rw [htake k (Nat.le_of_lt hlt)]
      exact hall.update k v hv
    · rw [List.getElem?_append_right hge] at hv
      have hone := (List.getElem?_eq_some_iff.mp hv).1
      rw [List.length_singleton] at hone
      obtain rfl : k = updates.length := by omega
      rw [Nat.sub_self] at hv
      obtain rfl : u = v := Option.some.inj hv
      rw [htake _ (Nat.le_refl _), List.take_length]
      exact ⟨hsince, fun hres => absurd hres hopen, hallows⟩
  · obtain ⟨hk, hrest⟩ := hall.query k x hx
    rw [htake k hk, hlength]
    exact ⟨Nat.le_succ_of_le hk, hrest⟩
  · obtain ⟨hupdates, hqueries, hapart⟩ := List.nodup_append.mp hall.distinct
    rw [List.map_append]
    refine List.nodup_append.mpr ⟨?_, hqueries, fun a ha b hb hab => ?_⟩
    · refine List.nodup_append.mpr ⟨hupdates, List.nodup_singleton _, fun a ha b hb hab => ?_⟩
      obtain rfl := List.mem_singleton.mp hb
      exact hnew (hab ▸ ha)
    · obtain ha | ha := List.mem_append.mp ha
      · exact hapart a ha b hb hab
      · obtain rfl := List.mem_singleton.mp ha
        obtain ⟨q, hq, rfl⟩ := List.mem_map.mp hb
        exact hopen (hab ▸ hall.answered q hq)
  · obtain hx | hx := hx
    · obtain hx | hx := List.mem_append.mp hx
      · exact hall.invoked x (Or.inl hx)
      · obtain rfl := List.mem_singleton.mp hx
        exact hinvoked
    · exact hall.invoked x (Or.inr hx)
  · obtain ⟨x, hx, hsame⟩ := hall.responded a res hres
    exact ⟨x, hx.imp_left (List.mem_append_left _), hsame⟩
  · rw [hlength]
    exact Nat.le_succ_of_le (hall.counted a hres)

section
variable {x : Operation ω ρ}

/-- INTERNAL: what concerns an operation that has not returned yet. -/
theorem update_of_responded {a : ℕ} (hopen : ¬Responded h x.id) (hres : Responded h a) (n : ℕ) :
    Function.update upTo x.id n a = upTo a := by
  have hne : a ≠ x.id := fun heq => hopen (heq ▸ hres)
  exact Function.update_of_ne hne _ _

/-- INTERNAL: the instants after a response, but for the queries. -/
theorem Instants.respond (hall : Instants spec start h since upTo updates queries)
    (hopen : ¬Responded h x.id) :
    (∀ a b, Precedes (h ++ [.respond x.id x.res]) a b →
      Function.update upTo x.id updates.length a ≤ since b) ∧
    (∀ k u, updates[k]? = some u → since u.id ≤ k ∧
      (Responded (h ++ [.respond x.id x.res]) u.id →
        k < Function.update upTo x.id updates.length u.id) ∧
      spec.allows (spec.after start (updates.take k)) u.op u.res) ∧
    (∀ k y, (k, y) ∈ queries → k ≤ updates.length ∧ since y.id ≤ k ∧
      k ≤ Function.update upTo x.id updates.length y.id ∧
      spec.allows (spec.after start (updates.take k)) y.op y.res ∧
        spec.next (spec.after start (updates.take k)) y.op = spec.after start (updates.take k)) ∧
    ∀ a, Responded (h ++ [.respond x.id x.res]) a →
      Function.update upTo x.id updates.length a ≤ updates.length := by
  refine ⟨fun a b hp => ?_, fun k u hu => ?_, fun k y hy => ?_, fun a hres => ?_⟩
  · have hp := precedes_snoc_respond.mp hp
    rw [update_of_responded hopen hp.responded]
    exact hall.ordered a b hp
  · obtain ⟨hsince, hupTo, hallows⟩ := hall.update k u hu
    refine ⟨hsince, fun hres => ?_, hallows⟩
    obtain hres | heq := responded_snoc_respond.mp hres
    · rw [update_of_responded hopen hres]
      exact hupTo hres
    · rw [heq, Function.update_self]
      exact (List.getElem?_eq_some_iff.mp hu).1
  · rw [update_of_responded hopen (hall.answered _ hy)]
    exact hall.query k y hy
  · obtain hres | rfl := responded_snoc_respond.mp hres
    · rw [update_of_responded hopen hres]
      exact hall.counted a hres
    · exact Nat.le_of_eq (Function.update_self ..)

/-- An update returns. -/
theorem Instants.respond_update (hall : Instants spec start h since upTo updates queries)
    (hx : x ∈ updates) (hopen : ¬Responded h x.id) :
    Instants spec start (h ++ [.respond x.id x.res]) since
      (Function.update upTo x.id updates.length) updates queries := by
  obtain ⟨hordered, hupdate, hquery, hcounted⟩ := hall.respond hopen
  refine ⟨hordered, hupdate, hquery, ?_, hall.distinct, fun y hy => ?_, fun a res hres => ?_,
    hcounted, fun q hq => ?_⟩
  · exact hall.returns.imp fun hnot hp => hnot (precedes_snoc_respond.mp hp)
  · exact List.mem_append_left _ (hall.invoked y hy)
  · obtain hres | hres := List.mem_append.mp hres
    · exact hall.responded a res hres
    · cases List.mem_singleton.mp hres
      exact ⟨x, Or.inl hx, rfl, rfl⟩
  · exact responded_snoc_respond.mpr (Or.inl (hall.answered q hq))

/-- A query returns, with the result after the first `k` updates. -/
theorem Instants.respond_query (hall : Instants spec start h since upTo updates queries) {k : ℕ}
    (hinvoked : .invoke x.id x.op ∈ h) (hopen : ¬Responded h x.id)
    (hnew : x.id ∉ updates.map Operation.id) (hsince : since x.id ≤ k) (hk : k ≤ updates.length)
    (hallows : spec.allows (spec.after start (updates.take k)) x.op x.res)
    (hsame : spec.next (spec.after start (updates.take k)) x.op =
      spec.after start (updates.take k)) :
    Instants spec start (h ++ [.respond x.id x.res]) since
      (Function.update upTo x.id updates.length) updates (queries ++ [(k, x)]) := by
  obtain ⟨hordered, hupdate, hquery, hcounted⟩ := hall.respond hopen
  refine ⟨hordered, hupdate, fun j y hy => ?_, ?_, ?_, fun y hy => ?_, fun a res hres => ?_,
    hcounted, fun q hq => ?_⟩
  · obtain hy | hy := List.mem_append.mp hy
    · exact hquery j y hy
    · cases List.mem_singleton.mp hy
      rw [Function.update_self]
      exact ⟨hk, hsince, hk, hallows, hsame⟩
  · refine List.pairwise_append.mpr ⟨?_, List.pairwise_singleton _ _, fun p _ q hq hp => ?_⟩
    · exact hall.returns.imp fun hnot hp => hnot (precedes_snoc_respond.mp hp)
    · cases List.mem_singleton.mp hq
      exact hopen (precedes_snoc_respond.mp hp).responded
  · rw [List.map_append, ← List.append_assoc]
    refine List.nodup_append.mpr ⟨hall.distinct, List.nodup_singleton _, fun a ha b hb hab => ?_⟩
    rw [List.mem_singleton.mp hb] at hab
    obtain ha | ha := List.mem_append.mp ha
    · rw [hab] at ha
      exact hnew ha
    · obtain ⟨q, hq, rfl⟩ := List.mem_map.mp ha
      have hres := hall.answered q hq
      rw [hab] at hres
      exact hopen hres
  · refine List.mem_append_left _ ?_
    obtain hy | ⟨j, hy⟩ := hy
    · exact hall.invoked y (Or.inl hy)
    · obtain hy | hy := List.mem_append.mp hy
      · exact hall.invoked y (Or.inr ⟨j, hy⟩)
      · cases List.mem_singleton.mp hy
        exact hinvoked
  · obtain hres | hres := List.mem_append.mp hres
    · obtain ⟨y, hy, hfound⟩ := hall.responded a res hres
      exact ⟨y, hy.imp_right fun ⟨j, hy⟩ => ⟨j, List.mem_append_left _ hy⟩, hfound⟩
    · cases List.mem_singleton.mp hres
      exact ⟨x, Or.inr ⟨k, List.mem_append_right _ (List.mem_singleton_self _)⟩, rfl, rfl⟩
  · obtain hq | hq := List.mem_append.mp hq
    · exact responded_snoc_respond.mpr (Or.inl (hall.answered q hq))
    · cases List.mem_singleton.mp hq
      exact responded_snoc_respond.mpr (Or.inr rfl)

end

end

end Rkvs.Library.History
