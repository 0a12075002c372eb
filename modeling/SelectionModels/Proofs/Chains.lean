import Mathlib.Data.List.Forall2

/-! # Chains that may fail

A chain of computations comes to a value when every one of them does. These are the steps by which
chains are opened.

* `bind_eq_ok_iff`, `map_eq_ok_iff`: one step;
* `mapM_eq_ok_iff`, `exists_forall₂_iff`, `exists_forall₂_comp_iff`: what is done one by one;
* `forall₂_map_ok_iff`: results that are turned into values one by one;
* `outcome`: what a chain comes to that does nothing but fail or succeed.
-/

namespace SelectionModels

variable {ε ε' α β γ : Type}

/-- A computation with two steps succeeds when both do. -/
theorem bind_eq_ok_iff {x : Except ε α} {f : α → Except ε β} {b : β} :
    x >>= f = .ok b ↔ ∃ a, x = .ok a ∧ f a = .ok b := by
  cases x with
  | error e => simp [bind, Except.bind]
  | ok a => simp [bind, Except.bind]

/-- What is made of a result is there if the result is. -/
theorem map_eq_ok_iff {f : α → β} {x : Except ε α} {b : β} :
    f <$> x = .ok b ↔ ∃ a, x = .ok a ∧ f a = b := by
  cases x <;> simp

/-! ## Lists of results -/

/-- A list of results is there when each of them is. -/
theorem mapM_eq_ok_iff {f : α → Except ε β} {xs : List α} {ys : List β} :
    xs.mapM f = .ok ys ↔ List.Forall₂ (fun x y => f x = .ok y) xs ys := by
  induction xs generalizing ys with
  | nil => cases ys <;> simp [pure, Except.pure]
  | cons x xs ih =>
    simp only [List.mapM_cons, bind_eq_ok_iff, ih, pure, Except.pure, Except.ok.injEq]
    constructor
    · rintro ⟨y, hy, rest, hrest, rfl⟩
      exact .cons hy hrest
    · rintro (_ | ⟨hy, hrest⟩)
      exact ⟨_, hy, _, hrest, rfl⟩

/-- Things are related to a list, one by one, if each of them is related to something. -/
theorem exists_forall₂_iff {R : α → β → Prop} {xs : List α} :
    (∃ ys, List.Forall₂ R xs ys) ↔ ∀ x ∈ xs, ∃ y, R x y := by
  induction xs with
  | nil => simp
  | cons x xs ih =>
    rw [List.forall_mem_cons, ← ih]
    constructor
    · rintro ⟨_, h⟩
      cases h with
      | cons hx hxs => exact ⟨⟨_, hx⟩, _, hxs⟩
    · rintro ⟨⟨y, hy⟩, ys, hys⟩
      exact ⟨y :: ys, .cons hy hys⟩

/-- A list of results is not there if one of them is not. -/
theorem exists_mapM_eq_error {f : α → Except ε β} {xs : List α} {x : α} {e : ε} (hx : x ∈ xs)
    (h : f x = .error e) : ∃ e', xs.mapM f = .error e' := by
  induction xs with
  | nil => cases hx
  | cons y xs ih =>
    rw [List.mapM_cons]
    cases hy : f y with
    | error e' => exact ⟨e', rfl⟩
    | ok b =>
      rcases List.mem_cons.mp hx with rfl | hx
      · rw [h] at hy
        cases hy
      · obtain ⟨e', he'⟩ := ih hx
        exact ⟨e', by rw [he']; rfl⟩

/-- What is done one by one in two rounds may be done in one. -/
theorem exists_forall₂_comp_iff {R : α → β → Prop} {S : β → γ → Prop} {xs : List α}
    {zs : List γ} : (∃ ys, List.Forall₂ R xs ys ∧ List.Forall₂ S ys zs) ↔
      List.Forall₂ (fun x z => ∃ y, R x y ∧ S y z) xs zs := by
  constructor
  · rintro ⟨ys, hR, hS⟩
    induction hR generalizing zs with
    | nil => cases hS; exact .nil
    | cons hxy _ ih =>
      cases hS with
      | cons hyz hS => exact .cons ⟨_, hxy, hyz⟩ (ih hS)
  · intro h
    induction h with
    | nil => exact ⟨[], .nil, .nil⟩
    | cons hxz _ ih =>
      obtain ⟨y, hxy, hyz⟩ := hxz
      obtain ⟨ys, hR, hS⟩ := ih
      exact ⟨y :: ys, .cons hxy hR, .cons hyz hS⟩

/-- Results that are turned into values one by one. -/
theorem forall₂_map_ok_iff {f : α → Except ε β} {g : β → γ} {xs : List α}
    {vs : List γ} : List.Forall₂ (fun x v => g <$> f x = .ok v) xs vs ↔
      ∃ ys, List.Forall₂ (fun x y => f x = .ok y) xs ys ∧ ys.map g = vs := by
  simp only [map_eq_ok_iff, ← exists_forall₂_comp_iff]
  refine exists_congr fun ys => and_congr_right fun _ => ?_
  rw [← List.forall₂_map_left_iff, List.forall₂_eq_eq_eq]

/-- A property of all that is in some lists is one of what is in each of them. -/
theorem forall₂_and_flatten_iff {R : α → List β → Prop} {P : β → Prop} {xs : List α}
    {yss : List (List β)} : List.Forall₂ (fun x ys => R x ys ∧ ∀ y ∈ ys, P y) xs yss ↔
      List.Forall₂ R xs yss ∧ ∀ y ∈ yss.flatten, P y := by
  induction xs generalizing yss with
  | nil => cases yss <;> simp
  | cons x xs ih =>
    cases yss with
    | nil => simp
    | cons ys yss =>
      simp only [List.forall₂_cons, ih, List.flatten_cons, List.forall_mem_append]
      tauto

/-! ## Chains on a store

A chain that only looks at a store is written over a monad in which looking does nothing. -/

/-- What a computation on a store comes to. -/
def outcome (x : ExceptT ε Id α) : Except ε α :=
  Id.run x.run

@[simp] theorem outcome_pure (a : α) : outcome (pure a : ExceptT ε Id α) = .ok a := rfl

@[simp] theorem outcome_throw (e : ε) : outcome (throw e : ExceptT ε Id α) = .error e := rfl

/-- Steps in sequence, by what each of them comes to. -/
theorem outcome_bind (x : ExceptT ε Id α) (f : α → ExceptT ε Id β) :
    outcome (x >>= f) = outcome x >>= fun a => outcome (f a) := by
  simp only [outcome, ExceptT.run_bind, Id.run_bind]
  cases x.run.run <;> rfl

theorem outcome_bind_eq_ok_iff {x : ExceptT ε Id α} {f : α → ExceptT ε Id β} {b : β} :
    outcome (x >>= f) = .ok b ↔ ∃ a, outcome x = .ok a ∧ outcome (f a) = .ok b := by
  rw [outcome_bind, bind_eq_ok_iff]

/-- A cause is told in other words. -/
theorem outcome_adapt (x : ExceptT ε Id α) (f : ε → ε') :
    outcome (x.adapt f) = (outcome x).mapError f := rfl

theorem outcome_adapt_eq_ok_iff {x : ExceptT ε Id α} {f : ε → ε'} {a : α} :
    outcome (x.adapt f) = .ok a ↔ outcome x = .ok a := by
  rw [outcome_adapt]
  cases outcome x <;> simp [Except.mapError]

/-- Going through a list, by what each step comes to. -/
theorem outcome_mapM (f : α → ExceptT ε Id β) (xs : List α) :
    outcome (xs.mapM f) = xs.mapM fun x => outcome (f x) := by
  induction xs with
  | nil => rfl
  | cons x xs ih => simp only [List.mapM_cons, outcome_bind, outcome_pure, ih]; rfl

end SelectionModels
