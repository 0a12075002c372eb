import Mathlib.Data.List.Destutter
import SelectionModels.TypeRef

/-! # Layers of a type

A type reference is a leaf under steps, each of which is a list or a nullable layer. A nullable
layer around another one says nothing new, and that is all of the steps that is lost when a
reference is resolved: the type tells its leaf's name and the steps, with every run of nullable ones
taken as one.

* `Wrap.collapse`: the steps with every run of nullable ones taken as one;
* `TypeName.ofSteps_steps`: a type is its core under its steps;
* `TypeRef.resolve_eq_iff`: the references that are resolved alike;
* `resolve_forgets`: what is lost, and what every layer of the result comes from.
-/

namespace SelectionModels

namespace Wrap

/-- A step says something beside the one inside it unless both are nullable layers. -/
def CountsAfter (w w' : Wrap) : Prop :=
  ¬(w = .nullable ∧ w' = .nullable)

instance : DecidableRel CountsAfter :=
  fun w w' => inferInstanceAs (Decidable ¬(w = .nullable ∧ w' = .nullable))

/-- The steps with every run of nullable ones taken as one. -/
def collapse (steps : List Wrap) : List Wrap :=
  steps.destutter CountsAfter

/-- Some nullable layer is right around the layer with the given number, that is, among the steps it
stands behind just so many lists. The leaf is number zero. -/
def MarksLayer (n : Nat) (steps : List Wrap) : Prop :=
  ∃ before, before ++ [nullable] <+: steps ∧ before.count list = n

theorem marksLayer_concat_iff {n : Nat} {steps : List Wrap} {w : Wrap} :
    MarksLayer n (steps ++ [w]) ↔
      MarksLayer n steps ∨ w = nullable ∧ steps.count list = n := by
  constructor
  · rintro ⟨before, hbefore, hcount⟩
    rcases List.prefix_concat_iff.mp hbefore with heq | hbefore
    · rcases List.append_inj' heq rfl with ⟨rfl, hw⟩
      exact .inr ⟨(List.singleton_inj.mp hw).symm, hcount⟩
    · exact .inl ⟨before, hbefore, hcount⟩
  · rintro (⟨before, hbefore, hcount⟩ | ⟨rfl, hcount⟩)
    · exact ⟨before, hbefore.trans (List.prefix_append _ _), hcount⟩
    · exact ⟨steps, List.prefix_rfl, hcount⟩

end Wrap

namespace TypeName

/-! ## Types and their steps -/

/-- A type after one more step. -/
def wrap (t : TypeName) : Wrap → TypeName
  | .nullable => t.withNullable true
  | .list => listOf t

/-- The name under all lists. -/
def core : TypeName → QualifiedName
  | .named name _ => name
  | .list element _ => element.core

/-- How many lists there are around the core. -/
def lists : TypeName → Nat
  | .named _ _ => 0
  | .list element _ => element.lists + 1

/-- The step that marks a layer, if it is marked. -/
def markSteps (nullable : Bool) : List Wrap :=
  if nullable then [.nullable] else []

/-- The steps from the core to the type, the first one first. -/
def steps : TypeName → List Wrap
  | .named _ nullable => markSteps nullable
  | .list element nullable => element.steps ++ .list :: markSteps nullable

/-- A name under the given steps. -/
def ofSteps (name : QualifiedName) (steps : List Wrap) : TypeName :=
  steps.foldl wrap (ofName name)

/-- A type is its core under its steps. -/
theorem ofSteps_steps (t : TypeName) : ofSteps t.core t.steps = t := by
  induction t with
  | named name nullable => cases nullable <;> rfl
  | list element nullable ih =>
    have helement : element.steps.foldl wrap (ofName element.core) = element := ih
    simp only [ofSteps, core, steps, List.foldl_append, List.foldl_cons, helement]
    cases nullable <;> rfl

theorem eq_of_core_of_steps {t t' : TypeName} (hcore : t.core = t'.core)
    (hsteps : t.steps = t'.steps) : t = t' := by
  rw [← ofSteps_steps t, ← ofSteps_steps t', hcore, hsteps]

theorem core_wrap (t : TypeName) (w : Wrap) : (t.wrap w).core = t.core := by
  cases w <;> cases t <;> rfl

theorem core_foldl_wrap (t : TypeName) (ws : List Wrap) : (ws.foldl wrap t).core = t.core := by
  induction ws generalizing t with
  | nil => rfl
  | cons w ws ih => rw [List.foldl_cons, ih, core_wrap]

/-- A step is told from the type unless it marks what is marked already. -/
theorem steps_wrap {t : TypeName} {w : Wrap} (h : w = .nullable → t.isNullable = false) :
    (t.wrap w).steps = t.steps ++ [w] := by
  cases w with
  | list => rfl
  | nullable =>
    have hmark : t.isNullable = false := h rfl
    cases t with
    | named name nullable =>
      obtain rfl : nullable = false := hmark
      rfl
    | list element nullable =>
      obtain rfl : nullable = false := hmark
      simp [wrap, withNullable, steps, markSteps]

theorem steps_foldl_wrap (ws : List Wrap) {t : TypeName} {w : Wrap}
    (h : w = .nullable → t.isNullable = false) :
    (ws.foldl wrap (t.wrap w)).steps = t.steps ++ ws.destutter' Wrap.CountsAfter w := by
  induction ws generalizing t w with
  | nil => exact steps_wrap h
  | cons w' ws ih =>
    rw [List.foldl_cons]
    by_cases hcounts : Wrap.CountsAfter w w'
    · have hmark : w' = .nullable → (t.wrap w).isNullable = false := by
        rintro rfl
        cases w with
        | list => rfl
        | nullable => exact absurd ⟨rfl, rfl⟩ hcounts
      rw [ih hmark, steps_wrap h, List.destutter'_cons_pos _ hcounts, List.append_assoc,
        List.singleton_append]
    · -- the second of two nullable layers
      obtain ⟨rfl, rfl⟩ : w = .nullable ∧ w' = .nullable := not_not.mp hcounts
      have htwice : (t.wrap .nullable).wrap .nullable = t.wrap .nullable :=
        withNullable_withNullable true true t
      rw [htwice, ih h, List.destutter'_cons_neg _ hcounts]

theorem steps_ofSteps (name : QualifiedName) (ws : List Wrap) :
    (ofSteps name ws).steps = Wrap.collapse ws := by
  cases ws with
  | nil => rfl
  | cons w ws => exact steps_foldl_wrap ws fun _ => rfl

theorem count_list_steps (t : TypeName) : t.steps.count .list = t.lists := by
  have hmark : ∀ nullable, (markSteps nullable).count Wrap.list = 0 := by decide
  induction t with
  | named name nullable => exact hmark nullable
  | list element nullable ih => simp [steps, lists, ih, hmark]

/-! ## The layers of a type -/

/-- The core of a type and every list around it, from the inside out. -/
def layers : TypeName → List TypeName
  | .named name nullable => [.named name nullable]
  | .list element nullable => element.layers ++ [.list element nullable]

/-- The layers of a type but the outermost one. -/
def innerLayers : TypeName → List TypeName
  | .named _ _ => []
  | .list element _ => element.layers

theorem layers_withNullable (t : TypeName) (nullable : Bool) :
    (t.withNullable nullable).layers = t.innerLayers ++ [t.withNullable nullable] := by
  cases t <;> rfl

theorem layers_eq (t : TypeName) : t.layers = t.innerLayers ++ [t] := by
  cases t <;> rfl

theorem length_innerLayers (t : TypeName) : t.innerLayers.length = t.lists := by
  induction t with
  | named name nullable => rfl
  | list element nullable ih =>
    rw [innerLayers, layers_eq, List.length_append, ih]
    rfl

end TypeName

/-- What a list has at a place when something is put behind it. -/
theorem any_getElem?_concat_iff {α : Type} {p : α → Bool} {xs : List α} {x : α} {n : Nat} :
    (xs ++ [x])[n]?.any p = true ↔ xs[n]?.any p = true ∨ n = xs.length ∧ p x = true := by
  rcases Nat.lt_trichotomy n xs.length with hlt | rfl | hgt
  · simp [List.getElem?_append_left hlt, hlt.ne]
  · simp
  · have hnone : (xs ++ [x])[n]? = none := by
      rw [List.getElem?_eq_none_iff, List.length_append, List.length_singleton]
      omega
    simp [hnone, List.getElem?_eq_none_iff.mpr hgt.le, hgt.ne']

namespace TypeRef

/-! ## Resolving -/

theorem resolve_eq_ofSteps (a : TypeRef) :
    a.resolve = TypeName.ofSteps a.leaf.typeName a.wraps := by
  have hlast : ∀ ws w, TypeName.ofSteps a.leaf.typeName (ws ++ [w]) =
      (TypeName.ofSteps a.leaf.typeName ws).wrap w := by
    simp [TypeName.ofSteps]
  induction a with
  | named leaf => rfl
  | nullable inner ih => rw [wraps, hlast, resolve, ih hlast]; rfl
  | list inner ih => rw [wraps, hlast, resolve, ih hlast]; rfl

theorem core_resolve (a : TypeRef) : a.resolve.core = a.leaf.typeName := by
  rw [resolve_eq_ofSteps]
  exact TypeName.core_foldl_wrap _ _

theorem steps_resolve (a : TypeRef) : a.resolve.steps = Wrap.collapse a.wraps := by
  rw [resolve_eq_ofSteps, TypeName.steps_ofSteps]

/-- References are resolved alike if their leaves have one name and their steps are the same, every
run of nullable ones taken as one. -/
theorem resolve_eq_iff (a b : TypeRef) :
    a.resolve = b.resolve ↔ a.leaf.typeName = b.leaf.typeName ∧
      Wrap.collapse a.wraps = Wrap.collapse b.wraps := by
  rw [← core_resolve, ← core_resolve, ← steps_resolve, ← steps_resolve]
  constructor
  · intro h
    rw [h]
    exact ⟨rfl, rfl⟩
  · rintro ⟨hcore, hsteps⟩
    exact TypeName.eq_of_core_of_steps hcore hsteps

theorem lists_resolve (a : TypeRef) : a.resolve.lists = a.wraps.count .list := by
  have hmark : ∀ t : TypeName, (t.withNullable true).lists = t.lists := by
    intro t
    cases t <;> rfl
  induction a with
  | named leaf => rfl
  | nullable inner ih => simp [resolve, wraps, hmark, ih]
  | list inner ih => simp [resolve, wraps, TypeName.listOf, TypeName.lists, ih]

/-- A layer is marked in the result if some nullable layer is right around it in the reference. -/
theorem isNullable_layers_resolve_iff (a : TypeRef) (n : Nat) :
    a.resolve.layers[n]?.any TypeName.isNullable = true ↔ Wrap.MarksLayer n a.wraps := by
  induction a with
  | named leaf =>
    have hnone : ¬Wrap.MarksLayer n [] := by
      rintro ⟨before, hbefore, -⟩
      exact List.append_ne_nil_of_right_ne_nil _ (by simp) (List.prefix_nil.mp hbefore)
    cases n <;> simpa [resolve, TypeName.layers, TypeName.ofName, TypeName.isNullable, wraps]
  | nullable inner ih =>
    have hlength : inner.resolve.innerLayers.length = inner.wraps.count .list := by
      rw [TypeName.length_innerLayers, lists_resolve]
    rw [TypeName.layers_eq, any_getElem?_concat_iff, hlength] at ih
    rw [resolve, TypeName.layers_withNullable, any_getElem?_concat_iff, hlength, wraps,
      Wrap.marksLayer_concat_iff, ← ih]
    -- the outermost layer is marked now, whether or not it was before
    simp only [TypeName.isNullable_withNullable]
    tauto
  | list inner ih =>
    rw [resolve, TypeName.listOf, TypeName.layers, any_getElem?_concat_iff, ih, wraps,
      Wrap.marksLayer_concat_iff]
    simp [TypeName.isNullable]

end TypeRef

/-- What is lost by resolving: references are resolved alike just if their leaves have one name and
their steps are the same, every run of nullable ones taken as one. The result has the lists of the
reference, its layers are marked that have a nullable layer right around them in the reference, and
the raw type is what is at its core, without a mark. -/
theorem resolve_forgets (a b : TypeRef) :
    (a.resolve = b.resolve ↔ a.leaf.typeName = b.leaf.typeName ∧
      Wrap.collapse a.wraps = Wrap.collapse b.wraps) ∧
    a.resolve.lists = a.wraps.count .list ∧
    (∀ n, a.resolve.layers[n]?.any TypeName.isNullable = true ↔ Wrap.MarksLayer n a.wraps) ∧
    a.resolveRaw = .named a.resolve.core false := by
  refine ⟨a.resolve_eq_iff b, a.lists_resolve, a.isNullable_layers_resolve_iff, ?_⟩
  rw [a.core_resolve]
  rfl

/-- Two nullable layers around the leaf mark it once, and one around the list marks the list. -/
example : (TypeRef.nullable (.list (.nullable (.nullable (.named .int))))).resolve.steps =
    [.nullable, .list, .nullable] := by decide

end SelectionModels
