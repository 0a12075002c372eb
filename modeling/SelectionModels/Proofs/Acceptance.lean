import Mathlib.Data.List.Pairwise
import SelectionModels.Proofs.Emission
import SelectionModels.Proofs.Verdict

/-! # Accepted documents

A document is accepted exactly when its scalars pass, each of its obligations holds on its own, and
any two of them go together. Only paths can fail to go together: a path that is owed twice has to be
owed in different trees and for equal field sets. The order of the obligations does not matter.

* `firstFailure?_eq_none_iff`: when no obligation of a list fails;
* `Document.check_eq_ok_iff`: when a document is accepted;
* `Document.nodup_path_of_check`: an accepted tree emits every path once;
* `Document.eq_of_path_of_check`: an accepted document emits equal field sets on equal paths.
-/

namespace SelectionModels

/-! ## Obligations that do not fail -/

/-- The obligation holds, whatever else is owed. -/
def Obligation.Holds (scalars : List CustomScalar) : Obligation → Prop
  | .leaf l => l.failure? scalars = none
  | .path _ _ => True
  | .responseNames s => s.repeatedName? = none

/-- If both obligations are for one path, they are of different trees and for equal field sets. -/
def Compatible (x y : Nat × Obligation) : Prop :=
  ∀ s kind s' kind', x.2 = .path s kind → y.2 = .path s' kind' → s.path = s'.path →
    x.1 ≠ y.1 ∧ s = s'

instance : Std.Symm Compatible where
  symm := by
    intro x y h s kind s' kind' hx hy hpath
    obtain ⟨htree, hs⟩ := h s' kind' s kind hy hx hpath.symm
    exact ⟨htree.symm, hs.symm⟩

theorem compatible_path_iff {x : Nat × Obligation} {tree : Nat} {s : FieldSet} {kind : Kind} :
    Compatible x (tree, .path s kind) ↔ s.clashes tree x = false := by
  obtain ⟨tree', o⟩ := x
  cases o with
  | path s' kind' =>
    simp only [Compatible, Obligation.path.injEq, FieldSet.clashes, Bool.and_eq_false_iff,
      Bool.or_eq_false_iff, decide_eq_false_iff_not]
    constructor
    · intro h
      by_cases hpath : s'.path = s.path
      · obtain ⟨htree, hs⟩ := h s' kind' s kind ⟨rfl, rfl⟩ ⟨rfl, rfl⟩ hpath
        exact Or.inr ⟨htree, not_not_intro hs⟩
      · exact Or.inl hpath
    · rintro h _ _ _ _ ⟨rfl, rfl⟩ ⟨rfl, rfl⟩ hpath
      rcases h with hne | ⟨htree, hs⟩
      · exact absurd hpath hne
      · exact ⟨htree, not_not.mp hs⟩
  | leaf l => simp [Compatible, FieldSet.clashes]
  | responseNames s' => simp [Compatible, FieldSet.clashes]

theorem failure?_eq_none_iff {scalars : List CustomScalar} {earlier : List (Nat × Obligation)}
    {tree : Nat} {o : Obligation} :
    o.failure? scalars earlier tree = none ↔
      o.Holds scalars ∧ ∀ e ∈ earlier, Compatible e (tree, o) := by
  cases o with
  | leaf l => simp [Obligation.failure?, Obligation.Holds, Compatible]
  | responseNames s => simp [Obligation.failure?, Obligation.Holds, Compatible]
  | path s kind =>
    simp [Obligation.failure?, Obligation.Holds, compatible_path_iff]

theorem firstFailure?_eq_none_iff {scalars : List CustomScalar}
    {earlier os : List (Nat × Obligation)} :
    firstFailure? scalars earlier os = none ↔
      (∀ x ∈ os, x.2.Holds scalars) ∧ (∀ e ∈ earlier, ∀ x ∈ os, Compatible e x) ∧
        os.Pairwise Compatible := by
  induction os generalizing earlier with
  | nil => simp [firstFailure?]
  | cons x os ih =>
    rw [firstFailure?, Option.or_eq_none_iff, failure?_eq_none_iff, ih, List.pairwise_cons]
    -- `x` is checked beside what is earlier, the rest beside that and `x`
    constructor
    · rintro ⟨⟨hx, hearlier⟩, hos, hboth, hpair⟩
      refine ⟨List.forall_mem_cons.mpr ⟨hx, hos⟩, ?_, ?_, hpair⟩
      · intro e he
        refine List.forall_mem_cons.mpr ⟨hearlier e he, ?_⟩
        exact hboth e (List.mem_append_left _ he)
      · exact hboth x (List.mem_append_right _ (List.mem_singleton_self x))
    · rintro ⟨hholds, hboth, hx, hpair⟩
      obtain ⟨hxholds, hosholds⟩ := List.forall_mem_cons.mp hholds
      refine ⟨⟨hxholds, fun e he => hboth e he x List.mem_cons_self⟩, hosholds, ?_, hpair⟩
      intro e he
      rcases List.mem_append.mp he with he | he
      · exact fun y hy => hboth e he y (List.mem_cons_of_mem x hy)
      · rw [List.mem_singleton.mp he]
        exact hx

/-! ## Documents -/

theorem Document.check_eq_ok_iff_firstFailure? {d : Document} :
    d.check = .ok () ↔ checkScalars d.customScalars = .ok () ∧
      firstFailure? d.customScalars [] d.obligations = none := by
  constructor
  · intro h
    have hscalars := d.checkScalars_of_check h
    rw [d.check_of_checkScalars hscalars] at h
    exact ⟨hscalars, verdictOf_eq_ok_iff.mp h⟩
  · rintro ⟨hscalars, hfailure⟩
    rw [d.check_of_checkScalars hscalars]
    exact verdictOf_eq_ok_iff.mpr hfailure

/-- The documents that are accepted. -/
theorem Document.check_eq_ok_iff {d : Document} :
    d.check = .ok () ↔ checkScalars d.customScalars = .ok () ∧
      (∀ x ∈ d.obligations, x.2.Holds d.customScalars) ∧ d.obligations.Pairwise Compatible := by
  rw [d.check_eq_ok_iff_firstFailure?, firstFailure?_eq_none_iff]
  constructor
  · rintro ⟨hscalars, hholds, -, hpair⟩
    exact ⟨hscalars, hholds, hpair⟩
  · rintro ⟨hscalars, hholds, hpair⟩
    exact ⟨hscalars, hholds, by simp, hpair⟩

/-- An accepted document emits one field set on a path, wherever it does. -/
theorem Document.eq_of_path_of_check {d : Document} (h : d.check = .ok ())
    {e e' : FieldSet × Kind} (he : e ∈ d.emission) (he' : e' ∈ d.emission)
    (hpath : e.1.path = e'.1.path) : e.1 = e'.1 := by
  obtain ⟨-, -, hpair⟩ := d.check_eq_ok_iff.mp h
  have howed : ∀ e ∈ d.emission, ∃ tree, (tree, Obligation.path e.1 e.2) ∈ d.obligations := by
    intro e he
    rw [← d.filterMap_obligations] at he
    obtain ⟨⟨tree, o⟩, hmem, ho⟩ := List.mem_filterMap.mp he
    exact ⟨tree, Obligation.emitted?_eq_some_iff.mp ho ▸ hmem⟩
  obtain ⟨tree, hmem⟩ := howed e he
  obtain ⟨tree', hmem'⟩ := howed e' he'
  -- one obligation goes together with any other, but not with itself
  by_cases hsame : (tree, Obligation.path e.1 e.2) = (tree', Obligation.path e'.1 e'.2)
  · simp only [Prod.mk.injEq, Obligation.path.injEq] at hsame
    exact hsame.2.1
  · exact (hpair.forall hmem hmem' hsame _ _ _ _ rfl rfl hpath).2

/-- A tree is part of what its document owes, under one number. -/
theorem exists_sublist_numbered (next : Nat) {owed : List (List Obligation)}
    {os : List Obligation} (hos : os ∈ owed) :
    ∃ tree, (os.map (tree, ·)).Sublist (numbered next owed) := by
  induction owed generalizing next with
  | nil => cases hos
  | cons os' owed ih =>
    rw [numbered_cons]
    rcases List.mem_cons.mp hos with rfl | hos
    · exact ⟨next, List.sublist_append_left _ _⟩
    · obtain ⟨tree, htree⟩ := ih (next + 1) hos
      exact ⟨tree, htree.trans (List.sublist_append_right _ _)⟩

theorem Document.exists_sublist_obligations {d : Document} {t : Field × Kind}
    (ht : t ∈ d.trees) :
    ∃ tree, ((t.1.obligations t.2).map (tree, ·)).Sublist d.obligations := by
  apply exists_sublist_numbered 0
  rw [d.owed_eq_map]
  exact List.mem_map_of_mem ht

/-- Whatever a tree of an accepted document owes holds. -/
theorem Document.holds_of_mem_trees {d : Document} (h : d.check = .ok ()) {t : Field × Kind}
    (ht : t ∈ d.trees) {o : Obligation} (ho : o ∈ t.1.obligations t.2) :
    o.Holds d.customScalars := by
  obtain ⟨-, hholds, -⟩ := d.check_eq_ok_iff.mp h
  obtain ⟨tree, htree⟩ := d.exists_sublist_obligations ht
  exact hholds _ (htree.subset (List.mem_map_of_mem ho))

/-- A tree of an accepted document emits every path once. -/
theorem Document.nodup_path_of_check {d : Document} (h : d.check = .ok ())
    {t : Field × Kind} (ht : t ∈ d.trees) :
    ((t.1.emission t.2).map (·.1.path)).Nodup := by
  obtain ⟨-, -, hpair⟩ := d.check_eq_ok_iff.mp h
  obtain ⟨tree, htree⟩ := d.exists_sublist_obligations ht
  have htreePair := List.pairwise_map.mp (hpair.sublist htree)
  rw [List.Nodup, List.pairwise_map, Field.emission, List.pairwise_filterMap]
  refine htreePair.imp ?_
  intro o o' hcompatible e he e' he' hpath
  have ho : o = .path e.1 e.2 := Obligation.emitted?_eq_some_iff.mp he
  have ho' : o' = .path e'.1 e'.2 := Obligation.emitted?_eq_some_iff.mp he'
  exact (hcompatible _ _ _ _ ho ho' hpath).1 rfl

/-! ## An accepted document -/

/-- The hero's shape is shared by the query and by both views of the fragment. Its friend is an
interface in either view of the hero. -/
def heroDocument : Document :=
  let date := Leaf.customScalar "Date" (some "java.time.LocalDate")
  let born : Field := ⟨"born", .nullable (.named date), none, none, false, [], [], none⟩
  let friendShape : FieldSet :=
    ⟨"Friend", ⟨"com.example", "HeroDetails", ["Friend"]⟩, [born], []⟩
  let friend : Field :=
    ⟨"friend", .named (.model friendShape.path), none, none, false, [friendShape], [],
      some friendShape⟩
  let heroShape : FieldSet :=
    ⟨"HeroDetails", ⟨"com.example", "HeroDetails", []⟩, [born, friend], []⟩
  let humanShape : FieldSet :=
    ⟨"Human", ⟨"com.example", "HeroQuery", ["Data", "Human"]⟩, [born], [heroShape.path]⟩
  let hero : Field :=
    ⟨"hero", .named (.model heroShape.path), none, none, false, [heroShape], [humanShape], none⟩
  let dataShape : FieldSet := ⟨"Data", ⟨"com.example", "HeroQuery", ["Data"]⟩, [hero], []⟩
  { ns := "com.example"
    customScalars := [⟨"Date", some "java.time.LocalDate", none, none⟩]
    operations := [⟨"HeroQuery",
      ⟨"data", .named (.model dataShape.path), none, none, false, [], [dataShape], none⟩⟩]
    fragments := [⟨"HeroDetails",
      ⟨"data", .named (.model heroShape.path), none, none, false, [], [heroShape],
        some heroShape⟩⟩] }

theorem compile_heroDocument : heroDocument.compile = .ok heroDocument.compiled := rfl

end SelectionModels
