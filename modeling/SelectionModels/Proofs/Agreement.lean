import SelectionModels.Proofs.Acceptance

/-! # Trees that agree

Nothing in the acceptance of a document depends on more than two of its trees at a time. Each tree
has to be sound by itself, and any two of them have to mean the same field set by a path. Neither
asks where in the document a tree stands, and to agree is symmetric, so the order of the trees and
the history of the walk are out of it.

* `SoundTree`: what a tree has to satisfy by itself;
* `TreesAgree`: what two trees have to satisfy together;
* `Document.check_eq_ok_iff_trees`: a document is accepted if its scalars pass, its trees are sound
  and any two of them agree.
-/

namespace SelectionModels

/-! ## One tree and two trees -/

/-- All that the tree owes holds, and it emits no path twice. -/
structure SoundTree (scalars : List CustomScalar) (t : Field × Kind) : Prop where
  holds : ∀ o ∈ t.1.obligations t.2, o.Holds scalars
  nodup_path : ((t.1.emission t.2).map (·.1.path)).Nodup

/-- Where both trees emit a path they emit equal field sets. -/
def TreesAgree (t t' : Field × Kind) : Prop :=
  ∀ e ∈ t.1.emission t.2, ∀ e' ∈ t'.1.emission t'.2, e.1.path = e'.1.path → e.1 = e'.1

theorem Field.mem_emission_iff {f : Field} {kind : Kind} {e : FieldSet × Kind} :
    e ∈ f.emission kind ↔ .path e.1 e.2 ∈ f.obligations kind := by
  rw [emission, List.mem_filterMap]
  constructor
  · rintro ⟨o, ho, he⟩
    exact Obligation.emitted?_eq_some_iff.mp he ▸ ho
  · exact fun h => ⟨_, h, rfl⟩

theorem Document.mem_emission_of_mem_trees {d : Document} {t : Field × Kind} (ht : t ∈ d.trees)
    {e : FieldSet × Kind} (he : e ∈ t.1.emission t.2) : e ∈ d.emission :=
  List.mem_flatMap.mpr ⟨t, ht, he⟩

/-! ## Documents of sound trees that agree -/

/-- The numbers of later trees are greater. -/
theorem mem_numbered {next : Nat} {owed : List (List Obligation)} {x : Nat × Obligation}
    (hx : x ∈ numbered next owed) : next ≤ x.1 ∧ ∃ os ∈ owed, x.2 ∈ os := by
  induction owed generalizing next with
  | nil => cases hx
  | cons os owed ih =>
    rw [numbered_cons] at hx
    rcases List.mem_append.mp hx with hx | hx
    · obtain ⟨o, ho, rfl⟩ := List.mem_map.mp hx
      exact ⟨Nat.le_refl next, os, List.mem_cons_self, ho⟩
    · obtain ⟨hnext, os', hos', ho⟩ := ih hx
      exact ⟨Nat.le_of_succ_le hnext, os', List.mem_cons_of_mem os hos', ho⟩

/-- A tree that emits no path twice has obligations that go together. -/
theorem pairwise_compatible_of_nodup_path {os : List Obligation}
    (h : ((os.filterMap Obligation.emitted?).map (·.1.path)).Nodup) (tree : Nat) :
    (os.map (tree, ·)).Pairwise Compatible := by
  rw [List.Nodup, List.pairwise_map, List.pairwise_filterMap] at h
  rw [List.pairwise_map]
  refine h.imp ?_
  rintro o o' hne s kind s' kind' rfl rfl hpath
  exact absurd hpath (hne (s, kind) rfl (s', kind') rfl)

theorem pairwise_compatible_numbered (next : Nat) {trees : List (Field × Kind)}
    (hnodup : ∀ t ∈ trees, ((t.1.emission t.2).map (·.1.path)).Nodup)
    (hagree : ∀ t ∈ trees, ∀ t' ∈ trees, TreesAgree t t') :
    (numbered next (trees.map fun t => t.1.obligations t.2)).Pairwise Compatible := by
  induction trees generalizing next with
  | nil => simp
  | cons t trees ih =>
    rw [List.map_cons, numbered_cons, List.pairwise_append]
    obtain ⟨hnodupHead, hnodupTail⟩ := List.forall_mem_cons.mp hnodup
    refine ⟨pairwise_compatible_of_nodup_path hnodupHead next, ih (next + 1) hnodupTail ?_, ?_⟩
    · intro t' ht' t'' ht''
      exact hagree t' (List.mem_cons_of_mem t ht') t'' (List.mem_cons_of_mem t ht'')
    · -- a later tree has another number, so only the field sets can be at odds
      rintro x hx ⟨tree, o⟩ hy s kind s' kind' hs hs' hpath
      obtain ⟨o', ho', rfl⟩ := List.mem_map.mp hx
      obtain ⟨htree, os, hos, ho⟩ := mem_numbered hy
      obtain ⟨t', ht', rfl⟩ := List.mem_map.mp hos
      have he : (s, kind) ∈ t.1.emission t.2 := Field.mem_emission_iff.mpr (hs ▸ ho')
      have he' : (s', kind') ∈ t'.1.emission t'.2 := Field.mem_emission_iff.mpr (hs' ▸ ho)
      refine ⟨Nat.ne_of_lt htree, ?_⟩
      exact hagree t List.mem_cons_self t' (List.mem_cons_of_mem t ht') _ he _ he' hpath

/-- The documents that are accepted, by their trees. -/
theorem Document.check_eq_ok_iff_trees {d : Document} :
    d.check = .ok () ↔ checkScalars d.customScalars = .ok () ∧
      (∀ t ∈ d.trees, SoundTree d.customScalars t) ∧
      ∀ t ∈ d.trees, ∀ t' ∈ d.trees, TreesAgree t t' := by
  constructor
  · intro h
    refine ⟨d.checkScalars_of_check h, ?_, ?_⟩
    · intro t ht
      exact ⟨fun o ho => d.holds_of_mem_trees h ht ho, d.nodup_path_of_check h ht⟩
    · intro t ht t' ht' e he e' he' hpath
      exact d.eq_of_path_of_check h (d.mem_emission_of_mem_trees ht he)
        (d.mem_emission_of_mem_trees ht' he') hpath
  · rintro ⟨hscalars, hsound, hagree⟩
    rw [d.check_eq_ok_iff, Document.obligations, d.owed_eq_map]
    refine ⟨hscalars, ?_, pairwise_compatible_numbered 0 (fun t ht => (hsound t ht).nodup_path)
      hagree⟩
    intro x hx
    obtain ⟨-, os, hos, ho⟩ := mem_numbered hx
    obtain ⟨t, ht, rfl⟩ := List.mem_map.mp hos
    exact (hsound t ht).holds x.2 ho

end SelectionModels
