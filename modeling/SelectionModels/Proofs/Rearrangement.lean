import SelectionModels.Proofs.Agreement

/-! # Documents rearranged and in part

A document is accepted or not whatever the order of its scalars, operations and fragments, and it is
accepted as soon as any two of its operations and fragments would be accepted together. What an item
is compiled to never depends on the items around it. Items are chosen by their positions, so that
one choice says which items of the document and which items of the compiled document are meant.

* `entriesAt`: the entries of a list at given positions;
* `Document.part`, `Document.rearranged`: some of the items, and all of them in another order;
* `Document.check_of_trees_subset`: an accepted document stays so with fewer trees, in any order;
* `acceptance_of_pairs`: order does not matter, and pairs decide.
-/

namespace SelectionModels

/-! ## Entries at positions -/

section Entries

variable {α β : Type}

/-- The entries of a list at the given positions, in the order of the positions. -/
def entriesAt (positions : List Nat) (xs : List α) : List α :=
  positions.filterMap (xs[·]?)

theorem mem_entriesAt_iff {positions : List Nat} {xs : List α} {x : α} :
    x ∈ entriesAt positions xs ↔ ∃ i ∈ positions, xs[i]? = some x := by
  rw [entriesAt, List.mem_filterMap]

theorem mem_of_mem_entriesAt {positions : List Nat} {xs : List α} {x : α}
    (hx : x ∈ entriesAt positions xs) : x ∈ xs := by
  obtain ⟨i, -, hi⟩ := mem_entriesAt_iff.mp hx
  exact List.mem_of_getElem? hi

theorem entriesAt_map (f : α → β) (positions : List Nat) (xs : List α) :
    entriesAt positions (xs.map f) = (entriesAt positions xs).map f := by
  simp [entriesAt, List.map_filterMap]

theorem entriesAt_range (xs : List α) : entriesAt (List.range xs.length) xs = xs := by
  induction xs with
  | nil => rfl
  | cons x xs ih =>
    -- the later positions, all one greater, give the tail
    have hfirst : (x :: xs)[0]? = some x := rfl
    rw [entriesAt, List.length_cons, List.range_succ_eq_map, List.filterMap_cons_some hfirst,
      List.filterMap_map]
    exact congrArg (x :: ·) ih

/-- The positions of a list in any order give its entries in that order. -/
theorem entriesAt_perm {positions : List Nat} {xs : List α}
    (h : positions.Perm (List.range xs.length)) : (entriesAt positions xs).Perm xs := by
  have hperm : (entriesAt positions xs).Perm (entriesAt (List.range xs.length) xs) :=
    h.filterMap _
  rwa [entriesAt_range] at hperm

end Entries

/-! ## Parts and rearrangements -/

/-- The operations and fragments at the given positions, with all scalars. -/
def Document.part (operations fragments : List Nat) (d : Document) : Document :=
  { d with
    operations := entriesAt operations d.operations
    fragments := entriesAt fragments d.fragments }

/-- The part whose scalars are chosen as well. -/
def Document.rearranged (scalars operations fragments : List Nat) (d : Document) : Document :=
  { d.part operations fragments with customScalars := entriesAt scalars d.customScalars }

def CompiledDocument.part (operations fragments : List Nat) (c : CompiledDocument) :
    CompiledDocument :=
  { c with
    operations := entriesAt operations c.operations
    fragments := entriesAt fragments c.fragments }

def CompiledDocument.rearranged (scalars operations fragments : List Nat) (c : CompiledDocument) :
    CompiledDocument :=
  { c.part operations fragments with
    registry := { c.registry with constants := entriesAt scalars c.registry.constants } }

theorem Document.compiled_part (os fs : List Nat) (d : Document) :
    (d.part os fs).compiled = d.compiled.part os fs := by
  simp [Document.part, CompiledDocument.part, Document.compiled, entriesAt_map]

theorem Document.compiled_rearranged (ss os fs : List Nat) (d : Document) :
    (d.rearranged ss os fs).compiled = d.compiled.rearranged ss os fs := by
  simp [Document.rearranged, CompiledDocument.rearranged, Document.part, CompiledDocument.part,
    Document.compiled, Registry.build, entriesAt_map]

/-! ## Scalars in another order -/

section Scalars

variable {scalars scalars' : List CustomScalar}

theorem ScalarNames.Apart.symm {a b : ScalarNames} (h : a.Apart b) : b.Apart a :=
  ⟨h.1.symm, h.2.1.symm, h.2.2.symm⟩

theorem checkScalars_of_perm (hperm : scalars'.Perm scalars) (h : checkScalars scalars = .ok ()) :
    checkScalars scalars' = .ok () := by
  rw [checkScalars_eq_ok_iff] at h ⊢
  exact (hperm.pairwise_iff ScalarNames.Apart.symm).mpr h

/-- A name has one declaration, wherever that stands. -/
theorem Leaf.failure?_of_perm (hperm : scalars'.Perm scalars) (h : checkScalars scalars = .ok ())
    (l : Leaf) : l.failure? scalars' = l.failure? scalars := by
  have hname := nodup_name_of_checkScalars h
  have hname' : (scalars'.map (·.name)).Nodup := ((hperm.map _).nodup_iff).mpr hname
  have hfind (name : String) : scalars'.find? (·.name = name) = scalars.find? (·.name = name) := by
    ext s
    rw [find?_key_eq_some_iff hname', find?_key_eq_some_iff hname, hperm.mem_iff]
  cases l with
  | customScalar name mapped => simp only [failure?, hfind]
  | _ => rfl

theorem SoundTree.of_perm (hperm : scalars'.Perm scalars) (h : checkScalars scalars = .ok ())
    {t : Field × Kind} (ht : SoundTree scalars t) : SoundTree scalars' t where
  holds o ho := by
    have hholds := ht.holds o ho
    cases o with
    | leaf l => exact (Leaf.failure?_of_perm hperm h l).trans hholds
    | path s kind => trivial
    | responseNames s => exact hholds
  nodup_path := ht.nodup_path

end Scalars

/-! ## Trees of parts -/

/-- Trees that are taken from an accepted document are accepted, in whatever order they come and
however often. -/
theorem Document.check_of_trees_subset {d d' : Document}
    (hperm : d'.customScalars.Perm d.customScalars) (htrees : d'.trees ⊆ d.trees)
    (h : d.check = .ok ()) : d'.check = .ok () := by
  obtain ⟨hscalars, hsound, hagree⟩ := d.check_eq_ok_iff_trees.mp h
  refine d'.check_eq_ok_iff_trees.mpr ⟨checkScalars_of_perm hperm hscalars, ?_, ?_⟩
  · intro t ht
    exact (hsound t (htrees ht)).of_perm hperm hscalars
  · intro t ht t' ht'
    exact hagree t (htrees ht) t' (htrees ht')

/-- A tree is the implementation view of an operation, or either view of a fragment. -/
theorem Document.mem_trees_iff {d : Document} {t : Field × Kind} :
    t ∈ d.trees ↔ (∃ o ∈ d.operations, (o.dataField, Kind.implementation) = t) ∨
      ∃ f ∈ d.fragments, f.dataField = t.1 := by
  obtain ⟨f, kind⟩ := t
  rw [trees, List.mem_append, List.mem_map, List.mem_flatMap]
  cases kind <;> simp [eq_comm]

theorem Document.trees_part_subset (os fs : List Nat) (d : Document) :
    (d.part os fs).trees ⊆ d.trees := by
  intro t ht
  rw [mem_trees_iff] at ht ⊢
  rcases ht with ⟨o, ho, hot⟩ | ⟨f, hf, hft⟩
  · exact Or.inl ⟨o, mem_of_mem_entriesAt ho, hot⟩
  · exact Or.inr ⟨f, mem_of_mem_entriesAt hf, hft⟩

theorem Document.trees_subset_rearranged {ss os fs : List Nat} {d : Document}
    (hos : os.Perm (List.range d.operations.length))
    (hfs : fs.Perm (List.range d.fragments.length)) : d.trees ⊆ (d.rearranged ss os fs).trees := by
  intro t ht
  rw [mem_trees_iff] at ht ⊢
  rcases ht with ⟨o, ho, hot⟩ | ⟨f, hf, hft⟩
  · exact Or.inl ⟨o, (entriesAt_perm hos).mem_iff.mpr ho, hot⟩
  · exact Or.inr ⟨f, (entriesAt_perm hfs).mem_iff.mpr hf, hft⟩

/-! ## Parts of two items -/

/-- Two positions, or one that is meant twice, in order. -/
theorem exists_positions (i j : Nat) :
    ∃ positions : List Nat, positions.Pairwise (· < ·) ∧ positions.length ≤ 2 ∧
      i ∈ positions ∧ j ∈ positions := by
  rcases Nat.lt_trichotomy i j with hlt | rfl | hlt
  · exact ⟨[i, j], by simpa using hlt, by simp, by simp, by simp⟩
  · exact ⟨[i], by simp, by simp, by simp, by simp⟩
  · exact ⟨[j, i], by simpa using hlt, by simp, by simp, by simp⟩

section Part

variable {d : Document} {t t' : Field × Kind}

/-- A tree is found in every part that has a certain operation, or in every part that has a certain
fragment. -/
theorem Document.exists_item (ht : t ∈ d.trees) :
    (∃ i, ∀ os fs : List Nat, i ∈ os → t ∈ (d.part os fs).trees) ∨
      ∃ i, ∀ os fs : List Nat, i ∈ fs → t ∈ (d.part os fs).trees := by
  rcases mem_trees_iff.mp ht with ⟨o, ho, hot⟩ | ⟨f, hf, hft⟩
  · obtain ⟨i, hi⟩ := List.getElem?_of_mem ho
    refine Or.inl ⟨i, fun os fs hios => mem_trees_iff.mpr ?_⟩
    exact Or.inl ⟨o, mem_entriesAt_iff.mpr ⟨i, hios, hi⟩, hot⟩
  · obtain ⟨i, hi⟩ := List.getElem?_of_mem hf
    refine Or.inr ⟨i, fun os fs hifs => mem_trees_iff.mpr ?_⟩
    exact Or.inr ⟨f, mem_entriesAt_iff.mpr ⟨i, hifs, hi⟩, hft⟩

/-- Any two trees are found in a part of at most two items. -/
theorem Document.exists_part (ht : t ∈ d.trees) (ht' : t' ∈ d.trees) :
    ∃ os fs : List Nat, os.Pairwise (· < ·) ∧ fs.Pairwise (· < ·) ∧ os.length + fs.length ≤ 2 ∧
      t ∈ (d.part os fs).trees ∧ t' ∈ (d.part os fs).trees := by
  rcases d.exists_item ht with ⟨i, hi⟩ | ⟨i, hi⟩ <;>
    rcases d.exists_item ht' with ⟨j, hj⟩ | ⟨j, hj⟩
  · obtain ⟨os, hos, hlength, hios, hjos⟩ := exists_positions i j
    exact ⟨os, [], hos, .nil, hlength, hi os [] hios, hj os [] hjos⟩
  · exact ⟨[i], [j], by simp, by simp, by simp, hi [i] [j] (by simp), hj [i] [j] (by simp)⟩
  · exact ⟨[j], [i], by simp, by simp, by simp, hi [j] [i] (by simp), hj [j] [i] (by simp)⟩
  · obtain ⟨fs, hfs, hlength, hifs, hjfs⟩ := exists_positions i j
    exact ⟨[], fs, .nil, hfs, by simpa using hlength, hi [] fs hifs, hj [] fs hjfs⟩

end Part

/-- A document is accepted if all its parts of at most two items are. -/
theorem Document.check_of_parts {d : Document}
    (h : ∀ os fs : List Nat, os.Pairwise (· < ·) → fs.Pairwise (· < ·) →
      os.length + fs.length ≤ 2 → (d.part os fs).check = .ok ()) : d.check = .ok () := by
  have hpair {t t' : Field × Kind} (ht : t ∈ d.trees) (ht' : t' ∈ d.trees) :
      SoundTree d.customScalars t ∧ TreesAgree t t' := by
    obtain ⟨os, fs, hos, hfs, hlength, hpart, hpart'⟩ := d.exists_part ht ht'
    obtain ⟨-, hsound, hagree⟩ := (d.part os fs).check_eq_ok_iff_trees.mp (h os fs hos hfs hlength)
    exact ⟨hsound t hpart, hagree t hpart t' hpart'⟩
  -- the part without any item still has all scalars
  have hscalars : checkScalars d.customScalars = .ok () :=
    (d.part [] []).checkScalars_of_check (h [] [] .nil .nil (by simp))
  exact d.check_eq_ok_iff_trees.mpr
    ⟨hscalars, fun t ht => (hpair ht ht).1, fun t ht t' ht' => (hpair ht ht').2⟩

/-! ## Acceptance -/

theorem Document.check_part {d : Document} (h : d.check = .ok ()) (os fs : List Nat) :
    (d.part os fs).check = .ok () :=
  Document.check_of_trees_subset (List.Perm.refl d.customScalars) (d.trees_part_subset os fs) h

theorem Document.check_rearranged_iff {d : Document} {ss os fs : List Nat}
    (hss : ss.Perm (List.range d.customScalars.length))
    (hos : os.Perm (List.range d.operations.length))
    (hfs : fs.Perm (List.range d.fragments.length)) :
    (d.rearranged ss os fs).check = .ok () ↔ d.check = .ok () := by
  have hperm : (d.rearranged ss os fs).customScalars.Perm d.customScalars := entriesAt_perm hss
  constructor
  · exact Document.check_of_trees_subset hperm.symm (d.trees_subset_rearranged hos hfs)
  · exact Document.check_of_trees_subset hperm (d.trees_part_subset os fs)

/-- Order does not matter and pairs decide. A document with its scalars, operations and fragments in
another order is accepted if the document is, and compiles to the same in that order. A document is
accepted if all its parts of at most two items are, and what its items are compiled to they are
compiled to in every part. -/
theorem acceptance_of_pairs (d : Document) :
    (∀ ss os fs : List Nat, ss.Perm (List.range d.customScalars.length) →
      os.Perm (List.range d.operations.length) → fs.Perm (List.range d.fragments.length) →
      ((d.rearranged ss os fs).check = .ok () ↔ d.check = .ok ()) ∧
        ∀ c, d.compile = .ok c → (d.rearranged ss os fs).compile = .ok (c.rearranged ss os fs)) ∧
    (d.check = .ok () ↔ ∀ os fs : List Nat, os.Pairwise (· < ·) → fs.Pairwise (· < ·) →
      os.length + fs.length ≤ 2 → (d.part os fs).check = .ok ()) ∧
    ∀ c, d.compile = .ok c → ∀ os fs, (d.part os fs).compile = .ok (c.part os fs) := by
  refine ⟨?_, ⟨fun h os fs _ _ _ => d.check_part h os fs, d.check_of_parts⟩, ?_⟩
  · intro ss os fs hss hos hfs
    have hcheck := d.check_rearranged_iff hss hos hfs
    refine ⟨hcheck, ?_⟩
    intro c hc
    obtain ⟨h, rfl⟩ := Document.compile_eq_ok_iff.mp hc
    exact Document.compile_eq_ok_iff.mpr ⟨hcheck.mpr h, (d.compiled_rearranged ss os fs).symm⟩
  · intro c hc os fs
    obtain ⟨h, rfl⟩ := Document.compile_eq_ok_iff.mp hc
    exact Document.compile_eq_ok_iff.mpr ⟨d.check_part h os fs, (d.compiled_part os fs).symm⟩

/-- The hero's document with one more query and one more scalar. -/
def twoQueryDocument : Document :=
  let data : FieldSet := ⟨"Data", ⟨"com.example", "PingQuery", ["Data"]⟩, [], []⟩
  { heroDocument with
    customScalars := heroDocument.customScalars ++ [⟨"Json", none, none, none⟩]
    operations := heroDocument.operations ++
      [⟨"PingQuery", ⟨"data", .named .string, none, none, false, [], [data], none⟩⟩] }

/-- The queries and the scalars change places, and the second query is taken with the fragment. -/
theorem acceptance_twoQueryDocument :
    ∃ c, twoQueryDocument.compile = .ok c ∧
      (twoQueryDocument.rearranged [1, 0] [1, 0] [0]).compile =
        .ok (c.rearranged [1, 0] [1, 0] [0]) ∧
      (c.rearranged [1, 0] [1, 0] [0]).operations.map (·.name) = ["PingQuery", "HeroQuery"] ∧
      (twoQueryDocument.part [1] [0]).check = .ok () ∧
      (twoQueryDocument.part [1] [0]).compile = .ok (c.part [1] [0]) := by
  have hcompile : twoQueryDocument.compile = .ok twoQueryDocument.compiled := rfl
  have hcheck : twoQueryDocument.check = .ok () := (Document.compile_eq_ok_iff.mp hcompile).1
  obtain ⟨horder, hpairs, hparts⟩ := acceptance_of_pairs twoQueryDocument
  have hrearranged := horder [1, 0] [1, 0] [0] (by decide) (by decide) (by decide)
  exact ⟨twoQueryDocument.compiled, hcompile, hrearranged.2 _ hcompile, rfl,
    hpairs.mp hcheck [1] [0] (by simp) (by simp) (by simp), hparts _ hcompile [1] [0]⟩

end SelectionModels
