import SelectionModels.CompiledDocument
import SelectionModels.Proofs.Identifiers
import SelectionModels.Proofs.Keys

/-! # Names that scalars take

Custom scalars pass the check exactly when no two of them share a name, be it as written, as a
constant or as a holder. A scalar's name then leads to one declaration, and it makes no difference
from which end the declarations are searched.

The check compares the very names that the registry will give to the constants and holders. So a
registry that is built has one constant per scalar, and its names differ: those of the constants,
those of the holders, and the holders' dotted texts, which share all but their last part.

* `checkScalars_eq_ok_iff`: the scalars that pass;
* `declaredMapping?_eq_find?`: the mapping in force is that of the one declaration of the name;
* `CustomScalar.isIdentifier_constantName`, `CustomScalar.isIdentifier_holderName`: the names made
  for a scalar are identifiers, whatever its own name is;
* `registry_names`: what can be said of the names of every registry.
-/

namespace SelectionModels

/-! ## Scalars that pass -/

/-- Two scalars that share no name. -/
def ScalarNames.Apart (a b : ScalarNames) : Prop :=
  a.name ≠ b.name ∧ a.constant ≠ b.constant ∧ a.holder ≠ b.holder

theorem checkNames_eq_ok_iff {earlier : List ScalarNames} {s : ScalarNames} :
    checkNames earlier s = .ok () ↔ ∀ e ∈ earlier, e.Apart s := by
  have hnone {p : ScalarNames → Bool} {e : ScalarNames} (h : earlier.find? p = some e) :
      ∃ e ∈ earlier, p e = true := ⟨e, List.mem_of_find?_eq_some h, List.find?_some h⟩
  -- each of the three searches fails the check as soon as it finds something
  unfold checkNames
  split
  · rename_i h
    obtain ⟨e, he, hname⟩ := List.any_eq_true.mp h
    simp only [reduceCtorEq, false_iff, not_forall]
    exact ⟨e, he, fun h => h.1 (by simpa using hname)⟩
  · rename_i hname
    split
    · rename_i h
      obtain ⟨e, he, hconstant⟩ := hnone h
      simp only [reduceCtorEq, false_iff, not_forall]
      exact ⟨e, he, fun h => h.2.1 (by simpa using hconstant)⟩
    · rename_i hconstant
      split
      · rename_i h
        obtain ⟨e, he, hholder⟩ := hnone h
        simp only [reduceCtorEq, false_iff, not_forall]
        exact ⟨e, he, fun h => h.2.2 (by simpa using hholder)⟩
      · rename_i hholder
        -- nothing was found
        simp only [true_iff]
        intro e he
        refine ⟨?_, ?_, ?_⟩
        · simpa using fun h => hname (List.any_eq_true.mpr ⟨e, he, by simpa using h⟩)
        · simpa using List.find?_eq_none.mp (Option.eq_none_iff_forall_ne_some.mpr hconstant) e he
        · simpa using List.find?_eq_none.mp (Option.eq_none_iff_forall_ne_some.mpr hholder) e he

theorem checkNamesAfter_eq_ok_iff {earlier rest : List ScalarNames} :
    checkNamesAfter earlier rest = .ok () ↔
      (∀ e ∈ earlier, ∀ s ∈ rest, e.Apart s) ∧ rest.Pairwise ScalarNames.Apart := by
  induction rest generalizing earlier with
  | nil => simp [checkNamesAfter]
  | cons s rest ih =>
    have hstep : checkNamesAfter earlier (s :: rest) = .ok () ↔
        checkNames earlier s = .ok () ∧ checkNamesAfter (s :: earlier) rest = .ok () := by
      simp only [checkNamesAfter]
      cases checkNames earlier s with
      | error e => simp [bind, Except.bind]
      | ok u => simp [bind, Except.bind]
    rw [hstep, checkNames_eq_ok_iff, ih, List.pairwise_cons]
    constructor
    · rintro ⟨hs, hrest, hpair⟩
      refine ⟨fun e he => List.forall_mem_cons.mpr ⟨hs e he, ?_⟩, ?_, hpair⟩
      · exact hrest e (List.mem_cons_of_mem s he)
      · exact hrest s List.mem_cons_self
    · rintro ⟨hall, hs, hpair⟩
      refine ⟨fun e he => hall e he s List.mem_cons_self, ?_, hpair⟩
      exact List.forall_mem_cons.mpr ⟨hs, fun e he t ht => hall e he t (List.mem_cons_of_mem s ht)⟩

theorem checkScalars_eq_ok_iff {scalars : List CustomScalar} :
    checkScalars scalars = .ok () ↔
      scalars.Pairwise fun a b => a.names.Apart b.names := by
  simp [checkScalars, checkNamesAfter_eq_ok_iff, List.pairwise_map]

/-- Scalars that pass have different names as written. -/
theorem nodup_name_of_checkScalars {scalars : List CustomScalar}
    (h : checkScalars scalars = .ok ()) : (scalars.map (·.name)).Nodup := by
  rw [List.Nodup, List.pairwise_map]
  exact (checkScalars_eq_ok_iff.mp h).imp fun hab => hab.1

/-! ## The mapping in force -/

/-- The scalars may be searched from either end. -/
theorem declaredMapping?_eq_find? {scalars : List CustomScalar}
    (h : checkScalars scalars = .ok ()) (name : String) :
    declaredMapping? scalars name = (scalars.find? (·.name = name)).map (·.mappedType) := by
  have hname := nodup_name_of_checkScalars h
  have hreverse : (scalars.reverse.map (·.name)).Nodup := by
    rw [List.map_reverse]
    exact List.nodup_reverse.mpr hname
  have hfind : scalars.reverse.find? (·.name = name) = scalars.find? (·.name = name) := by
    -- either search finds just the scalar of that name
    ext s
    rw [find?_key_eq_some_iff hreverse, find?_key_eq_some_iff hname, List.mem_reverse]
  rw [declaredMapping?, hfind]

/-! ## The names of one scalar -/

theorem CustomScalar.isIdentifier_constantName (s : CustomScalar) :
    Name.IsIdentifier s.constantName :=
  Name.isIdentifier_identifier s.name

theorem CustomScalar.isIdentifier_holderName (s : CustomScalar) :
    Name.IsIdentifier s.holderName :=
  s.isIdentifier_constantName.capitalize

theorem CustomScalar.isIdentifier_of_mem_holder {ns name : String} {s : CustomScalar}
    (h : name ∈ (s.holder ns).simpleNames) : Name.IsIdentifier name := by
  rcases List.mem_cons.mp h with rfl | h
  · decide +kernel
  · rw [List.mem_singleton.mp h]
    exact s.isIdentifier_holderName

/-- The dotted text of a holder is its own name behind a text that all holders of the namespace
have in common. -/
theorem CustomScalar.display_holder (ns : String) (s : CustomScalar) :
    (s.holder ns).display =
      (if ns = "" then "" else ns ++ ".") ++ (Name.scalarsHolder ++ ".") ++ s.holderName := by
  simp only [holder, QualifiedName.display, String.intercalate_cons_cons,
    String.intercalate_singleton, String.append_assoc]
  rfl

/-! ## Names in a registry -/

/-- A text that differs for scalars which share no name is different for all scalars that pass. -/
theorem nodup_of_checkScalars {α : Type} {scalars : List CustomScalar}
    (h : checkScalars scalars = .ok ()) {key : CustomScalar → α}
    (hkey : ∀ a b : CustomScalar, a.names.Apart b.names → key a ≠ key b) :
    (scalars.map key).Nodup := by
  rw [List.Nodup, List.pairwise_map]
  exact (checkScalars_eq_ok_iff.mp h).imp (hkey _ _)

theorem Registry.ofScalars_eq_ok_iff {ns : String} {scalars : List CustomScalar} {r : Registry} :
    ofScalars ns scalars = .ok r ↔ checkScalars scalars = .ok () ∧ r = build ns scalars := by
  unfold ofScalars
  cases checkScalars scalars with
  | error e => simp [bind, Except.bind]
  | ok u => simp [bind, Except.bind, pure, Except.pure, eq_comm]

/-- A registry has one constant per scalar, in the order of the scalars, with the scalar's name and
mapping; it is marked when there is no mapping. The names of constants and holders are identifiers,
and no two constants share one, nor do two holders, nor the dotted texts of two holders. -/
theorem registry_names {ns : String} {scalars : List CustomScalar} {r : Registry}
    (h : Registry.ofScalars ns scalars = .ok r) :
    List.Forall₂ (fun s k => k.value = ⟨s.name, s.mappedType⟩ ∧
        (k.isUnmapped = true ↔ s.mappedType = none)) scalars r.constants ∧
      (∀ k ∈ r.constants, Name.IsIdentifier k.name ∧
        ∀ name ∈ k.typeName.simpleNames, Name.IsIdentifier name) ∧
      (r.constants.map (·.name)).Nodup ∧
      (r.constants.map (·.typeName)).Nodup ∧
      (r.constants.map (·.typeName.display)).Nodup := by
  obtain ⟨hcheck, rfl⟩ := Registry.ofScalars_eq_ok_iff.mp h
  simp only [Registry.build, List.map_map, List.forall_mem_map]
  refine ⟨?_, ?_, ?_, ?_, ?_⟩
  · rw [List.forall₂_map_right_iff]
    refine List.forall₂_same.mpr fun s _ => ⟨rfl, ?_⟩
    rw [Registry.isUnmapped_constant, Option.isNone_iff_eq_none]
  · intro s _
    exact ⟨s.isIdentifier_constantName, fun name => CustomScalar.isIdentifier_of_mem_holder⟩
  · exact nodup_of_checkScalars hcheck fun a b hab => hab.2.1
  · refine nodup_of_checkScalars hcheck fun a b hab hholder => hab.2.2 ?_
    show a.holderName = b.holderName
    simpa [Registry.constant, CustomScalar.holder] using hholder
  · refine nodup_of_checkScalars hcheck fun a b hab hdisplay => hab.2.2 ?_
    -- what the texts have in common is cancelled
    show a.holderName = b.holderName
    simpa [Registry.constant, CustomScalar.display_holder] using hdisplay

/-- Names that are no identifiers: one that is empty, one that starts with a digit, and one that
holds a blank and a letter outside ASCII. -/
def unrulyScalars : List CustomScalar :=
  [⟨"", none, none, none⟩, ⟨"3d", some "geo.Solid", none, none⟩, ⟨"größe x", none, none, none⟩]

theorem registry_names_unrulyScalars :
    ∃ r, Registry.ofScalars "com.example" unrulyScalars = .ok r ∧
      r.constants.map (·.name) = ["_", "_3d", "gr__e_x"] ∧
      (r.constants.map (·.typeName.display)).Nodup := by
  have h : Registry.ofScalars "com.example" unrulyScalars =
      .ok (Registry.build "com.example" unrulyScalars) := rfl
  exact ⟨_, h, by decide +kernel, (registry_names h).2.2.2.2⟩

end SelectionModels
