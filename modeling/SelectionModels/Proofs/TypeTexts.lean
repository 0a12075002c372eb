import Mathlib.Data.List.Count
import SelectionModels.Proofs.Layers

/-! # The texts of names and types

A dotted text is split at its last dot, and a name is displayed with a dot behind its namespace, if
it has one. So the text of a name tells where it is to be split, and a text is found again after it
has been split. There is one exception: a dot with nothing in front of it ends an empty namespace,
which is displayed without it.

The text of a type tells its steps, even if the name at its core has brackets or question marks in
it. Nothing can be read from either end, then; but texts of one core have as many closing brackets
beside those of the core as there are lists, and once the lists are counted, the core stands at a
known place and what follows it is one character for each step.

* `TypeName.display_eq_iff_of_core`: types with one core have one text only if they are the same;
* `display_resolve_eq_iff`: so have references to one leaf only if they are resolved alike;
* `QualifiedName.display_ofDotted`: the text of a name that comes from a text;
* `QualifiedName.ofDotted_display_eq_iff`: the names that come back from their texts;
* `split_display_inverse`: both, and what they mean for scalars that are mapped.
-/

namespace SelectionModels

/-! ## Types -/

/-- What a step leaves behind a type in its text. -/
def Wrap.closing : Wrap → Char
  | .nullable => '?'
  | .list => '>'

/-- The two steps leave different characters. -/
theorem Wrap.closing_injective : Function.Injective Wrap.closing := by
  intro w w' h
  cases w <;> cases w' <;> simp [closing] at h ⊢

namespace TypeName

/-- What stands before the core in the text of a type. -/
def openings (n : Nat) : List Char :=
  (List.replicate n "List<".toList).flatten

theorem toList_nullableMark (nullable : Bool) :
    (nullableMark nullable).toList = (markSteps nullable).map Wrap.closing := by
  cases nullable <;> rfl

/-- The text of a type: what opens its lists, its core, and a character for each of its steps. -/
theorem toList_display (t : TypeName) :
    t.display.toList =
      openings t.lists ++ (t.core.display.toList ++ t.steps.map Wrap.closing) := by
  induction t with
  | named name nullable =>
    simp [display, toList_nullableMark, openings, lists, core, steps]
  | list element nullable ih =>
    simp [display, toList_nullableMark, openings, lists, core, steps, List.replicate_succ,
      Wrap.closing, ih]

theorem count_openings (n : Nat) : (openings n).count '>' = 0 := by
  rw [List.count_eq_zero]
  intro hmem
  rcases List.mem_flatten.mp hmem with ⟨cs, hcs, hmem⟩
  rw [List.eq_of_mem_replicate hcs] at hmem
  revert hmem
  decide

/-- The closing brackets of a text are those of its core and one for each list. -/
theorem count_display (t : TypeName) :
    t.display.toList.count '>' = t.core.display.toList.count '>' + t.lists := by
  have hsteps : (t.steps.map Wrap.closing).count '>' = t.lists := by
    rw [show '>' = Wrap.closing .list from rfl, List.count_map_of_injective _ _
      Wrap.closing_injective, count_list_steps]
  calc t.display.toList.count '>'
      = (openings t.lists).count '>' +
          (t.core.display.toList.count '>' + (t.steps.map Wrap.closing).count '>') := by
        rw [toList_display, List.count_append, List.count_append]
    _ = t.core.display.toList.count '>' + t.lists := by
        rw [count_openings, hsteps, Nat.zero_add]

/-- A text tells the type among those with one core, whatever stands in the name of the core. -/
theorem display_eq_iff_of_core {t t' : TypeName} (hcore : t.core = t'.core) :
    t.display = t'.display ↔ t = t' := by
  constructor
  · intro h
    have hcount : t.core.display.toList.count '>' + t.lists =
        t'.core.display.toList.count '>' + t'.lists := by
      rw [← count_display, ← count_display, h]
    have hlists : t.lists = t'.lists := by
      rw [hcore] at hcount
      omega
    have htexts := congrArg String.toList h
    -- as many lists are opened before equal cores, so what follows the cores is equal too
    rw [toList_display, toList_display, hcore, hlists] at htexts
    have hclosings := List.append_cancel_left (List.append_cancel_left htexts)
    exact eq_of_core_of_steps hcore (Wrap.closing_injective.list_map hclosings)
  · rintro rfl
    rfl

end TypeName

namespace TypeRef

theorem leaf_ofWraps (leaf : Leaf) (ws : List Wrap) : (ofWraps leaf ws).leaf = leaf := by
  induction ws using List.reverseRecOn with
  | nil => rfl
  | append_singleton ws w ih =>
    rw [ofWraps_append_singleton]
    cases w <;> exact ih

theorem wraps_ofWraps (leaf : Leaf) (ws : List Wrap) : (ofWraps leaf ws).wraps = ws := by
  induction ws using List.reverseRecOn with
  | nil => rfl
  | append_singleton ws w ih =>
    rw [ofWraps_append_singleton]
    cases w <;> exact congrArg (· ++ _) ih

/-- References to one leaf have one core. -/
theorem core_resolve_ofWraps (leaf : Leaf) (ws : List Wrap) :
    (ofWraps leaf ws).resolve.core = leaf.typeName := by
  rw [core_resolve, leaf_ofWraps]

end TypeRef

/-- References to one leaf, whatever its name, have one text just if they are resolved alike, that
is, if their steps are the same, every run of nullable ones taken as one. -/
theorem display_resolve_eq_iff (leaf : Leaf) (ws ws' : List Wrap) :
    ((TypeRef.ofWraps leaf ws).resolve.display = (TypeRef.ofWraps leaf ws').resolve.display ↔
      (TypeRef.ofWraps leaf ws).resolve = (TypeRef.ofWraps leaf ws').resolve) ∧
    ((TypeRef.ofWraps leaf ws).resolve = (TypeRef.ofWraps leaf ws').resolve ↔
      Wrap.collapse ws = Wrap.collapse ws') := by
  have hcore : (TypeRef.ofWraps leaf ws).resolve.core =
      (TypeRef.ofWraps leaf ws').resolve.core := by
    rw [TypeRef.core_resolve_ofWraps, TypeRef.core_resolve_ofWraps]
  refine ⟨TypeName.display_eq_iff_of_core hcore, ?_⟩
  rw [TypeRef.resolve_eq_iff, TypeRef.leaf_ofWraps, TypeRef.leaf_ofWraps, TypeRef.wraps_ofWraps,
    TypeRef.wraps_ofWraps]
  exact and_iff_right rfl

/-- With another leaf the text may well be the same. -/
example : (TypeRef.named (.customScalar "Ids" (some "List<ID>"))).resolve.display =
    (TypeRef.list (.named .id)).resolve.display := by decide +kernel

/-! ## Splitting dotted texts -/

namespace QualifiedName

/-- The last separator is the one behind which there is no other. -/
theorem splitLast?_append {sep : Char} {after : List Char} (h : sep ∉ after)
    (before : List Char) : splitLast? sep (before ++ sep :: after) = some (before, after) := by
  induction before with
  | nil => simp [splitLast?, splitLast?_eq_none_iff.mpr h]
  | cons c before ih => simp [splitLast?, ih]

/-- A text with a dot has a last one. -/
theorem exists_eq_append_of_mem {s : String} (h : '.' ∈ s.toList) :
    ∃ ns simple : String, s = ns ++ "." ++ simple ∧ '.' ∉ simple.toList := by
  cases hsplit : splitLast? '.' s.toList with
  | none => exact absurd h (splitLast?_eq_none_iff.mp hsplit)
  | some halves =>
    obtain ⟨before, after⟩ := halves
    obtain ⟨hs, hafter⟩ := eq_of_splitLast? hsplit
    refine ⟨String.ofList before, String.ofList after, ?_, by simpa using hafter⟩
    rw [← String.toList_inj, hs]
    simp

theorem toList_append_dot (ns simple : String) :
    (ns ++ "." ++ simple).toList = ns.toList ++ '.' :: simple.toList := by
  simp

theorem ofDotted_append {simple : String} (h : '.' ∉ simple.toList) (ns : String) :
    ofDotted (ns ++ "." ++ simple) = ⟨ns, [simple]⟩ := by
  simp [ofDotted, splitLast?_append h]

theorem ofDotted_of_not_mem {s : String} (h : '.' ∉ s.toList) : ofDotted s = ⟨"", [s]⟩ := by
  simp [ofDotted, splitLast?_eq_none_iff.mpr h, prelude, Name.preludeNamespace]

/-- What comes from a text has one simple name, in which there is no dot. -/
theorem exists_simpleNames_ofDotted (s : String) :
    ∃ simple, (ofDotted s).simpleNames = [simple] ∧ '.' ∉ simple.toList := by
  by_cases h : '.' ∈ s.toList
  · obtain ⟨ns, simple, rfl, hsimple⟩ := exists_eq_append_of_mem h
    exact ⟨simple, by rw [ofDotted_append hsimple], hsimple⟩
  · exact ⟨s, by rw [ofDotted_of_not_mem h], h⟩

/-! ## Splitting what is displayed -/

theorem display_of_empty (simple : String) : display ⟨"", [simple]⟩ = simple := by
  simp [display]

theorem display_of_ne {ns : String} (h : ns ≠ "") (simple : String) :
    display ⟨ns, [simple]⟩ = ns ++ "." ++ simple := by
  simp [display, h]

theorem ofDotted_display {simple : String} (h : '.' ∉ simple.toList) (ns : String) :
    ofDotted (display ⟨ns, [simple]⟩) = ⟨ns, [simple]⟩ := by
  by_cases hns : ns = ""
  · rw [hns, display_of_empty, ofDotted_of_not_mem h]
  · rw [display_of_ne hns, ofDotted_append h]

/-- The names that come back from their texts are those with one simple name, in which there is no
dot. -/
theorem ofDotted_display_eq_iff {q : QualifiedName} :
    ofDotted q.display = q ↔ ∃ simple, q.simpleNames = [simple] ∧ '.' ∉ simple.toList := by
  constructor
  · intro h
    have hsimple := exists_simpleNames_ofDotted q.display
    rwa [h] at hsimple
  · rintro ⟨simple, hnames, hsimple⟩
    obtain ⟨ns, names⟩ := q
    cases hnames
    exact ofDotted_display hsimple ns

/-! ## Displaying what is split -/

/-- The first character of the text is a dot, and there is no other. -/
def OnlyDotFirst (s : String) : Prop :=
  s.toList.head? = some '.' ∧ s.toList.count '.' = 1

instance : DecidablePred OnlyDotFirst := fun _ => inferInstanceAs (Decidable (_ ∧ _))

/-- The text, without its dot if that is the only one and comes first. -/
def undotted (s : String) : String :=
  if OnlyDotFirst s then String.ofList s.toList.tail else s

theorem onlyDotFirst_append_iff {simple : String} (h : '.' ∉ simple.toList) (ns : String) :
    OnlyDotFirst (ns ++ "." ++ simple) ↔ ns = "" := by
  have hcount : simple.toList.count '.' = 0 := List.count_eq_zero.mpr h
  rw [OnlyDotFirst, toList_append_dot, ← String.toList_eq_nil_iff]
  cases ns.toList with
  | nil => simp [hcount]
  | cons c cs =>
    -- a dot in front would be one more
    simp only [List.cons_append, List.head?_cons, Option.some.injEq, reduceCtorEq, iff_false]
    rintro ⟨rfl, hone⟩
    simp [hcount] at hone

theorem not_onlyDotFirst {s : String} (h : '.' ∉ s.toList) : ¬ OnlyDotFirst s :=
  fun hs => h (List.mem_of_mem_head? hs.1)

theorem display_ofDotted (s : String) : (ofDotted s).display = undotted s := by
  by_cases h : '.' ∈ s.toList
  · obtain ⟨ns, simple, rfl, hsimple⟩ := exists_eq_append_of_mem h
    rw [ofDotted_append hsimple, undotted]
    by_cases hns : ns = ""
    · rw [if_pos ((onlyDotFirst_append_iff hsimple ns).mpr hns), toList_append_dot, hns,
        display_of_empty]
      simp
    · rw [if_neg (mt (onlyDotFirst_append_iff hsimple ns).mp hns), display_of_ne hns]
  · rw [ofDotted_of_not_mem h, display_of_empty, undotted, if_neg (not_onlyDotFirst h)]

-- of two dots in front the first is a namespace of its own
example : (ofDotted ".Long").display = "Long" ∧ (ofDotted "..Long").display = "..Long" := by
  decide +kernel

end QualifiedName

/-! ## Scalars that are mapped -/

theorem Leaf.display_typeName_mapped (name mapped : String) :
    (Leaf.customScalar name (some mapped)).typeName.display = QualifiedName.undotted mapped :=
  QualifiedName.display_ofDotted mapped

/-- The raw type of a field is displayed as the leaf's name, whatever the layers. -/
theorem TypeRef.display_resolveRaw (t : TypeRef) :
    t.resolveRaw.display = t.leaf.typeName.display := by
  simp [resolveRaw, TypeName.ofName, TypeName.display, TypeName.nullableMark]

/-- A text is found again once it has been split and displayed, but for a dot that is its first
character and its only one. A name is found again once it has been displayed and split just if it
has one simple name without a dot. So a scalar that is mapped is displayed as what it is mapped to,
but for such a dot, under whatever layers it is used. -/
theorem split_display_inverse :
    (∀ s : String, (QualifiedName.ofDotted s).display = QualifiedName.undotted s) ∧
      (∀ q : QualifiedName, QualifiedName.ofDotted q.display = q ↔
        ∃ simple, q.simpleNames = [simple] ∧ '.' ∉ simple.toList) ∧
      ∀ (name mapped : String) (layers : List Wrap),
        (Leaf.customScalar name (some mapped)).typeName.display = QualifiedName.undotted mapped ∧
          (TypeRef.ofWraps (.customScalar name (some mapped)) layers).resolveRaw.display =
            QualifiedName.undotted mapped := by
  refine ⟨QualifiedName.display_ofDotted, fun q => QualifiedName.ofDotted_display_eq_iff, ?_⟩
  intro name mapped layers
  have hleaf := Leaf.display_typeName_mapped name mapped
  refine ⟨hleaf, ?_⟩
  rw [TypeRef.display_resolveRaw, TypeRef.leaf_ofWraps, hleaf]

end SelectionModels
