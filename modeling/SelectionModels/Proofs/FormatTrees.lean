import SelectionModels.Proofs.ContentTrees
import SelectionModels.Proofs.Keys
import SelectionModels.Proofs.SoleValue

/-! # Trees of formats

Where in a tree the parts of a value stand, by the keys that its format has. A key that no format
knows hides what is under it; of a leaf, the kind says which keys there are.

* `Format.Contains`: what is read as a value of a format, somewhere in a tree;
* `Format.OnceKeyed`, `Format.WellFormed`: what is asked of a tree that is read so;
* `Format.paths`: the model paths in a value;
* `Format.Sound`: everything in a tree is well-formed, and the paths of its value stand in it;
* `Format.shows_sound_of_record`: records of which every member is sound.
-/

namespace SelectionModels

open Json Reader Tree

/-! ## Keys -/

/-- The text of a string. -/
def Json.Tree.text? : Tree → Option String
  | .text s => s
  | _ => none

/-- What stands under a key: nothing that a format is needed for, a value of a format, which may be
left out with `null`, or a list of such values. -/
inductive Part where
  | plain
  | one (f : Format)
  | many (f : Format)

/-- The keys that go with a kind. -/
def Leaf.Tag.parts : Tag → List (String × Part)
  | .builtin _ => []
  | .enum => [("namespace", .plain), ("name", .plain)]
  | .customScalar => [("name", .plain), ("mapped_type", .plain)]
  | .model => [("path", .one .modelPath)]

/-- The kind that a tree names. -/
def Leaf.tagOf? (t : Tree) : Option Tag :=
  (t.entries ["kind"]).head?.bind fun entry => entry.2.text?.bind (tags.lookup ·)

namespace Format

/-- The keys of a value, in order, with what stands under them. -/
def parts : Format → Tree → List (String × Part)
  | document, _ => [("namespace", .plain), ("custom_scalars", .many customScalar),
      ("operations", .many operation), ("fragments", .many fragment)]
  | operation, _ | fragment, _ => [("name", .plain), ("data_field", .one field)]
  | fieldSet, _ => [("model_name", .plain), ("full_path", .one modelPath),
      ("fields", .many field), ("implements", .many modelPath)]
  | field, _ => [("response_name", .plain), ("type", .one typeRef), ("description", .plain),
      ("deprecation_reason", .plain), ("override", .plain), ("field_sets", .many fieldSet),
      ("implementation_field_sets", .many fieldSet), ("base_field_set", .one fieldSet)]
  | customScalar, _ => [("name", .plain), ("mapped_type", .plain), ("description", .plain),
      ("deprecation_reason", .plain)]
  | typeRef, _ => [("named", .one leaf), ("nullable", .one typeRef), ("list", .one typeRef)]
  | leaf, t => ("kind", .plain) :: ((Leaf.tagOf? t).elim [] Leaf.Tag.parts)
  | modelPath, _ => [("namespace", .plain), ("elements", .plain)]

/-- The keys of a value. -/
def keys (f : Format) (t : Tree) : List String :=
  (f.parts t).map (·.1)

theorem mem_keys_of_lookup {f : Format} {t : Tree} {key : String} {part : Part}
    (h : (f.parts t).lookup key = some part) : key ∈ f.keys t :=
  List.mem_map_of_mem (mem_of_lookup_eq_some h)

end Format

/-- A tree under a key is, or lists, the tree of a value of a format. -/
inductive Part.Holds : Part → Tree → Format → Tree → Prop where
  | one {f : Format} {t : Tree} : Holds (.one f) t f t
  | many {f : Format} {ts : List Tree} {t : Tree} (h : t ∈ ts) : Holds (.many f) (.list ts) f t

namespace Format

/-- The last tree stands in the first one, and when the first is read as the first format the last
is read as the last. -/
inductive Contains : Format → Tree → Format → Tree → Prop where
  | here {f : Format} {t : Tree} : Contains f t f t
  | under {f g h : Format} {t u v w : Tree} {key : String} {part : Part}
    (hentry : (key, u) ∈ t.entries (f.keys t)) (hpart : (f.parts t).lookup key = some part)
    (hheld : part.Holds u g v) (hbelow : Contains g v h w) : Contains f t h w

end Format

/-- What stands in a tree under a key. -/
def Part.Contains (part : Part) (t : Tree) (g : Format) (u : Tree) : Prop :=
  ∃ f v, part.Holds t f v ∧ f.Contains v g u

/-- What stands in the trees of some entries. -/
def Below (parts : List (String × Part)) (entries : List (String × Tree)) (g : Format) (u : Tree) :
    Prop :=
  ∃ key t part, (key, t) ∈ entries ∧ parts.lookup key = some part ∧ part.Contains t g u

theorem Format.contains_iff {f g : Format} {t u : Tree} :
    f.Contains t g u ↔ (g = f ∧ u = t) ∨ Below (f.parts t) (t.entries (f.keys t)) g u := by
  constructor
  · intro h
    cases h with
    | here => exact .inl ⟨rfl, rfl⟩
    | under hentry hpart hheld hbelow =>
      exact .inr ⟨_, _, _, hentry, hpart, _, _, hheld, hbelow⟩
  · rintro (⟨rfl, rfl⟩ | ⟨key, v, part, hentry, hpart, _, _, hheld, hbelow⟩)
    · exact .here
    · exact .under hentry hpart hheld hbelow

/-! ## What is asked of a tree -/

namespace Format

/-- In an object no key of the format stands twice. An object for a type reference has one key. -/
def OnceKeyed (f : Format) (t : Tree) : Prop :=
  ∀ members, t = .object members →
    (∀ key ∈ f.keys t, (members.map (·.1)).count (some key) ≤ 1) ∧
      (f = typeRef → members.length = 1)

end Format

/-- The tree of a namespace and some elements. -/
def Json.Tree.IsPath (t : Tree) (ns : String) (elements : List String) : Prop :=
  ("namespace", .text (some ns)) ∈ t.entries (Format.modelPath.keys t) ∧
    ("elements", .list (elements.map fun s => .text (some s))) ∈
      t.entries (Format.modelPath.keys t)

/-- A tree that may be read in a format: keys stand once, and a model path has elements. -/
structure Format.WellFormed (f : Format) (t : Tree) : Prop where
  onceKeyed : f.OnceKeyed t
  path : f = .modelPath → ∃ ns elements, elements ≠ [] ∧ t.IsPath ns elements

theorem count_keys_of_object {members : List (Option String × Tree)} {names : List String}
    {key : String} (hkey : key ∈ names) : (members.map (·.1)).count (some key) =
      (((Tree.object members).entries names).map (·.1)).count key := by
  rw [entries, List.map_filterMap]
  induction members with
  | nil => rfl
  | cons m members ih =>
    obtain ⟨name, t⟩ := m
    rw [List.map_cons, List.count_cons, ih, List.filterMap_cons]
    by_cases hname : name = some key
    · subst hname
      simp [Option.filter, hkey]
    · -- another key is not counted, whether it is among the names or not
      cases name with
      | none => simp
      | some name =>
        have hne : name ≠ key := fun h => hname (congrArg some h)
        by_cases hmem : name ∈ names <;> simp [Option.filter, hmem, hne]

/-- Keys stand once if no entry has the key of another. -/
theorem Format.onceKeyed_of_nodup {f : Format} {t : Tree} (hform : f ≠ typeRef)
    (h : ((t.entries (f.keys t)).map (·.1)).Nodup) : f.OnceKeyed t := by
  rintro members rfl
  refine ⟨fun key hkey => ?_, fun hf => absurd hf hform⟩
  rw [count_keys_of_object hkey]
  exact List.nodup_iff_count_le_one.mp h key

/-! ## Model paths in values -/

/-- The model paths in a leaf. -/
def Leaf.paths : Leaf → List ModelPath
  | .model path => [path]
  | _ => []

/-- The model paths in a type reference. -/
def TypeRef.paths (t : TypeRef) : List ModelPath :=
  t.leaf.paths

mutual

/-- The model paths in a field. -/
def Field.paths : Field → List ModelPath
  | .mk _ type _ _ _ fieldSets implementationFieldSets baseFieldSet =>
    type.paths ++ FieldSet.listPaths fieldSets ++ FieldSet.listPaths implementationFieldSets ++
      FieldSet.optionPaths baseFieldSet
termination_by structural f => f

/-- The model paths in a field set. -/
def FieldSet.paths : FieldSet → List ModelPath
  | .mk _ path fields implements => path :: Field.listPaths fields ++ implements
termination_by structural s => s

def FieldSet.optionPaths : Option FieldSet → List ModelPath
  | none => []
  | some s => FieldSet.paths s
termination_by structural s => s

def FieldSet.listPaths : List FieldSet → List ModelPath
  | [] => []
  | s :: rest => FieldSet.paths s ++ FieldSet.listPaths rest
termination_by structural sets => sets

def Field.listPaths : List Field → List ModelPath
  | [] => []
  | f :: rest => Field.paths f ++ Field.listPaths rest
termination_by structural fields => fields

end

/-- The model paths in a document. -/
def Document.paths (d : Document) : List ModelPath :=
  d.operations.flatMap (·.dataField.paths) ++ d.fragments.flatMap (·.dataField.paths)

/-- The model paths in a value. -/
def Format.paths : (f : Format) → f.Data → List ModelPath
  | .document, d => Document.paths d
  | .operation, o => Field.paths o.dataField
  | .fragment, f => Field.paths f.dataField
  | .fieldSet, s => FieldSet.paths s
  | .field, f => Field.paths f
  | .customScalar, _ => []
  | .typeRef, t => TypeRef.paths t
  | .leaf, l => Leaf.paths l
  | .modelPath, p => [p]

namespace Format

theorem flatMap_paths_fieldSet (sets : List fieldSet.Data) :
    sets.flatMap fieldSet.paths = FieldSet.listPaths sets := by
  induction sets with
  | nil => rfl
  | cons s rest ih =>
    rw [List.flatMap_cons, ih]
    rfl

theorem elim_paths_fieldSet (s : Option fieldSet.Data) :
    s.elim [] fieldSet.paths = FieldSet.optionPaths s := by
  cases s <;> rfl

theorem flatMap_paths_field (fields : List field.Data) :
    fields.flatMap field.paths = Field.listPaths fields := by
  induction fields with
  | nil => rfl
  | cons f rest ih =>
    rw [List.flatMap_cons, ih]
    rfl

end Format

/-! ## Sound trees -/

/-- Some trees in formats are well-formed, and some paths are among them. -/
structure Faithful (C : Format → Tree → Prop) (ps : List ModelPath) : Prop where
  wellFormed : ∀ g u, C g u → g.WellFormed u
  stands : ∀ p ∈ ps, ∃ u, C .modelPath u ∧ u.IsPath p.ns p.elements

/-- What stands in a tree that is read as a value is well-formed, and so the paths of the value. -/
def Format.Sound (f : Format) (t : Tree) (v : f.Data) : Prop :=
  Faithful (f.Contains t) (f.paths v)

namespace Faithful

variable {C C' D : Format → Tree → Prop} {ps ps' : List ModelPath}

theorem union (h : Faithful C ps) (h' : Faithful C' ps') (hD : ∀ g u, D g u ↔ C g u ∨ C' g u) :
    Faithful D (ps ++ ps') where
  wellFormed g u hu := ((hD g u).mp hu).elim (h.wellFormed g u) (h'.wellFormed g u)
  stands p hp := by
    rcases List.mem_append.mp hp with hp | hp
    · obtain ⟨u, hu, hpath⟩ := h.stands p hp
      exact ⟨u, (hD _ u).mpr (.inl hu), hpath⟩
    · obtain ⟨u, hu, hpath⟩ := h'.stands p hp
      exact ⟨u, (hD _ u).mpr (.inr hu), hpath⟩

theorem congr (h : Faithful C ps) (hC : ∀ g u, C' g u ↔ C g u) : Faithful C' ps where
  wellFormed g u hu := h.wellFormed g u ((hC g u).mp hu)
  stands p hp := by
    obtain ⟨u, hu, hpath⟩ := h.stands p hp
    exact ⟨u, (hC _ u).mpr hu, hpath⟩

/-- Where nothing stands, no path does. -/
theorem of_not (h : ∀ g u, ¬C g u) : Faithful C [] where
  wellFormed g u hu := absurd hu (h g u)
  stands := by simp

end Faithful

namespace Part

theorem faithful_plain (t : Tree) : Faithful (plain.Contains t) [] := by
  refine .of_not ?_
  rintro g u ⟨_, _, ⟨⟩, -⟩

theorem faithful_one {f : Format} {t : Tree} {v : f.Data} (h : f.Sound t v) :
    Faithful ((one f).Contains t) (f.paths v) := by
  refine h.congr fun g u => ⟨?_, fun hu => ⟨f, t, .one, hu⟩⟩
  rintro ⟨_, _, ⟨⟩, hu⟩
  exact hu

/-- `null` has nothing in it. -/
theorem faithful_null {f : Format} (hf : f ≠ .modelPath) :
    Faithful ((one f).Contains .plain) [] where
  wellFormed g u hu := by
    obtain ⟨_, _, ⟨⟩, hu⟩ := hu
    -- only `null` itself is read, and it is no object and no path
    rcases Format.contains_iff.mp hu with ⟨rfl, rfl⟩ | ⟨_, _, _, hentry, -⟩
    · refine ⟨?_, fun hg => absurd hg hf⟩
      rintro members ⟨⟩
    · cases hentry
  stands := by simp

theorem faithful_optional {f : Format} (hf : f ≠ .modelPath) {t : Tree} {v : Option f.Data}
    (h : v.elim (t = .plain) (f.Sound t)) :
    Faithful ((one f).Contains t) (v.elim [] f.paths) := by
  cases v with
  | none =>
    obtain rfl : t = .plain := h
    exact faithful_null hf
  | some v => exact faithful_one h

theorem faithful_many {f : Format} {ts : List Tree} {vs : List f.Data}
    (h : List.Forall₂ f.Sound ts vs) :
    Faithful ((many f).Contains (.list ts)) (vs.flatMap f.paths) := by
  induction h with
  | nil =>
    refine .of_not ?_
    rintro g u ⟨_, _, hheld, -⟩
    cases hheld with
    | many hmem => cases hmem
  | cons hfirst hlater ih =>
    refine hfirst.union ih fun g u => ⟨?_, ?_⟩
    · rintro ⟨_, _, hheld, hu⟩
      cases hheld with
      | many hmem =>
        rcases List.mem_cons.mp hmem with rfl | hmem
        · exact .inl hu
        · exact .inr ⟨_, _, .many hmem, hu⟩
    · rintro (hu | ⟨_, _, hheld, hu⟩)
      · exact ⟨_, _, .many List.mem_cons_self, hu⟩
      · cases hheld with
        | many hmem => exact ⟨_, _, .many (List.mem_cons_of_mem _ hmem), hu⟩

end Part

/-! ## Entries -/

/-- What an entry adds: no paths but those that stand in its tree. -/
def Adder {σ : Type} (parts : List (String × Part)) (paths : σ → List ModelPath) (key : String)
    (t : Tree) (add : σ → σ) : Prop :=
  ∃ part ps, parts.lookup key = some part ∧ Faithful (part.Contains t) ps ∧
    ∀ s, paths (add s) ⊆ paths s ++ ps

/-- An entry without paths. -/
theorem Adder.plain {σ : Type} {parts : List (String × Part)} {paths : σ → List ModelPath}
    {key : String} {t : Tree} {add : σ → σ} (hpart : parts.lookup key = some .plain)
    (h : ∀ s, paths (add s) = paths s) : Adder parts paths key t add := by
  refine ⟨.plain, [], hpart, Part.faithful_plain t, fun s => ?_⟩
  rw [h, List.append_nil]
  exact List.Subset.refl _

theorem below_cons_iff {parts : List (String × Part)} {key : String} {part : Part}
    (hpart : parts.lookup key = some part) {t : Tree} {entries : List (String × Tree)} {g : Format}
    {u : Tree} : Below parts ((key, t) :: entries) g u ↔
      part.Contains t g u ∨ Below parts entries g u := by
  constructor
  · rintro ⟨key', t', part', hentry, hpart', hu⟩
    rcases List.mem_cons.mp hentry with hsame | hentry
    · obtain ⟨rfl, rfl⟩ := Prod.mk.inj hsame
      obtain rfl := Option.some.inj (hpart.symm.trans hpart')
      exact .inl hu
    · exact .inr ⟨key', t', part', hentry, hpart', hu⟩
  · rintro (hu | ⟨key', t', part', hentry, hpart', hu⟩)
    · exact ⟨key, t, part, List.mem_cons_self, hpart, hu⟩
    · exact ⟨key', t', part', List.mem_cons_of_mem _ hentry, hpart', hu⟩

/-- What some entries add are paths that stand below them. -/
theorem exists_faithful_of_adds {σ : Type} {parts : List (String × Part)}
    {paths : σ → List ModelPath} {entries : List (String × Tree)} {s s' : σ}
    (h : Adds (Adder parts paths) entries s s') :
    ∃ ps, Faithful (Below parts entries) ps ∧ paths s' ⊆ paths s ++ ps := by
  induction h with
  | nil =>
    refine ⟨[], .of_not ?_, by simp⟩
    rintro g u ⟨_, _, _, ⟨⟩, -⟩
  | cons hadd _ ih =>
    obtain ⟨part, added, hpart, hfaithful, hpaths⟩ := hadd
    obtain ⟨ps, hbelow, hlater⟩ := ih
    refine ⟨added ++ ps, hfaithful.union hbelow fun g u => below_cons_iff hpart, ?_⟩
    rw [← List.append_assoc]
    intro p hp
    rcases List.mem_append.mp (hlater hp) with hp | hp
    · exact List.mem_append_left _ (hpaths _ hp)
    · exact List.mem_append_right _ hp

/-- A tree is sound if it is well-formed and its entries are. -/
theorem Format.Sound.of_below {f : Format} {t : Tree} {v : f.Data} {ps : List ModelPath}
    (hroot : f.WellFormed t) (hbelow : Faithful (Below (f.parts t) (t.entries (f.keys t))) ps)
    (hpaths : f.paths v ⊆ ps) : f.Sound t v where
  wellFormed g u hu := by
    rcases Format.contains_iff.mp hu with ⟨rfl, rfl⟩ | hu
    · exact hroot
    · exact hbelow.wellFormed g u hu
  stands p hp := by
    obtain ⟨u, hu, hpath⟩ := hbelow.stands p (hpaths hp)
    exact ⟨u, Format.contains_iff.mpr (.inr hu), hpath⟩

/-- What is built of sound entries. -/
theorem Format.Sound.of_builds {σ : Type} {f : Format} {t : Tree} {v : f.Data}
    {paths : σ → List ModelPath} {blank : σ} {build : σ → Except String f.Data}
    (hform : f ≠ typeRef ∧ f ≠ modelPath) (hblank : paths blank = [])
    (hbuild : ∀ s, build s = .ok v → f.paths v ⊆ paths s)
    (h : Builds (f.keys t) (Adder (f.parts t) paths) blank build t v) : f.Sound t v := by
  obtain ⟨hnodup, s, hadds, hs⟩ := h
  obtain ⟨ps, hbelow, hpaths⟩ := exists_faithful_of_adds hadds
  rw [hblank, List.nil_append] at hpaths
  have hroot : f.WellFormed t :=
    ⟨onceKeyed_of_nodup hform.1 hnodup, fun hf => absurd hf hform.2⟩
  exact .of_below hroot hbelow (List.Subset.trans (hbuild s hs) hpaths)

/-- A record whose members are sound. -/
theorem Format.shows_sound_of_record {σ : Type} {f : Format} {r : Record σ f.Data}
    {parts : List (String × Part)} (paths : σ → List ModelPath)
    (hform : f ≠ typeRef ∧ f ≠ modelPath) (hparts : ∀ t, f.parts t = parts)
    (hkeys : r.members.map (·.name) = parts.map (·.1)) (hnodup : (parts.map (·.1)).Nodup)
    (hblank : paths r.blank = []) (hbuild : ∀ s v, r.build s = .ok v → f.paths v ⊆ paths s)
    (h : ∀ m ∈ r.members, m.read.Shows (Adder parts paths m.name)) (description : String) :
    (record description r).Shows f.Sound := by
  refine (shows_record (hkeys ▸ hnodup) h description).mono fun t v hbuilds => ?_
  refine .of_builds hform hblank (fun s => hbuild s v) ?_
  rwa [keys, hparts, ← hkeys]

end SelectionModels
