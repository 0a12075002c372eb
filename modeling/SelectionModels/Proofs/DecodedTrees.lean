import SelectionModels.Proofs.FormatTrees

/-! # Trees of decoded values

Whatever is decoded from a source is the value of a tree at the front of it, and all that stands in
this tree is as it should be: no key is there twice, every model path has elements, and the paths of
the value are paths in the tree.

* `Format.shows_reader`: what every format comes to is sound;
* `Format.exists_sound_of_decode`: the tree of a decoded value;
* `keys_stand_once`: no key of a format is repeated in what is decoded.
-/

namespace SelectionModels

open Json Reader Tree

/-- Where no bracket may be opened, no record is read. -/
theorem Json.Reader.shows_noRecord {α : Type} (description : String) (P : Tree → α → Prop) :
    (noRecord description).Shows P :=
  shows_of_fails fun _ _ _ hrun => yields_noRecord description (fun _ => False) hrun

/-- A member whose value has no paths. -/
theorem Json.Reader.Shows.adder_plain {α σ : Type} {r : Reader α} {P : Tree → α → Prop}
    (h : r.Shows P) {parts : List (String × Part)} {paths : σ → List ModelPath} {key : String}
    {add : α → σ → σ} (hpart : parts.lookup key = some .plain)
    (hadd : ∀ a s, paths (add a s) = paths s) : (add <$> r).Shows (Adder parts paths key) :=
  h.map fun _ a _ => .plain hpart (hadd a)

/-- The trees of a list are the trees of values. -/
def Format.SoundList (f : Format) (t : Tree) (vs : List f.Data) : Prop :=
  ∃ ts, t = .list ts ∧ List.Forall₂ f.Sound ts vs

section Members

variable {f : Format} {σ : Type} {parts : List (String × Part)} {paths : σ → List ModelPath}
  {key : String}

/-- A member with a value in a format. -/
theorem Json.Reader.Shows.adder_one {r : Reader f.Data} (h : r.Shows f.Sound)
    {add : f.Data → σ → σ} (hpart : parts.lookup key = some (.one f))
    (hadd : ∀ v s, paths (add v s) ⊆ paths s ++ f.paths v) :
    (add <$> r).Shows (Adder parts paths key) :=
  h.map fun _ v hv => ⟨.one f, f.paths v, hpart, Part.faithful_one hv, hadd v⟩

/-- A member with a value that may be left out. -/
theorem Json.Reader.Shows.adder_optional {r : Reader f.Data} (h : r.Shows f.Sound)
    (hform : f ≠ .modelPath) {add : Option f.Data → σ → σ}
    (hpart : parts.lookup key = some (.one f))
    (hadd : ∀ v s, paths (add v s) ⊆ paths s ++ v.elim [] f.paths) :
    (add <$> Reader.optional r).Shows (Adder parts paths key) :=
  (shows_optional h).map fun _ v hv =>
    ⟨.one f, v.elim [] f.paths, hpart, Part.faithful_optional hform hv, hadd v⟩

/-- A member with a list of values. -/
theorem Json.Reader.Shows.adder_many {r : Reader (List f.Data)} (h : r.Shows f.SoundList)
    {add : List f.Data → σ → σ} (hpart : parts.lookup key = some (.many f))
    (hadd : ∀ vs s, paths (add vs s) ⊆ paths s ++ vs.flatMap f.paths) :
    (add <$> r).Shows (Adder parts paths key) := by
  refine h.map fun t vs hvs => ⟨.many f, vs.flatMap f.paths, hpart, ?_, hadd vs⟩
  obtain ⟨ts, rfl, hts⟩ := hvs
  exact Part.faithful_many hts

/-- A list is sound if its items are. -/
theorem shows_soundList_listReader {reader : (levels : Nat) → Reader f.Data}
    (h : ∀ levels, (reader levels).Shows f.Sound) (levels : Nat) :
    (listReader reader levels).Shows f.SoundList := by
  cases levels with
  | zero => exact shows_listOf (by simp)
  | succ levels =>
    refine shows_listOf fun r hr => ?_
    obtain rfl := Option.some.inj hr
    exact h levels

end Members

/-- A list whose items are known from their trees. -/
theorem Json.Reader.shows_listOf_map {α : Type} {item : Option (Reader α)} {g : α → Tree}
    (h : ∀ r ∈ item, r.Shows fun t a => t = g a) :
    (listOf item).Shows fun t as => t = .list (as.map g) := by
  refine (shows_listOf h).mono ?_
  rintro t as ⟨ts, ht, hts⟩
  have hitems : ts = as.map g := by
    rwa [← List.forall₂_eq_eq_eq, List.forall₂_map_right_iff]
  rw [ht, hitems]

namespace Json.Tree

/-- Where no keys are known there are no entries. -/
theorem entries_nil (t : Tree) : t.entries [] = [] := by
  cases t with
  | object members => simp [entries]
  | _ => rfl

/-- An entry stands under a known key. -/
theorem mem_of_mem_entries {names : List String} {t : Tree} {entry : String × Tree}
    (h : entry ∈ t.entries names) : entry.1 ∈ names := by
  cases t with
  | object members =>
    obtain ⟨m, -, hm⟩ := List.mem_filterMap.mp h
    obtain ⟨name, hname, rfl⟩ := Option.map_eq_some_iff.mp hm
    simpa using (Option.filter_eq_some_iff.mp hname).2
  | list items => exact (List.of_mem_zip h).1
  | _ => cases h

end Json.Tree

namespace Json.Content

/-- Content that is a text has the tree of that text. -/
theorem tree_of_toText {c : Content} {s : String} (h : c.toText = .ok s) :
    c.tree = .text (some s) := by
  cases c with
  | text s' =>
    obtain rfl := Except.ok.inj h
    rfl
  | _ => cases h

/-- Content that is a list of texts has the tree of that list. -/
theorem tree_of_toTexts {c : Content} {ss : List String} (h : c.toTexts = .ok ss) :
    c.tree = .list (ss.map fun s => .text (some s)) := by
  cases c with
  | list items =>
    change items.mapM toText = .ok ss at h
    refine congrArg Tree.list ?_
    induction items generalizing ss with
    | nil =>
      cases h
      rfl
    | cons c items ih =>
      rw [List.mapM_cons] at h
      obtain ⟨s, hs, h⟩ := bind_eq_ok_iff.mp h
      obtain ⟨later, hlater, h⟩ := bind_eq_ok_iff.mp h
      cases h
      rw [treeItems, ih hlater, List.map_cons, tree_of_toText hs]
  | _ => cases h

end Json.Content

/-! ## Model paths -/

namespace ModelPath

/-- What an entry of a path adds. -/
inductive Entry : String → Tree → (Parts → Parts) → Prop where
  | ns (s : String) : Entry "namespace" (.text (some s)) fun p => { p with ns := some s }
  | elements (ss : List String) : Entry "elements" (.list (ss.map fun s => .text (some s)))
      fun p => { p with elements := some ss }

/-- What is known of a path was known before or stands in an entry. -/
theorem known_of_adds {entries : List (String × Tree)} {s s' : Parts}
    (h : Adds Entry entries s s') :
    (∀ ns ∈ s'.ns, ns ∈ s.ns ∨ ("namespace", .text (some ns)) ∈ entries) ∧
      ∀ ss ∈ s'.elements, ss ∈ s.elements ∨
        ("elements", .list (ss.map fun s => .text (some s))) ∈ entries := by
  induction h with
  | nil => exact ⟨fun _ h => .inl h, fun _ h => .inl h⟩
  | cons hadd _ ih =>
    obtain ⟨hns, helements⟩ := ih
    constructor
    · intro ns h
      rcases hns ns h with h | h
      · cases hadd with
        | ns s =>
          obtain rfl := Option.some.inj h
          exact .inr List.mem_cons_self
        | elements => exact .inl h
      · exact .inr (List.mem_cons_of_mem _ h)
    · intro ss h
      rcases helements ss h with h | h
      · cases hadd with
        | ns => exact .inl h
        | elements ss' =>
          obtain rfl := Option.some.inj h
          exact .inr List.mem_cons_self
      · exact .inr (List.mem_cons_of_mem _ h)

/-- The namespace of a path is the one that was read. -/
theorem ns_of_build {s : Parts} {value : String × List String} (h : s.build = .ok value) :
    s.ns = some value.1 := by
  obtain ⟨ns, hns, h⟩ := bind_eq_ok_iff.mp h
  obtain ⟨elements, -, h⟩ := bind_eq_ok_iff.mp h
  cases h
  exact need_eq_ok_iff.mp hns

/-- A path that is built of entries has its elements there. -/
theorem sound_of_builds {t : Tree} {value : String × List String} {p : ModelPath}
    (h : Builds ["namespace", "elements"] Entry .blank Parts.build t value)
    (hp : ofElements? value.1 value.2 = some p) : Format.modelPath.Sound t p := by
  obtain ⟨hnodup, s, hadds, hs⟩ := h
  obtain ⟨hns, helements⟩ := known_of_adds hadds
  have hpath : t.IsPath p.ns p.elements := by
    obtain ⟨hpns, hpelements⟩ := ofElements?_eq_some_iff.mp hp
    rw [hpns, hpelements]
    constructor
    · exact (hns _ (ns_of_build hs)).resolve_left (by simp [Parts.blank])
    · exact (helements _ (elements_of_build hs)).resolve_left (by simp [Parts.blank])
  have hroot : Format.modelPath.WellFormed t := by
    refine ⟨Format.onceKeyed_of_nodup (by simp) hnodup, fun _ => ?_⟩
    exact ⟨p.ns, p.elements, List.cons_ne_nil _ _, hpath⟩
  have honly : ∀ g u, Format.modelPath.Contains t g u → g = .modelPath ∧ u = t := by
    intro g u hu
    rcases Format.contains_iff.mp hu with hu | ⟨key, v, part, -, hpart, _, _, hheld, -⟩
    · exact hu
    · -- nothing is read in a format below a path
      have hplain : part = .plain := by
        have hentry := mem_of_lookup_eq_some hpart
        simp only [Format.parts, List.mem_cons, Prod.mk.injEq, List.not_mem_nil, or_false] at hentry
        tauto
      subst hplain
      cases hheld
  constructor
  · intro g u hu
    obtain ⟨rfl, rfl⟩ := honly g u hu
    exact hroot
  · intro q hq
    obtain rfl : q = p := by simpa [Format.paths] using hq
    exact ⟨t, .here, hpath⟩

/-- A list of texts is taken as the tree of that list. -/
theorem shows_textsReader (levels : Nat) :
    (textsReader levels).Shows fun t ss => t = .list (ss.map fun s => .text (some s)) := by
  cases levels with
  | zero => exact shows_listOf_map (by simp)
  | succ levels =>
    refine shows_listOf_map fun r hr => ?_
    obtain rfl := Option.some.inj hr
    exact shows_text

/-- A path is taken as the tree of a path. -/
theorem shows_reader (levels : Nat) : (reader levels).Shows Format.modelPath.Sound := by
  have hparts : (partsReader levels).Shows
      (Builds ["namespace", "elements"] Entry .blank Parts.build) := by
    have hnames : ["namespace", "elements"].Nodup := by decide
    cases levels with
    | zero => exact shows_noRecord _ _
    | succ levels =>
      refine shows_record (r := recordOf text (textsReader levels)) hnames ?_ _
      simp only [recordOf, List.forall_mem_cons]
      refine ⟨shows_text.map fun t s ht => ?_, (shows_textsReader levels).map fun t ss ht => ?_,
        by simp⟩
      · rw [ht]
        exact .ns s
      · rw [ht]
        exact .elements ss
  intro input rest p hrun
  obtain ⟨⟨ns, elements⟩, mid, hread, hlater⟩ := run_bind_eq_done_iff.mp hrun
  obtain ⟨t, ht, hbuilds⟩ := hparts hread
  dsimp only at hlater
  split at hlater
  · rename_i path hpath
    cases hlater
    exact ⟨t, ht, sound_of_builds hbuilds hpath⟩
  · cases hlater

/-- A path that is made from content. -/
theorem sound_of_ofContent {c : Content} {p : ModelPath} (h : ofContent c = .ok p) :
    Format.modelPath.Sound c.tree p := by
  obtain ⟨⟨ns, elements⟩, hparts, hp⟩ := bind_eq_ok_iff.mp h
  have hbuilds : Builds ["namespace", "elements"] Entry .blank Parts.build c.tree
      (ns, elements) := by
    refine ContentRecord.builds_of_ofContent (r := contentRecord) (by decide) ?_ hparts
    simp only [contentRecord, List.forall_mem_cons]
    refine ⟨fun c add hadd => ?_, fun c add hadd => ?_, by simp⟩
    · obtain ⟨s, hs, rfl⟩ := map_eq_ok_iff.mp hadd
      rw [Content.tree_of_toText hs]
      exact .ns s
    · obtain ⟨ss, hss, rfl⟩ := map_eq_ok_iff.mp hadd
      rw [Content.tree_of_toTexts hss]
      exact .elements ss
  dsimp only at hp
  split at hp
  · rename_i path hpath
    cases hp
    exact sound_of_builds hbuilds hpath
  · cases hp

end ModelPath

/-! ## Leaves -/

namespace Leaf

/-- The kind of a tagged tree is found in it. -/
theorem tagOf?_of_tagged {t : Tree} {tag : Tag} {c : Content}
    (h : Tagged "kind" tags t (tag, c)) : tagOf? t = some tag := by
  obtain ⟨name, hname, hentries⟩ := h.entries_perm
  have hkind : t.entries ["kind"] = [("kind", .text (some name))] := by
    rw [← List.perm_singleton, ← entries_nil c.tree]
    exact hentries []
  rw [tagOf?, hkind]
  exact hname

/-- A leaf that is built of what stands beside its kind. -/
theorem sound_of_builds {σ : Type} {t : Tree} {tag : Tag} {c : Content} {leaf : Leaf}
    (paths : σ → List ModelPath) {blank : σ} {build : σ → Except String Leaf}
    (ht : Tagged "kind" tags t (tag, c)) (hblank : paths blank = [])
    (hbuild : ∀ s, build s = .ok leaf → leaf.paths ⊆ paths s)
    (h : Builds (tag.parts.map (·.1)) (Adder (("kind", .plain) :: tag.parts) paths) blank build
      c.tree leaf) : Format.leaf.Sound t leaf := by
  have hparts : Format.leaf.parts t = ("kind", .plain) :: tag.parts := by
    rw [Format.parts, tagOf?_of_tagged ht]
    rfl
  have hkeys : Format.leaf.keys t = "kind" :: tag.parts.map (·.1) := by
    rw [Format.keys, hparts, List.map_cons]
  obtain ⟨hnodup, s, hadds, hs⟩ := h
  obtain ⟨ps, hbelow, hpaths⟩ := exists_faithful_of_adds hadds
  rw [hblank, List.nil_append] at hpaths
  obtain ⟨name, -, hentries⟩ := ht.entries_perm
  have hentries := hentries (tag.parts.map (·.1))
  have hroot : Format.leaf.WellFormed t := by
    refine ⟨Format.onceKeyed_of_nodup (by simp) ?_, by simp⟩
    rw [hkeys, (hentries.map (·.1)).nodup_iff, List.map_cons, List.nodup_cons]
    refine ⟨fun hkind => ?_, hnodup⟩
    -- no other key is the one of the kind
    obtain ⟨entry, hentry, hkind⟩ := List.mem_map.mp hkind
    have hkind := hkind ▸ mem_of_mem_entries hentry
    cases tag <;> simp [Tag.parts] at hkind
  have hlookup : (("kind", Part.plain) :: tag.parts).lookup "kind" = some .plain := rfl
  have hkind := (Part.faithful_plain (.text (some name))).union hbelow
    fun g u => below_cons_iff hlookup
  -- the entries of the leaf are its kind and those of the content, in some order
  have hall : Faithful (Below (Format.leaf.parts t) (t.entries (Format.leaf.keys t))) ps := by
    rw [hkeys, hparts]
    refine hkind.congr fun g u => ?_
    simp only [Below, hentries.mem_iff]
  exact .of_below hroot hall (List.Subset.trans (hbuild s hs) hpaths)

/-- A leaf without paths. -/
theorem sound_of_plain {σ : Type} {r : ContentRecord σ Leaf} {t : Tree} {tag : Tag} {c : Content}
    {leaf : Leaf} (ht : Tagged "kind" tags t (tag, c))
    (hnames : r.members.map (·.name) = tag.parts.map (·.1))
    (hnodup : (tag.parts.map (·.1)).Nodup)
    (hplain : ∀ m ∈ r.members, tag.parts.lookup m.name = some .plain)
    (hpaths : ∀ s, r.build s = .ok leaf → leaf.paths = []) (h : r.ofContent c = .ok leaf) :
    Format.leaf.Sound t leaf := by
  have hmember : ∀ m ∈ r.members, ∀ c add, m.read c = .ok add →
      Adder (("kind", .plain) :: tag.parts) (fun _ : σ => []) m.name c.tree add := by
    intro m hm c add _
    refine .plain ?_ fun _ => rfl
    by_cases hname : m.name = "kind"
    · rw [hname]
      rfl
    · rw [List.lookup_cons, beq_false_of_ne hname]
      exact hplain m hm
  have hbuilds := ContentRecord.builds_of_ofContent (hnames ▸ hnodup) hmember h
  rw [hnames] at hbuilds
  exact sound_of_builds _ ht rfl (fun s hs => (hpaths s hs).symm ▸ List.nil_subset _) hbuilds

/-- The kinds without parts of their own have no paths. -/
theorem paths_of_mem_tags : ∀ c ∈ tags, ∀ leaf, c.2 = .builtin leaf → leaf.paths = [] := by
  simp [tags, paths]

/-- The leaf of a kind that is made from content. -/
theorem sound_of_ofContent {t : Tree} {tag : Tag} {c : Content} {leaf : Leaf}
    (ht : Tagged "kind" tags t (tag, c)) (h : ofContent tag c = .ok leaf) :
    Format.leaf.Sound t leaf := by
  cases tag with
  | builtin builtin =>
    -- nothing is made from the content of a built-in kind
    obtain rfl : builtin = leaf := by
      rw [ofContent, builtinOfContent.eq_def] at h
      split at h <;> cases h
      rfl
    obtain ⟨kind, hkind, -⟩ := ht.entries_perm
    have hpaths : builtin.paths = [] :=
      paths_of_mem_tags _ (mem_of_lookup_eq_some hkind) builtin rfl
    have hbuilds : Builds [] (Adder [("kind", .plain)] fun _ : Unit => []) ()
        (fun _ => .ok builtin) c.tree builtin := by
      refine ⟨?_, (), ?_, rfl⟩
      · rw [entries_nil]
        exact List.nodup_nil
      · rw [entries_nil]
        exact .nil
    exact sound_of_builds _ ht rfl (fun _ _ => by simp [hpaths]) hbuilds
  | «enum» =>
    refine sound_of_plain (r := enumRecord) ht rfl (by decide)
      (by simp [enumRecord, Tag.parts, List.lookup_cons]) (fun s hs => ?_) h
    obtain ⟨ns, -, hs⟩ := bind_eq_ok_iff.mp hs
    obtain ⟨name, -, hs⟩ := bind_eq_ok_iff.mp hs
    cases hs
    rfl
  | customScalar =>
    refine sound_of_plain (r := customScalarRecord) ht rfl (by decide)
      (by simp [customScalarRecord, Tag.parts, List.lookup_cons]) (fun s hs => ?_) h
    obtain ⟨name, -, hs⟩ := bind_eq_ok_iff.mp hs
    cases hs
    rfl
  | model =>
    refine sound_of_builds Option.toList ht rfl (fun s hs => ?_)
      (ContentRecord.builds_of_ofContent (r := modelRecord) (by decide) ?_ h)
    · obtain ⟨path, hpath, rfl⟩ := map_eq_ok_iff.mp hs
      rw [need_eq_ok_iff.mp hpath]
      exact List.Subset.refl _
    · simp only [modelRecord, List.forall_mem_cons]
      refine ⟨fun c add hadd => ?_, by simp⟩
      obtain ⟨path, hpath, rfl⟩ := map_eq_ok_iff.mp hadd
      have hsound := ModelPath.sound_of_ofContent hpath
      exact ⟨.one .modelPath, [path], rfl, Part.faithful_one hsound,
        fun _ => List.subset_append_right _ _⟩

/-- A leaf is taken as the tree of a leaf: its kind, and what the kind makes of the rest. -/
theorem shows_reader (levels : Nat) : (reader levels).Shows Format.leaf.Sound := by
  have htagged : (taggedReader levels).Shows (Tagged "kind" tags) := by
    cases levels with
    | zero => exact shows_tagged _ _ _ (by simp)
    | succ levels =>
      refine shows_tagged _ _ _ fun r hr => ?_
      obtain rfl := Option.some.inj hr
      exact shows_content levels
  intro input rest leaf hrun
  obtain ⟨⟨tag, c⟩, mid, hread, hlater⟩ := run_bind_eq_done_iff.mp hrun
  obtain ⟨t, ht, hkind⟩ := htagged hread
  dsimp only at hlater
  split at hlater
  · rename_i leaf hleaf
    cases hlater
    exact ⟨t, ht, sound_of_ofContent hkind hleaf⟩
  · cases hlater

end Leaf

/-! ## Type references -/

namespace TypeRef

/-- An object with the key of a form. -/
theorem sound_of_single {key : String} {f : Format} {u : Tree} {v : f.Data} {t : TypeRef}
    (hpart : (Format.typeRef.parts .plain).lookup key = some (.one f)) (h : f.Sound u v)
    (hpaths : t.paths = f.paths v) : Format.typeRef.Sound (.object [(some key, u)]) t := by
  have hkey : key ∈ Format.typeRef.keys .plain := Format.mem_keys_of_lookup hpart
  have hentries : (Tree.object [(some key, u)]).entries (Format.typeRef.keys .plain) =
      [(key, u)] := by
    simp [entries, Option.filter, hkey]
  have hroot : Format.typeRef.WellFormed (.object [(some key, u)]) := by
    refine ⟨?_, by simp⟩
    rintro members ⟨⟩
    exact ⟨fun name _ => List.count_le_length, fun _ => rfl⟩
  -- nothing stands beside the one member
  have hnone : ∀ g w, ¬Below (Format.typeRef.parts .plain) [] g w := by
    rintro g w ⟨_, _, _, ⟨⟩, -⟩
  refine .of_below hroot ?_ (List.Subset.refl _)
  have hbelow := (Part.faithful_one h).union (.of_not hnone) fun g w => below_cons_iff hpart
  rw [List.append_nil, ← hpaths, ← hentries] at hbelow
  exact hbelow

/-- A layer has no path of its own. -/
theorem paths_wrap (t : TypeRef) (w : Wrap) : (t.wrap w).paths = t.paths := by
  cases w <;> rfl

/-- What stands under the key of a form. -/
inductive SoundForm : Form → Tree → TypeRef → Prop where
  | named {u : Tree} {leaf : Leaf} (h : Format.leaf.Sound u leaf) : SoundForm .named u (.named leaf)
  | wrapped {w : Wrap} {u : Tree} {inner : TypeRef} (h : Format.typeRef.Sound u inner) :
    SoundForm (.wrapped w) u (inner.wrap w)

/-- A type reference is one layer around another one, or the leaf. -/
theorem sound_of_chosen {t : Tree} {v : TypeRef} (h : Chosen forms SoundForm t v) :
    Format.typeRef.Sound t v := by
  obtain ⟨name, form, u, hlookup, rfl, hu⟩ := h
  have hform := mem_of_lookup_eq_some hlookup
  simp only [forms, List.mem_cons, Prod.mk.injEq, List.not_mem_nil, or_false] at hform
  rcases hform with ⟨rfl, rfl⟩ | ⟨rfl, rfl⟩ | ⟨rfl, rfl⟩
  · cases hu with
    | named h => exact sound_of_single rfl h rfl
  · cases hu with
    | wrapped h => exact sound_of_single rfl h (paths_wrap _ _)
  · cases hu with
    | wrapped h => exact sound_of_single rfl h (paths_wrap _ _)

/-- A type reference is taken as the tree of one, by induction on its layers. -/
theorem shows_reader (levels : Nat) : (reader levels).Shows Format.typeRef.Sound := by
  induction levels with
  | zero => exact (shows_choice (by simp)).mono fun _ _ => sound_of_chosen
  | succ levels ih =>
    refine (shows_choice fun f hf form => ?_).mono fun _ _ => sound_of_chosen
    obtain rfl := Option.some.inj hf
    cases form with
    | named => exact (Leaf.shows_reader levels).map fun _ _ => .named
    | wrapped w => exact ih.map fun _ _ => .wrapped

end TypeRef

/-! ## Selections -/

theorem ModelPath.shows_listReader (levels : Nat) :
    (ModelPath.listReader levels).Shows Format.modelPath.SoundList := by
  have hlist := shows_soundList_listReader (f := .modelPath) ModelPath.shows_reader levels
  cases levels <;> exact hlist

/-- The paths in what is known of a field. -/
def Field.Parts.paths (p : Field.Parts) : List ModelPath :=
  p.type.elim [] TypeRef.paths ++ FieldSet.listPaths p.fieldSets ++
    FieldSet.listPaths p.implementationFieldSets ++ FieldSet.optionPaths p.baseFieldSet

/-- The paths of a field are those of its parts, in their order. -/
theorem Field.paths_of_build {p : Field.Parts} {f : Field} (h : p.build = .ok f) :
    f.paths = p.paths := by
  obtain ⟨responseName, -, h⟩ := bind_eq_ok_iff.mp h
  obtain ⟨type, htype, h⟩ := bind_eq_ok_iff.mp h
  cases h
  rw [Field.paths, Field.Parts.paths, need_eq_ok_iff.mp htype]
  rfl

/-- The paths in what is known of a field set. -/
def FieldSet.Parts.paths (p : FieldSet.Parts) : List ModelPath :=
  p.path.toList ++ Field.listPaths p.fields ++ p.implements

/-- The paths of a field set are its own and those of its fields. -/
theorem FieldSet.paths_of_build {p : FieldSet.Parts} {s : FieldSet} (h : p.build = .ok s) :
    s.paths = p.paths := by
  obtain ⟨modelName, -, h⟩ := bind_eq_ok_iff.mp h
  obtain ⟨path, hpath, h⟩ := bind_eq_ok_iff.mp h
  cases h
  rw [FieldSet.paths, FieldSet.Parts.paths, need_eq_ok_iff.mp hpath]
  rfl

/-- Selections are read from sound trees. -/
structure SelectionsSound (levels : Nat) : Prop where
  field : (Field.reader levels).Shows Format.field.Sound
  fieldSet : (FieldSet.reader levels).Shows Format.fieldSet.Sound
  fields : (Field.listReader levels).Shows Format.field.SoundList
  fieldSets : (FieldSet.listReader levels).Shows Format.fieldSet.SoundList

namespace SelectionsSound

variable {levels : Nat}

/-- Without a bracket there is no selection. -/
theorem zero : SelectionsSound 0 where
  field := shows_noRecord _ _
  fieldSet := shows_noRecord _ _
  fields := shows_listOf (by simp)
  fieldSets := shows_listOf (by simp)

/-- A bracket around the parts of a field. -/
theorem succ_field (h : SelectionsSound levels) :
    (Field.reader (levels + 1)).Shows Format.field.Sound := by
  refine Format.shows_sound_of_record (f := .field) Field.Parts.paths (by simp)
    (fun _ => rfl) rfl (by decide) rfl (fun p f hbuild => ?_) ?_ _
  · exact (Field.paths_of_build hbuild) ▸ List.Subset.refl _
  simp only [Field.recordOf, delay_eq, List.forall_mem_cons]
  refine ⟨?_, ?_, ?_, ?_, ?_, ?_, ?_, ?_, by simp⟩
  · exact shows_text.adder_plain rfl fun _ _ => rfl
  · refine (TypeRef.shows_reader levels).adder_one (f := .typeRef) rfl fun t p path hpath => ?_
    simp only [Field.Parts.paths, List.mem_append] at hpath ⊢
    tauto
  · exact (shows_optional shows_text).adder_plain rfl fun _ _ => rfl
  · exact (shows_optional shows_text).adder_plain rfl fun _ _ => rfl
  · exact shows_flag.adder_plain rfl fun _ _ => rfl
  · refine h.fieldSets.adder_many (f := .fieldSet) rfl fun sets p path hpath => ?_
    rw [Format.flatMap_paths_fieldSet]
    simp only [Field.Parts.paths, List.mem_append] at hpath ⊢
    tauto
  · refine h.fieldSets.adder_many (f := .fieldSet) rfl fun sets p path hpath => ?_
    rw [Format.flatMap_paths_fieldSet]
    simp only [Field.Parts.paths, List.mem_append] at hpath ⊢
    tauto
  · refine h.fieldSet.adder_optional (f := .fieldSet) (by simp) rfl fun set p path hpath => ?_
    rw [Format.elim_paths_fieldSet]
    simp only [Field.Parts.paths, List.mem_append] at hpath ⊢
    tauto

/-- A bracket around the parts of a field set. -/
theorem succ_fieldSet (h : SelectionsSound levels) :
    (FieldSet.reader (levels + 1)).Shows Format.fieldSet.Sound := by
  refine Format.shows_sound_of_record (f := .fieldSet) FieldSet.Parts.paths
    (by simp) (fun _ => rfl) rfl (by decide) rfl (fun p s hbuild => ?_) ?_ _
  · exact (FieldSet.paths_of_build hbuild) ▸ List.Subset.refl _
  simp only [FieldSet.recordOf, delay_eq, List.forall_mem_cons]
  refine ⟨?_, ?_, ?_, ?_, by simp⟩
  · exact shows_text.adder_plain rfl fun _ _ => rfl
  · refine (ModelPath.shows_reader levels).adder_one (f := .modelPath) rfl fun q p path hpath => ?_
    simp only [FieldSet.Parts.paths, Format.paths, List.mem_append] at hpath ⊢
    tauto
  · refine h.fields.adder_many (f := .field) rfl fun fields p path hpath => ?_
    rw [Format.flatMap_paths_field]
    simp only [FieldSet.Parts.paths, List.mem_append] at hpath ⊢
    tauto
  · refine (ModelPath.shows_listReader levels).adder_many (f := .modelPath) rfl
      fun (paths : List ModelPath) p path hpath => ?_
    have hpaths : paths.flatMap Format.modelPath.paths = paths := List.flatMap_singleton' paths
    rw [hpaths]
    simp only [FieldSet.Parts.paths, List.mem_append] at hpath ⊢
    tauto

theorem succ (h : SelectionsSound levels) : SelectionsSound (levels + 1) where
  field := h.succ_field
  fieldSet := h.succ_fieldSet
  fields := shows_listOf fun r hr => by
    obtain rfl := Option.some.inj hr
    exact h.field
  fieldSets := shows_listOf fun r hr => by
    obtain rfl := Option.some.inj hr
    exact h.fieldSet

/-- Selections are sound at every level, by induction on the levels. -/
theorem all (levels : Nat) : SelectionsSound levels := by
  induction levels with
  | zero => exact zero
  | succ levels ih => exact ih.succ

end SelectionsSound

/-! ## Documents -/

/-- A custom scalar has no path. -/
theorem CustomScalar.shows_reader (levels : Nat) :
    (reader levels).Shows Format.customScalar.Sound := by
  cases levels with
  | zero => exact shows_noRecord _ _
  | succ levels =>
    refine Format.shows_sound_of_record (f := .customScalar) (fun _ => []) (by simp)
      (fun _ => rfl) rfl (by decide) rfl (fun p s _ => List.nil_subset _) ?_ _
    simp only [record, List.forall_mem_cons]
    refine ⟨?_, ?_, ?_, ?_, by simp⟩
    · exact shows_text.adder_plain rfl fun _ _ => rfl
    · exact (shows_optional shows_text).adder_plain rfl fun _ _ => rfl
    · exact (shows_optional shows_text).adder_plain rfl fun _ _ => rfl
    · exact (shows_optional shows_text).adder_plain rfl fun _ _ => rfl

/-- The paths in what is known of a named data field. -/
def NamedFieldParts.paths (p : NamedFieldParts) : List ModelPath :=
  p.dataField.elim [] Field.paths

/-- A named data field in one of its formats. -/
theorem shows_namedFieldReader {f : Format} {make : String → Field → f.Data}
    (hform : f ≠ .typeRef ∧ f ≠ .modelPath)
    (hparts : ∀ t, f.parts t = [("name", .plain), ("data_field", .one .field)])
    (hmake : ∀ name dataField, f.paths (make name dataField) = dataField.paths)
    (description : String) (levels : Nat) :
    (namedFieldReader description make levels).Shows f.Sound := by
  cases levels with
  | zero => exact shows_noRecord _ _
  | succ levels =>
    refine Format.shows_sound_of_record NamedFieldParts.paths hform hparts rfl
      (by decide) rfl (fun p v hbuild => ?_) ?_ _
    · obtain ⟨name, -, hbuild⟩ := bind_eq_ok_iff.mp hbuild
      obtain ⟨dataField, hfield, hbuild⟩ := bind_eq_ok_iff.mp hbuild
      cases hbuild
      rw [hmake, NamedFieldParts.paths, need_eq_ok_iff.mp hfield]
      exact List.Subset.refl _
    · simp only [namedFieldRecord, List.forall_mem_cons]
      refine ⟨?_, ?_, by simp⟩
      · exact shows_text.adder_plain rfl fun _ _ => rfl
      · exact (SelectionsSound.all levels).field.adder_one (f := .field) rfl
          fun v p => List.subset_append_right _ _

theorem Operation.shows_reader (levels : Nat) : (reader levels).Shows Format.operation.Sound :=
  shows_namedFieldReader (f := .operation) (by simp) (fun _ => rfl) (fun _ _ => rfl) _ levels

theorem Fragment.shows_reader (levels : Nat) : (reader levels).Shows Format.fragment.Sound :=
  shows_namedFieldReader (f := .fragment) (by simp) (fun _ => rfl) (fun _ _ => rfl) _ levels

namespace Document

/-- The paths in what is known of a document. -/
def Parts.paths (p : Parts) : List ModelPath :=
  p.operations.flatMap (·.dataField.paths) ++ p.fragments.flatMap (·.dataField.paths)

theorem shows_reader (levels : Nat) : (reader levels).Shows Format.document.Sound := by
  cases levels with
  | zero => exact shows_noRecord _ _
  | succ levels =>
    refine Format.shows_sound_of_record (f := .document) Parts.paths (by simp)
      (fun _ => rfl) rfl (by decide) rfl (fun p d hbuild => ?_) ?_ _
    · obtain ⟨ns, -, hbuild⟩ := bind_eq_ok_iff.mp hbuild
      cases hbuild
      exact List.Subset.refl _
    simp only [recordOf, List.forall_mem_cons]
    refine ⟨?_, ?_, ?_, ?_, by simp⟩
    · exact shows_text.adder_plain rfl fun _ _ => rfl
    · exact (shows_soundList_listReader CustomScalar.shows_reader levels).adder_many
        (f := .customScalar) rfl fun _ _ => List.subset_append_left _ _
    · refine (shows_soundList_listReader Operation.shows_reader levels).adder_many
        (f := .operation) rfl fun operations p path hpath => ?_
      simp only [Parts.paths, List.mem_append] at hpath ⊢
      tauto
    · refine (shows_soundList_listReader Fragment.shows_reader levels).adder_many
        (f := .fragment) rfl fun fragments p path hpath => ?_
      simp only [Parts.paths, List.mem_append] at hpath ⊢
      tauto

end Document

/-! ## Formats -/

namespace Format

theorem shows_reader (f : Format) (levels : Nat) : (f.reader levels).Shows f.Sound := by
  cases f with
  | document => exact Document.shows_reader levels
  | operation => exact Operation.shows_reader levels
  | fragment => exact Fragment.shows_reader levels
  | fieldSet => exact (SelectionsSound.all levels).fieldSet
  | field => exact (SelectionsSound.all levels).field
  | customScalar => exact CustomScalar.shows_reader levels
  | typeRef => exact TypeRef.shows_reader levels
  | leaf => exact Leaf.shows_reader levels
  | modelPath => exact ModelPath.shows_reader levels

/-- What is decoded is the value of a sound tree at the front of the source. -/
theorem exists_sound_of_decode {f : Format} {source : Bytes} {v : f.Data}
    (h : decode f.reader source = .ok v) : ∃ t rest, t.StandsAt source rest ∧ f.Sound t v := by
  obtain ⟨rest, hrun⟩ := decode_eq_ok_iff.mp h
  obtain ⟨t, ht, hsound⟩ := f.shows_reader nestingLimit hrun
  exact ⟨t, rest, ht, hsound⟩

end Format

/-! ## Repeated keys -/

/-- One tree stands at the front of the source. What is read in a format in it, at any depth, has
every key of that format once at most; a type reference has one key. -/
def Format.KeysStandOnce (f : Format) (source : Bytes) : Prop :=
  ∃ t rest, t.StandsAt source rest ∧ (∀ t' rest', t'.StandsAt source rest' → t' = t) ∧
    ∀ g u, f.Contains t g u → g.OnceKeyed u

/-- In every format, keys stand once in whatever is decoded, be it bytes or a text. -/
theorem keys_stand_once (f : Format) :
    (∀ (source : Bytes) (v : f.Data), decode f.reader source = .ok v → f.KeysStandOnce source) ∧
    ∀ (source : String) (v : f.Data), decodeText f.reader source = .ok v →
      f.KeysStandOnce (textBytes source) := by
  have hbytes : ∀ (source : Bytes) (v : f.Data), decode f.reader source = .ok v →
      f.KeysStandOnce source := by
    intro source v h
    obtain ⟨t, rest, ht, hsound⟩ := Format.exists_sound_of_decode h
    refine ⟨t, rest, ht, fun t' rest' ht' => (ht'.unique ht).1, ?_⟩
    exact fun g u hu => (hsound.wellFormed g u hu).onceKeyed
  exact ⟨hbytes, fun source v h => hbytes (textBytes source) v h⟩

/-- Keys that mean nothing do not matter, nor does it that the keys stand in another order. -/
theorem keys_stand_once_planet :
    decodeText Document.reader (planetWritten.render .pretty) = .ok planetDocument ∧
      Format.document.KeysStandOnce (textBytes (planetWritten.render .pretty)) := by
  obtain ⟨core, hwritten, hdepth⟩ := written_planet
  have hread : decodeText Document.reader (planetWritten.render .pretty) = .ok planetDocument :=
    Document.decodeText_of_written hwritten hdepth (Value.spelledAs_render .pretty planetWritten)
  exact ⟨hread, (keys_stand_once .document).2 _ _ hread⟩

end SelectionModels
