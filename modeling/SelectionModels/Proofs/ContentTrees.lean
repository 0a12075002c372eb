import SelectionModels.Proofs.Contents
import SelectionModels.Proofs.ShownTrees

/-! # Trees of content

Content that is kept has lost nothing that a tree has: the keys are there in the order in which they
stood, however often. So a record that is made from content is built of the entries of the tree that
the content was taken from, as it would have been if it had been read at once.

* `Content.tree`: the tree of content;
* `Reader.shows_content`, `Reader.shows_tagged`: content that is read, with or without a kind;
* `ContentRecord.builds_of_ofContent`: a record that is made from content.
-/

namespace SelectionModels.Json

open Reader Json.Tree

variable {α β σ κ : Type}

namespace Content

mutual

/-- The tree that content is read from. -/
def tree : Content → Tree
  | .null => .plain
  | .bool _ => .plain
  | .number _ => .plain
  | .text s => .text (some s)
  | .list items => .list (treeItems items)
  | .object members => .object (named (treeMembers members))
termination_by structural c => c

def treeItems : List Content → List Tree
  | [] => []
  | c :: items => tree c :: treeItems items
termination_by structural items => items

def treeMembers : List (String × Content) → List (String × Tree)
  | [] => []
  | (name, c) :: members => (name, tree c) :: treeMembers members
termination_by structural members => members

end

theorem treeItems_eq_map (items : List Content) : treeItems items = items.map tree := by
  induction items with
  | nil => rfl
  | cons c items ih => simp [treeItems, ih]

theorem treeMembers_eq_map (members : List (String × Content)) :
    treeMembers members = members.map fun m => (m.1, m.2.tree) := by
  induction members with
  | nil => rfl
  | cons m members ih => simp [treeMembers, ih]

end Content

/-! ## Content that is read -/

namespace Reader

/-- Content is taken as its own tree, given that what is inside brackets is. -/
theorem shows_contentWith {inner : Option (Reader Content)}
    (h : ∀ r ∈ inner, r.Shows fun t c => t = c.tree) :
    (contentWith inner).Shows fun t c => t = c.tree := by
  intro input rest value hrun
  rw [contentWith, run_peekOpening_bind_eq_done_iff] at hrun
  split at hrun
  · cases hrun
  · rename_i hopening
    obtain ⟨ht, rfl⟩ := exists_of_word hopening rfl rfl hrun
    exact ⟨_, ht, rfl⟩
  · rename_i hopening
    obtain ⟨ht, rfl⟩ := exists_of_word hopening rfl rfl hrun
    exact ⟨_, ht, rfl⟩
  · rename_i hopening
    obtain ⟨ht, rfl⟩ := exists_of_word hopening rfl rfl hrun
    exact ⟨_, ht, rfl⟩
  · obtain ⟨n, _, hnumber, ⟨⟩⟩ := run_bind_eq_done_iff.mp hrun
    exact ⟨_, (standsAt_of_number hnumber).of_dropWhile, rfl⟩
  · obtain ⟨n, _, hnumber, ⟨⟩⟩ := run_bind_eq_done_iff.mp hrun
    exact ⟨_, (standsAt_of_number hnumber).of_dropWhile, rfl⟩
  · rename_i hopening
    obtain ⟨after, hstart⟩ := exists_cons_of_mark? hopening rfl
    rw [hstart, run_skip_bind] at hrun
    obtain ⟨s, _, hbody, ⟨⟩⟩ := run_bind_eq_done_iff.mp hrun
    exact ⟨_, standsAt_of_stringBody hstart hbody, rfl⟩
  · rename_i hopening
    obtain ⟨after, hstart⟩ := exists_cons_of_mark? hopening rfl
    rw [hstart] at hrun
    obtain ⟨taken, _, hlist, ⟨⟩⟩ := run_bind_eq_done_iff.mp hrun
    obtain ⟨body, hbody, mid, hitems, hend⟩ := exists_of_inList hlist
    obtain ⟨r, hr, rfl⟩ := Option.map_eq_some_iff.mp hbody
    -- what has been taken stands in reverse
    obtain ⟨ts, hts, htaken⟩ := exists_items
      (I := fun ts taken => ts = taken.reverse.map Content.tree)
      (fun ts taken htaken => ((h r hr).under _).map fun t c hc => by simp [htaken, hc])
      rfl hitems hend
    refine ⟨_, .list hstart hts, ?_⟩
    change Tree.list ts = .list (Content.treeItems taken.reverse)
    rw [Content.treeItems_eq_map, htaken]
  · rename_i hopening
    obtain ⟨after, hstart⟩ := exists_cons_of_mark? hopening rfl
    rw [hstart] at hrun
    obtain ⟨taken, _, hobject, ⟨⟩⟩ := run_bind_eq_done_iff.mp hrun
    obtain ⟨body, hbody, mid, hmembers, hend⟩ := exists_of_inObject hobject
    obtain ⟨r, hr, rfl⟩ := Option.map_eq_some_iff.mp hbody
    obtain ⟨ms, hms, htaken⟩ := exists_members
      (I := fun ms taken => ms = taken.reverse.map fun m => (m.1, m.2.tree))
      (fun ms taken name htaken => by
        rw [← map_eq_pure_bind]
        exact Shows.afterColon (((h r hr).under _).map fun t c hc => by simp [htaken, hc]))
      rfl hmembers hend
    refine ⟨_, .object hstart hms, ?_⟩
    change Tree.object (named ms) = .object (named (Content.treeMembers taken.reverse))
    rw [Content.treeMembers_eq_map, htaken]
  · cases hrun

/-- Content of any depth is taken as its own tree. -/
theorem shows_content (levels : Nat) : (content levels).Shows fun t c => t = c.tree := by
  induction levels with
  | zero => exact shows_contentWith (by simp)
  | succ levels ih =>
    refine shows_contentWith fun r hr => ?_
    obtain rfl := Option.some.inj hr
    exact ih

/-! ## Kinds -/

/-- A kind is taken as the text of its name. -/
theorem shows_kindName (choices : List (String × κ)) :
    (kindName choices).Shows fun t kind => ∃ name, choices.lookup name = some kind ∧
      t = .text (some name) := by
  refine Shows.placed fun input rest kind hrun => ?_
  obtain ⟨name, mid, hname, hlater⟩ := run_bind_eq_done_iff.mp hrun
  obtain ⟨chosen, _, hchosen, ⟨⟩⟩ := run_bind_eq_done_iff.mp hlater
  obtain ⟨-, hlookup, rfl⟩ := of_run_knownChoice hchosen
  obtain ⟨t, ht, hvalue⟩ := shows_textAs _ hname
  exact ⟨t, ht, name, hlookup, hvalue⟩

/-- What a tagged value is taken for: an object with one kind among its members, or a list that
starts with it. The content is what is beside the kind. -/
inductive Tagged (tag : String) (choices : List (String × κ)) : Tree → κ × Content → Prop where
  | object {name : String} {kind : κ} {before after : List (String × Content)}
    (hkind : choices.lookup name = some kind) (htag : ∀ m ∈ before ++ after, m.1 ≠ tag) :
    Tagged tag choices (.object (named (Content.treeMembers before ++
      (tag, .text (some name)) :: Content.treeMembers after))) (kind, .object (before ++ after))
  | list {name : String} {kind : κ} {items : List Content}
    (hkind : choices.lookup name = some kind) :
    Tagged tag choices (.list (.text (some name) :: Content.treeItems items)) (kind, .list items)

/-- A key that does not occur may be asked for as well. -/
theorem filter_treeMembers_cons {tag : String} {members : List (String × Content)}
    (h : ∀ m ∈ members, m.1 ≠ tag) (names : List String) :
    (Content.treeMembers members).filter (·.1 ∈ tag :: names) =
      (Content.treeMembers members).filter (·.1 ∈ names) := by
  refine List.filter_congr fun m hm => ?_
  rw [Content.treeMembers_eq_map] at hm
  obtain ⟨m', hm', rfl⟩ := List.mem_map.mp hm
  simp [h m' hm']

/-- Beside its kind, a tagged tree has the entries that its content has. -/
theorem Tagged.entries_perm {tag : String} {choices : List (String × κ)} {t : Tree} {kind : κ}
    {c : Content} (h : Tagged tag choices t (kind, c)) :
    ∃ name, choices.lookup name = some kind ∧ ∀ names,
      (t.entries (tag :: names)).Perm ((tag, .text (some name)) :: c.tree.entries names) := by
  cases h with
  | @object name _ before after hkind htag =>
    refine ⟨name, hkind, fun names => ?_⟩
    obtain ⟨hbefore, hafter⟩ := List.forall_mem_append.mp htag
    have hmembers : Content.treeMembers (before ++ after) =
        Content.treeMembers before ++ Content.treeMembers after := by
      simp only [Content.treeMembers_eq_map, List.map_append]
    rw [Content.tree, hmembers, entries_named, entries_named, List.filter_append,
      List.filter_append, List.filter_cons_of_pos (by simp), filter_treeMembers_cons hbefore,
      filter_treeMembers_cons hafter]
    exact List.perm_middle
  | @list name _ items hkind => exact ⟨name, hkind, fun names => .refl _⟩

/-- What has been met of a list with a kind. -/
def KindFirst (choices : List (String × κ)) (ts : List Tree) (state : TaggedState κ Content) :
    Prop :=
  (ts = [] ∧ state = ⟨none, []⟩) ∨ ∃ name kind, choices.lookup name = some kind ∧
    state.kind = some kind ∧ ts = .text (some name) :: Content.treeItems state.taken.reverse

/-- What has been met of an object with a kind. -/
def KindAmong (tag : String) (choices : List (String × κ)) (ms : List (String × Tree))
    (state : TaggedState κ (String × Content)) : Prop :=
  (∀ m ∈ state.taken, m.1 ≠ tag) ∧
    match state.kind with
    | none => ms = Content.treeMembers state.taken.reverse
    | some kind => ∃ name before after, choices.lookup name = some kind ∧
        state.taken.reverse = before ++ after ∧
          ms = Content.treeMembers before ++
            (tag, .text (some name)) :: Content.treeMembers after

/-- The kind was there in the end. -/
theorem exists_kind_of_taggedResult {tag : String} {state : TaggedState κ β}
    {result : κ × List β} {input rest : Bytes}
    (h : (taggedResult tag state).run input = .done result rest) :
    state.kind = some result.1 ∧ result.2 = state.taken.reverse ∧ rest = input := by
  unfold taggedResult at h
  split at h
  · rename_i kind hkind
    cases h
    exact ⟨hkind, rfl, rfl⟩
  · cases h

/-- What a list with a kind does with an item. -/
def taggedItem (choices : List (String × κ)) (inner : Reader Content)
    (state : TaggedState κ Content) (index : Nat) : Reader (TaggedState κ Content) :=
  if index = 0 then do
    let kind ← (kindName choices).under (.index index)
    return { state with kind := some kind }
  else do
    let c ← inner.under (.index index)
    return { state with taken := c :: state.taken }

/-- The first item is the kind, and each other one is kept. -/
theorem shows_taggedItem {choices : List (String × κ)} {inner : Reader Content}
    (h : inner.Shows fun t c => t = c.tree) {ts : List Tree} {state : TaggedState κ Content}
    (hstate : KindFirst choices ts state) :
    (taggedItem choices inner state ts.length).Shows fun t state' =>
      KindFirst choices (ts ++ [t]) state' := by
  rcases hstate with ⟨rfl, rfl⟩ | ⟨name, kind, hkind, hfound, rfl⟩
  · rw [taggedItem, if_pos List.length_nil, ← map_eq_pure_bind]
    refine ((shows_kindName choices).under _).map ?_
    rintro t kind ⟨name, hkind, rfl⟩
    exact .inr ⟨name, kind, hkind, rfl, rfl⟩
  · rw [taggedItem, if_neg (by simp), ← map_eq_pure_bind]
    refine (h.under _).map fun t c hc => .inr ⟨name, kind, hkind, hfound, ?_⟩
    simp [Content.treeItems_eq_map, hc]

/-- A tagged value as a list. -/
theorem exists_of_taggedList {tag : String} {choices : List (String × κ)} {inner : Reader Content}
    (h : inner.Shows fun t c => t = c.tree) {input mid rest : Bytes} {result : κ × Content}
    (hrun : (taggedList tag choices inner).run input = .done result mid)
    (hend : mid.dropWhile isBlank = ']'.toUInt8 :: rest) :
    ∃ ts, ItemsStandAt true ts input rest ∧ Tagged tag choices (.list ts) result := by
  obtain ⟨state, _, hitems, hlater⟩ := run_bind_eq_done_iff.mp hrun
  obtain ⟨⟨kind, taken⟩, _, hresult, ⟨⟩⟩ := run_bind_eq_done_iff.mp hlater
  obtain ⟨hkind, rfl, rfl⟩ := exists_kind_of_taggedResult hresult
  obtain ⟨ts, hts, hfirst⟩ := exists_items (I := KindFirst choices)
    (fun _ _ hstate => shows_taggedItem h hstate) (.inl ⟨rfl, rfl⟩) hitems hend
  rcases hfirst with ⟨-, rfl⟩ | ⟨name, kind', hlookup, hkind', rfl⟩
  · cases hkind
  · obtain rfl := Option.some.inj (hkind.symm.trans hkind')
    exact ⟨_, hts, .list hlookup⟩

/-- The member of the kind is met once, and each other one is kept. -/
theorem showsMember_taggedStep {tag : String} {choices : List (String × κ)}
    {inner : Reader Content} (h : inner.Shows fun t c => t = c.tree) {ms : List (String × Tree)}
    {state : TaggedState κ (String × Content)} (hstate : KindAmong tag choices ms state)
    (name : String) :
    (taggedStep tag choices inner state name).ShowsMember fun t state' =>
      KindAmong tag choices (ms ++ [(name, t)]) state' := by
  obtain ⟨kind?, taken⟩ := state
  obtain ⟨htag, hmet⟩ := hstate
  by_cases hname : name = tag
  · subst hname
    rw [taggedStep, if_pos rfl]
    cases kind? with
    | some kind =>
      -- there is a kind already
      exact fun _ _ _ hrun => by cases hrun
    | none =>
      simp only [Option.isSome_none, Bool.false_eq_true, if_false]
      rw [← map_eq_pure_bind]
      refine Shows.afterColon (((shows_kindName choices).under _).map ?_)
      rintro t kind ⟨name', hkind, rfl⟩
      refine ⟨htag, name', taken.reverse, [], hkind, (List.append_nil _).symm, ?_⟩
      rw [hmet]
      rfl
  · rw [taggedStep, if_neg hname, ← map_eq_pure_bind]
    refine Shows.afterColon ((h.under _).map fun t c hc => ⟨?_, ?_⟩)
    · exact List.forall_mem_cons.mpr ⟨hname, htag⟩
    · cases kind? with
      | none =>
        change ms = Content.treeMembers taken.reverse at hmet
        change ms ++ [(name, t)] = Content.treeMembers ((name, c) :: taken).reverse
        simp [hmet, Content.treeMembers_eq_map, hc]
      | some kind =>
        obtain ⟨kindName, before, after, hkind, htaken, rfl⟩ := hmet
        refine ⟨kindName, before, after ++ [(name, c)], hkind, ?_, ?_⟩
        · rw [List.reverse_cons, htaken, List.append_assoc]
        · simp [Content.treeMembers_eq_map, hc]

/-- A tagged value as an object. -/
theorem exists_of_taggedObject {tag : String} {choices : List (String × κ)}
    {inner : Reader Content} (h : inner.Shows fun t c => t = c.tree) {input mid rest : Bytes}
    {result : κ × Content} (hrun : (taggedObject tag choices inner).run input = .done result mid)
    (hend : mid.dropWhile isBlank = '\x7d'.toUInt8 :: rest) :
    ∃ ms, MembersStandAt true (named ms) input rest ∧
      Tagged tag choices (.object (named ms)) result := by
  obtain ⟨state, _, hmembers, hlater⟩ := run_bind_eq_done_iff.mp hrun
  obtain ⟨⟨kind, taken⟩, _, hresult, ⟨⟩⟩ := run_bind_eq_done_iff.mp hlater
  obtain ⟨hkind, rfl, rfl⟩ := exists_kind_of_taggedResult hresult
  obtain ⟨ms, hms, htag, hamong⟩ := exists_members (I := KindAmong tag choices)
    (fun _ _ name hstate => showsMember_taggedStep h hstate name) ⟨by simp, rfl⟩ hmembers hend
  rw [hkind] at hamong
  obtain ⟨name, before, after, hlookup, htaken, rfl⟩ := hamong
  refine ⟨_, hms, ?_⟩
  rw [htaken]
  refine .object hlookup fun m hm => htag m ?_
  rwa [← htaken, List.mem_reverse] at hm

/-- A tagged value is taken as a tree with one kind, in either form. -/
theorem shows_tagged (description tag : String) (choices : List (String × κ))
    {inner : Option (Reader Content)} (h : ∀ r ∈ inner, r.Shows fun t c => t = c.tree) :
    (tagged description tag choices inner).Shows (Tagged tag choices) := by
  refine Shows.placed fun input rest value hrun => ?_
  rw [run_peekOpening_bind_eq_done_iff] at hrun
  split at hrun
  · rename_i hopening
    obtain ⟨after, hstart⟩ := exists_cons_of_mark? hopening rfl
    rw [hstart, Option.map_map] at hrun
    obtain ⟨body, hbody, mid, hlist, hend⟩ := exists_of_inList hrun
    obtain ⟨r, hr, rfl⟩ := Option.map_eq_some_iff.mp hbody
    obtain ⟨ts, hts, htagged⟩ := exists_of_taggedList (h r hr) hlist hend
    exact ⟨_, .list hstart hts, htagged⟩
  · rename_i hopening
    obtain ⟨after, hstart⟩ := exists_cons_of_mark? hopening rfl
    rw [hstart, Option.map_map] at hrun
    obtain ⟨body, hbody, mid, hobject, hend⟩ := exists_of_inObject hrun
    obtain ⟨r, hr, rfl⟩ := Option.map_eq_some_iff.mp hbody
    obtain ⟨ms, hms, htagged⟩ := exists_of_taggedObject (h r hr) hobject hend
    exact ⟨_, .object hstart hms, htagged⟩
  · exact absurd hrun (run_wrongKind_ne_done _ _ _ _ _)

end Reader

/-! ## Records from content -/

namespace ContentRecord

variable {r : ContentRecord σ α} {K : String → Tree → (σ → σ) → Prop}

/-- What the object form adds are the members with known keys, and none of them twice. -/
theorem adds_of_objectForm (h : ∀ m ∈ r.members, ∀ c add, m.read c = .ok add → K m.name c.tree add)
    {seen : List String} {known value : σ} {members : List (String × Content)}
    (hform : r.objectForm seen known members = .ok value) :
    let met := (Content.treeMembers members).filter (·.1 ∈ r.members.map (·.name))
    (met.map (·.1)).Nodup ∧ (∀ m ∈ met, m.1 ∉ seen) ∧ Adds K met known value := by
  induction members generalizing seen known with
  | nil =>
    cases hform
    exact ⟨List.nodup_nil, by simp [Content.treeMembers], .nil⟩
  | cons m members ih =>
    obtain ⟨name, c⟩ := m
    rw [objectForm] at hform
    split at hform
    · rename_i member hmember
      obtain rfl : member.name = name := by simpa using List.find?_some hmember
      have hmem := List.mem_of_find?_eq_some hmember
      have hknown : member.name ∈ r.members.map (·.name) := List.mem_map_of_mem hmem
      by_cases hseen : member.name ∈ seen
      · -- a key that has been seen is refused
        rw [if_pos hseen] at hform
        cases hform
      · rw [if_neg hseen] at hform
        obtain ⟨add, hadd, hlater⟩ := bind_eq_ok_iff.mp hform
        obtain ⟨hnodup, hnew, hadds⟩ := ih hlater
        rw [Content.treeMembers, List.filter_cons_of_pos (by simpa using hknown)]
        refine ⟨?_, ?_, .cons (h member hmem c add hadd) hadds⟩
        · rw [List.map_cons, List.nodup_cons]
          refine ⟨fun hmet => ?_, hnodup⟩
          obtain ⟨m, hm, hname⟩ := List.mem_map.mp hmet
          exact hnew m hm (hname ▸ List.mem_cons_self)
        · refine List.forall_mem_cons.mpr ⟨hseen, fun m hm => ?_⟩
          exact fun hm' => hnew m hm (List.mem_cons_of_mem _ hm')
    · rename_i hnone
      have hunknown : name ∉ r.members.map (·.name) := by simpa using hnone
      rw [Content.treeMembers, List.filter_cons_of_neg (by simpa using hunknown)]
      exact ih hform

/-- The list form has one item per key. -/
theorem adds_of_listForm {members : List (ContentMember σ)}
    (h : ∀ m ∈ members, ∀ c add, m.read c = .ok add → K m.name c.tree add) {known value : σ}
    {index : Nat} {items : List Content}
    (hform : r.listForm known index members items = .ok value) :
    Adds K ((members.map (·.name)).zip (Content.treeItems items)) known value := by
  induction members generalizing known index items with
  | nil =>
    cases items with
    | nil =>
      cases hform
      exact .nil
    | cons c items => cases hform
  | cons member members ih =>
    obtain ⟨hmember, hmembers⟩ := List.forall_mem_cons.mp h
    cases items with
    | nil => cases hform
    | cons c items =>
      obtain ⟨add, hadd, hlater⟩ := bind_eq_ok_iff.mp hform
      exact .cons (hmember c add hadd) (ih hmembers hlater)

/-- What is made from content is built of the entries of its tree. -/
theorem builds_of_ofContent (hnames : (r.members.map (·.name)).Nodup)
    (h : ∀ m ∈ r.members, ∀ c add, m.read c = .ok add → K m.name c.tree add) {c : Content}
    {value : α} (hc : r.ofContent c = .ok value) :
    Builds (r.members.map (·.name)) K r.blank r.build c.tree value := by
  unfold ofContent at hc
  split at hc
  · rename_i members
    obtain ⟨known, hform, hbuild⟩ := bind_eq_ok_iff.mp hc
    obtain ⟨hnodup, -, hadds⟩ := adds_of_objectForm h hform
    split at hbuild
    · rename_i hvalue
      cases hbuild
      rw [Builds, Content.tree, entries_named]
      exact ⟨hnodup, known, hadds, hvalue⟩
    · cases hbuild
  · rename_i items
    obtain ⟨known, hform, hbuild⟩ := bind_eq_ok_iff.mp hc
    split at hbuild
    · rename_i hvalue
      cases hbuild
      exact ⟨nodup_map_fst_zip hnames _, known, adds_of_listForm h hform, hvalue⟩
    · cases hbuild
  · cases hc

end ContentRecord

end SelectionModels.Json
