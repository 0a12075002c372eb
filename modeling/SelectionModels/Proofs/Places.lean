import Mathlib.Data.List.Induction
import SelectionModels.Proofs.Keys
import SelectionModels.Proofs.PathTexts
import SelectionModels.Proofs.SavedFiles

/-! # Places

Where a path leads can be told without a walk: its names lead from place to place, a dot stays and
two dots go back. A walk comes to the place that its names tell, it goes through directories only,
and where no file stands in its way it fails for nothing but a name that is missing.

* `Store.Proper`: what stands in a directory has a name of its own;
* `Store.follow`, `place_of_walk`: the place that names lead to;
* `exists_walk`, `walk_eq_error`: when a walk is possible, and how it fails;
* `Store.Proper.exists_start`: where a path starts.
-/

namespace SelectionModels.Files

open Json (Bytes)

/-! ## Stores with proper names -/

/-- In every directory there are names, and none stands there twice. -/
inductive Node.Proper : Node → Prop
  | file (content : Bytes) : Proper (.file content)
  | directory {entries : Entries} (names : ∀ entry ∈ entries, IsName entry.1)
      (once : (entries.map (·.1)).Nodup) (inner : ∀ entry ∈ entries, entry.2.Proper) :
      Proper (.directory entries)

theorem Node.Proper.at? {node found : Node} {place : Place} (h : node.Proper)
    (hat : node.at? place = some found) : found.Proper := by
  induction place generalizing node with
  | nil =>
    obtain rfl : node = found := by simpa [Node.at?] using hat
    exact h
  | cons name place ih =>
    cases h with
    | file content => simp [Node.at?] at hat
    | directory names once inner =>
      simp only [Node.at?, Option.bind_eq_some_iff] at hat
      rcases hat with ⟨next, hlookup, hat⟩
      exact ih (inner _ (mem_of_lookup_eq_some hlookup)) hat

/-- The names on the way to anything are names. -/
theorem Node.Proper.isName_of_mem {node found : Node} {place : Place} (h : node.Proper)
    (hat : node.at? place = some found) {name : String} (hname : name ∈ place) : IsName name := by
  induction place generalizing node with
  | nil => cases hname
  | cons first place ih =>
    cases h with
    | file content => simp [Node.at?] at hat
    | directory names once inner =>
      simp only [Node.at?, Option.bind_eq_some_iff] at hat
      rcases hat with ⟨next, hlookup, hat⟩
      rcases List.mem_cons.mp hname with rfl | hname
      · exact names _ (mem_of_lookup_eq_some hlookup)
      · exact ih (inner _ (mem_of_lookup_eq_some hlookup)) hat hname

/-- A proper node under a name leaves a directory proper. -/
theorem Node.Proper.putAt {name : String} {node : Node} (hname : IsName name)
    (hnode : node.Proper) {entries : Entries} (h : (Node.directory entries).Proper)
    (place : Place) : (Node.directory (Files.putAt name node place entries)).Proper := by
  induction place generalizing entries with
  | nil =>
    rcases h with _ | ⟨names, once, inner⟩
    refine .directory ?_ ?_ ?_
    · intro entry hentry
      rcases List.mem_cons.mp hentry with rfl | hentry
      · exact hname
      · exact names entry (List.mem_of_mem_filter hentry)
    · simp only [Files.putAt, put, List.map_cons, List.nodup_cons, List.mem_map, List.mem_filter]
      refine ⟨?_, once.sublist (List.filter_sublist.map _)⟩
      rintro ⟨entry, ⟨-, hne⟩, heq⟩
      exact of_decide_eq_true hne heq
    · intro entry hentry
      rcases List.mem_cons.mp hentry with rfl | hentry
      · exact hnode
      · exact inner entry (List.mem_of_mem_filter hentry)
  | cons outer place ih =>
    rcases h with _ | ⟨names, once, inner⟩
    -- one entry is another, under the same name
    have hkeys : (mapAt outer (Node.mapEntries (Files.putAt name node place)) entries).map (·.1) =
        entries.map (·.1) := by
      simp [mapAt, Function.comp_def]
    refine .directory ?_ (hkeys ▸ once) ?_
    · intro entry hentry
      have hmem := List.mem_map_of_mem (f := (·.1)) hentry
      rw [Files.putAt, hkeys] at hmem
      rcases List.mem_map.mp hmem with ⟨entry', hentry', heq⟩
      exact heq ▸ names entry' hentry'
    · intro entry hentry
      rcases List.mem_map.mp hentry with ⟨⟨other, held⟩, hmem, rfl⟩
      have hheld := inner _ hmem
      by_cases hother : other = outer
      · simp only [hother, if_true]
        cases held with
        | file content => exact .file content
        | directory below => exact ih hheld
      · simp only [if_neg hother]
        exact hheld

/-- The content of a file; a directory has none. -/
def Node.content? : Node → Option Bytes
  | .file content => some content
  | .directory _ => none

/-- A new directory is seen at its place only. -/
theorem content?_at?_putAt {name : String} {place way : Place} {entries inner : Entries}
    (hplace : (Node.directory entries).at? place = some (.directory inner))
    (hnew : inner.lookup name = none) (hway : way ≠ place ++ [name]) :
    ((Node.directory (putAt name (.directory []) place entries)).at? way).map Node.content? =
      ((Node.directory entries).at? way).map Node.content? := by
  induction place generalizing entries way with
  | nil =>
    obtain rfl : entries = inner := by simpa [Node.at?] using hplace
    cases way with
    | nil => rfl
    | cons next way =>
      by_cases hnext : next = name
      · -- nothing stood under the name, and nothing stands in the new directory
        subst hnext
        cases way with
        | nil => exact absurd rfl hway
        | cons other way => simp [putAt, Node.at?, lookup_put, hnew]
      · simp [putAt, Node.at?, lookup_put_of_ne hnext]
  | cons outer place ih =>
    simp only [Node.at?, Option.bind_eq_some_iff] at hplace
    rcases hplace with ⟨held, hheld, hplace⟩
    cases held with
    | file content => cases place <;> simp [Node.at?] at hplace
    | directory below =>
      cases way with
      | nil => rfl
      | cons next way =>
        by_cases hnext : next = outer
        · subst hnext
          have hway' : way ≠ place ++ [name] := by
            rintro rfl
            exact hway rfl
          simpa [putAt, Node.at?, lookup_mapAt, hheld, Node.mapEntries] using ih hplace hway'
        · simp [putAt, Node.at?, lookup_mapAt_of_ne hnext]

namespace Store

/-- A directory stands at the place. -/
def HasDirectory (s : Store) (place : Place) : Prop :=
  ∃ entries, s.root.at? place = some (.directory entries)

/-- A file stands at the place. -/
def HasFile (s : Store) (place : Place) : Prop :=
  ∃ content, s.root.at? place = some (.file content)

/-- What is seen at a place: the content of a file, a directory, or nothing. -/
def seen (s : Store) (place : Place) : Option (Option Bytes) :=
  (s.root.at? place).map Node.content?

theorem hasDirectory_iff {s : Store} {place : Place} :
    s.HasDirectory place ↔ s.seen place = some none := by
  unfold HasDirectory seen
  rcases s.root.at? place with _ | ⟨_ | _⟩ <;> simp [Node.content?]

theorem hasFile_iff {s : Store} {place : Place} :
    s.HasFile place ↔ ∃ content, s.seen place = some (some content) := by
  unfold HasFile seen
  rcases s.root.at? place with _ | ⟨_ | _⟩ <;> simp [Node.content?]

/-- In every directory there are names, each once, and the current directory is there. -/
structure Proper (s : Store) : Prop where
  root : s.root.Proper
  current : s.HasDirectory s.current

/-! ## Places told by names -/

/-- One name further, or one back. -/
def goTo (place : Place) (name : String) : Place :=
  if name = "." then place else if name = ".." then place.dropLast else place ++ [name]

/-- The place that names lead to. -/
def follow (place : Place) (names : List String) : Place :=
  names.foldl goTo place

theorem follow_append (place : Place) (names names' : List String) :
    follow place (names ++ names') = follow (follow place names) names' :=
  List.foldl_append

theorem follow_dots {place : Place} {names : List String} (h : ∀ name ∈ names, name = ".") :
    follow place names = place := by
  induction names with
  | nil => rfl
  | cons name names ih =>
    have hstay : goTo place name = place := if_pos (h name List.mem_cons_self)
    show follow (goTo place name) names = place
    rw [hstay]
    exact ih fun other hother => h other (List.mem_cons_of_mem name hother)

variable {s s' : Store}

theorem HasDirectory.not_hasFile {place : Place} (h : s.HasDirectory place) :
    ¬ s.HasFile place := by
  rintro ⟨content, hfile⟩
  rcases h with ⟨entries, hdirectory⟩
  rw [hdirectory] at hfile
  cases hfile

/-- Something stands in a directory. -/
theorem HasDirectory.dropLast {place : Place} (h : s.HasDirectory place) :
    s.HasDirectory place.dropLast := by
  rcases List.eq_nil_or_concat place with rfl | ⟨outer, name, rfl⟩
  · exact h
  · rcases h with ⟨entries, hat⟩
    rw [List.concat_eq_append, Node.at?_append_singleton] at hat
    rcases hat with ⟨held, hheld, -⟩
    rw [List.concat_eq_append, List.dropLast_concat]
    exact ⟨held, hheld⟩

theorem Leads.enter_iff {trail : Trail} (h : s.Leads trail) :
    (∃ entries, s.enter trail = .ok entries) ↔ s.HasDirectory (Trail.place trail) :=
  exists_congr fun _ => h.enter_eq_ok_iff

theorem place_tail (trail : Trail) : Trail.place trail.tail = (Trail.place trail).dropLast := by
  rcases trail with _ | ⟨⟨name, node⟩, outer⟩
  · rfl
  · rw [Trail.place_cons, List.dropLast_concat]
    rfl

/-- A step leads to the place that its name says. -/
theorem place_of_step {trail next : Trail} {name : String} (h : s.step trail name = .ok next) :
    Trail.place next = goTo (Trail.place trail) name := by
  rcases step_eq_ok_iff.mp h with ⟨entries, -, hstep⟩
  unfold goTo
  split at hstep
  · rename_i hdot
    rw [if_pos hdot, hstep]
  · rename_i hdot
    rw [if_neg hdot]
    split at hstep
    · rename_i hdots
      rw [if_pos hdots, ← hstep, place_tail]
    · rename_i hdots
      rcases hstep with ⟨-, node, -, rfl⟩
      rw [if_neg hdots, Trail.place_cons]

theorem place_of_walk {trail last : Trail} {names : List String}
    (h : s.walk trail names = .ok last) :
    Trail.place last = follow (Trail.place trail) names := by
  induction names generalizing trail with
  | nil =>
    obtain rfl : trail = last := by simpa [walk] using h
    rfl
  | cons name names ih =>
    rcases walk_cons_eq_ok_iff.mp h with ⟨next, hstep, hwalk⟩
    rw [ih hwalk, place_of_step hstep]
    rfl

/-- A walk is possible only through directories, and only by names that are short enough. -/
theorem of_walk_eq_ok {trail last : Trail} {names : List String} (hleads : s.Leads trail)
    (h : s.walk trail names = .ok last) {before after : List String} {name : String}
    (hsplit : names = before ++ name :: after) :
    s.HasDirectory (follow (Trail.place trail) before) ∧ name.utf8ByteSize ≤ maxName := by
  rw [hsplit, walk_append_eq_ok_iff] at h
  rcases h with ⟨middle, hbefore, hafter⟩
  rcases walk_cons_eq_ok_iff.mp hafter with ⟨next, hstep, -⟩
  rcases step_eq_ok_iff.mp hstep with ⟨entries, henter, hnext⟩
  have hmiddle : s.Leads middle := hleads.walk hbefore
  refine ⟨?_, ?_⟩
  · rw [← place_of_walk hbefore]
    exact hmiddle.enter_iff.mp ⟨entries, henter⟩
  · split at hnext
    · rename_i hdot
      rw [hdot]
      decide
    · split at hnext
      · rename_i hdots
        rw [hdots]
        decide
      · exact Nat.le_of_not_lt hnext.1

/-- From a directory a step leads on, or there is nothing where it leads. -/
theorem step_cases {trail : Trail} {name : String} (hleads : s.Leads trail)
    (hhere : s.HasDirectory (Trail.place trail)) (hshort : name.utf8ByteSize ≤ maxName) :
    (∃ next, s.step trail name = .ok next) ∨
      s.step trail name = .error .noEntry ∧ s.root.at? (goTo (Trail.place trail) name) = none := by
  rcases hhere with ⟨entries, hat⟩
  have henter := hleads.enter_eq_ok_iff.mpr hat
  by_cases hdot : name = "."
  · exact Or.inl ⟨trail, step_eq_ok_iff.mpr ⟨entries, henter, by rw [if_pos hdot]⟩⟩
  by_cases hdots : name = ".."
  · exact Or.inl ⟨trail.tail,
      step_eq_ok_iff.mpr ⟨entries, henter, by rw [if_neg hdot, if_pos hdots]⟩⟩
  cases hlookup : entries.lookup name with
  | some node =>
    refine Or.inl ⟨(name, node) :: trail, step_eq_ok_iff.mpr ⟨entries, henter, ?_⟩⟩
    rw [if_neg hdot, if_neg hdots]
    exact ⟨Nat.not_lt_of_le hshort, node, hlookup, rfl⟩
  | none =>
    refine Or.inr ⟨?_, ?_⟩
    · rw [step, henter]
      simp only [bind, Except.bind, hdot, hdots, Nat.not_lt_of_le hshort, hlookup, if_false]
      rfl
    · rw [goTo, if_neg hdot, if_neg hdots, Option.eq_none_iff_forall_ne_some]
      intro node hnode
      rcases Node.at?_append_singleton.mp hnode with ⟨held, hheld, hfound⟩
      obtain rfl : entries = held := by simpa using hat.symm.trans hheld
      simp [hlookup] at hfound

/-- A walk through directories is possible. -/
theorem exists_walk {trail : Trail} {names : List String} (hleads : s.Leads trail)
    (hshort : ∀ name ∈ names, name.utf8ByteSize ≤ maxName)
    (hway : ∀ before, before <+: names → s.HasDirectory (follow (Trail.place trail) before)) :
    ∃ last, s.walk trail names = .ok last := by
  induction names generalizing trail with
  | nil => exact ⟨trail, rfl⟩
  | cons name names ih =>
    have hhere : s.HasDirectory (Trail.place trail) := hway [] List.nil_prefix
    rcases step_cases hleads hhere (hshort name List.mem_cons_self) with ⟨next, hstep⟩ | hmissing
    · have hnext := place_of_step hstep
      rcases ih (hleads.step hstep)
        (fun other hother => hshort other (List.mem_cons_of_mem _ hother))
        (fun before hbefore => by
          rw [hnext]
          exact hway (name :: before) (List.cons_prefix_cons.mpr ⟨rfl, hbefore⟩)) with ⟨last, hlast⟩
      exact ⟨last, walk_cons_eq_ok_iff.mpr ⟨next, hstep, hlast⟩⟩
    · rcases hway [name] (by simp) with ⟨entries, hat⟩
      exact absurd (hmissing.2.symm.trans hat) (by simp)

/-- A walk that no file stands in the way of fails only where something is missing. -/
theorem walk_eq_error {trail : Trail} {names : List String} {e : FileError}
    (hleads : s.Leads trail) (hhere : s.HasDirectory (Trail.place trail))
    (hshort : ∀ name ∈ names, name.utf8ByteSize ≤ maxName)
    (hway : ∀ before, before <+: names → ¬ s.HasFile (follow (Trail.place trail) before))
    (h : s.walk trail names = .error e) : e = .noEntry := by
  induction names generalizing trail with
  | nil => cases h
  | cons name names ih =>
    rw [walk] at h
    rcases step_cases hleads hhere (hshort name List.mem_cons_self) with ⟨next, hstep⟩ | hmissing
    · rw [hstep] at h
      have hnext := place_of_step hstep
      have hnode := (hleads.step hstep).at?_place
      refine ih (hleads.step hstep) ?_ (fun other hother =>
        hshort other (List.mem_cons_of_mem _ hother)) ?_ h
      · -- what stands there is no file, so it is a directory
        cases hfound : s.nodeAt next with
        | directory entries => exact ⟨entries, hfound ▸ hnode⟩
        | file content =>
          rw [hfound, hnext] at hnode
          exact absurd ⟨content, hnode⟩ (hway [name] (by simp))
      · intro before hbefore
        rw [hnext]
        exact hway (name :: before) (List.cons_prefix_cons.mpr ⟨rfl, hbefore⟩)
    · rw [hmissing.1] at h
      exact (Except.error.inj h).symm

/-- Names lead from directory to directory. -/
theorem follow_of_isName {place : Place} {names : List String} (h : ∀ name ∈ names, IsName name) :
    follow place names = place ++ names := by
  induction names generalizing place with
  | nil => exact (List.append_nil place).symm
  | cons name names ih =>
    have hname := h name List.mem_cons_self
    show follow (goTo place name) names = _
    rw [goTo, if_neg hname.noDot, if_neg hname.noDots,
      ih fun other hother => h other (List.mem_cons_of_mem name hother), List.append_assoc]
    rfl

theorem HasDirectory.of_append {place rest : Place} (h : s.HasDirectory (place ++ rest)) :
    s.HasDirectory place := by
  induction rest using List.reverseRecOn with
  | nil => exact List.append_nil place ▸ h
  | append_singleton rest name ih =>
    have hdrop := h.dropLast
    rw [← List.append_assoc, List.dropLast_concat] at hdrop
    exact ih hdrop

/-- A path starts in a directory, to which the names of its place lead. -/
theorem Proper.exists_start (hs : s.Proper) (path : String) :
    ∃ trail, s.start path = .ok trail ∧ s.Leads trail ∧
      Trail.place trail = s.startNames path ∧ s.HasDirectory (s.startNames path) := by
  have hhome : s.HasDirectory (s.startNames path) := by
    unfold startNames
    split
    · exact ⟨s.entries, rfl⟩
    · exact hs.current
  have hnames : ∀ name ∈ s.startNames path, IsName name := by
    rcases hhome with ⟨entries, hat⟩
    exact fun name hname => hs.root.isName_of_mem hat hname
  have hplace : ∀ before, before <+: s.startNames path →
      follow (Trail.place []) before = before := by
    intro before hbefore
    exact follow_of_isName fun name hname => hnames name (hbefore.subset hname)
  have hway : ∀ before, before <+: s.startNames path →
      s.HasDirectory (follow (Trail.place []) before) := by
    intro before hbefore
    rw [hplace before hbefore]
    rcases hbefore with ⟨rest, hrest⟩
    exact (hrest ▸ hhome).of_append
  rcases exists_walk s.leads_nil (fun name hname => (hnames name hname).short) hway with
    ⟨trail, hwalk⟩
  refine ⟨trail, (start_eq_walk s path).trans hwalk, s.leads_nil.walk hwalk, ?_, hhome⟩
  rw [place_of_walk hwalk]
  exact hplace _ (List.prefix_refl _)

theorem askable_eq_ok_iff {path : String} : askable path = .ok () ↔
    '\x00' ∉ path.toList ∧ path ≠ "" ∧ path.utf8ByteSize ≤ maxPath := by
  unfold askable
  split
  · simp [*]
  · split
    · simp [*]
    · split
      · rename_i hlong
        simp [hlong]
      · rename_i hnul hempty hlong
        simp [hnul, hempty, Nat.le_of_not_lt hlong]

/-- What a path leads to stands in the store, and the path can be asked for. -/
theorem of_locate_eq_ok {path : String} {trail : Trail} (h : s.locate path = .ok trail) :
    askable path = .ok () ∧ s.Leads trail := by
  rcases bind_eq_ok_iff.mp h with ⟨⟨⟩, haskable, h⟩
  rcases bind_eq_ok_iff.mp h with ⟨first, hstart, h⟩
  rcases bind_eq_ok_iff.mp h with ⟨last, hwalk, h⟩
  have hlast : last = trail := by
    by_cases hslash : endsWithSlash path = true
    · rw [if_pos hslash] at h
      rcases bind_eq_ok_iff.mp h with ⟨_, _, hend⟩
      exact Except.ok.inj hend
    · rw [if_neg hslash] at h
      exact Except.ok.inj h
  rw [start_eq_walk] at hstart
  exact ⟨haskable, hlast ▸ (s.leads_nil.walk hstart).walk hwalk⟩

/-- What a directory of a proper store lists are names, each once. -/
theorem Proper.of_list_eq_ok (hs : s.Proper) {path : String} {listed : List Listed}
    (h : s.list path = .ok listed) : askable path = .ok () ∧
      (∀ e ∈ listed, IsName e.name) ∧ (listed.map (·.name)).Nodup := by
  rcases bind_eq_ok_iff.mp h with ⟨trail, hlocate, h⟩
  rcases bind_eq_ok_iff.mp h with ⟨entries, henter, h⟩
  rcases of_locate_eq_ok hlocate with ⟨haskable, hleads⟩
  have hproper := hs.root.at? (hleads.enter_eq_ok_iff.mp henter)
  rcases hproper with _ | ⟨hnames, honce, -⟩
  obtain rfl := Except.ok.inj h
  refine ⟨haskable, ?_, ?_⟩
  · intro e he
    rcases List.mem_map.mp he with ⟨entry, hentry, rfl⟩
    exact hnames entry hentry
  · rw [List.map_map]
    exact honce

/-- The names of a starting place lead to that place. -/
theorem Proper.follow_startNames (hs : s.Proper) (path : String) :
    follow [] (s.startNames path) = s.startNames path := by
  rcases hs.exists_start path with ⟨trail, hstart, -, hplace, -⟩
  rw [start_eq_walk] at hstart
  exact (place_of_walk hstart).symm.trans hplace

end Store

end SelectionModels.Files
