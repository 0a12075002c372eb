import Mathlib.Data.List.Basic
import SelectionModels.Files.Store
import SelectionModels.Proofs.Chains

/-! # Saved files

What has been written under a path is what is read under it, however the path winds through the
store. Every name before the last leads to a directory, and a directory stays one when a file
appears somewhere in it; so the path leads along the same names as before, and at its end it finds
the file.

* `exists_at?_putAt`: directories stay where they are;
* `Store.Leads`: a way that can be gone from the root by its names alone;
* `Store.walk_fill`: a way to a directory leads there still;
* `Store.read_of_write`: a file that has been written is read.
-/

namespace SelectionModels

namespace Files

open Json (Bytes)

/-! ## Trees -/

theorem Node.at?_append_singleton {place : Place} {node found : Node} {name : String} :
    node.at? (place ++ [name]) = some found ↔
      ∃ entries, node.at? place = some (.directory entries) ∧ entries.lookup name = some found := by
  induction place generalizing node with
  | nil => cases node <;> simp [Node.at?]
  | cons outer place ih =>
    cases node with
    | file content => simp [Node.at?]
    | directory entries =>
      cases hlookup : entries.lookup outer with
      | none => simp [Node.at?, hlookup]
      | some next => simpa [Node.at?, hlookup] using ih

theorem lookup_put_of_ne {name other : String} (h : other ≠ name) (node : Node)
    (entries : Entries) : (put name node entries).lookup other = entries.lookup other := by
  have hhead : (other == name) = false := by simp [h]
  simp only [put, List.lookup_cons, hhead]
  induction entries with
  | nil => rfl
  | cons entry entries ih =>
    obtain ⟨first, node'⟩ := entry
    by_cases hfirst : first = name
    · -- the entry that is taken out is not the one that is looked for
      have hother : (other == first) = false := by simp [hfirst, h]
      rw [List.filter_cons_of_neg (by simp [hfirst]), List.lookup_cons, hother]
      exact ih
    · rw [List.filter_cons_of_pos (by simp [hfirst]), List.lookup_cons, List.lookup_cons, ih]

theorem lookup_mapAt_of_ne {name other : String} (h : other ≠ name) (f : Node → Node)
    (entries : Entries) : (mapAt name f entries).lookup other = entries.lookup other := by
  induction entries with
  | nil => rfl
  | cons entry entries ih =>
    obtain ⟨first, node⟩ := entry
    simp only [mapAt, List.map_cons, List.lookup_cons] at ih ⊢
    by_cases hfirst : other = first
    · subst hfirst
      simp [h]
    · have hother : (other == first) = false := by simp [hfirst]
      rw [hother]
      exact ih

/-- Where there is a directory there still is one after something has been put under a name that
is no directory's. -/
theorem exists_at?_putAt {name : String} {node : Node} {place way : Place}
    {entries inner below : Entries}
    (hplace : (Node.directory entries).at? place = some (.directory inner))
    (hname : (inner.lookup name).any (·.isDirectory) = false)
    (hway : (Node.directory entries).at? way = some (.directory below)) :
    ∃ below', (Node.directory (putAt name node place entries)).at? way =
      some (.directory below') := by
  induction place generalizing entries way with
  | nil =>
    obtain rfl : entries = inner := by simpa [Node.at?] using hplace
    cases way with
    | nil => exact ⟨_, rfl⟩
    | cons next way =>
      simp only [Node.at?, Option.bind_eq_some_iff] at hway
      obtain ⟨found, hlookup, hway⟩ := hway
      by_cases hnext : next = name
      · -- the way does not go through the name, which leads to no directory
        cases found with
        | directory entries' => simp [← hnext, hlookup, Node.isDirectory] at hname
        | file content => cases way <;> simp [Node.at?] at hway
      · refine ⟨below, ?_⟩
        simp [putAt, Node.at?, lookup_put_of_ne hnext, hlookup, hway]
  | cons outer place ih =>
    simp only [Node.at?, Option.bind_eq_some_iff] at hplace
    obtain ⟨step, hstep, hplace⟩ := hplace
    cases step with
    | file content => cases place <;> simp [Node.at?] at hplace
    | directory held =>
      cases way with
      | nil => exact ⟨_, rfl⟩
      | cons next way =>
        simp only [Node.at?, Option.bind_eq_some_iff] at hway
        obtain ⟨found, hlookup, hway⟩ := hway
        by_cases hnext : next = outer
        · subst hnext
          obtain rfl : Node.directory held = found := Option.some.inj (hstep.symm.trans hlookup)
          obtain ⟨below', hbelow'⟩ := ih hplace hway
          exact ⟨below', by simpa [putAt, Node.at?, lookup_mapAt, hstep, Node.mapEntries]⟩
        · refine ⟨below, ?_⟩
          simp [putAt, Node.at?, lookup_mapAt_of_ne hnext, hlookup, hway]

/-! ## Ways -/

namespace Store

/-- What the store holds, as one node. -/
def root (s : Store) : Node :=
  .directory s.entries

/-- The names along a way, from the root on. -/
def Trail.place (trail : Trail) : Place :=
  (trail.map (·.1)).reverse

@[simp] theorem Trail.place_cons (name : String) (node : Node) (trail : Trail) :
    Trail.place ((name, node) :: trail) = Trail.place trail ++ [name] := by
  simp [Trail.place]

/-- The way, and every part of it from the root on, leads to the node that it says. -/
def Leads (s : Store) : Trail → Prop
  | [] => True
  | (name, node) :: outer =>
    s.root.at? (Trail.place ((name, node) :: outer)) = some node ∧ s.Leads outer

theorem Leads.tail {s : Store} {trail : Trail} (h : s.Leads trail) : s.Leads trail.tail := by
  cases trail with
  | nil => exact h
  | cons last outer => exact h.2

theorem Leads.at?_place {s : Store} {trail : Trail} (h : s.Leads trail) :
    s.root.at? (Trail.place trail) = some (s.nodeAt trail) := by
  cases trail with
  | nil => rfl
  | cons last outer => exact h.1

/-- A way can be entered when its names lead to a directory. -/
theorem Leads.enter_eq_ok_iff {s : Store} {trail : Trail} (h : s.Leads trail)
    {entries : Entries} : s.enter trail = .ok entries ↔
      s.root.at? (Trail.place trail) = some (.directory entries) := by
  rw [h.at?_place, enter]
  cases s.nodeAt trail <;> simp

/-- What a step comes to: it stays, turns back, or goes on to what stands under the name. -/
theorem step_eq_ok_iff {s : Store} {trail next : Trail} {name : String} :
    s.step trail name = .ok next ↔ ∃ entries, s.enter trail = .ok entries ∧
      if name = "." then trail = next
      else if name = ".." then trail.tail = next
      else ¬ maxName < name.utf8ByteSize ∧
        ∃ node, entries.lookup name = some node ∧ (name, node) :: trail = next := by
  rw [step, bind_eq_ok_iff]
  refine exists_congr fun entries => and_congr_right fun _ => ?_
  split
  · simp [pure, Except.pure]
  · split
    · simp [pure, Except.pure]
    · split
      · rename_i hlong
        simp [hlong]
      · rename_i hshort
        cases entries.lookup name <;> simp [hshort, pure, Except.pure]

theorem Leads.step {s : Store} {trail next : Trail} {name : String} (h : s.Leads trail)
    (hstep : s.step trail name = .ok next) : s.Leads next := by
  obtain ⟨entries, henter, hstep⟩ := step_eq_ok_iff.mp hstep
  split at hstep
  · exact hstep ▸ h
  · split at hstep
    · exact hstep ▸ h.tail
    · obtain ⟨-, node, hlookup, rfl⟩ := hstep
      refine ⟨?_, h⟩
      rw [Trail.place_cons, Node.at?_append_singleton]
      exact ⟨entries, h.enter_eq_ok_iff.mp henter, hlookup⟩

theorem walk_cons_eq_ok_iff {s : Store} {trail last : Trail} {name : String}
    {names : List String} : s.walk trail (name :: names) = .ok last ↔
      ∃ next, s.step trail name = .ok next ∧ s.walk next names = .ok last :=
  bind_eq_ok_iff

theorem walk_append_eq_ok_iff {s : Store} {trail last : Trail} {names names' : List String} :
    s.walk trail (names ++ names') = .ok last ↔
      ∃ next, s.walk trail names = .ok next ∧ s.walk next names' = .ok last := by
  induction names generalizing trail with
  | nil => simp [walk]
  | cons name names ih =>
    simp only [List.cons_append, walk_cons_eq_ok_iff, ih]
    constructor
    · rintro ⟨next, hstep, next', hwalk, hlast⟩
      exact ⟨next', ⟨next, hstep, hwalk⟩, hlast⟩
    · rintro ⟨next', ⟨next, hstep, hwalk⟩, hlast⟩
      exact ⟨next, hstep, next', hwalk, hlast⟩

theorem leads_nil (s : Store) : s.Leads [] := trivial

theorem Leads.walk {s : Store} {trail last : Trail} {names : List String} (h : s.Leads trail)
    (hwalk : s.walk trail names = .ok last) : s.Leads last := by
  induction names generalizing trail with
  | nil =>
    obtain rfl : trail = last := by simpa [Store.walk] using hwalk
    exact h
  | cons name names ih =>
    obtain ⟨next, hstep, hwalk⟩ := walk_cons_eq_ok_iff.mp hwalk
    exact ih (h.step hstep) hwalk

/-- A walk that ends in a directory starts in one. -/
theorem exists_enter_of_walk {s : Store} {trail last : Trail} {names : List String}
    (hwalk : s.walk trail names = .ok last) (hlast : ∃ entries, s.enter last = .ok entries) :
    ∃ entries, s.enter trail = .ok entries := by
  cases names with
  | nil =>
    obtain rfl : trail = last := by simpa [walk] using hwalk
    exact hlast
  | cons name names =>
    obtain ⟨next, hstep, -⟩ := walk_cons_eq_ok_iff.mp hwalk
    obtain ⟨entries, henter, -⟩ := step_eq_ok_iff.mp hstep
    exact ⟨entries, henter⟩

/-! ## Ways in a store that is filled -/

variable {s : Store} {slot : Slot} {node : Node}

/-- The slot's name stands for no directory in the directory that holds it. -/
structure Open (s : Store) (slot : Slot) : Prop where
  holds : s.root.at? slot.place = some (.directory slot.entries)
  free : (slot.entries.lookup slot.name).any (·.isDirectory) = false

/-- A way with the same names leads to a directory where one led to a directory before. -/
theorem Open.enter_fill (hopen : s.Open slot) {trail trail' : Trail} (h : s.Leads trail)
    (h' : (s.fill slot node).Leads trail') (hnames : trail.map (·.1) = trail'.map (·.1))
    (henter : ∃ entries, s.enter trail = .ok entries) :
    ∃ entries', (s.fill slot node).enter trail' = .ok entries' := by
  obtain ⟨entries, henter⟩ := henter
  have hplace : Trail.place trail' = Trail.place trail := by rw [Trail.place, ← hnames, Trail.place]
  simp only [h'.enter_eq_ok_iff, hplace]
  exact exists_at?_putAt hopen.holds hopen.free (h.enter_eq_ok_iff.mp henter)

/-- One step from a directory to a directory is the same in a store that is filled. -/
theorem Open.step_fill (hopen : s.Open slot) {trail trail' next : Trail} (h : s.Leads trail)
    (h' : (s.fill slot node).Leads trail') (hnames : trail.map (·.1) = trail'.map (·.1))
    {name : String} (hstep : s.step trail name = .ok next)
    (hnext : ∃ entries, s.enter next = .ok entries) :
    ∃ next', (s.fill slot node).step trail' name = .ok next' ∧
      next.map (·.1) = next'.map (·.1) := by
  have hleads := h.step hstep
  obtain ⟨entries, henter, hstep⟩ := step_eq_ok_iff.mp hstep
  obtain ⟨entries', henter'⟩ := hopen.enter_fill h h' hnames ⟨entries, henter⟩
  by_cases hdot : name = "."
  · rw [if_pos hdot] at hstep
    refine ⟨trail', step_eq_ok_iff.mpr ⟨entries', henter', ?_⟩, hstep ▸ hnames⟩
    rw [if_pos hdot]
  by_cases hdots : name = ".."
  · rw [if_neg hdot, if_pos hdots] at hstep
    refine ⟨trail'.tail, step_eq_ok_iff.mpr ⟨entries', henter', ?_⟩, ?_⟩
    · rw [if_neg hdot, if_pos hdots]
    · rw [← hstep, List.map_tail, List.map_tail, hnames]
  · rw [if_neg hdot, if_neg hdots] at hstep
    obtain ⟨hshort, found, hlookup, rfl⟩ := hstep
    -- the directory under the name is one in the filled store too
    obtain ⟨below, hbelow⟩ := hnext
    have hway : ∃ below', (s.fill slot node).root.at? (Trail.place ((name, found) :: trail)) =
        some (.directory below') :=
      exists_at?_putAt hopen.holds hopen.free (hleads.enter_eq_ok_iff.mp hbelow)
    have hplace : Trail.place trail = Trail.place trail' := by
      rw [Trail.place, hnames, Trail.place]
    obtain ⟨below', hway⟩ := hway
    rw [Trail.place_cons, hplace, Node.at?_append_singleton] at hway
    obtain ⟨held, hheld, hfound⟩ := hway
    obtain rfl : entries' = held := by
      have hsame := (h'.enter_eq_ok_iff.mp henter').symm.trans hheld
      simpa using hsame
    refine ⟨(name, .directory below') :: trail',
      step_eq_ok_iff.mpr ⟨entries', henter', ?_⟩, by simp [hnames]⟩
    rw [if_neg hdot, if_neg hdots]
    exact ⟨hshort, .directory below', hfound, rfl⟩

/-- A way to a directory leads to a directory in a store that is filled, by the same names. -/
theorem Open.walk_fill (hopen : s.Open slot) {trail trail' last : Trail} (h : s.Leads trail)
    (h' : (s.fill slot node).Leads trail') (hnames : trail.map (·.1) = trail'.map (·.1))
    {names : List String} (hwalk : s.walk trail names = .ok last)
    (hlast : ∃ entries, s.enter last = .ok entries) :
    ∃ last', (s.fill slot node).walk trail' names = .ok last' ∧
      last.map (·.1) = last'.map (·.1) := by
  induction names generalizing trail trail' with
  | nil =>
    obtain rfl : trail = last := by simpa [Store.walk] using hwalk
    exact ⟨trail', rfl, hnames⟩
  | cons name names ih =>
    obtain ⟨next, hstep, hwalk⟩ := walk_cons_eq_ok_iff.mp hwalk
    have hnext := exists_enter_of_walk hwalk hlast
    obtain ⟨next', hstep', hnames'⟩ := hopen.step_fill h h' hnames hstep hnext
    obtain ⟨last', hwalk', hlast'⟩ := ih (h.step hstep) (h'.step hstep') hnames' hwalk
    exact ⟨last', walk_cons_eq_ok_iff.mpr ⟨next', hstep', hwalk'⟩, hlast'⟩

/-! ## Writing and reading -/

/-- The names from the root that a path starts with. -/
def startNames (s : Store) (path : String) : List String :=
  if isAbsolute path then [] else s.current

theorem start_eq_walk (s : Store) (path : String) :
    s.start path = s.walk [] (s.startNames path) := by
  unfold start startNames
  split <;> rfl

/-- A path that has a slot can be asked for, and all but its last name lead to the slot's
directory. -/
theorem slot?_eq_ok_some {path : String} (h : s.slot? path = .ok (some slot)) :
    askable path = .ok () ∧ (pathNames path).getLast? = some slot.name ∧
      ∃ trail, s.walk [] (s.startNames path ++ (pathNames path).dropLast) = .ok trail ∧
        Trail.place trail = slot.place ∧ s.enter trail = .ok slot.entries := by
  obtain ⟨⟨⟩, haskable, h⟩ := bind_eq_ok_iff.mp h
  cases hlast : (pathNames path).getLast? with
  | none => simp [hlast, pure, Except.pure] at h
  | some name =>
    simp only [hlast, bind_eq_ok_iff, start_eq_walk] at h
    obtain ⟨first, hfirst, trail, hwalk, entries, henter, h⟩ := h
    simp only [pure, Except.pure, Except.ok.injEq, Option.some.injEq] at h
    subst h
    exact ⟨haskable, rfl, trail, walk_append_eq_ok_iff.mpr ⟨first, hfirst, hwalk⟩, rfl, henter⟩

/-- What a path with a slot leads to once the slot is filled. -/
theorem locate_fill {path : String} (h : s.slot? path = .ok (some slot))
    (hfree : (slot.entries.lookup slot.name).any (·.isDirectory) = false)
    (hname : slot.name ≠ "." ∧ slot.name ≠ ".." ∧ ¬ maxName < slot.name.utf8ByteSize)
    (hslash : endsWithSlash path = false) :
    ∃ trail, (s.fill slot node).locate path = .ok trail ∧
      (s.fill slot node).nodeAt trail = node := by
  obtain ⟨haskable, hlast, trail, hwalk, hplace, henter⟩ := slot?_eq_ok_some h
  have hleads : s.Leads trail := s.leads_nil.walk hwalk
  have hholds := hplace ▸ hleads.enter_eq_ok_iff.mp henter
  have hopen : s.Open slot := ⟨hholds, hfree⟩
  obtain ⟨trail', hwalk', hnames⟩ :=
    hopen.walk_fill s.leads_nil (leads_nil (s.fill slot node)) rfl hwalk ⟨_, henter⟩
  have hleads' : (s.fill slot node).Leads trail' := (leads_nil _).walk hwalk'
  obtain ⟨entries', henter'⟩ := hopen.enter_fill hleads hleads' hnames ⟨_, henter⟩
  -- the last name is found where it has been put
  have hput : (s.fill slot node).root.at? (slot.place ++ [slot.name]) = some node :=
    at?_putAt hholds
  have hplace' : slot.place = Trail.place trail' := by
    rw [← hplace, Trail.place, hnames, Trail.place]
  rw [hplace', Node.at?_append_singleton] at hput
  obtain ⟨held, hheld, hlookup⟩ := hput
  obtain rfl : entries' = held := by
    simpa using (hleads'.enter_eq_ok_iff.mp henter').symm.trans hheld
  refine ⟨(slot.name, node) :: trail', ?_, rfl⟩
  have hstep : (s.fill slot node).step trail' slot.name = .ok ((slot.name, node) :: trail') := by
    refine step_eq_ok_iff.mpr ⟨entries', henter', ?_⟩
    rw [if_neg hname.1, if_neg hname.2.1]
    exact ⟨hname.2.2, node, hlookup, rfl⟩
  have hpath : (pathNames path).dropLast ++ [slot.name] = pathNames path :=
    List.dropLast_append_getLast? slot.name hlast
  have hwhole : (s.fill slot node).walk [] (s.startNames path ++ pathNames path) =
      .ok ((slot.name, node) :: trail') := by
    rw [← hpath, ← List.append_assoc]
    exact walk_append_eq_ok_iff.mpr ⟨trail', hwalk',
      walk_cons_eq_ok_iff.mpr ⟨_, hstep, rfl⟩⟩
  obtain ⟨first, hfirst, hrest⟩ := walk_append_eq_ok_iff.mp hwhole
  refine bind_eq_ok_iff.mpr ⟨(), haskable, ?_⟩
  refine bind_eq_ok_iff.mpr ⟨first, (start_eq_walk _ path).trans hfirst, ?_⟩
  refine bind_eq_ok_iff.mpr ⟨_, hrest, ?_⟩
  rw [hslash]
  rfl

/-- A file that can be written belongs to a slot that no directory takes. -/
theorem write_eq_ok {s' : Store} {path : String} {content : Bytes}
    (h : s.write path content = .ok s') :
    ∃ slot, s.slot? path = .ok (some slot) ∧ s' = s.fill slot (.file content) ∧
      (slot.entries.lookup slot.name).any (·.isDirectory) = false ∧
      (slot.name ≠ "." ∧ slot.name ≠ ".." ∧ ¬ maxName < slot.name.utf8ByteSize) ∧
      endsWithSlash path = false := by
  obtain ⟨slot?, hslot, h⟩ := bind_eq_ok_iff.mp h
  cases slot? with
  | none => cases h
  | some slot =>
    simp only at h
    split at h
    · cases h
    · rename_i hname
      split at h
      · cases h
      · rename_i hshort
        split at h
        · cases h
        · rename_i hfree
          simp only [pure, Except.pure, Except.ok.injEq] at h
          simp only [Bool.or_eq_true, decide_eq_true_eq, not_or] at hname
          exact ⟨slot, hslot, h.symm, by simpa using hfree,
            ⟨hname.1.1, hname.1.2, hshort⟩, by simpa using hname.2⟩

/-- A file that has been written is read. -/
theorem read_of_write {s' : Store} {path : String} {content : Bytes}
    (h : s.write path content = .ok s') : s'.read path = .ok content := by
  obtain ⟨slot, hslot, rfl, hfree, hname, hslash⟩ := write_eq_ok h
  obtain ⟨trail, hlocate, hnode⟩ := locate_fill hslot hfree hname hslash
  refine bind_eq_ok_iff.mpr ⟨trail, hlocate, ?_⟩
  rw [hnode]
  rfl

end Store

end Files

end SelectionModels
