import Mathlib.Data.List.Infix
import SelectionModels.Proofs.Places

/-! # Directories that are made

It can be told from a store whether a file can stand under a path: no file may stand where a
directory is wanted, no directory where the file is wanted, and the names may not be too long.
Directories that are missing are made from the outside in, and nothing else changes.

* `Store.Grows`, `Store.Proper.of_ensureFrom`: making directories takes nothing away;
* `Store.Proper.run_ensureFrom_ancestors`: directories that nothing is in the way of are made;
* `Store.CanHold`: a file can stand under the path.
-/

namespace SelectionModels.Files

open Json (Bytes)

namespace Store

variable {s s' : Store}

/-! ## Making directories -/

/-- The place that a path leads to, if it leads anywhere. -/
def placeOf (s : Store) (path : String) : Place :=
  follow (s.startNames path) (pathNames path)

/-- Everything is where it was, and where there was nothing there may now be directories, at the
places of some paths. -/
structure Grows (paths : List String) (s s' : Store) : Prop where
  current : s'.current = s.current
  kept : ∀ place, s'.seen place = s.seen place ∨
    s.seen place = none ∧ s'.seen place = some none ∧ ∃ path ∈ paths, place = s.placeOf path

theorem Grows.refl (paths : List String) (s : Store) : Grows paths s s :=
  ⟨rfl, fun _ => Or.inl rfl⟩

theorem Grows.mono {paths paths' : List String} (h : Grows paths s s') (hsub : paths ⊆ paths') :
    Grows paths' s s' where
  current := h.current
  kept := by
    intro place
    rcases h.kept place with hsame | ⟨hnone, hnew, path, hpath, hplace⟩
    · exact Or.inl hsame
    · exact Or.inr ⟨hnone, hnew, path, hsub hpath, hplace⟩

theorem startNames_congr {path path' : String} (hcurrent : s'.current = s.current)
    (habsolute : isAbsolute path' = isAbsolute path) : s'.startNames path' = s.startNames path := by
  rw [startNames, startNames, hcurrent, habsolute]

theorem Grows.startNames {paths : List String} (h : Grows paths s s') (path : String) :
    s'.startNames path = s.startNames path :=
  startNames_congr h.current rfl

theorem Grows.trans {paths : List String} {s'' : Store} (h : Grows paths s s')
    (h' : Grows paths s' s'') : Grows paths s s'' where
  current := h'.current.trans h.current
  kept := by
    intro place
    rcases h'.kept place with hsame' | ⟨hnone', hnew', path, hpath, hplace⟩
    · rw [hsame']
      exact h.kept place
    · rcases h.kept place with hsame | ⟨-, hnew, -⟩
      · refine Or.inr ⟨hsame ▸ hnone', hnew', path, hpath, ?_⟩
        rw [hplace, placeOf, placeOf, h.startNames]
      · exact absurd (hnone'.symm.trans hnew) (by simp)

theorem Grows.hasDirectory {paths : List String} (h : Grows paths s s') {place : Place}
    (hplace : s.HasDirectory place) : s'.HasDirectory place := by
  rw [hasDirectory_iff] at hplace ⊢
  rcases h.kept place with hsame | ⟨hnone, -⟩
  · exact hsame.trans hplace
  · exact absurd (hnone.symm.trans hplace) (by simp)

theorem Grows.hasFile_iff {paths : List String} (h : Grows paths s s') {place : Place} :
    s'.HasFile place ↔ s.HasFile place := by
  rw [Store.hasFile_iff, Store.hasFile_iff]
  rcases h.kept place with hsame | ⟨hnone, hnew, -⟩
  · rw [hsame]
  · simp [hnone, hnew]

/-- A path that has a slot ends with a name that stands in the directory of the slot. -/
theorem holds_of_slot? {path : String} {slot : Slot} (h : s.slot? path = .ok (some slot)) :
    s.root.at? slot.place = some (.directory slot.entries) := by
  rcases slot?_eq_ok_some h with ⟨-, -, trail, hwalk, hplace, henter⟩
  exact hplace ▸ (s.leads_nil.walk hwalk).enter_eq_ok_iff.mp henter

/-- The name of a slot is one, unless it is a dot, two dots or too long. -/
theorem isName_of_slot? {path : String} {slot : Slot} (h : s.slot? path = .ok (some slot))
    (hdot : slot.name ≠ ".") (hdots : slot.name ≠ "..")
    (hshort : ¬ maxName < slot.name.utf8ByteSize) : IsName slot.name := by
  rcases slot?_eq_ok_some h with ⟨haskable, hlast, -⟩
  rcases List.mem_filter.mp (List.mem_of_getLast? hlast) with ⟨hsegment, hne⟩
  refine ⟨by simpa using hne, hdot, hdots, not_mem_of_mem_segments hsegment, ?_,
    Nat.le_of_not_lt hshort⟩
  intro hnul
  exact (askable_eq_ok_iff.mp haskable).1 (mem_of_mem_segments hsegment hnul).1

/-- A directory that is made is a new one, under a name that is one. -/
theorem makeDirectory_eq_ok {path : String} (h : s.makeDirectory path = .ok s') :
    ∃ slot, s.slot? path = .ok (some slot) ∧ s' = s.fill slot (.directory []) ∧
      IsName slot.name ∧ slot.entries.lookup slot.name = none := by
  rcases bind_eq_ok_iff.mp h with ⟨slot?, hslot, h⟩
  cases slot? with
  | none => cases h
  | some slot =>
    simp only at h
    split at h
    · cases h
    · rename_i hname
      split at h
      · cases h
      · rename_i hshort
        split at h
        · cases h
        · rename_i hnew
          simp only [Bool.or_eq_true, decide_eq_true_eq, not_or] at hname
          exact ⟨slot, hslot, (Except.ok.inj h).symm,
            isName_of_slot? hslot hname.1 hname.2 hshort, Option.not_isSome_iff_eq_none.mp hnew⟩

/-- A slot that is filled by a proper node leaves a store proper. -/
theorem Proper.fill {slot : Slot} {node : Node} (hs : s.Proper) (hopen : s.Open slot)
    (hname : IsName slot.name) (hnode : node.Proper) : (s.fill slot node).Proper where
  root := Node.Proper.putAt hname hnode hs.root slot.place
  current := by
    rcases hs.current with ⟨entries, hat⟩
    exact exists_at?_putAt hopen.holds hopen.free hat

/-- A file that is written leaves a store proper. -/
theorem Proper.of_write (hs : s.Proper) {path : String} {content : Bytes}
    (h : s.write path content = .ok s') : s'.Proper := by
  rcases write_eq_ok h with ⟨slot, hslot, rfl, hfree, ⟨hdot, hdots, hshort⟩, -⟩
  exact hs.fill ⟨holds_of_slot? hslot, hfree⟩ (isName_of_slot? hslot hdot hdots hshort)
    (.file content)

/-- A slot that is filled by its name is the place of the path. -/
theorem Proper.slot_place (hs : s.Proper) {path : String} {slot : Slot}
    (h : s.slot? path = .ok (some slot)) (hname : IsName slot.name) :
    slot.place ++ [slot.name] = s.placeOf path := by
  rcases slot?_eq_ok_some h with ⟨-, hlast, trail, hwalk, hplace, -⟩
  have hstart : follow (Trail.place []) (s.startNames path) = s.startNames path :=
    hs.follow_startNames path
  have hlastStep : ∀ place : Place, place ++ [slot.name] = follow place [slot.name] := by
    intro place
    exact (follow_of_isName (by simpa using hname)).symm
  rw [← hplace, place_of_walk hwalk, follow_append, hstart, hlastStep, ← follow_append,
    List.dropLast_append_getLast? slot.name hlast]
  rfl

/-- What making a directory keeps. -/
theorem Proper.of_makeDirectory (hs : s.Proper) {path : String}
    (h : s.makeDirectory path = .ok s') : Grows [path] s s' ∧ s'.Proper := by
  rcases makeDirectory_eq_ok h with ⟨slot, hslot, rfl, hname, hnew⟩
  have hholds := holds_of_slot? hslot
  have hopen : s.Open slot := ⟨hholds, by simp [hnew]⟩
  refine ⟨⟨rfl, fun place => ?_⟩, hs.fill hopen hname (.directory ?_ ?_ ?_)⟩
  · by_cases hplace : place = slot.place ++ [slot.name]
    · refine Or.inr ⟨?_, ?_, path, List.mem_singleton_self path, ?_⟩
      · rw [seen, Option.map_eq_none_iff, hplace, Option.eq_none_iff_forall_ne_some]
        intro node hnode
        rcases Node.at?_append_singleton.mp hnode with ⟨held, hheld, hfound⟩
        obtain rfl : slot.entries = held := by simpa using hholds.symm.trans hheld
        simp [hnew] at hfound
      · rw [← hasDirectory_iff, hplace]
        exact ⟨[], at?_putAt hholds⟩
      · rw [hplace, hs.slot_place hslot hname]
    · exact Or.inl (content?_at?_putAt hholds hnew hplace)
  all_goals simp

theorem run_ensureOne (s : Store) (path : String) :
    (writer.ensureOne path).run s = match s.makeDirectory path with
      | .ok s' => (.ok (), s')
      | .error .exists => (if s.isDirectory path then .ok () else .error .exists, s)
      | .error e => (.error e, s) := by
  have hmake : (writer.makeDirectory path).run s = change (·.makeDirectory path) s := rfl
  rw [Writer.ensureOne, StateT.run_bind, hmake, change]
  cases hmade : s.makeDirectory path with
  | ok s' => rfl
  | error e => cases e <;> rfl

theorem run_ensureFrom_cons (s : Store) (path : String) (outer : List String) :
    (writer.ensureFrom (path :: outer)).run s =
      if path = "" then (.ok (), s)
      else match (writer.ensureOne path).run s with
        | (.error .noEntry, s₁) =>
          match (writer.ensureFrom outer).run s₁ with
          | (.ok (), s₂) => (writer.ensureOne path).run s₂
          | (.error e, s₂) => (.error e, s₂)
        | result => result := by
  rw [Writer.ensureFrom]
  by_cases hpath : path = ""
  · rw [if_pos hpath, if_pos hpath]
    rfl
  · rw [if_neg hpath, if_neg hpath]
    rw [StateT.run_bind]
    generalize (writer.ensureOne path).run s = made
    rcases made with ⟨e | ⟨⟨⟩⟩, s₁⟩
    · cases e with
      | noEntry =>
        refine (StateT.run_bind _ _ s₁).trans ?_
        dsimp only
        generalize (writer.ensureFrom outer).run s₁ = outward
        rcases outward with ⟨e | ⟨⟨⟩⟩, s₂⟩ <;> rfl
      | _ => rfl
    · rfl

/-- What making one directory keeps, whether it is made or not. -/
theorem Proper.of_ensureOne (hs : s.Proper) {path : String} {result : Except FileError Unit}
    (h : (writer.ensureOne path).run s = (result, s')) : Grows [path] s s' ∧ s'.Proper := by
  rw [run_ensureOne] at h
  cases hmade : s.makeDirectory path with
  | ok s₁ =>
    rw [hmade] at h
    rcases Prod.mk.inj h with ⟨-, rfl⟩
    exact hs.of_makeDirectory hmade
  | error e =>
    rw [hmade] at h
    have hsame : s = s' := by cases e <;> exact (Prod.mk.inj h).2
    exact hsame ▸ ⟨.refl [path] s, hs⟩

/-- What making directories keeps, however far it comes. -/
theorem Proper.of_ensureFrom (hs : s.Proper) {paths : List String}
    {result : Except FileError Unit} (h : (writer.ensureFrom paths).run s = (result, s')) :
    Grows paths s s' ∧ s'.Proper := by
  induction paths generalizing s s' result with
  | nil => exact (Prod.mk.inj h).2 ▸ ⟨.refl [] s, hs⟩
  | cons path outer ih =>
    have hhere : [path] ⊆ path :: outer := by simp
    rw [run_ensureFrom_cons] at h
    split at h
    · exact (Prod.mk.inj h).2 ▸ ⟨.refl _ s, hs⟩
    · split at h
      · rename_i s₁ hfirst
        rcases hs.of_ensureOne hfirst with ⟨hfirst, hs₁⟩
        split at h
        · rename_i s₂ houter
          rcases ih hs₁ houter with ⟨houter, hs₂⟩
          rcases hs₂.of_ensureOne h with ⟨hlast, hs'⟩
          exact ⟨((hfirst.mono hhere).trans (houter.mono (List.subset_cons_self path outer))).trans
            (hlast.mono hhere), hs'⟩
        · rename_i e s₂ houter
          rcases ih hs₁ houter with ⟨houter, hs₂⟩
          rcases Prod.mk.inj h with ⟨-, rfl⟩
          exact ⟨(hfirst.mono hhere).trans (houter.mono (List.subset_cons_self path outer)), hs₂⟩
      · rcases hs.of_ensureOne h with ⟨hfirst, hs'⟩
        exact ⟨hfirst.mono hhere, hs'⟩

/-! ## Paths that can be made -/

/-- A path through directories to a directory leads there. -/
theorem Proper.isDirectory_eq_true (hs : s.Proper) {path : String}
    (haskable : askable path = .ok ())
    (hshort : ∀ name ∈ pathNames path, name.utf8ByteSize ≤ maxName)
    (hway : ∀ before, before <+: pathNames path →
      s.HasDirectory (follow (s.startNames path) before)) : s.isDirectory path = true := by
  rcases hs.exists_start path with ⟨trail, hstart, hleads, hplace, -⟩
  rw [← hplace] at hway
  rcases exists_walk hleads hshort hway with ⟨last, hwalk⟩
  have hlast := hleads.walk hwalk
  have hend := hway (pathNames path) (List.prefix_refl _)
  rw [← place_of_walk hwalk] at hend
  rcases hlast.enter_iff.mpr hend with ⟨entries, henter⟩
  have hlocate : s.locate path = .ok last := by
    simp only [locate, haskable, hstart, hwalk, bind, Except.bind, henter, discard]
    split <;> rfl
  rcases hend with ⟨entries', hat⟩
  rw [hlast.at?_place, Option.some.injEq] at hat
  rw [isDirectory, hlocate]
  simp [hat, Node.isDirectory]

/-- The slot of a path whose last name stands in a directory. -/
theorem Proper.slot?_eq (hs : s.Proper) {path name : String} (haskable : askable path = .ok ())
    (hshort : ∀ name ∈ pathNames path, name.utf8ByteSize ≤ maxName)
    (hlast : (pathNames path).getLast? = some name)
    (hway : ∀ before, before <+: (pathNames path).dropLast →
      s.HasDirectory (follow (s.startNames path) before)) :
    ∃ entries, s.root.at? (follow (s.startNames path) (pathNames path).dropLast) =
        some (.directory entries) ∧
      s.slot? path =
        .ok (some ⟨follow (s.startNames path) (pathNames path).dropLast, entries, name⟩) := by
  rcases hs.exists_start path with ⟨trail, hstart, hleads, hplace, -⟩
  rw [← hplace] at hway ⊢
  have hshort' : ∀ name ∈ (pathNames path).dropLast, name.utf8ByteSize ≤ maxName :=
    fun name hname => hshort name (List.dropLast_subset _ hname)
  rcases exists_walk hleads hshort' hway with ⟨last, hwalk⟩
  rcases hway _ (List.prefix_refl _) with ⟨entries, hat⟩
  refine ⟨entries, hat, ?_⟩
  rw [← place_of_walk hwalk] at hat ⊢
  have henter := (hleads.walk hwalk).enter_eq_ok_iff.mpr hat
  simp only [slot?, haskable, hlast, hstart, hwalk, henter, bind, Except.bind, pure, Except.pure]
  rfl

/-- A path that no file stands in the way of has no slot only where a directory is missing. -/
theorem Proper.slot?_eq_error (hs : s.Proper) {path name : String}
    (haskable : askable path = .ok ())
    (hshort : ∀ name ∈ pathNames path, name.utf8ByteSize ≤ maxName)
    (hlast : (pathNames path).getLast? = some name)
    (hway : ∀ before, before <+: (pathNames path).dropLast →
      ¬ s.HasFile (follow (s.startNames path) before))
    (hmissing : ¬ ∀ before, before <+: (pathNames path).dropLast →
      s.HasDirectory (follow (s.startNames path) before)) :
    s.slot? path = .error .noEntry := by
  rcases hs.exists_start path with ⟨trail, hstart, hleads, hplace, hhome⟩
  rw [← hplace] at hway hmissing hhome
  have hshort' : ∀ name ∈ (pathNames path).dropLast, name.utf8ByteSize ≤ maxName :=
    fun name hname => hshort name (List.dropLast_subset _ hname)
  simp only [slot?, haskable, hlast, hstart, bind, Except.bind]
  cases hwalk : s.walk trail (pathNames path).dropLast with
  | error e => rw [walk_eq_error hleads hhome hshort' hway hwalk]
  | ok last =>
    -- a walk that comes to its end, and not to a file, went through directories only
    refine absurd ?_ hmissing
    intro before hbefore
    rcases hbefore with ⟨_ | ⟨next, after⟩, hsplit⟩
    · rw [List.append_nil] at hsplit
      have hend := (hleads.walk hwalk).at?_place
      rw [place_of_walk hwalk] at hend
      rw [hsplit]
      cases hnode : s.nodeAt last with
      | directory entries => exact ⟨entries, hnode ▸ hend⟩
      | file content => exact absurd ⟨content, hnode ▸ hend⟩ (hway _ (List.prefix_refl _))
    · exact (of_walk_eq_ok hleads hwalk hsplit.symm).1

/-- A path can be asked for, and no file stands in its way or at its end. -/
structure Clear (s : Store) (path : String) : Prop where
  askable : Store.askable path = .ok ()
  names : ∀ name ∈ pathNames path, name.utf8ByteSize ≤ maxName
  way : ∀ before, before <+: pathNames path → ¬ s.HasFile (follow (s.startNames path) before)

theorem Clear.of_grows {paths : List String} {path : String} (h : s.Clear path)
    (hgrows : Grows paths s s') : s'.Clear path where
  askable := h.askable
  names := h.names
  way := by
    intro before hbefore hfile
    rw [hgrows.startNames, hgrows.hasFile_iff] at hfile
    exact h.way before hbefore hfile

theorem Clear.of_outer {path outer : String} (h : s.Clear path)
    (haskable : Store.askable outer = .ok ()) (hstart : s.startNames outer = s.startNames path)
    (hnames : pathNames outer <+: pathNames path) : s.Clear outer where
  askable := haskable
  names := fun name hname => h.names name (hnames.subset hname)
  way := fun before hbefore => hstart ▸ h.way before (hbefore.trans hnames)

/-- There are directories all along the names. -/
def Paved (s : Store) (place : Place) (names : List String) : Prop :=
  ∀ before, before <+: names → s.HasDirectory (follow place before)

theorem Paved.of_dropLast {place : Place} {names : List String} {name : String}
    (h : s.Paved place names.dropLast) (hlast : names.getLast? = some name)
    (hend : s.HasDirectory (follow place names)) : s.Paved place names := by
  intro before hbefore
  rw [← List.dropLast_append_getLast? name hlast] at hbefore
  rcases List.prefix_concat_iff.mp hbefore with rfl | hbefore
  · rw [List.dropLast_append_getLast? name hlast]
    exact hend
  · exact h before hbefore

theorem Paved.append_dots {place : Place} {names dots : List String} (h : s.Paved place names)
    (hdots : ∀ name ∈ dots, name = ".") : s.Paved place (names ++ dots) := by
  rintro before ⟨rest, hsplit⟩
  rcases List.append_eq_append_iff.mp hsplit with ⟨more, rfl, -⟩ | ⟨more, rfl, hmore⟩
  · exact h before (List.prefix_append before more)
  · rw [follow_append, follow_dots fun name hname => hdots name (by simp [hmore, hname])]
    exact h names (List.prefix_refl names)

theorem Paved.of_grows {paths : List String} {place : Place} {names : List String}
    (h : s.Paved place names) (hgrows : Grows paths s s') : s'.Paved place names :=
  fun before hbefore => hgrows.hasDirectory (h before hbefore)

/-- A path to a directory that is there is not made again. -/
theorem Proper.run_ensureOne_of_exists (hs : s.Proper) {path : String} (h : s.Clear path)
    (hpaved : s.Paved (s.startNames path) (pathNames path))
    (hmake : s.makeDirectory path = .error .exists) :
    (writer.ensureOne path).run s = (.ok (), s) := by
  rw [run_ensureOne, hmake]
  simp only [hs.isDirectory_eq_true h.askable h.names hpaved, if_true]

/-- Names are followed up to the last one, and then one step further. -/
theorem follow_eq_goTo (place : Place) {names : List String} {name : String}
    (hlast : names.getLast? = some name) :
    follow place names = goTo (follow place names.dropLast) name := by
  have hsplit := follow_append place names.dropLast [name]
  rwa [List.dropLast_append_getLast? name hlast] at hsplit

/-- No directory is made where there is one. -/
theorem Proper.makeDirectory_of_paved (hs : s.Proper) {path : String} (h : s.Clear path)
    (hpaved : s.Paved (s.startNames path) (pathNames path)) :
    s.makeDirectory path = .error .exists := by
  cases hlast : (pathNames path).getLast? with
  | none =>
    simp only [makeDirectory, slot?, h.askable, hlast, bind, Except.bind, pure, Except.pure]
    rfl
  | some name =>
    have hbefore : s.Paved (s.startNames path) (pathNames path).dropLast :=
      fun before h => hpaved before (h.trans (List.dropLast_prefix _))
    rcases hs.slot?_eq h.askable h.names hlast hbefore with ⟨entries, hat, hslot⟩
    have hshort : ¬ maxName < name.utf8ByteSize :=
      Nat.not_lt_of_le (h.names name (List.mem_of_getLast? hlast))
    by_cases hdots : name = "." ∨ name = ".."
    · simp only [makeDirectory, hslot, bind, Except.bind]
      rcases hdots with rfl | rfl <;> rfl
    · rw [not_or] at hdots
      rcases hpaved _ (List.prefix_refl _) with ⟨below, hbelow⟩
      rw [follow_eq_goTo _ hlast, goTo, if_neg hdots.1, if_neg hdots.2] at hbelow
      rcases Node.at?_append_singleton.mp hbelow with ⟨held, hheld, hlookup⟩
      obtain rfl : entries = held := by simpa using hat.symm.trans hheld
      simp only [makeDirectory, hslot, bind, Except.bind, hdots, hshort, hlookup]
      rfl

/-- The last directory of a path is made if those before it are there. -/
theorem Proper.run_ensureOne_of_paved (hs : s.Proper) {path : String} (h : s.Clear path)
    (hpaved : s.Paved (s.startNames path) (pathNames path).dropLast) :
    ∃ s', (writer.ensureOne path).run s = (.ok (), s') ∧
      s'.Paved (s.startNames path) (pathNames path) := by
  by_cases hall : s.Paved (s.startNames path) (pathNames path)
  · exact ⟨s, hs.run_ensureOne_of_exists h hall (hs.makeDirectory_of_paved h hall), hall⟩
  cases hlast : (pathNames path).getLast? with
  | none =>
    rw [List.getLast?_eq_none_iff.mp hlast] at hpaved hall
    exact absurd hpaved hall
  | some name =>
    have hnew : ¬ s.HasDirectory (follow (s.startNames path) (pathNames path)) :=
      fun hend => hall (hpaved.of_dropLast hlast hend)
    rcases hs.slot?_eq h.askable h.names hlast hpaved with ⟨entries, hat, hslot⟩
    have hshort : ¬ maxName < name.utf8ByteSize :=
      Nat.not_lt_of_le (h.names name (List.mem_of_getLast? hlast))
    have hend := follow_eq_goTo (s.startNames path) hlast
    -- the directory before the last name is there, and so is the one around it
    have hdots : name ≠ "." ∧ name ≠ ".." := by
      constructor <;> rintro rfl <;> rw [hend] at hnew
      · exact hnew ⟨entries, hat⟩
      · exact hnew (HasDirectory.dropLast ⟨entries, hat⟩)
    rw [goTo, if_neg hdots.1, if_neg hdots.2] at hend
    have hlookup : entries.lookup name = none := by
      rw [Option.eq_none_iff_forall_ne_some]
      intro node hlookup
      have hnode : s.root.at? (follow (s.startNames path) (pathNames path)) = some node := by
        rw [hend, Node.at?_append_singleton]
        exact ⟨entries, hat, hlookup⟩
      cases node with
      | directory below => exact hnew ⟨below, hnode⟩
      | file content => exact h.way _ (List.prefix_refl _) ⟨content, hnode⟩
    have hmake : s.makeDirectory path = .ok (s.fill
        ⟨follow (s.startNames path) (pathNames path).dropLast, entries, name⟩ (.directory [])) := by
      simp only [makeDirectory, hslot, bind, Except.bind, hdots, hshort, hlookup]
      rfl
    refine ⟨_, by rw [run_ensureOne, hmake], ?_⟩
    refine (hpaved.of_grows (hs.of_makeDirectory hmake).1).of_dropLast hlast ?_
    rw [hend]
    exact ⟨[], at?_putAt hat⟩

/-- A path whose directories are not all there waits for them. -/
theorem Proper.run_ensureOne_of_missing (hs : s.Proper) {path : String} (h : s.Clear path)
    (hmissing : ¬ s.Paved (s.startNames path) (pathNames path).dropLast) :
    (writer.ensureOne path).run s = (.error .noEntry, s) := by
  cases hlast : (pathNames path).getLast? with
  | none =>
    refine absurd ?_ hmissing
    rw [List.getLast?_eq_none_iff.mp hlast]
    intro before hbefore
    rcases hs.exists_start path with ⟨-, -, -, -, hhome⟩
    rw [List.prefix_nil.mp hbefore]
    exact hhome
  | some name =>
    have hway : ∀ before, before <+: (pathNames path).dropLast →
        ¬ s.HasFile (follow (s.startNames path) before) :=
      fun before hbefore => h.way before (hbefore.trans (List.dropLast_prefix _))
    have hslot := hs.slot?_eq_error h.askable h.names hlast hway hmissing
    have hmake : s.makeDirectory path = .error .noEntry := by
      simp only [makeDirectory, hslot, bind, Except.bind]
    rw [run_ensureOne, hmake]

/-- The directories of a path are there once they have been made. Outwards from the path there is a
first directory that is there; those behind it are made one by one. -/
theorem Proper.run_ensureFrom_ancestors (hs : s.Proper) {path : String}
    (h : path = "" ∨ s.Clear path) (htidy : Tidy path) :
    ∃ s', (writer.ensureFrom (ancestors path)).run s = (.ok (), s') ∧
      s'.Paved (s.startNames path) (pathNames path) := by
  induction hlength : path.length using Nat.strong_induction_on generalizing path with
  | h n ih =>
    by_cases hempty : path = ""
    · subst hempty
      refine ⟨s, rfl, ?_⟩
      intro before hbefore
      rcases hs.exists_start "" with ⟨-, -, -, -, hhome⟩
      rw [List.prefix_nil.mp hbefore]
      exact hhome
    have hclear := h.resolve_left hempty
    by_cases hpaved : s.Paved (s.startNames path) (pathNames path).dropLast
    · rcases hs.run_ensureOne_of_paved hclear hpaved with ⟨s', hrun, hpaved'⟩
      refine ⟨s', ?_, hpaved'⟩
      rw [ancestors_eq]
      cases parent? path <;> rw [run_ensureFrom_cons, if_neg hempty, hrun]
    · have hmissing := hs.run_ensureOne_of_missing hclear hpaved
      -- a path of dots only stays in the directory where it starts
      have hgoes : ∃ name ∈ pathNames path, name ≠ "." := by
        by_contra hstays
        refine hpaved fun before hbefore => ?_
        rw [follow_dots]
        · rcases hs.exists_start path with ⟨-, -, -, -, hhome⟩
          exact hhome
        · intro name hname
          by_contra hne
          exact hstays ⟨name, List.dropLast_subset _ (hbefore.subset hname), hne⟩
      cases houter : parent? path with
      | none =>
        rcases hgoes with ⟨name, hname, hne⟩
        exact absurd (parent?_eq_none houter name hname) hne
      | some outer =>
        rcases of_parent?_eq_some houter with ⟨⟨rest, hrest⟩, hshorter, habsolute⟩
        rcases htidy.pathNames_eq houter hgoes with ⟨dots, last, hnames, hdots⟩
        have hstart : s.startNames outer = s.startNames path := by
          rw [startNames, startNames, habsolute]
        have houterClear : outer = "" ∨ s.Clear outer := by
          by_cases houterEmpty : outer = ""
          · exact Or.inl houterEmpty
          · refine Or.inr (hclear.of_outer ?_ hstart ?_)
            · rcases askable_eq_ok_iff.mp hclear.askable with ⟨hnul, -, hshort⟩
              rw [hrest] at hnul hshort
              simp only [String.toList_append, List.mem_append, not_or,
                String.utf8ByteSize_append] at hnul hshort
              exact askable_eq_ok_iff.mpr ⟨hnul.1, houterEmpty, by omega⟩
            · rw [hnames, List.append_assoc]
              exact List.prefix_append _ _
        rcases ih outer.length (hlength ▸ hshorter) houterClear (tidy_of_parent? houter) rfl with
          ⟨s₁, hrun, hpaved₁⟩
        rcases hs.of_ensureFrom hrun with ⟨hgrows, hs₁⟩
        have hdrop : (pathNames path).dropLast = pathNames outer ++ dots := by
          rw [hnames, List.dropLast_concat]
        have hpaved₁' : s₁.Paved (s₁.startNames path) (pathNames path).dropLast := by
          rw [hdrop, hgrows.startNames, ← hstart]
          exact hpaved₁.append_dots hdots
        rcases hs₁.run_ensureOne_of_paved (hclear.of_grows hgrows) hpaved₁' with
          ⟨s', hrun', hpaved'⟩
        refine ⟨s', ?_, hgrows.startNames path ▸ hpaved'⟩
        rw [ancestors_eq, houter, run_ensureFrom_cons, if_neg hempty, hmissing]
        simp only [hrun, hrun']

/-! ## Paths that can hold a file -/

/-- A file can stand under the path: it ends with a name, no file stands where a directory is
wanted, and neither a directory nor one that is on the way stands where the file is wanted. -/
structure CanHold (s : Store) (path : String) : Prop where
  noNul : '\x00' ∉ path.toList
  short : path.utf8ByteSize ≤ maxPath
  names : ∀ name ∈ pathNames path, name.utf8ByteSize ≤ maxName
  named : ∃ kept name, segments path = kept ++ [name] ∧ name ≠ "" ∧ name ≠ "." ∧ name ≠ ".."
  way : ∀ before, before <+: (pathNames path).dropLast →
    ¬ s.HasFile (follow (s.startNames path) before) ∧
      follow (s.startNames path) before ≠ s.placeOf path
  free : ¬ s.HasDirectory (s.placeOf path)

/-- Whether a file can stand under a path can be looked up. -/
instance (s : Store) (path : String) : Decidable (s.CanHold path) :=
  decidable_of_iff
    (('\x00' ∉ path.toList ∧ path.utf8ByteSize ≤ maxPath ∧
        ∀ name ∈ pathNames path, name.utf8ByteSize ≤ maxName) ∧
      ((segments path).getLast?.any fun name => name ≠ "" && name ≠ "." && name ≠ "..") ∧
      (∀ before ∈ (pathNames path).dropLast.inits,
        (s.seen (follow (s.startNames path) before)).any (·.isSome) = false ∧
          follow (s.startNames path) before ≠ s.placeOf path) ∧
      s.seen (s.placeOf path) ≠ some none) (by
    have hfile : ∀ place, (s.seen place).any (·.isSome) = false ↔ ¬ s.HasFile place := by
      intro place
      rw [hasFile_iff]
      rcases s.seen place with _ | ⟨_ | _⟩ <;> simp
    have hnamed : (segments path).getLast?.any
          (fun name => name ≠ "" && name ≠ "." && name ≠ "..") = true ↔
        ∃ kept name, segments path = kept ++ [name] ∧ name ≠ "" ∧ name ≠ "." ∧ name ≠ ".." := by
      rcases List.eq_nil_or_concat (segments path) with hnil | ⟨kept, name, hsegments⟩
      · exact absurd hnil (segments_ne_nil path)
      · rw [hsegments, List.concat_eq_append, List.getLast?_concat]
        simp [and_assoc]
    simp only [hfile, hnamed, List.mem_inits, ne_eq, ← hasDirectory_iff]
    constructor
    · rintro ⟨⟨hnul, hshort, hnames⟩, hnamed, hway, hfree⟩
      exact ⟨hnul, hshort, hnames, hnamed, hway, hfree⟩
    · rintro ⟨hnul, hshort, hnames, hnamed, hway, hfree⟩
      exact ⟨⟨hnul, hshort, hnames⟩, hnamed, hway, hfree⟩)

theorem CanHold.askable {path : String} (h : s.CanHold path) : Store.askable path = .ok () := by
  rcases h.named with ⟨kept, name, hsegments, hname, -⟩
  refine askable_eq_ok_iff.mpr ⟨h.noNul, ?_, h.short⟩
  rintro rfl
  rw [segments_empty] at hsegments
  rcases kept with _ | ⟨first, kept⟩
  · exact hname (List.cons.inj hsegments).1.symm
  · simp at hsegments

theorem CanHold.endsWithSlash_eq_false {path : String} (h : s.CanHold path) :
    endsWithSlash path = false := by
  rcases h.named with ⟨kept, name, hsegments, hname, -⟩
  rw [Bool.eq_false_iff]
  intro hslash
  rcases endsWithSlash_iff.mp hslash with ⟨start, rfl⟩
  have hend := segments_append_slash start ""
  rw [String.append_empty, hsegments] at hend
  exact hname (List.cons.inj (List.append_inj' hend rfl).2).1

theorem CanHold.exists_getLast? {path : String} (h : s.CanHold path) :
    ∃ name, (pathNames path).getLast? = some name ∧ name ≠ "." ∧ name ≠ ".." := by
  rcases h.named with ⟨kept, name, hsegments, hname, hdots⟩
  refine ⟨name, ?_, hdots⟩
  rw [pathNames_of_segments hsegments, List.filter_append]
  simp [hname]

theorem CanHold.tidy {path : String} (h : s.CanHold path) : Tidy path := by
  rcases h.named with ⟨kept, name, hsegments, hname, hdot, -⟩
  exact Or.inr ⟨kept, name, hsegments, by simp [isIdle, hname, hdot]⟩

/-- The place of a path whose last name is one. -/
theorem placeOf_eq {path name : String} (hlast : (pathNames path).getLast? = some name)
    (hdots : name ≠ "." ∧ name ≠ "..") :
    s.placeOf path = follow (s.startNames path) (pathNames path).dropLast ++ [name] := by
  rw [placeOf, follow_eq_goTo _ hlast, goTo, if_neg hdots.1, if_neg hdots.2]

/-- A file can be written where it can stand, if its directories are there. -/
theorem Proper.exists_write_of_canHold (hs : s.Proper) {path : String} (h : s.CanHold path)
    (hpaved : s.Paved (s.startNames path) (pathNames path).dropLast) (content : Bytes) :
    ∃ s', s.write path content = .ok s' := by
  rcases h.exists_getLast? with ⟨name, hlast, hdots⟩
  rcases hs.slot?_eq h.askable h.names hlast hpaved with ⟨entries, hat, hslot⟩
  have hshort : ¬ maxName < name.utf8ByteSize :=
    Nat.not_lt_of_le (h.names name (List.mem_of_getLast? hlast))
  have hfree : ¬ (entries.lookup name).any (·.isDirectory) = true := by
    intro hdirectory
    cases hfound : entries.lookup name with
    | none => simp [hfound] at hdirectory
    | some node =>
      cases node with
      | file content => simp [hfound, Node.isDirectory] at hdirectory
      | directory below =>
        refine h.free ⟨below, ?_⟩
        rw [placeOf_eq hlast hdots]
        exact Node.at?_append_singleton.mpr ⟨entries, hat, hfound⟩
  refine ⟨s.fill ⟨follow (s.startNames path) (pathNames path).dropLast, entries, name⟩
    (.file content), ?_⟩
  simp only [write, hslot, bind, Except.bind, hdots, h.endsWithSlash_eq_false, hshort, hfree]
  rfl

/-- What stands before the last name of a path that can hold a file. -/
theorem CanHold.exists_dots {path outer : String} (h : s.CanHold path)
    (houter : parent? path = some outer) :
    ∃ dots, (pathNames path).dropLast = pathNames outer ++ dots ∧ ∀ name ∈ dots, name = "." := by
  rcases h.exists_getLast? with ⟨name, hlast, hdot, -⟩
  rcases h.tidy.pathNames_eq houter ⟨name, List.mem_of_getLast? hlast, hdot⟩ with
    ⟨dots, last, hnames, hdots⟩
  exact ⟨dots, by rw [hnames, List.dropLast_concat], hdots⟩

theorem CanHold.clear_outer {path outer : String} (h : s.CanHold path)
    (houter : parent? path = some outer) : outer = "" ∨ s.Clear outer := by
  by_cases hempty : outer = ""
  · exact Or.inl hempty
  rcases of_parent?_eq_some houter with ⟨⟨rest, hrest⟩, -, habsolute⟩
  rcases h.exists_dots houter with ⟨dots, hdrop, -⟩
  have hfront : pathNames outer <+: (pathNames path).dropLast :=
    hdrop ▸ List.prefix_append (pathNames outer) dots
  refine Or.inr ⟨?_, ?_, ?_⟩
  · have hnul := h.noNul
    have hshort := h.short
    rw [hrest] at hnul hshort
    simp only [String.toList_append, List.mem_append, not_or, String.utf8ByteSize_append]
      at hnul hshort
    exact askable_eq_ok_iff.mpr ⟨hnul.1, hempty, by omega⟩
  · exact fun name hname => h.names name (List.dropLast_subset _ (hfront.subset hname))
  · intro before hbefore
    rw [startNames_congr rfl habsolute]
    exact (h.way before (hbefore.trans hfront)).1

/-- New directories on the way to a file do not take its place. -/
theorem CanHold.of_grows {path outer : String} (h : s.CanHold path)
    (houter : parent? path = some outer) (hgrows : Grows (ancestors outer) s s') :
    s'.CanHold path := by
  have hplace : s'.placeOf path = s.placeOf path := by rw [placeOf, placeOf, hgrows.startNames]
  refine ⟨h.noNul, h.short, h.names, h.named, ?_, ?_⟩
  · intro before hbefore
    rw [hgrows.startNames, hgrows.hasFile_iff, hplace]
    exact h.way before hbefore
  · rw [hplace, hasDirectory_iff]
    intro hnew
    rcases hgrows.kept (s.placeOf path) with hsame | ⟨-, -, other, hother, hat⟩
    · exact h.free (hasDirectory_iff.mpr (hsame ▸ hnew))
    · rcases of_mem_ancestors hother with ⟨hfront, habsolute⟩
      rcases of_parent?_eq_some houter with ⟨-, -, houterAbsolute⟩
      rcases h.exists_dots houter with ⟨dots, hdrop, -⟩
      have hbefore : pathNames other <+: (pathNames path).dropLast :=
        hdrop ▸ hfront.trans (List.prefix_append (pathNames outer) dots)
      refine (h.way _ hbefore).2 ?_
      rw [hat, placeOf, startNames_congr rfl (habsolute.trans houterAbsolute)]

/-- The directories on the way to a file are made, and the file can still stand where it could. -/
theorem Proper.run_ensureFrom_of_canHold (hs : s.Proper) {path outer : String} (h : s.CanHold path)
    (houter : parent? path = some outer) :
    ∃ s', (writer.ensureFrom (ancestors outer)).run s = (.ok (), s') ∧ s'.Proper ∧
      s'.CanHold path ∧ s'.Paved (s'.startNames path) (pathNames path).dropLast := by
  rcases hs.run_ensureFrom_ancestors (h.clear_outer houter) (tidy_of_parent? houter) with
    ⟨s', hrun, hpaved⟩
  rcases hs.of_ensureFrom hrun with ⟨hgrows, hs'⟩
  rcases h.exists_dots houter with ⟨dots, hdrop, hdots⟩
  rcases of_parent?_eq_some houter with ⟨-, -, habsolute⟩
  refine ⟨s', hrun, hs', h.of_grows houter hgrows, ?_⟩
  rw [hdrop, hgrows.startNames, ← startNames_congr rfl habsolute]
  exact hpaved.append_dots hdots

/-- A slot is found in a directory, and there are directories on the way to it. -/
theorem Proper.of_slot? (hs : s.Proper) {path : String} {slot : Slot}
    (h : s.slot? path = .ok (some slot)) :
    follow (s.startNames path) (pathNames path).dropLast = slot.place ∧
      s.Paved (s.startNames path) (pathNames path).dropLast ∧
      ∀ name ∈ (pathNames path).dropLast, name.utf8ByteSize ≤ maxName := by
  rcases slot?_eq_ok_some h with ⟨-, -, trail, hwalk, hplace, -⟩
  rw [walk_append_eq_ok_iff] at hwalk
  rcases hwalk with ⟨first, hfirst, hwalk⟩
  have hleads : s.Leads first := s.leads_nil.walk hfirst
  have hstart : Trail.place first = s.startNames path := by
    rw [place_of_walk hfirst]
    exact hs.follow_startNames path
  have hend : follow (s.startNames path) (pathNames path).dropLast = slot.place := by
    rw [← hstart, ← place_of_walk hwalk, hplace]
  refine ⟨hend, ?_, ?_⟩
  · rintro before ⟨_ | ⟨next, after⟩, hsplit⟩
    · rw [List.append_nil] at hsplit
      rw [hsplit, hend]
      exact ⟨slot.entries, holds_of_slot? h⟩
    · rw [← hstart]
      exact (of_walk_eq_ok hleads hwalk hsplit.symm).1
  · intro name hname
    rcases List.append_of_mem hname with ⟨before, after, hsplit⟩
    exact (of_walk_eq_ok hleads hwalk hsplit).2

/-- A path that a file has been written under could hold it. -/
theorem Proper.canHold_of_write (hs : s.Proper) {path : String} {content : Bytes}
    (h : s.write path content = .ok s') : s.CanHold path := by
  rcases write_eq_ok h with ⟨slot, hslot, -, hfree, ⟨hdot, hdots, hshort⟩, hslash⟩
  rcases slot?_eq_ok_some hslot with ⟨haskable, hlast, -⟩
  rcases askable_eq_ok_iff.mp haskable with ⟨hnul, -, hsize⟩
  rcases hs.of_slot? hslot with ⟨hend, hpaved, hnames⟩
  have hnone : ¬ s.HasDirectory (s.placeOf path) := by
    rw [placeOf_eq hlast ⟨hdot, hdots⟩, hend]
    rintro ⟨below, hbelow⟩
    rcases Node.at?_append_singleton.mp hbelow with ⟨held, hheld, hfound⟩
    obtain rfl : slot.entries = held := by simpa using (holds_of_slot? hslot).symm.trans hheld
    simp [hfound, Node.isDirectory] at hfree
  refine ⟨hnul, hsize, ?_, ?_, ?_, hnone⟩
  · intro name hname
    rw [← List.dropLast_append_getLast? slot.name hlast, List.mem_append,
      List.mem_singleton] at hname
    rcases hname with hname | rfl
    · exact hnames name hname
    · exact Nat.le_of_not_lt hshort
  · rcases exists_segments_of_getLast? hlast hslash with ⟨kept, hsegments, hname⟩
    exact ⟨kept, slot.name, hsegments, hname, hdot, hdots⟩
  · intro before hbefore
    have hhere := hpaved before hbefore
    exact ⟨hhere.not_hasFile, fun heq => hnone (heq ▸ hhere)⟩

/-- New directories on the way to a file were not needed for it to have a place. -/
theorem CanHold.of_grown {paths : List String} {path : String} (h : s'.CanHold path)
    (hgrows : Grows paths s s') : s.CanHold path where
  noNul := h.noNul
  short := h.short
  names := h.names
  named := h.named
  way := by
    intro before hbefore
    have hway := h.way before hbefore
    rw [hgrows.startNames, hgrows.hasFile_iff, placeOf, hgrows.startNames] at hway
    exact hway
  free := by
    intro hdirectory
    refine h.free ?_
    rw [placeOf, hgrows.startNames]
    exact hgrows.hasDirectory hdirectory

end Store

end SelectionModels.Files
