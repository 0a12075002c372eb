import Mathlib.Data.List.Basic
import Mathlib.Data.List.TakeWhile
import SelectionModels.Files.Path
import SelectionModels.Files.Store
import SelectionModels.Glob.Expand

/-! # Texts of paths

A path is the text of its segments, with slashes between them. What is asked of paths as texts is
answered here by their segments: where a joined name is found again, what is in front of the last
name, and how long a path is that goes deeper.

* `segments_append_slash`, `segments_join`: the segments of what is put together;
* `fileName?_below`, `extent_lt_below`: a name below a directory is the last name of a longer path;
* `parent?_eq_some`: a path is its parent and one name more.
-/

namespace SelectionModels.Files

/-! ## Segments -/

theorem splitSlash_ne_nil (cs : List Char) : splitSlash cs ≠ [] := by
  cases cs with
  | nil => simp [splitSlash]
  | cons c cs =>
    unfold splitSlash
    split
    · simp
    · split <;> simp

/-- A text is cut at every slash, so it may be cut at one of them first. -/
theorem splitSlash_append_slash (cs ds : List Char) :
    splitSlash (cs ++ '/' :: ds) = splitSlash cs ++ splitSlash ds := by
  induction cs with
  | nil => simp [splitSlash]
  | cons c cs ih =>
    by_cases hc : c = '/'
    · simp [splitSlash, hc, ih]
    · rcases hcs : splitSlash cs with _ | ⟨first, rest⟩
      · exact absurd hcs (splitSlash_ne_nil cs)
      · simp [splitSlash, hc, ih, hcs]

theorem splitSlash_of_not_mem {cs : List Char} (h : '/' ∉ cs) : splitSlash cs = [cs] := by
  induction cs with
  | nil => rfl
  | cons c cs ih =>
    have hc : ¬ c = '/' := by
      intro heq
      exact h (heq ▸ List.mem_cons_self)
    simp [splitSlash, hc, ih fun hmem => h (List.mem_cons_of_mem c hmem)]

/-- The parts of a text have its characters, without the slashes. -/
theorem of_mem_splitSlash {cs part : List Char} (h : part ∈ splitSlash cs) {c : Char}
    (hc : c ∈ part) : c ∈ cs ∧ c ≠ '/' := by
  induction cs generalizing part with
  | nil =>
    obtain rfl : part = [] := by simpa [splitSlash] using h
    cases hc
  | cons d cs ih =>
    by_cases hd : d = '/'
    · rw [splitSlash, if_pos hd] at h
      rcases List.mem_cons.mp h with rfl | h
      · cases hc
      · exact ⟨List.mem_cons_of_mem d (ih h hc).1, (ih h hc).2⟩
    · rw [splitSlash, if_neg hd] at h
      rcases hcs : splitSlash cs with _ | ⟨first, rest⟩
      · exact absurd hcs (splitSlash_ne_nil cs)
      · rw [hcs] at h ih
        have hmore : ∀ {part : List Char}, part ∈ first :: rest → c ∈ part →
            c ∈ d :: cs ∧ c ≠ '/' := by
          intro part hpart hmem
          exact ⟨List.mem_cons_of_mem d (ih hpart hmem).1, (ih hpart hmem).2⟩
        rcases List.mem_cons.mp h with rfl | h
        · rcases List.mem_cons.mp hc with rfl | hc
          · exact ⟨List.mem_cons_self, hd⟩
          · exact hmore List.mem_cons_self hc
        · exact hmore (List.mem_cons_of_mem first h) hc

/-- Cutting at the slashes loses nothing. -/
theorem intercalate_splitSlash (cs : List Char) : ['/'].intercalate (splitSlash cs) = cs := by
  induction cs with
  | nil => rfl
  | cons c cs ih =>
    rcases hcs : splitSlash cs with _ | ⟨first, rest⟩
    · exact absurd hcs (splitSlash_ne_nil cs)
    · rw [hcs] at ih
      by_cases hc : c = '/'
      · simp [splitSlash, hc, hcs, List.intercalate_cons_cons, ih]
      · rw [splitSlash, if_neg hc, hcs]
        cases rest with
        | nil => simpa using ih
        | cons second rest =>
          rw [List.intercalate_cons_cons] at ih ⊢
          simpa using ih

@[simp] theorem segments_empty : segments "" = [""] := rfl

/-- The segments of a path are those in front of a slash and those behind it. -/
theorem segments_append_slash (path rest : String) :
    segments (path ++ "/" ++ rest) = segments path ++ segments rest := by
  have hslash : (path ++ "/" ++ rest).toList = path.toList ++ '/' :: rest.toList := by
    simp [String.toList_append]
  rw [segments, hslash, splitSlash_append_slash, List.map_append]
  rfl

theorem segments_of_not_mem {name : String} (h : '/' ∉ name.toList) : segments name = [name] := by
  rw [segments, splitSlash_of_not_mem h, List.map_singleton, String.ofList_toList]

/-- What stands in a segment stands in the path, and it is no slash. -/
theorem mem_of_mem_segments {path name : String} (h : name ∈ segments path) {c : Char}
    (hc : c ∈ name.toList) : c ∈ path.toList ∧ c ≠ '/' := by
  rcases List.mem_map.mp h with ⟨part, hpart, rfl⟩
  rw [String.toList_ofList] at hc
  exact of_mem_splitSlash hpart hc

theorem not_mem_of_mem_segments {path name : String} (h : name ∈ segments path) :
    '/' ∉ name.toList := fun hc => (mem_of_mem_segments h hc).2 rfl

/-- Even the empty path has a segment. -/
theorem segments_ne_nil (path : String) : segments path ≠ [] := by
  simp [segments, splitSlash_ne_nil]

/-- A path is its segments with slashes between them. -/
theorem intercalate_segments (path : String) : "/".intercalate (segments path) = path := by
  apply String.toList_injective
  rw [String.toList_intercalate, segments, List.map_map]
  have hid : (String.toList ∘ String.ofList) = id := by
    funext cs
    simp
  rw [hid, List.map_id]
  exact intercalate_splitSlash path.toList

/-- Segments with slashes between them are the segments of what they make. -/
theorem segments_intercalate {names : List String} (hne : names ≠ [])
    (h : ∀ name ∈ names, '/' ∉ name.toList) : segments ("/".intercalate names) = names := by
  induction names with
  | nil => exact absurd rfl hne
  | cons name names ih =>
    have hname := segments_of_not_mem (h name List.mem_cons_self)
    cases names with
    | nil => rw [String.intercalate_singleton, hname]
    | cons second names =>
      rw [String.intercalate_cons_cons, segments_append_slash, hname,
        ih (by simp) fun other hother => h other (List.mem_cons_of_mem _ hother)]
      rfl

/-- The front of a path is its first segment, if that is empty or a dot. The only path that starts
with an empty segment and not at the root is the empty one. -/
theorem frontAndBody_cases (path : String) :
    (∃ body, body ≠ [] ∧ segments path = "" :: body ∧ frontAndBody path = (.root, body)) ∨
      (∃ body, segments path = "." :: body ∧ frontAndBody path = (.here, body)) ∨
      frontAndBody path = (.plain, segments path) ∧ (segments path).head? ≠ some "." ∧
        ((segments path).head? = some "" → path = "") := by
  unfold frontAndBody
  split
  · rename_i second rest hsegments
    exact Or.inl ⟨second :: rest, by simp, hsegments, rfl⟩
  · rename_i rest hsegments
    exact Or.inr (Or.inl ⟨rest, hsegments, rfl⟩)
  · rename_i hroot hhere
    refine Or.inr (Or.inr ⟨rfl, ?_, ?_⟩)
    · intro hhead
      rcases hsegments : segments path with _ | ⟨first, rest⟩
      · exact segments_ne_nil path hsegments
      · rw [hsegments] at hhead
        exact hhere rest (hsegments.trans (by rw [Option.some.inj hhead]))
    · intro hhead
      rcases hsegments : segments path with _ | ⟨first, _ | ⟨second, rest⟩⟩
      · exact absurd hsegments (segments_ne_nil path)
      · rw [hsegments] at hhead
        rw [← intercalate_segments path, hsegments, Option.some.inj hhead]
        rfl
      · rw [hsegments] at hhead
        exact absurd (hsegments.trans (by rw [Option.some.inj hhead])) (hroot second rest)

/-! ## Names below directories -/

/-- The text can be the name of something that stands in a directory. -/
structure IsName (name : String) : Prop where
  nonempty : name ≠ ""
  noDot : name ≠ "."
  noDots : name ≠ ".."
  noSlash : '/' ∉ name.toList
  noNul : '\x00' ∉ name.toList
  short : name.utf8ByteSize ≤ maxName

instance (name : String) : Decidable (IsName name) :=
  decidable_of_iff (name ≠ "" ∧ name ≠ "." ∧ name ≠ ".." ∧ '/' ∉ name.toList ∧
      '\x00' ∉ name.toList ∧ name.utf8ByteSize ≤ maxName)
    ⟨fun ⟨h, hdot, hdots, hslash, hnul, hshort⟩ => ⟨h, hdot, hdots, hslash, hnul, hshort⟩,
      fun ⟨h, hdot, hdots, hslash, hnul, hshort⟩ => ⟨h, hdot, hdots, hslash, hnul, hshort⟩⟩

theorem IsName.not_isIdle {name : String} (h : IsName name) : isIdle name = false := by
  simp [isIdle, h.nonempty, h.noDot]

/-- A path that ends with a slash has something in front of it. -/
theorem endsWithSlash_iff {path : String} :
    endsWithSlash path = true ↔ ∃ start, path = start ++ "/" := by
  rw [endsWithSlash, decide_eq_true_iff]
  constructor
  · intro h
    refine ⟨String.ofList path.toList.dropLast, ?_⟩
    apply String.toList_injective
    rw [String.toList_append, String.toList_ofList]
    exact (List.dropLast_append_getLast? '/' h).symm
  · rintro ⟨start, rfl⟩
    simp [String.toList_append]

/-- The segments of a joined name stand behind those of the path, but for an empty one at its
end. -/
theorem segments_join {path : String} (h : path ≠ "") (name : String) :
    ∃ kept, kept ≠ [] ∧ (segments path = kept ∨ segments path = kept ++ [""]) ∧
      segments (join path name) = kept ++ segments name := by
  by_cases hslash : endsWithSlash path = true
  · rcases endsWithSlash_iff.mp hslash with ⟨start, rfl⟩
    have hend := segments_append_slash start ""
    rw [String.append_empty] at hend
    refine ⟨segments start, segments_ne_nil start, Or.inr hend, ?_⟩
    rw [join, if_pos (by simp [hslash]), segments_append_slash]
  · refine ⟨segments path, segments_ne_nil path, Or.inl rfl, ?_⟩
    rw [join, if_neg (by simp [h, hslash]), segments_append_slash]

/-- A name at the end is no idle segment. -/
theorem dropIdleEnd_append_singleton {body : List String} {name : String}
    (h : isIdle name = false) : dropIdleEnd (body ++ [name]) = body ++ [name] := by
  simp [dropIdleEnd, h]

/-- A path whose last segment is a name ends with that name. -/
theorem fileName?_of_segments {path name : String} {kept : List String} (hname : IsName name)
    (h : segments path = kept ++ [name]) : fileName? path = some name := by
  have hbody : ∃ front body, frontAndBody path = (front, body ++ [name]) := by
    rcases frontAndBody_cases path with ⟨body, hne, hsegments, hfront⟩ |
      ⟨body, hsegments, hfront⟩ | ⟨hfront, -, -⟩
    · rcases kept with _ | ⟨first, kept⟩
      · exact absurd (List.cons.inj (hsegments.symm.trans h)).2 hne
      · exact ⟨.root, kept, by rw [hfront, (List.cons.inj (hsegments.symm.trans h)).2]; rfl⟩
    · rcases kept with _ | ⟨first, kept⟩
      · exact absurd (List.cons.inj (hsegments.symm.trans h)).1.symm hname.noDot
      · exact ⟨.here, kept, by rw [hfront, (List.cons.inj (hsegments.symm.trans h)).2]; rfl⟩
    · exact ⟨.plain, kept, by rw [hfront, h]⟩
  rcases hbody with ⟨front, body, hbody⟩
  rw [fileName?, hbody, dropIdleEnd_append_singleton hname.not_isIdle, List.getLast?_concat]
  simp [hname.noDots]

/-- A path that says "here" is a dot and idle segments. -/
theorem isHere_iff {path : String} :
    isHere path = true ↔ ∃ rest, segments path = "." :: rest ∧ ∀ name ∈ rest, isIdle name := by
  have hidle : ∀ body : List String, dropIdleEnd body = [] ↔ ∀ name ∈ body, isIdle name := by
    intro body
    rw [dropIdleEnd, List.reverse_eq_nil_iff, List.dropWhile_eq_nil_iff]
    simp
  rcases frontAndBody_cases path with ⟨body, hne, hsegments, hfront⟩ |
    ⟨body, hsegments, hfront⟩ | ⟨hfront, hdot, -⟩
  · simp [isHere, hfront, hsegments]
  · simp [isHere, hfront, hsegments, hidle]
  · simp only [isHere, hfront, reduceCtorEq, decide_false, Bool.false_and, Bool.false_eq_true,
      false_iff, not_exists, not_and]
    intro rest hsegments
    rw [hsegments] at hdot
    exact absurd rfl hdot

/-! ## How far a path goes -/

open Glob (below)

/-- The last component of a path to a name is the name. -/
theorem fileName?_below {path name : String} (hname : IsName name) :
    fileName? (below path name) = some name := by
  have hsegments := segments_of_not_mem hname.noSlash
  unfold below
  split
  · exact fileName?_of_segments hname (show segments name = [] ++ [name] from hsegments)
  · by_cases hempty : path = ""
    · rw [join, if_pos (by simp [hempty]), hempty, String.empty_append]
      exact fileName?_of_segments hname (show segments name = [] ++ [name] from hsegments)
    · rcases segments_join hempty name with ⟨kept, -, -, hjoin⟩
      exact fileName?_of_segments hname (hjoin.trans (by rw [hsegments]))

/-- A path that says "here" in front of a name says so by itself. -/
theorem isHere_of_join {path name : String} (h : path ≠ "") (hjoin : isHere (join path name)) :
    isHere path = true ∧ ∀ segment ∈ segments name, isIdle segment := by
  rcases isHere_iff.mp hjoin with ⟨rest, hrest, hidle⟩
  rcases segments_join h name with ⟨kept, hkept, hpath, hsegments⟩
  rcases kept with _ | ⟨first, kept⟩
  · exact absurd rfl hkept
  rw [hsegments, List.cons_append] at hrest
  rcases List.cons.inj hrest with ⟨rfl, rfl⟩
  rw [List.forall_mem_append] at hidle
  refine ⟨isHere_iff.mpr ?_, hidle.2⟩
  rcases hpath with hpath | hpath
  · exact ⟨kept, hpath, hidle.1⟩
  · refine ⟨kept ++ [""], hpath, ?_⟩
    rw [List.forall_mem_append]
    exact ⟨hidle.1, by simp [isIdle]⟩

/-- The length of a path, without the one that only says "here". -/
def extent (path : String) : Nat :=
  if isHere path then 0 else path.utf8ByteSize

/-- Joining keeps both texts, and perhaps adds a slash. -/
theorem utf8ByteSize_le_join (path name : String) :
    path.utf8ByteSize + name.utf8ByteSize ≤ (join path name).utf8ByteSize := by
  unfold join
  split
  · rw [String.utf8ByteSize_append]
  · simp only [String.utf8ByteSize_append]
    omega

/-- A longer path has no smaller extent. -/
theorem extent_le_join (path name : String) : extent path ≤ extent (join path name) := by
  by_cases hempty : path = ""
  · rw [hempty]
    exact Nat.zero_le _
  by_cases hjoin : isHere (join path name) = true
  · rw [extent, if_pos (isHere_of_join hempty hjoin).1]
    exact Nat.zero_le _
  · have hsize := utf8ByteSize_le_join path name
    rw [extent, extent, if_neg hjoin]
    split <;> omega

theorem extent_le_below (path name : String) : extent path ≤ extent (below path name) := by
  unfold below
  split
  · rename_i hhere
    rw [extent, if_pos hhere]
    exact Nat.zero_le _
  · exact extent_le_join path name

theorem extent_le_size (path : String) : extent path ≤ path.utf8ByteSize := by
  unfold extent
  split <;> omega

/-- A name counts with all its bytes, of which there is at least one. -/
theorem IsName.extent_eq {name : String} (h : IsName name) :
    extent name = name.utf8ByteSize ∧ 0 < name.utf8ByteSize := by
  constructor
  · rw [extent, if_neg]
    intro hhere
    rcases isHere_iff.mp hhere with ⟨rest, hrest, -⟩
    rw [segments_of_not_mem h.noSlash] at hrest
    exact h.noDot (List.cons.inj hrest).1
  · refine Nat.pos_of_ne_zero fun hzero => h.nonempty ?_
    rwa [String.utf8ByteSize_eq_zero_iff] at hzero

/-- What stands in a directory has a longer path. -/
theorem extent_lt_below {path name : String} (h : IsName name) :
    extent path < extent (below path name) := by
  rcases h.extent_eq with ⟨hname, hpos⟩
  unfold below
  split
  · rename_i hhere
    rw [hname, extent, if_pos hhere]
    exact hpos
  · by_cases hempty : path = ""
    · have hjoin : join path name = name := by
        rw [join, if_pos (by simp [hempty]), hempty, String.empty_append]
      rw [hjoin, hname, hempty]
      exact hpos
    · have hjoin : ¬ isHere (join path name) = true := by
        intro hhere
        have hidle := (isHere_of_join hempty hhere).2 name
        rw [segments_of_not_mem h.noSlash, h.not_isIdle] at hidle
        exact Bool.noConfusion (hidle List.mem_cons_self)
      have hsize := utf8ByteSize_le_join path name
      have hpath := extent_le_size path
      rw [extent.eq_def (join path name), if_neg hjoin]
      omega

/-! ## Parents -/

/-- The segment that a front stands for. -/
def Front.lead : Front → List String
  | .root => [""]
  | .here => ["."]
  | .plain => []

/-- The segments of a path are its front and its body. -/
theorem segments_eq_lead_append (path : String) :
    segments path = (frontAndBody path).1.lead ++ (frontAndBody path).2 := by
  rcases frontAndBody_cases path with ⟨body, -, hsegments, hfront⟩ |
    ⟨body, hsegments, hfront⟩ | ⟨hfront, -, -⟩
  · rw [hsegments, hfront]
    rfl
  · rw [hsegments, hfront]
    rfl
  · rw [hfront]
    rfl

/-- Segments are idle from the end up to a name, or all of them are. -/
theorem exists_dropIdleEnd (body : List String) :
    ∃ idle, body = dropIdleEnd body ++ idle ∧ (∀ name ∈ idle, isIdle name = true) ∧
      (dropIdleEnd body = [] ∨
        ∃ kept last, dropIdleEnd body = kept ++ [last] ∧ isIdle last = false) := by
  refine ⟨(body.reverse.takeWhile isIdle).reverse, ?_, ?_, ?_⟩
  · rw [dropIdleEnd, ← List.reverse_append, List.takeWhile_append_dropWhile, List.reverse_reverse]
  · intro name hname
    exact List.mem_takeWhile_imp (List.mem_reverse.mp hname)
  · have hhead := List.head?_dropWhile_not isIdle body.reverse
    rcases hkept : body.reverse.dropWhile isIdle with _ | ⟨last, kept⟩
    · exact Or.inl (by rw [dropIdleEnd, hkept, List.reverse_nil])
    · rw [hkept] at hhead
      exact Or.inr ⟨kept.reverse, last, by rw [dropIdleEnd, hkept, List.reverse_cons], hhead⟩

open Store (pathNames)

/-- The names of a path are its segments that are not empty. -/
theorem pathNames_of_segments {path : String} {names : List String} (h : segments path = names) :
    pathNames path = names.filter (· ≠ "") := by
  rw [pathNames, h]

/-- A front and a body are spelled as their segments with slashes in between. -/
theorem spell_eq_intercalate (front : Front) {body : List String} (h : body ≠ []) :
    spell front body = "/".intercalate (front.lead ++ body) := by
  rcases body with _ | ⟨first, body⟩
  · exact absurd rfl h
  · cases front with
    | plain => rfl
    | root =>
      rw [Front.lead, List.singleton_append, String.intercalate_cons_cons]
      rfl
    | here =>
      rw [Front.lead, List.singleton_append, String.intercalate_cons_cons]
      rfl

@[simp] theorem pathNames_empty : pathNames "" = [] := rfl

/-- What is spelled has the names that it was spelled from. -/
theorem pathNames_spell {front : Front} {body : List String}
    (h : ∀ name ∈ body, '/' ∉ name.toList) :
    pathNames (spell front body) = (front.lead ++ body).filter (· ≠ "") := by
  by_cases hbody : body = []
  · subst hbody
    cases front <;> rfl
  · refine pathNames_of_segments ?_
    rw [spell_eq_intercalate front hbody]
    refine segments_intercalate (by simp [hbody]) fun name hname => ?_
    rcases List.mem_append.mp hname with hlead | hname
    · cases front <;> simp [Front.lead] at hlead <;> simp [hlead]
    · exact h name hname

/-- How a path lies below another: `kept` is spelled behind the front, and one name that is not idle
stands behind it. -/
structure LiesBelow (path outer : String) (front : Front) (kept between idle : List String)
    (last : String) : Prop where
  segments_eq : segments path = front.lead ++ (kept ++ between ++ last :: idle)
  outer_eq : outer = spell front kept
  between_idle : ∀ name ∈ between, isIdle name = true
  end_idle : ∀ name ∈ idle, isIdle name = true
  last_name : isIdle last = false
  kept_name : kept = [] ∨ ∃ before name, kept = before ++ [name] ∧ isIdle name = false
  front_eq : (frontAndBody path).1 = front

/-- A path is its parent and one name more, if it does not only say "here". -/
theorem parent?_eq_some {path outer : String} (h : parent? path = some outer) :
    (outer = "" ∧ ∃ idle, segments path = "." :: idle ∧ ∀ name ∈ idle, isIdle name = true) ∨
      ∃ front kept between idle last, LiesBelow path outer front kept between idle last := by
  have hsegments := segments_eq_lead_append path
  rcases hfront : frontAndBody path with ⟨front, body⟩
  rw [hfront] at hsegments
  rcases exists_dropIdleEnd body with ⟨idle, hbody, hidle, hkept⟩
  rw [parent?, hfront] at h
  rcases hkept with hnil | ⟨kept, last, hkept, hlast⟩
  · rw [hnil, List.nil_append] at hbody
    cases front with
    | root => simp [hnil] at h
    | plain => simp [hnil] at h
    | here =>
      refine Or.inl ⟨?_, idle, by rw [hsegments, hbody]; rfl, hidle⟩
      simpa [hnil, eq_comm] using h
  · rcases exists_dropIdleEnd kept with ⟨between, hkept', hbetween, htidy⟩
    have houter : spell front (dropIdleEnd kept) = outer := by
      cases front <;> simpa [hkept] using h
    refine Or.inr ⟨front, dropIdleEnd kept, between, idle, last, ?_⟩
    refine ⟨?_, houter.symm, hbetween, hidle, hlast, htidy, by rw [hfront]⟩
    rw [hsegments, ← hkept', hbody, hkept]
    simp

/-- A path without a parent is the empty one, or the root with idle segments behind it. -/
theorem parent?_eq_none {path : String} (h : parent? path = none) :
    ∀ name ∈ pathNames path, name = "." := by
  have hsegments := segments_eq_lead_append path
  have hplain := frontAndBody_cases path
  rcases hfront : frontAndBody path with ⟨front, body⟩
  rw [hfront] at hsegments hplain
  rcases exists_dropIdleEnd body with ⟨idle, hbody, hidle, hkept⟩
  rw [parent?, hfront] at h
  have hnil : dropIdleEnd body = [] := by
    rcases hkept with hnil | ⟨kept, last, hkept, -⟩
    · exact hnil
    · cases front <;> simp [hkept] at h
  rw [hnil, List.nil_append] at hbody
  intro name hname
  rw [pathNames, hsegments, List.mem_filter, hbody] at hname
  rcases hname with ⟨hname, hne⟩
  rcases List.mem_append.mp hname with hlead | hidle'
  · cases front <;> simp [Front.lead] at hlead <;> simp [hlead] at hne ⊢
  · have hdot := hidle name hidle'
    simp only [isIdle, Bool.or_eq_true, decide_eq_true_eq] at hdot
    exact hdot.resolve_left (by simpa using hne)

section

variable {path outer : String} {front : Front} {kept between idle : List String} {last : String}

/-- An idle segment that is not empty is a dot. -/
theorem filter_idle {names : List String} (h : ∀ name ∈ names, isIdle name = true) :
    ∀ name ∈ names.filter (· ≠ ""), name = "." := by
  intro name hname
  rcases List.mem_filter.mp hname with ⟨hmem, hne⟩
  have hdot := h name hmem
  simp only [isIdle, Bool.or_eq_true, decide_eq_true_eq] at hdot
  exact hdot.resolve_left (by simpa using hne)

/-- The outer path has the names in front of the last one. -/
theorem LiesBelow.pathNames_outer (h : LiesBelow path outer front kept between idle last) :
    pathNames outer = (front.lead ++ kept).filter (· ≠ "") := by
  rw [h.outer_eq]
  refine pathNames_spell fun name hname => not_mem_of_mem_segments (?_ : name ∈ segments path)
  rw [h.segments_eq]
  simp [hname]

/-- The names of a path are those of its parent, and its own, with dots between and behind them. -/
theorem LiesBelow.pathNames_path (h : LiesBelow path outer front kept between idle last) :
    ∃ dots dots', pathNames path = pathNames outer ++ dots ++ last :: dots' ∧
      (∀ name ∈ dots, name = ".") ∧ (∀ name ∈ dots', name = ".") ∧ (idle = [] → dots' = []) := by
  refine ⟨between.filter (· ≠ ""), idle.filter (· ≠ ""), ?_, filter_idle h.between_idle,
    filter_idle h.end_idle, fun hidle => by rw [hidle]; rfl⟩
  have hlast : last ≠ "" := by
    rintro rfl
    exact Bool.noConfusion h.last_name
  rw [h.pathNames_outer, pathNames_of_segments h.segments_eq]
  simp [List.filter_append, hlast]

/-- Segments with slashes in between, cut at one of the slashes. -/
theorem intercalate_append {names names' : List String} (h : names ≠ []) (h' : names' ≠ []) :
    "/".intercalate (names ++ names') = "/".intercalate names ++ "/" ++ "/".intercalate names' := by
  induction names with
  | nil => exact absurd rfl h
  | cons name names ih =>
    by_cases hnames : names = []
    · rw [hnames, List.singleton_append, String.intercalate_cons_of_ne_nil h',
        String.intercalate_singleton]
    · rw [List.cons_append, String.intercalate_cons_of_ne_nil (by simp [hnames]), ih hnames,
        String.intercalate_cons_of_ne_nil hnames]
      simp only [String.append_assoc]

/-- Without a slash behind it the last name of a path is its last segment. -/
theorem exists_segments_of_getLast? {path name : String}
    (hlast : (pathNames path).getLast? = some name) (hslash : endsWithSlash path = false) :
    ∃ kept, segments path = kept ++ [name] ∧ name ≠ "" := by
  rcases List.eq_nil_or_concat (segments path) with hnil | ⟨kept, last, hsegments⟩
  · exact absurd hnil (segments_ne_nil path)
  rw [List.concat_eq_append] at hsegments
  have hne : last ≠ "" := by
    rintro rfl
    rcases List.eq_nil_or_concat kept with rfl | ⟨kept', before, rfl⟩
    · rw [pathNames_of_segments hsegments] at hlast
      simp at hlast
    · have hpath := intercalate_segments path
      rw [hsegments, intercalate_append (by simp) (by simp)] at hpath
      have hends : endsWithSlash path = true :=
        endsWithSlash_iff.mpr ⟨"/".intercalate (kept'.concat before), by
          rw [← hpath]
          show _ ++ "" = _
          exact String.append_empty⟩
      simp [hends] at hslash
  rw [pathNames_of_segments hsegments, List.filter_append] at hlast
  obtain rfl : last = name := by simpa [hne] using hlast
  exact ⟨kept, hsegments, hne⟩

/-- The text of the parent is the front of the path. -/
theorem LiesBelow.exists_eq_append (h : LiesBelow path outer front kept between idle last) :
    ∃ rest, path = outer ++ rest := by
  have hmore : between ++ last :: idle ≠ [] := by simp
  have hpath : path = "/".intercalate (front.lead ++ kept ++ (between ++ last :: idle)) := by
    rw [← intercalate_segments path, h.segments_eq]
    simp
  by_cases hkept : kept = []
  · rw [h.outer_eq, hpath, hkept, List.append_nil]
    cases front with
    | plain => exact ⟨_, String.empty_append.symm⟩
    | root => exact ⟨_, intercalate_append (List.cons_ne_nil _ _) hmore⟩
    | here =>
      have hlead : Front.here.lead ≠ [] := List.cons_ne_nil _ _
      refine ⟨"/" ++ "/".intercalate (between ++ last :: idle), ?_⟩
      rw [intercalate_append hlead hmore, String.append_assoc]
      rfl
  · refine ⟨"/" ++ "/".intercalate (between ++ last :: idle), ?_⟩
    rw [h.outer_eq, spell_eq_intercalate front hkept, hpath,
      intercalate_append (by simp [hkept]) hmore, String.append_assoc]

theorem LiesBelow.segments_outer (h : LiesBelow path outer front kept between idle last)
    (hkept : kept ≠ []) : segments outer = front.lead ++ kept := by
  rw [h.outer_eq, spell_eq_intercalate front hkept]
  refine segments_intercalate (by simp [hkept]) fun name hname => ?_
  refine not_mem_of_mem_segments (?_ : name ∈ segments path)
  rw [h.segments_eq, List.append_assoc, ← List.append_assoc]
  exact List.mem_append_left _ hname

/-- The parent begins as the path does. -/
theorem LiesBelow.front_outer (h : LiesBelow path outer front kept between idle last) :
    (frontAndBody outer).1 = front := by
  by_cases hkept : kept = []
  · rw [h.outer_eq, hkept]
    cases front <;> rfl
  have hsegments := h.segments_outer hkept
  rcases kept with _ | ⟨first, kept⟩
  · exact absurd rfl hkept
  cases front with
  | root => rw [frontAndBody, hsegments]; rfl
  | here => rw [frontAndBody, hsegments]; rfl
  | plain =>
    -- the first name of a path that begins with a name is no dot, and it is not empty
    have hfirst : (segments path).head? = some first := by
      rw [h.segments_eq]
      rfl
    rcases frontAndBody_cases path with ⟨_, _, _, hfront⟩ | ⟨_, _, hfront⟩ | ⟨-, hdot, hempty⟩
    · exact absurd (hfront ▸ h.front_eq) (by simp)
    · exact absurd (hfront ▸ h.front_eq) (by simp)
    · rw [hfirst] at hdot hempty
      have hne : first ≠ "" := by
        rintro rfl
        have hsegments' := h.segments_eq
        rw [hempty rfl] at hsegments'
        simp [segments, splitSlash, Front.lead] at hsegments'
      rw [frontAndBody, hsegments]
      split
      · rename_i heq
        exact absurd (List.cons.inj heq).1 hne
      · rename_i heq
        exact absurd (congrArg some (List.cons.inj heq).1) hdot
      · rfl

end

/-- A path without idle segments at its end, or one that stays where it starts. -/
def Tidy (path : String) : Prop :=
  (∀ name ∈ pathNames path, name = ".") ∨
    ∃ kept last, segments path = kept ++ [last] ∧ isIdle last = false

/-- A parent is spelled without idle segments at its end. -/
theorem tidy_of_parent? {path outer : String} (h : parent? path = some outer) : Tidy outer := by
  rcases parent?_eq_some h with ⟨rfl, -⟩ | ⟨front, kept, between, idle, last, hbelow⟩
  · exact Or.inl (by simp)
  · rcases hbelow.kept_name with rfl | ⟨before, name, rfl, hname⟩
    · rw [Tidy, hbelow.pathNames_outer, List.append_nil]
      refine Or.inl ?_
      cases front <;> simp [Front.lead]
    · refine Or.inr ⟨front.lead ++ before, name, ?_, hname⟩
      rw [hbelow.segments_outer (by simp), List.append_assoc]

/-- The names of a path are those of its parent, one more, and dots between them. -/
theorem Tidy.pathNames_eq {path outer : String} (h : Tidy path) (houter : parent? path = some outer)
    (hgoes : ∃ name ∈ pathNames path, name ≠ ".") :
    ∃ dots last, pathNames path = pathNames outer ++ dots ++ [last] ∧
      ∀ name ∈ dots, name = "." := by
  rcases hgoes with ⟨name, hname, hne⟩
  rcases h with hstays | ⟨kept', last', hend, hlast'⟩
  · exact absurd (hstays name hname) hne
  rcases parent?_eq_some houter with ⟨-, idle, hsegments, hidle⟩ |
    ⟨front, kept, between, idle, last, hbelow⟩
  · -- all segments are idle, so the path would stay where it starts
    have hdots : ∀ name ∈ segments path, isIdle name = true := by
      rw [hsegments, List.forall_mem_cons]
      exact ⟨by decide, hidle⟩
    exact absurd (filter_idle hdots name hname) hne
  · rcases hbelow.pathNames_path with ⟨dots, dots', hnames, hdots, -, hidle⟩
    have hnil : idle = [] := by
      rcases List.eq_nil_or_concat idle with rfl | ⟨before, extra, hidle'⟩
      · rfl
      · have hsegments := hbelow.segments_eq
        rw [hend, hidle', List.concat_eq_append, ← List.cons_append, ← List.append_assoc,
          ← List.append_assoc] at hsegments
        have hextra := (List.append_inj' hsegments rfl).2
        have hlast := hbelow.end_idle extra (by simp [hidle'])
        rw [← (List.cons.inj hextra).1, hlast'] at hlast
        exact Bool.noConfusion hlast
    rw [hidle hnil] at hnames
    exact ⟨dots, last, hnames, hdots⟩

/-- What a path and its parent have in common. -/
theorem of_parent?_eq_some {path outer : String} (h : parent? path = some outer) :
    (∃ rest, path = outer ++ rest) ∧ outer.length < path.length ∧
      isAbsolute outer = isAbsolute path := by
  rcases parent?_eq_some h with ⟨rfl, idle, hsegments, -⟩ |
    ⟨front, kept, between, idle, last, hbelow⟩
  · -- the path says "here" and nothing else
    refine ⟨⟨path, String.empty_append.symm⟩, ?_, ?_⟩
    · rw [String.length_empty]
      refine Nat.pos_of_ne_zero fun hlength => ?_
      rw [String.length_eq_zero_iff] at hlength
      subst hlength
      simp [segments, splitSlash] at hsegments
    · have hfront : frontAndBody path = (.here, idle) := by
        rw [frontAndBody, hsegments]
        rfl
      have hempty : (frontAndBody "").1 = .plain := rfl
      rw [isAbsolute, isAbsolute, hfront, hempty]
      rfl
  · rcases hbelow.exists_eq_append with ⟨rest, hrest⟩
    refine ⟨⟨rest, hrest⟩, ?_, ?_⟩
    · have hne : rest ≠ "" := by
        rintro rfl
        rw [String.append_empty] at hrest
        rcases hbelow.pathNames_path with ⟨dots, dots', hnames, -⟩
        rw [hrest] at hnames
        simpa using congrArg List.length hnames
      rw [hrest, String.length_append]
      have hpos : rest.length ≠ 0 := fun hzero => hne (String.length_eq_zero_iff.mp hzero)
      omega
    · rw [isAbsolute, isAbsolute, hbelow.front_outer, hbelow.front_eq]

/-- The names of a parent stand at the front of those of the path. -/
theorem pathNames_outer_of_parent? {path outer : String} (h : parent? path = some outer) :
    pathNames outer <+: pathNames path := by
  rcases parent?_eq_some h with ⟨rfl, -⟩ | ⟨front, kept, between, idle, last, hbelow⟩
  · rw [pathNames_empty]
    exact List.nil_prefix
  · rcases hbelow.pathNames_path with ⟨dots, dots', hnames, -⟩
    rw [hnames, List.append_assoc]
    exact List.prefix_append _ _

/-- The bound does not matter as long as it is large enough. -/
theorem ancestorsWithin_eq {n m : Nat} {path : String} (hn : path.length < n)
    (hm : path.length < m) : ancestorsWithin n path = ancestorsWithin m path := by
  induction n generalizing m path with
  | zero => omega
  | succ n ih =>
    rcases m with _ | m
    · omega
    rw [ancestorsWithin, ancestorsWithin]
    cases houter : parent? path with
    | none => rfl
    | some outer =>
      have hlength := (of_parent?_eq_some houter).2.1
      simp only [@ih m outer (by omega) (by omega)]

/-- The paths outwards from a path are the path and those outwards from its parent. -/
theorem ancestors_eq (path : String) : ancestors path =
    match parent? path with
    | none => [path]
    | some outer => path :: ancestors outer := by
  rw [ancestors, ancestorsWithin]
  cases houter : parent? path with
  | none => rfl
  | some outer =>
    have hlength := (of_parent?_eq_some houter).2.1
    exact congrArg (path :: ·) (ancestorsWithin_eq hlength (Nat.lt_succ_self _))

/-- The paths outwards from a path go through some of its names, from the same start. -/
theorem of_mem_ancestors {path other : String} (h : other ∈ ancestors path) :
    pathNames other <+: pathNames path ∧ isAbsolute other = isAbsolute path := by
  induction hlength : path.length using Nat.strong_induction_on generalizing path with
  | h n ih =>
    rw [ancestors_eq] at h
    cases houter : parent? path with
    | none =>
      rw [houter] at h
      obtain rfl := List.mem_singleton.mp h
      exact ⟨List.prefix_refl _, rfl⟩
    | some outer =>
      rw [houter] at h
      rcases of_parent?_eq_some houter with ⟨-, hshorter, habsolute⟩
      rcases List.mem_cons.mp h with rfl | h
      · exact ⟨List.prefix_refl _, rfl⟩
      · rcases ih outer.length (hlength ▸ hshorter) h rfl with ⟨hnames, hstart⟩
        exact ⟨hnames.trans (pathNames_outer_of_parent? houter), hstart.trans habsolute⟩

end SelectionModels.Files
