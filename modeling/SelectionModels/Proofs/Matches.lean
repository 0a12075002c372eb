import Mathlib.Data.List.Lex
import SelectionModels.Proofs.Patterns
import SelectionModels.Proofs.Places

/-! # The paths that fit a pattern

A path fits a pattern when there is a way to it: name by name through directories that are there, a
component for each name, or two stars for some of them. Which ways there are, and in which order
they come, is said here by single steps, without a search. A search finds exactly these ways, in
their order, unless a directory on one of them cannot be listed.

* `Next`, `Walks`: the ways, and the turns that are taken on them;
* `Turn.Before`: which of two turns comes first, and so which of two ways;
* `Blocked`, `Enumerates`: the two answers that a pattern can have;
* `answers_inDirectory`: a search gives the answer that the pattern has.
-/

namespace SelectionModels.Glob

open Files
open Pattern (isAnyDirectories)

/-! ## Ways -/

/-- A turn on the way to a path. -/
inductive Turn where
  /-- Back to the directory around. -/
  | back
  /-- On the spot, by the name that a directory has for itself. -/
  | here
  /-- To something in the directory. -/
  | entry (name : String)
  /-- Two stars stand for no more directories. -/
  | stay
  /-- Two stars stand for one more directory. -/
  | deeper
deriving DecidableEq, Repr

/-- The turn that comes first: names in their order, and nearer places before those below them. -/
inductive Turn.Before : Turn → Turn → Prop
  | back_here : Before .back .here
  | back_entry (name : String) : Before .back (.entry name)
  | here_entry (name : String) : Before .here (.entry name)
  | entry {name name' : String} (first : name < name') : Before (.entry name) (.entry name')
  | stay_deeper : Before .stay .deeper

/-- Where a way has come to, and the components that are left for the rest of it. -/
inductive Spot where
  /-- At a path that fits so far. -/
  | inside (place : Reached) (left : List Pattern)
  /-- At something in a directory, whose name has to fit yet. -/
  | onEntry (place : Reached) (name : String) (left : List Pattern)

/-- The component that stands for one name only. -/
def Pattern.ofName (name : String) : Pattern :=
  name.toList.map .char

/-- The component does not stand for one name only. -/
def Pattern.IsWild (p : Pattern) : Prop :=
  ∀ name, p ≠ .ofName name

/-- A path and what stands there. -/
def standing (s : Store) (path : String) : Reached :=
  ⟨path, s.isDirectory path⟩

/-- One step of a way, with the turns that it takes. -/
inductive Next (s : Store) : Spot → List Turn → Spot → Prop
  /-- A name leads to what stands under it; the names that every directory has lead on from a
  directory. -/
  | named {place : Reached} {p : Pattern} {left : List Pattern} {name : String}
      (literal : p = .ofName name)
      (there : if name = "." ∨ name = ".." then place.isDirectory = true
        else s.exists? (below place.path name) = true) :
      Next s (.inside place (p :: left)) [] (.inside (standing s (below place.path name)) left)
  /-- The names that every directory has fit a component with a dot in front. -/
  | dots {place : Reached} {p : Pattern} {left : List Pattern} {turn : Turn} {name : String}
      (turns : turn = .back ∧ name = ".." ∨ turn = .here ∧ name = ".") (wild : p.IsWild)
      (directory : place.isDirectory = true) (dotted : p.head? = some (.char '.'))
      (fits : p.Fits name.toList) :
      Next s (.inside place (p :: left)) [turn] (.inside (standing s (join place.path name)) left)
  /-- Anything in a directory may fit. -/
  | entry {place : Reached} {p : Pattern} {left : List Pattern} {listed : List Listed}
      {e : Listed} (wild : p.IsWild) (directory : place.isDirectory = true)
      (lists : s.list place.path = .ok listed) (mem : e ∈ listed) :
      Next s (.inside place (p :: left)) [.entry e.name]
        (.onEntry ⟨below place.path e.name, e.isDirectory⟩ e.name (p :: left))
  /-- A name that fits a component leaves the others. -/
  | fits {place : Reached} {name : String} {p : Pattern} {left : List Pattern}
      (one : Token.anyDirectories ∉ p) (fits : p.Fits name.toList) :
      Next s (.onEntry place name (p :: left)) [] (.inside place left)
  /-- Two stars at the end of a pattern stand for directories only. -/
  | last {place : Reached} {name : String} (directory : place.isDirectory = true) :
      Next s (.onEntry place name []) [] (.inside place [])
  | stay {place : Reached} {name : String} {p : Pattern} {left : List Pattern}
      (many : Token.anyDirectories ∈ p) :
      Next s (.onEntry place name (p :: left)) [.stay]
        (.onEntry place name (left.dropWhile isAnyDirectories))
  | deeper {place : Reached} {name : String} {p : Pattern} {left : List Pattern}
      (many : Token.anyDirectories ∈ p) (directory : place.isDirectory = true) :
      Next s (.onEntry place name (p :: left)) [.deeper]
        (.inside place (p :: left.dropWhile isAnyDirectories))

/-- The turns of a way from a spot to a path that fits. If only directories are wanted, one has to
stand there. -/
inductive Walks (s : Store) (onlyDirectories : Bool) : Spot → List Turn → String → Prop
  | done {place : Reached} (wanted : onlyDirectories = true → place.isDirectory = true) :
      Walks s onlyDirectories (.inside place []) [] place.path
  | next {spot next : Spot} {turns turns' : List Turn} {path : String}
      (step : Next s spot turns next) (rest : Walks s onlyDirectories next turns' path) :
      Walks s onlyDirectories spot (turns ++ turns') path

/-- A directory that would have to be listed cannot be listed. -/
def Unlistable (s : Store) : Spot → Prop
  | .inside place (p :: _) =>
    p.IsWild ∧ place.isDirectory = true ∧ ∃ cause, s.list place.path = .error cause
  | _ => False

/-- On some way from the spot a directory cannot be listed. -/
inductive Blocked (s : Store) : Spot → Prop
  | unlistable {spot : Spot} (h : Unlistable s spot) : Blocked s spot
  | next {spot next : Spot} {turns : List Turn} (step : Next s spot turns next)
      (rest : Blocked s next) : Blocked s spot

/-- Paths with the turns that lead to them, the first ones first. -/
abbrev Found := List (List Turn × String)

/-- The one way comes before the other. -/
def Earlier (way way' : List Turn × String) : Prop :=
  List.Lex Turn.Before way.1 way'.1

/-- The paths are those at the ends of all ways from the spot, in the order of the ways. -/
def Enumerates (s : Store) (onlyDirectories : Bool) (spot : Spot) (paths : List String) : Prop :=
  ∃ found : Found, found.map (·.2) = paths ∧ found.Pairwise Earlier ∧
    ∀ turns path, (turns, path) ∈ found ↔ Walks s onlyDirectories spot turns path

theorem Turn.Before.asymm {turn turn' : Turn} (h : turn.Before turn') : ¬ turn'.Before turn := by
  intro h'
  cases h with
  | entry first =>
    cases h' with
    | entry first' => exact String.lt_irrefl _ (String.lt_trans first first')
  | _ => cases h'

instance : Std.Asymm Turn.Before :=
  ⟨fun _ _ => Turn.Before.asymm⟩

theorem Earlier.asymm {way way' : List Turn × String} (h : Earlier way way') :
    ¬ Earlier way' way :=
  Std.Asymm.asymm way.1 way'.1 h

/-- There is one list of the paths that fit, since no two ways take the same turns. -/
theorem Enumerates.unique {s : Store} {o : Bool} {spot : Spot} {paths paths' : List String}
    (h : Enumerates s o spot paths) (h' : Enumerates s o spot paths') : paths = paths' := by
  rcases h with ⟨found, rfl, hsorted, hfound⟩
  rcases h' with ⟨found', rfl, hsorted', hfound'⟩
  have honce : ∀ {ways : Found}, ways.Pairwise Earlier → ways.Nodup := by
    intro ways hways
    refine hways.imp ?_
    rintro way _ h rfl
    exact h.asymm h
  have hperm : found.Perm found' := by
    rw [List.perm_ext_iff_of_nodup (honce hsorted) (honce hsorted')]
    rintro ⟨turns, path⟩
    rw [hfound, hfound']
  have hsame : found = found' :=
    hperm.eq_of_pairwise (fun _ _ _ _ h h' => absurd h' h.asymm) hsorted hsorted'
  rw [hsame]

/-- What a search from the spot has to come to. -/
def Answers (s : Store) (onlyDirectories : Bool) (spot : Spot) :
    Except UnreadableDirectory (List String) → Prop
  | .ok paths => ¬ Blocked s spot ∧ Enumerates s onlyDirectories spot paths
  | .error _ => Blocked s spot

/-! ## Ways that part -/

variable {s : Store} {o : Bool}

/-- Where ways can go on: the turns of a step and the spot that it comes to. -/
abbrev Branches := List (List Turn × Spot)

/-- The paths are those behind all the branches, in the order of the ways. -/
def EnumeratesAll (s : Store) (o : Bool) (branches : Branches) (paths : List String) : Prop :=
  ∃ found : Found, found.map (·.2) = paths ∧ found.Pairwise Earlier ∧
    ∀ turns path, (turns, path) ∈ found ↔
      ∃ branch ∈ branches, ∃ turns', turns = branch.1 ++ turns' ∧ Walks s o branch.2 turns' path

/-- What searches of all the branches have to come to. -/
def AnswersAll (s : Store) (o : Bool) (branches : Branches) :
    Except UnreadableDirectory (List String) → Prop
  | .ok paths => (∀ branch ∈ branches, ¬ Blocked s branch.2) ∧ EnumeratesAll s o branches paths
  | .error _ => ∃ branch ∈ branches, Blocked s branch.2

/-- All ways of one branch come before those of the other. -/
def Apart (branch branch' : List Turn × Spot) : Prop :=
  ∀ turns turns', List.Lex Turn.Before (branch.1 ++ turns) (branch'.1 ++ turns')

theorem apart_of_before {turn turn' : Turn} (h : turn.Before turn') (spot spot' : Spot) :
    Apart ([turn], spot) ([turn'], spot') :=
  fun _ _ => .rel h

theorem answersAll_nil : AnswersAll s o [] (.ok []) := by
  refine ⟨by simp, [], rfl, .nil, ?_⟩
  simp

theorem AnswersAll.of_answers (turns : List Turn) {spot : Spot}
    {result : Except UnreadableDirectory (List String)} (h : Answers s o spot result) :
    AnswersAll s o [(turns, spot)] result := by
  cases result with
  | error e => exact ⟨_, List.mem_singleton_self _, h⟩
  | ok paths =>
    rcases h with ⟨hfree, found, hpaths, hsorted, hfound⟩
    refine ⟨by simpa using hfree, found.map fun way => (turns ++ way.1, way.2), ?_, ?_, ?_⟩
    · rw [List.map_map, ← hpaths]
      rfl
    · rw [List.pairwise_map]
      exact hsorted.imp fun h => List.Lex.append_left Turn.Before h turns
    · intro turns' path
      simp only [List.mem_map, Prod.exists, Prod.mk.injEq, hfound, List.mem_singleton,
        exists_eq_left]
      constructor
      · rintro ⟨rest, _, hwalks, rfl, rfl⟩
        exact ⟨rest, rfl, hwalks⟩
      · rintro ⟨rest, rfl, hwalks⟩
        exact ⟨rest, path, hwalks, rfl, rfl⟩

/-- The answers of some branches, and then those of branches whose ways come later. -/
theorem AnswersAll.append {branches branches' : Branches}
    {result result' : Except UnreadableDirectory (List String)}
    (h : AnswersAll s o branches result) (h' : AnswersAll s o branches' result')
    (hapart : ∀ branch ∈ branches, ∀ branch' ∈ branches', Apart branch branch') :
    AnswersAll s o (branches ++ branches')
      (result >>= fun paths => result' >>= fun paths' => .ok (paths ++ paths')) := by
  cases result with
  | error e =>
    rcases h with ⟨branch, hbranch, hblocked⟩
    exact ⟨branch, List.mem_append_left branches' hbranch, hblocked⟩
  | ok paths =>
    cases result' with
    | error e =>
      rcases h' with ⟨branch, hbranch, hblocked⟩
      exact ⟨branch, List.mem_append_right branches hbranch, hblocked⟩
    | ok paths' =>
      rcases h with ⟨hfree, found, rfl, hsorted, hfound⟩
      rcases h' with ⟨hfree', found', rfl, hsorted', hfound'⟩
      refine ⟨?_, found ++ found', List.map_append, ?_, ?_⟩
      · intro branch hbranch
        rcases List.mem_append.mp hbranch with hbranch | hbranch
        · exact hfree branch hbranch
        · exact hfree' branch hbranch
      · -- ways of different branches part where these do
        refine List.pairwise_append.mpr ⟨hsorted, hsorted', ?_⟩
        rintro ⟨turns, path⟩ hway ⟨turns', path'⟩ hway'
        rcases (hfound turns path).mp hway with ⟨branch, hbranch, rest, rfl, -⟩
        rcases (hfound' turns' path').mp hway' with ⟨branch', hbranch', rest', rfl, -⟩
        exact hapart branch hbranch branch' hbranch' rest rest'
      · intro turns path
        simp only [List.mem_append, hfound, hfound', or_and_right, exists_or]

/-- Searches one after the other, each of a branch whose ways come later than those before. -/
theorem answersAll_searchAll {α : Type} {search : α → Search Id} {branch : α → List Turn × Spot}
    {as : List α} (h : ∀ a ∈ as, Answers s o (branch a).2 (outcome (search a)))
    (hapart : as.Pairwise fun a a' => Apart (branch a) (branch a')) :
    AnswersAll s o (as.map branch) (outcome (searchAll search as)) := by
  induction as with
  | nil => exact answersAll_nil
  | cons a as ih =>
    rcases List.pairwise_cons.mp hapart with ⟨hfirst, hrest⟩
    have hhere : AnswersAll s o [branch a] (outcome (search a)) :=
      .of_answers _ (h a List.mem_cons_self)
    have hlater := ih (fun a' ha' => h a' (List.mem_cons_of_mem a ha')) hrest
    rw [searchAll, outcome_bind]
    simp only [outcome_bind]
    refine hhere.append hlater ?_
    intro first hfirst' later hlater'
    rw [List.mem_singleton.mp hfirst']
    rcases List.mem_map.mp hlater' with ⟨a', ha', rfl⟩
    exact hfirst a' ha'

/-- The ways from a spot are those of its branches. -/
theorem AnswersAll.answers {spot : Spot} {branches : Branches}
    {result : Except UnreadableDirectory (List String)} (h : AnswersAll s o branches result)
    (hgoes : ∀ place, spot ≠ .inside place []) (hlists : ¬ Unlistable s spot)
    (hnext : ∀ turns next, Next s spot turns next ↔ (turns, next) ∈ branches) :
    Answers s o spot result := by
  cases result with
  | error e =>
    rcases h with ⟨⟨turns, next⟩, hbranch, hblocked⟩
    exact .next ((hnext turns next).mpr hbranch) hblocked
  | ok paths =>
    rcases h with ⟨hfree, found, hpaths, hsorted, hfound⟩
    refine ⟨?_, found, hpaths, hsorted, ?_⟩
    · intro hblocked
      cases hblocked with
      | unlistable hun => exact hlists hun
      | next step rest => exact hfree _ ((hnext _ _).mp step) rest
    · intro turns path
      rw [hfound]
      constructor
      · rintro ⟨⟨turns, next⟩, hbranch, turns', rfl, hwalks⟩
        exact .next ((hnext turns next).mpr hbranch) hwalks
      · intro hwalks
        cases hwalks with
        | done wanted => exact absurd rfl (hgoes _)
        | next step rest => exact ⟨_, (hnext _ _).mp step, _, rfl, rest⟩

/-- Where nothing is left to be tried nothing has to be listed. -/
theorem not_blocked_of_nil {place : Reached} : ¬ Blocked s (.inside place []) := by
  intro hblocked
  cases hblocked with
  | unlistable h => exact h
  | next step => cases step

/-- A way that has come to its end. -/
theorem answers_found (place : Reached) :
    Answers s o (.inside place []) (.ok (found o place)) := by
  refine ⟨not_blocked_of_nil, ?_⟩
  · by_cases hwanted : o = true → place.isDirectory = true
    · refine ⟨[([], place.path)], ?_, List.pairwise_singleton _ _, ?_⟩
      · rw [found, if_neg]
        · rfl
        · cases o <;> simp_all
      · intro turns path
        rw [List.mem_singleton, Prod.mk.injEq]
        constructor
        · rintro ⟨rfl, rfl⟩
          exact .done hwanted
        · intro hwalks
          cases hwalks with
          | done => exact ⟨rfl, rfl⟩
          | next step => cases step
    · refine ⟨[], ?_, .nil, ?_⟩
      · rw [found, if_pos]
        · rfl
        · cases o <;> simp_all
      · intro turns path
        refine iff_of_false List.not_mem_nil ?_
        intro hwalks
        cases hwalks with
        | done wanted => exact hwanted wanted
        | next step => cases step

/-- A spot from which there is one step at most. -/
theorem Answers.of_only {spot next : Spot} {c : Prop} [Decidable c]
    {result : Except UnreadableDirectory (List String)} (h : Answers s o next result)
    (turns : List Turn)
    (hgoes : ∀ place, spot ≠ .inside place []) (hlists : ¬ Unlistable s spot)
    (honly : ∀ turns' next', Next s spot turns' next' ↔ c ∧ turns' = turns ∧ next' = next) :
    Answers s o spot (if c then result else .ok []) := by
  by_cases hc : c
  · rw [if_pos hc]
    refine (AnswersAll.of_answers turns h).answers hgoes hlists ?_
    intro turns' next'
    rw [honly, List.mem_singleton, Prod.mk.injEq]
    exact and_iff_right hc
  · rw [if_neg hc]
    refine answersAll_nil.answers hgoes hlists ?_
    intro turns' next'
    rw [honly]
    exact iff_of_false (fun h => hc h.1) List.not_mem_nil

/-! ## Paths in their order -/

theorem Pattern.mapM_eq_some_iff {p : Pattern} {char? : Token → Option Char}
    (hchar : ∀ c, char? (.char c) = some c) (hother : ∀ t, (∀ c, t ≠ .char c) → char? t = none)
    (cs : List Char) : p.mapM char? = some cs ↔ p = cs.map .char := by
  induction p generalizing cs with
  | nil => cases cs <;> simp
  | cons t p ih =>
    rw [List.mapM_cons]
    cases t with
    | char c =>
      cases cs with
      | nil => simp [Option.bind_eq_some_iff, hchar]
      | cons d cs => simp [Option.bind_eq_some_iff, hchar, ih, and_comm]
    | _ => cases cs <;> simp [hother]

/-- A component stands for one name just if it has no wildcard in it. -/
theorem Pattern.literal?_eq_some_iff {p : Pattern} {name : String} :
    p.literal? = some name ↔ p = .ofName name := by
  obtain ⟨char?, hliteral, hchar, hother⟩ : ∃ char? : Token → Option Char,
      p.literal? = String.ofList <$> p.mapM char? ∧ (∀ c, char? (.char c) = some c) ∧
        ∀ t, (∀ c, t ≠ .char c) → char? t = none := by
    refine ⟨_, rfl, fun _ => rfl, fun t ht => ?_⟩
    cases t with
    | char c => exact absurd rfl (ht c)
    | _ => rfl
  have hchars := mapM_eq_some_iff (p := p) hchar hother
  rw [hliteral, Option.map_eq_map, Option.map_eq_some_iff]
  constructor
  · rintro ⟨cs, hcs, rfl⟩
    rw [(hchars cs).mp hcs, Pattern.ofName, String.toList_ofList]
  · intro hp
    exact ⟨name.toList, (hchars _).mpr hp, String.ofList_toList⟩

theorem Pattern.literal?_eq_none_iff {p : Pattern} : p.literal? = none ↔ p.IsWild := by
  rw [Option.eq_none_iff_forall_ne_some]
  exact forall_congr' fun name => not_congr literal?_eq_some_iff

theorem Pattern.ofName_inj {name name' : String} (h : Pattern.ofName name = .ofName name') :
    name = name' := by
  have hsome := Pattern.literal?_eq_some_iff.mpr h
  rw [Pattern.literal?_eq_some_iff.mpr rfl] at hsome
  exact Option.some.inj hsome

/-- The segments of a path that stand in front of those of a name below it. -/
def stem (path : String) : List String :=
  (segments (below path "")).dropLast

theorem below_eq_append (path name : String) : below path name = below path "" ++ name := by
  unfold below
  split
  · exact String.empty_append.symm
  · unfold join
    split
    · rw [String.append_empty]
    · rw [String.append_empty]

theorem segments_below (path name : String) :
    segments (below path name) = stem path ++ segments name := by
  have hfront : below path "" = "" ∨ ∃ start, below path "" = start ++ "/" := by
    unfold below
    split
    · exact Or.inl rfl
    · unfold join
      split
      · rename_i hjoin
        rw [String.append_empty]
        rcases (Bool.or_eq_true _ _).mp hjoin with hpath | hslash
        · exact Or.inl (of_decide_eq_true hpath)
        · exact Or.inr (endsWithSlash_iff.mp hslash)
      · exact Or.inr ⟨path, String.append_empty⟩
  rw [below_eq_append, stem]
  rcases hfront with hfront | ⟨start, hfront⟩
  · rw [hfront, segments_empty, String.empty_append]
    rfl
  · have hstart := segments_append_slash start ""
    rw [String.append_empty, segments_empty] at hstart
    rw [hfront, segments_append_slash, hstart, List.dropLast_concat]

/-- What stands in front of a name stands at the front of the path. -/
theorem stem_prefix_segments (path : String) : stem path <+: segments path := by
  unfold stem below
  split
  · rw [segments_empty]
    exact List.nil_prefix
  · unfold join
    split
    · rw [String.append_empty]
      exact List.dropLast_prefix _
    · have hwhole : (segments (path ++ "/" ++ "")).dropLast = segments path := by
        rw [segments_append_slash, segments_empty, List.dropLast_concat]
      exact hwhole ▸ List.prefix_rfl

/-- Below a name there stands at least what stands in front of it. -/
theorem stem_prefix_below (path name : String) : stem path <+: stem (below path name) := by
  have hnames : segments name ≠ [] := segments_ne_nil name
  by_cases hhere : isHere (below path name) = true
  · -- nothing stands in front of a name if the path in front of it only says "here"
    have hnil : stem path = [] := by
      unfold stem below at *
      split
      · rw [segments_empty]
        rfl
      · rename_i hnot
        rw [if_neg hnot] at hhere
        by_cases hpath : path = ""
        · rw [hpath]
          rfl
        · exact absurd (isHere_of_join hpath hhere).1 hnot
    rw [hnil]
    exact List.nil_prefix
  · rw [stem.eq_def (below path name)]
    rw [below.eq_def (below path name), if_neg hhere, join]
    split
    · rw [String.append_empty, segments_below, List.dropLast_append_of_ne_nil hnames]
      exact List.prefix_append _ _
    · rw [segments_append_slash, segments_empty, List.dropLast_concat, segments_below]
      exact List.prefix_append _ _

/-- The name of something in a directory stands in front of everything below it. -/
theorem stem_below {path name : String} (hname : IsName name) :
    stem (below path name) = stem path ++ [name] := by
  have hsegments : segments (below path name) = stem path ++ [name] := by
    rw [segments_below, segments_of_not_mem hname.noSlash]
  have hhere : ¬ isHere (below path name) = true := by
    intro hhere
    rcases isHere_iff.mp hhere with ⟨rest, hrest, hidle⟩
    rw [hsegments] at hrest
    rcases hstem : stem path with _ | ⟨first, others⟩
    · rw [hstem] at hrest
      exact hname.noDot (List.cons.inj hrest).1
    · rw [hstem] at hrest
      have hmem : name ∈ rest := by simp [← (List.cons.inj hrest).2]
      exact absurd (hidle name hmem) (by simp [hname.not_isIdle])
  have hopen : ¬ (decide (below path name = "") || endsWithSlash (below path name)) = true := by
    rw [Bool.or_eq_true, decide_eq_true_iff, endsWithSlash_iff]
    rintro (hnone | ⟨start, hslash⟩)
    · rw [hnone, segments_empty] at hsegments
      have hlast := congrArg List.getLast? hsegments
      rw [List.getLast?_concat] at hlast
      exact hname.nonempty (Option.some.inj hlast).symm
    · have hstart := segments_append_slash start ""
      rw [String.append_empty, segments_empty, ← hslash, hsegments] at hstart
      exact hname.nonempty (List.cons.inj (List.append_inj' hstart rfl).2).1
  rw [stem, below.eq_def (below path name), if_neg hhere, join, if_neg hopen,
    segments_append_slash, segments_empty, List.dropLast_concat, hsegments]

/-- The component tells by itself which names fit it: it is neither two stars nor, with a dot in
front, one that the names of every directory may fit. -/
def Pattern.IsPlain (p : Pattern) : Prop :=
  Token.anyDirectories ∉ p ∧ (p.head? = some (.char '.') → ¬ p.IsWild)

/-- A way that goes on with a plain component goes to one name, or to something in a directory. -/
theorem of_walks_cons {place : Reached} {p : Pattern} {left : List Pattern} {turns : List Turn}
    {path : String} (hplain : p.IsPlain) (h : Walks s o (.inside place (p :: left)) turns path) :
    (∃ name, p = .ofName name ∧
      Walks s o (.inside (standing s (below place.path name)) left) turns path) ∨
    p.IsWild ∧ ∃ listed, s.list place.path = .ok listed ∧ ∃ e ∈ listed, ∃ turns',
      p.Fits e.name.toList ∧ turns = .entry e.name :: turns' ∧
        Walks s o (.inside ⟨below place.path e.name, e.isDirectory⟩ left) turns' path := by
  cases h with
  | next step rest =>
    cases step with
    | named literal => exact Or.inl ⟨_, literal, rest⟩
    | dots _ wild _ dotted => exact absurd wild (hplain.2 dotted)
    | entry wild _ lists mem =>
      refine Or.inr ⟨wild, _, lists, _, mem, ?_⟩
      cases rest with
      | next step rest =>
        cases step with
        | fits _ fits => exact ⟨_, fits, rfl, rest⟩
        | stay many => exact absurd many hplain.1
        | deeper many => exact absurd many hplain.1

/-- A way of plain components goes down from where it is. -/
theorem stem_prefix_of_walks {place : Reached} {left : List Pattern} {turns : List Turn}
    {path : String} (hplain : ∀ p ∈ left, p.IsPlain)
    (h : Walks s o (.inside place left) turns path) : stem place.path <+: segments path := by
  induction left generalizing place turns with
  | nil =>
    cases h with
    | done => exact stem_prefix_segments place.path
    | next step => cases step
  | cons p left ih =>
    rcases List.forall_mem_cons.mp hplain with ⟨hfirst, hrest⟩
    rcases of_walks_cons hfirst h with ⟨name, -, h⟩ | ⟨-, listed, -, e, -, turns', -, -, h⟩
    · have hbelow := ih hrest h
      exact (stem_prefix_below place.path name).trans hbelow
    · have hbelow := ih hrest h
      exact (stem_prefix_below place.path e.name).trans hbelow

/-- Of two ways of plain components the earlier one leads to the path whose segments come first. -/
theorem segments_lt_of_walks (hs : s.Proper) {place : Reached} {left : List Pattern}
    {turns turns' : List Turn} {path path' : String} (hplain : ∀ p ∈ left, p.IsPlain)
    (h : Walks s o (.inside place left) turns path)
    (h' : Walks s o (.inside place left) turns' path') (hless : List.Lex Turn.Before turns turns') :
    List.Lex (· < ·) (segments path) (segments path') := by
  induction left generalizing place turns turns' with
  | nil =>
    cases h with
    | next step => cases step
    | done =>
      cases h' with
      | next step => cases step
      | done => cases hless
  | cons p left ih =>
    rcases List.forall_mem_cons.mp hplain with ⟨hfirst, hrest⟩
    rcases of_walks_cons hfirst h with
      ⟨name, hname, hgo⟩ | ⟨hwild, listed, hlists, e, he, more, -, rfl, hgo⟩
    · rcases of_walks_cons hfirst h' with ⟨name', hname', hgo'⟩ | ⟨hwild, -⟩
      · obtain rfl := Pattern.ofName_inj (hname.symm.trans hname')
        exact ih hrest hgo hgo' hless
      · exact absurd hname (hwild name)
    · rcases of_walks_cons hfirst h' with
        ⟨name', hname', -⟩ | ⟨-, listed', hlists', e', he', more', -, rfl, hgo'⟩
      · exact absurd hname' (hwild name')
      · obtain rfl := Except.ok.inj (hlists.symm.trans hlists')
        rcases hs.of_list_eq_ok hlists with ⟨-, hnames, honce⟩
        rcases List.cons_lex_cons_iff.mp hless with hbefore | ⟨hsame, hmore⟩
        · -- the names stand at one place behind the same segments
          have hlt : e.name < e'.name := by
            cases hbefore with
            | entry hlt => exact hlt
          have hstem := stem_prefix_of_walks hrest hgo
          have hstem' := stem_prefix_of_walks hrest hgo'
          dsimp only at hstem hstem'
          rw [stem_below (hnames e he)] at hstem
          rw [stem_below (hnames e' he')] at hstem'
          rcases hstem with ⟨rest, hsegments⟩
          rcases hstem' with ⟨rest', hsegments'⟩
          rw [← hsegments, ← hsegments', List.append_assoc, List.append_assoc]
          exact List.Lex.append_left _ (.rel hlt) (stem place.path)
        · obtain rfl : e = e' :=
            List.inj_on_of_nodup_map honce he he' (Turn.entry.inj hsame)
          exact ih hrest hgo hgo' hmore

/-- Paths that fit plain components come in the order of their segments. -/
theorem Enumerates.pairwise_segments (hs : s.Proper) {place : Reached} {left : List Pattern}
    {paths : List String} (hplain : ∀ p ∈ left, p.IsPlain)
    (h : Enumerates s o (.inside place left) paths) :
    paths.Pairwise fun path path' => List.Lex (· < ·) (segments path) (segments path') := by
  rcases h with ⟨found, rfl, hsorted, hfound⟩
  rw [List.pairwise_map]
  refine hsorted.imp_of_mem ?_
  rintro ⟨turns, path⟩ ⟨turns', path'⟩ hway hway' hless
  exact segments_lt_of_walks hs hplain ((hfound _ _).mp hway) ((hfound _ _).mp hway') hless

/-- A plain component at the end of a pattern stands for the names in the directory that fit it, in
their order. -/
theorem answers_names {place : Reached} {p : Pattern} {listed names : List Listed}
    (hplain : p.IsPlain) (hwild : p.IsWild) (hdirectory : place.isDirectory = true)
    (hlists : s.list place.path = .ok listed)
    (hfit : names.Perm (listed.filter fun e => p.admits e.name))
    (hsorted : names.Pairwise fun e e' => e.name < e'.name) :
    Answers s false (.inside place [p]) (.ok (names.map fun e => below place.path e.name)) := by
  refine ⟨?_, names.map fun e => ([.entry e.name], below place.path e.name), ?_, ?_, ?_⟩
  · -- this directory is listed, and no other has to be
    intro hblocked
    cases hblocked with
    | unlistable h =>
      rcases h with ⟨-, -, cause, hcause⟩
      rw [hlists] at hcause
      cases hcause
    | next step rest =>
      cases step with
      | named literal => exact hwild _ literal
      | dots _ _ _ dotted => exact hplain.2 dotted hwild
      | entry =>
        cases rest with
        | unlistable h => exact h
        | next step rest =>
          cases step with
          | fits => exact not_blocked_of_nil rest
          | stay many => exact hplain.1 many
          | deeper many => exact hplain.1 many
  · rw [List.map_map]
    rfl
  · rw [List.pairwise_map]
    exact hsorted.imp fun h => .rel (.entry h)
  · intro turns path
    simp only [List.mem_map, hfit.mem_iff, List.mem_filter, Pattern.admits_iff,
      Prod.mk.injEq]
    constructor
    · rintro ⟨e, ⟨he, hfits⟩, rfl, rfl⟩
      refine .next (.entry hwild hdirectory hlists he) (.next (.fits hplain.1 hfits) (.done ?_))
      exact fun h => Bool.noConfusion h
    · intro hwalks
      rcases of_walks_cons hplain hwalks with
        ⟨name, hname, -⟩ | ⟨-, listed', hlists', e, he, turns', hfits, rfl, hdone⟩
      · exact absurd hname (hwild name)
      · obtain rfl := Except.ok.inj (hlists.symm.trans hlists')
        cases hdone with
        | done => exact ⟨e, ⟨he, hfits⟩, rfl, rfl⟩
        | next step => cases step

end SelectionModels.Glob
