import SelectionModels.Proofs.Matches

/-! # Searching for a pattern

A search tries the components of a pattern directory by directory. It finds exactly the paths that
fit, in the order of the ways to them, or a directory that cannot be listed. It never runs out of
steps before it is done: every name that it goes through makes its path longer, and no directory
with too long a path is listed.

* `answers_named`, `answers_listed`, `answers_fits`, `answers_many`: one step of a search;
* `answers_search`: whole searches, with enough steps;
* `answers_expandComponents`: the search for a pattern.
-/

namespace SelectionModels.Glob

open Files
open Pattern (isAnyDirectories)

variable {s : Store} {o : Bool}

/-! ## Components -/

theorem Pattern.isAnyDirectories_iff {p : Pattern} :
    p.isAnyDirectories = true ↔ Token.anyDirectories ∈ p := by
  simp [isAnyDirectories]

/-! ## Directories that are listed -/

theorem mem_dotNames_iff {p : Pattern} {name : String} : name ∈ dotNames p ↔
    p.head? = some (.char '.') ∧ p.Fits name.toList ∧ (name = ".." ∨ name = ".") := by
  unfold dotNames
  split
  · rename_i hdotted
    simp only [List.mem_filter, List.mem_cons, List.not_mem_nil, or_false, Pattern.admits_iff,
      hdotted, true_and]
    exact and_comm
  · rename_i hdotted
    simp [hdotted]

/-- Names that each stand once are in their order once they are sorted. -/
theorem pairwise_lt_mergeSort {listed : List Listed} (honce : (listed.map (·.name)).Nodup) :
    (listed.mergeSort fun a b => a.name ≤ b.name).Pairwise fun a b => a.name < b.name := by
  have hsorted : (listed.mergeSort fun a b => a.name ≤ b.name).Pairwise
      fun a b => decide (a.name ≤ b.name) = true := by
    refine List.pairwise_mergeSort ?_ ?_ listed
    · intro a b c hab hbc
      exact decide_eq_true (String.le_trans (of_decide_eq_true hab) (of_decide_eq_true hbc))
    · intro a b
      simpa using String.le_total a.name b.name
  have hperm := List.mergeSort_perm listed fun a b => decide (a.name ≤ b.name)
  have honce' := (hperm.map (·.name)).nodup_iff.mpr honce
  refine (hsorted.and (List.pairwise_map.mp honce')).imp ?_
  intro a b hab
  by_contra hlt
  exact hab.2 (String.le_antisymm (of_decide_eq_true hab.1) (String.not_lt.mp hlt))

/-- The branch of a name that every directory has. -/
def dotBranch (s : Store) (place : Reached) (left : List Pattern) (name : String) :
    List Turn × Spot :=
  ([if name = ".." then .back else .here], .inside (standing s (join place.path name)) left)

/-- The branch of something in a directory. -/
def entryBranch (place : Reached) (patterns : List Pattern) (e : Listed) : List Turn × Spot :=
  ([.entry e.name], .onEntry ⟨below place.path e.name, e.isDirectory⟩ e.name patterns)

/-- The steps from a directory that is listed. -/
theorem next_listed_iff {place : Reached} {p : Pattern} {left : List Pattern}
    {listed : List Listed} (hwild : p.IsWild) (hdirectory : place.isDirectory = true)
    (hlists : s.list place.path = .ok listed) {turns : List Turn} {next : Spot} :
    Next s (.inside place (p :: left)) turns next ↔
      (∃ name ∈ dotNames p, dotBranch s place left name = (turns, next)) ∨
        ∃ e ∈ listed, entryBranch place (p :: left) e = (turns, next) := by
  constructor
  · intro hstep
    cases hstep with
    | named literal => exact absurd literal (hwild _)
    | dots hturns wild directory dotted fits =>
      rcases hturns with ⟨rfl, rfl⟩ | ⟨rfl, rfl⟩
      · exact Or.inl ⟨"..", mem_dotNames_iff.mpr ⟨dotted, fits, Or.inl rfl⟩, rfl⟩
      · exact Or.inl ⟨".", mem_dotNames_iff.mpr ⟨dotted, fits, Or.inr rfl⟩, rfl⟩
    | entry wild directory lists mem =>
      obtain rfl := Except.ok.inj (hlists.symm.trans lists)
      exact Or.inr ⟨_, mem, rfl⟩
  · rintro (⟨name, hname, hbranch⟩ | ⟨e, he, hbranch⟩)
    · rcases mem_dotNames_iff.mp hname with ⟨hdotted, hfits, rfl | rfl⟩ <;> cases hbranch
      · exact .dots (Or.inl ⟨rfl, rfl⟩) hwild hdirectory hdotted hfits
      · exact .dots (Or.inr ⟨rfl, rfl⟩) hwild hdirectory hdotted hfits
    · cases hbranch
      exact .entry hwild hdirectory hlists he

/-- The ways through a directory that is listed are those of the names that every directory has, and
then those of the names that stand in it, in their order. -/
theorem answers_listed (hs : s.Proper) {place : Reached} {p : Pattern} {left : List Pattern}
    {listed : List Listed} (hwild : p.IsWild) (hdirectory : place.isDirectory = true)
    (hlists : s.list place.path = .ok listed) {onward : String → Search Id}
    {entry : Listed → Search Id}
    (honward : ∀ name, Answers s o (.inside (standing s (join place.path name)) left)
      (outcome (onward name)))
    (hentry : ∀ e ∈ listed, Answers s o
      (.onEntry ⟨below place.path e.name, e.isDirectory⟩ e.name (p :: left)) (outcome (entry e))) :
    Answers s o (.inside place (p :: left)) (outcome do
      let dots ← searchAll onward (dotNames p)
      let others ← searchAll entry (listed.mergeSort fun a b => a.name ≤ b.name)
      return dots ++ others) := by
  rcases hs.of_list_eq_ok hlists with ⟨-, -, honce⟩
  have hmem : ∀ e, e ∈ listed.mergeSort (fun a b => a.name ≤ b.name) ↔ e ∈ listed :=
    fun e => (List.mergeSort_perm listed _).mem_iff
  have hdots : AnswersAll s o ((dotNames p).map (dotBranch s place left))
      (outcome (searchAll onward (dotNames p))) := by
    refine answersAll_searchAll (fun name _ => honward name) ?_
    have hboth : ["..", "."].Pairwise fun name name' =>
        Apart (dotBranch s place left name) (dotBranch s place left name') := by
      rw [List.pairwise_pair]
      exact apart_of_before .back_here _ _
    unfold dotNames
    split
    · exact hboth.filter p.admits
    · exact .nil
  have hentries : AnswersAll s o
      ((listed.mergeSort fun a b => a.name ≤ b.name).map (entryBranch place (p :: left)))
      (outcome (searchAll entry (listed.mergeSort fun a b => a.name ≤ b.name))) := by
    refine answersAll_searchAll (fun e he => hentry e ((hmem e).mp he)) ?_
    exact (pairwise_lt_mergeSort honce).imp fun h => apart_of_before (.entry h) _ _
  rw [outcome_bind]
  simp only [outcome_bind]
  refine (hdots.append hentries ?_).answers (by simp) ?_ ?_
  · -- the names that every directory has come first
    intro branch hbranch branch' hbranch'
    rcases List.mem_map.mp hbranch with ⟨name, -, rfl⟩
    rcases List.mem_map.mp hbranch' with ⟨e, -, rfl⟩
    unfold dotBranch
    split
    · exact apart_of_before (.back_entry e.name) _ _
    · exact apart_of_before (.here_entry e.name) _ _
  · rintro ⟨-, -, cause, hcause⟩
    rw [hlists] at hcause
    cases hcause
  · intro turns next
    simp only [next_listed_iff hwild hdirectory hlists, List.mem_append, List.mem_map, hmem]

/-! ## A search step by step -/

variable {left : List Pattern} {p : Pattern} {place : Reached} {name : String} {n : Nat}

theorem liftM_eq_lift {m : Type → Type} [Monad m] {ε α : Type} (x : m α) :
    (liftM x : ExceptT ε m α) = ExceptT.lift x := rfl

/-- A look at a store always gives an answer. -/
theorem outcome_exists?_bind (path : String) (f : Bool → Search Id) :
    outcome (ExceptT.lift (s.view.exists? path) >>= f) = outcome (f (s.exists? path)) := rfl

theorem outcome_ask_bind (path : String) (f : Reached → Search Id) :
    outcome (ask s.view path >>= f) = outcome (f (standing s path)) := rfl

theorem outcome_inDirectory_named (hname : p = .ofName name) :
    outcome (inDirectory s.view o (n + 1) (p :: left) place) =
      if if name = "." ∨ name = ".." then place.isDirectory = true
        else s.exists? (below place.path name) = true
      then outcome (onwards s.view o n left (standing s (below place.path name)))
      else .ok [] := by
  rw [inDirectory, Pattern.literal?_eq_some_iff.mpr hname]
  by_cases hdots : name = "." ∨ name = ".."
  · simp only [hdots, if_true, Bool.or_eq_true, decide_eq_true_eq, pure_bind]
    split
    · rw [outcome_ask_bind]
    · rw [outcome_pure]
  · simp only [hdots, if_false, Bool.or_eq_true, decide_eq_true_eq]
    rw [liftM_eq_lift, outcome_exists?_bind]
    split
    · rw [outcome_ask_bind]
    · rw [outcome_pure]

theorem outcome_inDirectory_wild (hwild : p.IsWild) :
    outcome (inDirectory s.view o (n + 1) (p :: left) place) =
      if place.isDirectory = true then
        match s.list place.path with
        | .error cause => .error ⟨place.path, cause⟩
        | .ok listed => outcome do
          let dots ← searchAll
            (fun name => onwards s.view o n left (standing s (join place.path name))) (dotNames p)
          let others ← searchAll
            (fun e => atEntry s.view o n p left ⟨below place.path e.name, e.isDirectory⟩)
            (listed.mergeSort fun a b => a.name ≤ b.name)
          return dots ++ others
      else .ok [] := by
  rw [inDirectory, Pattern.literal?_eq_none_iff.mpr hwild]
  dsimp only
  cases hdirectory : place.isDirectory with
  | false => rfl
  | true =>
    rw [if_pos rfl, if_pos rfl]
    change outcome (match s.list place.path with | .error _ => _ | .ok _ => _) = _
    cases s.list place.path <;> rfl

theorem outcome_onwards_cons :
    outcome (onwards s.view o (n + 1) (p :: left) place) =
      outcome (inDirectory s.view o n (p :: left) place) := by
  rw [onwards]

theorem outcome_atEntry_one (hone : Token.anyDirectories ∉ p)
    (hname : fileName? place.path = some name) :
    outcome (atEntry s.view o (n + 1) p left place) =
      if p.admits name = true then outcome (onwards s.view o n left place) else .ok [] := by
  have hany : ¬ p.isAnyDirectories = true := fun h => hone (Pattern.isAnyDirectories_iff.mp h)
  rw [atEntry, if_neg hany, hname]
  dsimp only
  split <;> rfl

/-- What two stars find at an entry, if they stand for no more directories. -/
def ownSearch (s : Store) (o : Bool) (n : Nat) (place : Reached) : List Pattern → Search Id
  | [] => return found true place
  | q :: left => atEntry s.view o n q left place

theorem outcome_atEntry_many (hmany : Token.anyDirectories ∈ p) :
    outcome (atEntry s.view o (n + 1) p left place) = (do
      let own ← outcome (ownSearch s o n place (left.dropWhile isAnyDirectories))
      let deeper ← (if place.isDirectory = true
        then outcome (inDirectory s.view o n (p :: left.dropWhile isAnyDirectories) place)
        else .ok [])
      .ok (own ++ deeper)) := by
  rw [atEntry, if_pos (Pattern.isAnyDirectories_iff.mpr hmany)]
  cases hdirectory : place.isDirectory <;> cases left.dropWhile isAnyDirectories <;>
    simp only [ownSearch, outcome_bind, if_true] <;> rfl

/-! ## What a search comes to -/

/-- How much further the path of a directory can get before it is too long to be asked for. -/
def room (path : String) : Nat :=
  maxPath + 1 - extent path

/-- The steps that a search can take at most: two for every directory and three for every
component. -/
def weight (place : Reached) (left : List Pattern) : Nat :=
  2 * room place.path + 3 * left.length

theorem room_le_of_extent_le {path path' : String} (h : extent path ≤ extent path') :
    room path' ≤ room path := by
  unfold room
  omega

/-- Below a directory that can be listed there is less room. -/
theorem room_below_lt {path name : String} (hsize : path.utf8ByteSize ≤ maxPath)
    (hname : IsName name) : room (below path name) < room path := by
  have hless : extent path < extent (below path name) := extent_lt_below hname
  have hsmall := extent_le_size path
  unfold room
  omega

/-- A name has one step on, to what stands under it. -/
theorem answers_named (hname : p = .ofName name)
    {result : Except UnreadableDirectory (List String)}
    (h : Answers s o (.inside (standing s (below place.path name)) left) result) :
    Answers s o (.inside place (p :: left))
      (if if name = "." ∨ name = ".." then place.isDirectory = true
          else s.exists? (below place.path name) = true
        then result else .ok []) := by
  refine h.of_only [] (by simp) ?_ ?_
  · rintro ⟨hwild, -⟩
    exact hwild name hname
  · intro turns' next'
    constructor
    · intro hstep
      cases hstep with
      | named literal there =>
        obtain rfl := Pattern.ofName_inj (hname.symm.trans literal)
        exact ⟨there, rfl, rfl⟩
      | dots _ wild => exact absurd hname (wild name)
      | entry wild => exact absurd hname (wild name)
    · rintro ⟨there, rfl, rfl⟩
      exact .named hname there

/-- What is no directory has nothing in it. -/
theorem answers_of_not_isDirectory (hwild : p.IsWild) (h : ¬ place.isDirectory = true) :
    Answers s o (.inside place (p :: left)) (.ok []) := by
  refine answersAll_nil.answers (by simp) (fun hun => h hun.2.1) ?_
  intro turns next
  refine iff_of_false ?_ List.not_mem_nil
  intro hstep
  cases hstep with
  | named literal => exact hwild _ literal
  | dots _ _ directory => exact h directory
  | entry _ directory => exact h directory

/-- A name that fits one component. -/
theorem answers_fits (hone : Token.anyDirectories ∉ p)
    {result : Except UnreadableDirectory (List String)}
    (h : Answers s o (.inside place left) result) :
    Answers s o (.onEntry place name (p :: left))
      (if p.admits name = true then result else .ok []) := by
  refine h.of_only [] (by simp) id ?_
  intro turns' next'
  rw [Pattern.admits_iff]
  constructor
  · intro hstep
    cases hstep with
    | fits _ fits => exact ⟨fits, rfl, rfl⟩
    | stay many => exact absurd many hone
    | deeper many => exact absurd many hone
  · rintro ⟨hfits, rfl, rfl⟩
    exact .fits hone hfits

/-- At the end of a pattern two stars stand for a directory. -/
theorem answers_last : Answers s o (.onEntry place name []) (.ok (found true place)) := by
  have hfound : (.ok (found true place) : Except UnreadableDirectory (List String)) =
      if place.isDirectory = true then .ok (found o place) else .ok [] := by
    unfold found
    cases place.isDirectory <;> cases o <;> rfl
  rw [hfound]
  refine (answers_found place).of_only [] (by simp) id ?_
  intro turns' next'
  constructor
  · intro hstep
    cases hstep with
    | last directory => exact ⟨directory, rfl, rfl⟩
  · rintro ⟨hdirectory, rfl, rfl⟩
    exact .last hdirectory

/-- Two stars stand for no more directories or for one more, and nearer places come first. -/
theorem answers_many (hmany : Token.anyDirectories ∈ p)
    {own deeper : Except UnreadableDirectory (List String)}
    (hown : Answers s o (.onEntry place name (left.dropWhile isAnyDirectories)) own)
    (hdeeper : Answers s o (.inside place (p :: left.dropWhile isAnyDirectories)) deeper) :
    Answers s o (.onEntry place name (p :: left)) (do
      let own ← own
      let deeper ← (if place.isDirectory = true then deeper else .ok [])
      .ok (own ++ deeper)) := by
  -- there is something further down only below a directory
  have hbranches : AnswersAll s o
      (if place.isDirectory = true
        then [([.deeper], .inside place (p :: left.dropWhile isAnyDirectories))] else [])
      (if place.isDirectory = true then deeper else .ok []) := by
    split
    · exact .of_answers _ hdeeper
    · exact answersAll_nil
  refine ((AnswersAll.of_answers [.stay] hown).append hbranches ?_).answers
    (by simp) id ?_
  · intro branch hbranch branch' hbranch'
    split at hbranch'
    · rw [List.mem_singleton.mp hbranch, List.mem_singleton.mp hbranch']
      exact apart_of_before .stay_deeper _ _
    · cases hbranch'
  · intro turns next
    constructor
    · intro hstep
      cases hstep with
      | fits one => exact absurd hmany one
      | stay => exact List.mem_cons_self
      | deeper _ directory => simp [directory]
    · intro hbranch
      rcases List.mem_append.mp hbranch with hbranch | hbranch
      · cases List.mem_singleton.mp hbranch
        exact .stay hmany
      · split at hbranch
        · rename_i hdirectory
          cases List.mem_singleton.mp hbranch
          exact .deeper hmany hdirectory
        · cases hbranch

/-! ## Whole searches -/

/-- With so many steps, the searches that get along with them give the answers of the spots where
they are. Going on takes a step of its own, and so does looking at an entry. -/
structure Suffices (s : Store) (o : Bool) (n : Nat) : Prop where
  inside {p : Pattern} {left : List Pattern} {place : Reached}
    (enough : weight place (p :: left) ≤ n) :
    Answers s o (.inside place (p :: left)) (outcome (inDirectory s.view o n (p :: left) place))
  further {left : List Pattern} {place : Reached} (enough : weight place left + 1 ≤ n) :
    Answers s o (.inside place left) (outcome (onwards s.view o n left place))
  entry {p : Pattern} {left : List Pattern} {place : Reached} {name : String}
    (named : fileName? place.path = some name) (enough : weight place (p :: left) + 1 ≤ n) :
    Answers s o (.onEntry place name (p :: left)) (outcome (atEntry s.view o n p left place))

/-- Everything in a directory has less room below it than the directory, and what is reached by a
name of its own has one component less to go. -/
theorem Suffices.inside_succ (h : Suffices s o n) (hs : s.Proper)
    (hweight : weight place (p :: left) ≤ n + 1) : Answers s o (.inside place (p :: left))
      (outcome (inDirectory s.view o (n + 1) (p :: left) place)) := by
  simp only [weight, List.length_cons] at hweight
  by_cases hwild : p.IsWild
  · rw [outcome_inDirectory_wild hwild]
    split
    · rename_i hdirectory
      cases hlists : s.list place.path with
      | error cause => exact .unlistable ⟨hwild, hdirectory, cause, hlists⟩
      | ok listed =>
        rcases hs.of_list_eq_ok hlists with ⟨haskable, hnames, -⟩
        rcases Store.askable_eq_ok_iff.mp haskable with ⟨-, -, hsize⟩
        refine answers_listed hs hwild hdirectory hlists ?_ ?_
        · intro name
          have hroom := room_le_of_extent_le (extent_le_join place.path name)
          refine h.further ?_
          simp only [weight, standing]
          omega
        · intro e he
          have hroom := room_below_lt hsize (hnames e he)
          refine h.entry (fileName?_below (hnames e he)) ?_
          simp only [weight, List.length_cons]
          omega
    · rename_i hdirectory
      exact answers_of_not_isDirectory hwild hdirectory
  · rw [Pattern.IsWild, not_forall_not] at hwild
    rcases hwild with ⟨name, hname⟩
    rw [outcome_inDirectory_named hname]
    have hroom := room_le_of_extent_le (extent_le_below place.path name)
    refine answers_named hname (h.further ?_)
    simp only [weight, standing]
    omega

theorem Suffices.further_succ (h : Suffices s o n) (hweight : weight place left ≤ n) :
    Answers s o (.inside place left) (outcome (onwards s.view o (n + 1) left place)) := by
  cases left with
  | nil =>
    rw [onwards]
    exact answers_found place
  | cons p left =>
    rw [outcome_onwards_cons]
    exact h.inside hweight

/-- At an entry what follows two stars is tried first, and then the two stars are tried on what is
below; any other component has to fit the name. -/
theorem Suffices.entry_succ (h : Suffices s o n) (hname : fileName? place.path = some name)
    (hweight : weight place (p :: left) ≤ n) : Answers s o (.onEntry place name (p :: left))
      (outcome (atEntry s.view o (n + 1) p left place)) := by
  simp only [weight, List.length_cons] at hweight
  by_cases hmany : Token.anyDirectories ∈ p
  · have hshorter := List.length_dropWhile_le isAnyDirectories left
    rw [outcome_atEntry_many hmany]
    refine answers_many hmany ?_ ?_
    · cases hleft : left.dropWhile isAnyDirectories with
      | nil => exact answers_last
      | cons q left' =>
        rw [hleft, List.length_cons] at hshorter
        refine h.entry hname ?_
        simp only [weight, List.length_cons]
        omega
    · refine h.inside ?_
      simp only [weight, List.length_cons]
      omega
  · rw [outcome_atEntry_one hmany hname]
    refine answers_fits hmany (h.further ?_)
    simp only [weight]
    omega

/-- Searches never run out of steps. The induction is on the steps, as the three kinds of searches
call one another with one step less. -/
theorem answers_search (hs : s.Proper) : ∀ n, Suffices s o n
  | 0 =>
    { inside := fun h => by
        simp only [weight, List.length_cons] at h
        omega
      further := fun h => by omega
      entry := fun _ h => by omega }
  | n + 1 =>
    have h := answers_search hs n
    { inside := h.inside_succ hs
      further := fun hweight => h.further_succ (Nat.le_of_succ_le_succ hweight)
      entry := fun hname hweight => h.entry_succ hname (Nat.le_of_succ_le_succ hweight) }

/-- Where the way to a path starts that fits a pattern. -/
def startOf (s : Store) (text : String) : Reached :=
  standing s (if text.startsWith "/" then "/" else ".")

/-- A search for a pattern gives the answer that the pattern has. -/
theorem answers_expandComponents (hs : s.Proper) (text : String) {patterns : List Pattern}
    (h : patterns ≠ []) :
    Answers s (endsWithSlash text) (.inside (startOf s text) patterns)
      (outcome (expandComponents s.view text patterns)) := by
  cases patterns with
  | nil => exact absurd rfl h
  | cons p left =>
    refine (answers_search hs _).inside ?_
    have hroom : room (startOf s text).path ≤ maxPath + 1 := Nat.sub_le _ _
    have hmax : 2 ≤ maxPath := by decide
    simp only [weight, List.length_cons]
    omega

end SelectionModels.Glob
