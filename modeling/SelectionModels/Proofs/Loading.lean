import Mathlib.Data.List.Forall2
import SelectionModels.CommandLine.Run
import SelectionModels.Proofs.Searches

/-! # Loading documents

A run looks at the store before it does anything else. What it finds is said here without the order
in which it looks: every input stands for some paths, the paths follow one another as the inputs do,
and at each of them there is a document, or there is not.

* `StandsFor`, `Unresolvable`: an input is a path, or a pattern that some paths fit, or neither;
* `resolveInput_eq_ok_iff`, `exists_resolveInput_eq_error_iff`: inputs are resolved accordingly;
* `loadSources_eq_ok_iff`: the documents at the paths of all inputs;
* `forEach_eq_ok_iff`: work on a list of documents succeeds when it succeeds on each of them.
-/

namespace SelectionModels.CommandLine

open Files (Store FileError endsWithSlash)
open Glob (Blocked Enumerates MadeOf Spot startOf parseComponents parseComponents_eq_ok_iff
  expandComponents answers_expandComponents isPattern)
open Json (Value Bytes)

variable {α β : Type} {s : Store}

/-! ## Inputs -/

/-- The input is the path of a file: no character of it makes it a pattern. -/
def IsPath (input : String) : Prop :=
  ∀ c ∈ input.toList, c ≠ '*' ∧ c ≠ '?' ∧ c ≠ '[' ∧ c ≠ '\x7b'

/-- Where the ways to the paths start that fit a pattern with the components. -/
def startSpot (s : Store) (input : String) (components : List Glob.Pattern) : Spot :=
  .inside (startOf s input) components

/-- An input stands for the paths: for itself if it is one, and if it is a pattern for all paths
that fit, in their order. At least one path has to fit, and no directory may keep its names to
itself. -/
inductive StandsFor (s : Store) (input : String) : List String → Prop
  | path (isPath : IsPath input) : StandsFor s input [input]
  | pattern {components : List Glob.Pattern} {paths : List String} (isPattern : ¬ IsPath input)
      (made : MadeOf input components) (free : ¬ Blocked s (startSpot s input components))
      (fits : Enumerates s (endsWithSlash input) (startSpot s input components) paths)
      (some : paths ≠ []) : StandsFor s input paths

/-- A pattern stands for no paths: it is malformed, a directory on the way cannot be listed, or
nothing fits. -/
inductive Unresolvable (s : Store) (input : String) : Prop
  | malformed (isPattern : ¬ IsPath input) (unmade : ∀ components, ¬ MadeOf input components)
  | blocked {components : List Glob.Pattern} (isPattern : ¬ IsPath input)
      (made : MadeOf input components) (blocked : Blocked s (startSpot s input components))
  | unmatched {components : List Glob.Pattern} (isPattern : ¬ IsPath input)
      (made : MadeOf input components) (free : ¬ Blocked s (startSpot s input components))
      (none : Enumerates s (endsWithSlash input) (startSpot s input components) [])

theorem isPattern_eq_false_iff {input : String} : isPattern input = false ↔ IsPath input := by
  simp only [isPattern, IsPath, List.any_eq_false, Bool.or_eq_true, decide_eq_true_eq, not_or,
    and_assoc, ne_eq]

instance (input : String) : Decidable (IsPath input) :=
  decidable_of_iff (isPattern input = false) isPattern_eq_false_iff

/-- A pattern has components: a path without any has no character but a slash. -/
theorem ne_nil_of_madeOf {input : String} {components : List Glob.Pattern}
    (hpattern : ¬ IsPath input) (h : MadeOf input components) : components ≠ [] := by
  rintro rfl
  rcases h.parts with ⟨parts, hcut, hparts⟩
  cases hparts
  generalize hbehind : Glob.behindRoot input.toList = cs at hcut
  cases hcut
  refine hpattern fun c hc => ?_
  unfold Glob.behindRoot at hbehind
  split at hbehind
  · rename_i rest htext
    rw [htext, hbehind, List.mem_singleton] at hc
    rw [hc]
    decide
  · rw [hbehind] at hc
    cases hc

theorem outcome_resolvePattern (input : String) :
    outcome (resolvePattern s.view input) =
      match parseComponents input with
      | .error cause => .error (.badPattern cause)
      | .ok components =>
        match outcome (expandComponents s.view input components) with
        | .error cause => .error (.unreadableDirectory cause)
        | .ok paths => if paths.isEmpty then .error (.noMatch input) else .ok paths := by
  unfold resolvePattern
  cases parseComponents input with
  | error cause => rfl
  | ok components =>
    simp only [outcome_bind, outcome_adapt]
    cases outcome (expandComponents s.view input components) with
    | error cause => rfl
    | ok paths => cases paths <;> rfl

/-- What an input comes to in a proper store. -/
theorem resolveInput_cases (hs : s.Proper) (input : String) :
    (∃ paths, outcome (resolveInput s.view input) = .ok paths ∧ StandsFor s input paths) ∨
      (∃ cause, outcome (resolveInput s.view input) = .error cause) ∧ Unresolvable s input := by
  unfold resolveInput
  cases hpattern : isPattern input with
  | false => exact Or.inl ⟨[input], rfl, .path (isPattern_eq_false_iff.mp hpattern)⟩
  | true =>
    have hnot : ¬ IsPath input := by
      rw [← isPattern_eq_false_iff, hpattern]
      exact Bool.noConfusion
    rw [if_pos rfl, outcome_resolvePattern]
    -- a pattern is malformed, or a search for it comes to an answer
    cases hparse : parseComponents input with
    | error cause =>
      refine Or.inr ⟨⟨_, rfl⟩, .malformed hnot ?_⟩
      intro components hmade
      rw [parseComponents_eq_ok_iff.mpr hmade] at hparse
      cases hparse
    | ok components =>
      have hmade := parseComponents_eq_ok_iff.mp hparse
      have hanswers := answers_expandComponents hs input (ne_nil_of_madeOf hnot hmade)
      dsimp only
      cases hexpand : outcome (expandComponents s.view input components) with
      | error cause =>
        rw [hexpand] at hanswers
        exact Or.inr ⟨⟨_, rfl⟩, .blocked hnot hmade hanswers⟩
      | ok paths =>
        rw [hexpand] at hanswers
        rcases hanswers with ⟨hfree, hfits⟩
        cases paths with
        | nil => exact Or.inr ⟨⟨_, rfl⟩, .unmatched hnot hmade hfree hfits⟩
        | cons path paths =>
          exact Or.inl ⟨path :: paths, rfl, .pattern hnot hmade hfree hfits (by simp)⟩

/-- An input that stands for paths is no pattern that stands for none. -/
theorem StandsFor.not_unresolvable {input : String} {paths : List String}
    (h : StandsFor s input paths) : ¬ Unresolvable s input := by
  intro hun
  cases h with
  | path isPath => cases hun <;> contradiction
  | pattern _ made free fits some =>
    cases hun with
    | malformed _ unmade => exact unmade _ made
    | blocked _ made' blocked => exact free (made.unique made' ▸ blocked)
    | unmatched _ made' _ none => exact some (fits.unique (made.unique made' ▸ none))

/-- An input stands for one list of paths. -/
theorem StandsFor.unique {input : String} {paths paths' : List String}
    (h : StandsFor s input paths) (h' : StandsFor s input paths') : paths = paths' := by
  cases h with
  | path isPath =>
    cases h' with
    | path => rfl
    | pattern isPattern => exact absurd isPath isPattern
  | pattern isPattern made free fits =>
    cases h' with
    | path isPath => exact absurd isPath isPattern
    | pattern _ made' _ fits' => exact fits.unique (made.unique made' ▸ fits')

theorem standsFor_groups_unique {inputs : List String} {groups groups' : List (List String)}
    (h : List.Forall₂ (StandsFor s) inputs groups)
    (h' : List.Forall₂ (StandsFor s) inputs groups') : groups = groups' :=
  List.right_unique_forall₂' (fun _ _ _ hfirst hsecond => hfirst.unique hsecond) h h'

/-- The paths that are found for an input are those that it stands for. -/
theorem resolveInput_eq_ok_iff (hs : s.Proper) {input : String} {paths : List String} :
    outcome (resolveInput s.view input) = .ok paths ↔ StandsFor s input paths := by
  rcases resolveInput_cases hs input with ⟨found, hfound, hstands⟩ | ⟨⟨cause, hcause⟩, hun⟩
  · rw [hfound, Except.ok.injEq]
    constructor
    · rintro rfl
      exact hstands
    · exact hstands.unique
  · rw [hcause]
    exact iff_of_false (by simp) fun hstands => hstands.not_unresolvable hun

/-- No paths are found for an input that stands for none. -/
theorem exists_resolveInput_eq_error_iff (hs : s.Proper) {input : String} :
    (∃ cause, outcome (resolveInput s.view input) = .error cause) ↔ Unresolvable s input := by
  rcases resolveInput_cases hs input with ⟨found, hfound, hstands⟩ | ⟨hcause, hun⟩
  · rw [hfound]
    exact iff_of_false (by simp) hstands.not_unresolvable
  · exact iff_of_true hcause hun

/-- The inputs stand for the paths of each of them in turn. -/
theorem resolve_eq_ok_iff (hs : s.Proper) {inputs paths : List String} :
    outcome (resolve s.view inputs) = .ok paths ↔
      ∃ groups, List.Forall₂ (StandsFor s) inputs groups ∧ groups.flatten = paths := by
  induction inputs generalizing paths with
  | nil => simp [resolve]
  | cons input inputs ih =>
    simp only [resolve, outcome_bind_eq_ok_iff, ih, outcome_pure, Except.ok.injEq,
      resolveInput_eq_ok_iff hs]
    constructor
    · rintro ⟨first, hfirst, _, ⟨groups, hgroups, rfl⟩, rfl⟩
      exact ⟨first :: groups, .cons hfirst hgroups, rfl⟩
    · rintro ⟨_, hgroups, rfl⟩
      cases hgroups with
      | cons hfirst hgroups => exact ⟨_, hfirst, _, ⟨_, hgroups, rfl⟩, rfl⟩

/-! ## Documents -/

/-- The file at the path holds the document. -/
def Holds (s : Store) (path : String) (d : Document) : Prop :=
  ∃ content, s.read path = .ok content ∧ decode Document.reader content = .ok d

theorem outcome_load (path : String) :
    outcome (Source.load s.view path) =
      match s.read path with
      | .error cause => .error (.unreadable path cause)
      | .ok content =>
        match decode Document.reader content with
        | .error cause => .error (.malformed path cause)
        | .ok document => .ok ⟨path, document⟩ := by
  rw [Source.load, outcome_bind]
  -- looking at a store always gives an answer
  change (Except.ok (s.read path) >>= _) = _
  cases s.read path with
  | error cause => rfl
  | ok content =>
    simp only [bind, Except.bind]
    cases decode Document.reader content <;> rfl

theorem load_eq_ok_iff {path : String} {source : Source} :
    outcome (Source.load s.view path) = .ok source ↔
      source.path = path ∧ Holds s path source.document := by
  rw [outcome_load]
  constructor
  · intro h
    split at h
    · cases h
    · rename_i content hread
      split at h
      · cases h
      · rename_i document hdecode
        obtain rfl := Except.ok.inj h
        exact ⟨rfl, content, hread, hdecode⟩
  · rintro ⟨rfl, content, hread, hdecode⟩
    simp [hread, hdecode]

/-- The documents that the inputs stand for, each with the path at which it was found. -/
theorem loadSources_eq_ok_iff (hs : s.Proper) {inputs : List String} {sources : List Source} :
    outcome (loadSources s.view inputs) = .ok sources ↔
      ∃ groups, List.Forall₂ (StandsFor s) inputs groups ∧
        List.Forall₂ (fun path source => source.path = path ∧ Holds s path source.document)
          groups.flatten sources := by
  simp only [loadSources, outcome_bind_eq_ok_iff, outcome_adapt_eq_ok_iff, resolve_eq_ok_iff hs,
    outcome_mapM, mapM_eq_ok_iff, load_eq_ok_iff]
  constructor
  · rintro ⟨_, ⟨groups, hgroups, rfl⟩, hsources⟩
    exact ⟨groups, hgroups, hsources⟩
  · rintro ⟨groups, hgroups, hsources⟩
    exact ⟨_, ⟨groups, hgroups, rfl⟩, hsources⟩

/-! ## Work on documents -/

theorem forEach_eq_ok_iff {work : α → Work β} {as : List α} {bs : List β} :
    (Work.forEach work as).result = .ok bs ↔
      List.Forall₂ (fun a b => (work a).result = .ok b) as bs := by
  induction as generalizing bs with
  | nil => cases bs <;> simp [Work.forEach]
  | cons a as ih =>
    cases ha : (work a).result with
    | error f => cases bs <;> simp [Work.forEach, ha]
    | ok b =>
      cases bs with
      | nil => cases hrest : (Work.forEach work as).result <;> simp [Work.forEach, ha, hrest]
      | cons b' bs =>
        rw [List.forall₂_cons, ← ih, ha]
        cases hrest : (Work.forEach work as).result <;> simp [Work.forEach, ha, hrest]

/-- The work fails with the first failure among the things that are worked on. -/
theorem forEach_eq_error {work : α → Work β} {before after : List α} {a : α} {f : Failure}
    (hbefore : ∀ b ∈ before, ∃ c, (work b).result = .ok c) (ha : (work a).result = .error f) :
    (Work.forEach work (before ++ a :: after)).result = .error f := by
  induction before with
  | nil => simp [Work.forEach, ha]
  | cons b before ih =>
    obtain ⟨c, hc⟩ := hbefore b List.mem_cons_self
    have hrest := ih fun b hb => hbefore b (List.mem_cons_of_mem _ hb)
    simp [Work.forEach, hc, hrest]

/-- What becomes of work on documents is settled by whether they are all there. -/
theorem run_onSources (inputs : List String) (work : List Source → Work α) :
    Id.run (onSources s.view inputs work) =
      match outcome (loadSources s.view inputs) with
      | .error f => .fail f
      | .ok sources => work sources := by
  rw [onSources, Id.run_bind]
  change Id.run (match outcome (loadSources s.view inputs) with | .error f => _ | .ok _ => _) = _
  cases outcome (loadSources s.view inputs) <;> rfl

end SelectionModels.CommandLine
