import SelectionModels.Proofs.Walk

/-! # Verdicts on documents

The walk remembers one field set for every path and the paths of the current tree. That is all that
the obligations met before can matter for: as long as none of them has failed, the field sets met on
one path are all equal, so the one that is remembered stands for all.

* `Claims.Records`: what the claims know of the obligations met so far;
* `Claims.Records.refuses_iff`: a path is refused exactly when an obligation met before clashes;
* `visitTrees_ends`: the walk over all trees ends as the list of obligations says;
* `check_eq_verdict`: the check of a document gives the error of the first obligation that fails.
-/

namespace SelectionModels

/-! ## Claiming a path -/

namespace Claims

/-- The path of the field set belongs to another one, or the tree has declared it. -/
def Refuses (c : Claims) (s : FieldSet) : Prop :=
  (∃ previous, c.claim? s.path = some previous ∧ previous ≠ s) ∨ s.path ∈ c.emitted

/-- The claims once the path of the field set is claimed and declared. -/
def after (c : Claims) (s : FieldSet) : Claims :=
  (if c.claim? s.path = none then c.add s.path s else c).emit s.path

@[simp] theorem emitted_add (c : Claims) (path : ModelPath) (s : FieldSet) :
    (c.add path s).emitted = c.emitted := rfl

theorem claim?_add (c : Claims) (path path' : ModelPath) (s : FieldSet) :
    (c.add path s).claim? path' =
      (c.claim? path').or (if path' = path then some s else none) := by
  by_cases hp : path' = path
  · simp [claim?, add, List.lookup_append, hp]
  · have hbeq : (path' == path) = false := beq_eq_false_iff_ne.mpr hp
    simp [claim?, add, List.lookup_append, List.lookup_cons, hbeq, hp]

@[simp] theorem claim?_emit (c : Claims) (path path' : ModelPath) :
    (c.emit path).claim? path' = c.claim? path' := rfl

@[simp] theorem claim?_newTree (c : Claims) (path : ModelPath) :
    c.newTree.claim? path = c.claim? path := rfl

@[simp] theorem emitted_after (c : Claims) (s : FieldSet) :
    (c.after s).emitted = c.emitted ++ [s.path] := by
  unfold after
  split <;> rfl

/-- Claims that were there stay; a free path goes to the field set. -/
theorem claim?_after (c : Claims) (s : FieldSet) (path : ModelPath) :
    (c.after s).claim? path =
      (c.claim? path).or (if path = s.path then some s else none) := by
  unfold after
  split
  · rw [claim?_emit, claim?_add]
  · rename_i hclaim
    rw [claim?_emit]
    cases hpath : c.claim? path with
    | some s' => rfl
    | none =>
      -- the path of the field set is claimed, so this is another one
      have hne : path ≠ s.path := by
        intro h
        exact hclaim (h ▸ hpath)
      simp [hne]

theorem isSome_claim?_iff {c : Claims} {path : ModelPath} :
    (c.claim? path).isSome ↔ path ∈ c.claimed.map Prod.fst := by
  simp only [claim?, List.lookup_isSome_iff, beq_iff_eq, List.mem_map, eq_comm (a := path)]

/-- A path is claimed once. -/
theorem nodup_after {c : Claims} (s : FieldSet) (h : (c.claimed.map Prod.fst).Nodup) :
    ((c.after s).claimed.map Prod.fst).Nodup := by
  unfold after
  split
  · rename_i hclaim
    have hfree : s.path ∉ c.claimed.map Prod.fst := by
      intro hmem
      have hsome := isSome_claim?_iff.mpr hmem
      simp [hclaim] at hsome
    show ((c.claimed ++ [(s.path, s)]).map Prod.fst).Nodup
    simpa using h.concat hfree
  · exact h

/-- A field set that is not refused has its path to itself. -/
theorem claim?_after_self {c : Claims} {s : FieldSet} (h : ¬ c.Refuses s) :
    (c.after s).claim? s.path = some s := by
  rw [claim?_after]
  cases hclaim : c.claim? s.path with
  | none => simp
  | some previous =>
    have hp : previous = s := by
      by_contra hne
      exact h (Or.inl ⟨previous, hclaim, hne⟩)
    rw [hp, Option.some_or]

end Claims

theorem run_claimPath_of_refuses {c : Claims} {s : FieldSet} (h : c.Refuses s) :
    ∃ c', (claimPath s).run c = .error (.duplicateModelPath s.path.display) c' := by
  rcases h with ⟨previous, hprevious, hne⟩ | hemitted
  · exact ⟨c, by simp [claimPath, hprevious, hne]⟩
  · -- a free path is claimed before the tree turns it down
    cases hclaim : c.claim? s.path with
    | none => exact ⟨c.add s.path s, by simp [claimPath, hclaim, hemitted]⟩
    | some previous =>
      by_cases hp : previous = s
      · exact ⟨c, by simp [claimPath, hclaim, hp, hemitted]⟩
      · exact ⟨c, by simp [claimPath, hclaim, hp]⟩

theorem run_claimPath_of_not_refuses {c : Claims} {s : FieldSet} (h : ¬ c.Refuses s) :
    (claimPath s).run c = .ok () (c.after s) := by
  have hemitted : s.path ∉ c.emitted := fun he => h (Or.inr he)
  cases hclaim : c.claim? s.path with
  | none => simp [claimPath, Claims.after, hclaim, hemitted]
  | some previous =>
    have hp : previous = s := by
      by_contra hne
      exact h (Or.inl ⟨previous, hclaim, hne⟩)
    simp [claimPath, Claims.after, hclaim, hp, hemitted]

theorem run_claimPath_eq_ok_iff {c c' : Claims} {s : FieldSet} :
    (claimPath s).run c = .ok () c' ↔ ¬ c.Refuses s ∧ c' = c.after s := by
  by_cases hs : c.Refuses s
  · obtain ⟨c'', hrun⟩ := run_claimPath_of_refuses hs
    simp [hrun, hs]
  · simp [run_claimPath_of_not_refuses hs, hs, eq_comm]

/-! ## What the claims know -/

/-- The claims are those of a walk that has met the given obligations, none of which failed, and is
in the given tree. -/
structure Claims.Records (c : Claims) (tree : Nat) (met : List (Nat × Obligation)) : Prop where
  /-- Every field set met holds its path. -/
  claim?_of_mem : ∀ t s kind, (t, .path s kind) ∈ met → c.claim? s.path = some s
  /-- Every claim is that of a field set met. -/
  mem_of_claim? : ∀ path s, c.claim? path = some s →
    s.path = path ∧ ∃ t kind, (t, .path s kind) ∈ met
  /-- The tree has declared the paths of its own field sets. -/
  mem_emitted_iff : ∀ path, path ∈ c.emitted ↔
    ∃ s kind, (tree, .path s kind) ∈ met ∧ s.path = path
  /-- No path is claimed twice. -/
  nodup_claimed : (c.claimed.map Prod.fst).Nodup

namespace Claims.Records

variable {c : Claims} {tree : Nat} {met : List (Nat × Obligation)}

theorem empty (tree : Nat) : Claims.empty.Records tree [] where
  claim?_of_mem := by simp
  mem_of_claim? := by simp [Claims.claim?, Claims.empty]
  mem_emitted_iff := by simp [Claims.empty]
  nodup_claimed := by simp [Claims.empty]

/-- A path is refused exactly when an obligation met before clashes. -/
theorem refuses_iff (h : c.Records tree met) (s : FieldSet) :
    c.Refuses s ↔ met.any (s.clashes tree) = true := by
  rw [List.any_eq_true]
  constructor
  · rintro (⟨previous, hclaim, hne⟩ | hemitted)
    · obtain ⟨hpath, t, kind, hmem⟩ := h.mem_of_claim? s.path previous hclaim
      exact ⟨_, hmem, by simp [FieldSet.clashes, hpath, hne]⟩
    · obtain ⟨s', kind, hmem, hpath⟩ := (h.mem_emitted_iff s.path).mp hemitted
      exact ⟨_, hmem, by simp [FieldSet.clashes, hpath]⟩
  · rintro ⟨⟨t, o⟩, hmem, hclash⟩
    cases o with
    | path s' kind =>
      simp only [FieldSet.clashes, Bool.and_eq_true, Bool.or_eq_true, decide_eq_true_eq] at hclash
      obtain ⟨hpath, rfl | hne⟩ := hclash
      · exact Or.inr ((h.mem_emitted_iff s.path).mpr ⟨s', kind, hmem, hpath⟩)
      · exact Or.inl ⟨s', hpath ▸ h.claim?_of_mem t s' kind hmem, hne⟩
    | leaf l => simp [FieldSet.clashes] at hclash
    | responseNames s' => simp [FieldSet.clashes] at hclash

/-- Obligations that are about no path leave nothing to record. -/
theorem append_other (h : c.Records tree met) {o : Obligation} (ho : o.emitted? = none) :
    c.Records tree (met ++ [(tree, o)]) := by
  have hmem : ∀ t s kind, (t, Obligation.path s kind) ∈ met ++ [(tree, o)] ↔
      (t, .path s kind) ∈ met := by
    intro t s kind
    have hne : Obligation.path s kind ≠ o := by
      rintro rfl
      cases ho
    simp [hne]
  constructor
  · intro t s kind hs
    exact h.claim?_of_mem t s kind ((hmem t s kind).mp hs)
  · simpa only [hmem] using h.mem_of_claim?
  · simpa only [hmem] using h.mem_emitted_iff
  · exact h.nodup_claimed

/-- A path that was not refused is recorded. -/
theorem append_path (h : c.Records tree met) {s : FieldSet} (hs : ¬ c.Refuses s) (kind : Kind) :
    (c.after s).Records tree (met ++ [(tree, .path s kind)]) := by
  constructor
  · intro t s' kind' hmem
    rcases List.mem_append.mp hmem with hmem | hmem
    · -- what was met before keeps its path
      rw [Claims.claim?_after, h.claim?_of_mem t s' kind' hmem, Option.some_or]
    · -- the field set has just claimed its path or, not being refused, had claimed it before
      simp only [List.mem_singleton, Prod.mk.injEq, Obligation.path.injEq] at hmem
      obtain ⟨-, rfl, -⟩ := hmem
      exact Claims.claim?_after_self hs
  · intro path s' hclaim
    rw [Claims.claim?_after] at hclaim
    cases hold : c.claim? path with
    | some previous =>
      simp only [hold, Option.some_or, Option.some.injEq] at hclaim
      obtain ⟨hpath, t, kind', hmem⟩ := h.mem_of_claim? path s' (hclaim ▸ hold)
      exact ⟨hpath, t, kind', List.mem_append_left _ hmem⟩
    | none =>
      simp only [hold, Option.none_or, Option.ite_none_right_eq_some, Option.some.injEq] at hclaim
      obtain ⟨rfl, rfl⟩ := hclaim
      exact ⟨rfl, tree, kind, by simp⟩
  · intro path
    rw [Claims.emitted_after, List.mem_append, h.mem_emitted_iff, List.mem_singleton]
    constructor
    · rintro (⟨s', kind', hmem, hpath⟩ | rfl)
      · exact ⟨s', kind', List.mem_append_left _ hmem, hpath⟩
      · exact ⟨s, kind, by simp, rfl⟩
    · rintro ⟨s', kind', hmem, hpath⟩
      rcases List.mem_append.mp hmem with hmem | hmem
      · exact Or.inl ⟨s', kind', hmem, hpath⟩
      · simp only [List.mem_singleton, Prod.mk.injEq, Obligation.path.injEq] at hmem
        exact Or.inr (by rw [← hpath, hmem.2.1])
  · exact Claims.nodup_after s h.nodup_claimed

/-- A tree with a new number has declared nothing. -/
theorem newTree (h : c.Records tree met) {next : Nat} (hnext : ∀ x ∈ met, x.1 < next) :
    c.newTree.Records next met := by
  constructor
  · intro t s kind hmem
    rw [Claims.claim?_newTree]
    exact h.claim?_of_mem t s kind hmem
  · intro path s hclaim
    rw [Claims.claim?_newTree] at hclaim
    exact h.mem_of_claim? path s hclaim
  · intro path
    constructor
    · intro hpath
      simp [Claims.newTree] at hpath
    · rintro ⟨s, kind, hmem, -⟩
      exact absurd (hnext _ hmem) (Nat.lt_irrefl next)
  · exact h.nodup_claimed

end Claims.Records

/-! ## The walk -/

variable {scalars : List CustomScalar} {c : Claims} {tree : Nat} {met : List (Nat × Obligation)}

/-- One step of the walk ends as the list says, and what it met is recorded. -/
theorem visit_ends (hscalars : checkScalars scalars = .ok ()) (h : c.Records tree met)
    (o : Obligation) :
    (o.visit scalars).Ends c (o.failure? scalars met tree)
      fun c' => c'.Records tree (met ++ [(tree, o)]) := by
  cases o with
  | leaf l =>
    rw [Obligation.visit, checkLeaf_eq hscalars]
    exact (Visit.ends_ofCheck c _).imp fun c' hc' => hc' ▸ h.append_other rfl
  | responseNames s =>
    rw [Obligation.visit, checkResponseNames_eq]
    exact (Visit.ends_ofCheck c _).imp fun c' hc' => hc' ▸ h.append_other rfl
  | path s kind =>
    simp only [Obligation.visit, Obligation.failure?]
    -- the claims decide just as the obligations met before do
    by_cases hs : c.Refuses s
    · rw [if_pos ((h.refuses_iff s).mp hs)]
      exact run_claimPath_of_refuses hs
    · rw [if_neg fun hclash => hs ((h.refuses_iff s).mpr hclash)]
      exact ⟨c.after s, run_claimPath_of_not_refuses hs, h.append_path hs kind⟩

theorem forM_visit_ends (hscalars : checkScalars scalars = .ok ()) (h : c.Records tree met)
    (os : List Obligation) :
    Visit.Ends (forM os (Obligation.visit scalars)) c
      (firstFailure? scalars met (os.map (tree, ·)))
      fun c' => c'.Records tree (met ++ os.map (tree, ·)) := by
  induction os generalizing c met with
  | nil => exact Visit.ends_pure (by simpa using h)
  | cons o os ih =>
    rw [List.forM_cons, List.map_cons, firstFailure?]
    apply (visit_ends hscalars h o).bind
    intro c' hc'
    exact (ih hc').imp fun c'' hc'' => by simpa using hc''

/-- A tree is walked under a number that no tree before it has. -/
theorem visitTree_ends (hscalars : checkScalars scalars = .ok ()) (h : c.Records tree met)
    {next : Nat} (hnext : ∀ x ∈ met, x.1 < next) (dataField : Field) (kind : Kind) :
    (visitTree scalars kind dataField).Ends c
      (firstFailure? scalars met ((dataField.obligations kind).map (next, ·)))
      fun c' => c'.Records next (met ++ (dataField.obligations kind).map (next, ·)) := by
  have hnew : Visit.Ends (modify Claims.newTree) c none (· = c.newTree) :=
    ⟨c.newTree, rfl, rfl⟩
  -- only the paths of the tree before are forgotten, the claims stay
  rw [visitTree, (visit_eq_forM scalars).1]
  apply hnew.bind
  rintro c' rfl
  exact forM_visit_ends hscalars (h.newTree hnext) _

/-- The walk over trees ends as the list of their obligations says. -/
theorem visitTrees_ends (hscalars : checkScalars scalars = .ok ()) (h : c.Records tree met)
    {next : Nat} (hnext : ∀ x ∈ met, x.1 < next) (trees : List (Field × Kind)) :
    (visitTrees scalars trees).Ends c
      (firstFailure? scalars met (numbered next (trees.map fun t => t.1.obligations t.2)))
      fun c' => ∃ last, c'.Records last
        (met ++ numbered next (trees.map fun t => t.1.obligations t.2)) := by
  induction trees generalizing c tree met next with
  | nil => exact Visit.ends_pure ⟨tree, by simpa using h⟩
  | cons t trees ih =>
    rw [visitTrees, List.map_cons, numbered_cons, firstFailure?_append]
    apply (visitTree_ends hscalars h hnext t.1 t.2).bind
    intro c' hc'
    have hnext' : ∀ x ∈ met ++ (t.1.obligations t.2).map (next, ·), x.1 < next + 1 := by
      intro x hx
      rcases List.mem_append.mp hx with hx | hx
      · exact Nat.lt_succ_of_lt (hnext x hx)
      · obtain ⟨o, -, rfl⟩ := List.mem_map.mp hx
        exact Nat.lt_succ_self next
    exact (ih hc' hnext').imp fun c'' ⟨last, hlast⟩ => ⟨last, by simpa using hlast⟩

/-! ## Documents -/

/-- The walk over a document that starts without claims ends as its obligations say. -/
theorem Document.walk_ends {d : Document} (hscalars : checkScalars d.customScalars = .ok ()) :
    (visitTrees d.customScalars d.trees).Ends .empty
      (firstFailure? d.customScalars [] d.obligations)
      fun c' => ∃ last, c'.Records last d.obligations := by
  have hfirst : ∀ x ∈ ([] : List (Nat × Obligation)), x.1 < 0 := by simp
  have hwalk := visitTrees_ends hscalars (Claims.Records.empty 0) hfirst d.trees
  simpa [Document.obligations, d.owed_eq_map] using hwalk

/-- Once its scalars pass, a document is checked as its obligations say. -/
theorem Document.check_of_checkScalars {d : Document}
    (hscalars : checkScalars d.customScalars = .ok ()) :
    d.check = verdictOf (firstFailure? d.customScalars [] d.obligations) := by
  have hwalk := d.walk_ends hscalars
  unfold Document.check
  cases hfailure : firstFailure? d.customScalars [] d.obligations with
  | some e =>
    obtain ⟨c', hc'⟩ := hfailure ▸ hwalk
    simp [bind, Except.bind, hscalars, hc', verdictOf]
  | none =>
    obtain ⟨c', hc', -⟩ := hfailure ▸ hwalk
    simp [bind, Except.bind, hscalars, hc', verdictOf]

/-- A document is checked as its scalars and its obligations say: the error is that of the scalars,
if they have one, and else that of the first obligation that fails beside those before it. -/
theorem check_eq_verdict (d : Document) : d.check = d.verdict := by
  unfold Document.verdict
  cases hscalars : checkScalars d.customScalars with
  | error e => simp [Document.check, hscalars, bind, Except.bind]
  | ok u => exact d.check_of_checkScalars hscalars

end SelectionModels
