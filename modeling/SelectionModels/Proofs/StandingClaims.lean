import Mathlib.Logic.Relation
import SelectionModels.Proofs.Rearrangement

/-! # Claims that stand

The claims of a check outlive the trees in which they are made, and the visits that fail. A visit
stops wherever something is wrong, so no more can be said of it than what each of its steps does:
it claims a free path, declares a claimed one, or begins a new tree. No step takes a claim back. So
a visit that has ended well will do so again, however many trees are visited in between: whatever it
claimed the first time it finds claimed, and for itself.

* `Claims.Step`: what a step of the walk can do to the claims;
* `Claims.Sound`: what holds of all claims that steps lead to;
* `reaches_visitTree`: whatever comes of a visit, it is made of steps;
* `run_visitTree_again`: a visit that has ended well ends well again, and claims nothing;
* `claims_stand`: what can be said of the claims after any visits.
-/

namespace SelectionModels

/-! ## Where visits end -/

/-- The claims in which a visit ends, be it well or with an error. -/
def Visit.claimsAfter (v : Visit) (c : Claims) : Claims :=
  match v.run c with
  | .ok _ c' => c'
  | .error _ c' => c'

/-- The claims in which visits of trees end, one after the other, whatever comes of each. -/
def claimsAfterTrees (scalars : List CustomScalar) (c : Claims) (trees : List (Field × Kind)) :
    Claims :=
  trees.foldl (fun c t => (visitTree scalars t.2 t.1).claimsAfter c) c

theorem Visit.claimsAfter_of_ok {v : Visit} {c c' : Claims} (h : v.run c = .ok () c') :
    v.claimsAfter c = c' := by
  rw [claimsAfter, h]

/-! ## Steps -/

namespace Claims

/-- What a step of the walk can do to the claims. -/
inductive Step : Claims → Claims → Prop where
  /-- A free path goes to a field set. -/
  | claim {c : Claims} {s : FieldSet} (free : c.claim? s.path = none) : Step c (c.add s.path s)
  /-- The tree declares a path for the field set that claims it, for the first time. -/
  | declare {c : Claims} {s : FieldSet} (claimed : c.claim? s.path = some s)
    (fresh : s.path ∉ c.emitted) : Step c (c.emit s.path)
  /-- A new tree begins. -/
  | newTree {c : Claims} : Step c c.newTree

/-- Steps lead from the first claims to the second. -/
abbrev Reaches : Claims → Claims → Prop :=
  Relation.ReflTransGen Step

/-- The claims make sense: a path is claimed once, by a field set of that path, and what the tree
has declared, once each, is claimed. -/
structure Sound (c : Claims) : Prop where
  path_of_mem : ∀ e ∈ c.claimed, e.2.path = e.1
  nodup_claimed : (c.claimed.map Prod.fst).Nodup
  claimed_of_emitted : ∀ path ∈ c.emitted, path ∈ c.claimed.map Prod.fst
  nodup_emitted : c.emitted.Nodup

theorem sound_empty : empty.Sound where
  path_of_mem := by simp [empty]
  nodup_claimed := by simp [empty]
  claimed_of_emitted := by simp [empty]
  nodup_emitted := by simp [empty]

theorem claim?_eq_none_iff {c : Claims} {path : ModelPath} :
    c.claim? path = none ↔ path ∉ c.claimed.map Prod.fst := by
  rw [← isSome_claim?_iff, Option.not_isSome_iff_eq_none]

/-- A step leaves the claims in good order. -/
theorem Step.sound {c c' : Claims} (h : Step c c') (hc : c.Sound) : c'.Sound := by
  cases h with
  | @claim s free =>
    have hkeys : (c.add s.path s).claimed.map Prod.fst = c.claimed.map Prod.fst ++ [s.path] := by
      simp [add]
    constructor
    · intro e he
      rcases List.mem_append.mp he with he | he
      · exact hc.path_of_mem e he
      · rw [List.mem_singleton.mp he]
    · simpa [hkeys] using hc.nodup_claimed.concat (claim?_eq_none_iff.mp free)
    · intro path hpath
      rw [hkeys]
      exact List.mem_append_left _ (hc.claimed_of_emitted path hpath)
    · exact hc.nodup_emitted
  | @declare s claimed fresh =>
    constructor
    · exact hc.path_of_mem
    · exact hc.nodup_claimed
    · intro path hpath
      rcases List.mem_append.mp hpath with hpath | hpath
      · exact hc.claimed_of_emitted path hpath
      · rw [List.mem_singleton.mp hpath]
        exact isSome_claim?_iff.mp (by simp [claimed])
    · simpa [emit] using hc.nodup_emitted.concat fresh
  | newTree =>
    -- claims are kept from tree to tree, and nothing has been declared in the new one
    constructor
    · exact hc.path_of_mem
    · exact hc.nodup_claimed
    · simp [Claims.newTree]
    · simp [Claims.newTree]

/-- A step takes no claim back. -/
theorem Step.claimed_prefix {c c' : Claims} (h : Step c c') : c.claimed <+: c'.claimed := by
  cases h with
  | claim free => exact List.prefix_append _ _
  | declare claimed fresh => exact List.prefix_rfl
  | newTree => exact List.prefix_rfl

theorem Reaches.sound {c c' : Claims} (h : c.Reaches c') (hc : c.Sound) : c'.Sound := by
  induction h with
  | refl => exact hc
  | tail _ hstep ih => exact hstep.sound ih

theorem Reaches.claimed_prefix {c c' : Claims} (h : c.Reaches c') : c.claimed <+: c'.claimed := by
  induction h with
  | refl => exact List.prefix_rfl
  | tail _ hstep ih => exact ih.trans hstep.claimed_prefix

/-- What is claimed in addition was free. -/
theorem Reaches.exists_new {c c' : Claims} (h : c.Reaches c') (hc : c.Sound) :
    ∃ new, c'.claimed = c.claimed ++ new ∧ ∀ e ∈ new, c.claim? e.1 = none := by
  obtain ⟨new, hnew⟩ := h.claimed_prefix
  have hnodup := (h.sound hc).nodup_claimed
  rw [← hnew, List.map_append, List.nodup_append] at hnodup
  refine ⟨new, hnew.symm, fun e he => claim?_eq_none_iff.mpr fun hmem => ?_⟩
  exact hnodup.2.2 _ hmem _ (List.mem_map_of_mem he) rfl

/-- Whoever has a path in the first claims has it in the second. -/
def Within (c c' : Claims) : Prop :=
  ∀ path s, c.claim? path = some s → c'.claim? path = some s

theorem Within.trans {c c' c'' : Claims} (h : c.Within c') (h' : c'.Within c'') : c.Within c'' :=
  fun path s hs => h' path s (h path s hs)

theorem Reaches.within {c c' : Claims} (h : c.Reaches c') : c.Within c' := by
  obtain ⟨new, hnew⟩ := h.claimed_prefix
  intro path s hs
  rw [claim?] at hs ⊢
  rw [← hnew, List.lookup_append, hs, Option.some_or]

end Claims

/-! ## Visits are made of steps -/

/-- Whatever comes of the visit, it is made of steps. -/
def Visit.Walks (v : Visit) : Prop :=
  ∀ c : Claims, c.Reaches (v.claimsAfter c)

namespace Visit

theorem walks_pure : Walks (pure ()) :=
  fun _ => .refl

/-- The second visit goes on where the first one ended, if it ended well. -/
theorem Walks.bind {v w : Visit} (hv : v.Walks) (hw : w.Walks) : Walks (do v; w) := by
  intro c
  have hv := hv c
  cases hrun : v.run c with
  | ok u c' =>
    have hafter : claimsAfter (do v; w) c = w.claimsAfter c' := by
      simp [claimsAfter, hrun]
    rw [claimsAfter_of_ok hrun] at hv
    rw [hafter]
    exact hv.trans (hw c')
  | error e c' =>
    have hafter : claimsAfter (do v; w) c = v.claimsAfter c := by
      simp [claimsAfter, hrun]
    rw [hafter]
    exact hv

theorem walks_forM {α : Type} {xs : List α} {f : α → Visit} (hf : ∀ x ∈ xs, (f x).Walks) :
    Walks (forM xs f) := by
  induction xs with
  | nil => exact walks_pure
  | cons x xs ih =>
    obtain ⟨hx, hxs⟩ := List.forall_mem_cons.mp hf
    rw [List.forM_cons]
    exact hx.bind (ih hxs)

theorem walks_ofCheck (r : Except DocumentError Unit) : (ofCheck r).Walks := by
  intro c
  cases r with
  | ok u => exact .refl
  | error e => exact .refl

end Visit

/-- A path is claimed if it is free, and declared if it then belongs to the field set. Where it is
turned down nothing more happens. -/
theorem walks_claimPath (s : FieldSet) : (claimPath s).Walks := by
  intro c
  cases hclaim : c.claim? s.path with
  | none =>
    have hclaims : c.Reaches (c.add s.path s) := .single (.claim hclaim)
    by_cases hemitted : s.path ∈ c.emitted
    · simpa [Visit.claimsAfter, claimPath, hclaim, hemitted] using hclaims
    · have hclaimed : (c.add s.path s).claim? s.path = some s := by
        simp [Claims.claim?_add, hclaim]
      simpa [Visit.claimsAfter, claimPath, hclaim, hemitted] using
        hclaims.tail (.declare hclaimed hemitted)
  | some previous =>
    have hstays : c.Reaches c := .refl
    by_cases hprevious : previous = s
    · by_cases hemitted : s.path ∈ c.emitted
      · simpa [Visit.claimsAfter, claimPath, hclaim, hprevious, hemitted] using hstays
      · simpa [Visit.claimsAfter, claimPath, hclaim, hprevious, hemitted] using
          hstays.tail (.declare (hprevious ▸ hclaim) hemitted)
    · simpa [Visit.claimsAfter, claimPath, hclaim, hprevious] using hstays

theorem Obligation.walks_visit (scalars : List CustomScalar) (o : Obligation) :
    (o.visit scalars).Walks := by
  cases o with
  | leaf l => exact Visit.walks_ofCheck _
  | path s kind => exact walks_claimPath s
  | responseNames s => exact Visit.walks_ofCheck _

theorem Obligation.walks_forM_visit (scalars : List CustomScalar) (os : List Obligation) :
    Visit.Walks (forM os (Obligation.visit scalars)) :=
  Visit.walks_forM fun o _ => o.walks_visit scalars

/-- Whatever comes of the visit of a tree, it is made of steps. -/
theorem reaches_visitTree (scalars : List CustomScalar) (t : Field × Kind) (c : Claims) :
    c.Reaches ((visitTree scalars t.2 t.1).claimsAfter c) := by
  have hnew : Visit.Walks (modify Claims.newTree) := fun c => .single .newTree
  rw [visitTree, (visit_eq_forM scalars).1]
  exact hnew.bind (Obligation.walks_forM_visit scalars _) c

theorem reaches_claimsAfterTrees (scalars : List CustomScalar) (trees : List (Field × Kind))
    (c : Claims) : c.Reaches (claimsAfterTrees scalars c trees) := by
  induction trees generalizing c with
  | nil => exact .refl
  | cons t trees ih => exact (reaches_visitTree scalars t c).trans (ih _)

/-! ## Visits that are repeated -/

variable {scalars : List CustomScalar} {c c' again : Claims}

/-- A check that looks at no claims passes once more. -/
theorem Visit.run_ofCheck_again {r : Except DocumentError Unit}
    (h : (Visit.ofCheck r).run c = .ok () c') (hemitted : again.emitted = c.emitted) :
    (Visit.ofCheck r).run again = .ok () ⟨again.claimed, c'.emitted⟩ := by
  obtain ⟨hcheck, rfl⟩ := Visit.run_ofCheck_eq_ok_iff.mp h
  rw [← hemitted]
  exact Visit.run_ofCheck_eq_ok_iff.mpr ⟨hcheck, rfl⟩

/-- A step that has ended well ends well again, from claims that are none the poorer for it and in a
tree that has declared as much. Nothing is left to claim. -/
theorem run_visit_again {o : Obligation} (h : (o.visit scalars).run c = .ok () c')
    (hclaims : c'.Within again)
    (hemitted : again.emitted = c.emitted) :
    (o.visit scalars).run again = .ok () ⟨again.claimed, c'.emitted⟩ := by
  cases o with
  | leaf l => exact Visit.run_ofCheck_again h hemitted
  | responseNames s => exact Visit.run_ofCheck_again h hemitted
  | path s kind =>
    obtain ⟨hs, rfl⟩ := run_claimPath_eq_ok_iff.mp h
    -- whether or not it had its path the first time, the field set has it by now
    have hclaimed : again.claim? s.path = some s := hclaims _ _ (Claims.claim?_after_self hs)
    have hagain : ¬ again.Refuses s := by
      rintro (⟨previous, hprevious, hne⟩ | hdeclared)
      · rw [hclaimed, Option.some.injEq] at hprevious
        exact hne hprevious.symm
      · exact hs (Or.inr (hemitted ▸ hdeclared))
    have hafter : again.after s = ⟨again.claimed, again.emitted ++ [s.path]⟩ := by
      simp [Claims.after, hclaimed, Claims.emit]
    refine run_claimPath_eq_ok_iff.mpr ⟨hagain, ?_⟩
    rw [hafter, Claims.emitted_after, hemitted]

theorem run_forM_again {os : List Obligation}
    (h : EStateM.run (forM os (Obligation.visit scalars)) c = .ok () c')
    (hclaims : c'.Within again)
    (hemitted : again.emitted = c.emitted) :
    EStateM.run (forM os (Obligation.visit scalars)) again =
      .ok () ⟨again.claimed, c'.emitted⟩ := by
  induction os generalizing c again with
  | nil =>
    cases h
    rw [← hemitted]
    rfl
  | cons o os ih =>
    rw [List.forM_cons, EStateM.run_bind] at h ⊢
    cases hrun : (o.visit scalars).run c with
    | error e c'' => simp [hrun] at h
    | ok u c'' =>
      have hrest : EStateM.run (forM os (Obligation.visit scalars)) c'' = .ok () c' := by
        simpa [hrun] using h
      -- the step's own claims are among those of the whole visit
      have hreaches : c''.Reaches c' :=
        Visit.claimsAfter_of_ok hrest ▸ Obligation.walks_forM_visit scalars os c''
      have hstep := run_visit_again hrun (hreaches.within.trans hclaims) hemitted
      have hnext : EStateM.run (forM os (Obligation.visit scalars)) ⟨again.claimed, c''.emitted⟩ =
          .ok () ⟨again.claimed, c'.emitted⟩ := ih hrest hclaims rfl
      simpa [hstep] using hnext

/-- The visit of a tree that has ended well ends well again from any claims that include its own,
and leaves them as they are. -/
theorem run_visitTree_again {t : Field × Kind}
    (h : (visitTree scalars t.2 t.1).run c = .ok () c')
    (hclaims : c'.Within again) :
    (visitTree scalars t.2 t.1).run again = .ok () ⟨again.claimed, c'.emitted⟩ := by
  rw [visitTree, (visit_eq_forM scalars).1] at h ⊢
  -- both visits begin with a tree that has declared nothing
  have hagain : EStateM.run (forM (t.1.obligations t.2) (Obligation.visit scalars)) again.newTree =
      .ok () ⟨again.claimed, c'.emitted⟩ := run_forM_again (c := c.newTree) h hclaims rfl
  exact hagain

/-! ## Documents with copies -/

/-- An accepted document may be followed by copies of its own operations and fragments. -/
theorem Document.check_append_copies {d : Document} (h : d.check = .ok ())
    (os : List Operation) (fs : List Fragment) (hos : os ⊆ d.operations)
    (hfs : fs ⊆ d.fragments) :
    { d with operations := d.operations ++ os, fragments := d.fragments ++ fs }.check = .ok () := by
  refine Document.check_of_trees_subset (List.Perm.refl d.customScalars) ?_ h
  intro t ht
  rw [mem_trees_iff] at ht ⊢
  rcases ht with ⟨o, ho, hot⟩ | ⟨f, hf, hft⟩
  · exact Or.inl ⟨o, List.append_subset.mpr ⟨List.Subset.refl _, hos⟩ ho, hot⟩
  · exact Or.inr ⟨f, List.append_subset.mpr ⟨List.Subset.refl _, hfs⟩ hf, hft⟩

/-! ## Claims after any visits -/

/-- A check comes to these claims by visits of trees, whatever comes of each. -/
def Claims.Reached (scalars : List CustomScalar) (c : Claims) : Prop :=
  ∃ trees, claimsAfterTrees scalars .empty trees = c

/-- The claims that a check comes to are sound, and one more visit, whether or not it ends well,
leaves them as they are and appends claims to paths that were free. A visit that has ended well ends
well again, at once or after any other visits, and leaves the claims as it finds them. So an
accepted document is accepted with a copy of one of its operations or fragments behind it. -/
theorem claims_stand :
    (∀ (scalars : List CustomScalar) (c : Claims), c.Reached scalars →
      c.Sound ∧ ∀ t : Field × Kind, ∃ new,
        ((visitTree scalars t.2 t.1).claimsAfter c).claimed = c.claimed ++ new ∧
          ∀ e ∈ new, c.claim? e.1 = none) ∧
    (∀ (scalars : List CustomScalar) (t : Field × Kind) (c c' : Claims),
      (visitTree scalars t.2 t.1).run c = .ok () c' → ∀ later : List (Field × Kind), ∃ again,
        (visitTree scalars t.2 t.1).run (claimsAfterTrees scalars c' later) = .ok () again ∧
          again.claimed = (claimsAfterTrees scalars c' later).claimed) ∧
    ∀ d : Document, d.check = .ok () →
      (∀ o ∈ d.operations, { d with operations := d.operations ++ [o] }.check = .ok ()) ∧
        ∀ f ∈ d.fragments, { d with fragments := d.fragments ++ [f] }.check = .ok () := by
  refine ⟨?_, ?_, ?_⟩
  · rintro scalars c ⟨trees, rfl⟩
    have hsound := (reaches_claimsAfterTrees scalars trees .empty).sound Claims.sound_empty
    exact ⟨hsound, fun t => (reaches_visitTree scalars t _).exists_new hsound⟩
  · intro scalars t c c' hrun later
    have hkept : c'.Within (claimsAfterTrees scalars c' later) :=
      (reaches_claimsAfterTrees scalars later c').within
    exact ⟨_, run_visitTree_again hrun hkept, rfl⟩
  · intro d h
    constructor
    · intro o ho
      simpa using d.check_append_copies h [o] [] (by simpa using ho) (by simp)
    · intro f hf
      simpa using d.check_append_copies h [] [f] (by simp) (by simpa using hf)

/-- A field that emits its own implementations twice. -/
def Field.doubled (f : Field) : Field :=
  { f with implementationFieldSets := f.implementationFieldSets ++ f.implementationFieldSets }

/-- The hero's query, first with its data twice, which is turned down only when all four of its
paths are claimed, then as it is, and again after the first has been turned down once more. -/
theorem claims_stand_heroDocument :
    ∃ t ∈ heroDocument.trees, ∃ e c c',
      (visitTree heroDocument.customScalars t.2 t.1.doubled).run .empty = .error e c ∧
      c.Sound ∧ c.count = 4 ∧
      (visitTree heroDocument.customScalars t.2 t.1).run c = .ok () c' ∧
      (∃ again, (visitTree heroDocument.customScalars t.2 t.1).run
          (claimsAfterTrees heroDocument.customScalars c' [(t.1.doubled, t.2)]) = .ok () again ∧
        again.claimed =
          (claimsAfterTrees heroDocument.customScalars c' [(t.1.doubled, t.2)]).claimed) ∧
      ∀ o ∈ heroDocument.operations,
        { heroDocument with operations := heroDocument.operations ++ [o] }.check = .ok () := by
  have hne : heroDocument.trees ≠ [] := by simp [heroDocument, Document.trees]
  let t := heroDocument.trees.head hne
  obtain ⟨hstates, hagain, hcopies⟩ := claims_stand
  have hfails : (visitTree heroDocument.customScalars t.2 t.1.doubled).run .empty =
      .error _ _ := rfl
  have hrun : (visitTree heroDocument.customScalars t.2 t.1).run
      ((visitTree heroDocument.customScalars t.2 t.1.doubled).claimsAfter .empty) = .ok () _ := rfl
  have hreached : Claims.Reached heroDocument.customScalars
      ((visitTree heroDocument.customScalars t.2 t.1.doubled).claimsAfter .empty) :=
    ⟨[(t.1.doubled, t.2)], rfl⟩
  have hcheck : heroDocument.check = .ok () := rfl
  exact ⟨t, List.head_mem hne, _, _, _, hfails, (hstates _ _ hreached).1, rfl, hrun,
    hagain _ _ _ _ hrun _, (hcopies _ hcheck).1⟩

end SelectionModels
