import SelectionModels.Proofs.Obligations
import SelectionModels.Proofs.ScalarNames

/-! # The walk as a list

The walk over a tree does neither more nor less than to go through the list of the tree's
obligations, one by one, up to the first that fails. The checks that look at no claims fail as the
list says.

* `visit_eq_forM`: a visit goes through its obligations;
* `Visit.Ends`: how a visit ends, and `Visit.Ends.bind`: how two visits in turn do;
* `checkLeaf_eq`, `checkResponseNames_eq`: the checks of leaves and of response names.
-/

namespace SelectionModels

/-! ## The walk as a list -/

/-- The step of the walk that sees to an obligation. -/
def Obligation.visit (scalars : List CustomScalar) : Obligation → Visit
  | .leaf l => .ofCheck (checkLeaf scalars l)
  | .path s _ => claimPath s
  | .responseNames s => .ofCheck (checkResponseNames s)

theorem forM_flatMap {α β ε σ : Type} {xs : List α} {f : α → EStateM ε σ Unit} {g : α → List β}
    {h : β → EStateM ε σ Unit}
    (hf : ∀ x ∈ xs, f x = forM (g x) h) : forM xs f = forM (xs.flatMap g) h := by
  induction xs with
  | nil => rfl
  | cons x xs ih =>
    have hxs : forM xs f = forM (xs.flatMap g) h :=
      ih fun y hy => hf y (List.mem_cons_of_mem x hy)
    simp only [List.forM_cons, List.flatMap_cons, List.forM_append]
    rw [hf x List.mem_cons_self, hxs]

/-- Field sets are visited one after the other. -/
theorem visitEmitted_eq_forM (scalars : List CustomScalar) (es : List (FieldSet × Kind)) :
    visitEmitted scalars es = forM es fun e => visitFieldSet scalars e.2 e.1 := by
  induction es with
  | nil => rfl
  | cons e es ih => simp [visitEmitted, ih]

theorem visitFieldList_eq_forM (scalars : List CustomScalar) (kind : Kind) (fields : List Field) :
    visitFieldList scalars kind fields = forM fields (visitField scalars kind) := by
  induction fields with
  | nil => rfl
  | cons f fields ih => simp [visitFieldList, ih]

/-- A visit goes through its obligations one by one, up to the first that fails. -/
theorem visit_eq_forM (scalars : List CustomScalar) :
    (∀ f kind, visitField scalars kind f =
      forM (f.obligations kind) (Obligation.visit scalars)) ∧
    ∀ s kind, visitFieldSet scalars kind s =
      forM (s.obligations kind) (Obligation.visit scalars) := by
  apply Field.emits_induction
  · intro f hsets kind
    rw [visitField_eq, visitEmitted_eq_forM, Field.obligations_eq, List.forM_cons]
    rw [forM_flatMap fun e he => hsets kind e he e.2]
    rfl
  · intro s hfields kind
    rw [visitFieldSet_eq, visitFieldList_eq_forM, FieldSet.obligations_eq, List.forM_cons,
      List.forM_cons, forM_flatMap fun f hf => hfields f hf kind]
    rfl

/-! ## How a visit ends -/

/-- From the given claims the visit ends with the error, if there is one, else with claims of which
`P` holds. -/
def Visit.Ends (v : Visit) (c : Claims) (e? : Option DocumentError) (P : Claims → Prop) : Prop :=
  match e? with
  | some e => ∃ c', v.run c = .error e c'
  | none => ∃ c', v.run c = .ok () c' ∧ P c'

/-- Less is said of the claims in the end. -/
theorem Visit.Ends.imp {v : Visit} {c : Claims} {e? : Option DocumentError} {P Q : Claims → Prop}
    (hv : v.Ends c e? P) (hPQ : ∀ c', P c' → Q c') : v.Ends c e? Q := by
  cases e? with
  | some e => exact hv
  | none =>
    obtain ⟨c', hc', hP⟩ := hv
    exact ⟨c', hc', hPQ c' hP⟩

theorem Visit.ends_pure {c : Claims} {P : Claims → Prop} (h : P c) :
    Visit.Ends (pure ()) c none P :=
  ⟨c, rfl, h⟩

/-- One visit after the other ends with the first error of both. -/
theorem Visit.Ends.bind {v w : Visit} {c : Claims} {e? e'? : Option DocumentError}
    {P Q : Claims → Prop} (hv : v.Ends c e? P) (hw : ∀ c', P c' → w.Ends c' e'? Q) :
    Visit.Ends (do v; w) c (e?.or e'?) Q := by
  cases e? with
  | some e =>
    obtain ⟨c', hc'⟩ := hv
    exact ⟨c', by simp [hc']⟩
  | none =>
    obtain ⟨c', hc', hP⟩ := hv
    have hrun : EStateM.run (do v; w) c = w.run c' := by simp [hc']
    simpa only [Visit.Ends, hrun, Option.none_or] using hw c' hP

/-- A check makes no claims. -/
theorem Visit.run_ofCheck_eq_ok_iff {r : Except DocumentError Unit} {c c' : Claims} :
    (Visit.ofCheck r).run c = .ok () c' ↔ r = .ok () ∧ c' = c := by
  cases r with
  | ok u => simp [Visit.ofCheck, eq_comm]
  | error e => simp [Visit.ofCheck]

/-- A check ends as its verdict says. -/
theorem Visit.ends_ofCheck (c : Claims) (e? : Option DocumentError) :
    (Visit.ofCheck (verdictOf e?)).Ends c e? (· = c) := by
  cases e? with
  | none => exact ⟨c, rfl, rfl⟩
  | some e => exact ⟨c, rfl⟩

/-! ## Leaves and response names -/

/-- A leaf is checked by itself: declared, and mapped as it is declared. -/
theorem checkLeaf_eq {scalars : List CustomScalar} (h : checkScalars scalars = .ok ()) (l : Leaf) :
    checkLeaf scalars l = verdictOf (l.failure? scalars) := by
  cases l with
  | customScalar name mappedType =>
    simp only [checkLeaf, Leaf.failure?, declaredMapping?_eq_find? h]
    cases scalars.find? (·.name = name) with
    | none => rfl
    | some s => by_cases hs : s.mappedType = mappedType <;> simp [hs, verdictOf]
  | _ => rfl

/-- Names are told from those before them, which are kept with the latest first. -/
theorem firstRepeated?_eq (before rest : List String) :
    firstRepeated? before.reverse rest =
      ((rest.zipIdx before.length).find? fun (name, i) =>
        name ∈ (before ++ rest).take i).map Prod.fst := by
  induction rest generalizing before with
  | nil => rfl
  | cons name rest ih =>
    have hseen : name ∈ before.reverse ↔ name ∈ (before ++ name :: rest).take before.length := by
      simp
    by_cases hname : name ∈ before.reverse
    · rw [List.zipIdx_cons, List.find?_cons_of_pos (by simpa using hseen.mp hname)]
      simp [firstRepeated?, hname]
    · -- `name` is now one of those before
      have hnext := ih (before ++ [name])
      rw [List.zipIdx_cons, List.find?_cons_of_neg (by simpa using hname)]
      simp only [firstRepeated?, if_neg hname]
      simpa using hnext

/-- The response names of a field set are checked up to the first that repeats an earlier one. -/
theorem checkResponseNames_eq (s : FieldSet) :
    checkResponseNames s =
      verdictOf (s.repeatedName?.map (.duplicateResponseName s.modelName)) := by
  have hnames := firstRepeated?_eq [] (s.fields.map (·.responseName))
  simp only [List.reverse_nil, List.length_nil, List.nil_append] at hnames
  rw [checkResponseNames, hnames, FieldSet.repeatedName?]
  cases ((s.fields.map (·.responseName)).zipIdx.find? _).map Prod.fst <;> rfl

end SelectionModels
