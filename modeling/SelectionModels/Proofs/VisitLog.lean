import Mathlib.Data.List.Dedup
import SelectionModels.Proofs.Acceptance

/-! # The walk with a log

The walk tells no more than whether it fails. Here it is written once more with a log: every visit
of a field set is noted at its start, with the kind in which the field set is visited. The log
changes nothing else, and when the walk ends well its entries are the field sets that are declared,
in the order in which they are.

* `loggedField`, `loggedFieldSet`: the walk of `visitField` and `visitFieldSet`, with a log;
* `LoggedVisit.Logs`: a logged visit does what the plain one does, and what it notes;
* `logs_forM`: the walk through a list of obligations notes the field sets whose paths are owed;
* `visits_eq_declarations`: the walk visits what is declared, in order and as often.
-/

namespace SelectionModels

/-! ## The logged walk -/

/-- A step of the walk that also notes which field sets are visited, and in which kind. -/
abbrev LoggedVisit := EStateM DocumentError (Claims × List (FieldSet × Kind)) Unit

namespace LoggedVisit

/-- A step that visits no field set: the log stays as it is. -/
def ofVisit (v : Visit) : LoggedVisit := fun (c, log) =>
  match v.run c with
  | .ok () c' => .ok () (c', log)
  | .error e c' => .error e (c', log)

/-- The visit of a field set begins. -/
def enter (s : FieldSet) (kind : Kind) : LoggedVisit :=
  modify fun (c, log) => (c, log ++ [(s, kind)])

end LoggedVisit

mutual

def loggedField (scalars : List CustomScalar) (kind : Kind) : Field → LoggedVisit
  | .mk _ type _ _ _ fieldSets implementationFieldSets baseFieldSet => do
    LoggedVisit.ofVisit (Visit.ofCheck (checkLeaf scalars type.leaf))
    match kind with
    | .interface => loggedFieldSetOption scalars .interface baseFieldSet
    | .implementation =>
      loggedFieldSetList scalars .interface fieldSets
      loggedFieldSetList scalars .implementation implementationFieldSets
termination_by structural f => f

/-- A field set is noted before anything of it is checked. -/
def loggedFieldSet (scalars : List CustomScalar) (kind : Kind) : FieldSet → LoggedVisit
  | .mk modelName path fields implements => do
    LoggedVisit.enter ⟨modelName, path, fields, implements⟩ kind
    LoggedVisit.ofVisit (claimPath ⟨modelName, path, fields, implements⟩)
    LoggedVisit.ofVisit (Visit.ofCheck (checkResponseNames ⟨modelName, path, fields, implements⟩))
    loggedFieldList scalars kind fields
termination_by structural s => s

def loggedFieldSetOption (scalars : List CustomScalar) (kind : Kind) :
    Option FieldSet → LoggedVisit
  | none => pure ()
  | some s => loggedFieldSet scalars kind s
termination_by structural s => s

def loggedFieldSetList (scalars : List CustomScalar) (kind : Kind) : List FieldSet → LoggedVisit
  | [] => pure ()
  | s :: rest => do
    loggedFieldSet scalars kind s
    loggedFieldSetList scalars kind rest
termination_by structural sets => sets

def loggedFieldList (scalars : List CustomScalar) (kind : Kind) : List Field → LoggedVisit
  | [] => pure ()
  | f :: rest => do
    loggedField scalars kind f
    loggedFieldList scalars kind rest
termination_by structural fields => fields

end

/-- One tree, from its data field. The log goes on from tree to tree. -/
def loggedTree (scalars : List CustomScalar) (kind : Kind) (dataField : Field) : LoggedVisit := do
  LoggedVisit.ofVisit (modify Claims.newTree)
  loggedField scalars kind dataField

/-- The trees one after the other. -/
def loggedTrees (scalars : List CustomScalar) : List (Field × Kind) → LoggedVisit
  | [] => pure ()
  | (dataField, kind) :: rest => do
    loggedTree scalars kind dataField
    loggedTrees scalars rest

/-! ## The logged walk as a list -/

/-- The logged step that sees to an obligation: a field set is noted when its path is claimed. -/
def Obligation.loggedVisit (scalars : List CustomScalar) (o : Obligation) : LoggedVisit := do
  match o with
  | .path s kind => LoggedVisit.enter s kind
  | .leaf _ | .responseNames _ => pure ()
  LoggedVisit.ofVisit (o.visit scalars)

theorem loggedFieldSetList_eq_forM (scalars : List CustomScalar) (kind : Kind)
    (sets : List FieldSet) :
    loggedFieldSetList scalars kind sets = forM sets (loggedFieldSet scalars kind) := by
  induction sets with
  | nil => rfl
  | cons s sets ih => simp [loggedFieldSetList, ih]

theorem loggedFieldSetOption_eq_forM (scalars : List CustomScalar) (kind : Kind)
    (s : Option FieldSet) :
    loggedFieldSetOption scalars kind s = forM s.toList (loggedFieldSet scalars kind) := by
  cases s <;> simp [loggedFieldSetOption]

theorem loggedFieldList_eq_forM (scalars : List CustomScalar) (kind : Kind) (fields : List Field) :
    loggedFieldList scalars kind fields = forM fields (loggedField scalars kind) := by
  induction fields with
  | nil => rfl
  | cons f fields ih => simp [loggedFieldList, ih]

theorem loggedField_eq (scalars : List CustomScalar) (kind : Kind) (f : Field) :
    loggedField scalars kind f = (do
      LoggedVisit.ofVisit (Visit.ofCheck (checkLeaf scalars f.type.leaf))
      forM (f.emits kind) fun e => loggedFieldSet scalars e.2 e.1) := by
  cases f
  cases kind <;>
    simp [loggedField, Field.emits, loggedFieldSetList_eq_forM, loggedFieldSetOption_eq_forM]

theorem loggedFieldSet_eq (scalars : List CustomScalar) (kind : Kind) (s : FieldSet) :
    loggedFieldSet scalars kind s = (do
      LoggedVisit.enter s kind
      LoggedVisit.ofVisit (claimPath s)
      LoggedVisit.ofVisit (Visit.ofCheck (checkResponseNames s))
      forM s.fields (loggedField scalars kind)) := by
  cases s
  rw [loggedFieldSet, loggedFieldList_eq_forM]

/-- A logged visit goes through the same obligations as the plain one. -/
theorem logged_eq_forM (scalars : List CustomScalar) :
    (∀ f kind, loggedField scalars kind f =
      forM (f.obligations kind) (Obligation.loggedVisit scalars)) ∧
    ∀ s kind, loggedFieldSet scalars kind s =
      forM (s.obligations kind) (Obligation.loggedVisit scalars) := by
  apply Field.emits_induction
  · intro f hsets kind
    rw [loggedField_eq, Field.obligations_eq, List.forM_cons]
    rw [forM_flatMap fun e he => hsets kind e he e.2]
    simp [Obligation.loggedVisit, Obligation.visit]
  · intro s hfields kind
    rw [loggedFieldSet_eq, FieldSet.obligations_eq, List.forM_cons, List.forM_cons,
      forM_flatMap fun f hf => hfields f hf kind]
    simp [Obligation.loggedVisit, Obligation.visit]

/-! ## What is noted -/

/-- From any claims the logged visit does what the plain one does. If it ends well it has noted the
given field sets; if it fails it has noted the first of them. -/
def LoggedVisit.Logs (lv : LoggedVisit) (v : Visit) (noted : List (FieldSet × Kind)) : Prop :=
  ∀ c log, match v.run c with
    | .ok () c' => lv.run (c, log) = .ok () (c', log ++ noted)
    | .error e c' => ∃ begun, begun <+: noted ∧ lv.run (c, log) = .error e (c', log ++ begun)

namespace LoggedVisit

variable {lv lw : LoggedVisit} {v w : Visit} {xs ys : List (FieldSet × Kind)}

theorem logs_pure : Logs (pure ()) (pure ()) [] := by
  intro c log
  simp

theorem logs_ofVisit (v : Visit) : Logs (ofVisit v) v [] := by
  intro c log
  have hrun : (ofVisit v).run (c, log) = match v.run c with
    | .ok () c' => .ok () (c', log)
    | .error e c' => .error e (c', log) := rfl
  cases hv : v.run c with
  | ok u c' => simp [hrun, hv]
  | error e c' => exact ⟨[], List.prefix_rfl, by simp [hrun, hv]⟩

/-- One visit after the other notes what both do. -/
theorem Logs.bind (hv : Logs lv v xs) (hw : Logs lw w ys) :
    Logs (do lv; lw) (do v; w) (xs ++ ys) := by
  intro c log
  have hv := hv c log
  cases hvrun : v.run c with
  | error e c' =>
    -- the second visit does not begin
    obtain ⟨begun, hbegun, hlv⟩ := by simpa only [hvrun] using hv
    simp only [EStateM.run_bind, hvrun, hlv]
    exact ⟨begun, hbegun.trans (List.prefix_append xs ys), rfl⟩
  | ok u c' =>
    have hlv : lv.run (c, log) = .ok () (c', log ++ xs) := by simpa only [hvrun] using hv
    have hw := hw c' (log ++ xs)
    simp only [EStateM.run_bind, hvrun, hlv]
    cases hwrun : w.run c' with
    | ok u' c'' => simpa [hwrun] using hw
    | error e c'' =>
      obtain ⟨begun, hbegun, hlw⟩ := by simpa only [hwrun] using hw
      exact ⟨xs ++ begun, (List.prefix_append_right_inj xs).mpr hbegun, by simp [hlw]⟩

/-- A field set is noted at the start, whether or not the visit ends well. -/
theorem Logs.enter (hv : Logs lv v []) (s : FieldSet) (kind : Kind) :
    Logs (do enter s kind; lv) v [(s, kind)] := by
  intro c log
  have hrun : EStateM.run (do LoggedVisit.enter s kind; lv) (c, log) =
      lv.run (c, log ++ [(s, kind)]) := rfl
  have hv := hv c (log ++ [(s, kind)])
  cases hvrun : v.run c with
  | ok u c' => simpa [hvrun, hrun] using hv
  | error e c' =>
    -- the rest notes nothing, so the field set is all that is in the log
    obtain ⟨begun, hbegun, hlv⟩ := by simpa only [hvrun] using hv
    rw [List.prefix_nil.mp hbegun, List.append_nil] at hlv
    exact ⟨[(s, kind)], List.prefix_rfl, by rw [hrun, hlv]⟩

end LoggedVisit

open LoggedVisit

variable (scalars : List CustomScalar)

/-- One step notes the field set whose path is owed, if one is. -/
theorem logs_loggedVisit (o : Obligation) :
    Logs (o.loggedVisit scalars) (o.visit scalars) o.emitted?.toList := by
  cases o with
  | path s kind => exact (logs_ofVisit _).enter s kind
  | leaf l => exact logs_ofVisit _
  | responseNames s => exact logs_ofVisit _

/-- The walk through a list of obligations notes the field sets whose paths are owed. -/
theorem logs_forM (os : List Obligation) :
    Logs (forM os (Obligation.loggedVisit scalars)) (forM os (Obligation.visit scalars))
      (os.filterMap Obligation.emitted?) := by
  induction os with
  | nil => exact logs_pure
  | cons o os ih =>
    have hnoted : (o :: os).filterMap Obligation.emitted? =
        o.emitted?.toList ++ os.filterMap Obligation.emitted? := by
      cases ho : o.emitted? <;> simp [ho]
    rw [List.forM_cons, List.forM_cons, hnoted]
    exact (logs_loggedVisit scalars o).bind ih

/-- The walk over a tree notes the emission of its data field. -/
theorem logs_loggedTree (kind : Kind) (dataField : Field) :
    Logs (loggedTree scalars kind dataField) (visitTree scalars kind dataField)
      (dataField.emission kind) := by
  rw [loggedTree, visitTree, (logged_eq_forM scalars).1, (visit_eq_forM scalars).1]
  exact (logs_ofVisit _).bind (logs_forM scalars _)

theorem logs_loggedTrees (trees : List (Field × Kind)) :
    Logs (loggedTrees scalars trees) (visitTrees scalars trees)
      (trees.flatMap fun t => t.1.emission t.2) := by
  induction trees with
  | nil => exact logs_pure
  | cons t trees ih => exact (logs_loggedTree scalars t.2 t.1).bind ih

/-! ## What the tree has declared

The log is no part of the check itself, but the paths in it are: a tree that ends well has put them
down as its own. -/

theorem emitted_of_visit {scalars : List CustomScalar} {o : Obligation} {c c' : Claims}
    (h : (o.visit scalars).run c = .ok () c') :
    c'.emitted = c.emitted ++ o.emitted?.toList.map (·.1.path) := by
  cases o with
  | leaf l => simp [(Visit.run_ofCheck_eq_ok_iff.mp h).2, Obligation.emitted?]
  | responseNames s => simp [(Visit.run_ofCheck_eq_ok_iff.mp h).2, Obligation.emitted?]
  | path s kind => simp [(run_claimPath_eq_ok_iff.mp h).2, Obligation.emitted?]

theorem emitted_of_forM {scalars : List CustomScalar} {os : List Obligation} {c c' : Claims}
    (h : EStateM.run (forM os (Obligation.visit scalars)) c = .ok () c') :
    c'.emitted = c.emitted ++ (os.filterMap Obligation.emitted?).map (·.1.path) := by
  induction os generalizing c with
  | nil =>
    cases h
    simp
  | cons o os ih =>
    rw [List.forM_cons, EStateM.run_bind] at h
    cases hrun : (o.visit scalars).run c with
    | error e c'' => simp [hrun] at h
    | ok u c'' =>
      have hrest := ih (c := c'') (by simpa [hrun] using h)
      rw [hrest, emitted_of_visit hrun]
      cases ho : o.emitted? <;> simp [ho]

theorem emitted_of_visitTree {scalars : List CustomScalar} {kind : Kind} {dataField : Field}
    {c c' : Claims} (h : (visitTree scalars kind dataField).run c = .ok () c') :
    c'.emitted = (dataField.emission kind).map (·.1.path) := by
  rw [visitTree, (visit_eq_forM scalars).1] at h
  exact emitted_of_forM (c := c.newTree) h

/-! ## What is counted -/

/-- As many paths are claimed as different paths have been met. -/
theorem Claims.Records.count_eq {c : Claims} {tree : Nat} {met : List (Nat × Obligation)}
    (h : c.Records tree met) :
    c.count = ((met.filterMap (·.2.emitted?)).map (·.1.path)).dedup.length := by
  have hmem : ∀ path, path ∈ c.claimed.map Prod.fst ↔
      path ∈ ((met.filterMap (·.2.emitted?)).map (·.1.path)).dedup := by
    intro path
    rw [← Claims.isSome_claim?_iff, List.mem_dedup, List.mem_map]
    constructor
    · intro hclaim
      obtain ⟨s, hs⟩ := Option.isSome_iff_exists.mp hclaim
      obtain ⟨hpath, t, kind, hmet⟩ := h.mem_of_claim? path s hs
      exact ⟨(s, kind), List.mem_filterMap.mpr ⟨_, hmet, rfl⟩, hpath⟩
    · rintro ⟨⟨s, kind⟩, he, rfl⟩
      obtain ⟨⟨t, o⟩, hmet, ho⟩ := List.mem_filterMap.mp he
      have ho : o = .path s kind := Obligation.emitted?_eq_some_iff.mp ho
      subst ho
      simp [h.claim?_of_mem t s kind hmet]
  have hperm := (List.perm_ext_iff_of_nodup h.nodup_claimed (List.nodup_dedup _)).mpr hmem
  have hlength := hperm.length_eq
  rwa [List.length_map] at hlength

/-- The different names declared are those of the different paths emitted. -/
theorem Document.dedup_typeName_compiled (d : Document) :
    (d.compiled.declarations.map (·.typeName)).dedup =
      (d.emission.map (·.1.path)).dedup.map ModelPath.typeName := by
  rw [← List.dedup_map_of_injective ModelPath.typeName_injective, d.declarations_compiled]
  simp [Function.comp_def]

/-- The walk over an accepted document claims as many paths as names are declared. -/
theorem Document.exists_claims_of_check {d : Document} (h : d.check = .ok ()) :
    ∃ c, (visitTrees d.customScalars d.trees).run .empty = .ok () c ∧
      c.count = (d.compiled.declarations.map (·.typeName)).dedup.length := by
  obtain ⟨hscalars, hfailure⟩ := d.check_eq_ok_iff_firstFailure?.mp h
  obtain ⟨c, hrun, last, hc⟩ := hfailure ▸ d.walk_ends hscalars
  refine ⟨c, hrun, ?_⟩
  rw [hc.count_eq, d.filterMap_obligations, d.dedup_typeName_compiled, List.length_map]

/-! ## The walk and the declarations -/

/-- Whatever was claimed before, a walk over a tree that ends well visits the field sets whose
declarations the tree nests, in order and as often, each in the kind in which it is declared. So
the declarations of a document that compiles are as many as the visits of its check, and the paths
claimed in the end are as many as the names declared. -/
theorem visits_eq_declarations :
    (∀ (scalars : List CustomScalar) (kind : Kind) (dataField : Field) (c c' : Claims)
        (log : List (FieldSet × Kind)),
      (visitTree scalars kind dataField).run c = .ok () c' →
      ∃ visited, (loggedTree scalars kind dataField).run (c, log) = .ok () (c', log ++ visited) ∧
        visited.map (·.1.path) = c'.emitted ∧
        visited.map (fun e => (e.1.path.typeName, e.2)) =
          (Declaration.preorderList (dataField.nested kind)).map fun a => (a.typeName, a.kind)) ∧
    ∀ (d : Document) (compiled : CompiledDocument), d.compile = .ok compiled →
      ∃ c visited, (visitTrees d.customScalars d.trees).run .empty = .ok () c ∧
        (loggedTrees d.customScalars d.trees).run (.empty, []) = .ok () (c, visited) ∧
        compiled.declarationCount = visited.length ∧
        c.count = (compiled.declarations.map (·.typeName)).dedup.length := by
  constructor
  · intro scalars kind dataField c c' log hrun
    have hlogs := logs_loggedTree scalars kind dataField c log
    rw [hrun] at hlogs
    -- both sides are made from the emission of the data field
    refine ⟨dataField.emission kind, hlogs, (emitted_of_visitTree hrun).symm, ?_⟩
    rw [dataField.preorderList_nested kind]
    simp [Function.comp_def]
  · intro d compiled h
    obtain ⟨hcheck, rfl⟩ := Document.compile_eq_ok_iff.mp h
    obtain ⟨c, hrun, hcount⟩ := d.exists_claims_of_check hcheck
    have hlogs := logs_loggedTrees d.customScalars d.trees .empty []
    rw [hrun] at hlogs
    refine ⟨c, d.emission, hrun, hlogs, ?_, hcount⟩
    rw [CompiledDocument.declarationCount_eq_length, d.declarations_compiled, List.length_map]

/-- The query's tree visits four field sets, the whole document eight, on four paths. -/
theorem visits_heroDocument :
    (∃ t ∈ heroDocument.trees, ∃ c visited,
      (visitTree heroDocument.customScalars t.2 t.1).run .empty = .ok () c ∧
      (loggedTree heroDocument.customScalars t.2 t.1).run (.empty, []) = .ok () (c, visited) ∧
      visited.map (·.1.path) = c.emitted ∧
      visited.map (fun e => (e.1.path.typeName, e.2)) =
        (Declaration.preorderList (t.1.nested t.2)).map (fun a => (a.typeName, a.kind)) ∧
      visited.length = 4) ∧
    ∃ c visited,
      (loggedTrees heroDocument.customScalars heroDocument.trees).run (.empty, []) =
        .ok () (c, visited) ∧
      visited.length = 8 ∧ c.count = 4 := by
  constructor
  · have hne : heroDocument.trees ≠ [] := by simp [heroDocument, Document.trees]
    let t := heroDocument.trees.head hne
    have hrun : (visitTree heroDocument.customScalars t.2 t.1).run .empty = .ok () _ := rfl
    obtain ⟨visited, hlogged, hpaths, hnames⟩ := visits_eq_declarations.1 _ _ _ _ _ [] hrun
    have hlength := congrArg List.length hnames
    rw [List.length_map] at hlength
    exact ⟨t, List.head_mem hne, _, visited, hrun, hlogged, hpaths, hnames, hlength⟩
  · obtain ⟨c, visited, -, hlogged, hvisits, hcount⟩ :=
      visits_eq_declarations.2 heroDocument _ compile_heroDocument
    exact ⟨c, visited, hlogged, hvisits ▸ rfl, hcount.trans (by decide +kernel)⟩

end SelectionModels
