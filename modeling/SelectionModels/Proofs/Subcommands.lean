import SelectionModels.Proofs.AllOrNothing
import SelectionModels.Proofs.Emission
import SelectionModels.Proofs.Verdict

/-! # Commands beside one another

The three commands look at the same documents, each in its own way: a check goes through all of
them, the models stop at the first that is rejected, and the registries only ask for the scalars.
Still they agree. An error of the scalars comes before all others and is never found later, and a
document that has passed its check gives a registry without being refused once more.

* `Document.checkScalars_eq_error_iff`: the errors of the scalars are those errors of a document
  that are about names of scalars;
* `Document.compile_eq_error_iff`: a document is not compiled for what its check finds;
* `subcommands_agree`: what the three commands come to on one list of inputs.
-/

namespace SelectionModels

/-! ## Errors of scalars -/

/-- The error is about the names of custom scalars. -/
def DocumentError.OfScalars : DocumentError → Prop
  | .duplicateScalar _ => True
  | .scalarNameClash _ _ _ => True
  | _ => False

/-- A scalar is refused only for a name that it takes. -/
theorem ofScalars_of_checkNames {earlier : List ScalarNames} {s : ScalarNames} {e : DocumentError}
    (h : checkNames earlier s = .error e) : e.OfScalars := by
  unfold checkNames at h
  split at h
  · cases h; trivial
  · split at h
    · cases h; trivial
    · split at h
      · cases h; trivial
      · cases h

theorem ofScalars_of_checkNamesAfter {earlier rest : List ScalarNames} {e : DocumentError}
    (h : checkNamesAfter earlier rest = .error e) : e.OfScalars := by
  induction rest generalizing earlier with
  | nil => cases h
  | cons s rest ih =>
    rw [checkNamesAfter] at h
    cases hs : checkNames earlier s with
    | error e' =>
      obtain rfl : e' = e := by simpa [hs, bind, Except.bind] using h
      exact ofScalars_of_checkNames hs
    | ok u => exact ih (by simpa [hs, bind, Except.bind] using h)

/-- What is wrong with a leaf is wrong with a use of a scalar, not with its names. -/
theorem Leaf.not_ofScalars_of_failure? {scalars : List CustomScalar} {l : Leaf} {e : DocumentError}
    (h : l.failure? scalars = some e) : ¬ e.OfScalars := by
  unfold Leaf.failure? at h
  split at h
  · split at h
    · cases h; exact not_false
    · split at h
      · cases h
      · cases h; exact not_false
  · cases h

theorem Obligation.not_ofScalars_of_failure? {scalars : List CustomScalar}
    {earlier : List (Nat × Obligation)} {tree : Nat} {o : Obligation} {e : DocumentError}
    (h : o.failure? scalars earlier tree = some e) : ¬ e.OfScalars := by
  cases o with
  | leaf l => exact l.not_ofScalars_of_failure? h
  | path s kind =>
    simp only [failure?] at h
    split at h
    · cases h; exact id
    · cases h
  | responseNames s =>
    obtain ⟨name, -, rfl⟩ := Option.map_eq_some_iff.mp h
    exact id

/-- What a tree owes never fails for the names of scalars. -/
theorem not_ofScalars_of_firstFailure? {scalars : List CustomScalar}
    {earlier os : List (Nat × Obligation)} {e : DocumentError}
    (h : firstFailure? scalars earlier os = some e) : ¬ e.OfScalars := by
  obtain ⟨x, -, before, hfails⟩ := exists_failure?_of_firstFailure? h
  exact Obligation.not_ofScalars_of_failure? hfails

/-- The scalars of a document fail just when its check fails for the names of scalars. -/
theorem Document.checkScalars_eq_error_iff {d : Document} {e : DocumentError} :
    checkScalars d.customScalars = .error e ↔ d.check = .error e ∧ e.OfScalars := by
  rw [check_eq_verdict, verdict]
  cases hscalars : checkScalars d.customScalars with
  | error e' =>
    simp only [Except.error.injEq]
    constructor
    · rintro rfl
      exact ⟨rfl, ofScalars_of_checkNamesAfter hscalars⟩
    · rintro ⟨rfl, -⟩
      rfl
  | ok u =>
    simp only [reduceCtorEq, false_iff, not_and]
    intro hverdict
    cases hfailure : firstFailure? d.customScalars [] d.obligations with
    | none => simp [hfailure, verdictOf] at hverdict
    | some e' =>
      obtain rfl : e' = e := by simpa [hfailure, verdictOf] using hverdict
      exact not_ofScalars_of_firstFailure? hfailure

/-- The registry is refused for what the check reports first, if that is about the names of
scalars. -/
theorem Document.ofScalars_eq_error_iff {d : Document} {e : DocumentError} :
    Registry.ofScalars d.ns d.customScalars = .error e ↔ d.check = .error e ∧ e.OfScalars := by
  rw [← d.checkScalars_eq_error_iff, Registry.ofScalars]
  cases checkScalars d.customScalars <;> simp [bind, Except.bind, pure, Except.pure]

/-- A document is not compiled for what its check finds, and for nothing else. -/
theorem Document.compile_eq_error_iff {d : Document} {e : DocumentError} :
    d.compile = .error e ↔ d.check = .error e := by
  cases hcheck : d.check with
  | error e' => simp [compile, hcheck, bind, Except.bind]
  | ok u =>
    have hcompile : d.compile = .ok d.compiled := compile_eq_ok_iff.mpr ⟨hcheck, rfl⟩
    simp [hcompile]

namespace CommandLine

open Files (Store)
open Json (Value)

variable {s : Store}

/-! ## What is reported -/

/-- What a check prints for a document. On a terminal the first word is bold and coloured. -/
def Source.report (coloured : Bool) (source : Source) : String :=
  match source.document.check with
  | .ok () => (if coloured then "\x1b[1;32mok\x1b[0m" else "ok") ++ " " ++ source.path
  | .error e =>
    (if coloured then "\x1b[1;31merror\x1b[0m" else "error") ++ " " ++ source.path ++ ": " ++
      e.message

/-- What a check prints in all: a line for each document, and one with the number of documents that
are rejected, if any are. -/
def checkText (coloured : Bool) (sources : List Source) : String :=
  String.join (sources.map fun source => source.report coloured ++ "\n") ++
    if sources.countP (·.isRejected) = 0 then ""
    else (if coloured then "\x1b[1;31merror:\x1b[0m" else "error:") ++ " " ++
      toString (sources.countP (·.isRejected)) ++ " document(s) violate IR preconditions\n"

/-- The line of a verdict is the report of its source. -/
theorem Source.line_verdict (coloured : Bool) (source : Source) :
    source.verdict.line coloured = source.report coloured := by
  unfold verdict report
  cases source.document.check with
  | ok u => cases coloured <;> rfl
  | error e => cases coloured <;> simp [Notice.line, Text.styled, String.append_assoc] <;> rfl

/-- What is printed of the verdicts is one report after the other, each on a line of its own. -/
theorem noticeText_verdict (coloured : Bool) (sources : List Source) :
    noticeText coloured (sources.map (·.verdict)) =
      String.join (sources.map fun source => source.report coloured ++ "\n") := by
  simp only [noticeText, List.map_map, Function.comp_def, Source.line_verdict]

/-- Checking leaves the store as it is and prints nothing but notices. -/
theorem runOn_check {inputs : List String} {sources : List Source}
    (h : outcome (loadSources s.view inputs) = .ok sources) :
    runOn s (.check inputs) =
      (⟨sources.map (·.verdict), "",
        if sources.countP (·.isRejected) = 0 then none
        else some (.violations (sources.countP (·.isRejected)))⟩, s) := by
  have hplan : Id.run (plan s.view (.check inputs)) =
      (checkAll sources).map fun _ => .nothing := by
    rw [plan, run_onSources, h]
  have hnotices : (Id.run (plan s.view (.check inputs))).notices = sources.map (·.verdict) := by
    rw [hplan]
    rfl
  by_cases hbad : sources.countP (·.isRejected) = 0
  · have hresult : (Id.run (plan s.view (.check inputs))).result = .ok .nothing := by
      rw [hplan, checkAll, Work.map, if_pos hbad]
      rfl
    rw [runOn_of_ok hresult, hnotices, if_pos hbad]
    rfl
  · have hresult : (Id.run (plan s.view (.check inputs))).result =
        .error (.violations (sources.countP (·.isRejected))) := by
      rw [hplan, checkAll, Work.map, if_neg hbad]
      rfl
    rw [runOn_of_error hresult, hnotices, if_neg hbad]

/-- The standard error of a check: the notices, and behind them why it fails, if it does. -/
theorem stderr_check (coloured : Bool) (sources : List Source) :
    Transcript.stderr ⟨sources.map (·.verdict), "",
      if sources.countP (·.isRejected) = 0 then none
      else some (.violations (sources.countP (·.isRejected)))⟩ coloured =
    checkText coloured sources := by
  rw [Transcript.stderr, noticeText_verdict, checkText]
  by_cases hbad : sources.countP (·.isRejected) = 0
  · rw [if_pos hbad, if_pos hbad]
  · rw [if_neg hbad, if_neg hbad]
    dsimp only
    have hmessage : (Failure.violations (sources.countP (·.isRejected))).message =
        toString (sources.countP (·.isRejected)) ++ " document(s) violate IR preconditions" := rfl
    rw [hmessage]
    cases coloured <;> simp only [Text.styled, String.append_assoc] <;> rfl

/-! ## What is made -/

variable {inputs : List String} {sources : List Source}

theorem forall₂_map_of_forall {α β : Type} {R : α → β → Prop} {f : α → β} {xs : List α}
    (h : ∀ x ∈ xs, R x (f x)) : List.Forall₂ R xs (xs.map f) := by
  rw [List.forall₂_map_right_iff, List.forall₂_same]
  exact h

/-- What can be made of all documents is put out, where it may be written. -/
theorem delivered_of_makes (hs : s.Proper)
    (hload : outcome (loadSources s.view inputs) = .ok sources) (p : Product)
    {o : OutputSettings} (hwritable : o.Writable s) {values : List Value}
    (hvalues : List.Forall₂ (fun source v => p.make source.document = .ok v) sources values) :
    o.Delivered s ((valueOf values).render o.layout) (runOn s (p.command ⟨inputs, o, false⟩)) :=
  delivered_of_ok hs ((plan_eq_ok_iff_sources rfl).mpr ⟨sources, values, hload, hvalues, rfl⟩)
    hwritable

/-- A product that may be written where it is wanted is put out if it can be made of all documents,
and else the run fails. -/
theorem failure_eq_none_iff (hs : s.Proper)
    (hload : outcome (loadSources s.view inputs) = .ok sources) (p : Product)
    {o : OutputSettings} (hwritable : o.Writable s) :
    (runOn s (p.command ⟨inputs, o, false⟩)).1.failure = none ↔
      ∀ source ∈ sources, ∃ v, p.make source.document = .ok v := by
  constructor
  · intro hfailure
    cases hresult : (Id.run (plan s.view (p.command ⟨inputs, o, false⟩))).result with
    | error f => simp [runOn_of_error hresult] at hfailure
    | ok delivery =>
      obtain ⟨sources', values, hload', hvalues, -⟩ := (plan_eq_ok_iff_sources rfl).mp hresult
      obtain rfl := Except.ok.inj (hload.symm.trans hload')
      exact exists_forall₂_iff.mp ⟨values, hvalues⟩
  · intro hmake
    obtain ⟨values, hvalues⟩ := exists_forall₂_iff.mpr hmake
    exact (delivered_of_makes hs hload p hwritable hvalues).1

/-- A run fails with the first document that nothing can be made of. -/
theorem failure_of_first {command : Command} {t : Target} (h : t.noOp = false) {α : Type}
    {work : Source → Work α} {toJson : α → Value}
    (hplan : plan s.view command = produce s.view command t work toJson)
    {before after : List Source} {source : Source} {f : Failure}
    (hload : outcome (loadSources s.view t.inputs) = .ok (before ++ source :: after))
    (hbefore : ∀ b ∈ before, ∃ a, (work b).result = .ok a)
    (hsource : (work source).result = .error f) : (runOn s command).1.failure = some f := by
  have hresult : (Id.run (plan s.view command)).result = .error f := by
    rw [hplan, result_produce h, hload]
    change _ <$> (Work.forEach work (before ++ source :: after)).result = _
    rw [forEach_eq_error hbefore hsource]
    rfl
  rw [runOn_of_error hresult]

/-- An accepted document is compiled. -/
theorem make_models_of_check {d : Document} (h : d.check = .ok ()) :
    Product.models.make d = .ok d.compiled.toJson := by
  rw [Product.make, Document.compile_eq_ok_iff.mpr ⟨h, rfl⟩]
  rfl

/-- An accepted document has a registry. -/
theorem make_scalars_of_check {d : Document} (h : d.check = .ok ()) :
    Product.scalars.make d = .ok d.compiled.registry.toJson := by
  rw [Product.make, Registry.ofScalars, d.checkScalars_of_check h]
  rfl

/-- Nothing is rejected when everything can be compiled. -/
theorem forall_make_models_iff :
    (∀ source ∈ sources, ∃ v, Product.models.make source.document = .ok v) ↔
      ∀ source ∈ sources, source.document.check = .ok () := by
  refine forall₂_congr fun source _ => ?_
  rw [Product.make]
  cases h : source.document.compile with
  | error e => simp [Document.compile_eq_error_iff.mp h]
  | ok c => simp [(Document.compile_eq_ok_iff.mp h).1]

/-- Registries can be made of everything when no check finds an error of scalars. -/
theorem forall_make_scalars_iff :
    (∀ source ∈ sources, ∃ v, Product.scalars.make source.document = .ok v) ↔
      ∀ source ∈ sources, ∀ e, source.document.check = .error e → ¬ e.OfScalars := by
  refine forall₂_congr fun source _ => ?_
  rw [Product.make]
  cases h : Registry.ofScalars source.document.ns source.document.customScalars with
  | error e => simpa using ⟨e, Document.ofScalars_eq_error_iff.mp h⟩
  | ok r =>
    have hnone : ∀ e, source.document.check = .error e → ¬ e.OfScalars := by
      intro e hcheck hscalar
      simp [Document.ofScalars_eq_error_iff.mpr ⟨hcheck, hscalar⟩] at h
    simpa using hnone

/-- No source is rejected if every document is accepted. -/
theorem countP_isRejected_eq_zero_iff :
    sources.countP (·.isRejected) = 0 ↔ ∀ source ∈ sources, source.document.check = .ok () := by
  rw [List.countP_eq_zero]
  refine forall₂_congr fun source _ => ?_
  cases h : source.document.check <;> simp [Source.isRejected, h, Except.isOk, Except.toBool]

/-! ## Three commands on one list of inputs -/

/-- The member of an object under a key. -/
def member? (key : String) : Value → Option Value
  | .object members => members.lookup key
  | _ => none

/-- On inputs that all resolve and decode, with outputs that may be written, the commands agree: the
check prints one report for each document, in their order, and fails with the number of those that
it rejects, if any; the models fail just when the check does, with the first document that it
rejects and for the error that it reports; the registries fail just when the check reports an error
of scalars, with the first such document and that error; and when the models are put out, each has
the registry in it that is put out for its document. -/
theorem subcommands_agree (hs : s.Proper) {groups : List (List String)}
    (hresolve : List.Forall₂ (StandsFor s) inputs groups)
    (hload : List.Forall₂ (fun path source => source.path = path ∧ Holds s path source.document)
      groups.flatten sources)
    {om os : OutputSettings} (hom : om.Writable s) (hos : os.Writable s) :
    let check := (runOn s (.check inputs)).1
    let models := runOn s (.models ⟨inputs, om, false⟩)
    let scalars := runOn s (.scalars ⟨inputs, os, false⟩)
    ((∀ coloured, check.stderr coloured = checkText coloured sources) ∧ check.stdout = "" ∧
      check.failure = if sources.countP (·.isRejected) = 0 then none
        else some (.violations (sources.countP (·.isRejected)))) ∧
    ((models.1.failure = none ↔ check.failure = none) ∧
      ∀ before source after e, sources = before ++ source :: after →
        (∀ b ∈ before, b.document.check = .ok ()) → source.document.check = .error e →
          models.1.failure = some (.rejected source.path e)) ∧
    ((scalars.1.failure ≠ none ↔
        ∃ source ∈ sources, ∃ e, source.document.check = .error e ∧ e.OfScalars) ∧
      ∀ before source after e, sources = before ++ source :: after →
        (∀ b ∈ before, ∀ e, b.document.check = .error e → ¬ e.OfScalars) →
          source.document.check = .error e → e.OfScalars →
            scalars.1.failure = some (.badScalars source.path e)) ∧
    (models.1.failure = none → ∃ vs ws,
      List.Forall₂ (fun source v => Product.models.make source.document = .ok v) sources vs ∧
      om.Delivered s ((valueOf vs).render om.layout) models ∧
      os.Delivered s ((valueOf ws).render os.layout) scalars ∧
      List.Forall₂ (fun v w => member? "registry" v = some w) vs ws) := by
  have hsources := (loadSources_eq_ok_iff hs).mpr ⟨groups, hresolve, hload⟩
  have hmodels := failure_eq_none_iff hs hsources .models hom
  have hscalars := failure_eq_none_iff hs hsources .scalars hos
  rw [forall_make_models_iff] at hmodels
  rw [forall_make_scalars_iff] at hscalars
  simp only [Product.command] at hmodels hscalars
  intro check models scalars
  refine ⟨⟨?_, ?_, ?_⟩, ⟨?_, ?_⟩, ⟨?_, ?_⟩, ?_⟩
  · -- one report for each document
    intro coloured
    simp only [check, runOn_check hsources]
    exact stderr_check coloured sources
  · simp only [check, runOn_check hsources]
  · simp only [check, runOn_check hsources]
  · -- neither fails if no document is rejected
    simp only [check, models, runOn_check hsources, hmodels, ← countP_isRejected_eq_zero_iff]
    split <;> simp_all
  · -- the documents before the first one that is rejected are compiled
    intro before source after e hsplit hbefore hsource
    refine failure_of_first rfl rfl (hsplit ▸ hsources) (fun b hb => ?_) ?_
    · obtain ⟨c, hc⟩ : ∃ c, b.document.compile = .ok c :=
        ⟨_, Document.compile_eq_ok_iff.mpr ⟨hbefore b hb, rfl⟩⟩
      exact ⟨c, (result_compile_eq_ok_iff b c).mpr hc⟩
    · rw [Source.compile, Document.compile_eq_error_iff.mpr hsource]
      rfl
  · rw [ne_eq, hscalars]
    simp
  · -- the documents before it may be rejected, but not for their scalars, so they have registries
    intro before source after e hsplit hbefore hsource hscalar
    refine failure_of_first rfl rfl (hsplit ▸ hsources) (fun b hb => ?_) ?_
    · cases hr : Registry.ofScalars b.document.ns b.document.customScalars with
      | ok r => exact ⟨r, (result_registry_eq_ok_iff b r).mpr hr⟩
      | error e' =>
        obtain ⟨hcheck, hscalar'⟩ := b.document.ofScalars_eq_error_iff.mp hr
        exact absurd hscalar' (hbefore b hb e' hcheck)
    · rw [Source.registry, Document.ofScalars_eq_error_iff.mpr ⟨hsource, hscalar⟩]
      rfl
  · intro hnone
    have hcheck := hmodels.mp hnone
    have hvs : List.Forall₂ (fun source v => Product.models.make source.document = .ok v) sources
        (sources.map fun source => source.document.compiled.toJson) :=
      forall₂_map_of_forall fun source hsource => make_models_of_check (hcheck source hsource)
    have hws : List.Forall₂ (fun source w => Product.scalars.make source.document = .ok w) sources
        (sources.map fun source => source.document.compiled.registry.toJson) :=
      forall₂_map_of_forall fun source hsource => make_scalars_of_check (hcheck source hsource)
    refine ⟨_, _, hvs, delivered_of_makes hs hsources .models hom hvs,
      delivered_of_makes hs hsources .scalars hos hws, ?_⟩
    -- the registry is the last member of what a document is compiled to
    rw [List.forall₂_map_left_iff, List.forall₂_map_right_iff, List.forall₂_same]
    exact fun source _ => rfl

/-! ## A document and one that repeats a scalar -/

/-- The text of a document in which one custom scalar stands twice. -/
def datesText : String :=
  "\x7b\"namespace\":\"com.example\"," ++
    "\"custom_scalars\":[\x7b\"name\":\"Date\"\x7d,\x7b\"name\":\"Date\"\x7d]\x7d"

/-- A document that declares a scalar twice. -/
def datesDocument : Document :=
  ⟨"com.example", [⟨"Date", none, none, none⟩, ⟨"Date", none, none, none⟩], [], []⟩

/-- Two files with documents, of which the second is rejected. -/
def datesStore : Store where
  entries := [("date.json", .file (textBytes dateText)),
    ("dates.json", .file (textBytes datesText))]
  current := []

theorem proper_datesStore : datesStore.Proper where
  root := by
    refine .directory (by decide) (by decide) ?_
    simp only [datesStore, List.forall_mem_cons]
    exact ⟨.file _, .file _, by simp⟩
  current := ⟨_, rfl⟩

/-- A file in a directory that is not there. -/
def saved : OutputSettings := ⟨some "kotlin/models.json", false⟩

def printed : OutputSettings := ⟨none, false⟩

theorem writable_datesStore : saved.Writable datesStore ∧ printed.Writable datesStore := by
  constructor
  · rintro _ ⟨⟩
    decide
  · rintro _ ⟨⟩

theorem holds_datesStore : Holds datesStore "date.json" dateDocument ∧
    Holds datesStore "dates.json" datesDocument :=
  ⟨⟨textBytes dateText, rfl, decode_dateText⟩, ⟨textBytes datesText, rfl, by decide +kernel⟩⟩

/-- The first document passes and has its registry put out, both for itself and with its models; the
second one stops all commands with the same error. -/
theorem subcommands_agree_datesStore :
    ((runOn datesStore (.check ["date.json", "dates.json"])).1.stderr false =
        "ok date.json\n" ++
        "error dates.json: custom scalar `Date` is declared more than once\n" ++
        "error: 1 document(s) violate IR preconditions\n" ∧
      (runOn datesStore (.check ["date.json", "dates.json"])).1.stderr true =
        "\x1b[1;32mok\x1b[0m date.json\n" ++
        "\x1b[1;31merror\x1b[0m dates.json: custom scalar `Date` is declared more than once\n" ++
        "\x1b[1;31merror:\x1b[0m 1 document(s) violate IR preconditions\n" ∧
      (runOn datesStore (.models ⟨["date.json", "dates.json"], saved, false⟩)).1.failure =
        some (.rejected "dates.json" (.duplicateScalar "Date")) ∧
      (runOn datesStore (.scalars ⟨["date.json", "dates.json"], printed, false⟩)).1.failure =
        some (.badScalars "dates.json" (.duplicateScalar "Date"))) ∧
    ∃ v w, member? "registry" v = some w ∧
      saved.Delivered datesStore (v.render .pretty)
        (runOn datesStore (.models ⟨["date.json"], saved, false⟩)) ∧
      printed.Delivered datesStore (w.render .pretty)
        (runOn datesStore (.scalars ⟨["date.json"], printed, false⟩)) := by
  have hdate : dateDocument.check = .ok () := by decide +kernel
  have hdates : datesDocument.check = .error (.duplicateScalar "Date") := by decide +kernel
  have hfirst : StandsFor datesStore "date.json" ["date.json"] := .path (by decide)
  have hsecond : StandsFor datesStore "dates.json" ["dates.json"] := .path (by decide)
  rcases writable_datesStore with ⟨hsaved, hprinted⟩
  constructor
  · have hload : List.Forall₂
        (fun path (source : Source) =>
          source.path = path ∧ Holds datesStore path source.document)
        ["date.json", "dates.json"]
        [⟨"date.json", dateDocument⟩, ⟨"dates.json", datesDocument⟩] :=
      .cons ⟨rfl, holds_datesStore.1⟩ (.cons ⟨rfl, holds_datesStore.2⟩ .nil)
    rcases subcommands_agree proper_datesStore (.cons hfirst (.cons hsecond .nil)) hload
        hsaved hprinted with ⟨⟨htext, -⟩, ⟨-, hmodels⟩, ⟨-, hscalars⟩, -⟩
    have hbefore : ∀ b ∈ [(⟨"date.json", dateDocument⟩ : Source)], b.document.check = .ok () := by
      simpa using hdate
    refine ⟨?_, ?_, hmodels [_] _ [] _ rfl hbefore hdates, ?_⟩
    · rw [htext]
      simp only [checkText, List.map_cons, List.map_nil, Source.report, hdate, hdates]
      decide +kernel
    · rw [htext]
      simp only [checkText, List.map_cons, List.map_nil, Source.report, hdate, hdates]
      decide +kernel
    · refine hscalars [_] _ [] _ rfl (fun b hb e he => ?_) hdates trivial
      simp [hbefore b hb] at he
  · have hload : List.Forall₂
        (fun path (source : Source) =>
          source.path = path ∧ Holds datesStore path source.document)
        ["date.json"] [⟨"date.json", dateDocument⟩] := .cons ⟨rfl, holds_datesStore.1⟩ .nil
    rcases subcommands_agree proper_datesStore (.cons hfirst .nil) hload hsaved
        hprinted with ⟨⟨-, -, hcheck⟩, ⟨hmodels, -⟩, -, hregistry⟩
    have haccepted : ([⟨"date.json", dateDocument⟩] : List Source).countP (·.isRejected) = 0 :=
      countP_isRejected_eq_zero_iff.mpr (by simpa using hdate)
    rw [haccepted, if_pos rfl] at hcheck
    rcases hregistry (hmodels.mpr hcheck) with ⟨_, _, hvs, hv, hw, hvw⟩
    rcases hvs with _ | ⟨-, ⟨⟩⟩
    rcases hvw with _ | ⟨hmember, ⟨⟩⟩
    exact ⟨_, _, hmember, hv, hw⟩

end CommandLine

end SelectionModels
