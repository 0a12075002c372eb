import SelectionModels.Proofs.Delivery

/-! # All or nothing

A run that makes something of documents puts out what it makes of all of them, or nothing at all.
One input that stands for no paths, one file that cannot be read or holds no document, or one
document that is rejected is enough to spoil the whole run, whatever comes before it, and a spoiled
run leaves the store as it is. What is put out is made from the files as they were, even if the
output goes over one of them.

* `plan_eq_ok_iff`: what a run that is not spoiled comes to;
* `all_or_nothing`: a run puts out everything, or changes and prints nothing.
-/

namespace SelectionModels.CommandLine

open Files (Store FileError Listed endsWithSlash)
open Glob (Answers MadeOf below startOf standing parseComponents_eq_ok_iff answers_names
  answers_named)
open Json (Value)

variable {s : Store} {α β : Type}

/-! ## What is made of documents -/

/-- What a run can make of documents. -/
inductive Product where
  | models
  | scalars
deriving DecidableEq, Repr

/-- The command that asks for a product. -/
def Product.command : Product → Target → Command
  | .models, t => .models t
  | .scalars, t => .scalars t

/-- What is made of one document, unless it is rejected. -/
def Product.make : Product → Document → Except DocumentError Value
  | .models, d => CompiledDocument.toJson <$> d.compile
  | .scalars, d => Registry.toJson <$> Registry.ofScalars d.ns d.customScalars

/-- The value is made of the document at the path. -/
def Makes (s : Store) (p : Product) (path : String) (v : Value) : Prop :=
  ∃ d, Holds s path d ∧ p.make d = .ok v

/-- Why nothing can be made of what is at a path. -/
inductive Spoils (s : Store) (p : Product) (path : String) : Prop where
  | unreadable {cause : FileError} (read : s.read path = .error cause)
  | malformed {content : Json.Bytes} {cause : DocumentError} (read : s.read path = .ok content)
    (decoded : decode Document.reader content = .error cause)
  | rejected {d : Document} {cause : DocumentError} (holds : Holds s path d)
    (made : p.make d = .error cause)

theorem exists_makes_iff {p : Product} {path : String} :
    (∃ v, Makes s p path v) ↔ ¬ Spoils s p path := by
  constructor
  · rintro ⟨v, d, ⟨content, hread, hdecode⟩, hmake⟩ hspoils
    cases hspoils with
    | unreadable hread' => simp [hread] at hread'
    | malformed hread' hdecode' =>
      obtain rfl := Except.ok.inj (hread.symm.trans hread')
      simp [hdecode] at hdecode'
    | rejected hholds hmake' =>
      obtain ⟨content', hread', hdecode'⟩ := hholds
      obtain rfl := Except.ok.inj (hread.symm.trans hread')
      obtain rfl := Except.ok.inj (hdecode.symm.trans hdecode')
      simp [hmake] at hmake'
  · intro hsound
    cases hread : s.read path with
    | error cause => exact absurd (.unreadable hread) hsound
    | ok content =>
      cases hdecode : decode Document.reader content with
      | error cause => exact absurd (.malformed hread hdecode) hsound
      | ok d =>
        cases hmake : p.make d with
        | error cause => exact absurd (.rejected ⟨content, hread, hdecode⟩ hmake) hsound
        | ok v => exact ⟨v, d, ⟨content, hread, hdecode⟩, hmake⟩

/-- An input stands for no paths, or nothing can be made of what is at one of them. -/
def Spoiled (s : Store) (p : Product) (inputs : List String) : Prop :=
  (∃ input ∈ inputs, Unresolvable s input) ∨
    ∃ input ∈ inputs, ∃ paths, StandsFor s input paths ∧ ∃ path ∈ paths, Spoils s p path

/-- A run is not spoiled when there are paths for all inputs and something can be made at each. -/
theorem not_spoiled_iff (hs : s.Proper) {p : Product} {inputs : List String} :
    ¬ Spoiled s p inputs ↔ ∃ groups values, List.Forall₂ (StandsFor s) inputs groups ∧
      List.Forall₂ (Makes s p) groups.flatten values := by
  have hinput : ¬ Spoiled s p inputs ↔ ∀ input ∈ inputs, ∃ paths,
      StandsFor s input paths ∧ ∀ path ∈ paths, ∃ v, Makes s p path v := by
    simp only [Spoiled, exists_makes_iff, not_or, not_exists, not_and, ← forall_and]
    refine forall₂_congr fun input _ => ?_
    -- an input stands for one list of paths, or for none
    rcases resolveInput_cases hs input with ⟨paths, -, hstands⟩ | ⟨-, hun⟩
    · constructor
      · rintro ⟨-, hsound⟩
        exact ⟨paths, hstands, hsound paths hstands⟩
      · rintro ⟨paths', hstands', hsound⟩
        refine ⟨hstands.not_unresolvable, fun other hother => ?_⟩
        rw [hother.unique hstands']
        exact hsound
    · refine iff_of_false (fun h => h.1 hun) ?_
      rintro ⟨paths, hstands, -⟩
      exact hstands.not_unresolvable hun
  rw [hinput, ← exists_forall₂_iff]
  simp only [forall₂_and_flatten_iff, exists_and_left]
  simp only [exists_forall₂_iff]

/-! ## The first half -/

theorem result_produce {command : Command} {t : Target} (h : t.noOp = false)
    (work : Source → Work α) (toJson : α → Value) :
    (Id.run (produce s.view command t work toJson)).result =
      outcome (loadSources s.view t.inputs) >>= fun sources =>
        (fun results => t.output.deliver (results.map toJson)) <$>
          (Work.forEach work sources).result := by
  have hrun : Id.run (produce s.view command t work toJson) =
      Id.run (onSources s.view t.inputs fun sources =>
        (Work.forEach work sources).map fun results => t.output.deliver (results.map toJson)) := by
    simp [produce, h]
  rw [hrun, run_onSources]
  cases outcome (loadSources s.view t.inputs) <;> rfl

/-- A product is put out when all documents are there and it can be made of each of them. -/
theorem produce_eq_ok_iff {command : Command} {t : Target} (h : t.noOp = false)
    {work : Source → Work α} (make : Document → Except DocumentError α)
    (hwork : ∀ source a, (work source).result = .ok a ↔ make source.document = .ok a)
    {toJson : α → Value} {delivery : Delivery} :
    (Id.run (produce s.view command t work toJson)).result = .ok delivery ↔
      ∃ sources values, outcome (loadSources s.view t.inputs) = .ok sources ∧
        List.Forall₂ (fun source v => toJson <$> make source.document = .ok v) sources values ∧
        t.output.deliver values = delivery := by
  simp only [forall₂_map_ok_iff]
  simp only [result_produce h, bind_eq_ok_iff, map_eq_ok_iff, forEach_eq_ok_iff, hwork]
  constructor
  · rintro ⟨sources, hload, as, has, hdelivery⟩
    exact ⟨sources, _, hload, ⟨as, has, rfl⟩, hdelivery⟩
  · rintro ⟨sources, _, hload, ⟨as, has, rfl⟩, hdelivery⟩
    exact ⟨sources, hload, as, has, hdelivery⟩

theorem result_compile_eq_ok_iff (source : Source) (c : CompiledDocument) :
    source.compile.result = .ok c ↔ source.document.compile = .ok c := by
  unfold Source.compile
  cases source.document.compile <;> simp [Work.fail]

theorem result_registry_eq_ok_iff (source : Source) (r : Registry) :
    source.registry.result = .ok r ↔
      Registry.ofScalars source.document.ns source.document.customScalars = .ok r := by
  unfold Source.registry
  cases Registry.ofScalars source.document.ns source.document.customScalars <;>
    simp [Work.fail]

/-- What a run comes to that makes something of documents. -/
theorem plan_eq_ok_iff_sources {p : Product} {t : Target} (h : t.noOp = false)
    {delivery : Delivery} : (Id.run (plan s.view (p.command t))).result = .ok delivery ↔
      ∃ sources values, outcome (loadSources s.view t.inputs) = .ok sources ∧
        List.Forall₂ (fun source v => p.make source.document = .ok v) sources values ∧
        t.output.deliver values = delivery := by
  cases p with
  | models => exact produce_eq_ok_iff h Document.compile result_compile_eq_ok_iff
  | scalars =>
    exact produce_eq_ok_iff h (fun d => Registry.ofScalars d.ns d.customScalars)
      result_registry_eq_ok_iff

theorem plan_eq_ok_iff (hs : s.Proper) {p : Product} {t : Target} (h : t.noOp = false)
    {delivery : Delivery} :
    (Id.run (plan s.view (p.command t))).result = .ok delivery ↔
      ∃ groups values, List.Forall₂ (StandsFor s) t.inputs groups ∧
        List.Forall₂ (Makes s p) groups.flatten values ∧ t.output.deliver values = delivery := by
  -- what is found at a path and what is made of it come together
  have hmakes : Makes s p = fun path v => ∃ source : Source,
      (source.path = path ∧ Holds s path source.document) ∧ p.make source.document = .ok v := by
    funext path v
    refine propext ?_
    constructor
    · rintro ⟨d, hd, hv⟩
      exact ⟨⟨path, d⟩, ⟨rfl, hd⟩, hv⟩
    · rintro ⟨source, ⟨rfl, hd⟩, hv⟩
      exact ⟨source.document, hd, hv⟩
  simp only [plan_eq_ok_iff_sources h, loadSources_eq_ok_iff hs, hmakes,
    ← exists_forall₂_comp_iff]
  constructor
  · rintro ⟨sources, values, ⟨groups, hgroups, hload⟩, hmake, hdelivery⟩
    exact ⟨groups, values, hgroups, ⟨sources, hload, hmake⟩, hdelivery⟩
  · rintro ⟨groups, values, hgroups, ⟨sources, hload, hmake⟩, hdelivery⟩
    exact ⟨sources, values, ⟨groups, hgroups, hload⟩, hmake, hdelivery⟩

/-! ## Whole runs -/

theorem valueOf_of_length_ne_one {values : List Value} (h : values.length ≠ 1) :
    valueOf values = .array values := by
  match values with
  | [] => rfl
  | [_] => exact absurd rfl h
  | _ :: _ :: _ => rfl

/-- A run that is spoiled fails, prints nothing on the standard output and leaves the store as it
is. A run that is not, and that may write where it is told to, puts out what it makes of the files
at the paths that the inputs stand for, in their order and with repetitions, each as it was before
the run: the value itself if there is one, else a list. -/
theorem all_or_nothing (s : Store) (hs : s.Proper) (p : Product) (t : Target)
    (h : t.noOp = false) :
    (Spoiled s p t.inputs →
      ∃ notices failure, runOn s (p.command t) = (⟨notices, "", some failure⟩, s)) ∧
    (¬ Spoiled s p t.inputs →
      ∃ groups values, List.Forall₂ (StandsFor s) t.inputs groups ∧
        List.Forall₂ (Makes s p) groups.flatten values ∧
        (t.output.Writable s → ∃ text, t.output.Delivered s text (runOn s (p.command t)) ∧
          (∀ v, values = [v] → text = v.render t.output.layout) ∧
          (values.length ≠ 1 → text = (Value.array values).render t.output.layout))) := by
  constructor
  · intro hspoiled
    cases hresult : (Id.run (plan s.view (p.command t))).result with
    | error f => exact ⟨_, f, runOn_of_error hresult⟩
    | ok delivery =>
      -- a run that comes to something is not spoiled
      obtain ⟨groups, values, hgroups, hvalues, -⟩ := (plan_eq_ok_iff hs h).mp hresult
      exact absurd hspoiled ((not_spoiled_iff hs).mpr ⟨groups, values, hgroups, hvalues⟩)
  · intro hsound
    obtain ⟨groups, values, hgroups, hvalues⟩ := (not_spoiled_iff hs).mp hsound
    have hresult := (plan_eq_ok_iff hs h).mpr ⟨groups, values, hgroups, hvalues, rfl⟩
    refine ⟨groups, values, hgroups, hvalues, fun hwritable => ?_⟩
    refine ⟨_, delivered_of_ok hs hresult hwritable, ?_, ?_⟩
    · rintro v rfl
      rfl
    · intro hlength
      rw [valueOf_of_length_ne_one hlength]

/-! ## Runs on a directory of documents -/

/-- The text of a document with one custom scalar. -/
def dateText : String :=
  "\x7b\"namespace\":\"com.example\",\"custom_scalars\":[\x7b\"name\":\"Date\"\x7d]\x7d"

def dateDocument : Document :=
  ⟨"com.example", [⟨"Date", none, none, none⟩], [], []⟩

/-- The text of a document with another scalar. -/
def moneyText : String :=
  "\x7b\"namespace\":\"com.example\",\"custom_scalars\":[\x7b\"name\":\"Money\"\x7d]\x7d"

def moneyDocument : Document :=
  ⟨"com.example", [⟨"Money", none, none, none⟩], [], []⟩

theorem decode_dateText : decode Document.reader (textBytes dateText) = .ok dateDocument := by
  decide +kernel

/-- A file with a document, one without, and a directory with two documents and something else. -/
def dateStore : Store where
  entries := [("date.json", .file (textBytes dateText)),
    ("broken.json", .file (textBytes "\x7b")),
    ("ir", .directory [("money.json", .file (textBytes moneyText)), ("notes", .directory []),
      ("date.json", .file (textBytes dateText))])]
  current := []

theorem proper_dateStore : dateStore.Proper where
  root := by
    refine .directory (by decide) (by decide) ?_
    simp only [dateStore, List.forall_mem_cons]
    refine ⟨.file _, .file _, .directory (by decide) (by decide) ?_, by simp⟩
    simp only [List.forall_mem_cons]
    exact ⟨.file _, .directory (by simp) (by simp) (by simp), .file _, by simp⟩
  current := ⟨_, rfl⟩

theorem makes_dateStore : ∀ path ∈ ["date.json", "ir/date.json", "ir/money.json"],
    ∃ v, Makes dateStore .scalars path v := by
  have hdate : ∀ {path}, dateStore.read path = .ok (textBytes dateText) →
      ∃ v, Makes dateStore .scalars path v :=
    fun hread => ⟨_, dateDocument, ⟨_, hread, decode_dateText⟩, rfl⟩
  simp only [List.forall_mem_cons]
  refine ⟨hdate rfl, hdate rfl, ?_, by simp⟩
  exact ⟨_, moneyDocument, ⟨textBytes moneyText, rfl, by decide +kernel⟩, rfl⟩

/-- The file with the document, which is to be written over. -/
def dateOutput : OutputSettings := ⟨some "date.json", true⟩

/-- A file in a directory that is not there. -/
def newOutput : OutputSettings := ⟨some "out/kotlin/all.json", true⟩

theorem writable_dateStore : dateOutput.Writable dateStore ∧ newOutput.Writable dateStore := by
  constructor <;> (rintro _ ⟨⟩; decide)

/-- A pattern for names in the directory, and the names that fit it. -/
theorem answers_dateStore (input : String) (p : Glob.Pattern) (names : List Listed)
    (hstart : startOf dateStore input = standing dateStore ".") (hplain : p.IsPlain)
    (hwild : p.literal? = none)
    (hfit : names.Perm ([⟨"money.json", false⟩, ⟨"notes", true⟩, ⟨"date.json", false⟩].filter
      fun e => p.admits e.name))
    (hsorted : names.Pairwise fun e e' => e.name < e'.name) :
    Answers dateStore false (startSpot dateStore input [.ofName "ir", p])
      (.ok (names.map fun e => below "ir" e.name)) := by
  have hlists : dateStore.list "ir" =
      .ok [⟨"money.json", false⟩, ⟨"notes", true⟩, ⟨"date.json", false⟩] := rfl
  have hdirectory : (standing dateStore "ir").isDirectory = true := rfl
  have hpath : below (standing dateStore ".").path "ir" = "ir" := rfl
  have hnames : Answers dateStore false
      (.inside (standing dateStore (below (standing dateStore ".").path "ir")) [p])
      (.ok (names.map fun e => below "ir" e.name)) := by
    rw [hpath]
    exact answers_names hplain (Glob.Pattern.literal?_eq_none_iff.mp hwild) hdirectory hlists hfit
      hsorted
  have hanswers : Answers dateStore false (.inside (standing dateStore ".") [.ofName "ir", p]) _ :=
    answers_named rfl hnames
  rw [if_pos (by decide)] at hanswers
  rw [startSpot, hstart]
  exact hanswers

/-- A name with the ending. -/
def endingIn (ending : String) : Glob.Pattern :=
  .anyName :: Glob.Pattern.ofName ending

theorem isPlain_endingIn (ending : String) : (endingIn ending).IsPlain := by
  refine ⟨?_, fun h => by cases h⟩
  simp [endingIn, Glob.Pattern.ofName]

theorem standsFor_dateStore :
    StandsFor dateStore "ir/*.json" ["ir/date.json", "ir/money.json"] := by
  have hmade : MadeOf "ir/*.json" [.ofName "ir", endingIn ".json"] :=
    parseComponents_eq_ok_iff.mp (by decide +kernel)
  have hslash : endsWithSlash "ir/*.json" = false := by decide
  have hanswers := answers_dateStore "ir/*.json" (endingIn ".json")
    [⟨"date.json", false⟩, ⟨"money.json", false⟩] (by decide +kernel)
    (isPlain_endingIn _) (by decide) (by decide) (by decide)
  rcases hanswers with ⟨hfree, hfits⟩
  exact .pattern (by decide) hmade hfree (hslash ▸ hfits) (by simp)

theorem unresolvable_dateStore :
    Unresolvable dateStore "ir/[.json" ∧ Unresolvable dateStore "ir/*.xml" := by
  constructor
  · refine .malformed (by decide) fun components hmade => ?_
    have hfails : (Glob.parseComponents "ir/[.json").isOk = false := rfl
    rw [parseComponents_eq_ok_iff.mpr hmade] at hfails
    cases hfails
  · have hmade : MadeOf "ir/*.xml" [.ofName "ir", endingIn ".xml"] :=
      parseComponents_eq_ok_iff.mp (by decide +kernel)
    have hslash : endsWithSlash "ir/*.xml" = false := by decide
    have hanswers := answers_dateStore "ir/*.xml" (endingIn ".xml") []
      (by decide +kernel) (isPlain_endingIn _) (by decide) (by decide) .nil
    rcases hanswers with ⟨hfree, hnone⟩
    exact .unmatched (by decide) hmade hfree (hslash ▸ hnone)

theorem spoils_dateStore : Spoils dateStore .scalars "ir/none.json" ∧
    Spoils dateStore .scalars "broken.json" := by
  constructor
  · have hread : dateStore.read "ir/none.json" = .error .noEntry := rfl
    exact .unreadable hread
  · have hread : dateStore.read "broken.json" = .ok (textBytes "\x7b") := rfl
    have hfails : (decode Document.reader (textBytes "\x7b")).isOk = false := by decide +kernel
    cases hdecode : decode Document.reader (textBytes "\x7b") with
    | error cause => exact .malformed hread hdecode
    | ok d => simp [hdecode, Except.isOk, Except.toBool] at hfails

/-- A class that is not closed, a pattern that nothing fits, a file that is not there and one
without a document each leave everything as it is. A run on a pattern and a path makes the
directories for its output, and a run may write over its own input. -/
theorem all_or_nothing_dateStore :
    (∀ input ∈ ["ir/[.json", "ir/*.xml", "ir/none.json", "broken.json"], ∃ notices failure,
      runOn dateStore (.scalars ⟨["date.json", input], dateOutput, false⟩) =
        (⟨notices, "", some failure⟩, dateStore)) ∧
    (∃ values text,
      List.Forall₂ (Makes dateStore .scalars) ["ir/date.json", "ir/money.json", "date.json"]
        values ∧
      newOutput.Delivered dateStore text
        (runOn dateStore (.scalars ⟨["ir/*.json", "date.json"], newOutput, false⟩)) ∧
      text = (Value.array values).render .compact) ∧
    ∃ values text, List.Forall₂ (Makes dateStore .scalars) ["date.json", "date.json"] values ∧
      dateOutput.Delivered dateStore text
        (runOn dateStore (.scalars ⟨["date.json", "date.json"], dateOutput, false⟩)) ∧
      text = (Value.array values).render .compact := by
  have hpath : ∀ path, IsPath path → StandsFor dateStore path [path] := fun _ => .path
  have hdate := hpath "date.json" (by decide)
  have hspoils : ∀ {path}, IsPath path → Spoils dateStore .scalars path →
      Spoiled dateStore .scalars ["date.json", path] :=
    fun hpath' h => Or.inr ⟨_, by simp, _, hpath _ hpath', _, by simp, h⟩
  -- with nothing but documents that give registries a run is not spoiled
  have hruns : ∀ {o : OutputSettings} {inputs : List String} (groups : List (List String)),
      o.Writable dateStore → List.Forall₂ (StandsFor dateStore) inputs groups →
      groups.flatten ⊆ ["date.json", "ir/date.json", "ir/money.json"] →
      groups.flatten.length ≠ 1 →
      ∃ values text, List.Forall₂ (Makes dateStore .scalars) groups.flatten values ∧
        o.Delivered dateStore text (runOn dateStore (.scalars ⟨inputs, o, false⟩)) ∧
        text = (Value.array values).render o.layout := by
    intro o inputs groups hwritable hgroups hpaths hlength
    rcases exists_forall₂_iff.mpr fun path hpath => makes_dateStore path (hpaths hpath) with
      ⟨values, hvalues⟩
    have hsound := (not_spoiled_iff proper_dateStore).mpr ⟨groups, values, hgroups, hvalues⟩
    rcases (all_or_nothing dateStore proper_dateStore .scalars ⟨inputs, o, false⟩ rfl).2 hsound
      with ⟨groups', values', hgroups', hvalues', hwrite⟩
    rcases hwrite hwritable with ⟨text, hdelivered, -, htext⟩
    obtain rfl := standsFor_groups_unique hgroups hgroups'
    exact ⟨values', text, hvalues', hdelivered, htext (hvalues'.length_eq ▸ hlength)⟩
  refine ⟨?_, ?_, ?_⟩
  · have hspoiled : ∀ input ∈ ["ir/[.json", "ir/*.xml", "ir/none.json", "broken.json"],
        Spoiled dateStore .scalars ["date.json", input] := by
      simp only [List.forall_mem_cons]
      exact ⟨Or.inl ⟨_, by simp, unresolvable_dateStore.1⟩,
        Or.inl ⟨_, by simp, unresolvable_dateStore.2⟩,
        hspoils (by decide) spoils_dateStore.1,
        hspoils (by decide) spoils_dateStore.2, by simp⟩
    intro input hinput
    exact (all_or_nothing dateStore proper_dateStore .scalars ⟨_, dateOutput, false⟩ rfl).1
      (hspoiled input hinput)
  · exact hruns [["ir/date.json", "ir/money.json"], ["date.json"]]
      writable_dateStore.2 (.cons standsFor_dateStore (.cons hdate .nil)) (by simp) (by simp)
  · exact hruns [["date.json"], ["date.json"]] writable_dateStore.1
      (.cons hdate (.cons hdate .nil)) (by simp) (by simp)

end SelectionModels.CommandLine
