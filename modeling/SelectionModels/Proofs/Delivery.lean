import SelectionModels.Proofs.Directories
import SelectionModels.Proofs.Loading

/-! # Delivering

The second half of a run puts a text where it is wanted: on the standard output, or into a file
whose directories are made first if they are missing. Whether a file can be written does not depend
on the text; it can be told from the store as it is before.

* `exists_saveText`, `canHold_of_saveText`: a text can be saved just where a file can stand;
* `proper_runOn`: a run leaves a proper store proper;
* `delivered_of_ok`: a run that comes to some values puts them out.
-/

namespace SelectionModels.CommandLine

open Files (Store FileError parent? ancestors)
open Json (Value)

variable {ε σ α β : Type} {s : Store}

/-! ## Actions -/

/-- What an action comes to, and what it leaves. -/
def perform (x : ExceptT ε (StateM σ) α) (s : σ) : Except ε α × σ :=
  Id.run (x.run.run s)

@[simp] theorem perform_pure (a : α) (s : σ) :
    perform (pure a : ExceptT ε (StateM σ) α) s = (.ok a, s) := rfl

@[simp] theorem perform_throw (e : ε) (s : σ) :
    perform (throw e : ExceptT ε (StateM σ) α) s = (.error e, s) := rfl

theorem perform_bind (x : ExceptT ε (StateM σ) α) (f : α → ExceptT ε (StateM σ) β) (s : σ) :
    perform (x >>= f) s =
      match perform x s with
      | (.ok a, s₁) => perform (f a) s₁
      | (.error e, s₁) => (.error e, s₁) := by
  simp only [perform, ExceptT.run_bind, StateT.run_bind, Id.run_bind]
  generalize Id.run (x.run.run s) = r
  rcases r with ⟨e | a, s₁⟩ <;> rfl

theorem perform_lift (x : StateM σ α) (s : σ) :
    perform (liftM x : ExceptT ε (StateM σ) α) s =
      (.ok (Id.run (x.run s)).1, (Id.run (x.run s)).2) := rfl

/-- The action keeps a property of the state, whatever it comes to. -/
def Keeps (P : σ → Prop) (x : ExceptT ε (StateM σ) α) : Prop :=
  ∀ s, P s → P (perform x s).2

theorem Keeps.bind {P : σ → Prop} {x : ExceptT ε (StateM σ) α}
    {f : α → ExceptT ε (StateM σ) β} (hx : Keeps P x) (hf : ∀ a, Keeps P (f a)) :
    Keeps P (x >>= f) := by
  intro s hs
  have hmiddle := hx s hs
  rw [perform_bind]
  generalize perform x s = middle at hmiddle
  rcases middle with ⟨e | a, s₁⟩
  · exact hmiddle
  · exact hf a s₁ hmiddle

theorem keeps_pure (P : σ → Prop) (a : α) : Keeps P (pure a : ExceptT ε (StateM σ) α) :=
  fun _ hs => hs

theorem keeps_throw (P : σ → Prop) (e : ε) : Keeps P (throw e : ExceptT ε (StateM σ) α) :=
  fun _ hs => hs

/-! ## Saving -/

/-- Saving a text leaves a store proper, whether it succeeds or not. -/
theorem keeps_proper_saveText (path text : String) :
    Keeps Store.Proper (saveText Store.writer path text) := by
  have hensure : ∀ paths : List String, Keeps Store.Proper
      (liftM (Store.writer.ensureFrom paths) : ExceptT Failure (StateM Store) _) := by
    intro paths s hs
    generalize hmade : Id.run ((Store.writer.ensureFrom paths).run s) = made
    rw [perform_lift, hmade]
    exact (hs.of_ensureFrom hmade).2
  have hwrite : Keeps Store.Proper (liftM (Store.writer.write path (textBytes text)) :
      ExceptT Failure (StateM Store) _) := by
    intro s hs
    have hchange : Id.run ((Store.writer.write path (textBytes text)).run s) =
        Store.change (·.write path (textBytes text)) s := rfl
    rw [perform_lift, hchange, Store.change]
    cases hwrite : s.write path (textBytes text) with
    | ok s' => exact hs.of_write hwrite
    | error cause => exact hs
  -- directories that have been made stay, even if the file cannot be written
  unfold saveText
  cases parent? path with
  | none =>
    refine hwrite.bind fun result => ?_
    cases result with
    | ok u => exact keeps_pure Store.Proper ()
    | error cause => exact keeps_throw Store.Proper _
  | some outer =>
    refine (hensure (ancestors outer)).bind fun made => ?_
    cases made with
    | error cause => exact keeps_throw Store.Proper _
    | ok u =>
      refine hwrite.bind fun result => ?_
      cases result with
      | ok u => exact keeps_pure Store.Proper ()
      | error cause => exact keeps_throw Store.Proper _

/-- What follows the writing of a file is told how it went. -/
theorem perform_write_bind (path text : String)
    (f : Except FileError Unit → ExceptT Failure (StateM Store) α) (s : Store) :
    perform (liftM (Store.writer.write path (textBytes text)) >>= f) s =
      match s.write path (textBytes text) with
      | .ok s' => perform (f (.ok ())) s'
      | .error cause => perform (f (.error cause)) s := by
  have hchange : Id.run ((Store.writer.write path (textBytes text)).run s) =
      Store.change (·.write path (textBytes text)) s := rfl
  rw [perform_bind, perform_lift, hchange, Store.change]
  cases s.write path (textBytes text) <;> rfl

/-- Saving a text is making the directories that its file lies in, and then writing the file. -/
theorem saveText_eq_ok_iff {path outer text : String} {s' : Store}
    (houter : parent? path = some outer) :
    perform (saveText Store.writer path text) s = (.ok (), s') ↔
      ∃ s₁, Id.run ((Store.writer.ensureFrom (ancestors outer)).run s) = (.ok (), s₁) ∧
        s₁.write path (textBytes text) = .ok s' := by
  unfold saveText
  rw [houter]
  simp only [perform_bind, perform_lift]
  generalize Id.run ((Store.writer.ensureFrom (ancestors outer)).run s) = made
  rcases made with ⟨cause | ⟨⟩, s₁⟩
  · simp
  · simp only [perform_write_bind]
    cases hwrite : s₁.write path (textBytes text) <;> simp [hwrite]

/-- A path that ends with a name lies in something. -/
theorem exists_parent?_of_canHold {path : String} (h : s.CanHold path) :
    ∃ outer, parent? path = some outer := by
  cases hparent : parent? path with
  | some outer => exact ⟨outer, rfl⟩
  | none =>
    rcases h.exists_getLast? with ⟨name, hlast, hdot, -⟩
    exact absurd (Files.parent?_eq_none hparent name (List.mem_of_getLast? hlast)) hdot

/-- Where a file can stand a text can be saved, and it is what is read there afterwards. -/
theorem exists_saveText (hs : s.Proper) {path : String} (h : s.CanHold path) (text : String) :
    ∃ s', perform (saveText Store.writer path text) s = (.ok (), s') ∧
      s'.read path = .ok (textBytes text) := by
  rcases exists_parent?_of_canHold h with ⟨outer, houter⟩
  rcases hs.run_ensureFrom_of_canHold h houter with ⟨s₁, hrun, hs₁, hcan, hpaved⟩
  rcases hs₁.exists_write_of_canHold hcan hpaved (textBytes text) with ⟨s', hwrite⟩
  exact ⟨s', (saveText_eq_ok_iff houter).mpr ⟨s₁, hrun, hwrite⟩, Store.read_of_write hwrite⟩

/-- Where a text has been saved a file could stand. -/
theorem canHold_of_saveText (hs : s.Proper) {path text : String} {s' : Store}
    (h : perform (saveText Store.writer path text) s = (.ok (), s')) : s.CanHold path := by
  cases hparent : parent? path with
  | some outer =>
    rcases (saveText_eq_ok_iff hparent).mp h with ⟨s₁, hrun, hwrite⟩
    rcases hs.of_ensureFrom hrun with ⟨hgrows, hs₁⟩
    exact (hs₁.canHold_of_write hwrite).of_grown hgrows
  | none =>
    unfold saveText at h
    rw [hparent] at h
    simp only [perform_write_bind] at h
    cases hwrite : s.write path (textBytes text) with
    | ok s₁ => exact hs.canHold_of_write hwrite
    | error cause => simp [hwrite] at h

/-- If the output is wanted in a file, a file can stand there. -/
def OutputSettings.Writable (o : OutputSettings) (s : Store) : Prop :=
  ∀ path, o.out = some path → s.CanHold path

/-- The run has succeeded, and the text stands where the output is wanted. -/
def OutputSettings.Delivered (o : OutputSettings) (s : Store) (text : String)
    (after : Transcript × Store) : Prop :=
  after.1.failure = none ∧
    match o.out with
    | none => after.1.stdout = text ++ "\n" ∧ after.2 = s
    | some path => after.1.stdout = "" ∧ after.2.read path = .ok (textBytes text)

/-- A run that comes to a delivery ends as it is carried out. -/
theorem runOn_of_ok {command : Command} {delivery : Delivery}
    (h : (Id.run (plan s.view command)).result = .ok delivery) :
    runOn s command =
      match perform (delivery.carryOut Store.writer) s with
      | (.error f, s') => (⟨(Id.run (plan s.view command)).notices, "", some f⟩, s')
      | (.ok stdout, s') => (⟨(Id.run (plan s.view command)).notices, stdout, none⟩, s') := by
  simp only [runOn, finish, h, StateT.run_bind, perform]
  simp only [Id.run]
  generalize (delivery.carryOut Store.writer).run.run s = performed
  obtain ⟨f | stdout, s'⟩ := performed <;> rfl

/-- A run leaves a proper store proper. -/
theorem proper_runOn (hs : s.Proper) (command : Command) : (runOn s command).2.Proper := by
  have hcarry : ∀ delivery : Delivery, Keeps Store.Proper (delivery.carryOut Store.writer) := by
    intro delivery
    cases delivery with
    | nothing => exact keeps_pure Store.Proper _
    | print text => exact keeps_pure Store.Proper _
    | save path text =>
      exact (keeps_proper_saveText path text).bind fun _ => keeps_pure Store.Proper _
  cases hresult : (Id.run (plan s.view command)).result with
  | error f =>
    rw [runOn_of_error hresult]
    exact hs
  | ok delivery =>
    have hafter := hcarry delivery s hs
    rw [runOn_of_ok hresult]
    generalize perform (delivery.carryOut Store.writer) s = performed at hafter
    rcases performed with ⟨f | stdout, s'⟩ <;> exact hafter

/-- A run that comes to some values puts them out, if it may write where they are wanted. -/
theorem delivered_of_ok (hs : s.Proper) {command : Command} {o : OutputSettings}
    {values : List Value} (h : (Id.run (plan s.view command)).result = .ok (o.deliver values))
    (hwritable : o.Writable s) :
    o.Delivered s ((valueOf values).render o.layout) (runOn s command) := by
  rw [runOn_of_ok h, OutputSettings.Delivered, OutputSettings.deliver]
  cases hout : o.out with
  | none => exact ⟨rfl, rfl, rfl⟩
  | some path =>
    obtain ⟨s', hsave, hread⟩ :=
      exists_saveText hs (hwritable path hout) ((valueOf values).render o.layout)
    have hcarry : perform (Delivery.carryOut Store.writer
        (.save path ((valueOf values).render o.layout))) s = (.ok "", s') := by
      rw [Delivery.carryOut, perform_bind, hsave]
      rfl
    simp [hcarry, hread]

end SelectionModels.CommandLine
