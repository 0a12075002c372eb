import SelectionModels.Json.Reader.Tagged
import SelectionModels.Proofs.Keys

/-! # What readers come to

A postcondition of a reader holds of whatever it comes to, on any text. A reader that only fails has
every postcondition. Where a reader folds over what it takes, the postcondition is an invariant of
what is known so far.

* `Reader.Yields`: a postcondition;
* `Reader.yields_items`, `Reader.yields_members`: invariants of folds;
* `Reader.yields_record`: from what the members of a record add to what is built in the end.
-/

namespace SelectionModels.Json.Reader

variable {α β σ κ : Type}

/-- Whatever the reader comes to has the property. -/
def Yields (r : Reader α) (P : α → Prop) : Prop :=
  ∀ ⦃input rest : Bytes⦄ ⦃value : α⦄, r.run input = .done value rest → P value

/-! ## Sequencing -/

/-- Nothing is asked of the values. -/
theorem yields_true (r : Reader α) : r.Yields fun _ => True :=
  fun _ _ _ _ => trivial

/-- Less is asked of the values. -/
theorem Yields.mono {r : Reader α} {P Q : α → Prop} (h : r.Yields P) (hPQ : ∀ a, P a → Q a) :
    r.Yields Q :=
  fun _ _ value hrun => hPQ value (h hrun)

theorem yields_pure {P : α → Prop} {value : α} (h : P value) :
    (pure value : Reader α).Yields P := by
  rintro _ _ _ ⟨⟩
  exact h

/-- What holds of a value may be used for what comes after it. -/
theorem Yields.bind {r : Reader α} {f : α → Reader β} {P : α → Prop} {Q : β → Prop}
    (h : r.Yields P) (hf : ∀ a, P a → (f a).Yields Q) : (r >>= f).Yields Q := by
  intro input rest value hrun
  rw [run_bind] at hrun
  split at hrun
  · rename_i a rest' hr
    exact hf a (h hr) hrun
  · cases hrun

/-- Whatever the first reader comes to. -/
theorem yields_bind {r : Reader α} {f : α → Reader β} {Q : β → Prop}
    (h : ∀ a, (f a).Yields Q) : (r >>= f).Yields Q :=
  (yields_true r).bind fun a _ => h a

theorem Yields.map {r : Reader α} {f : α → β} {P : α → Prop} {Q : β → Prop} (h : r.Yields P)
    (hf : ∀ a, P a → Q (f a)) : (f <$> r).Yields Q := by
  rw [map_eq_pure_bind]
  exact h.bind fun a ha => yields_pure (hf a ha)

/-- How failures are told does not touch the values. -/
theorem Yields.mapFailure {r : Reader α} {P : α → Prop} (change : Failure → Bytes → Failure)
    (h : r.Yields P) : (r.mapFailure change).Yields P := by
  intro input rest value hrun
  simp only [Reader.mapFailure] at hrun
  split at hrun
  · rename_i hr
    cases hrun
    exact h hr
  · cases hrun

theorem Yields.under {r : Reader α} {P : α → Prop} (step : Step) (h : r.Yields P) :
    (r.under step).Yields P :=
  h.mapFailure _

theorem Yields.placed {r : Reader α} {P : α → Prop} (h : r.Yields P) : r.placed.Yields P :=
  h.mapFailure _

/-- The end behind a body does not touch its value. -/
theorem Yields.closedBy {body : Reader α} {P : α → Prop} (ending : Reader Unit)
    (h : body.Yields P) : (body.closedBy ending).Yields P := by
  intro input rest value hrun
  simp only [Reader.closedBy] at hrun
  split at hrun
  · rename_i hbody
    split at hrun
    · cases hrun
      exact h hbody
    · cases hrun
  · cases hrun

/-! ## Failing -/

/-- A reader that fails yields whatever is asked for, as it yields nothing. -/
theorem yields_failNext (fault : SyntaxFault) (P : α → Prop) : (failNext fault).Yields P := by
  rintro _ _ _ ⟨⟩

theorem yields_failUnplaced (fault : Fault) (P : α → Prop) : (failUnplaced fault).Yields P := by
  rintro _ _ _ ⟨⟩

/-- Where another kind is found, nothing is yielded. -/
theorem yields_wrongKind (opening : Opening) (expected : String) (P : α → Prop) :
    (wrongKind opening expected).Yields P := by
  cases opening with
  | nothing => exact yields_failNext _ _
  | other => exact yields_failNext _ _
  | bracket => exact yields_failUnplaced _ _
  | brace => exact yields_failUnplaced _ _
  | minus => exact yields_bind fun _ => yields_failUnplaced _ _
  | digit => exact yields_bind fun _ => yields_failUnplaced _ _
  | quote => exact yields_bind fun _ => yields_bind fun _ => yields_failUnplaced _ _
  | null => exact yields_bind fun _ => yields_bind fun _ => yields_failUnplaced _ _
  | «true» => exact yields_bind fun _ => yields_bind fun _ => yields_failUnplaced _ _
  | «false» => exact yields_bind fun _ => yields_bind fun _ => yields_failUnplaced _ _

/-! ## Brackets -/

/-- What is yielded inside the brackets of a list. -/
theorem yields_inList {inside : Option (Reader α)} {P : α → Prop}
    (h : ∀ body ∈ inside, body.Yields P) : (inList inside).Yields P := by
  cases inside with
  | none => exact yields_failNext _ _
  | some body => exact yields_bind fun _ => (h body rfl).closedBy _

/-- What is yielded inside the brackets of an object. -/
theorem yields_inObject {inside : Option (Reader α)} {P : α → Prop}
    (h : ∀ body ∈ inside, body.Yields P) : (inObject inside).Yields P := by
  cases inside with
  | none => exact yields_failNext _ _
  | some body => exact yields_bind fun _ => (h body rfl).closedBy _

/-- An invariant of a fold over items. -/
theorem yields_items {step : σ → Nat → Reader σ} {start : σ} {I : σ → Prop} (hstart : I start)
    (hstep : ∀ state index, I state → (step state index).Yields I) :
    (items step start).Yields I := by
  intro input rest value hrun
  change itemsFrom step start 0 true input = _ at hrun
  generalize 0 = index, true = first at hrun
  fun_induction itemsFrom step start index first input with
  | case1 => cases hrun
  | case2 => cases hrun; exact hstart
  | case3 => cases hrun
  | case4 state index first input rest' hnext state' rest'' hread ih =>
    exact ih (hstep state index hstart hread) hrun

/-- An invariant of a fold over members. -/
theorem yields_members {step : σ → String → Reader σ} {start : σ} {I : σ → Prop}
    (hstart : I start) (hstep : ∀ state name, I state → (step state name).Yields I) :
    (members step start).Yields I := by
  intro input rest value hrun
  change membersFrom step start true input = _ at hrun
  generalize true = first at hrun
  fun_induction membersFrom step start first input with
  | case1 => cases hrun
  | case2 => cases hrun; exact hstart
  | case3 => cases hrun
  | case4 state first input name rest' hkey state' rest'' hread ih =>
    exact ih (hstep state name hstart hread) hrun

/-! ## Values of a known kind -/

/-- A value that may be missing is one of those that are asked for, if it is there. -/
theorem yields_optional {r : Reader α} {P : α → Prop} (h : r.Yields P) :
    (optional r).Yields fun o => ∀ a ∈ o, P a := by
  refine yields_bind fun opening => ?_
  split
  · exact yields_bind fun _ => yields_bind fun _ => yields_pure (by simp)
  · exact h.map fun a ha => by simpa using ha

/-- A list has items like those that its reader yields. -/
theorem yields_listOf {item : Option (Reader α)} {P : α → Prop} (h : ∀ r ∈ item, r.Yields P) :
    (listOf item).Yields fun xs => ∀ a ∈ xs, P a := by
  refine Yields.placed (yields_bind fun opening => ?_)
  split
  · have htaken : ∀ body ∈ item.map fun r => items
        (fun taken index => (· :: taken) <$> r.under (.index index)) ([] : List α),
        body.Yields fun taken => ∀ a ∈ taken, P a := by
      intro body hbody
      obtain ⟨r, hr, rfl⟩ := Option.map_eq_some_iff.mp hbody
      refine yields_items (by simp) fun taken index htaken => ?_
      exact ((h r hr).under _).map fun a ha => List.forall_mem_cons.mpr ⟨ha, htaken⟩
    exact (yields_inList htaken).bind fun taken hall => yields_pure (by simpa using hall)
  · exact yields_wrongKind _ _ _

/-- A list where no bracket may be opened any more. -/
theorem yields_listOf_none (P : List α → Prop) : (listOf none).Yields P := by
  refine Yields.placed (yields_bind fun opening => ?_)
  split
  · exact Yields.bind (P := fun _ => False) (yields_inList (by simp)) fun _ h => h.elim
  · exact yields_wrongKind _ _ _

/-- Both forms have to yield what is asked for. -/
theorem yields_listOrObject {description : String} {forms : Option (Reader α × Reader α)}
    {P : α → Prop} (h : ∀ f ∈ forms, f.1.Yields P ∧ f.2.Yields P) :
    (listOrObject description forms).Yields P := by
  refine Yields.placed (yields_bind fun opening => ?_)
  split
  · refine yields_inList fun body hbody => ?_
    obtain ⟨f, hf, rfl⟩ := Option.map_eq_some_iff.mp hbody
    exact (h f hf).1
  · refine yields_inObject fun body hbody => ?_
    obtain ⟨f, hf, rfl⟩ := Option.map_eq_some_iff.mp hbody
    exact (h f hf).2
  · exact yields_wrongKind _ _ _

theorem yields_noRecord (description : String) (P : α → Prop) :
    (noRecord description : Reader α).Yields P :=
  yields_listOrObject (by simp)

/-! ## Records -/

/-- What the member adds keeps the invariant. -/
def Member.Preserves (I : σ → Prop) (m : Member σ) : Prop :=
  m.read.Yields fun add => ∀ s, I s → I (add s)

/-- Each value of a record in the form of a list preserves what holds of those before it. -/
theorem yields_listValues {I : σ → Prop} {members : List (Member σ)}
    (h : ∀ m ∈ members, m.Preserves I) {known : σ} (hknown : I known) (index : Nat) :
    (Record.listValues known index members).Yields I := by
  induction members generalizing known index with
  | nil => exact yields_pure hknown
  | cons m members ih =>
    obtain ⟨hm, hmembers⟩ := List.forall_mem_cons.mp h
    refine yields_bind fun more => ?_
    cases more with
    | false => exact yields_pure hknown
    | true => exact (hm.under _).bind fun add hadd => ih hmembers (hadd known hknown) _

/-- Each member of a record preserves what holds of those before it; a member that is skipped
changes nothing. -/
theorem yields_step {I : σ → Prop} {r : Record σ α} (h : ∀ m ∈ r.members, m.Preserves I)
    (state : List String × σ) (name : String) (hstate : I state.2) :
    (r.step state name).Yields fun state => I state.2 := by
  unfold Record.step
  split
  · rename_i m hm
    split
    · exact yields_failUnplaced _ _
    · have hpreserves := h m (List.mem_of_find?_eq_some hm)
      exact yields_bind fun _ => (hpreserves.under _).bind fun add hadd =>
        yields_pure (hadd state.2 hstate)
  · exact yields_bind fun _ => yields_bind fun _ => yields_pure hstate

/-- What a record is built of in the end has the invariant that its members keep. -/
theorem yields_record {I : σ → Prop} {r : Record σ α} (hblank : I r.blank)
    (h : ∀ m ∈ r.members, m.Preserves I) {Q : α → Prop}
    (hbuild : ∀ s value, I s → r.build s = .ok value → Q value) (description : String) :
    (record description r).Yields Q := by
  refine yields_listOrObject fun f hf => ?_
  obtain rfl := Option.some.inj hf
  constructor
  · refine (yields_listValues h hblank 0).bind fun known hknown => ?_
    split
    · rename_i value hvalue
      exact yields_pure (hbuild known value hknown hvalue)
    · exact yields_failUnplaced _ _
  · have hmembers : (Reader.members r.step ([], r.blank)).Yields fun state => I state.2 :=
      yields_members hblank (yields_step h)
    refine hmembers.bind fun ⟨seen, known⟩ hknown => ?_
    dsimp only
    split
    · rename_i value hvalue
      exact yields_pure (hbuild known value hknown hvalue)
    · exact yields_failUnplaced _ _

/-- A member that is needed is the one that was read. -/
theorem need_eq_ok_iff {name : String} {o : Option α} {value : α} :
    need name o = .ok value ↔ o = some value := by
  cases o <;> simp [need]

/-! ## Choices -/

/-- What a known name stands for is one of the choices. -/
theorem yields_knownChoice {choices : List (String × κ)} {P : κ → Prop}
    (h : ∀ c ∈ choices, P c.2) (name : String) :
    (knownChoice choices name).Yields fun chosen => P chosen.2 := by
  unfold knownChoice
  split
  · rename_i chosen hchosen
    exact yields_pure (h (name, chosen) (mem_of_lookup_eq_some hchosen))
  · exact yields_failUnplaced _ _

theorem yields_kindName {choices : List (String × κ)} {P : κ → Prop} (h : ∀ c ∈ choices, P c.2) :
    (kindName choices).Yields P :=
  Yields.placed (yields_bind fun name => (yields_knownChoice h name).bind fun _ hkind =>
    yields_pure hkind)

/-- What a choice yields is what its value yields. -/
theorem yields_choice {choices : List (String × κ)} {value : Option (κ → Reader α)} {P : α → Prop}
    (h : ∀ f ∈ value, ∀ k, (f k).Yields P) : (choice choices value).Yields P := by
  refine yields_bind fun opening => ?_
  split
  · exact yields_failNext _ _
  · split
    · exact yields_failNext _ _
    · rename_i f
      refine yields_bind fun _ => yields_bind fun sole => yields_bind fun _ => ?_
      exact ((h f rfl sole.2).under _).bind fun a ha => yields_bind fun _ => yields_pure ha
  · exact yields_bind fun _ => (yields_failUnplaced _ _).under _
  · exact yields_failNext _ _

end SelectionModels.Json.Reader
