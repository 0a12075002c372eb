import SelectionModels.Proofs.Chains
import SelectionModels.Proofs.Integers
import SelectionModels.Proofs.Reading

/-! # Integers in place of strings

A reader that finds an integer where a string has to be says where. What stands before the integer
is read as ever, and what stands behind it is not read at all; so the failure has the location of
the string, one step for every bracket around it.

* `Value.Replaced`: a value with an integer in place of one of its strings;
* `Reader.FailsAt`: the reader fails at a location, however the value is written;
* `Reader.failsAt_textAs`: an integer is no string, whether it can be held or not;
* `Reader.failsAt_takenItems`, `Reader.failsAt_object`, `Reader.failsAt_choice`: what fails inside a
  bracket fails one step further in.
-/

namespace SelectionModels.Json

/-! ## Replacing -/

/-- The last value is the first one with the integer in place of the string at the location. -/
inductive Value.Replaced (z : Int) : Value → Location → Value → Prop where
  | here (s : String) : Replaced z (.string s) [] (.number (.ofInt z))
  | item {before after : List Value} {v v' : Value} {location : Location}
    (h : Replaced z v location v') :
    Replaced z (.array (before ++ v :: after)) (.index before.length :: location)
      (.array (before ++ v' :: after))
  | member {before after : List (String × Value)} {key : String} {v v' : Value}
    {location : Location} (h : Replaced z v location v') :
    Replaced z (.object (before ++ (key, v) :: after)) (.key key :: location)
      (.object (before ++ (key, v') :: after))

namespace Value.Replaced

variable {z : Int} {spoiled : Value} {location : Location}

/-- What is replaced in a list is replaced in one of its items. -/
theorem exists_of_array {items : List Value} (h : (array items).Replaced z location spoiled) :
    ∃ before after v v' inner, items = before ++ v :: after ∧ v.Replaced z inner v' ∧
      location = .index before.length :: inner ∧ spoiled = .array (before ++ v' :: after) := by
  generalize hv : Value.array items = value at h
  cases h with
  | here => cases hv
  | item h => exact ⟨_, _, _, _, _, by injection hv, h, rfl, rfl⟩
  | member => cases hv

/-- What is replaced in an object is replaced in one of its members. -/
theorem exists_of_object {members : List (String × Value)}
    (h : (object members).Replaced z location spoiled) :
    ∃ before after key v v' inner, members = before ++ (key, v) :: after ∧
      v.Replaced z inner v' ∧ location = .key key :: inner ∧
        spoiled = .object (before ++ (key, v') :: after) := by
  generalize hv : Value.object members = value at h
  cases h with
  | here => cases hv
  | item => cases hv
  | member h => exact ⟨_, _, _, _, _, _, by injection hv, h, rfl, rfl⟩

/-- An object with one key. -/
theorem exists_of_single {key : String} {v : Value}
    (h : (object [(key, v)]).Replaced z location spoiled) : ∃ v' inner,
      v.Replaced z inner v' ∧ location = .key key :: inner ∧ spoiled = .object [(key, v')] := by
  obtain ⟨before, after, key', u, v', inner, hmembers, hv, rfl, rfl⟩ := exists_of_object h
  obtain ⟨rfl, ⟨rfl, rfl⟩, rfl⟩ : before = [] ∧ (key' = key ∧ u = v) ∧ after = [] := by
    simpa [List.singleton_eq_append_iff] using hmembers
  exact ⟨v', inner, hv, rfl, rfl⟩

/-- What is replaced in a list of strings is one of them. -/
theorem exists_of_strings {names : List String}
    (h : (strings names).Replaced z location spoiled) :
    ∃ before s after, names = before ++ s :: after ∧ location = [.index before.length] ∧
      spoiled = .array (before.map .string ++ .number (.ofInt z) :: after.map .string) := by
  obtain ⟨_, _, _, _, _, hitems, hv, rfl, rfl⟩ := exists_of_array h
  obtain ⟨before, later, rfl, rfl, hlater⟩ := List.map_eq_append_iff.mp hitems
  obtain ⟨s, after, rfl, rfl, rfl⟩ := List.map_eq_cons_iff.mp hlater
  obtain ⟨⟩ := hv
  exact ⟨before, s, after, rfl, by rw [List.length_map], rfl⟩

end Value.Replaced

/-! ## Failing -/

/-- The reading has failed at the location. -/
def Outcome.FailsAt {α : Type} (location : Location) : Outcome α → Prop
  | .done _ _ => False
  | .failed failure _ => failure.location = location

namespace Outcome

variable {α : Type} {location : Location} {rest : Bytes}

/-- A success is no failure. -/
@[simp] theorem not_failsAt_done {value : α} : ¬(done value rest).FailsAt location :=
  id

@[simp] theorem failsAt_failed_iff {failure : Failure} :
    (failed failure rest : Outcome α).FailsAt location ↔ failure.location = location :=
  .rfl

end Outcome

namespace Reader

variable {α β σ κ : Type}

section Runs

variable {r : Reader α} {input : Bytes} {location : Location}

/-- Nothing comes after a failure. -/
theorem failsAt_bind (h : (r.run input).FailsAt location) (f : α → Reader β) :
    ((r >>= f).run input).FailsAt location := by
  rw [run_bind]
  cases hrun : r.run input with
  | done value rest => simp [hrun] at h
  | failed failure rest => simpa [hrun] using h

/-- A failure after a success is a failure of both. -/
theorem failsAt_bind_of_done {f : α → Reader β} {value : α} {rest : Bytes}
    (hrun : r.run input = .done value rest) (h : ((f value).run rest).FailsAt location) :
    ((r >>= f).run input).FailsAt location := by
  rwa [run_bind_of_done hrun]

/-- A failure is reported one step further in. -/
theorem failsAt_under (h : (r.run input).FailsAt location) (step : Step) :
    ((r.under step).run input).FailsAt (step :: location) := by
  cases hrun : r.run input with
  | done value rest => simp [hrun] at h
  | failed failure rest =>
    have hlocation : failure.location = location := by simpa [hrun] using h
    simp [under, mapFailure, hrun, Failure.under, hlocation]

/-- To say where in the text a failure is does not move it in the value. -/
theorem failsAt_placed (h : (r.run input).FailsAt location) :
    (r.placed.run input).FailsAt location := by
  cases hrun : r.run input with
  | done value rest => simp [hrun] at h
  | failed failure rest =>
    have hlocation : failure.location = location := by simpa [hrun] using h
    have hplaced : ∀ remaining, (failure.placedAt remaining).location = location := by
      intro remaining
      unfold Failure.placedAt
      split <;> exact hlocation
    simp [placed, mapFailure, hrun, hplaced]

/-- What comes of the end does not matter any more. -/
theorem failsAt_closedBy (h : (r.run input).FailsAt location) (ending : Reader Unit) :
    ((r.closedBy ending).run input).FailsAt location := by
  cases hrun : r.run input with
  | done value rest => simp [hrun] at h
  | failed failure rest => simpa [closedBy, hrun] using h

end Runs

/-- Every text of the value makes the reader fail at the location. -/
def FailsAt (r : Reader α) (v : Value) (location : Location) : Prop :=
  ∀ ⦃lead t : String⦄ ⦃rest : Bytes⦄, Blank lead → v.SpelledAs t → Ends rest →
    (r.run (textBytes lead ++ (textBytes t ++ rest))).FailsAt location

/-- Every text of a member, behind its key, makes the reader fail at the location. -/
def FailsAtMember (r : Reader α) (v : Value) (location : Location) : Prop :=
  ∀ ⦃before after t : String⦄ ⦃rest : Bytes⦄, Blank before → Blank after → v.SpelledAs t →
    Ends rest → (r.run (textBytes before ++ ':'.toUInt8 :: (textBytes after ++
      (textBytes t ++ rest)))).FailsAt location

namespace FailsAt

variable {r : Reader α} {v : Value} {location : Location}

theorem bind (h : r.FailsAt v location) (f : α → Reader β) : (r >>= f).FailsAt v location :=
  fun _ _ _ hlead ht hrest => failsAt_bind (h hlead ht hrest) f

/-- Nothing is made of a failure. -/
theorem map (h : r.FailsAt v location) (f : α → β) : (f <$> r).FailsAt v location := by
  rw [map_eq_pure_bind]
  exact h.bind _

theorem under (h : r.FailsAt v location) (step : Step) :
    (r.under step).FailsAt v (step :: location) :=
  fun _ _ _ hlead ht hrest => failsAt_under (h hlead ht hrest) step

theorem placed (h : r.FailsAt v location) : r.placed.FailsAt v location :=
  fun _ _ _ hlead ht hrest => failsAt_placed (h hlead ht hrest)

/-- A value that fails behind a colon. -/
theorem afterColon (h : r.FailsAt v location) :
    FailsAtMember (colon >>= fun _ => r) v location :=
  fun _ _ _ _ hbefore hafter ht hrest =>
    failsAt_bind_of_done (run_colon hbefore _) (h hafter ht hrest)

end FailsAt

/-- What has been read is not what it should be. -/
theorem FailsAt.of_reads {r : Reader α} {f : α → Reader β} {v : Value} {result : α}
    {location : Location} (h : r.Reads v result)
    (hf : ∀ rest, ((f result).run rest).FailsAt location) : (r >>= f).FailsAt v location :=
  fun _ _ rest hlead ht hrest => failsAt_bind_of_done (h hlead ht hrest) (hf rest)

/-- A reader that looks at the next token first. -/
theorem failsAt_of_opening {f : Opening → Reader α} {v : Value} {location : Location}
    (h : ∀ ⦃t : String⦄ ⦃rest : Bytes⦄, v.SpelledAs t → Ends rest →
      ((f (opening v)).run (textBytes t ++ rest)).FailsAt location) :
    (peekOpening >>= f).FailsAt v location :=
  fun _ _ rest hlead ht hrest =>
    failsAt_bind_of_done (run_peekOpening hlead ht rest) (h ht hrest)

/-! ## Integers -/

section Integers

variable {z : Int} {t : String} {rest : Bytes}

/-- An integer starts with a digit or with a minus. -/
theorem opening_ofInt (z : Int) :
    opening (.number (.ofInt z)) = .minus ∨ opening (.number (.ofInt z)) = .digit := by
  by_cases hz : z < 0
  · exact .inl (by simp [opening, Numeral.ofInt, hz])
  · exact .inr (by simp [opening, Numeral.ofInt, hz])

/-- An integer is read, or is out of range. -/
theorem run_number_of_spelledAs (ht : (Value.number (.ofInt z)).SpelledAs t) (hrest : Ends rest) :
    ∃ x?, x?.isSome = held z ∧ number.run (textBytes t ++ rest) = settled x? rest := by
  obtain _ | _ | hnumeral := ht
  rw [Numeral.eq_text_of_spelledAs hnumeral]
  obtain ⟨x?, hheld, hrun⟩ := run_number_ofInt z
  exact ⟨x?, hheld, hrun rest hrest⟩

/-- An integer that is out of range is at fault itself. -/
theorem failsAt_settled_none : (settled none rest).FailsAt [] :=
  rfl

/-- Where a string has to be, an integer is a fault, whether it is in range or not. -/
theorem failsAt_wrongKind (ht : (Value.number (.ofInt z)).SpelledAs t) (hrest : Ends rest)
    (expected : String) :
    ((wrongKind (opening (.number (.ofInt z))) expected : Reader α).run
      (textBytes t ++ rest)).FailsAt [] := by
  obtain ⟨x?, -, hrun⟩ := run_number_of_spelledAs ht hrest
  have hnumber : ((number >>= fun n => failUnplaced (.wrongKind (.number n) expected) :
      Reader α).run (textBytes t ++ rest)).FailsAt [] := by
    cases x? with
    | none => exact failsAt_bind (by rw [hrun]; exact failsAt_settled_none) _
    | some x => exact failsAt_bind_of_done hrun rfl
  rcases opening_ofInt z with hopening | hopening
  · rwa [hopening]
  · rwa [hopening]

end Integers

/-- An integer is no text, whether it can be held or not. -/
theorem failsAt_textAs (z : Int) (expected : String) :
    (textAs expected).FailsAt (.number (.ofInt z)) [] := by
  have hquote : opening (.number (.ofInt z)) ≠ .quote := by
    rcases opening_ofInt z with hopening | hopening <;> simp [hopening]
  refine FailsAt.placed (failsAt_of_opening fun t rest ht hrest => ?_)
  split
  · rename_i hopening
    exact absurd hopening hquote
  · exact failsAt_wrongKind ht hrest expected

/-- A value that may be missing fails as it would if it had to be there. -/
theorem failsAt_optional {r : Reader α} {v : Value} {location : Location}
    (h : r.FailsAt v location) (hv : opening v ≠ .null) : (optional r).FailsAt v location := by
  refine failsAt_of_opening fun t rest ht hrest => ?_
  have hfails := (h.map some) blank_empty ht hrest
  rw [textBytes_empty, List.nil_append] at hfails
  split
  · rename_i hnull
    exact absurd hnull hv
  · exact hfails

/-! ## Lists -/

/-- A fold over items ends with the first that fails. -/
theorem itemsFrom_of_failed {step : σ → Nat → Reader σ} {state : σ} {index : Nat} {first : Bool}
    {input rest : Bytes} {location : Location}
    (h : (nextItem first).run input = .done true rest)
    (h' : ((step state index).run rest).FailsAt location) :
    (itemsFrom step state index first input).FailsAt location := by
  rw [itemsFrom]
  split
  · simp_all
  · simp_all
  · split <;> simp_all

/-- The items before the one that fails are read. -/
theorem failsAt_items {step : σ → Nat → Reader σ} {state mid : σ} {index : Nat}
    {before after : List Value} {v : Value} {location : Location}
    (h : FoldsItems step state index before mid)
    (hstep : (step mid (index + before.length)).FailsAt v location) {first : Bool} {t : String}
    (ht : Value.ItemsSpelledAs first (before ++ v :: after) t) (rest : Bytes) :
    (itemsFrom step state index first (textBytes t ++ ']'.toUInt8 :: rest)).FailsAt location := by
  induction h generalizing first t with
  | nil =>
    obtain _ | @⟨_, _, _, lead, t, later, hlead, hvalue, hlater⟩ := ht
    obtain ⟨b, bytes, hbytes, hblank, hopening⟩ := exists_cons_of_spelledAs hvalue
    have hnext := run_nextItem_lead hlead hblank (ne_close_of_opening hopening .list)
      (bytes ++ (textBytes later ++ ']'.toUInt8 :: rest))
    have hfails := hstep blank_empty hvalue (ends_items hlater rest)
    rw [← List.cons_append, ← hbytes] at hnext
    rw [textBytes_empty, List.nil_append] at hfails
    rw [textBytes_append, textBytes_append, List.append_assoc, List.append_assoc]
    exact itemsFrom_of_failed hnext hfails
  | @cons _ _ _ index _ items hread _ ih =>
    -- this item is read, and the failure comes in the others
    obtain _ | @⟨_, _, _, lead, t, later, hlead, hvalue, hlater⟩ := ht
    obtain ⟨b, bytes, hbytes, hblank, hopening⟩ := exists_cons_of_spelledAs hvalue
    have hnext := run_nextItem_lead hlead hblank (ne_close_of_opening hopening .list)
      (bytes ++ (textBytes later ++ ']'.toUInt8 :: rest))
    have hdone := hread blank_empty hvalue (ends_items hlater rest)
    rw [← List.cons_append, ← hbytes] at hnext
    rw [textBytes_empty, List.nil_append] at hdone
    rw [textBytes_append, textBytes_append, List.append_assoc, List.append_assoc,
      itemsFrom_of_true hnext hdone]
    refine ih ?_ hlater
    rwa [List.length_cons, Nat.add_comm items.length, ← Nat.add_assoc] at hstep

/-- A failure inside the brackets of a list. -/
theorem failsAt_inList {body : Reader α} {t : String} {rest : Bytes} {location : Location}
    (h : (body.run (textBytes t ++ ']'.toUInt8 :: rest)).FailsAt location) :
    ((inList (some body)).run (textBytes ("[" ++ t ++ "]") ++ rest)).FailsAt location := by
  rw [textBytes_brackets, List.cons_append, List.append_assoc]
  exact failsAt_closedBy h endList

/-- A list fails where one of its items fails. -/
theorem failsAt_takenItems {r : Reader α} {before after : List Value} {v : Value}
    {location : Location} (hbefore : ∀ v ∈ before, ∃ a, r.Reads v a)
    (hv : r.FailsAt v location) {t : String}
    (ht : Value.ItemsSpelledAs true (before ++ v :: after) t) (rest : Bytes) :
    ((inList (some (Reader.items
      (fun taken index => (· :: taken) <$> r.under (.index index)) []))).run
        (textBytes ("[" ++ t ++ "]") ++ rest)).FailsAt (.index before.length :: location) := by
  obtain ⟨results, hresults⟩ := exists_forall₂_iff.mpr hbefore
  have hreads : List.Forall₂ (fun v a => ∀ index, Reads (r.under (.index index)) v a) before
      results := hresults.imp fun _ _ hread index => hread.under (.index index)
  have hfolds := foldsItems_of_forall₂ hreads [] 0
  refine failsAt_inList (failsAt_items hfolds ?_ ht rest)
  rw [Nat.zero_add]
  exact (hv.under (.index before.length)).map _

/-- An item fails after those that are read; its position is reported. -/
theorem failsAt_listOf {r : Reader α} {before after : List Value} {v : Value}
    {location : Location} (hbefore : ∀ v ∈ before, ∃ a, r.Reads v a)
    (hv : r.FailsAt v location) :
    (listOf (some r)).FailsAt (.array (before ++ v :: after))
      (.index before.length :: location) := by
  refine FailsAt.placed (failsAt_of_opening fun t rest ht _ => ?_)
  obtain _ | _ | _ | _ | hitems := ht
  exact failsAt_bind (failsAt_takenItems hbefore hv hitems rest) _

/-! ## Objects -/

/-- A fold over members ends with the first that fails. -/
theorem membersFrom_of_failed {step : σ → String → Reader σ} {state : σ} {first : Bool}
    {input rest : Bytes} {name : String} {location : Location}
    (h : (memberKey first).run input = .done (some name) rest)
    (h' : ((step state name).run rest).FailsAt location) :
    (membersFrom step state first input).FailsAt location := by
  rw [membersFrom]
  split
  · simp_all
  · simp_all
  · split <;> simp_all

/-- The members before the one that fails are read. -/
theorem failsAt_members {step : σ → String → Reader σ} {state mid : σ}
    {before after : List (String × Value)} {name : String} {v : Value} {location : Location}
    (h : FoldsMembers step state before mid)
    (hstep : FailsAtMember (step mid name) v location) {first : Bool} {t : String}
    (ht : Value.MembersSpelledAs first (before ++ (name, v) :: after) t) (rest : Bytes) :
    (membersFrom step state first (textBytes t ++ '\x7d'.toUInt8 :: rest)).FailsAt location := by
  induction h generalizing first t with
  | nil =>
    obtain _ | ⟨_, hlead, hbefore, hafter, hvalue, hlater⟩ := ht
    rw [textBytes_member]
    exact membersFrom_of_failed (run_memberKey_lead hlead _ _)
      (hstep hbefore hafter hvalue (ends_members hlater rest))
  | cons hread _ ih =>
    obtain _ | ⟨_, hlead, hbefore, hafter, hvalue, hlater⟩ := ht
    rw [textBytes_member, membersFrom_of_some (run_memberKey_lead hlead _ _)
      (hread hbefore hafter hvalue (ends_members hlater rest))]
    exact ih hstep hlater

/-- A failure inside the brackets of an object. -/
theorem failsAt_inObject {body : Reader α} {t : String} {rest : Bytes} {location : Location}
    (h : (body.run (textBytes t ++ '\x7d'.toUInt8 :: rest)).FailsAt location) :
    ((inObject (some body)).run (textBytes ("\x7b" ++ t ++ "\x7d") ++ rest)).FailsAt location := by
  rw [textBytes_braces, List.cons_append, List.append_assoc]
  exact failsAt_closedBy h endObject

/-- An object that is read member by member, up to the one that fails. -/
theorem failsAt_object {step : σ → String → Reader σ} {start mid : σ}
    {before after : List (String × Value)} {name : String} {v : Value} {location : Location}
    (h : FoldsMembers step start before mid) (hstep : FailsAtMember (step mid name) v location)
    (f : σ → Reader α) (description : String) (list : Reader α) :
    (listOrObject description (some (list, Reader.members step start >>= f))).FailsAt
      (.object (before ++ (name, v) :: after)) location := by
  refine FailsAt.placed (failsAt_of_opening fun t rest ht _ => ?_)
  obtain _ | _ | _ | _ | _ | hmembers := ht
  exact failsAt_inObject (failsAt_bind (failsAt_members h hstep hmembers rest) f)

/-- An object with one key fails where its value fails. -/
theorem failsAt_choice {choices : List (String × κ)} {name : String} {chosen : κ}
    (hchosen : choices.lookup name = some chosen) {value : κ → Reader α} {v : Value}
    {location : Location} (h : (value chosen).FailsAt v location) :
    (choice choices (some value)).FailsAt (.object [(name, v)]) (.key name :: location) := by
  refine failsAt_of_opening fun t rest ht _ => ?_
  obtain _ | _ | _ | _ | _ | hmembers := ht
  obtain _ | @⟨_, _, _, _, before, after, t, later, _, hblank, hbefore, hafter, hvalue, hlater⟩ :=
    hmembers
  obtain ⟨hblank⟩ := hblank
  obtain ⟨hlater⟩ := hlater
  have hends := ends_of_blank hlater (Bracket.object.ends_close rest)
  have hfails := h.under (.key name) hafter hvalue hends
  rw [textBytes_braces, List.cons_append, List.append_assoc, textBytes_member]
  change ((choiceBody choices value).run (_ ++ '"'.toUInt8 :: _)).FailsAt _
  refine failsAt_bind_of_done (run_soleKey hchosen hblank _) ?_
  refine failsAt_bind_of_done (run_colon hbefore _) ?_
  exact failsAt_bind hfails _

end Reader

end SelectionModels.Json
