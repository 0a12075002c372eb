import SelectionModels.Proofs.Skipping
import SelectionModels.Json.Reader.Tagged
import Mathlib.Data.List.Forall2

/-! # Values that are read

A reader takes a value when every text of it, behind blanks and before whatever cannot go on with
it, is read to its end with one result. Readers that are made of others take the values that are
made of theirs.

* `Reader.Reads`: the reader takes a value;
* `Reader.reads_text`, `Reader.reads_listOf` and their like: what the plain readers take;
* `Reader.run_members`: the fold over the members of an object;
* `Reader.reads_choice`: an object with one key.
-/

namespace SelectionModels.Json.Reader

variable {α β σ κ : Type}

/-- Every text of the value is read as the result. -/
def Reads (r : Reader α) (v : Value) (result : α) : Prop :=
  ∀ ⦃lead t : String⦄ ⦃rest : Bytes⦄, Blank lead → v.SpelledAs t → Ends rest →
    r.run (textBytes lead ++ (textBytes t ++ rest)) = .done result rest

/-- What is made of a value that is read. -/
theorem run_map_of_done (f : α → β) {r : Reader α} {input rest : Bytes} {value : α}
    (h : r.run input = .done value rest) : (f <$> r).run input = .done (f value) rest := by
  rw [run_map, h]

/-- A value is read no matter how failures would be told. -/
theorem run_mapFailure_of_done {change : Failure → Bytes → Failure} {r : Reader α}
    {input rest : Bytes} {value : α} (h : r.run input = .done value rest) :
    (r.mapFailure change).run input = .done value rest := by
  simp [mapFailure, h]

namespace Reads

variable {r : Reader α} {v : Value} {result : α}

theorem map (f : α → β) (h : Reads r v result) : Reads (f <$> r) v (f result) :=
  fun _ _ _ hlead ht hrest => run_map_of_done f (h hlead ht hrest)

theorem mapFailure (change : Failure → Bytes → Failure) (h : Reads r v result) :
    Reads (r.mapFailure change) v result :=
  fun _ _ _ hlead ht hrest => run_mapFailure_of_done (h hlead ht hrest)

/-- Where a value stands is told of failures only. -/
theorem under (step : Step) (h : Reads r v result) : Reads (r.under step) v result :=
  h.mapFailure _

/-- What comes after a value takes nothing more. -/
theorem bind {f : α → Reader β} {result' : β} (h : Reads r v result)
    (hf : ∀ rest, (f result).run rest = .done result' rest) : Reads (r >>= f) v result' := by
  intro lead t rest hlead ht hrest
  rw [run_bind_of_done (h hlead ht hrest), hf]

end Reads

theorem reads_skipValue (v : Value) : Reads skipValue v () :=
  fun _ _ _ hlead ht hrest => run_skipValue ht hlead hrest

/-! ## Plain values -/

/-- The first byte of a value shows what kind it is. -/
theorem run_peekOpening {lead t : String} {v : Value} (hlead : Blank lead) (ht : v.SpelledAs t)
    (rest : Bytes) : peekOpening.run (textBytes lead ++ (textBytes t ++ rest)) =
      .done (opening v) (textBytes t ++ rest) := by
  obtain ⟨b, bytes, hbytes, hblank, hopening⟩ := exists_cons_of_spelledAs ht
  rw [hbytes, List.cons_append, peekOpening, run_bind_of_done (run_peekToken hlead hblank _),
    hopening]
  rfl

/-- A string is read where a string is expected, whatever it is called. -/
theorem reads_textAs (expected s : String) : Reads (textAs expected) (.string s) s := by
  refine Reads.mapFailure _ fun lead t rest hlead ht _ => ?_
  rw [run_bind_of_done (run_peekOpening hlead ht rest)]
  obtain _ | _ | _ | _ := ht
  rw [textBytes_stringText]
  exact run_stringBody s rest

theorem reads_text (s : String) : Reads text (.string s) s :=
  reads_textAs _ s

theorem reads_flag (b : Bool) : Reads flag (.bool b) b := by
  refine Reads.mapFailure _ fun lead t rest hlead ht _ => ?_
  rw [run_bind_of_done (run_peekOpening hlead ht rest)]
  cases ht
  cases b with
  | true =>
    rw [if_pos rfl, textBytes_true]
    rfl
  | false =>
    rw [if_neg (by decide), textBytes_false]
    rfl

/-- What is not there is written as `null`. -/
theorem reads_optional_null (r : Reader α) : Reads (optional r) .null none := by
  intro lead t rest hlead ht _
  rw [optional, run_bind_of_done (run_peekOpening hlead ht rest)]
  cases ht
  rw [textBytes_null]
  rfl

/-- What is there is written as it is, and it is not `null`. -/
theorem reads_optional {r : Reader α} {v : Value} {result : α} (h : Reads r v result)
    (hv : opening v ≠ .null) : Reads (optional r) v (some result) := by
  intro lead t rest hlead ht hrest
  have hsome := run_map_of_done some (h blank_empty ht hrest)
  rw [textBytes_empty, List.nil_append] at hsome
  rw [optional, run_bind_of_done (run_peekOpening hlead ht rest)]
  split
  · rename_i hnull
    exact absurd hnull hv
  · exact hsome

/-- A string that may be missing. -/
theorem reads_optionalText (s : Option String) : Reads (optional text) (.optional s) s := by
  cases s with
  | none => exact reads_optional_null text
  | some s => exact reads_optional (reads_text s) (by simp [Value.optional, opening])

/-! ## Lists -/

/-- No item comes before the bracket. -/
theorem run_nextItem_close (first : Bool) {t : String} (h : Blank t) (rest : Bytes) :
    (nextItem first).run (textBytes t ++ ']'.toUInt8 :: rest) =
      .done false (']'.toUInt8 :: rest) := by
  rw [nextItem, run_bind_of_done (run_peekToken h (by decide) rest)]
  rfl

/-- An item comes after what leads to it: blanks, or a comma between blanks. -/
theorem run_nextItem_lead {first : Bool} {lead : String} (h : Lead first lead) {b : UInt8}
    (hb : isBlank b = false) (hclose : b ≠ ']'.toUInt8) (rest : Bytes) :
    (nextItem first).run (textBytes lead ++ b :: rest) = .done true (b :: rest) := by
  cases h with
  | first hblank =>
    rw [nextItem, run_bind_of_done (run_peekToken hblank hb rest)]
    simp [hclose]
  | @later s t hbefore hafter =>
    have hcomma := run_takeIf_of_eq blank_empty (b := ','.toUInt8) (by decide)
      (textBytes t ++ b :: rest)
    rw [textBytes_empty, List.nil_append] at hcomma
    rw [textBytes_append, textBytes_append, textBytes_comma, List.append_assoc, List.append_assoc,
      List.singleton_append, nextItem, run_bind_of_done (run_peekToken hbefore (by decide) _)]
    refine (run_bind_of_done hcomma).trans ?_
    rw [if_pos rfl, run_bind_of_done (run_peekToken hafter hb rest)]
    simp [hclose]

/-- A fold over items is over where no item comes. -/
theorem itemsFrom_of_false {step : σ → Nat → Reader σ} {state : σ} {index : Nat} {first : Bool}
    {input rest : Bytes} (h : (nextItem first).run input = .done false rest) :
    itemsFrom step state index first input = .done state rest := by
  rw [itemsFrom]
  split <;> simp_all

/-- A fold over items goes on behind an item. -/
theorem itemsFrom_of_true {step : σ → Nat → Reader σ} {state state' : σ} {index : Nat}
    {first : Bool} {input rest rest' : Bytes} (h : (nextItem first).run input = .done true rest)
    (h' : (step state index).run rest = .done state' rest') :
    itemsFrom step state index first input = itemsFrom step state' (index + 1) false rest' := by
  rw [itemsFrom]
  split
  · simp_all
  · simp_all
  · split <;> simp_all

/-- What a fold over items comes to. -/
inductive FoldsItems (step : σ → Nat → Reader σ) : σ → Nat → List Value → σ → Prop where
  | nil {state : σ} {index : Nat} : FoldsItems step state index [] state
  | cons {state state' final : σ} {index : Nat} {v : Value} {items : List Value}
    (hstep : Reads (step state index) v state')
    (hlater : FoldsItems step state' (index + 1) items final) :
    FoldsItems step state index (v :: items) final

/-- Items are folded over as they are spelled. -/
theorem run_items {step : σ → Nat → Reader σ} {state final : σ} {index : Nat}
    {items : List Value} (h : FoldsItems step state index items final) {first : Bool} {t : String}
    (ht : Value.ItemsSpelledAs first items t) (rest : Bytes) :
    itemsFrom step state index first (textBytes t ++ ']'.toUInt8 :: rest) =
      .done final (']'.toUInt8 :: rest) := by
  induction h generalizing first t with
  | nil =>
    obtain ⟨hblank⟩ := ht
    exact itemsFrom_of_false (run_nextItem_close first hblank rest)
  | cons hstep _ ih =>
    obtain _ | @⟨_, _, _, lead, t, later, hlead, hvalue, hlater⟩ := ht
    obtain ⟨b, bytes, hbytes, hblank, hopening⟩ := exists_cons_of_spelledAs hvalue
    -- the item starts with a byte that neither is a blank nor closes the list, so it is seen as one
    have hnext := run_nextItem_lead hlead hblank (ne_close_of_opening hopening .list)
      (bytes ++ (textBytes later ++ ']'.toUInt8 :: rest))
    have hread := hstep blank_empty hvalue (ends_items hlater rest)
    rw [← List.cons_append, ← hbytes] at hnext
    rw [textBytes_empty, List.nil_append] at hread
    rw [textBytes_append, textBytes_append, List.append_assoc, List.append_assoc,
      itemsFrom_of_true hnext hread]
    exact ih hlater

/-- What is read up to the closing bracket is read as the inside of a list. -/
theorem run_inList {body : Reader α} {t : String} {result : α} {rest : Bytes}
    (h : body.run (textBytes t ++ ']'.toUInt8 :: rest) = .done result (']'.toUInt8 :: rest)) :
    (inList (some body)).run (textBytes ("[" ++ t ++ "]") ++ rest) = .done result rest := by
  have hend := run_takeIf_of_eq blank_empty (b := ']'.toUInt8) (by decide) rest
  rw [textBytes_empty, List.nil_append] at hend
  have hclosed : endList.run (']'.toUInt8 :: rest) = .done () rest := by
    rw [endList, run_bind_of_done hend]
    rfl
  rw [textBytes_brackets, List.cons_append, List.append_assoc]
  change (body.closedBy endList).run (textBytes t ++ ']'.toUInt8 :: rest) = _
  simp [closedBy, h, hclosed]

/-- The results of the items, as a fold takes them. -/
theorem foldsItems_of_forall₂ {r : Nat → Reader α} {items : List Value} {results : List α}
    (h : List.Forall₂ (fun v a => ∀ index, Reads (r index) v a) items results) (taken : List α)
    (index : Nat) :
    FoldsItems (fun taken index => (· :: taken) <$> r index) taken index items
      (results.reverse ++ taken) := by
  induction h generalizing taken index with
  | nil => exact .nil
  | @cons v a _ _ hread _ ih =>
    rw [List.reverse_cons, List.append_assoc]
    exact .cons ((hread index).map _) (ih (a :: taken) (index + 1))

/-- A list that is read item by item. -/
theorem run_takenItems {r : Reader α} {items : List Value} {results : List α}
    (h : List.Forall₂ (Reads r) items results) {t : String}
    (ht : Value.ItemsSpelledAs true items t) (rest : Bytes) :
    (inList (some (Reader.items
      (fun taken index => (· :: taken) <$> r.under (.index index)) []))).run
        (textBytes ("[" ++ t ++ "]") ++ rest) = .done results.reverse rest := by
  have hreads : List.Forall₂ (fun v a => ∀ index, Reads (r.under (.index index)) v a) items
      results := h.imp fun _ _ hread index => hread.under (.index index)
  have hfolds := foldsItems_of_forall₂ hreads [] 0
  rw [List.append_nil] at hfolds
  exact run_inList (run_items hfolds ht rest)

/-- A list is read as the list of what its items are read as. -/
theorem reads_listOf {r : Reader α} {items : List Value} {results : List α}
    (h : List.Forall₂ (Reads r) items results) :
    Reads (listOf (some r)) (.array items) results := by
  refine Reads.mapFailure _ fun lead t rest hlead ht _ => ?_
  rw [run_bind_of_done (run_peekOpening hlead ht rest)]
  obtain _ | _ | _ | _ | hitems := ht
  refine (run_bind_of_done (run_takenItems h hitems rest)).trans ?_
  rw [List.reverse_reverse]
  rfl

/-! ## Objects -/

/-- Every text of a member, behind its key, is read as the result. -/
def ReadsMember (r : Reader α) (v : Value) (result : α) : Prop :=
  ∀ ⦃before after t : String⦄ ⦃rest : Bytes⦄, Blank before → Blank after → v.SpelledAs t →
    Ends rest → r.run (textBytes before ++ ':'.toUInt8 :: (textBytes after ++
      (textBytes t ++ rest))) = .done result rest

theorem run_colon {before : String} (h : Blank before) (rest : Bytes) :
    colon.run (textBytes before ++ ':'.toUInt8 :: rest) = .done () rest := by
  rw [colon, run_bind_of_done (run_takeToken h (by decide) _)]
  rfl

/-- A value is read behind the colon. -/
theorem Reads.afterColon {r : Reader α} {v : Value} {result : α} (h : Reads r v result) :
    ReadsMember (colon >>= fun _ => r) v result := by
  intro before after t rest hbefore hafter ht hrest
  rw [run_bind_of_done (run_colon hbefore _)]
  exact h hafter ht hrest

/-- No key comes before the bracket. -/
theorem run_memberKey_close (first : Bool) {t : String} (h : Blank t) (rest : Bytes) :
    (memberKey first).run (textBytes t ++ '\x7d'.toUInt8 :: rest) =
      .done none ('\x7d'.toUInt8 :: rest) := by
  refine run_mapFailure_of_done ?_
  rw [nextKey, run_bind_of_done (run_peekToken h (by decide) rest)]
  rfl

/-- A key comes after what leads to it. -/
theorem run_memberKey_lead {first : Bool} {lead : String} (h : Lead first lead) (name : String)
    (rest : Bytes) :
    (memberKey first).run (textBytes lead ++ '"'.toUInt8 :: (quotedRest name ++ rest)) =
      .done (some name) rest := by
  have hkey : key.run ('"'.toUInt8 :: (quotedRest name ++ rest)) = .done (some name) rest := by
    have hquote := run_takeToken blank_empty (b := '"'.toUInt8) (by decide)
      (quotedRest name ++ rest)
    rw [textBytes_empty, List.nil_append] at hquote
    rw [key, run_bind_of_done hquote]
    exact run_bind_of_done (run_stringBody name rest)
  refine run_mapFailure_of_done ?_
  cases h with
  | first hblank =>
    rw [nextKey, run_bind_of_done (run_peekToken hblank (by decide) _)]
    exact hkey
  | @later s t hbefore hafter =>
    have hcomma := run_takeIf_of_eq blank_empty (b := ','.toUInt8) (by decide)
      (textBytes t ++ '"'.toUInt8 :: (quotedRest name ++ rest))
    rw [textBytes_empty, List.nil_append] at hcomma
    rw [textBytes_append, textBytes_append, textBytes_comma, List.append_assoc, List.append_assoc,
      List.singleton_append, nextKey, run_bind_of_done (run_peekToken hbefore (by decide) _)]
    refine (run_bind_of_done hcomma).trans ?_
    rw [if_pos rfl, run_bind_of_done (run_peekToken hafter (by decide) _)]
    exact hkey

/-- A fold over members is over where no key comes. -/
theorem membersFrom_of_none {step : σ → String → Reader σ} {state : σ} {first : Bool}
    {input rest : Bytes} (h : (memberKey first).run input = .done none rest) :
    membersFrom step state first input = .done state rest := by
  rw [membersFrom]
  split <;> simp_all

/-- A fold over members goes on behind a member. -/
theorem membersFrom_of_some {step : σ → String → Reader σ} {state state' : σ} {first : Bool}
    {input rest rest' : Bytes} {name : String}
    (h : (memberKey first).run input = .done (some name) rest)
    (h' : (step state name).run rest = .done state' rest') :
    membersFrom step state first input = membersFrom step state' false rest' := by
  rw [membersFrom]
  split
  · simp_all
  · simp_all
  · split <;> simp_all

/-- What a fold over members comes to. -/
inductive FoldsMembers (step : σ → String → Reader σ) : σ → List (String × Value) → σ → Prop where
  | nil {state : σ} : FoldsMembers step state [] state
  | cons {state state' final : σ} {name : String} {v : Value} {members : List (String × Value)}
    (hstep : ReadsMember (step state name) v state')
    (hlater : FoldsMembers step state' members final) :
    FoldsMembers step state ((name, v) :: members) final

/-- Members are folded over as they are spelled. -/
theorem run_members {step : σ → String → Reader σ} {state final : σ}
    {members : List (String × Value)} (h : FoldsMembers step state members final) {first : Bool}
    {t : String} (ht : Value.MembersSpelledAs first members t) (rest : Bytes) :
    membersFrom step state first (textBytes t ++ '\x7d'.toUInt8 :: rest) =
      .done final ('\x7d'.toUInt8 :: rest) := by
  induction h generalizing first t with
  | nil =>
    obtain ⟨hblank⟩ := ht
    exact membersFrom_of_none (run_memberKey_close first hblank rest)
  | cons hstep _ ih =>
    obtain _ | ⟨_, hlead, hbefore, hafter, hvalue, hlater⟩ := ht
    rw [textBytes_member, membersFrom_of_some (run_memberKey_lead hlead _ _)
      (hstep hbefore hafter hvalue (ends_members hlater rest))]
    exact ih hlater

/-- What is read up to the closing bracket is read as the inside of an object. -/
theorem run_inObject {body : Reader α} {t : String} {result : α} {rest : Bytes}
    (h : body.run (textBytes t ++ '\x7d'.toUInt8 :: rest) =
      .done result ('\x7d'.toUInt8 :: rest)) :
    (inObject (some body)).run (textBytes ("\x7b" ++ t ++ "\x7d") ++ rest) =
      .done result rest := by
  have hend := run_takeIf_of_eq blank_empty (b := '\x7d'.toUInt8) (by decide) rest
  rw [textBytes_empty, List.nil_append] at hend
  have hclosed : endObject.run ('\x7d'.toUInt8 :: rest) = .done () rest := by
    rw [endObject, run_bind_of_done hend]
    rfl
  rw [textBytes_braces, List.cons_append, List.append_assoc]
  change (body.closedBy endObject).run (textBytes t ++ '\x7d'.toUInt8 :: rest) = _
  simp [closedBy, h, hclosed]

/-- An object that is read member by member, and made sense of in the end. -/
theorem reads_object {step : σ → String → Reader σ} {start final : σ}
    {members : List (String × Value)} (h : FoldsMembers step start members final)
    {f : σ → Reader α} {result : α} (hf : ∀ rest, (f final).run rest = .done result rest)
    (description : String) (list : Reader α) :
    Reads (listOrObject description (some (list, Reader.members step start >>= f)))
      (.object members) result := by
  refine Reads.mapFailure _ fun lead t rest hlead ht _ => ?_
  rw [run_bind_of_done (run_peekOpening hlead ht rest)]
  obtain _ | _ | _ | _ | _ | hmembers := ht
  refine run_inObject ((run_bind_of_done ?_).trans (hf _))
  exact run_members h hmembers rest

/-! ## Choices -/

/-- A name that is known stands for its choice. -/
theorem run_knownChoice {choices : List (String × κ)} {name : String} {chosen : κ}
    (h : choices.lookup name = some chosen) (rest : Bytes) :
    (knownChoice choices name).run rest = .done (name, chosen) rest := by
  rw [knownChoice, h]
  rfl

/-- The one key of an object names a choice. -/
theorem run_soleKey {choices : List (String × κ)} {name : String} {chosen : κ}
    (h : choices.lookup name = some chosen) {lead : String} (hlead : Blank lead) (rest : Bytes) :
    (soleKey choices).run (textBytes lead ++ '"'.toUInt8 :: (quotedRest name ++ rest)) =
      .done (name, chosen) rest := by
  rw [soleKey, run_bind_of_done (run_peekToken hlead (by decide) _)]
  refine run_mapFailure_of_done ?_
  exact (run_bind_of_done (run_stringBody name rest)).trans (run_knownChoice h rest)

/-- Nothing comes behind the one member. -/
theorem run_soleEnd {t : String} (h : Blank t) (rest : Bytes) :
    soleEnd.run (textBytes t ++ '\x7d'.toUInt8 :: rest) = .done () rest := by
  rw [soleEnd, run_bind_of_done (run_takeIf_of_eq h (by decide) rest)]
  rfl

/-- An object with one key, which says how its value is read. -/
theorem reads_choice {choices : List (String × κ)} {name : String} {chosen : κ}
    (hchosen : choices.lookup name = some chosen) {value : κ → Reader α} {v : Value} {result : α}
    (h : Reads (value chosen) v result) :
    Reads (choice choices (some value)) (.object [(name, v)]) result := by
  intro lead t rest hlead ht _
  rw [choice, run_bind_of_done (run_peekOpening hlead ht rest)]
  obtain _ | _ | _ | _ | _ | hmembers := ht
  obtain _ | @⟨_, _, _, _, before, after, t, later, _, hblank, hbefore, hafter, hvalue, hlater⟩ :=
    hmembers
  obtain ⟨hblank⟩ := hblank
  obtain ⟨hlater⟩ := hlater
  have hends := ends_of_blank hlater (Bracket.object.ends_close rest)
  have hread := h.under (.key name) hafter hvalue hends
  rw [textBytes_braces, List.cons_append, List.append_assoc, textBytes_member]
  change (choiceBody choices value).run (_ ++ '"'.toUInt8 :: _) = _
  refine (run_bind_of_done (run_soleKey hchosen hblank _)).trans ?_
  refine (run_bind_of_done (run_colon hbefore _)).trans ?_
  refine (run_bind_of_done hread).trans ?_
  exact run_bind_of_done (run_soleEnd hlater rest)

end SelectionModels.Json.Reader
