import SelectionModels.Proofs.Skipping
import SelectionModels.Proofs.Streaming

/-! # Readers that stop at a bracket

A bracketed value is over at its closing bracket, and what is behind that bracket is not looked at,
not even as far as the next byte. So whatever else such a reader leaves to be read can be replaced
or left out.

* `Reader.Closes`: the last byte that is taken is a closing bracket;
* `Reader.Streams.bind_closes`, `Reader.Closes.bind_still`: what may come before and after;
* `Reader.closes_listOf`, `Reader.closes_record`, `Reader.closes_choice`, `Reader.closes_tagged`:
  the bracketed values;
* `Reader.streams_skipValue`, `Reader.streams_content`: values of any kind, which may be numbers.
-/

namespace SelectionModels.Json.Reader

variable {α β σ κ : Type}

/-! ## Values that are skipped -/

theorem streams_colon : colon.Streams := by
  refine streams_takeToken.bind fun first => ?_
  cases first with
  | none => exact streams_failNext _
  | some b =>
    dsimp only
    split
    · exact streams_pure _
    · exact streams_failHere _

/-- A key that is skipped, and the colon behind it. -/
theorem streams_skipKey : skipKey.Streams := by
  refine streams_takeToken.bind fun first => ?_
  cases first with
  | none => exact streams_failNext _
  | some b =>
    dsimp only
    split
    · exact streams_skipString.bind fun _ => streams_colon
    · exact streams_failHere_bind _ _

/-- What a skipped value starts with: all of it if it is no bracketed value, else its opening
bracket. -/
theorem streams_skipStart : skipStart.Streams := by
  refine streams_takeToken.bind fun first => ?_
  cases first with
  | none => exact streams_failNext _
  | some b =>
    dsimp only
    split
    · exact (streams_word _).bind fun _ => streams_pure _
    · exact (streams_word _).bind fun _ => streams_pure _
    · exact (streams_word _).bind fun _ => streams_pure _
    · exact streams_skipUnsigned.bind fun _ => streams_pure _
    · exact (streams_skipAfterDigit b).bind fun _ => streams_pure _
    · exact streams_skipString.bind fun _ => streams_pure _
    · exact streams_pure _
    · exact streams_pure _
    · exact streams_failHere _
    · exact streams_failHere _

theorem streams_skipEntry (enclosing : List Bracket) : (skipEntry enclosing).Streams := by
  have hlabel : (skipLabel enclosing).Streams := by
    unfold skipLabel
    split
    · exact streams_skipKey
    · exact streams_pure _
  refine hlabel.bind fun _ => streams_skipStart.bind fun opened => ?_
  cases opened with
  | some bracket => exact streams_pure _
  | none => exact streams_pure _

/-- One step of skipping, which looks at no more than the next token. -/
theorem streams_skipStep (state : SkipState) : (skipStep state).Streams := by
  unfold skipStep
  split
  · refine (streams_takeIf _).bind fun closed => ?_
    split
    · exact streams_pure _
    · refine streams_peekToken.bind fun first => ?_
      cases first with
      | none => exact streams_failNext _
      | some _ => exact streams_skipEntry _
  · refine streams_takeToken.bind fun first => ?_
    cases first with
    | none => exact streams_failNext _
    | some b =>
      dsimp only
      split
      · exact streams_pure _
      · split
        · exact streams_pure _
        · exact streams_failHere _
  · exact streams_skipEntry _

/-- Skipping a value is a loop of such steps, and a value that is no bracketed one is over where its
first step is. -/
theorem streams_skipValue : skipValue.Streams := by
  have hchain : ∀ state, skipFrom state = chain (skipStep state).run fun
      | none => .done ()
      | some state' => skipFrom state' := by
    intro state
    funext input
    rw [skipFrom_eq_resume, chain]
    cases (skipStep state).run input with
    | failed failure rest => rfl
    | done next rest => cases next <;> rfl
  have hfrom : ∀ state input, StreamsOn (skipFrom state) input := by
    intro state input
    -- a step fails, is the last one, or is followed by another
    induction state, input using skipFrom.induct with
    | case1 state input failure rest hstep =>
      rw [hchain state]
      exact streamsOn_chain_of_failed hstep
    | case2 state input rest hstep =>
      rw [hchain state]
      exact (streams_skipStep state input).chain_of_done hstep (streamsOn_done () rest)
    | case3 state input state' rest hstep _ ih =>
      rw [hchain state]
      exact (streams_skipStep state input).chain_of_done hstep ih
  exact hfrom (.entry, [])

/-! ## Lists and objects -/

/-- Whether another item comes shows at the next token, or at the one behind a comma. -/
theorem streams_nextItem (first : Bool) : (nextItem first).Streams := by
  refine streams_peekToken.bind fun ahead => ?_
  cases ahead with
  | none => exact streams_failNext _
  | some b =>
    dsimp only
    split
    · exact streams_pure _
    · split
      · exact streams_pure _
      · refine (streams_takeIf _).bind fun comma => ?_
        split
        · refine streams_peekToken.bind fun ahead => ?_
          cases ahead with
          | none => exact streams_failNext _
          | some b =>
            dsimp only
            split
            · exact streams_failNext _
            · exact streams_pure _
        · exact streams_failNext _

theorem streams_key : key.Streams := by
  refine streams_takeToken.bind fun first => ?_
  cases first with
  | none => exact streams_failNext _
  | some b =>
    dsimp only
    split
    · exact streams_stringBody.bind fun _ => streams_pure _
    · exact streams_failHere _

/-- Whether another key comes shows in the same way, and the key itself tells its end. -/
theorem streams_nextKey (first : Bool) : (nextKey first).Streams := by
  refine streams_peekToken.bind fun ahead => ?_
  cases ahead with
  | none => exact streams_failNext _
  | some b =>
    dsimp only
    split
    · exact streams_pure _
    · split
      · exact streams_key
      · refine (streams_takeIf _).bind fun comma => ?_
        split
        · refine streams_peekToken.bind fun ahead => ?_
          cases ahead with
          | none => exact streams_failNext _
          | some b =>
            dsimp only
            split
            · exact streams_failNext _
            · exact streams_key
        · exact streams_failNext _

/-- The items of a list, if each of them is read like this. -/
theorem streams_items {step : σ → Nat → Reader σ} (start : σ)
    (h : ∀ state index, (step state index).Streams) : (items step start).Streams := by
  have hchain : ∀ state index first, itemsFrom step state index first =
      chain (nextItem first).run fun
        | true => chain (step state index).run fun state' => itemsFrom step state' (index + 1) false
        | false => .done state := by
    intro state index first
    funext input
    rw [itemsFrom, chain]
    split
    · simp_all
    · simp_all
    · simp only [*, chain]
      split <;> simp_all
  have hfrom : ∀ state index first input, StreamsOn (itemsFrom step state index first) input := by
    intro state index first input
    -- a round asks whether there is an item, and either of the two readings may fail
    induction state, index, first, input using itemsFrom.induct step with
    | case1 state index first input failure rest hnext =>
      rw [hchain state]
      exact streamsOn_chain_of_failed hnext
    | case2 state index first input rest hnext =>
      rw [hchain state]
      exact (streams_nextItem first input).chain_of_done hnext (streamsOn_done state rest)
    | case3 state index first input rest hnext failure rest' hstep =>
      rw [hchain state]
      exact (streams_nextItem first input).chain_of_done hnext (streamsOn_chain_of_failed hstep)
    | case4 state index first input rest hnext state' rest' hstep ih =>
      rw [hchain state]
      exact (streams_nextItem first input).chain_of_done hnext
        ((h state index rest).chain_of_done hstep ih)
  exact hfrom start 0 true

theorem streams_memberKey (first : Bool) : (memberKey first).Streams :=
  (streams_nextKey first).under .unknown

/-- The members of an object, if the value of each is read like this. -/
theorem streams_members {step : σ → String → Reader σ} (start : σ)
    (h : ∀ state name, (step state name).Streams) : (members step start).Streams := by
  -- a round of the loop is a key and its value, and then the other members
  have hchain : ∀ state first, membersFrom step state first =
      chain (memberKey first).run fun name? => name?.elim (.done state) fun name =>
        chain (step state name).run fun state' => membersFrom step state' false := by
    intro state first
    funext input
    rw [membersFrom, chain]
    split
    · simp_all
    · simp_all
    · simp only [*, Option.elim_some, chain]
      split <;> simp_all
  have hfrom : ∀ state first input, StreamsOn (membersFrom step state first) input := by
    intro state first input
    induction state, first, input using membersFrom.induct step with
    | case1 state first input failure rest hkey =>
      rw [hchain state]
      exact streamsOn_chain_of_failed hkey
    | case2 state first input rest hkey =>
      rw [hchain state]
      exact (streams_memberKey first input).chain_of_done hkey (streamsOn_done state rest)
    | case3 state first input name rest hkey failure rest' hstep =>
      rw [hchain state]
      exact (streams_memberKey first input).chain_of_done hkey (streamsOn_chain_of_failed hstep)
    | case4 state first input name rest hkey state' rest' hstep ih =>
      rw [hchain state]
      exact (streams_memberKey first input).chain_of_done hkey
        ((h state name rest).chain_of_done hstep ih)
  exact hfrom start true

/-! ## Closing brackets -/

/-- The last byte that is taken is a closing bracket, and what is behind it is not looked at. -/
def Closes (r : Reader α) : Prop :=
  ∀ ⦃input rest : Bytes⦄ ⦃value : α⦄, r.run input = .done value rest →
    ∃ (front : Bytes) (bracket : Bracket), input = front ++ bracket.close :: rest ∧
      ∀ more, r.run (front ++ bracket.close :: more) = .done value more

/-- Nothing is taken and nothing is looked at. -/
def Still (r : Reader α) : Prop :=
  ∀ ⦃input rest : Bytes⦄ ⦃value : α⦄, r.run input = .done value rest →
    rest = input ∧ ∀ more, r.run more = .done value more

theorem still_pure (value : α) : (pure value : Reader α).Still := by
  intro input rest value' h
  cases h
  exact ⟨rfl, fun _ => rfl⟩

/-- A failure takes nothing, either. -/
theorem still_failUnplaced (fault : Fault) : (failUnplaced fault : Reader α).Still := by
  intro input rest value h
  simp [failUnplaced] at h

/-- To stop at a bracket asks for more than to look one byte ahead. -/
theorem Closes.streams {r : Reader α} (h : r.Closes) : r.Streams := by
  intro input rest value hrun
  obtain ⟨front, bracket, rfl, hahead⟩ := h hrun
  refine ⟨front ++ [bracket.close], by simp, fun b _ more => ?_⟩
  simpa using hahead (b :: more)

/-- A reader that never succeeds never takes a byte too many. -/
theorem closes_of_fails {r : Reader α} (h : ∀ input value rest, r.run input ≠ .done value rest) :
    r.Closes :=
  fun input rest value hrun => absurd hrun (h input value rest)

theorem closes_failUnplaced (fault : Fault) : (failUnplaced fault : Reader α).Closes :=
  closes_of_fails fun _ _ _ => by simp [failUnplaced]

theorem closes_failHere (fault : SyntaxFault) : (failHere fault : Reader α).Closes :=
  closes_of_fails fun _ _ _ => by simp [failHere]

theorem closes_failNext (fault : SyntaxFault) : (failNext fault : Reader α).Closes :=
  closes_of_fails fun _ _ _ => by simp [failNext]

/-- What is read first may look at the next byte, which is taken in the end. -/
theorem closes_bind_of_done {r : Reader α} {f : α → Reader β} (hr : r.Streams)
    {input mid rest : Bytes} {value : α} {result : β} (hfirst : r.run input = .done value mid)
    (hf : (f value).Closes) (hrun : (f value).run mid = .done result rest) :
    ∃ (front : Bytes) (bracket : Bracket), input = front ++ bracket.close :: rest ∧
      ∀ more, (r >>= f).run (front ++ bracket.close :: more) = .done result more := by
  obtain ⟨taken, rfl, hahead⟩ := hr input hfirst
  obtain ⟨taken', bracket, rfl, hahead'⟩ := hf hrun
  refine ⟨taken ++ taken', bracket, (List.append_assoc ..).symm, fun more => ?_⟩
  have hhead : bracket.close ∈ (bracket.close :: rest).head? := rfl
  -- the byte that the first reader sees is taken by the second one, and so it stays the same
  obtain ⟨c, hc, tail, htail⟩ := exists_cons_of_mem_head? hhead taken' more
  have hread : r.run (taken ++ taken' ++ bracket.close :: more) =
      .done value (taken' ++ bracket.close :: more) := by
    rw [List.append_assoc, htail]
    exact hahead c hc tail
  rw [run_bind_of_done hread]
  exact hahead' more

/-- What comes before a reader that stops at a bracket may look one byte ahead: that byte is within
the brackets. -/
theorem Streams.bind_closes {r : Reader α} {f : α → Reader β} (hr : r.Streams)
    (hf : ∀ value, (f value).Closes) : (r >>= f).Closes := by
  intro input rest result hrun
  rw [run_bind] at hrun
  cases hfirst : r.run input with
  | failed failure mid => simp [hfirst] at hrun
  | done value mid =>
    simp only [hfirst] at hrun
    exact closes_bind_of_done hr hfirst (hf value) hrun

/-- What comes behind may take nothing, and so look at nothing. -/
theorem Closes.bind_still {r : Reader α} {f : α → Reader β} (hr : r.Closes)
    (hf : ∀ value, (f value).Still) : (r >>= f).Closes := by
  intro input rest result hrun
  rw [run_bind] at hrun
  cases hfirst : r.run input with
  | failed failure mid => simp [hfirst] at hrun
  | done value mid =>
    simp only [hfirst] at hrun
    obtain ⟨front, bracket, hfront, hahead⟩ := hr hfirst
    obtain ⟨rfl, hstill⟩ := hf value hrun
    refine ⟨front, bracket, hfront, fun more => ?_⟩
    rw [run_bind_of_done (hahead more)]
    exact hstill more

/-- Readers that succeed alike. -/
theorem Closes.congr {r r' : Reader α} (h : r'.Closes)
    (hiff : ∀ input value rest, r.run input = .done value rest ↔ r'.run input = .done value rest) :
    r.Closes := by
  intro input rest value hrun
  obtain ⟨front, bracket, hfront, hahead⟩ := h ((hiff _ _ _).mp hrun)
  exact ⟨front, bracket, hfront, fun more => (hiff _ _ _).mpr (hahead more)⟩

theorem Closes.placed {r : Reader α} (h : r.Closes) : r.placed.Closes :=
  h.congr fun _ _ _ => run_mapFailure_eq_done_iff

/-- A body that succeeds is followed by its end. -/
theorem closes_closedBy {body : Reader α} {ending : Reader Unit} (hbody : body.Streams)
    (hending : ending.Closes) : (body.closedBy ending).Closes := by
  have hsequence : (body >>= fun value => ending >>= fun _ => pure value).Closes :=
    hbody.bind_closes fun value => hending.bind_still fun _ => still_pure value
  refine hsequence.congr fun input value rest => ?_
  simp only [closedBy, run_bind]
  cases body.run input with
  | failed failure mid => simp
  | done value mid => cases hend : ending.run mid <;> simp [hend]

/-- A byte that is taken stands behind blanks. -/
theorem exists_of_run_takeIf {b : UInt8} {input rest : Bytes}
    (h : (takeIf b).run input = .done true rest) : ∃ blanks, input = blanks ++ b :: rest ∧
      ∀ more, (takeIf b).run (blanks ++ b :: more) = .done true more := by
  refine ⟨input.takeWhile isBlank, ?_⟩
  rw [run_takeIf] at h
  cases hdrop : input.dropWhile isBlank with
  | nil => simp [hdrop] at h
  | cons c tail =>
    obtain ⟨rfl, rfl⟩ : c = b ∧ tail = rest := by
      simp only [hdrop, List.head?_cons, List.tail_cons, Option.some.injEq] at h
      split at h
      · rename_i hc
        cases h
        exact ⟨hc, rfl⟩
      · cases h
    have hinput : input = input.takeWhile isBlank ++ c :: tail := by
      rw [← hdrop, List.takeWhile_append_dropWhile]
    refine ⟨hinput, fun more => ?_⟩
    have hc : c ∈ (input.dropWhile isBlank).head? := by simp [hdrop]
    obtain ⟨-, hmore⟩ := span_stretch hc more
    simp [run_takeIf, hmore]

/-- A closing bracket is taken, or else nothing is read. -/
theorem closes_takeIf_bind (bracket : Bracket) {f : Bool → Reader α} (htrue : (f true).Still)
    (hfalse : (f false).Closes) : (takeIf bracket.close >>= f).Closes := by
  intro input rest value hrun
  rw [run_bind] at hrun
  cases htake : (takeIf bracket.close).run input with
  | failed failure mid => simp [htake] at hrun
  | done taken mid =>
    simp only [htake] at hrun
    cases taken with
    -- the bracket is not there, so what comes next has to stop at one
    | false => exact closes_bind_of_done (streams_takeIf _) htake hfalse hrun
    | true =>
      obtain ⟨rfl, hstill⟩ := htrue hrun
      obtain ⟨blanks, hinput, hahead⟩ := exists_of_run_takeIf htake
      refine ⟨blanks, bracket, hinput, fun more => ?_⟩
      rw [run_bind_of_done (hahead more)]
      exact hstill more

/-- The end of a list is its bracket and nothing else. -/
theorem closes_endList : endList.Closes := by
  refine closes_takeIf_bind .list (still_pure ()) ((streams_takeIf _).bind_closes fun comma => ?_)
  split
  · refine streams_peekToken.bind_closes fun first => ?_
    cases first with
    | none => exact closes_failNext _
    | some b =>
      dsimp only
      split
      · exact closes_failNext _
      · exact closes_failNext _
  · refine streams_peekToken.bind_closes fun first => ?_
    cases first with
    | none => exact closes_failNext _
    | some b => exact closes_failNext _

/-- The end of an object is its bracket and nothing else. -/
theorem closes_endObject : endObject.Closes := by
  refine closes_takeIf_bind .object (still_pure ())
    (streams_peekToken.bind_closes fun first => ?_)
  cases first with
  | none => exact closes_failNext _
  | some b =>
    dsimp only
    split
    · exact closes_failNext _
    · exact closes_failNext _

/-- The inside of a list between its brackets. -/
theorem closes_inList {inside : Option (Reader α)} (h : ∀ r ∈ inside, r.Streams) :
    (inList inside).Closes := by
  cases inside with
  | none => exact closes_failNext _
  | some body => exact streams_skip.bind_closes fun _ => closes_closedBy (h body rfl) closes_endList

/-- The inside of an object between its brackets. -/
theorem closes_inObject {inside : Option (Reader α)} (h : ∀ r ∈ inside, r.Streams) :
    (inObject inside).Closes := by
  cases inside with
  | none => exact closes_failNext _
  | some body =>
    exact streams_skip.bind_closes fun _ => closes_closedBy (h body rfl) closes_endObject

/-! ## Values of a known kind -/

/-- Where another kind is found, nothing is read. -/
theorem closes_wrongKind (opening : Opening) (expected : String) :
    (wrongKind opening expected : Reader α).Closes := by
  cases opening with
  | nothing => exact closes_failNext _
  | null =>
    exact streams_skip.bind_closes fun _ => (streams_word _).bind_closes fun _ =>
      closes_failUnplaced _
  | true =>
    exact streams_skip.bind_closes fun _ => (streams_word _).bind_closes fun _ =>
      closes_failUnplaced _
  | false =>
    exact streams_skip.bind_closes fun _ => (streams_word _).bind_closes fun _ =>
      closes_failUnplaced _
  | minus => exact streams_number.bind_closes fun _ => closes_failUnplaced _
  | digit => exact streams_number.bind_closes fun _ => closes_failUnplaced _
  | quote =>
    exact streams_skip.bind_closes fun _ => streams_stringBody.bind_closes fun _ =>
      closes_failUnplaced _
  | bracket => exact closes_failUnplaced _
  | brace => exact closes_failUnplaced _
  | other => exact closes_failNext _

theorem streams_textAs (expected : String) : (textAs expected).Streams := by
  refine Streams.placed (streams_peekOpening.bind fun opening => ?_)
  split
  · exact streams_skip.bind fun _ => streams_stringBody
  · exact (closes_wrongKind _ _).streams

theorem streams_text : text.Streams :=
  streams_textAs _

/-- A truth value is a word, and a word tells its own end. -/
theorem streams_flag : flag.Streams := by
  refine Streams.placed (streams_peekOpening.bind fun opening => ?_)
  split
  · exact streams_skip.bind fun _ => (streams_word _).bind fun _ => streams_pure _
  · exact streams_skip.bind fun _ => (streams_word _).bind fun _ => streams_pure _
  · exact (closes_wrongKind _ _).streams

/-- Whether there is a value shows at the first letter of `null`. -/
theorem streams_optional {r : Reader α} (h : r.Streams) : (optional r).Streams := by
  refine streams_peekOpening.bind fun opening => ?_
  split
  · exact streams_skip.bind fun _ => (streams_word _).bind fun _ => streams_pure _
  · exact h.map some

theorem streams_takenItems {r : Reader α} (h : r.Streams) :
    (items (fun taken index => (· :: taken) <$> r.under (.index index)) []).Streams :=
  streams_items [] fun taken index => (h.under (.index index)).map (· :: taken)

/-- A list stops at its bracket, whatever its items are. -/
theorem closes_listOf {item : Option (Reader α)} (h : ∀ r ∈ item, r.Streams) :
    (listOf item).Closes := by
  refine Closes.placed (streams_peekOpening.bind_closes fun opening => ?_)
  split
  · refine (closes_inList fun body hbody => ?_).bind_still fun _ => still_pure _
    obtain ⟨r, hr, rfl⟩ := Option.map_eq_some_iff.mp hbody
    exact streams_takenItems (h r hr)
  · exact closes_wrongKind _ _

/-- A value with a form as a list and a form as an object. -/
theorem closes_listOrObject {description : String} {forms : Option (Reader α × Reader α)}
    (h : ∀ f ∈ forms, f.1.Streams ∧ f.2.Streams) : (listOrObject description forms).Closes := by
  refine Closes.placed (streams_peekOpening.bind_closes fun opening => ?_)
  split
  · refine closes_inList fun body hbody => ?_
    obtain ⟨f, hf, rfl⟩ := Option.map_eq_some_iff.mp hbody
    exact (h f hf).1
  · refine closes_inObject fun body hbody => ?_
    obtain ⟨f, hf, rfl⟩ := Option.map_eq_some_iff.mp hbody
    exact (h f hf).2
  · exact closes_wrongKind _ _

/-- Where no bracket may be opened any more, nothing is read. -/
theorem closes_noRecord (description : String) : (noRecord description : Reader α).Closes :=
  closes_listOrObject nofun

/-! ## Records -/

namespace Record

variable {r : Record σ α}

/-- One member of a record: known and new, known and read before, or skipped. -/
theorem streams_step (h : ∀ m ∈ r.members, m.read.Streams) (state : List String × σ)
    (name : String) : (r.step state name).Streams := by
  unfold step
  split
  · rename_i member hmember
    have hread := h member (List.mem_of_find?_eq_some hmember)
    split
    · exact streams_failUnplaced _
    · exact streams_colon.bind fun _ => (hread.under _).bind fun _ => streams_pure _
  · exact streams_colon.bind fun _ => (streams_skipValue.under _).bind fun _ => streams_pure _

/-- A record as an object. -/
theorem streams_objectForm (h : ∀ m ∈ r.members, m.read.Streams) : r.objectForm.Streams := by
  refine (streams_members _ (streams_step h)).bind fun known => ?_
  dsimp only
  split
  · exact streams_pure _
  · exact streams_failUnplaced _

/-- The values of a list go to the members in their order, until there are no more of either. -/
theorem streams_listValues {members : List (Member σ)} (h : ∀ m ∈ members, m.read.Streams)
    (known : σ) (index : Nat) : (listValues known index members).Streams := by
  induction members generalizing known index with
  | nil => exact streams_pure _
  | cons member members ih =>
    obtain ⟨hmember, hmembers⟩ := List.forall_mem_cons.mp h
    refine (streams_nextItem _).bind fun another => ?_
    split
    · exact (hmember.under _).bind fun add => ih hmembers _ _
    · exact streams_pure _

/-- A record as a list of the values of its members. -/
theorem streams_listForm (h : ∀ m ∈ r.members, m.read.Streams) (description : String) :
    (r.listForm description).Streams := by
  refine (streams_listValues h _ _).bind fun known => ?_
  split
  · exact streams_pure _
  · exact streams_failUnplaced _

end Record

/-- A record stops at its bracket, in either form. -/
theorem closes_record {r : Record σ α} (h : ∀ m ∈ r.members, m.read.Streams)
    (description : String) : (record description r).Closes := by
  refine closes_listOrObject fun f hf => ?_
  obtain rfl := Option.some.inj hf
  exact ⟨Record.streams_listForm h description, Record.streams_objectForm h⟩

/-! ## Choices -/

/-- A name is known or not by itself. -/
theorem streams_knownChoice (choices : List (String × κ)) (name : String) :
    (knownChoice choices name).Streams := by
  unfold knownChoice
  split
  · exact streams_pure _
  · exact streams_failUnplaced _

/-- The one key of an object that makes a choice. -/
theorem streams_soleKey (choices : List (String × κ)) : (soleKey choices).Streams := by
  refine streams_peekToken.bind fun first => ?_
  cases first with
  | none => exact streams_failNext _
  | some b =>
    dsimp only
    split
    · exact streams_failNext _
    · split
      · exact Streams.placed (streams_skip.bind fun _ => streams_stringBody.bind fun name =>
          streams_knownChoice choices name)
      · exact streams_failNext _

theorem closes_soleEnd : soleEnd.Closes := by
  refine closes_takeIf_bind .object (still_pure ())
    (streams_peekToken.bind_closes fun first => ?_)
  cases first with
  | none => exact closes_failHere _
  | some b => exact closes_failHere _

/-- A choice that carries a value stops at its bracket; one without a value is not read at all. -/
theorem closes_choice {choices : List (String × κ)} {value : Option (κ → Reader α)}
    (h : ∀ f ∈ value, ∀ chosen, (f chosen).Streams) : (choice choices value).Closes := by
  refine streams_peekOpening.bind_closes fun opening => ?_
  split
  · exact closes_failNext _
  · cases value with
    | none => exact closes_failNext _
    | some f =>
      refine streams_skip.bind_closes fun _ => (streams_soleKey choices).bind_closes fun named =>
        streams_colon.bind_closes fun _ => ?_
      exact ((h f rfl named.2).under _).bind_closes fun result =>
        closes_soleEnd.bind_still fun _ => still_pure result
  · refine Streams.bind_closes (Streams.placed ?_) fun named => ?_
    · exact streams_skip.bind fun _ => streams_stringBody.bind fun name =>
        streams_knownChoice choices name
    · exact (closes_failUnplaced _).congr fun _ _ _ => run_mapFailure_eq_done_iff
  · exact closes_failNext _

/-! ## Tagged values -/

/-- Content of any kind. Only numbers look at the byte behind them. -/
theorem streams_contentWith {inner : Option (Reader Content)} (h : ∀ r ∈ inner, r.Streams) :
    (contentWith inner).Streams := by
  refine streams_peekOpening.bind fun opening => ?_
  cases opening with
  | nothing => exact streams_failNext _
  | null => exact streams_skip.bind fun _ => (streams_word _).bind fun _ => streams_pure _
  | true => exact streams_skip.bind fun _ => (streams_word _).bind fun _ => streams_pure _
  | false => exact streams_skip.bind fun _ => (streams_word _).bind fun _ => streams_pure _
  | minus => exact streams_number.bind fun _ => streams_pure _
  | digit => exact streams_number.bind fun _ => streams_pure _
  | quote => exact streams_skip.bind fun _ => streams_stringBody.bind fun _ => streams_pure _
  | bracket =>
    refine Closes.streams ((closes_inList fun body hbody => ?_).bind_still fun _ => still_pure _)
    obtain ⟨r, hr, rfl⟩ := Option.map_eq_some_iff.mp hbody
    exact streams_takenItems (h r hr)
  | brace =>
    refine Closes.streams ((closes_inObject fun body hbody => ?_).bind_still fun _ => still_pure _)
    obtain ⟨r, hr, rfl⟩ := Option.map_eq_some_iff.mp hbody
    refine streams_members [] fun taken name => streams_colon.bind fun _ => ?_
    exact ((h r hr).under _).bind fun _ => streams_pure _
  | other => exact streams_failNext _

/-- Content that nests at most so deep. -/
theorem streams_content (levels : Nat) : (content levels).Streams := by
  induction levels with
  | zero => exact streams_contentWith nofun
  | succ levels ih =>
    refine streams_contentWith fun r hr => ?_
    obtain rfl := Option.some.inj hr
    exact ih

theorem streams_kindName (choices : List (String × κ)) : (kindName choices).Streams :=
  Streams.placed ((streams_textAs _).bind fun name =>
    (streams_knownChoice choices name).bind fun _ => streams_pure _)

theorem streams_taggedResult (tag : String) (state : TaggedState κ β) :
    (taggedResult tag state).Streams := by
  unfold taggedResult
  split
  · exact streams_pure _
  · exact streams_failUnplaced _

/-- A tagged value as a list, in which the kind comes first. -/
theorem streams_taggedList (tag : String) (choices : List (String × κ)) {inner : Reader Content}
    (h : inner.Streams) : (taggedList tag choices inner).Streams := by
  refine Streams.bind (streams_items _ fun state index => ?_) fun final =>
    (streams_taggedResult tag final).bind fun _ => streams_pure _
  split
  · exact ((streams_kindName choices).under _).bind fun _ => streams_pure _
  · exact (h.under _).bind fun _ => streams_pure _

/-- A tagged value as an object, in which the kind may come anywhere. -/
theorem streams_taggedObject (tag : String) (choices : List (String × κ)) {inner : Reader Content}
    (h : inner.Streams) : (taggedObject tag choices inner).Streams := by
  refine Streams.bind (streams_members _ fun state name => ?_) fun final =>
    (streams_taggedResult tag final).bind fun _ => streams_pure _
  split
  · split
    · exact (streams_failUnplaced _).bind fun _ => streams_colon.bind fun _ =>
        ((streams_kindName choices).under _).bind fun _ => streams_pure _
    · exact streams_colon.bind fun _ =>
        ((streams_kindName choices).under _).bind fun _ => streams_pure _
  · exact streams_colon.bind fun _ => (h.under _).bind fun _ => streams_pure _

/-- A tagged value stops at its bracket, in either form. -/
theorem closes_tagged (description tag : String) (choices : List (String × κ))
    {inner : Option (Reader Content)} (h : ∀ r ∈ inner, r.Streams) :
    (tagged description tag choices inner).Closes := by
  refine closes_listOrObject fun f hf => ?_
  obtain ⟨r, hr, rfl⟩ := Option.map_eq_some_iff.mp hf
  exact ⟨streams_taggedList tag choices (h r hr), streams_taggedObject tag choices (h r hr)⟩

end SelectionModels.Json.Reader
