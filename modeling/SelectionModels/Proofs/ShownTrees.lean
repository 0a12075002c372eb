import SelectionModels.Proofs.Chains
import SelectionModels.Proofs.SkippedTrees
import SelectionModels.Proofs.Yields

/-! # Trees of values that are read

Whatever a reader comes to, the text that it took is the text of a tree, and what it came to has to
do with that tree. So facts about sources can be proved of trees, and of records at their entries:
a known key of a record is met once, in either form, and what is known in the end is what its
entries add, one after the other.

* `Reader.Shows`: a relation between the tree that is taken and the value that it is taken for;
* `Reader.shows_listOf`, `Reader.shows_choice`: bracketed values;
* `Tree.entries`, `Tree.Builds`: a record as what its entries add up to;
* `Reader.shows_record`: what is read as a record.
-/

namespace SelectionModels.Json

open Reader

variable {α β σ κ : Type}

namespace Reader

open Json.Tree

/-- What is taken is the text of a tree, and the value is related to that tree. -/
def Shows (r : Reader α) (P : Tree → α → Prop) : Prop :=
  ∀ ⦃input rest : Bytes⦄ ⦃value : α⦄, r.run input = .done value rest →
    ∃ t : Tree, t.StandsAt input rest ∧ P t value

/-- Less is said of the tree and the value. -/
theorem Shows.mono {r : Reader α} {P Q : Tree → α → Prop} (h : r.Shows P)
    (hPQ : ∀ t a, P t a → Q t a) : r.Shows Q := by
  intro input rest value hrun
  obtain ⟨t, ht, hvalue⟩ := h hrun
  exact ⟨t, ht, hPQ t value hvalue⟩

/-- What is made of a value has to do with the same tree. -/
theorem Shows.map {r : Reader α} {f : α → β} {P : Tree → α → Prop} {Q : Tree → β → Prop}
    (h : r.Shows P) (hf : ∀ t a, P t a → Q t (f a)) : (f <$> r).Shows Q := by
  intro input rest result hrun
  obtain ⟨value, hfirst, rfl⟩ := run_map_eq_done_iff.mp hrun
  obtain ⟨t, ht, hvalue⟩ := h hfirst
  exact ⟨t, ht, hf t value hvalue⟩

/-- How failures are told does not touch the tree. -/
theorem Shows.mapFailure {r : Reader α} {P : Tree → α → Prop} (h : r.Shows P)
    (change : Failure → Bytes → Failure) : (r.mapFailure change).Shows P :=
  fun _ _ _ hrun => h (run_mapFailure_eq_done_iff.mp hrun)

theorem Shows.under {r : Reader α} {P : Tree → α → Prop} (h : r.Shows P) (step : Step) :
    (r.under step).Shows P :=
  h.mapFailure _

theorem Shows.placed {r : Reader α} {P : Tree → α → Prop} (h : r.Shows P) : r.placed.Shows P :=
  h.mapFailure _

/-- A reader that never succeeds takes no tree. -/
theorem shows_of_fails {r : Reader α} {P : Tree → α → Prop}
    (h : ∀ input value rest, r.run input ≠ .done value rest) : r.Shows P :=
  fun input rest value hrun => absurd hrun (h input value rest)

/-- Where another kind is found, nothing is read. -/
theorem run_wrongKind_ne_done (opening : Opening) (expected : String) (input : Bytes) (value : α)
    (rest : Bytes) : (wrongKind opening expected).run input ≠ .done value rest :=
  fun hrun => yields_wrongKind opening expected (fun _ => False) hrun

/-! ## Plain values -/

/-- What a reader does that looks at the next token first. -/
theorem run_peekOpening_bind_eq_done_iff {f : Opening → Reader α} {input rest : Bytes} {value : α} :
    (peekOpening >>= f).run input = .done value rest ↔
      (f (.ofByte? (input.dropWhile isBlank).head?)).run (input.dropWhile isBlank) =
        .done value rest := Iff.rfl

/-- One byte is dropped. -/
theorem run_skip_bind (f : Unit → Reader α) (b : UInt8) (after : Bytes) :
    (skip >>= f).run (b :: after) = (f ()).run after := rfl

/-- A token that starts with a certain byte. -/
theorem exists_cons_of_mark? {input : Bytes} {opening : Opening} {b : UInt8}
    (h : Opening.ofByte? input.head? = opening) (hmark : opening.mark? = some b) :
    ∃ after, input = b :: after :=
  List.head?_eq_some_iff.mp (Opening.eq_of_mark? (h ▸ hmark))

/-- A word, told from its first byte, and what it stands for. -/
theorem exists_of_word {word : Reader Unit} {opening : Opening} {b : UInt8} {input rest : Bytes}
    {result value : α} (hopening : Opening.ofByte? (input.dropWhile isBlank).head? = opening)
    (hmark : opening.mark? = some b) (hword : plainEnd b = word)
    (hrun : (skip >>= fun _ => word >>= fun _ => pure result).run (input.dropWhile isBlank) =
      .done value rest) : Tree.plain.StandsAt input rest ∧ value = result := by
  obtain ⟨after, hstart⟩ := exists_cons_of_mark? hopening hmark
  rw [hstart, run_skip_bind] at hrun
  obtain ⟨_, _, hend, ⟨⟩⟩ := run_bind_eq_done_iff.mp hrun
  exact ⟨.plain hstart (hword ▸ hend), rfl⟩

/-- A string stands behind its opening quote. -/
theorem standsAt_of_stringBody {input after rest : Bytes} {s : String}
    (hstart : input.dropWhile isBlank = '"'.toUInt8 :: after)
    (h : stringBody.run after = .done s rest) : (Tree.text (some s)).StandsAt input rest := by
  obtain ⟨hskip, hs⟩ := skipString_of_stringBody h
  rw [← hs]
  exact .text hstart hskip

/-- A text is taken as a tree that is that text. -/
theorem shows_textAs (expected : String) :
    (textAs expected).Shows fun t s => t = .text (some s) := by
  refine Shows.placed fun input rest s hrun => ?_
  rw [run_peekOpening_bind_eq_done_iff] at hrun
  split at hrun
  · rename_i hopening
    obtain ⟨after, hstart⟩ := exists_cons_of_mark? hopening rfl
    rw [hstart] at hrun
    exact ⟨_, standsAt_of_stringBody hstart hrun, rfl⟩
  · exact absurd hrun (run_wrongKind_ne_done _ _ _ _ _)

theorem shows_text : text.Shows fun t s => t = .text (some s) :=
  shows_textAs _

/-- A truth value is a tree with nothing to tell. -/
theorem shows_flag : flag.Shows fun t _ => t = .plain := by
  refine Shows.placed fun input rest value hrun => ?_
  rw [run_peekOpening_bind_eq_done_iff] at hrun
  split at hrun
  · rename_i hopening
    obtain ⟨ht, rfl⟩ := exists_of_word hopening rfl rfl hrun
    exact ⟨_, ht, rfl⟩
  · rename_i hopening
    obtain ⟨ht, rfl⟩ := exists_of_word hopening rfl rfl hrun
    exact ⟨_, ht, rfl⟩
  · exact absurd hrun (run_wrongKind_ne_done _ _ _ _ _)

/-- `null`, or the tree of the value. -/
theorem shows_optional {r : Reader α} {P : Tree → α → Prop} (h : r.Shows P) :
    (optional r).Shows fun t o => o.elim (t = .plain) (P t) := by
  intro input rest value hrun
  rw [optional, run_peekOpening_bind_eq_done_iff] at hrun
  split at hrun
  · rename_i hopening
    obtain ⟨ht, rfl⟩ := exists_of_word hopening rfl rfl hrun
    exact ⟨_, ht, rfl⟩
  · obtain ⟨a, hread, rfl⟩ := run_map_eq_done_iff.mp hrun
    obtain ⟨t, ht, ha⟩ := h hread
    exact ⟨t, ht.of_dropWhile, ha⟩

/-! ## Lists -/

/-- A byte that is taken is the next token. -/
theorem dropWhile_of_takeIf {b : UInt8} {input rest : Bytes}
    (h : (takeIf b).run input = .done true rest) : input.dropWhile isBlank = b :: rest := by
  rw [run_takeIf] at h
  split at h
  · rename_i hhead
    obtain ⟨tail, htail⟩ := List.head?_eq_some_iff.mp hhead
    rw [htail] at h
    cases h
    exact htail
  · cases h

/-- What comes before an item, or that none comes. -/
theorem of_run_nextItem {first more : Bool} {input mid : Bytes}
    (h : (nextItem first).run input = .done more mid) :
    if more then ∃ after, Separated first input after ∧ mid = after.dropWhile isBlank
    else mid = input.dropWhile isBlank := by
  obtain ⟨ahead, _, ⟨⟩, hahead⟩ := run_bind_eq_done_iff.mp h
  cases hinput : input.dropWhile isBlank with
  | nil => simp [hinput, failNext] at hahead
  | cons b tail =>
    simp only [hinput, List.head?_cons] at hahead
    split at hahead
    · -- the bracket closes
      cases hahead
      rfl
    · split at hahead
      · -- no comma stands before the first item
        rename_i hfirst
        cases hahead
        exact ⟨input, by rw [Separated, if_pos hfirst], hinput.symm⟩
      · rename_i hlater
        obtain ⟨comma, behind, hcomma, hmore⟩ := run_bind_eq_done_iff.mp hahead
        cases comma with
        | false => cases hmore
        | true =>
          obtain ⟨ahead, _, ⟨⟩, hitem⟩ := run_bind_eq_done_iff.mp hmore
          have hstart := dropWhile_of_takeIf hcomma
          rw [← hinput, List.dropWhile_idempotent] at hstart
          split at hitem
          · cases hitem
          · split at hitem
            · cases hitem
            · cases hitem
              exact ⟨behind, by rwa [Separated, if_neg hlater], rfl⟩

/-- A closing bracket stands where a list ends. -/
theorem dropWhile_of_endList {input rest : Bytes} (h : endList.run input = .done () rest) :
    input.dropWhile isBlank = ']'.toUInt8 :: rest := by
  obtain ⟨closed, mid, hclose, hlater⟩ := run_bind_eq_done_iff.mp h
  cases closed with
  | true =>
    cases hlater
    exact dropWhile_of_takeIf hclose
  | false =>
    obtain ⟨comma, _, -, hmore⟩ := run_bind_eq_done_iff.mp hlater
    cases comma with
    | true =>
      obtain ⟨ahead, _, -, hfails⟩ := run_bind_eq_done_iff.mp hmore
      cases ahead with
      | none => cases hfails
      | some b => dsimp only at hfails; split at hfails <;> cases hfails
    | false =>
      obtain ⟨ahead, _, -, hfails⟩ := run_bind_eq_done_iff.mp hmore
      cases ahead <;> cases hfails

/-- An invariant of a fold over items, which are those up to the bracket. -/
theorem exists_items {step : σ → Nat → Reader σ} {I : List Tree → σ → Prop}
    (hstep : ∀ ts state, I ts state →
      (step state ts.length).Shows fun t state' => I (ts ++ [t]) state')
    {start value : σ} (hstart : I [] start) {input mid rest : Bytes}
    (hrun : (items step start).run input = .done value mid)
    (hend : mid.dropWhile isBlank = ']'.toUInt8 :: rest) :
    ∃ ts, ItemsStandAt true ts input rest ∧ I ts value := by
  have hfrom : ∀ ts state index first input, index = ts.length → I ts state →
      itemsFrom step state index first input = .done value mid →
        ∃ later, ItemsStandAt first later input rest ∧ I (ts ++ later) value := by
    intro ts state index first input hindex hstate hrun
    -- by induction on the fold; the invariant is about all items up to here
    fun_induction itemsFrom step state index first input generalizing ts with
    | case1 => cases hrun
    | case2 state index first input mid' hnext =>
      cases hrun
      obtain rfl := of_run_nextItem hnext
      rw [List.dropWhile_idempotent] at hend
      exact ⟨[], .nil hend, by rwa [List.append_nil]⟩
    | case3 => cases hrun
    | case4 state index first input mid' hnext state' rest' hread ih =>
      obtain ⟨after, hlead, rfl⟩ := of_run_nextItem hnext
      subst hindex
      obtain ⟨t, ht, hstate'⟩ := hstep ts state hstate hread
      obtain ⟨later, hlater, hvalue⟩ := ih (ts ++ [t]) (by simp) hstate' hrun
      rw [List.append_assoc] at hvalue
      exact ⟨t :: later, .cons hlead ht.of_dropWhile hlater, hvalue⟩
  exact hfrom [] start 0 true input rfl hstart hrun

/-- A body and its end succeed together. -/
theorem run_closedBy_eq_done_iff {body : Reader α} {ending : Reader Unit} {input rest : Bytes}
    {value : α} : (body.closedBy ending).run input = .done value rest ↔
      ∃ mid, body.run input = .done value mid ∧ ending.run mid = .done () rest := by
  simp only [closedBy]
  cases hbody : body.run input with
  | failed failure mid => simp
  | done value' mid =>
    cases hend : ending.run mid with
    | failed failure mid' => simp [hend]
    | done _ mid' => simp [hend]

/-- The inside of a list, and its end. -/
theorem exists_of_inList {inside : Option (Reader α)} {b : UInt8} {after rest : Bytes} {value : α}
    (h : (inList inside).run (b :: after) = .done value rest) :
    ∃ body ∈ inside, ∃ mid, body.run after = .done value mid ∧
      mid.dropWhile isBlank = ']'.toUInt8 :: rest := by
  cases inside with
  | none => cases h
  | some body =>
    rw [inList, run_skip_bind, run_closedBy_eq_done_iff] at h
    obtain ⟨mid, hbody, hend⟩ := h
    exact ⟨body, rfl, mid, hbody, dropWhile_of_endList hend⟩

/-- A list is taken as a list of the trees that its items are taken as. -/
theorem shows_listOf {item : Option (Reader α)} {P : Tree → α → Prop}
    (h : ∀ r ∈ item, r.Shows P) :
    (listOf item).Shows fun t xs => ∃ ts, t = .list ts ∧ List.Forall₂ P ts xs := by
  refine Shows.placed fun input rest value hrun => ?_
  rw [run_peekOpening_bind_eq_done_iff] at hrun
  split at hrun
  · rename_i hopening
    obtain ⟨after, hstart⟩ := exists_cons_of_mark? hopening rfl
    rw [hstart] at hrun
    obtain ⟨taken, _, hlist, ⟨⟩⟩ := run_bind_eq_done_iff.mp hrun
    obtain ⟨body, hbody, mid, hitems, hend⟩ := exists_of_inList hlist
    obtain ⟨r, hr, rfl⟩ := Option.map_eq_some_iff.mp hbody
    -- the items are taken in reverse
    have hstep : ∀ (ts : List Tree) (taken : List α), List.Forall₂ P ts taken.reverse →
        Shows ((· :: taken) <$> r.under (.index ts.length)) fun t taken' =>
          List.Forall₂ P (ts ++ [t]) taken'.reverse := by
      intro ts taken htaken
      refine ((h r hr).under _).map fun t a ha => ?_
      rw [List.reverse_cons]
      exact List.rel_append htaken (.cons ha .nil)
    obtain ⟨ts, hts, htaken⟩ := exists_items hstep .nil hitems hend
    exact ⟨_, .list hstart hts, ts, rfl, htaken⟩
  · exact absurd hrun (run_wrongKind_ne_done _ _ _ _ _)

/-! ## Objects -/

/-- Members of which all keys are texts. -/
def named (members : List (String × Tree)) : List (Option String × Tree) :=
  members.map fun m => (some m.1, m.2)

/-- A key stands behind its opening quote. -/
theorem of_run_key {input mid : Bytes} {name? : Option String}
    (h : key.run input = .done name? mid) :
    ∃ name behind, name? = some name ∧ input.dropWhile isBlank = '"'.toUInt8 :: behind ∧
      stringBody.run behind = .done name mid := by
  obtain ⟨first, after, hfirst, hlater⟩ := run_bind_eq_done_iff.mp h
  rw [run_takeToken_eq] at hfirst
  cases hinput : input.dropWhile isBlank with
  | nil =>
    rw [hinput] at hfirst
    cases hfirst
    cases hlater
  | cons b behind =>
    rw [hinput] at hfirst
    cases hfirst
    dsimp only [List.head?_cons] at hlater
    split at hlater
    · rename_i hb
      subst hb
      obtain ⟨name, _, hbody, ⟨⟩⟩ := run_bind_eq_done_iff.mp hlater
      exact ⟨name, behind, rfl, rfl, hbody⟩
    · cases hlater

/-- What comes before the colon of a member, or that none comes. -/
theorem of_run_memberKey {first : Bool} {input mid : Bytes} {name? : Option String}
    (h : (memberKey first).run input = .done name? mid) :
    match name? with
    | some name => ∃ after behind, Separated first input after ∧
        after.dropWhile isBlank = '"'.toUInt8 :: behind ∧ stringBody.run behind = .done name mid
    | none => mid = input.dropWhile isBlank := by
  have hkey : ∀ after, Separated first input after →
      key.run (after.dropWhile isBlank) = .done name? mid →
        ∃ name, name? = some name ∧ ∃ after behind, Separated first input after ∧
          after.dropWhile isBlank = '"'.toUInt8 :: behind ∧
            stringBody.run behind = .done name mid := by
    intro after hlead hrun
    obtain ⟨name, behind, rfl, hquote, hbody⟩ := of_run_key hrun
    rw [List.dropWhile_idempotent] at hquote
    exact ⟨name, rfl, after, behind, hlead, hquote, hbody⟩
  obtain ⟨ahead, _, ⟨⟩, hahead⟩ :=
    run_bind_eq_done_iff.mp (run_mapFailure_eq_done_iff.mp h)
  cases hinput : input.dropWhile isBlank with
  | nil =>
    rw [hinput] at hahead
    cases hahead
  | cons b tail =>
    rw [hinput] at hahead
    dsimp only [List.head?_cons] at hahead
    split at hahead
    · -- the bracket closes
      cases hahead
      rfl
    · split at hahead
      · -- no comma stands before the first key
        rename_i hfirst
        rw [← hinput] at hahead
        obtain ⟨name, rfl, hname⟩ := hkey input (by rw [Separated, if_pos hfirst]) hahead
        exact hname
      · rename_i hlater
        obtain ⟨comma, behind, hcomma, hmore⟩ := run_bind_eq_done_iff.mp hahead
        cases comma with
        | false => cases hmore
        | true =>
          obtain ⟨ahead, _, ⟨⟩, hmember⟩ := run_bind_eq_done_iff.mp hmore
          have hstart := dropWhile_of_takeIf hcomma
          rw [← hinput, List.dropWhile_idempotent] at hstart
          split at hmember
          · cases hmember
          · split at hmember
            · cases hmember
            · obtain ⟨name, rfl, hname⟩ :=
                hkey behind (by rwa [Separated, if_neg hlater]) hmember
              exact hname

/-- A colon is taken, and then the text of a tree. -/
def ShowsMember (r : Reader α) (P : Tree → α → Prop) : Prop :=
  ∀ ⦃input rest : Bytes⦄ ⦃value : α⦄, r.run input = .done value rest →
    ∃ after t, input.dropWhile isBlank = ':'.toUInt8 :: after ∧ StandsAt t after rest ∧ P t value

/-- A member has to do with the tree of its value. -/
theorem Shows.afterColon {r : Reader α} {P : Tree → α → Prop} (h : r.Shows P) :
    (colon >>= fun _ => r).ShowsMember P := by
  intro input rest value hrun
  obtain ⟨_, after, hcolon, hread⟩ := run_bind_eq_done_iff.mp hrun
  obtain ⟨t, ht, hvalue⟩ := h hread
  exact ⟨after, t, dropWhile_of_colon hcolon, ht, hvalue⟩

/-- An invariant of a fold over members, which are those up to the brace. -/
theorem exists_members {step : σ → String → Reader σ} {I : List (String × Tree) → σ → Prop}
    (hstep : ∀ ms state name, I ms state →
      (step state name).ShowsMember fun t state' => I (ms ++ [(name, t)]) state')
    {start value : σ} (hstart : I [] start) {input mid rest : Bytes}
    (hrun : (members step start).run input = .done value mid)
    (hend : mid.dropWhile isBlank = '\x7d'.toUInt8 :: rest) :
    ∃ ms, MembersStandAt true (named ms) input rest ∧ I ms value := by
  have hfrom : ∀ ms state first input, I ms state →
      membersFrom step state first input = .done value mid →
        ∃ later, MembersStandAt first (named later) input rest ∧ I (ms ++ later) value := by
    intro ms state first input hstate hrun
    -- by induction on the fold, as for items
    fun_induction membersFrom step state first input generalizing ms with
    | case1 => cases hrun
    | case2 state first input mid' hkey =>
      cases hrun
      have hmid : mid = input.dropWhile isBlank := of_run_memberKey hkey
      rw [hmid, List.dropWhile_idempotent] at hend
      exact ⟨[], .nil hend, by rwa [List.append_nil]⟩
    | case3 => cases hrun
    | case4 state first input name mid' hkey state' rest' hread ih =>
      obtain ⟨after, behind, hlead, hquote, hbody⟩ := of_run_memberKey hkey
      obtain ⟨value', t, hcolon, ht, hstate'⟩ := hstep ms state name hstate hread
      obtain ⟨later, hlater, hvalue⟩ := ih (ms ++ [(name, t)]) hstate' hrun
      obtain ⟨hskip, hname⟩ := skipString_of_stringBody hbody
      rw [List.append_assoc] at hvalue
      refine ⟨(name, t) :: later, .cons hlead ?_ ht hlater, hvalue⟩
      rw [← hname]
      exact .mk hquote hskip hcolon
  exact hfrom [] start true input hstart hrun

/-- The end of an object is the next token. -/
theorem dropWhile_of_endObject {input rest : Bytes} (h : endObject.run input = .done () rest) :
    input.dropWhile isBlank = '\x7d'.toUInt8 :: rest := by
  obtain ⟨closed, mid, hclose, hlater⟩ := run_bind_eq_done_iff.mp h
  cases closed with
  | true =>
    cases hlater
    exact dropWhile_of_takeIf hclose
  | false =>
    obtain ⟨ahead, _, -, hfails⟩ := run_bind_eq_done_iff.mp hlater
    cases ahead with
    | none => cases hfails
    | some b => dsimp only at hfails; split at hfails <;> cases hfails

/-- The inside of an object, and its end. -/
theorem exists_of_inObject {inside : Option (Reader α)} {b : UInt8} {after rest : Bytes}
    {value : α} (h : (inObject inside).run (b :: after) = .done value rest) :
    ∃ body ∈ inside, ∃ mid, body.run after = .done value mid ∧
      mid.dropWhile isBlank = '\x7d'.toUInt8 :: rest := by
  cases inside with
  | none => cases h
  | some body =>
    rw [inObject, run_skip_bind, run_closedBy_eq_done_iff] at h
    obtain ⟨mid, hbody, hend⟩ := h
    exact ⟨body, rfl, mid, hbody, dropWhile_of_endObject hend⟩

end Reader

/-! ## Entries -/

namespace Tree

/-- What a record with the given keys finds in a tree: the members with these keys, or one item per
key. -/
def entries (names : List String) : Tree → List (String × Tree)
  | .object members =>
    members.filterMap fun m => (m.1.filter (· ∈ names)).map fun name => (name, m.2)
  | .list items => names.zip items
  | _ => []

/-- The entries of an object are its members with known keys. -/
theorem entries_named (names : List String) (ms : List (String × Tree)) :
    entries names (.object (named ms)) = ms.filter (·.1 ∈ names) := by
  rw [entries, named, List.filterMap_map, ← List.filterMap_eq_filter]
  congr 1
  funext m
  by_cases hm : m.1 ∈ names <;> simp [Option.filter, Option.guard, hm]

/-- What is known grows by entries, one after the other. -/
inductive Adds (K : String → Tree → (σ → σ) → Prop) : List (String × Tree) → σ → σ → Prop where
  | nil {s : σ} : Adds K [] s s
  | cons {name : String} {t : Tree} {entries : List (String × Tree)} {add : σ → σ} {s s' : σ}
    (hadd : K name t add) (hlater : Adds K entries (add s) s') : Adds K ((name, t) :: entries) s s'

/-- Entries add up one after the other. -/
theorem Adds.append {K : String → Tree → (σ → σ) → Prop} {entries later : List (String × Tree)}
    {s s' s'' : σ} (h : Adds K entries s s') (hlater : Adds K later s' s'') :
    Adds K (entries ++ later) s s'' := by
  induction h with
  | nil => exact hlater
  | cons hadd _ ih => exact .cons hadd (ih hlater)

/-- A value that is built of what the entries of a tree add. No key is among them twice. -/
def Builds (names : List String) (K : String → Tree → (σ → σ) → Prop) (blank : σ)
    (build : σ → Except String α) (t : Tree) (value : α) : Prop :=
  ((t.entries names).map (·.1)).Nodup ∧ ∃ s, Adds K (t.entries names) blank s ∧ build s = .ok value

/-- Different names stay different beside trees. -/
theorem nodup_map_fst_zip {names : List String} (h : names.Nodup) (ts : List Tree) :
    ((names.zip ts).map (·.1)).Nodup := by
  have hsub : ((names.zip ts).map (·.1)).Sublist names := by
    induction names generalizing ts with
    | nil => exact .slnil
    | cons name names ih =>
      cases ts with
      | nil => exact List.nil_sublist _
      | cons t ts => exact (ih (List.nodup_cons.mp h).2 ts).cons_cons name
  exact hsub.nodup h

end Tree

/-! ## Records -/

namespace Reader

open Json.Tree

/-- What is skipped is a tree, of which nothing is said. -/
theorem shows_skipValue : skipValue.Shows fun _ _ => True := by
  intro input rest _ hrun
  obtain ⟨t, ht⟩ := exists_standsAt_of_skipValue hrun
  exact ⟨t, ht, trivial⟩

namespace Record

variable {r : Record σ α} {K : String → Tree → (σ → σ) → Prop}

/-- What is known behind some members of an object, and which keys are. -/
def Known (r : Record σ α) (K : String → Tree → (σ → σ) → Prop) (ms : List (String × Tree))
    (state : List String × σ) : Prop :=
  let met := ms.filter (·.1 ∈ r.members.map (·.name))
  (met.map (·.1)).Nodup ∧ (∀ m ∈ met, m.1 ∈ state.1) ∧ Adds K met r.blank state.2

/-- One more member of an object is one more entry that adds to what is known. -/
theorem showsMember_step (h : ∀ m ∈ r.members, m.read.Shows (K m.name))
    {ms : List (String × Tree)} {state : List String × σ} (hstate : r.Known K ms state)
    (name : String) :
    (r.step state name).ShowsMember fun t state' => r.Known K (ms ++ [(name, t)]) state' := by
  obtain ⟨hnodup, hseen, hadds⟩ := hstate
  unfold step
  split
  · rename_i member hmember
    obtain rfl : member.name = name := by simpa using List.find?_some hmember
    have hmem := List.mem_of_find?_eq_some hmember
    have hknown : member.name ∈ r.members.map (·.name) := List.mem_map_of_mem hmem
    split
    · -- a key that has been seen is refused
      exact fun _ _ _ hrun => by cases hrun
    · rename_i hnew
      rw [← map_eq_pure_bind]
      refine Shows.afterColon (((h member hmem).under _).map fun t add hadd => ?_)
      simp only [Known, List.filter_append, List.filter_singleton, hknown, decide_true, cond_true,
        List.map_append]
      refine ⟨?_, ?_, hadds.append (.cons hadd .nil)⟩
      · refine List.nodup_append.mpr ⟨hnodup, by simp, ?_⟩
        rintro _ hmet _ hname rfl
        obtain ⟨m, hm, rfl⟩ := List.mem_map.mp hmet
        have hsame : m.1 = member.name := List.mem_singleton.mp hname
        exact hnew (hsame ▸ hseen m hm)
      · intro m hm
        rcases List.mem_append.mp hm with hm | hm
        · exact List.mem_cons_of_mem _ (hseen m hm)
        · rw [List.mem_singleton.mp hm]
          exact List.mem_cons_self
  · rename_i hnone
    have hunknown : name ∉ r.members.map (·.name) := by
      simpa using hnone
    rw [← map_eq_pure_bind]
    refine Shows.afterColon ((shows_skipValue.under _).map fun t _ _ => ?_)
    simp only [Known, List.filter_append, List.filter_singleton, hunknown, decide_false,
      cond_false, List.append_nil]
    exact ⟨hnodup, hseen, hadds⟩

/-- The values of the list form are items, at most one per key. -/
theorem exists_listValues {members : List (Member σ)} (h : ∀ m ∈ members, m.read.Shows (K m.name))
    {known value : σ} {index : Nat} {input mid rest : Bytes}
    (hrun : (listValues known index members).run input = .done value mid)
    (hend : mid.dropWhile isBlank = ']'.toUInt8 :: rest) :
    ∃ ts, ItemsStandAt (index = 0) ts input rest ∧
      Adds K ((members.map (·.name)).zip ts) known value := by
  induction members generalizing known index input with
  | nil =>
    cases hrun
    exact ⟨[], .nil hend, .nil⟩
  | cons member members ih =>
    obtain ⟨hmember, hmembers⟩ := List.forall_mem_cons.mp h
    obtain ⟨more, after, hnext, hlater⟩ := run_bind_eq_done_iff.mp hrun
    cases more with
    | false =>
      cases hlater
      have hmid : mid = input.dropWhile isBlank := of_run_nextItem hnext
      rw [hmid, List.dropWhile_idempotent] at hend
      exact ⟨[], .nil hend, .nil⟩
    | true =>
      obtain ⟨behind, hlead, rfl⟩ := of_run_nextItem hnext
      obtain ⟨add, mid', hread, hlater⟩ := run_bind_eq_done_iff.mp hlater
      obtain ⟨t, ht, hadd⟩ := (hmember.under _) hread
      obtain ⟨ts, hts, hadds⟩ := ih hmembers hlater
      exact ⟨t :: ts, .cons hlead ht.of_dropWhile hts, .cons hadd hadds⟩

end Record

/-- A record is taken as a tree whose entries, in either form, build the record. -/
theorem shows_record {r : Record σ α} {K : String → Tree → (σ → σ) → Prop}
    (hnames : (r.members.map (·.name)).Nodup) (h : ∀ m ∈ r.members, m.read.Shows (K m.name))
    (description : String) :
    (record description r).Shows (Builds (r.members.map (·.name)) K r.blank r.build) := by
  refine Shows.placed fun input rest value hrun => ?_
  rw [run_peekOpening_bind_eq_done_iff] at hrun
  split at hrun
  · -- the list form
    rename_i hopening
    obtain ⟨after, hstart⟩ := exists_cons_of_mark? hopening rfl
    rw [hstart] at hrun
    obtain ⟨body, ⟨⟩, mid, hbody, hend⟩ := exists_of_inList hrun
    obtain ⟨known, mid', hvalues, hbuild⟩ := run_bind_eq_done_iff.mp hbody
    split at hbuild
    · rename_i hvalue
      cases hbuild
      obtain ⟨ts, hts, hadds⟩ := Record.exists_listValues h hvalues hend
      exact ⟨_, .list hstart hts, nodup_map_fst_zip hnames ts, known, hadds, hvalue⟩
    · cases hbuild
  · -- the object form
    rename_i hopening
    obtain ⟨after, hstart⟩ := exists_cons_of_mark? hopening rfl
    rw [hstart] at hrun
    obtain ⟨body, ⟨⟩, mid, hbody, hend⟩ := exists_of_inObject hrun
    obtain ⟨⟨seen, known⟩, mid', hmembers, hbuild⟩ := run_bind_eq_done_iff.mp hbody
    dsimp only at hbuild
    split at hbuild
    · rename_i hvalue
      cases hbuild
      have hblank : r.Known K [] ([], r.blank) := ⟨List.nodup_nil, by simp, .nil⟩
      obtain ⟨ms, hms, hnodup, -, hadds⟩ := exists_members (I := r.Known K)
        (fun _ _ name hstate => Record.showsMember_step h hstate name) hblank hmembers hend
      refine ⟨_, .object hstart hms, ?_⟩
      rw [Builds, entries_named]
      exact ⟨hnodup, known, hadds, hvalue⟩
    · cases hbuild
  · exact absurd hrun (run_wrongKind_ne_done _ _ _ _ _)

/-! ## Choices -/

/-- A name that is known is looked up, and nothing is taken. -/
theorem of_run_knownChoice {choices : List (String × κ)} {name : String} {chosen : String × κ}
    {input rest : Bytes} (h : (knownChoice choices name).run input = .done chosen rest) :
    chosen.1 = name ∧ choices.lookup name = some chosen.2 ∧ rest = input := by
  unfold knownChoice at h
  split at h
  · rename_i found hfound
    cases h
    exact ⟨rfl, hfound, rfl⟩
  · cases h

/-- The one key of an object is looked up. -/
theorem of_run_soleKey {choices : List (String × κ)} {chosen : String × κ} {input mid : Bytes}
    (h : (soleKey choices).run input = .done chosen mid) :
    choices.lookup chosen.1 = some chosen.2 ∧ ∃ behind,
      input.dropWhile isBlank = '"'.toUInt8 :: behind ∧
        stringBody.run behind = .done chosen.1 mid := by
  obtain ⟨ahead, _, ⟨⟩, hahead⟩ := run_bind_eq_done_iff.mp h
  cases hinput : input.dropWhile isBlank with
  | nil =>
    rw [hinput] at hahead
    cases hahead
  | cons b behind =>
    rw [hinput] at hahead
    dsimp only [List.head?_cons] at hahead
    split at hahead
    · cases hahead
    · split at hahead
      · rename_i hb
        subst hb
        have hname := run_mapFailure_eq_done_iff.mp hahead
        rw [run_skip_bind] at hname
        obtain ⟨name, _, hbody, hchosen⟩ := run_bind_eq_done_iff.mp hname
        obtain ⟨rfl, hlookup, rfl⟩ := of_run_knownChoice hchosen
        exact ⟨hlookup, behind, rfl, hbody⟩
      · cases hahead

/-- The end of a choice is the next token. -/
theorem dropWhile_of_soleEnd {input rest : Bytes} (h : soleEnd.run input = .done () rest) :
    input.dropWhile isBlank = '\x7d'.toUInt8 :: rest := by
  obtain ⟨closed, mid, hclose, hlater⟩ := run_bind_eq_done_iff.mp h
  cases closed with
  | true =>
    cases hlater
    exact dropWhile_of_takeIf hclose
  | false =>
    obtain ⟨ahead, _, -, hfails⟩ := run_bind_eq_done_iff.mp hlater
    cases ahead <;> cases hfails

/-- What a choice is taken for: an object with one key, which is a known one. -/
def Chosen (choices : List (String × κ)) (P : κ → Tree → α → Prop) (t : Tree) (value : α) : Prop :=
  ∃ name chosen u, choices.lookup name = some chosen ∧ t = .object [(some name, u)] ∧
    P chosen u value

/-- A choice is taken as an object with one member, which is the tree of its value. -/
theorem shows_choice {choices : List (String × κ)} {value : Option (κ → Reader α)}
    {P : κ → Tree → α → Prop} (h : ∀ f ∈ value, ∀ chosen, (f chosen).Shows (P chosen)) :
    (choice choices value).Shows (Chosen choices P) := by
  intro input rest result hrun
  unfold choice at hrun
  rw [run_peekOpening_bind_eq_done_iff] at hrun
  split at hrun
  · cases hrun
  · rename_i hopening
    obtain ⟨after, hstart⟩ := exists_cons_of_mark? hopening rfl
    rw [hstart] at hrun
    split at hrun
    · cases hrun
    · rename_i f
      rw [run_skip_bind] at hrun
      -- a key, a colon, a value and the end of the object
      obtain ⟨⟨name, chosen⟩, behind, hsole, hlater⟩ := run_bind_eq_done_iff.mp hrun
      obtain ⟨_, before, hcolon, hlater⟩ := run_bind_eq_done_iff.mp hlater
      obtain ⟨_, mid, hread, hlater⟩ := run_bind_eq_done_iff.mp hlater
      obtain ⟨_, _, hend, ⟨⟩⟩ := run_bind_eq_done_iff.mp hlater
      obtain ⟨hlookup, quoted, hquote, hbody⟩ := of_run_soleKey hsole
      obtain ⟨u, hu, hvalue⟩ := ((h f rfl chosen).under _) hread
      obtain ⟨hskip, hname⟩ := skipString_of_stringBody hbody
      refine ⟨.object [(some name, u)], .object hstart ?_, name, chosen, u, hlookup, rfl, hvalue⟩
      refine .cons rfl ?_ hu (.nil (dropWhile_of_soleEnd hend))
      rw [← hname]
      exact .mk hquote hskip (dropWhile_of_colon hcolon)
  · obtain ⟨_, _, -, hbare⟩ := run_bind_eq_done_iff.mp hrun
    cases run_mapFailure_eq_done_iff.mp hbare
  · cases hrun

end Reader

end SelectionModels.Json
