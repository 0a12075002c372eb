import SelectionModels.Proofs.Records

/-! # Content that is kept and made sense of later

Where the kind of an object stands among its members, the others are kept as content until the kind
is known. The record that is then made from the content comes to the same value as if its members
had been read one by one.

* `Reader.reads_tagged`: a kind, wherever it stands, and the content of the other members;
* `ContentRecord.Fits`: a record whose members add the parts of a value, read from content;
* `ContentRecord.Fits.madeOfShape`, `ContentRecord.Fits.reads_tagged`: content that makes that
  value.
-/

namespace SelectionModels.Json

variable {α σ κ : Type}

namespace Reader

/-! ## Content -/

theorem reads_content_null (levels : Nat) : Reads (content levels) .null .null := by
  intro lead t rest hlead ht _
  have hrun : ∀ inner, (contentWith inner).run (textBytes lead ++ (textBytes t ++ rest)) =
      .done .null rest := by
    intro inner
    rw [contentWith, run_bind_of_done (run_peekOpening hlead ht rest)]
    cases ht
    rw [textBytes_null]
    rfl
  cases levels <;> exact hrun _

/-- A text is kept as it is. -/
theorem reads_content_text (levels : Nat) (s : String) :
    Reads (content levels) (.string s) (.text s) := by
  intro lead t rest hlead ht _
  have hrun : ∀ inner, (contentWith inner).run (textBytes lead ++ (textBytes t ++ rest)) =
      .done (.text s) rest := by
    intro inner
    rw [contentWith, run_bind_of_done (run_peekOpening hlead ht rest)]
    obtain _ | _ | _ | _ := ht
    rw [textBytes_stringText]
    exact run_bind_of_done (run_stringBody s rest)
  cases levels <;> exact hrun _

/-- The items of a list are kept in their order. -/
theorem reads_content_list {levels : Nat} {items : List Value} {contents : List Content}
    (h : List.Forall₂ (Reads (content levels)) items contents) :
    Reads (content (levels + 1)) (.array items) (.list contents) := by
  intro lead t rest hlead ht _
  rw [content, contentWith, run_bind_of_done (run_peekOpening hlead ht rest)]
  obtain _ | _ | _ | _ | hitems := ht
  refine (run_bind_of_done (run_takenItems h hitems rest)).trans ?_
  rw [List.reverse_reverse]
  rfl

/-- The contents of members, by their names. -/
def ContentsOf (levels : Nat) (members : List (String × Value))
    (contents : List (String × Content)) : Prop :=
  List.Forall₂ (fun m c => m.1 = c.1 ∧ Reads (content levels) m.2 c.2) members contents

/-- The contents of members in a row are those of the first and those of the others. -/
theorem ContentsOf.of_append {levels : Nat} {before after : List (String × Value)}
    {contents : List (String × Content)} (h : ContentsOf levels (before ++ after) contents) :
    ∃ first later, contents = first ++ later ∧ ContentsOf levels before first ∧
      ContentsOf levels after later := by
  induction before generalizing contents with
  | nil => exact ⟨[], contents, rfl, .nil, h⟩
  | cons m before ih =>
    obtain _ | ⟨hm, h⟩ := h
    obtain ⟨first, later, rfl, hfirst, hlater⟩ := ih h
    exact ⟨_ :: first, later, rfl, .cons hm hfirst, hlater⟩

/-- A fold that takes the content of every member, the latest first. -/
theorem foldsMembers_of_contents {levels : Nat} {step : σ → String → Reader σ}
    {state : List (String × Content) → σ} {members : List (String × Value)}
    {contents : List (String × Content)} (h : ContentsOf levels members contents)
    (hstep : ∀ m ∈ members, ∀ c, Reads (content levels) m.2 c → ∀ taken,
      ReadsMember (step (state taken) m.1) m.2 (state ((m.1, c) :: taken)))
    (taken : List (String × Content)) :
    FoldsMembers step (state taken) members (state (contents.reverse ++ taken)) := by
  induction h generalizing taken with
  | nil => exact .nil
  | @cons m c members contents hmc _ ih =>
    obtain ⟨hfirst, hlater⟩ := List.forall_mem_cons.mp hstep
    rw [List.reverse_cons, List.append_assoc]
    refine .cons (hfirst c.2 hmc.2 taken) ?_
    rw [hmc.1]
    exact ih hlater (c :: taken)

/-- The members of an object are kept one after the other, the latest in front. -/
theorem foldsMembers_content {levels : Nat} {members : List (String × Value)}
    {contents : List (String × Content)} (h : ContentsOf levels members contents) :
    FoldsMembers (fun taken name => do
      colon
      return (name, ← (content levels).under (.key name)) :: taken) [] members
        contents.reverse := by
  rw [← List.append_nil contents.reverse]
  exact @foldsMembers_of_contents _ levels _ id _ _ h
    (fun m _ c hread taken => ((hread.under (.key m.1)).bind fun _ => rfl).afterColon) []

/-- The members of an object are kept in their order, with repeated keys if there are any. -/
theorem reads_content_object {levels : Nat} {members : List (String × Value)}
    {contents : List (String × Content)} (h : ContentsOf levels members contents) :
    Reads (content (levels + 1)) (.object members) (.object contents) := by
  intro lead t rest hlead ht _
  rw [content, contentWith, run_bind_of_done (run_peekOpening hlead ht rest)]
  obtain _ | _ | _ | _ | _ | hmembers := ht
  have hrun := run_members (foldsMembers_content h) hmembers rest
  refine (run_bind_of_done (run_inObject hrun)).trans ?_
  rw [List.reverse_reverse]
  rfl

/-! ## Kinds -/

/-- What an object with a kind does with a member. -/
def taggedStep (tag : String) (choices : List (String × κ)) (inner : Reader Content)
    (state : TaggedState κ (String × Content)) (name : String) :
    Reader (TaggedState κ (String × Content)) :=
  if name = tag then do
    if state.kind.isSome then failUnplaced (.duplicateMember tag)
    colon
    let kind ← (kindName choices).under (.key name)
    return { state with kind := some kind }
  else do
    colon
    let c ← inner.under (.key name)
    return { state with taken := (name, c) :: state.taken }

/-- A fold over members in a row. -/
theorem FoldsMembers.append {step : σ → String → Reader σ} {state state' final : σ}
    {members members' : List (String × Value)} (h : FoldsMembers step state members state')
    (h' : FoldsMembers step state' members' final) :
    FoldsMembers step state (members ++ members') final := by
  induction h with
  | nil => exact h'
  | cons hstep _ ih => exact .cons hstep (ih h')

/-- The name of a kind is looked up. -/
theorem reads_kindName {choices : List (String × κ)} {name : String} {kind : κ}
    (h : choices.lookup name = some kind) : Reads (kindName choices) (.string name) kind := by
  have hchoice : ∀ rest, (knownChoice choices name >>= fun chosen => pure chosen.2).run rest =
      .done kind rest := fun rest => by
    rw [run_bind_of_done (run_knownChoice h rest)]
    rfl
  exact ((reads_textAs _ name).bind hchoice).mapFailure _

/-- The kind is met for the first time. -/
theorem readsMember_taggedStep_tag {choices : List (String × κ)} {name : String} {kind : κ}
    (hkind : choices.lookup name = some kind) (tag : String) (inner : Reader Content)
    (taken : List (String × Content)) :
    ReadsMember (taggedStep tag choices inner ⟨none, taken⟩ tag) (.string name)
      ⟨some kind, taken⟩ := by
  rw [taggedStep, if_pos rfl]
  exact (((reads_kindName hkind).under (.key tag)).bind fun _ => rfl).afterColon

/-- The members beside the kind are kept, whether it has been read or not. -/
theorem foldsMembers_tagged (choices : List (String × κ)) {tag : String} {levels : Nat}
    {members : List (String × Value)} {contents : List (String × Content)}
    (hcontents : ContentsOf levels members contents) (htag : ∀ m ∈ members, m.1 ≠ tag)
    (found : Option κ) (taken : List (String × Content)) :
    FoldsMembers (taggedStep tag choices (content levels)) ⟨found, taken⟩ members
      ⟨found, contents.reverse ++ taken⟩ := by
  have hstep : ∀ m ∈ members, ∀ c, Reads (content levels) m.2 c → ∀ taken,
      ReadsMember (taggedStep tag choices (content levels) ⟨found, taken⟩ m.1) m.2
        ⟨found, (m.1, c) :: taken⟩ := by
    intro m hm c hread taken
    rw [taggedStep, if_neg (htag m hm)]
    exact ((hread.under (.key m.1)).bind fun _ => rfl).afterColon
  exact foldsMembers_of_contents hcontents hstep taken

/-- The kind is found wherever it stands, and the other members are kept in their order. -/
theorem reads_tagged {choices : List (String × κ)} {name : String} {kind : κ}
    (hkind : choices.lookup name = some kind) {levels : Nat} {tag : String}
    {before after : List (String × Value)} {contents : List (String × Content)}
    (hcontents : ContentsOf levels (before ++ after) contents)
    (htag : ∀ m ∈ before ++ after, m.1 ≠ tag) (description : String) :
    Reads (tagged description tag choices (some (content levels)))
      (.object (before ++ (tag, .string name) :: after)) (kind, .object contents) := by
  obtain ⟨first, later, rfl, hfirst, hlater⟩ := hcontents.of_append
  have hbefore := foldsMembers_tagged choices hfirst
    (fun m hm => htag m (List.mem_append_left _ hm)) none []
  have htagStep := readsMember_taggedStep_tag hkind tag (content levels) first.reverse
  have hafter := foldsMembers_tagged choices hlater
    (fun m hm => htag m (List.mem_append_right _ hm)) (some kind) first.reverse
  rw [List.append_nil] at hbefore
  rw [← List.reverse_append] at hafter
  refine reads_object (hbefore.append (.cons htagStep hafter)) (fun rest => ?_) description _
  simp [taggedResult]

end Reader

/-! ## Records from content -/

/-- Every value of the shape that nests at most `levels` deep has content that makes the result. -/
def MadeOfShape (read : Content → Except Fault α) (levels : Nat) (shape : Shape) (result : α) :
    Prop :=
  ∀ ⦃core written : Value⦄, shape core written → core.depth ≤ levels →
    ∃ c, Reader.Reads (Reader.content levels) written c ∧ read c = .ok result

namespace MadeOfShape

open Reader

theorem map {β : Type} {read : Content → Except Fault α} {levels : Nat} {shape : Shape} {result : α}
    (f : α → β) (h : MadeOfShape read levels shape result) :
    MadeOfShape (fun c => f <$> read c) levels shape (f result) := by
  intro core written hshape hdepth
  obtain ⟨c, hread, hresult⟩ := h hshape hdepth
  exact ⟨c, hread, by simp [hresult, Functor.map, Except.map]⟩

/-- An object does not fit where no bracket may be opened. -/
theorem object_zero (read : Content → Except Fault α) (slots : List Slot) (result : α) :
    MadeOfShape read 0 (.object False slots) result := by
  rintro _ _ ⟨⟩ hdepth
  simp [Value.depth] at hdepth

theorem text (s : String) (levels : Nat) :
    MadeOfShape Content.toText levels (.exactly (.string s)) s := by
  rintro _ _ ⟨rfl, rfl⟩ _
  exact ⟨.text s, reads_content_text levels s, rfl⟩

/-- A text that may be missing is made of a text or of `null`. -/
theorem optionalText (s : Option String) (levels : Nat) :
    MadeOfShape Content.toOptionalText levels (.exactly (.optional s)) s := by
  rintro _ _ ⟨rfl, rfl⟩ _
  cases s with
  | none => exact ⟨.null, reads_content_null levels, rfl⟩
  | some s => exact ⟨.text s, reads_content_text levels s, rfl⟩

/-- A list of texts is made of the texts. -/
theorem toTexts_list (names : List String) :
    Content.toTexts (.list (names.map .text)) = .ok names := by
  rw [Content.toTexts]
  induction names with
  | nil => rfl
  | cons s names ih =>
    rw [List.map_cons, List.mapM_cons, ih]
    rfl

/-- A list of texts is made of content in one way only. -/
theorem texts (names : List String) (levels : Nat) :
    MadeOfShape Content.toTexts levels (.exactly (.strings names)) names := by
  rintro _ _ ⟨rfl, rfl⟩ hdepth
  cases levels with
  | zero => simp [Value.strings, Value.depth] at hdepth
  | succ levels =>
    refine ⟨.list (names.map .text), reads_content_list ?_, toTexts_list names⟩
    rw [List.forall₂_map_left_iff, List.forall₂_map_right_iff, List.forall₂_same]
    exact fun s _ => reads_content_text levels s

end MadeOfShape

namespace ContentRecord

/-- The record's members add the parts of a value, which are read as content first. -/
structure Fits (r : ContentRecord σ α) (parts : List (ValuePart σ)) (levels : Nat) (result : α) :
    Prop where
  independent : Independent parts
  members : List.Forall₂ (fun m p => m.name = p.name ∧ MadeOfShape m.read levels p.shape p.add)
    r.members parts
  makes : Makes parts r.blank r.build result

namespace Fits

open Reader

variable {r : ContentRecord σ α} {parts : List (ValuePart σ)} {levels : Nat} {result : α}

/-- Members in any order have contents that add what is known of them. -/
theorem exists_objectForm (h : r.Fits parts levels result) {members : List (String × Value)}
    (hmet : ∀ m ∈ members, ∃ p ∈ parts, m.1 = p.name ∧
      ∃ core, p.shape core m.2 ∧ core.depth ≤ levels)
    (hnames : (members.map (·.1)).Nodup) :
    ∃ contents, ContentsOf levels members contents ∧ ∀ seen s, (∀ m ∈ members, m.1 ∉ seen) →
      r.objectForm seen s contents = .ok ((members.map (·.1)).foldl (addNamed parts) s) := by
  induction members with
  | nil => exact ⟨[], .nil, fun _ _ _ => rfl⟩
  | cons m members ih =>
    obtain ⟨⟨p, hp, hname, core, hshape, hdepth⟩, hmet⟩ := List.forall_mem_cons.mp hmet
    obtain ⟨hfresh, hnames⟩ := List.nodup_cons.mp hnames
    obtain ⟨contents, hcontents, hform⟩ := ih hmet hnames
    obtain ⟨member, hmember, hreads⟩ := find?_of_forall₂ h.members
      ((find?_key_eq_some_iff h.independent.nodup).mpr ⟨hp, rfl⟩)
    obtain ⟨c, hread, hadd⟩ := hreads hshape hdepth
    refine ⟨(m.1, c) :: contents, .cons ⟨rfl, hread⟩ hcontents, fun seen s hseen => ?_⟩
    obtain ⟨hnew, hseen⟩ := List.forall_mem_cons.mp hseen
    have hlater := hform (m.1 :: seen) (p.add s) (forall_key_not_mem_cons hfresh hseen)
    rw [hname] at hnew hlater
    rw [List.map_cons, List.foldl_cons, hname, h.independent.addNamed_of_mem hp, objectForm,
      hmember, ← hlater]
    simp [hnew, hadd, bind, Except.bind]

/-- The contents of the members of a shape, which nothing has been added to, make the value. -/
theorem exists_contents (h : r.Fits parts levels result)
    {kept : List (String × Value × Value)} (hkept : Keeps (parts.map (·.toSlot)) kept)
    (hdepth : ∀ m ∈ kept, m.2.1.depth ≤ levels) {members : List (String × Value)}
    (hmembers : members.Perm (kept.map fun m => (m.1, m.2.2))) :
    ∃ contents, ContentsOf levels members contents ∧
      r.ofContent (.object contents) = .ok result := by
  have hmet : ∀ m ∈ members, ∃ p ∈ parts, m.1 = p.name ∧
      ∃ core, p.shape core m.2 ∧ core.depth ≤ levels := by
    intro m hm
    obtain ⟨k, hk, rfl⟩ := List.mem_map.mp (hmembers.mem_iff.mp hm)
    obtain ⟨p, hp, hname, hshape⟩ := exists_of_mem_kept hkept hk
    exact ⟨p, hp, hname, k.2.1, hshape, hdepth k hk⟩
  have hnames : (members.map (·.1)).Perm (kept.map (·.1)) := by
    have hmap := hmembers.map (·.1)
    rwa [List.map_map] at hmap
  have hnodup : (members.map (·.1)).Nodup := by
    refine hnames.nodup_iff.mpr ((sublist_of_keeps hkept).nodup ?_)
    rw [List.map_map]
    exact h.independent.nodup
  obtain ⟨contents, hcontents, hform⟩ := h.exists_objectForm hmet hnodup
  refine ⟨contents, hcontents, ?_⟩
  have hobject := hform [] r.blank fun _ _ => List.not_mem_nil
  rw [hnames.foldl_eq' (fun _ _ _ _ s => h.independent.addNamed_comm s _ _)] at hobject
  simp [ofContent, hobject, h.makes hkept, bind, Except.bind, pure, Except.pure]

/-- A record is made of content as it would be read, in every shape of it. -/
theorem madeOfShape (h : r.Fits parts levels result) :
    MadeOfShape r.ofContent (levels + 1) (.object False (parts.map (·.toSlot))) result := by
  intro core written hshape hdepth
  obtain ⟨kept, members, hkept, hmembers, rfl, rfl⟩ := Shape.object_closed hshape
  have hkeptDepth : ∀ m ∈ kept, m.2.1.depth ≤ levels := fun m hm =>
    Value.depth_object_le_iff.mp hdepth (m.1, m.2.1) (List.mem_map_of_mem hm)
  obtain ⟨contents, hcontents, hresult⟩ := h.exists_contents hkept hkeptDepth hmembers
  exact ⟨.object contents, reads_content_object hcontents, hresult⟩

/-- The kind may stand anywhere among the members of a shape. -/
theorem reads_tagged (h : r.Fits parts levels result) {choices : List (String × κ)}
    {name tag : String} {kind : κ} (hkind : choices.lookup name = some kind)
    (htag : ∀ p ∈ parts, p.name ≠ tag) {core written : Value}
    (hshape : Shape.object False
      (⟨tag, .exactly (.string name), False⟩ :: parts.map (·.toSlot)) core written)
    (hdepth : core.depth ≤ levels + 1) (description : String) :
    ∃ c, Reads (tagged description tag choices (some (content levels))) written (kind, c) ∧
      r.ofContent c = .ok result := by
  obtain ⟨kept, members, hkept, hmembers, rfl, rfl⟩ := Shape.object_closed hshape
  obtain _ | @⟨_, _, _, _, kept, ⟨-, rfl⟩, hkept⟩ | ⟨⟨⟩, -⟩ := hkept
  have hkeptDepth : ∀ m ∈ kept, m.2.1.depth ≤ levels := fun m hm =>
    Value.depth_object_le_iff.mp hdepth (m.1, m.2.1) (List.mem_map_of_mem (.tail _ hm))
  -- the other members stand before the kind and after it
  obtain ⟨before, after, rfl⟩ := List.append_of_mem (hmembers.mem_iff.mpr List.mem_cons_self)
  have hothers : (before ++ after).Perm (kept.map fun m => (m.1, m.2.2)) :=
    (List.perm_middle.symm.trans hmembers).cons_inv
  have hnames : ∀ m ∈ before ++ after, m.1 ≠ tag := by
    intro m hm
    obtain ⟨k, hk, rfl⟩ := List.mem_map.mp (hothers.mem_iff.mp hm)
    obtain ⟨p, hp, hname, -⟩ := exists_of_mem_kept hkept hk
    exact hname ▸ htag p hp
  obtain ⟨contents, hcontents, hresult⟩ := h.exists_contents hkept hkeptDepth hothers
  exact ⟨.object contents, Reader.reads_tagged hkind hcontents hnames description, hresult⟩

end Fits

end ContentRecord

end SelectionModels.Json
