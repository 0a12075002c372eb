import SelectionModels.Proofs.Contents
import SelectionModels.Proofs.Replacing

/-! # Integers in content

Content is kept whatever it is, so an integer in place of a string is kept as well, if it can be
held; only what the content is made into fails then, and it does not know where. An integer that
cannot be held fails while the content is read, and it is known where.

* `Spoils`: content that is kept until an integer stands in place of one of its strings;
* `SpoilsMembers`, `SpoilsMembers.record`: the same of the members of an object;
* `Reader.failsAt_tagged_kind`, `Reader.failsAt_tagged_member`: an integer in place of a kind, or
  of what goes with it.
-/

namespace SelectionModels.Json

variable {α β σ κ : Type}

namespace Reader

/-! ## Integers as content -/

section Integers

variable {z : Int}

/-- An integer that can be held is kept. -/
theorem exists_reads_content_ofInt (h : held z = true) (levels : Nat) :
    ∃ n, (content levels).Reads (.number (.ofInt z)) (.number n) := by
  obtain ⟨x?, hheld, hnumber⟩ := run_number_ofInt z
  rw [h] at hheld
  obtain ⟨n, rfl⟩ := Option.isSome_iff_exists.mp hheld
  refine ⟨n, fun lead t rest hlead ht hrest => ?_⟩
  have hrun : ∀ inner, (contentWith inner).run (textBytes lead ++ (textBytes t ++ rest)) =
      .done (.number n) rest := by
    intro inner
    have hread : (number >>= fun n => pure (Content.number n)).run (textBytes t ++ rest) =
        .done (.number n) rest := by
      obtain _ | _ | hnumeral := ht
      rw [Numeral.eq_text_of_spelledAs hnumeral]
      exact run_bind_of_done (hnumber rest hrest)
    rw [contentWith, run_bind_of_done (run_peekOpening hlead ht rest)]
    rcases opening_ofInt z with hopening | hopening
    · rwa [hopening]
    · rwa [hopening]
  cases levels <;> exact hrun _

/-- An integer that cannot be held is out of place at once. -/
theorem failsAt_content_ofInt (h : held z = false) (levels : Nat) :
    (content levels).FailsAt (.number (.ofInt z)) [] := by
  have hfails : ∀ inner, (contentWith inner).FailsAt (.number (.ofInt z)) [] := by
    intro inner
    refine failsAt_of_opening fun t rest ht hrest => ?_
    obtain ⟨x?, hheld, hrun⟩ := run_number_of_spelledAs ht hrest
    obtain rfl : x? = none := Option.not_isSome_iff_eq_none.mp (by simp [hheld, h])
    have hnumber : ((number >>= fun n => pure (Content.number n)).run
        (textBytes t ++ rest)).FailsAt [] :=
      failsAt_bind (by rw [hrun]; exact failsAt_settled_none) _
    rcases opening_ofInt z with hopening | hopening
    · rwa [hopening]
    · rwa [hopening]
  cases levels <;> exact hfails _

end Integers

/-! ## Content that fails -/

/-- An item of content fails after those that are kept; its position is reported. -/
theorem failsAt_content_list {levels : Nat} {before after : List Value} {v : Value}
    {location : Location} (hbefore : ∀ v ∈ before, ∃ c, (content levels).Reads v c)
    (hv : (content levels).FailsAt v location) :
    (content (levels + 1)).FailsAt (.array (before ++ v :: after))
      (.index before.length :: location) := by
  refine failsAt_of_opening fun t rest ht _ => ?_
  obtain _ | _ | _ | _ | hitems := ht
  exact failsAt_bind (failsAt_takenItems hbefore hv hitems rest) _

/-- Members that are kept one by one are kept together. -/
theorem exists_contentsOf {levels : Nat} {members : List (String × Value)}
    (h : ∀ m ∈ members, ∃ c, (content levels).Reads m.2 c) :
    ∃ contents, ContentsOf levels members contents := by
  refine exists_forall₂_iff.mpr fun m hm => ?_
  obtain ⟨c, hread⟩ := h m hm
  exact ⟨(m.1, c), rfl, hread⟩

/-- A member of content fails after those that are kept; its key is reported. -/
theorem failsAt_content_object {levels : Nat} {before after : List (String × Value)}
    {name : String} {v : Value} {location : Location}
    (hbefore : ∀ m ∈ before, ∃ c, (content levels).Reads m.2 c)
    (hv : (content levels).FailsAt v location) :
    (content (levels + 1)).FailsAt (.object (before ++ (name, v) :: after))
      (.key name :: location) := by
  obtain ⟨contents, hcontents⟩ := exists_contentsOf hbefore
  have hfolds := foldsMembers_content hcontents
  refine failsAt_of_opening fun t rest ht _ => ?_
  obtain _ | _ | _ | _ | _ | hmembers := ht
  refine failsAt_bind (failsAt_inObject (failsAt_members hfolds ?_ hmembers rest)) _
  exact ((hv.under (.key name)).bind _).afterColon

end Reader

open Reader

/-! ## Content that is spoiled -/

/-- What is read of the value is content; and if an integer is put in place of a string, either the
integer is out of range, or the content cannot be made sense of. -/
structure Spoils (z : Int) (levels : Nat) (read : Content → Except Fault α) (v : Value) :
    Prop where
  reads : ∃ c, (content levels).Reads v c
  fails : held z = false → ∀ ⦃location : Location⦄ ⦃spoiled : Value⦄,
    v.Replaced z location spoiled → (content levels).FailsAt spoiled location
  spoils : held z = true → ∀ ⦃location : Location⦄ ⦃spoiled : Value⦄,
    v.Replaced z location spoiled →
      ∃ c fault, (content levels).Reads spoiled c ∧ read c = .error fault

/-- The same of the members of an object. -/
structure SpoilsMembers (z : Int) (levels : Nat) (read : Content → Except Fault α)
    (members : List (String × Value)) : Prop where
  reads : ∀ m ∈ members, ∃ c, (content levels).Reads m.2 c
  fails : held z = false → ∀ m ∈ members, ∀ ⦃location : Location⦄ ⦃spoiled : Value⦄,
    m.2.Replaced z location spoiled → (content levels).FailsAt spoiled location
  spoils : held z = true → ∀ ⦃before after : List (String × Value)⦄ ⦃key : String⦄
    ⦃v spoiled : Value⦄ ⦃location : Location⦄, members = before ++ (key, v) :: after →
      v.Replaced z location spoiled →
        ∃ contents fault, ContentsOf levels (before ++ (key, spoiled) :: after) contents ∧
          read (.object contents) = .error fault

namespace Spoils

variable {z : Int} {levels : Nat}

/-- What is made of the result spoils with it. -/
theorem map {read : Content → Except Fault α} {v : Value} (h : Spoils z levels read v)
    (f : α → β) : Spoils z levels (fun c => f <$> read c) v where
  reads := h.reads
  fails := h.fails
  spoils hheld _ _ hreplaced := by
    obtain ⟨c, fault, hread, herror⟩ := h.spoils hheld hreplaced
    exact ⟨c, fault, hread, by rw [herror]; rfl⟩

/-- What comes after the result spoils with it. -/
theorem bind {read : Content → Except Fault α} {v : Value} (h : Spoils z levels read v)
    (f : α → Except Fault β) : Spoils z levels (fun c => read c >>= f) v where
  reads := h.reads
  fails := h.fails
  spoils hheld _ _ hreplaced := by
    obtain ⟨c, fault, hread, herror⟩ := h.spoils hheld hreplaced
    exact ⟨c, fault, hread, by rw [herror]; rfl⟩

theorem text (s : String) : Spoils z levels Content.toText (.string s) where
  reads := ⟨_, reads_content_text levels s⟩
  fails hheld := by
    rintro _ _ ⟨⟩
    exact failsAt_content_ofInt hheld levels
  spoils hheld := by
    rintro _ _ ⟨⟩
    obtain ⟨n, hread⟩ := exists_reads_content_ofInt hheld levels
    exact ⟨_, _, hread, rfl⟩

/-- A text that may be missing. -/
theorem optionalText (s : Option String) :
    Spoils z levels Content.toOptionalText (.optional s) where
  reads := by
    cases s with
    | none => exact ⟨_, reads_content_null levels⟩
    | some s => exact ⟨_, reads_content_text levels s⟩
  fails hheld := by
    cases s <;> rintro _ _ ⟨⟩
    exact failsAt_content_ofInt hheld levels
  spoils hheld := by
    cases s <;> rintro _ _ ⟨⟩
    obtain ⟨n, hread⟩ := exists_reads_content_ofInt hheld levels
    exact ⟨_, _, hread, rfl⟩

/-- One text among others: those before it are made, and this one is no text. -/
theorem texts (names : List String) (hdepth : (Value.strings names).depth ≤ levels) :
    Spoils z levels Content.toTexts (.strings names) := by
  cases levels with
  | zero => simp at hdepth
  | succ levels =>
    have hreads : ∀ names : List String, List.Forall₂ (content levels).Reads
        (names.map .string) (names.map .text) := by
      intro names
      rw [List.forall₂_map_left_iff, List.forall₂_map_right_iff, List.forall₂_same]
      exact fun s _ => reads_content_text levels s
    refine ⟨⟨_, reads_content_list (hreads names)⟩, fun hheld _ _ hreplaced => ?_,
      fun hheld _ _ hreplaced => ?_⟩
    · obtain ⟨before, s, after, rfl, rfl, rfl⟩ := hreplaced.exists_of_strings
      rw [← before.length_map (f := Value.string)]
      exact failsAt_content_list (exists_forall₂_iff.mp ⟨_, hreads before⟩)
        (failsAt_content_ofInt hheld levels)
    · obtain ⟨before, s, after, rfl, rfl, rfl⟩ := hreplaced.exists_of_strings
      obtain ⟨n, hread⟩ := exists_reads_content_ofInt hheld levels
      have hnumber : Content.number n ∈ before.map .text ++ .number n :: after.map .text :=
        List.mem_append_right _ List.mem_cons_self
      obtain ⟨fault, herror⟩ := exists_mapM_eq_error (f := Content.toText) hnumber rfl
      exact ⟨_, fault, reads_content_list (List.rel_append (hreads before) (.cons hread
        (hreads after))), herror⟩

/-- An object, from its members. -/
theorem object {read : Content → Except Fault α} {members : List (String × Value)}
    (h : SpoilsMembers z levels read members) : Spoils z (levels + 1) read (.object members) := by
  refine ⟨?_, fun hheld _ _ hreplaced => ?_, fun hheld _ _ hreplaced => ?_⟩
  · obtain ⟨contents, hcontents⟩ := exists_contentsOf h.reads
    exact ⟨_, reads_content_object hcontents⟩
  · obtain ⟨before, after, key, v, v', inner, rfl, hv, rfl, rfl⟩ := hreplaced.exists_of_object
    refine failsAt_content_object (fun m hm => h.reads m (List.mem_append_left _ hm)) ?_
    exact h.fails hheld (key, v) (List.mem_append_right _ List.mem_cons_self) hv
  · obtain ⟨before, after, key, v, v', inner, hmembers, hv, rfl, rfl⟩ :=
      hreplaced.exists_of_object
    obtain ⟨contents, fault, hcontents, herror⟩ := h.spoils hheld hmembers hv
    exact ⟨_, fault, reads_content_object hcontents, herror⟩

end Spoils

/-! ## Records from content -/

namespace ContentRecord

variable {r : ContentRecord σ α} {contents : List (String × Content)} {name : String}
  {member : ContentMember σ} {c : Content} {fault : Fault}

/-- A key that has been met is a fault, whatever stands under it. -/
theorem objectForm_of_seen (hmember : r.members.find? (·.name = name) = some member)
    {seen : List String} (hseen : name ∈ seen) (known : σ) (c : Content)
    (contents : List (String × Content)) :
    r.objectForm seen known ((name, c) :: contents) = .error (.duplicateMember name) := by
  simp only [objectForm, hmember, if_pos hseen]
  rfl

/-- A key that is new adds what its value is made into. -/
theorem objectForm_of_new (hmember : r.members.find? (·.name = name) = some member)
    {seen : List String} (hseen : name ∉ seen) (known : σ) (c : Content)
    (contents : List (String × Content)) :
    r.objectForm seen known ((name, c) :: contents) =
      member.read c >>= fun add => r.objectForm (name :: seen) (add known) contents := by
  simp only [objectForm, hmember, if_neg hseen]

/-- A known key whose content cannot be made sense of spoils the object. -/
theorem exists_objectForm_eq_error (hmember : r.members.find? (·.name = name) = some member)
    (hc : (name, c) ∈ contents) (herror : member.read c = .error fault) (seen : List String)
    (known : σ) : ∃ fault', r.objectForm seen known contents = .error fault' := by
  induction contents generalizing seen known with
  | nil => cases hc
  | cons first contents ih =>
    rcases List.mem_cons.mp hc with rfl | hlater
    · by_cases hseen : name ∈ seen
      · exact ⟨_, objectForm_of_seen hmember hseen known c contents⟩
      · exact ⟨fault, by rw [objectForm_of_new hmember hseen, herror]; rfl⟩
    · -- if the first member does not spoil the object, the others do
      obtain ⟨name', c'⟩ := first
      cases hfind : r.members.find? (·.name = name') with
      | none =>
        rw [objectForm, hfind]
        exact ih hlater seen known
      | some member' =>
        by_cases hseen : name' ∈ seen
        · exact ⟨_, objectForm_of_seen hfind hseen known c' contents⟩
        · rw [objectForm_of_new hfind hseen]
          cases member'.read c' with
          | error fault' => exact ⟨fault', rfl⟩
          | ok add => exact ih hlater (name' :: seen) (add known)

/-- A record with a member that is at fault is at fault, be it for this member or for one before
it. -/
theorem exists_ofContent_eq_error (hmember : r.members.find? (·.name = name) = some member)
    (hc : (name, c) ∈ contents) (herror : member.read c = .error fault) :
    ∃ fault', r.ofContent (.object contents) = .error fault' := by
  obtain ⟨fault', hform⟩ := exists_objectForm_eq_error hmember hc herror [] r.blank
  exact ⟨fault', by rw [ofContent, hform]; rfl⟩

end ContentRecord

namespace SpoilsMembers

variable {z : Int} {levels : Nat} {r : ContentRecord σ α}

/-- Where there are no members there is no string. -/
theorem nil (read : Content → Except Fault α) : SpoilsMembers z levels read [] where
  reads := by simp
  fails := by simp
  spoils := by simp

/-- Members that are those of a record, each of which is spoiled. -/
theorem record {members : List (String × Value)}
    (h : List.Forall₂ (fun member m => member.name = m.1 ∧ Spoils z levels member.read m.2)
      r.members members)
    (hnames : (members.map (·.1)).Nodup) : SpoilsMembers z levels r.ofContent members := by
  have hmember : ∀ m ∈ members, ∃ member, r.members.find? (·.name = m.1) = some member ∧
      Spoils z levels member.read m.2 := fun m hm =>
    find?_of_forall₂ h ((find?_key_eq_some_iff hnames).mpr ⟨hm, rfl⟩)
  refine ⟨fun m hm => ?_, fun hheld m hm _ _ hv => ?_, ?_⟩
  · obtain ⟨_, -, hspoils⟩ := hmember m hm
    exact hspoils.reads
  · obtain ⟨_, -, hspoils⟩ := hmember m hm
    exact hspoils.fails hheld hv
  · rintro hheld before after key v spoiled location rfl hv
    have hreads : ∀ m ∈ before ++ (key, v) :: after, ∃ c, (content levels).Reads m.2 c := by
      intro m hm
      obtain ⟨_, -, hspoils⟩ := hmember m hm
      exact hspoils.reads
    obtain ⟨member, hfind, hspoils⟩ :=
      hmember (key, v) (List.mem_append_right _ List.mem_cons_self)
    obtain ⟨c, fault, hread, herror⟩ := hspoils.spoils hheld hv
    obtain ⟨first, hfirst⟩ :=
      exists_contentsOf fun m hm => hreads m (List.mem_append_left _ hm)
    obtain ⟨later, hlater⟩ :=
      exists_contentsOf fun m hm => hreads m (List.mem_append_right _ (.tail _ hm))
    -- the content of the spoiled member stands among that of the others
    have hc : (key, c) ∈ first ++ (key, c) :: later :=
      List.mem_append_right _ List.mem_cons_self
    obtain ⟨fault', herror'⟩ := ContentRecord.exists_ofContent_eq_error hfind hc herror
    exact ⟨_, fault', List.rel_append hfirst (.cons ⟨rfl, hread⟩ hlater), herror'⟩

end SpoilsMembers

/-! ## Kinds -/

namespace Reader

variable {z : Int}

/-- An integer is no kind. -/
theorem failsAt_kindName (choices : List (String × κ)) :
    (kindName choices).FailsAt (.number (.ofInt z)) [] :=
  ((failsAt_textAs z _).bind _).placed

/-- An integer in place of the kind. -/
theorem failsAt_tagged_kind (choices : List (String × κ)) (levels : Nat) (tag : String)
    (members : List (String × Value)) (description : String) :
    (tagged description tag choices (some (content levels))).FailsAt
      (.object ((tag, .number (.ofInt z)) :: members)) [.key tag] := by
  have hfolds : FoldsMembers (taggedStep tag choices (content levels)) ⟨none, []⟩ [] ⟨none, []⟩ :=
    .nil
  refine failsAt_object hfolds ?_ _ description _
  rw [taggedStep, if_pos rfl]
  exact (((failsAt_kindName choices).under (.key tag)).bind _).afterColon

/-- An integer behind the kind that is out of range. -/
theorem failsAt_tagged_member {choices : List (String × κ)} {name : String} {kind : κ}
    (hkind : choices.lookup name = some kind) {levels : Nat} {tag key : String}
    {before after : List (String × Value)} {v : Value} {location : Location}
    (hbefore : ∀ m ∈ before, ∃ c, (content levels).Reads m.2 c)
    (htag : ∀ m ∈ before, m.1 ≠ tag) (hkey : key ≠ tag)
    (hv : (content levels).FailsAt v location) (description : String) :
    (tagged description tag choices (some (content levels))).FailsAt
      (.object ((tag, .string name) :: (before ++ (key, v) :: after))) (.key key :: location) := by
  obtain ⟨contents, hcontents⟩ := exists_contentsOf hbefore
  have htagStep := readsMember_taggedStep_tag hkind tag (content levels) []
  have hfolds := foldsMembers_tagged choices hcontents htag (some kind) []
  refine failsAt_object (.cons htagStep hfolds) ?_ _ description _
  rw [taggedStep, if_neg hkey]
  exact ((hv.under (.key key)).bind _).afterColon

end Reader

end SelectionModels.Json
