import SelectionModels.Proofs.Chains
import SelectionModels.Proofs.Yields

/-! # How deep content nests

Content nests as deep as the value that it was read from, so that a record which is made from it
cannot come to more than there was room for.

* `Content.Within`: content that nests at most so deep;
* `Reader.yields_content`, `Reader.yields_tagged`: content that has been read;
* `ContentRecord.exists_of_ofContent`: invariants of what is made from content.
-/

namespace SelectionModels

open Json Reader

namespace Json

variable {α σ κ : Type}

/-! ## Content -/

/-- Content that nests at most the given number of levels deep. -/
inductive Content.Within : Nat → Content → Prop where
  | null {levels : Nat} : Within levels .null
  | bool {levels : Nat} {b : Bool} : Within levels (.bool b)
  | number {levels : Nat} {n : Number} : Within levels (.number n)
  | text {levels : Nat} {s : String} : Within levels (.text s)
  | list {levels : Nat} {items : List Content} (h : ∀ c ∈ items, Within levels c) :
    Within (levels + 1) (.list items)
  | object {levels : Nat} {members : List (String × Content)}
    (h : ∀ m ∈ members, Within levels m.2) : Within (levels + 1) (.object members)

namespace Reader

theorem yields_contentWith {inner : Option (Reader Content)} {levels : Nat}
    (h : ∀ r ∈ inner, ∃ below, levels = below + 1 ∧ r.Yields (Content.Within below)) :
    (contentWith inner).Yields (Content.Within levels) := by
  refine yields_bind fun opening => ?_
  cases opening with
  | nothing => exact yields_failNext _ _
  | other => exact yields_failNext _ _
  | null => exact yields_bind fun _ => yields_bind fun _ => yields_pure .null
  | «true» => exact yields_bind fun _ => yields_bind fun _ => yields_pure .bool
  | «false» => exact yields_bind fun _ => yields_bind fun _ => yields_pure .bool
  | minus => exact yields_bind fun _ => yields_pure .number
  | digit => exact yields_bind fun _ => yields_pure .number
  | quote => exact yields_bind fun _ => yields_bind fun _ => yields_pure .text
  | bracket =>
    -- what is inside is read with one level less
    refine (yields_inList (P := fun taken => Content.Within levels (.list taken.reverse)) ?_).bind
      fun taken htaken => yields_pure htaken
    intro body hbody
    obtain ⟨r, hr, rfl⟩ := Option.map_eq_some_iff.mp hbody
    obtain ⟨below, rfl, hyields⟩ := h r hr
    refine Yields.mono (P := fun taken => ∀ c ∈ taken, Content.Within below c)
      (yields_items (by simp) fun taken index htaken => ?_)
      fun taken htaken => .list (by simpa using htaken)
    exact (hyields.under _).map fun c hc => List.forall_mem_cons.mpr ⟨hc, htaken⟩
  | brace =>
    refine (yields_inObject (P := fun taken => Content.Within levels (.object taken.reverse))
      ?_).bind fun taken htaken => yields_pure htaken
    intro body hbody
    obtain ⟨r, hr, rfl⟩ := Option.map_eq_some_iff.mp hbody
    obtain ⟨below, rfl, hyields⟩ := h r hr
    refine Yields.mono (P := fun taken => ∀ m ∈ taken, Content.Within below m.2)
      (yields_members (by simp) fun taken name htaken => yields_bind fun _ => ?_)
      fun taken htaken => .object (by simpa using htaken)
    exact (hyields.under _).bind fun c hc => yields_pure (List.forall_mem_cons.mpr ⟨hc, htaken⟩)

/-- Content that has been read nests as deep as it was allowed to. -/
theorem yields_content (levels : Nat) : (content levels).Yields (Content.Within levels) := by
  induction levels with
  | zero => exact yields_contentWith (by simp)
  | succ levels ih => exact yields_contentWith fun r hr => ⟨levels, rfl, Option.some.inj hr ▸ ih⟩

/-! ## Kinds -/

/-- The kind, if it is known, has one property, and what has been taken so far another. -/
structure TaggedState.Holds {β : Type} (K : κ → Prop) (P : β → Prop) (state : TaggedState κ β) :
    Prop where
  kind : ∀ k ∈ state.kind, K k
  taken : ∀ b ∈ state.taken, P b

theorem yields_taggedResult {β : Type} (tag : String) {state : TaggedState κ β} {K : κ → Prop}
    {P : β → Prop} (h : state.Holds K P) :
    (taggedResult tag state).Yields fun r => K r.1 ∧ ∀ b ∈ r.2, P b := by
  unfold taggedResult
  split
  · rename_i k hk
    exact yields_pure ⟨h.kind k hk, by simpa using h.taken⟩
  · exact yields_failUnplaced _ _

variable {choices : List (String × κ)} {K : κ → Prop}

theorem yields_taggedList (hchoices : ∀ c ∈ choices, K c.2) (tag : String) (levels : Nat) :
    (taggedList tag choices (content levels)).Yields
      fun r => K r.1 ∧ r.2.Within (levels + 1) := by
  refine Yields.bind (P := TaggedState.Holds K (Content.Within levels))
    (yields_items ⟨by simp, by simp⟩ fun state index hstate => ?_)
    fun state hstate => (yields_taggedResult tag hstate).bind fun r hr =>
      yields_pure ⟨hr.1, .list hr.2⟩
  split
  · exact ((yields_kindName hchoices).under _).bind fun k hk =>
      yields_pure ⟨by simpa using hk, hstate.taken⟩
  · exact ((yields_content levels).under _).bind fun c hc =>
      yields_pure ⟨hstate.kind, List.forall_mem_cons.mpr ⟨hc, hstate.taken⟩⟩

theorem yields_taggedObject (hchoices : ∀ c ∈ choices, K c.2) (tag : String) (levels : Nat) :
    (taggedObject tag choices (content levels)).Yields
      fun r => K r.1 ∧ r.2.Within (levels + 1) := by
  refine Yields.bind (P := TaggedState.Holds K fun m => Content.Within levels m.2)
    (yields_members ⟨by simp, by simp⟩ fun state name hstate => ?_)
    fun state hstate => (yields_taggedResult tag hstate).bind fun r hr =>
      yields_pure ⟨hr.1, .object hr.2⟩
  split
  · have hkind : (colon >>= fun _ => (kindName choices).under (.key name) >>= fun kind =>
        pure { state with kind := some kind }).Yields
          (TaggedState.Holds K fun m => Content.Within levels m.2) :=
      yields_bind fun _ => ((yields_kindName hchoices).under _).bind fun k hk =>
        yields_pure ⟨by simpa using hk, hstate.taken⟩
    dsimp only
    -- a kind that stands twice fails before the second one is read
    split
    · exact yields_bind fun _ => hkind
    · exact hkind
  · exact yields_bind fun _ => ((yields_content levels).under _).bind fun c hc =>
      yields_pure ⟨hstate.kind, List.forall_mem_cons.mpr ⟨hc, hstate.taken⟩⟩

theorem yields_tagged (hchoices : ∀ c ∈ choices, K c.2) (description tag : String)
    (levels : Nat) : (tagged description tag choices (some (content levels))).Yields
      fun r => K r.1 ∧ r.2.Within (levels + 1) := by
  refine yields_listOrObject fun f hf => ?_
  obtain rfl := Option.some.inj hf
  exact ⟨yields_taggedList hchoices tag levels, yields_taggedObject hchoices tag levels⟩

end Reader

end Json

/-! ## Records from content -/

namespace Json.ContentRecord

variable {α σ : Type} {r : ContentRecord σ α} {levels : Nat}

/-- What members add to content of the given depth keeps the invariant. -/
def Preserve (levels : Nat) (I : σ → Prop) (members : List (ContentMember σ)) : Prop :=
  ∀ m ∈ members, ∀ c, Content.Within levels c → ∀ add, m.read c = .ok add → ∀ s, I s → I (add s)

theorem invariant_of_objectForm {I : σ → Prop} (h : Preserve levels I r.members)
    {members : List (String × Content)} (hmembers : ∀ m ∈ members, m.2.Within levels)
    {seen : List String} {s s' : σ} (hs : I s) (hform : r.objectForm seen s members = .ok s') :
    I s' := by
  induction members generalizing seen s with
  | nil =>
    cases hform
    exact hs
  | cons m members ih =>
    obtain ⟨hm, hmembers⟩ := List.forall_mem_cons.mp hmembers
    rw [objectForm] at hform
    split at hform
    · rename_i member hmember
      split at hform
      · cases hform
      · obtain ⟨add, hadd, hform⟩ := bind_eq_ok_iff.mp hform
        exact ih hmembers (h member (List.mem_of_find?_eq_some hmember) m.2 hm add hadd s hs) hform
    · exact ih hmembers hs hform

theorem invariant_of_listForm {I : σ → Prop} {members : List (ContentMember σ)}
    (h : Preserve levels I members) {items : List Content} (hitems : ∀ c ∈ items, c.Within levels)
    {index : Nat} {s s' : σ} (hs : I s) (hform : r.listForm s index members items = .ok s') :
    I s' := by
  induction members generalizing items index s with
  | nil =>
    cases items with
    | nil =>
      cases hform
      exact hs
    | cons c items => cases hform
  | cons member members ih =>
    cases items with
    | nil => cases hform
    | cons c items =>
      obtain ⟨hmember, hmembers⟩ := List.forall_mem_cons.mp h
      obtain ⟨hc, hitems⟩ := List.forall_mem_cons.mp hitems
      obtain ⟨add, hadd, hform⟩ := bind_eq_ok_iff.mp hform
      exact ih hmembers hitems (hmember c hc add hadd s hs) hform

/-- What a record is built of in the end has the invariant that its members keep. -/
theorem exists_of_ofContent {I : σ → Prop} (hblank : I r.blank) (h : Preserve levels I r.members)
    {c : Content} (hc : c.Within (levels + 1)) {value : α} (hvalue : r.ofContent c = .ok value) :
    ∃ s, I s ∧ r.build s = .ok value := by
  cases hc with
  | null => cases hvalue
  | bool => cases hvalue
  | number => cases hvalue
  | text => cases hvalue
  | list hitems =>
    obtain ⟨s, hform, hbuild⟩ := bind_eq_ok_iff.mp hvalue
    refine ⟨s, invariant_of_listForm h hitems hblank hform, ?_⟩
    split at hbuild <;> cases hbuild
    assumption
  | object hmembers =>
    obtain ⟨s, hform, hbuild⟩ := bind_eq_ok_iff.mp hvalue
    refine ⟨s, invariant_of_objectForm h hmembers hblank hform, ?_⟩
    split at hbuild <;> cases hbuild
    assumption

/-- A record needs a bracket. -/
theorem ofContent_ne_ok_of_flat {c : Content} (hc : c.Within 0) (value : α) :
    r.ofContent c ≠ .ok value := by
  intro hvalue
  cases hc <;> cases hvalue

end Json.ContentRecord

end SelectionModels
