import SelectionModels.Proofs.Keys
import SelectionModels.Proofs.Reading
import SelectionModels.Proofs.Shapes

/-! # Records that are read

A record comes to the same value in whatever order its members are read: each of them settles a part
of its own, and one that is left out would have changed nothing. Keys that are not known are passed
over.

* `Independent.foldl_addNamed`: members in any order come to what the record's own order comes to;
* `Reader.Record.Fits`: a record whose members add the parts of a value;
* `Reader.Record.Fits.reads`: the record reads every shape of that value.
-/

namespace SelectionModels.Json

variable {α σ : Type}

/-! ## Parts of a value -/

/-- A member that an object may have, and what it adds to what is known. -/
structure ValuePart (σ : Type) extends Slot where
  add : σ → σ

/-- What a member of the given name adds. -/
def addNamed (parts : List (ValuePart σ)) (s : σ) (name : String) : σ :=
  match parts.find? (·.name = name) with
  | some part => part.add s
  | none => s

theorem addNamed_of_unknown {parts : List (ValuePart σ)} {name : String}
    (h : ∀ p ∈ parts, name ≠ p.name) (s : σ) : addNamed parts s name = s := by
  have hnone : parts.find? (·.name = name) = none := by
    rw [List.find?_eq_none]
    intro p hp
    simpa using (h p hp).symm
  rw [addNamed, hnone]

/-- Parts that do not get in each other's way: they have different names, and the order in which
they are added does not matter. -/
structure Independent (parts : List (ValuePart σ)) : Prop where
  nodup : (parts.map (·.name)).Nodup
  commute : parts.Pairwise fun p q => ∀ s, p.add (q.add s) = q.add (p.add s)

/-- Whatever is left out of what may be left out, the parts that are there make the value. -/
def Makes (parts : List (ValuePart σ)) (blank : σ) (build : σ → Except String α) (result : α) :
    Prop :=
  ∀ ⦃kept : List (String × Value × Value)⦄, Keeps (parts.map (·.toSlot)) kept →
    build ((kept.map (·.1)).foldl (addNamed parts) blank) = .ok result

namespace Independent

variable {parts : List (ValuePart σ)}

theorem addNamed_of_mem (h : Independent parts) {p : ValuePart σ} (hp : p ∈ parts) (s : σ) :
    addNamed parts s p.name = p.add s := by
  rw [addNamed, (find?_key_eq_some_iff h.nodup).mpr ⟨hp, rfl⟩]

theorem add_comm (h : Independent parts) {p q : ValuePart σ} (hp : p ∈ parts) (hq : q ∈ parts)
    (s : σ) : p.add (q.add s) = q.add (p.add s) :=
  h.commute.forall_of_forall_of_flip (fun _ _ _ => rfl)
    (h.commute.imp fun hpq s => (hpq s).symm) hp hq s

theorem addNamed_comm (h : Independent parts) (s : σ) (name name' : String) :
    addNamed parts (addNamed parts s name) name' =
      addNamed parts (addNamed parts s name') name := by
  unfold addNamed
  cases hp : parts.find? (·.name = name) with
  | none => rfl
  | some p =>
    cases hq : parts.find? (·.name = name') with
    | none => rfl
    | some q => exact h.add_comm (List.mem_of_find?_eq_some hq) (List.mem_of_find?_eq_some hp) s

/-- The members that are kept add what all parts add. -/
theorem foldl_kept (h : Independent parts) {some : List (ValuePart σ)} (hsome : some ⊆ parts)
    {kept : List (String × Value × Value)} (hkept : Keeps (some.map (·.toSlot)) kept) (s : σ)
    (homitted : ∀ p ∈ some, p.omittable → p.add s = s) :
    (kept.map (·.1)).foldl (addNamed parts) s = some.foldl (fun s p => p.add s) s := by
  induction some generalizing kept s with
  | nil => cases hkept; rfl
  | cons p some ih =>
    obtain ⟨hp, hsome⟩ := List.cons_subset.mp hsome
    obtain ⟨hfirst, hlater⟩ := List.forall_mem_cons.mp homitted
    cases hkept with
    | present _ hkept =>
      rw [List.map_cons, List.foldl_cons, List.foldl_cons, h.addNamed_of_mem hp]
      refine ih hsome hkept _ fun q hq homittable => ?_
      rw [h.add_comm (hsome hq) hp, hlater q hq homittable]
    | absent homittable hkept =>
      rw [List.foldl_cons, hfirst homittable]
      exact ih hsome hkept s hlater

theorem foldl_unknown (s : σ) {names : List String}
    (h : ∀ name ∈ names, ∀ p ∈ parts, name ≠ p.name) :
    names.foldl (addNamed parts) s = s := by
  induction names with
  | nil => rfl
  | cons name names ih =>
    obtain ⟨hname, hnames⟩ := List.forall_mem_cons.mp h
    rw [List.foldl_cons, addNamed_of_unknown hname]
    exact ih hnames

/-- Members in any order add what those of them that are known add in the order of the parts. -/
theorem foldl_addNamed (h : Independent parts) {known added names : List String}
    (hadded : ∀ name ∈ added, ∀ p ∈ parts, name ≠ p.name)
    (hnames : names.Perm (known ++ added)) (s : σ) :
    names.foldl (addNamed parts) s = known.foldl (addNamed parts) s := by
  rw [hnames.foldl_eq' (fun _ _ _ _ s => h.addNamed_comm s _ _) s, List.foldl_append,
    foldl_unknown _ hadded]

/-- Parts that may be left out because they change nothing of what is known at first. -/
theorem makes (h : Independent parts) {blank : σ} {build : σ → Except String α} {result : α}
    (homitted : ∀ p ∈ parts, p.omittable → p.add blank = blank)
    (hbuild : build (parts.foldl (fun s p => p.add s) blank) = .ok result) :
    Makes parts blank build result := by
  intro kept hkept
  rw [h.foldl_kept (List.Subset.refl parts) hkept blank homitted, hbuild]

end Independent

/-! ## Members that are met -/

/-- A member has one of the shapes of the part that it is named after, or it is named after none. -/
def Met (parts : List (ValuePart σ)) (levels : Nat) (m : String × Value) : Prop :=
  (∃ p ∈ parts, m.1 = p.name ∧ ∃ core, p.shape core m.2 ∧ core.depth ≤ levels) ∨
    ∀ p ∈ parts, m.1 ≠ p.name

/-- No part is met twice. -/
def MetOnce (parts : List (ValuePart σ)) (members : List (String × Value)) : Prop :=
  members.Pairwise fun a b => a.1 = b.1 → ∀ p ∈ parts, b.1 ≠ p.name

theorem exists_of_mem_kept {parts : List (ValuePart σ)} {kept : List (String × Value × Value)}
    (h : Keeps (parts.map (·.toSlot)) kept) {m : String × Value × Value} (hm : m ∈ kept) :
    ∃ p ∈ parts, m.1 = p.name ∧ p.shape m.2.1 m.2.2 := by
  induction parts generalizing kept with
  | nil => cases h; cases hm
  | cons p parts ih =>
    cases h with
    | present hshape hkept =>
      rcases List.mem_cons.mp hm with rfl | hm
      · exact ⟨p, List.mem_cons_self, rfl, hshape⟩
      · obtain ⟨q, hq, hmq⟩ := ih hkept hm
        exact ⟨q, List.mem_cons_of_mem p hq, hmq⟩
    | absent _ hkept =>
      obtain ⟨q, hq, hmq⟩ := ih hkept hm
      exact ⟨q, List.mem_cons_of_mem p hq, hmq⟩

theorem sublist_of_keeps {slots : List Slot} {kept : List (String × Value × Value)}
    (h : Keeps slots kept) : (kept.map (·.1)).Sublist (slots.map (·.name)) := by
  induction h with
  | nil => exact .slnil
  | present _ _ ih => exact ih.cons_cons _
  | absent _ _ ih => exact ih.cons _

/-- The members of an object of a shape, as a reader meets them. -/
theorem Independent.met {parts : List (ValuePart σ)} (h : Independent parts)
    {levels : Nat} {kept : List (String × Value × Value)}
    (hkept : Keeps (parts.map (·.toSlot)) kept) (hdepth : ∀ m ∈ kept, m.2.1.depth ≤ levels)
    {members added : List (String × Value)} (hadded : ∀ m ∈ added, ∀ p ∈ parts, m.1 ≠ p.name)
    (hmembers : members.Perm (kept.map (fun m => (m.1, m.2.2)) ++ added)) :
    (∀ m ∈ members, Met parts levels m) ∧ MetOnce parts members := by
  constructor
  · intro m hm
    rcases List.mem_append.mp (hmembers.mem_iff.mp hm) with hm | hm
    · obtain ⟨k, hk, rfl⟩ := List.mem_map.mp hm
      obtain ⟨p, hp, hname, hshape⟩ := exists_of_mem_kept hkept hk
      exact .inl ⟨p, hp, hname, k.2.1, hshape, hdepth k hk⟩
    · exact .inr (hadded m hm)
  · have hnames : (kept.map (·.1)).Nodup := by
      refine (sublist_of_keeps hkept).nodup ?_
      rw [List.map_map]
      exact h.nodup
    have hsymm : ∀ {a b : String × Value}, (a.1 = b.1 → ∀ p ∈ parts, b.1 ≠ p.name) →
        b.1 = a.1 → ∀ p ∈ parts, a.1 ≠ p.name := by
      intro a b hab hba
      rw [← hba]
      exact hab hba.symm
    rw [MetOnce, hmembers.pairwise_iff hsymm, List.pairwise_append]
    refine ⟨?_, ?_, fun _ _ b hb _ => hadded b hb⟩
    · rw [List.pairwise_map]
      exact (List.pairwise_map.mp hnames).imp fun hne heq => absurd heq hne
    · exact List.pairwise_of_forall_mem_list fun _ _ b hb _ => hadded b hb

/-! ## Records -/

theorem find?_of_forall₂ {μ π : Type} {f : μ → String} {g : π → String} {R : μ → π → Prop}
    {ms : List μ} {ps : List π} (h : List.Forall₂ (fun m p => f m = g p ∧ R m p) ms ps)
    {name : String} {p : π} (hp : ps.find? (g · = name) = some p) :
    ∃ m, ms.find? (f · = name) = some m ∧ R m p := by
  induction h with
  | nil => cases hp
  | @cons m q ms ps hmq _ ih =>
    obtain ⟨hname, hR⟩ := hmq
    by_cases hq : g q = name
    · obtain rfl : q = p := by simpa [hq] using hp
      exact ⟨m, by simp [hname, hq], hR⟩
    · obtain ⟨m', hm', hR'⟩ := ih (by simpa [hq] using hp)
      exact ⟨m', by simpa [hname, hq] using hm', hR'⟩

theorem find?_of_forall₂_none {μ π : Type} {f : μ → String} {g : π → String} {R : μ → π → Prop}
    {ms : List μ} {ps : List π} (h : List.Forall₂ (fun m p => f m = g p ∧ R m p) ms ps)
    {name : String} (hname : ∀ p ∈ ps, name ≠ g p) : ms.find? (f · = name) = none := by
  induction h with
  | nil => rfl
  | cons hmp _ ih =>
    obtain ⟨hp, hps⟩ := List.forall_mem_cons.mp hname
    rw [List.find?_cons_of_neg (by simpa [hmp.1] using hp.symm)]
    exact ih hps

/-- Every value of the shape that nests at most `levels` deep is read as the result. -/
def Reader.ReadsShape (r : Reader α) (levels : Nat) (shape : Shape) (result : α) : Prop :=
  ∀ ⦃core written : Value⦄, shape core written → core.depth ≤ levels → r.Reads written result

namespace Reader.Record

/-- A known key that is new adds what its value is read as. -/
theorem readsMember_step {r : Record σ α} {m : Member σ} {name : String}
    (hm : r.members.find? (·.name = name) = some m) {v : Value} {add : σ → σ}
    (hread : m.read.Reads v add) {seen : List String} (hseen : name ∉ seen) (s : σ) :
    ReadsMember (r.step (seen, s) name) v (name :: seen, add s) := by
  rw [step, hm]
  simp only [if_neg hseen]
  exact ((hread.under _).bind fun _ => rfl).afterColon

/-- The record's members add the parts of a value. -/
structure Fits (r : Record σ α) (parts : List (ValuePart σ)) (levels : Nat) (result : α) :
    Prop where
  independent : Independent parts
  members : List.Forall₂ (fun m p => m.name = p.name ∧ m.read.ReadsShape levels p.shape p.add)
    r.members parts
  makes : Makes parts r.blank r.build result

namespace Fits

variable {r : Record σ α} {parts : List (ValuePart σ)} {levels : Nat} {result : α}

theorem step_of_mem (h : r.Fits parts levels result) {p : ValuePart σ} (hp : p ∈ parts)
    {core written : Value} (hshape : p.shape core written) (hdepth : core.depth ≤ levels)
    {seen : List String} (hseen : p.name ∉ seen) (s : σ) :
    ReadsMember (r.step (seen, s) p.name) written (p.name :: seen, p.add s) := by
  obtain ⟨m, hm, hread⟩ := find?_of_forall₂ h.members
    ((find?_key_eq_some_iff h.independent.nodup).mpr ⟨hp, rfl⟩)
  exact readsMember_step hm (hread hshape hdepth) hseen s

theorem step_of_unknown (h : r.Fits parts levels result) {name : String}
    (hname : ∀ p ∈ parts, name ≠ p.name) (v : Value) (state : List String × σ) :
    ReadsMember (r.step state name) v state := by
  rw [step, find?_of_forall₂_none h.members hname]
  exact (((reads_skipValue v).under _).bind fun _ => rfl).afterColon

/-- The fold over the members of an object, whatever their order. -/
theorem foldsMembers (h : r.Fits parts levels result) {members : List (String × Value)}
    (hmet : ∀ m ∈ members, Met parts levels m) (honce : MetOnce parts members)
    {seen : List String} (hseen : ∀ m ∈ members, m.1 ∉ seen) (s : σ) :
    ∃ seen', FoldsMembers r.step (seen, s) members
      (seen', (members.map (·.1)).foldl (addNamed parts) s) := by
  induction members generalizing seen s with
  | nil => exact ⟨seen, .nil⟩
  | cons m members ih =>
    obtain ⟨hm, hmet⟩ := List.forall_mem_cons.mp hmet
    obtain ⟨hfirst, honce⟩ := List.pairwise_cons.mp honce
    obtain ⟨hnew, hseen⟩ := List.forall_mem_cons.mp hseen
    rcases hm with ⟨p, hp, hname, core, hshape, hdepth⟩ | hunknown
    · -- a part that is met is not met again
      have hseen' : ∀ m' ∈ members, m'.1 ∉ m.1 :: seen := by
        intro m' hm' hmem
        rcases List.mem_cons.mp hmem with heq | hmem
        · exact hfirst m' hm' heq.symm p hp (heq.trans hname)
        · exact hseen m' hm' hmem
      obtain ⟨seen', hlater⟩ := ih hmet honce hseen' (addNamed parts s m.1)
      refine ⟨seen', .cons ?_ hlater⟩
      rw [hname] at hnew ⊢
      rw [h.independent.addNamed_of_mem hp]
      exact h.step_of_mem hp hshape hdepth hnew s
    · obtain ⟨seen', hlater⟩ := ih hmet honce hseen (addNamed parts s m.1)
      refine ⟨seen', .cons ?_ hlater⟩
      rw [addNamed_of_unknown hunknown]
      exact h.step_of_unknown hunknown m.2 (seen, s)

/-- The record reads every shape of the value. -/
theorem reads (h : r.Fits parts levels result) (extensible : Prop) (description : String) :
    (record description r).ReadsShape (levels + 1)
      (.object extensible (parts.map (·.toSlot))) result := by
  intro core written hshape hdepth
  obtain @⟨kept, added, members, hkept, hadded, hmembers⟩ := hshape
  have hkeptDepth : ∀ m ∈ kept, m.2.1.depth ≤ levels := by
    intro m hm
    exact Value.depth_object_le_iff.mp hdepth _ (List.mem_map_of_mem hm)
  have hunknown : ∀ m ∈ added, ∀ p ∈ parts, m.1 ≠ p.name :=
    fun m hm p hp => (hadded m hm).2 p.toSlot (List.mem_map_of_mem hp)
  obtain ⟨hmet, honce⟩ := h.independent.met hkept hkeptDepth hunknown hmembers
  have hseen : ∀ m ∈ members, m.1 ∉ ([] : List String) := fun _ _ => List.not_mem_nil
  obtain ⟨seen, hfolds⟩ := h.foldsMembers hmet honce hseen r.blank
  have hnames : (members.map (·.1)).Perm (kept.map (·.1) ++ added.map (·.1)) := by
    have hmap := hmembers.map (·.1)
    rwa [List.map_append, List.map_map] at hmap
  rw [h.independent.foldl_addNamed (by simpa using hunknown) hnames] at hfolds
  refine reads_object hfolds (fun rest => ?_) description _
  simp [h.makes hkept]

end Fits

end Reader.Record

end SelectionModels.Json
