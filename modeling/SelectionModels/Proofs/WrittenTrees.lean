import SelectionModels.Proofs.SkippedTrees
import SelectionModels.Proofs.Skipping

/-! # Trees of values that are written

A value has a tree, which is that of each of its texts, whatever the layout.

* `Value.tree`: the tree of a value;
* `Tree.standsAt_of_spelledAs`: it stands at the front of every text of the value;
* `Tree.standsAt_textBytes`: with nothing around the value, it is all of the text.
-/

namespace SelectionModels.Json

open Reader

namespace Value

mutual

/-- The tree of a value. -/
def tree : Value → Tree
  | .null => .plain
  | .bool _ => .plain
  | .number _ => .plain
  | .string s => .text (some s)
  | .array items => .list (itemTrees items)
  | .object members => .object (memberTrees members)
termination_by structural v => v

def itemTrees : List Value → List Tree
  | [] => []
  | v :: items => tree v :: itemTrees items
termination_by structural items => items

def memberTrees : List (String × Value) → List (Option String × Tree)
  | [] => []
  | (key, v) :: members => (some key, tree v) :: memberTrees members
termination_by structural members => members

end

theorem itemTrees_eq_map (items : List Value) : itemTrees items = items.map tree := by
  induction items with
  | nil => rfl
  | cons v items ih => simp [itemTrees, ih]

theorem memberTrees_eq_map (members : List (String × Value)) :
    memberTrees members = members.map fun m => (some m.1, m.2.tree) := by
  induction members with
  | nil => rfl
  | cons m members ih => simp [memberTrees, ih]

end Value

namespace Tree

/-- What stands before an entry are blanks and perhaps a comma. -/
theorem exists_separated {first : Bool} {lead : String} (h : Lead first lead) (rest : Bytes) :
    ∃ blanks, Blank blanks ∧
      Separated first (textBytes lead ++ rest) (textBytes blanks ++ rest) := by
  cases h with
  | first hblank => exact ⟨lead, hblank, rfl⟩
  | @later s t hbefore hafter =>
    refine ⟨t, hafter, ?_⟩
    have hcomma := dropWhile_isBlank (b := ','.toUInt8) hbefore (by decide) (textBytes t ++ rest)
    rw [textBytes_append, textBytes_append, textBytes_comma, List.append_assoc, List.append_assoc,
      List.singleton_append]
    exact hcomma

/-- The first byte tells values without brackets from those with them, and from texts. -/
theorem eq_plain_of_mayOpen {t : Tree} {o : Opening} (h : t.mayOpen o) (hplain : plain.mayOpen o) :
    t = .plain := by
  cases t with
  | plain => rfl
  | _ => cases o <;> simp [mayOpen] at h hplain

/-- A value without a bracket or a quote is skipped, and has no other tree. -/
theorem standsAt_of_spelledAs_plain {v : Value} {t : String} (h : v.SpelledAs t)
    (hplain : plain.mayOpen (opening v)) {lead : String} (hlead : Blank lead) {rest : Bytes}
    (hrest : Ends rest) :
    Tree.plain.StandsAt (textBytes lead ++ (textBytes t ++ rest)) rest := by
  obtain ⟨u, hu⟩ := exists_standsAt_of_skipValue (run_skipValue h hlead hrest)
  obtain ⟨b, bytes, hbytes, hblank, hopening⟩ := exists_cons_of_spelledAs h
  have hopens := hu.mayOpen
  rw [hbytes, List.cons_append, dropWhile_isBlank hlead hblank, List.head?_cons, hopening] at hopens
  obtain rfl := eq_plain_of_mayOpen hopens hplain
  exact hu

/-- A key stands where it is spelled. -/
theorem keyAt_of_spelledAs (key : String) {lead before : String} (hlead : Blank lead)
    (hbefore : Blank before) (rest : Bytes) :
    KeyAt (some key) (textBytes lead ++ '"'.toUInt8 :: (quotedRest key ++
      (textBytes before ++ ':'.toUInt8 :: rest))) rest := by
  have hkey : stringText? (quotedRest key ++ (textBytes before ++ ':'.toUInt8 :: rest)) =
      some key := by
    rw [stringText?, run_stringBody]
  rw [← hkey]
  exact .mk (dropWhile_isBlank hlead (by decide) _) (run_skipString key _)
    (dropWhile_isBlank hbefore (by decide) _)

mutual

/-- A value stands, as its tree, where it is spelled, by induction on the spelling. -/
theorem standsAt_of_spelledAs : {v : Value} → {t : String} → v.SpelledAs t → {lead : String} →
    Blank lead → {rest : Bytes} → Ends rest →
      v.tree.StandsAt (textBytes lead ++ (textBytes t ++ rest)) rest
  | _, _, .null, _, hlead, _, hrest => standsAt_of_spelledAs_plain .null rfl hlead hrest
  | _, _, .bool b, _, hlead, _, hrest =>
    standsAt_of_spelledAs_plain (.bool b) (by cases b <;> rfl) hlead hrest
  | _, _, .number h, _, hlead, _, hrest =>
    standsAt_of_spelledAs_plain (.number h) (by rw [opening]; split <;> rfl) hlead hrest
  | _, _, .string s, _, hlead, rest, hrest => by
    have hs : stringText? (quotedRest s ++ rest) = some s := by rw [stringText?, run_stringBody]
    rw [Value.tree, ← hs, textBytes_stringText]
    exact .text (dropWhile_isBlank hlead (by decide) _) (run_skipString s rest)
  | _, _, .array h, _, hlead, rest, _ => by
    rw [textBytes_brackets, List.cons_append, List.append_assoc]
    exact .list (dropWhile_isBlank hlead (by decide) _) (itemsStandAt_of_spelledAs h rest)
  | _, _, .object h, _, hlead, rest, _ => by
    rw [textBytes_braces, List.cons_append, List.append_assoc]
    exact .object (dropWhile_isBlank hlead (by decide) _) (membersStandAt_of_spelledAs h rest)
termination_by structural _ _ h => h

theorem itemsStandAt_of_spelledAs : {first : Bool} → {items : List Value} → {t : String} →
    Value.ItemsSpelledAs first items t → (rest : Bytes) →
      ItemsStandAt first (Value.itemTrees items) (textBytes t ++ ']'.toUInt8 :: rest) rest
  | _, _, _, .nil h, rest => .nil (dropWhile_isBlank h (by decide) rest)
  | _, _, _, .cons hlead hvalue hlater, rest => by
    rw [textBytes_append, textBytes_append, List.append_assoc, List.append_assoc]
    obtain ⟨blanks, hblanks, hseparated⟩ := exists_separated hlead _
    exact .cons hseparated (standsAt_of_spelledAs hvalue hblanks (ends_items hlater rest))
      (itemsStandAt_of_spelledAs hlater rest)
termination_by structural _ _ _ h => h

theorem membersStandAt_of_spelledAs : {first : Bool} → {members : List (String × Value)} →
    {t : String} → Value.MembersSpelledAs first members t → (rest : Bytes) →
      MembersStandAt first (Value.memberTrees members) (textBytes t ++ '\x7d'.toUInt8 :: rest) rest
  | _, _, _, .nil h, rest => .nil (dropWhile_isBlank h (by decide) rest)
  | _, _, _, .cons key hlead hbefore hafter hvalue hlater, rest => by
    rw [textBytes_member]
    obtain ⟨blanks, hblanks, hseparated⟩ := exists_separated hlead _
    exact .cons hseparated (keyAt_of_spelledAs key hblanks hbefore _)
      (standsAt_of_spelledAs hvalue hafter (ends_members hlater rest))
      (membersStandAt_of_spelledAs hlater rest)
termination_by structural _ _ _ h => h

end

/-- A written value is the whole of its text. -/
theorem standsAt_textBytes {v : Value} {s : String} (h : v.SpelledAs s) :
    v.tree.StandsAt (textBytes s) [] := by
  have hv := standsAt_of_spelledAs h blank_empty ends_nil
  rwa [textBytes_empty, List.nil_append, List.append_nil] at hv

end Tree

end SelectionModels.Json
