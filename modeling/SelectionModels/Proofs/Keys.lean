import Mathlib.Data.List.Nodup

/-! # Look-ups by a key

Mostly of lists whose entries all have different keys.

* `find?_key_eq_some_iff`: a look-up finds every entry;
* `filter_key_eq_singleton`: a search for all entries of a key finds one;
* `find?_eq_ite_of_only`: a search that only one entry can answer;
* `forall_key_not_mem_cons`: one entry after another is new;
* `mem_of_lookup_eq_some`: what is found under a key is there with it.
-/

namespace SelectionModels

/-- A look-up by a key that differs for all entries finds every entry of the list. -/
theorem find?_key_eq_some_iff {α β : Type} [DecidableEq β] {key : α → β} {xs : List α}
    (h : (xs.map key).Nodup) {b : β} {x : α} :
    xs.find? (key · = b) = some x ↔ x ∈ xs ∧ key x = b := by
  constructor
  · intro hx
    exact ⟨List.mem_of_find?_eq_some hx, by simpa using List.find?_some hx⟩
  · rintro ⟨hx, hxb⟩
    cases hf : xs.find? (key · = b) with
    | none => exact absurd hxb (by simpa using List.find?_eq_none.mp hf x hx)
    | some y =>
      have hy : y ∈ xs := List.mem_of_find?_eq_some hf
      have hyb : key y = b := by simpa using List.find?_some hf
      rw [List.inj_on_of_nodup_map h hx hy (hxb.trans hyb.symm)]

/-- A search for all entries of a key finds no other beside the one that has it. -/
theorem filter_key_eq_singleton {α β : Type} [DecidableEq β] {key : α → β} {xs : List α}
    (h : (xs.map key).Nodup) {x : α} (hx : x ∈ xs) : xs.filter (key · = key x) = [x] := by
  induction xs with
  | nil => cases hx
  | cons y xs ih =>
    obtain ⟨hy, hxs⟩ := List.nodup_cons.mp h
    rcases List.mem_cons.mp hx with rfl | hx
    · -- no other entry has the key
      have hnone : xs.filter (key · = key x) = [] := by
        rw [List.filter_eq_nil_iff]
        intro z hz hzx
        exact hy (List.mem_map.mpr ⟨z, hz, by simpa using hzx⟩)
      rw [List.filter_cons_of_pos (by simp), hnone]
    · have hne : key y ≠ key x := fun hyx => hy (List.mem_map.mpr ⟨x, hx, hyx.symm⟩)
      rw [List.filter_cons_of_neg (by simpa using hne), ih hxs hx]

/-- A search that can find no other entry finds this one, or nothing. -/
theorem find?_eq_ite_of_only {α : Type} {xs : List α} {x : α} (hx : x ∈ xs) {p : α → Bool}
    (h : ∀ y ∈ xs, p y = true → y = x) : xs.find? p = if p x then some x else none := by
  split
  · rename_i hpx
    obtain ⟨y, hy⟩ := Option.isSome_iff_exists.mp (List.find?_isSome.mpr ⟨x, hx, hpx⟩)
    rw [hy, h y (List.mem_of_find?_eq_some hy) (List.find?_some hy)]
  · rename_i hpx
    rw [List.find?_eq_none]
    intro y hy hpy
    exact hpx (h y hy hpy ▸ hpy)

/-- Keys that are new stay new when another key has been seen. -/
theorem forall_key_not_mem_cons {α β : Type} {key : α → β} {x : α} {xs : List α}
    (hx : key x ∉ xs.map key) {seen : List β} (hxs : ∀ y ∈ xs, key y ∉ seen) :
    ∀ y ∈ xs, key y ∉ key x :: seen := by
  intro y hy hmem
  rcases List.mem_cons.mp hmem with heq | hmem
  · exact hx (List.mem_map.mpr ⟨y, hy, heq⟩)
  · exact hxs y hy hmem

theorem mem_of_lookup_eq_some {α β : Type} [BEq α] [LawfulBEq α] {a : α} {b : β}
    {entries : List (α × β)} (h : entries.lookup a = some b) : (a, b) ∈ entries := by
  obtain ⟨before, after, rfl, -⟩ := List.lookup_eq_some_iff.mp h
  exact List.mem_append_right _ List.mem_cons_self

end SelectionModels
