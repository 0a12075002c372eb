import Mathlib.Data.Nat.Find
import Mathlib.Order.Bounds.Basic
import SelectionModels.Proofs.ScalarNames

/-! # The verdict on custom scalars

Three names are compared for every scalar, but each is made from the one before it: scalars of one
name share their constant, and scalars of one constant share their holder. So the holders alone
decide whether scalars pass. The first scalar whose holder is taken is reported, together with the
one scalar that took it, and the error names the first of the three names that both have.

* `checkScalars_eq_ok_iff_nodup`: the scalars that pass, by their holders;
* `checkScalars_eq_clash`: what is reported of a scalar whose holder is taken;
* `checkScalars_verdict`: the verdict on any list of scalars.
-/

namespace SelectionModels

/-! ## Holders decide -/

theorem CustomScalar.holderName_eq_of_constantName {a b : CustomScalar}
    (h : a.constantName = b.constantName) : a.holderName = b.holderName :=
  congrArg Name.capitalize h

theorem CustomScalar.holderName_eq_of_name {a b : CustomScalar} (h : a.name = b.name) :
    a.holderName = b.holderName :=
  holderName_eq_of_constantName (congrArg Name.identifier h)

/-- Scalars share no name if they do not share their holder. -/
theorem CustomScalar.apart_names_iff {a b : CustomScalar} :
    a.names.Apart b.names ↔ a.holderName ≠ b.holderName := by
  constructor
  · exact fun h => h.2.2
  · intro h
    exact ⟨fun hname => h (holderName_eq_of_name hname),
      fun hconstant => h (holderName_eq_of_constantName hconstant), h⟩

theorem checkScalars_eq_ok_iff_nodup {scalars : List CustomScalar} :
    checkScalars scalars = .ok () ↔ (scalars.map (·.holderName)).Nodup := by
  rw [checkScalars_eq_ok_iff, List.Nodup, List.pairwise_map]
  exact List.Pairwise.iff fun _ _ => CustomScalar.apart_names_iff

/-! ## What is reported -/

/-- What is wrong with names of which an earlier scalar has the holder: the scalars have one name,
or their names make one constant, or at least one holder. -/
def ScalarNames.clash (first s : ScalarNames) : DocumentError :=
  if first.name = s.name then .duplicateScalar s.name
  else if first.constant = s.constant then .scalarNameClash first.name s.name s.constant
  else .scalarNameClash first.name s.name s.holder

/-- Where just one scalar has a name in common, each of the three searches finds that one or
nothing. -/
theorem checkNames_eq_clash {earlier : List ScalarNames} {first s : ScalarNames}
    (hfirst : first ∈ earlier) (hholder : first.holder = s.holder)
    (honly : ∀ e ∈ earlier, ¬e.Apart s → e = first) :
    checkNames earlier s = .error (first.clash s) := by
  have hname := find?_eq_ite_of_only (p := (·.name = s.name)) hfirst fun e he heq =>
    honly e he fun hapart => hapart.1 (by simpa using heq)
  have hconstant := find?_eq_ite_of_only (p := (·.constant = s.constant)) hfirst fun e he heq =>
    honly e he fun hapart => hapart.2.1 (by simpa using heq)
  have hholders := find?_eq_ite_of_only (p := (·.holder = s.holder)) hfirst fun e he heq =>
    honly e he fun hapart => hapart.2.2 (by simpa using heq)
  have hany : earlier.any (·.name = s.name) = decide (first.name = s.name) := by
    rw [← List.isSome_find?, hname]
    split <;> simp_all
  rw [checkNames, hany, hconstant, hholders, ScalarNames.clash]
  by_cases h₁ : first.name = s.name
  · simp [h₁]
  · by_cases h₂ : first.constant = s.constant
    · simp [h₁, h₂]
    · simp [h₁, h₂, hholder]

/-- Scalars that pass are only remembered. -/
theorem checkNamesAfter_append {earlier xs : List ScalarNames}
    (h : checkNamesAfter earlier xs = .ok ()) (ys : List ScalarNames) :
    checkNamesAfter earlier (xs ++ ys) = checkNamesAfter (xs.reverse ++ earlier) ys := by
  induction xs generalizing earlier with
  | nil => rfl
  | cons s xs ih =>
    simp only [checkNamesAfter] at h
    cases hs : checkNames earlier s with
    | error e => simp [hs, bind, Except.bind] at h
    | ok u =>
      rw [hs] at h
      rw [List.cons_append, checkNamesAfter, hs, List.reverse_cons, List.append_assoc]
      exact ih h

theorem checkScalars_eq_clash {before after : List CustomScalar} {first s : CustomScalar}
    (hbefore : (before.map (·.holderName)).Nodup) (hfirst : first ∈ before)
    (hholder : first.holderName = s.holderName) :
    checkScalars (before ++ s :: after) = .error (first.names.clash s.names) := by
  have hnames : first.names.holder = s.names.holder := hholder
  have hpass := checkScalars_eq_ok_iff_nodup.mpr hbefore
  have hmem : first.names ∈ (before.map (·.names)).reverse :=
    List.mem_reverse.mpr (List.mem_map_of_mem hfirst)
  -- a scalar that shares a name shares the holder, which no two before it do
  have honly : ∀ e ∈ (before.map (·.names)).reverse, ¬e.Apart s.names → e = first.names := by
    intro e he hshares
    obtain ⟨t, ht, rfl⟩ := List.mem_map.mp (List.mem_reverse.mp he)
    rw [CustomScalar.apart_names_iff, not_not] at hshares
    rw [List.inj_on_of_nodup_map hbefore ht hfirst (hshares.trans hholder.symm)]
  rw [checkScalars, List.map_append, checkNamesAfter_append hpass, List.append_nil, List.map_cons,
    checkNamesAfter, checkNames_eq_clash hmem hnames honly]
  rfl

/-! ## The verdict -/

/-- The scalar at the place has the holder of one that stands before it. -/
def RepeatsHolder (scalars : List CustomScalar) (i : Nat) : Prop :=
  ∃ j first s, j < i ∧ scalars[j]? = some first ∧ scalars[i]? = some s ∧
    first.holderName = s.holderName

theorem nodup_take_iff_not_repeatsHolder {scalars : List CustomScalar} {n : Nat} :
    ((scalars.take n).map (·.holderName)).Nodup ↔ ∀ i < n, ¬RepeatsHolder scalars i := by
  rw [List.Nodup, List.pairwise_map, List.pairwise_iff_getElem]
  constructor
  · rintro h i hi ⟨j, first, s, hj, hfirst, hs, heq⟩
    obtain ⟨hilen, rfl⟩ := List.getElem?_eq_some_iff.mp hs
    obtain ⟨hjlen, rfl⟩ := List.getElem?_eq_some_iff.mp hfirst
    refine h j i (by simp; omega) (by simp; omega) hj ?_
    simpa using heq
  · intro h j i hjlen hilen hj heq
    rw [List.length_take] at hjlen hilen
    refine h i (by omega) ⟨j, _, _, hj, List.getElem?_eq_getElem (by omega),
      List.getElem?_eq_getElem (by omega), ?_⟩
    simpa using heq

theorem nodup_holderName_iff {scalars : List CustomScalar} :
    (scalars.map (·.holderName)).Nodup ↔ ∀ i, ¬RepeatsHolder scalars i := by
  have htake : ((scalars.take scalars.length).map (·.holderName)).Nodup ↔
      ∀ i < scalars.length, ¬RepeatsHolder scalars i := nodup_take_iff_not_repeatsHolder
  rw [List.take_length] at htake
  rw [htake]
  constructor
  · rintro h i ⟨j, first, s, hj, hfirst, hs, heq⟩
    exact h i (List.getElem?_eq_some_iff.mp hs).1 ⟨j, first, s, hj, hfirst, hs, heq⟩
  · exact fun h i _ => h i

/-- Scalars pass if and only if their holders differ. Otherwise there is a first scalar whose holder
an earlier one has; just one earlier scalar has it, and what is reported is the clash of the two:
the name if they share it, else the constant, else the holder. -/
theorem checkScalars_verdict (scalars : List CustomScalar) :
    (checkScalars scalars = .ok () ↔ (scalars.map (·.holderName)).Nodup) ∧
      (¬(scalars.map (·.holderName)).Nodup → ∃ i, IsLeast {i | RepeatsHolder scalars i} i) ∧
      ∀ i, IsLeast {i | RepeatsHolder scalars i} i →
        ∃ j first s, j < i ∧ scalars[j]? = some first ∧ scalars[i]? = some s ∧
          first.holderName = s.holderName ∧
          (∀ j' first', j' < i → scalars[j']? = some first' →
            first'.holderName = s.holderName → j' = j) ∧
          checkScalars scalars = .error (first.names.clash s.names) := by
  refine ⟨checkScalars_eq_ok_iff_nodup, ?_, ?_⟩
  · intro hrepeats
    rw [nodup_holderName_iff, not_forall_not] at hrepeats
    classical
    exact ⟨Nat.find hrepeats, Nat.find_spec hrepeats, fun _ hi => Nat.find_min' hrepeats hi⟩
  · rintro i ⟨⟨j, first, s, hj, hfirst, hs, hholder⟩, hleast⟩
    -- the scalars before the first one that repeats a holder have holders of their own
    have hbefore : ((scalars.take i).map (·.holderName)).Nodup :=
      nodup_take_iff_not_repeatsHolder.mpr fun k hk hrepeats =>
        Nat.not_lt_of_le (hleast hrepeats) hk
    refine ⟨j, first, s, hj, hfirst, hs, hholder, ?_, ?_⟩
    · intro j' first' hj' hfirst' hholder'
      have hsame : ((scalars.take i).map (·.holderName))[j']? =
          ((scalars.take i).map (·.holderName))[j]? := by
        simp [hj, hj', hfirst, hfirst', hholder, hholder']
      have hlen : j' < ((scalars.take i).map (·.holderName)).length := by
        obtain ⟨hlt, -⟩ := List.getElem?_eq_some_iff.mp hfirst'
        simp
        omega
      exact (List.getElem?_inj hlen hbefore).mp hsame
    · have hmem : first ∈ scalars.take i := by
        refine List.mem_of_getElem? (i := j) ?_
        rw [List.getElem?_take, if_pos hj, hfirst]
      have hsplit : scalars.take i ++ s :: scalars.drop (i + 1) = scalars := by
        obtain ⟨hi, rfl⟩ := List.getElem?_eq_some_iff.mp hs
        rw [← List.drop_eq_getElem_cons hi, List.take_append_drop]
      have hclash : checkScalars (scalars.take i ++ s :: scalars.drop (i + 1)) =
          .error (first.names.clash s.names) := checkScalars_eq_clash hbefore hmem hholder
      rwa [hsplit] at hclash

/-- Two spellings of one constant, and after them a name that is written twice. -/
def pointScalars : List CustomScalar :=
  [⟨"date", none, none, none⟩, ⟨"geo point", none, none, none⟩, ⟨"geo-point", none, none, none⟩,
    ⟨"date", none, none, none⟩]

/-- Two names that differ in their first letter only, which no identifier changes. -/
def casedScalars : List CustomScalar :=
  [⟨"date", none, none, none⟩, ⟨"geoPoint", none, none, none⟩, ⟨"GeoPoint", none, none, none⟩]

/-- A name that is written twice, and after it two that differ in their first letter only. -/
def repeatedScalars : List CustomScalar :=
  [⟨"date", none, none, none⟩, ⟨"date", none, none, none⟩, ⟨"Date", none, none, none⟩]

theorem checkScalars_verdict_pointScalars :
    (¬(pointScalars.map (·.holderName)).Nodup ∧ IsLeast {i | RepeatsHolder pointScalars i} 2 ∧
      checkScalars pointScalars =
        .error (.scalarNameClash "geo point" "geo-point" "geo_point")) ∧
    (IsLeast {i | RepeatsHolder casedScalars i} 2 ∧
      checkScalars casedScalars = .error (.scalarNameClash "geoPoint" "GeoPoint" "GeoPoint")) ∧
    IsLeast {i | RepeatsHolder repeatedScalars i} 1 ∧
      checkScalars repeatedScalars = .error (.duplicateScalar "date") := by
  have hverdict : ∀ (scalars : List CustomScalar) (j i : Nat) {first s : CustomScalar}, j < i →
      scalars[j]? = some first → scalars[i]? = some s → first.holderName = s.holderName →
      ((scalars.take i).map (·.holderName)).Nodup →
      IsLeast {i | RepeatsHolder scalars i} i ∧
        checkScalars scalars = .error (first.names.clash s.names) := by
    intro scalars j i first s hj hfirst hs hholder hbefore
    have hleast : IsLeast {i | RepeatsHolder scalars i} i := by
      refine ⟨⟨j, first, s, hj, hfirst, hs, hholder⟩, fun k hk => ?_⟩
      by_contra hlt
      exact nodup_take_iff_not_repeatsHolder.mp hbefore k (by omega) hk
    obtain ⟨j', first', s', -, hfirst', hs', -, honly, hresult⟩ :=
      (checkScalars_verdict scalars).2.2 i hleast
    obtain rfl : s = s' := by simpa [hs] using hs'
    -- the holder is that of the scalar at the earlier place, and of no other
    obtain rfl : j = j' := honly j first hj hfirst hholder
    obtain rfl : first = first' := by simpa [hfirst] using hfirst'
    exact ⟨hleast, hresult⟩
  have hpoint := hverdict pointScalars 1 2 (by decide) rfl rfl
    (by decide +kernel) (by decide +kernel)
  have hcased := hverdict casedScalars 1 2 (by decide) rfl rfl
    (by decide +kernel) (by decide +kernel)
  have hrepeated := hverdict repeatedScalars 0 1 (by decide) rfl rfl
    (by decide +kernel) (by decide +kernel)
  refine ⟨⟨by decide +kernel, hpoint.1, ?_⟩, ⟨hcased.1, ?_⟩, hrepeated.1, ?_⟩
  · rw [hpoint.2]
    decide +kernel
  · rw [hcased.2]
    decide +kernel
  · rw [hrepeated.2]
    decide +kernel

end SelectionModels
