import SelectionModels.Name

/-! # Identifiers

What an identifier is, said without the way in which one is made: an ASCII letter or an underscore,
followed by any number of ASCII letters, digits and underscores. Whatever a name is, the identifier
made from it is one, and it stays one when it is capitalized.

A name is changed no more than it takes to make an identifier of it. Each of its characters is kept
if identifiers may hold it, and replaced by a single underscore if not, so the only other change is
the underscore that guards the start. A name that is an identifier gives no occasion for either, and
neither does what has been made from a name before, capitalized or not.

* `isIdentifier_identifier`: what `identifier` makes is an identifier;
* `toList_identifier`: what `identifier` makes, character by character;
* `IsIdentifier.identifier_eq`: an identifier is made from itself;
* `IsIdentifier.capitalize_capitalize`: an identifier is capitalized once and for all;
* `identifier_retracts`: all names are taken to identifiers, which are left alone.
-/

namespace SelectionModels.Name

/-! ## The grammar -/

/-- The class `[A-Za-z_]`. -/
def StartsIdentifier (c : Char) : Prop :=
  ('A' ≤ c ∧ c ≤ 'Z') ∨ ('a' ≤ c ∧ c ≤ 'z') ∨ c = '_'

/-- The class `[A-Za-z0-9_]`. -/
def ContinuesIdentifier (c : Char) : Prop :=
  StartsIdentifier c ∨ ('0' ≤ c ∧ c ≤ '9')

instance : DecidablePred StartsIdentifier := fun _ => inferInstanceAs (Decidable (_ ∨ _))

instance : DecidablePred ContinuesIdentifier := fun _ => inferInstanceAs (Decidable (_ ∨ _))

/-- The characters match `[A-Za-z_][A-Za-z0-9_]*`. -/
inductive IsIdentifierChars : List Char → Prop where
  | intro {c : Char} {cs : List Char} (starts : StartsIdentifier c)
    (continues : ∀ d ∈ cs, ContinuesIdentifier d) : IsIdentifierChars (c :: cs)

theorem isIdentifierChars_cons_iff {c : Char} {cs : List Char} :
    IsIdentifierChars (c :: cs) ↔ StartsIdentifier c ∧ ∀ d ∈ cs, ContinuesIdentifier d :=
  ⟨fun ⟨starts, continues⟩ => ⟨starts, continues⟩,
    fun ⟨starts, continues⟩ => ⟨starts, continues⟩⟩

/-- The text matches `[A-Za-z_][A-Za-z0-9_]*`. -/
def IsIdentifier (s : String) : Prop :=
  IsIdentifierChars s.toList

instance : DecidablePred IsIdentifierChars
  | [] => .isFalse nofun
  | _ :: cs =>
    -- the characters at hand are tried, not all characters that there are
    letI : Decidable (∀ d ∈ cs, ContinuesIdentifier d) := List.decidableBAll _ cs
    decidable_of_iff' _ isIdentifierChars_cons_iff

instance : DecidablePred IsIdentifier := fun _ => inferInstanceAs (Decidable (IsIdentifierChars _))

/-! ## Characters -/

/-- The characters that are kept are those that identifiers may hold. -/
theorem isIdentifierChar_iff {c : Char} : isIdentifierChar c = true ↔ ContinuesIdentifier c := by
  delta isIdentifierChar Char.isAlphanum Char.isAlpha Char.isUpper Char.isLower Char.isDigit
  simp only [ContinuesIdentifier, StartsIdentifier, Bool.or_eq_true, Bool.and_eq_true,
    decide_eq_true_eq, beq_iff_eq, Char.le_def]
  grind

/-- Every character is made one that identifiers may hold. -/
theorem continuesIdentifier_identifierChar (c : Char) :
    ContinuesIdentifier (identifierChar c) := by
  unfold identifierChar
  split
  · rename_i h
    exact isIdentifierChar_iff.mp h
  · exact Or.inl (Or.inr (Or.inr rfl))

/-- What may go on may also start, if it is no digit. -/
theorem ContinuesIdentifier.starts {c : Char} (h : ContinuesIdentifier c)
    (hdigit : ¬ c.isDigit = true) : StartsIdentifier c := by
  refine h.resolve_right fun hc => hdigit ?_
  simpa [Char.isDigit, Char.le_def] using hc

/-- What starts an identifier is ASCII. -/
theorem toNat_lt_of_startsIdentifier {c : Char} (h : StartsIdentifier c) : c.toNat < 128 := by
  rcases h with ⟨-, h⟩ | ⟨-, h⟩ | rfl
  · exact Nat.lt_of_le_of_lt (UInt32.le_iff_toNat_le.mp h) (by decide)
  · exact Nat.lt_of_le_of_lt (UInt32.le_iff_toNat_le.mp h) (by decide)
  · decide

/-- What starts an identifier still does in upper case. -/
theorem StartsIdentifier.toUpper {c : Char} (h : StartsIdentifier c) :
    StartsIdentifier c.toUpper := by
  have hall : ∀ n < 128, StartsIdentifier (Char.ofNat n) →
      StartsIdentifier (Char.ofNat n).toUpper := by decide +kernel
  simpa using hall c.toNat (toNat_lt_of_startsIdentifier h) (by simpa using h)

/-- What starts an identifier is put in upper case once and for all. -/
theorem StartsIdentifier.toUpper_toUpper {c : Char} (h : StartsIdentifier c) :
    c.toUpper.toUpper = c.toUpper := by
  have hall : ∀ n < 128, (Char.ofNat n).toUpper.toUpper = (Char.ofNat n).toUpper := by
    decide +kernel
  simpa using hall c.toNat (toNat_lt_of_startsIdentifier h)

/-! ## Identifiers that are made -/

theorem isIdentifierChars_identifierChars (cs : List Char) :
    IsIdentifierChars (identifierChars cs) := by
  have hmap : ∀ cs : List Char, ∀ d ∈ cs.map identifierChar, ContinuesIdentifier d :=
    fun cs => List.forall_mem_map.mpr fun c _ => continuesIdentifier_identifierChar c
  cases cs with
  | nil => exact ⟨Or.inr (Or.inr rfl), by simp⟩
  | cons c cs =>
    rw [identifierChars_cons]
    split
    · -- the underscore starts, and the digit goes on
      exact ⟨Or.inr (Or.inr rfl), hmap (c :: cs)⟩
    · rename_i hdigit
      exact ⟨(continuesIdentifier_identifierChar c).starts hdigit, hmap cs⟩

/-- What is made from a name is an identifier, whatever the name is. -/
theorem isIdentifier_identifier (s : String) : IsIdentifier (identifier s) := by
  simpa [IsIdentifier, identifier] using isIdentifierChars_identifierChars s.toList

theorem IsIdentifierChars.capitalizeChars {cs : List Char} (h : IsIdentifierChars cs) :
    IsIdentifierChars (capitalizeChars cs) := by
  obtain ⟨starts, continues⟩ := h
  rw [capitalizeChars_cons, Text.upperCase_of_ascii (toNat_lt_of_startsIdentifier starts)]
  exact ⟨starts.toUpper, continues⟩

/-- A capitalized identifier is an identifier. -/
theorem IsIdentifier.capitalize {s : String} (h : IsIdentifier s) :
    IsIdentifier (capitalize s) := by
  simpa [IsIdentifier, Name.capitalize] using h.capitalizeChars

/-! ## Characters that are kept -/

theorem ContinuesIdentifier.of_isDigit {c : Char} (h : c.isDigit = true) :
    ContinuesIdentifier c :=
  Or.inr (by simpa [Char.isDigit, Char.le_def] using h)

/-- No digit starts an identifier. -/
theorem StartsIdentifier.not_isDigit {c : Char} (h : StartsIdentifier c) : ¬ c.isDigit = true := by
  simp only [Char.isDigit, Bool.and_eq_true, decide_eq_true_eq]
  rintro ⟨-, hdigit⟩
  rcases h with ⟨h, -⟩ | ⟨h, -⟩ | rfl
  · exact absurd (UInt32.le_trans h hdigit) (by decide)
  · exact absurd (UInt32.le_trans h hdigit) (by decide)
  · exact absurd hdigit (by decide)

/-- A character is kept or becomes an underscore. -/
theorem identifierChar_eq_ite (c : Char) :
    identifierChar c = if ContinuesIdentifier c then c else '_' := by
  simp only [identifierChar, isIdentifierChar_iff]

/-- A digit stays one, and nothing else becomes one. -/
@[simp] theorem isDigit_identifierChar (c : Char) : (identifierChar c).isDigit = c.isDigit := by
  by_cases hc : ContinuesIdentifier c
  · rw [identifierChar_eq_ite, if_pos hc]
  · have hdigit : ¬ c.isDigit = true := fun h => hc (.of_isDigit h)
    rw [identifierChar_eq_ite, if_neg hc, Bool.eq_false_iff.mpr hdigit]
    rfl

/-! ## What is made of a name -/

/-- The name is empty or starts with an ASCII digit. -/
def NeedsGuard (s : String) : Prop :=
  s = "" ∨ ∃ c ∈ s.toList.head?, '0' ≤ c ∧ c ≤ '9'

instance : DecidablePred NeedsGuard := fun _ => inferInstanceAs (Decidable (_ ∨ _))

/-- Only the first character is looked at. -/
theorem needsGuard_iff {s : String} :
    NeedsGuard s ↔ s.toList = [] ∨ ∃ c ∈ s.toList.head?, c.isDigit = true := by
  simp only [NeedsGuard, String.toList_eq_nil_iff, Char.isDigit, Char.le_def, Bool.and_eq_true,
    decide_eq_true_eq, ge_iff_le]

/-- Every character is kept or replaced by one underscore, and there is one more underscore in
front where the name needs it. -/
theorem toList_identifier (s : String) :
    (identifier s).toList = (if NeedsGuard s then ['_'] else []) ++
      s.toList.map fun c => if ContinuesIdentifier c then c else '_' := by
  have hchars : (fun c => if ContinuesIdentifier c then c else '_') = identifierChar :=
    funext fun c => (identifierChar_eq_ite c).symm
  simp only [identifier, String.toList_ofList, needsGuard_iff, hchars]
  cases s.toList with
  | nil => rfl
  | cons c cs =>
    -- the digit is looked for among the characters that are made, where it is the same
    by_cases hc : c.isDigit = true
    · simp [identifierChars_cons, hc]
    · simp [identifierChars_cons, hc]

/-! ## What is made of an identifier -/

theorem IsIdentifierChars.exists_cons {cs : List Char} (h : IsIdentifierChars cs) :
    ∃ c cs', cs = c :: cs' ∧ StartsIdentifier c := by
  obtain ⟨starts, -⟩ := h
  exact ⟨_, _, rfl, starts⟩

theorem IsIdentifierChars.continues_of_mem {cs : List Char} (h : IsIdentifierChars cs) {c : Char}
    (hc : c ∈ cs) : ContinuesIdentifier c := by
  obtain ⟨starts, continues⟩ := h
  rcases List.mem_cons.mp hc with rfl | hc
  · exact Or.inl starts
  · exact continues c hc

/-- An identifier needs no guard. -/
theorem IsIdentifier.not_needsGuard {s : String} (h : IsIdentifier s) : ¬ NeedsGuard s := by
  obtain ⟨c, cs, hs, starts⟩ := IsIdentifierChars.exists_cons h
  rw [needsGuard_iff, hs]
  simp [starts.not_isDigit]

/-- An identifier is made from itself. -/
theorem IsIdentifier.identifier_eq {s : String} (h : IsIdentifier s) : identifier s = s := by
  have hcontinues : ∀ c ∈ s.toList, ContinuesIdentifier c :=
    fun c => IsIdentifierChars.continues_of_mem h
  have hkept : (s.toList.map fun c => if ContinuesIdentifier c then c else '_') = s.toList :=
    (List.map_congr_left fun c hc => if_pos (hcontinues c hc)).trans (List.map_id _)
  rw [← String.toList_inj, toList_identifier, if_neg h.not_needsGuard, hkept, List.nil_append]

/-- The first character is ASCII, so it has one upper case, which is its own. -/
theorem IsIdentifierChars.capitalizeChars_capitalizeChars {cs : List Char}
    (h : IsIdentifierChars cs) :
    Name.capitalizeChars (Name.capitalizeChars cs) = Name.capitalizeChars cs := by
  obtain ⟨starts, continues⟩ := h
  rw [capitalizeChars_cons, Text.upperCase_of_ascii (toNat_lt_of_startsIdentifier starts),
    List.singleton_append, capitalizeChars_cons,
    Text.upperCase_of_ascii (toNat_lt_of_startsIdentifier starts.toUpper),
    starts.toUpper_toUpper, List.singleton_append]

/-- An identifier is capitalized once and for all. -/
theorem IsIdentifier.capitalize_capitalize {s : String} (h : IsIdentifier s) :
    Name.capitalize (Name.capitalize s) = Name.capitalize s := by
  simp [Name.capitalize, h.capitalizeChars_capitalizeChars]

/-! ## All names -/

/-- What `identifier` makes of a name is an identifier, and the name itself just if that is one. It
may be capitalized, after which neither changes anything any more. It has one character for each
of the name's, and an underscore in front just if the name is empty or starts with a digit. -/
theorem identifier_retracts (s : String) :
    IsIdentifier (identifier s) ∧
      (identifier s = s ↔ IsIdentifier s) ∧
      identifier (identifier s) = identifier s ∧
      IsIdentifier (capitalize (identifier s)) ∧
      identifier (capitalize (identifier s)) = capitalize (identifier s) ∧
      capitalize (capitalize (identifier s)) = capitalize (identifier s) ∧
      (identifier s).toList = (if NeedsGuard s then ['_'] else []) ++
        s.toList.map fun c => if ContinuesIdentifier c then c else '_' := by
  have h : IsIdentifier (identifier s) := isIdentifier_identifier s
  exact ⟨h, ⟨fun hs => hs ▸ h, IsIdentifier.identifier_eq⟩, h.identifier_eq, h.capitalize,
    h.capitalize.identifier_eq, h.capitalize_capitalize, toList_identifier s⟩

-- an Arabic digit is replaced, so that no digit is left to be guarded
example : identifier "٣d" = "_d" := by decide +kernel

end SelectionModels.Name
