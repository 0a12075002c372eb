import Mathlib.Data.List.Forall2
import Mathlib.Data.List.TakeDrop
import Mathlib.Data.List.TakeWhile
import SelectionModels.Glob.Expand
import SelectionModels.Proofs.Chains
import SelectionModels.Proofs.PathTexts

/-! # What patterns say

The text of a pattern and the names that a pattern stands for, said by rules. A text is read from
its front: a question mark, a star, a class between brackets, two stars that stand alone between
slashes, or any other character. What no rule reads is malformed. A name fits tokens when it falls
into parts that fit them one by one. Nothing is said here of how a pattern is read or tried.

* `Pattern.Reads`, `parse_eq_ok_iff`: the tokens of a text are those that the rules give it;
* `Pattern.Fits`, `admits_iff`: the names that fit are those that the rules allow;
* `MadeOf`, `parseComponents_eq_ok_iff`: the components of a whole pattern.
-/

namespace SelectionModels.Glob

/-! ## Names that fit -/

/-- The item of a class stands for the character. -/
def ClassItem.Holds (c : Char) : ClassItem → Prop
  | .single d => c = d
  | .range first last => first ≤ c ∧ c ≤ last

theorem ClassItem.admits_iff {c : Char} {item : ClassItem} :
    item.admits c = true ↔ item.Holds c := by
  cases item <;> simp [admits, Holds]

/-- The token stands for the single character. -/
def Token.Allows (c : Char) : Token → Prop
  | .char d => c = d
  | .anyChar => True
  | .oneOf items => ∃ item ∈ items, item.Holds c
  | .noneOf items => ∀ item ∈ items, ¬ item.Holds c
  | .anyName | .anyDirectories => False

/-- The token stands for any number of characters. -/
def Token.IsStar (t : Token) : Prop :=
  t = .anyName ∨ t = .anyDirectories

namespace Pattern

/-- The name falls into parts that fit the tokens one by one. -/
inductive Fits : Pattern → List Char → Prop
  | done : Fits [] []
  | one {t : Token} {ts : Pattern} {c : Char} {cs : List Char} (allowed : t.Allows c)
      (rest : Fits ts cs) : Fits (t :: ts) (c :: cs)
  | star {t : Token} {ts : Pattern} {cs : List Char} (isStar : t.IsStar) (part : List Char)
      (rest : Fits ts cs) : Fits (t :: ts) (part ++ cs)

theorem tokenAdmits_iff {c : Char} {t : Token} : tokenAdmits c t = true ↔ t.Allows c := by
  cases t <;> simp [tokenAdmits, Token.Allows, ClassItem.admits_iff]

theorem anySuffix_iff {fits : List Char → Bool} {cs : List Char} :
    anySuffix fits cs = true ↔ ∃ part rest, part ++ rest = cs ∧ fits rest = true := by
  induction cs with
  | nil => simp [anySuffix]
  | cons c cs ih =>
    simp only [anySuffix, Bool.or_eq_true, ih]
    constructor
    · rintro (hhere | ⟨part, rest, rfl, hrest⟩)
      · exact ⟨[], c :: cs, rfl, hhere⟩
      · exact ⟨c :: part, rest, rfl, hrest⟩
    · rintro ⟨part, rest, hsplit, hrest⟩
      cases part with
      | nil => exact Or.inl (hsplit ▸ hrest)
      | cons d part =>
        obtain ⟨rfl, rfl⟩ := List.cons.inj hsplit
        exact Or.inr ⟨part, rest, rfl, hrest⟩

theorem admitsChars_star_iff {t : Token} (h : t.IsStar) {ts : Pattern} {cs : List Char} :
    admitsChars (t :: ts) cs = true ↔
      ∃ part rest, part ++ rest = cs ∧ admitsChars ts rest = true := by
  rw [← anySuffix_iff]
  rcases h with rfl | rfl <;> rfl

theorem admitsChars_one_iff {t : Token} (h : ¬ t.IsStar) {ts : Pattern} {cs : List Char} :
    admitsChars (t :: ts) cs = true ↔
      ∃ c rest, cs = c :: rest ∧ t.Allows c ∧ admitsChars ts rest = true := by
  have hcons : ∀ c rest, admitsChars (t :: ts) (c :: rest) =
      (tokenAdmits c t && admitsChars ts rest) := by
    intro c rest
    cases t <;> simp [Token.IsStar] at h <;> rfl
  cases cs with
  | nil => cases t <;> simp [Token.IsStar] at h <;> simp [admitsChars]
  | cons c rest => simp [hcons, tokenAdmits_iff]

/-- The plain test of a name is right. -/
theorem admitsChars_iff {p : Pattern} {cs : List Char} : admitsChars p cs = true ↔ Fits p cs := by
  induction p generalizing cs with
  | nil =>
    constructor
    · intro h
      obtain rfl : cs = [] := by simpa [admitsChars] using h
      exact .done
    · rintro ⟨⟩
      rfl
  | cons t ts ih =>
    by_cases hstar : t.IsStar
    · rw [admitsChars_star_iff hstar]
      constructor
      · rintro ⟨part, rest, rfl, hrest⟩
        exact .star hstar part (ih.mp hrest)
      · intro h
        cases h with
        | one hallowed => rcases hstar with rfl | rfl <;> exact hallowed.elim
        | star _ part hrest => exact ⟨part, _, rfl, ih.mpr hrest⟩
    · rw [admitsChars_one_iff hstar]
      constructor
      · rintro ⟨c, rest, rfl, hallowed, hrest⟩
        exact .one hallowed (ih.mp hrest)
      · intro h
        cases h with
        | one hallowed hrest => exact ⟨_, _, rfl, hallowed, ih.mpr hrest⟩
        | star hstar' => exact absurd hstar' hstar

/-- The names that a pattern admits are those that fit it. -/
theorem admits_iff {p : Pattern} {name : String} : p.admits name = true ↔ Fits p name.toList := by
  rw [admits_eq_admitsChars, admitsChars_iff]

/-! ## Texts of patterns -/

/-- The items of a class as they are written: three characters around a minus are a range. -/
inductive ClassReads : List Char → List ClassItem → Prop
  | done : ClassReads [] []
  | range {a b : Char} {cs : List Char} {items : List ClassItem} (rest : ClassReads cs items) :
      ClassReads (a :: '-' :: b :: cs) (.range a b :: items)
  | single {a : Char} {cs : List Char} {items : List ClassItem}
      (noRange : ∀ b rest, cs ≠ '-' :: b :: rest) (rest : ClassReads cs items) :
      ClassReads (a :: cs) (.single a :: items)

/-- What stands between the brackets of a class: a character, which may be a bracket, and others,
which may not. -/
def InBrackets (inside : List Char) : Prop :=
  ∃ first others, inside = first :: others ∧ ']' ∉ others

/-- The tokens of a text that stands behind a character, or at the front of a pattern. Two stars
have to stand alone: behind the front or a slash, and before the end or a slash. -/
inductive Reads : Option Char → List Char → Pattern → Prop
  | done {before : Option Char} : Reads before [] []
  | anyChar {before : Option Char} {cs : List Char} {ts : Pattern}
      (rest : Reads (some '?') cs ts) : Reads before ('?' :: cs) (.anyChar :: ts)
  | anyName {before : Option Char} {cs : List Char} {ts : Pattern} (alone : cs.head? ≠ some '*')
      (rest : Reads (some '*') cs ts) : Reads before ('*' :: cs) (.anyName :: ts)
  | lastDirectories {before : Option Char} (front : before = none ∨ before = some '/') :
      Reads before ['*', '*'] [.anyDirectories]
  | anyDirectories {before : Option Char} {cs : List Char} {ts : Pattern}
      (front : before = none ∨ before = some '/') (rest : Reads (some '/') cs ts) :
      Reads before ('*' :: '*' :: '/' :: cs) (.anyDirectories :: ts)
  | oneOf {before : Option Char} {inside cs : List Char} {items : List ClassItem} {ts : Pattern}
      (brackets : InBrackets inside) (positive : inside.head? ≠ some '!')
      (spelled : ClassReads inside items) (rest : Reads (some ']') cs ts) :
      Reads before ('[' :: (inside ++ ']' :: cs)) (.oneOf items :: ts)
  | noneOf {before : Option Char} {inside cs : List Char} {items : List ClassItem} {ts : Pattern}
      (brackets : InBrackets inside) (spelled : ClassReads inside items)
      (rest : Reads (some ']') cs ts) :
      Reads before ('[' :: '!' :: (inside ++ ']' :: cs)) (.noneOf items :: ts)
  | char {before : Option Char} {c : Char} {cs : List Char} {ts : Pattern}
      (plain : c ≠ '?' ∧ c ≠ '*' ∧ c ≠ '[') (rest : Reads (some c) cs ts) :
      Reads before (c :: cs) (.char c :: ts)

theorem classReads_classItems (cs : List Char) : ClassReads cs (classItems cs) := by
  fun_induction classItems cs with
  | case1 a b rest ih => exact .range ih
  | case2 a rest hno ih => exact .single hno ih
  | case3 => exact .done

theorem ClassReads.eq_classItems {cs : List Char} {items : List ClassItem}
    (h : ClassReads cs items) : items = classItems cs := by
  induction h with
  | done => rfl
  | range _ ih => rw [ih, classItems]
  | single hno _ ih => rw [ih, classItems]; exact hno

theorem span_bracket {others after : List Char} (h : ']' ∉ others) :
    (others ++ ']' :: after).span (· ≠ ']') = (others, ']' :: after) := by
  have hothers : ∀ c ∈ others, decide (c ≠ ']') = true := by
    intro c hc
    exact decide_eq_true fun heq => h (heq ▸ hc)
  rw [List.span_eq_takeWhile_dropWhile, List.takeWhile_append_of_pos hothers,
    List.dropWhile_append_of_pos hothers]
  simp

theorem of_span_bracket {cs others after : List Char} {d : Char}
    (h : cs.span (· ≠ ']') = (others, d :: after)) :
    ']' ∉ others ∧ cs = others ++ ']' :: after := by
  rw [List.span_eq_takeWhile_dropWhile, Prod.mk.injEq] at h
  rcases h with ⟨hothers, hafter⟩
  have hd : d = ']' := by
    have hhead := List.head?_dropWhile_not (fun c => decide (c ≠ ']')) cs
    rw [hafter] at hhead
    simpa using hhead
  constructor
  · intro hmem
    rw [← hothers] at hmem
    simpa using List.mem_takeWhile_imp hmem
  · rw [← hd, ← hothers, ← hafter, List.takeWhile_append_dropWhile]

/-- A class is cut at the first bracket that can end it. -/
theorem cutClass?_eq_some_iff {cs inside after : List Char} :
    cutClass? cs = some (inside, after) ↔ InBrackets inside ∧ cs = inside ++ ']' :: after := by
  constructor
  · intro h
    cases cs with
    | nil => cases h
    | cons first rest =>
      rw [cutClass?] at h
      rcases hspan : rest.span (· ≠ ']') with ⟨others, _ | ⟨d, after'⟩⟩
      · rw [hspan] at h
        cases h
      · rw [hspan] at h
        obtain ⟨rfl, rfl⟩ : first :: others = inside ∧ after' = after := by simpa using h
        rcases of_span_bracket hspan with ⟨hothers, rfl⟩
        exact ⟨⟨first, others, rfl, hothers⟩, rfl⟩
  · rintro ⟨⟨first, others, rfl, hothers⟩, rfl⟩
    show cutClass? (first :: (others ++ ']' :: after)) = _
    rw [cutClass?, span_bracket hothers]

theorem takeWhile_star {cs : List Char} (h : cs.head? ≠ some '*') :
    cs.takeWhile (· = '*') = [] ∧ cs.dropWhile (· = '*') = cs := by
  cases cs with
  | nil => exact ⟨rfl, rfl⟩
  | cons c cs =>
    have hc : c ≠ '*' := by simpa using h
    simp [hc]

section

variable {fuel position : Nat} {before : Option Char} {cs : List Char}

theorem parseFrom_anyName (alone : cs.head? ≠ some '*') :
    parseFrom (fuel + 1) position before ('*' :: cs) =
      (.anyName :: ·) <$> parseFrom fuel (position + 1) (some '*') cs := by
  rw [parseFrom]
  simp only [takeWhile_star alone, List.length_nil, Nat.add_zero, if_true]
  cases parseFrom fuel (position + 1) (some '*') cs <;> rfl

theorem parseFrom_lastDirectories (front : before = none ∨ before = some '/') :
    parseFrom (fuel + 1) position before ['*', '*'] = .ok [.anyDirectories] := by
  rcases front with rfl | rfl <;> rfl

theorem parseFrom_anyDirectories (front : before = none ∨ before = some '/') :
    parseFrom (fuel + 1) position before ('*' :: '*' :: '/' :: cs) =
      (.anyDirectories :: ·) <$> parseFrom fuel (position + 3) (some '/') cs := by
  have hparse : parseFrom (fuel + 1) position before ('*' :: '*' :: '/' :: cs) =
      (do return .anyDirectories :: (← parseFrom fuel (position + 3) (some '/') cs)) := by
    rcases front with rfl | rfl <;> rfl
  rw [hparse]
  cases parseFrom fuel (position + 3) (some '/') cs <;> rfl

/-- Two stars that do not stand alone cannot be read. -/
theorem exists_parseFrom_eq_error
    (h : ¬ (before = none ∨ before = some '/') ∨ cs ≠ [] ∧ cs.head? ≠ some '/') :
    ∃ e, parseFrom (fuel + 1) position before ('*' :: '*' :: cs) = .error e := by
  by_cases hmany : cs.head? = some '*'
  · -- three stars or more are too many wherever they stand
    obtain ⟨rest, rfl⟩ : ∃ rest, cs = '*' :: rest := by
      cases cs with
      | nil => cases hmany
      | cons c rest => exact ⟨rest, by rw [Option.some.inj hmany]⟩
    have hstars : 2 < 1 + (List.takeWhile (· = '*') ('*' :: '*' :: rest)).length := by
      simp only [List.takeWhile_cons, decide_true, if_true, List.length_cons]
      omega
    refine ⟨⟨position + 2, .manyStars⟩, ?_⟩
    rw [parseFrom]
    simp only [if_neg (Nat.ne_of_gt (Nat.lt_of_succ_lt hstars)), if_pos hstars]
    rfl
  · have hstars : (List.takeWhile (· = '*') ('*' :: cs)).length = 1 ∧
        List.dropWhile (· = '*') ('*' :: cs) = cs := by
      simp [takeWhile_star hmany]
    rw [parseFrom]
    simp only [hstars]
    by_cases hfront : before = none ∨ before = some '/'
    · have hrest := h.resolve_left (not_not_intro hfront)
      refine ⟨⟨position + 2, .starsInName⟩, ?_⟩
      rcases cs with _ | ⟨c, rest⟩
      · exact absurd rfl hrest.1
      · have hc : c ≠ '/' := by simpa using hrest.2
        rcases hfront with rfl | rfl <;> simp [hc] <;> rfl
    · refine ⟨⟨position - 1, .starsInName⟩, ?_⟩
      rw [not_or] at hfront
      simp [hfront]
      rfl

end

theorem parseFrom_char {fuel position : Nat} {before : Option Char} {c : Char} {cs : List Char}
    (plain : c ≠ '?' ∧ c ≠ '*' ∧ c ≠ '[') : parseFrom (fuel + 1) position before (c :: cs) =
      (.char c :: ·) <$> parseFrom fuel (position + 1) (some c) cs := by
  obtain ⟨hq, hs, hb⟩ := plain
  rw [parseFrom]
  · cases parseFrom fuel (position + 1) (some c) cs <;> rfl
  all_goals assumption

theorem parseFrom_anyChar {fuel position : Nat} {before : Option Char} {cs : List Char} :
    parseFrom (fuel + 1) position before ('?' :: cs) =
      (.anyChar :: ·) <$> parseFrom fuel (position + 1) (some '?') cs := by
  rw [parseFrom]
  cases parseFrom fuel (position + 1) (some '?') cs <;> rfl

/-- A class is read before what stands behind it. -/
theorem parseFrom_class_eq_ok_iff {fuel position : Nat} {before : Option Char} {cs : List Char}
    {p : Pattern} : parseFrom (fuel + 1) position before ('[' :: cs) = .ok p ↔
      ∃ token after ts, parseClass? cs = some (token, after) ∧ p = token :: ts ∧
        parseFrom fuel (position + (1 + (cs.length - after.length))) (some ']') after = .ok ts := by
  rw [parseFrom]
  cases hclass : parseClass? cs with
  | none =>
    constructor
    · rintro ⟨⟩
    · rintro ⟨_, _, _, ⟨⟩, _⟩
  | some found =>
    rcases found with ⟨token, after⟩
    simp only [bind_eq_ok_iff, Option.some.injEq, Prod.mk.injEq]
    constructor
    · rintro ⟨ts, hts, hp⟩
      exact ⟨token, after, ts, ⟨rfl, rfl⟩, (Except.ok.inj hp).symm, hts⟩
    · rintro ⟨_, _, ts, ⟨rfl, rfl⟩, rfl, hts⟩
      exact ⟨ts, hts, rfl⟩

/-- A class as the rules have it: one that starts with an exclamation mark stands for all other
characters. -/
theorem parseClass?_eq_some_iff {cs after : List Char} {token : Token} :
    parseClass? cs = some (token, after) ↔
      (∃ inside, InBrackets inside ∧ inside.head? ≠ some '!' ∧ cs = inside ++ ']' :: after ∧
        token = .oneOf (classItems inside)) ∨
      ∃ inside, InBrackets inside ∧ cs = '!' :: (inside ++ ']' :: after) ∧
        token = .noneOf (classItems inside) := by
  by_cases hnegative : cs.head? = some '!'
  · obtain ⟨rest, rfl⟩ : ∃ rest, cs = '!' :: rest := by
      cases cs with
      | nil => cases hnegative
      | cons c rest => exact ⟨rest, by rw [Option.some.inj hnegative]⟩
    -- what starts with an exclamation mark is no class of the first kind
    have hpositive : ¬ ∃ inside, InBrackets inside ∧ inside.head? ≠ some '!' ∧
        '!' :: rest = inside ++ ']' :: after ∧ token = .oneOf (classItems inside) := by
      rintro ⟨_, ⟨first, others, rfl, -⟩, hfirst, hsplit, -⟩
      exact hfirst (congrArg some (List.cons.inj hsplit).1.symm)
    simp only [parseClass?, Option.map_eq_some_iff, Prod.exists, cutClass?_eq_some_iff,
      Prod.mk.injEq, hpositive, false_or, List.cons.injEq, true_and]
    constructor
    · rintro ⟨inside, _, ⟨hinside, hrest⟩, rfl, rfl⟩
      exact ⟨inside, hinside, hrest, rfl⟩
    · rintro ⟨inside, hinside, hrest, rfl⟩
      exact ⟨inside, after, ⟨hinside, hrest⟩, rfl, rfl⟩
  · have hparse : parseClass? cs =
        (cutClass? cs).map fun parts => (.oneOf (classItems parts.1), parts.2) := by
      rw [parseClass?]
      intro rest hcs
      exact hnegative (hcs ▸ rfl)
    simp only [hparse, Option.map_eq_some_iff, Prod.exists, cutClass?_eq_some_iff,
      Prod.mk.injEq]
    constructor
    · rintro ⟨inside, _, ⟨hinside, rfl⟩, rfl, rfl⟩
      refine Or.inl ⟨inside, hinside, ?_, rfl, rfl⟩
      rcases hinside with ⟨first, others, rfl, -⟩
      exact hnegative
    · rintro (⟨inside, hinside, -, rfl, rfl⟩ | ⟨inside, -, rfl, -⟩)
      · exact ⟨inside, after, ⟨hinside, rfl⟩, rfl, rfl⟩
      · exact absurd rfl hnegative

/-- What is read is spelled as the rules have it. -/
theorem reads_of_parseFrom {fuel position : Nat} {before : Option Char} {cs : List Char}
    {p : Pattern} (hfuel : cs.length ≤ fuel) (h : parseFrom fuel position before cs = .ok p) :
    Reads before cs p := by
  induction fuel generalizing position before cs p with
  | zero =>
    obtain rfl : cs = [] := List.length_eq_zero_iff.mp (Nat.le_zero.mp hfuel)
    cases h
    exact .done
  | succ fuel ih =>
    cases cs with
    | nil =>
      cases h
      exact .done
    | cons c cs =>
      have hrest : cs.length ≤ fuel := Nat.le_of_succ_le_succ hfuel
      by_cases hquestion : c = '?'
      · subst hquestion
        rw [parseFrom_anyChar, map_eq_ok_iff] at h
        rcases h with ⟨ts, hts, rfl⟩
        exact .anyChar (ih hrest hts)
      by_cases hstar : c = '*'
      · subst hstar
        by_cases hone : cs.head? = some '*'
        · obtain ⟨cs, rfl⟩ : ∃ rest, cs = '*' :: rest := by
            cases cs with
            | nil => cases hone
            | cons c rest => exact ⟨rest, by rw [Option.some.inj hone]⟩
          -- two stars can be read only where they stand alone
          have hfine : ¬ (¬ (before = none ∨ before = some '/') ∨
              cs ≠ [] ∧ cs.head? ≠ some '/') := by
            intro hwrong
            rcases exists_parseFrom_eq_error hwrong with ⟨e, he⟩
            rw [he] at h
            cases h
          rw [not_or, not_not, not_and_or, not_not, not_not] at hfine
          rcases hfine with ⟨hfront, rfl | hslash⟩
          · rw [parseFrom_lastDirectories hfront] at h
            cases h
            exact .lastDirectories hfront
          · obtain ⟨cs, rfl⟩ : ∃ rest, cs = '/' :: rest := by
              cases cs with
              | nil => cases hslash
              | cons c rest => exact ⟨rest, by rw [Option.some.inj hslash]⟩
            rw [parseFrom_anyDirectories hfront, map_eq_ok_iff] at h
            rcases h with ⟨ts, hts, rfl⟩
            simp only [List.length_cons] at hrest
            exact .anyDirectories hfront (ih (by omega) hts)
        · rw [parseFrom_anyName hone, map_eq_ok_iff] at h
          rcases h with ⟨ts, hts, rfl⟩
          exact .anyName hone (ih hrest hts)
      by_cases hbracket : c = '['
      · subst hbracket
        rw [parseFrom_class_eq_ok_iff] at h
        rcases h with ⟨token, after, ts, hclass, rfl, hts⟩
        rw [parseClass?_eq_some_iff] at hclass
        rcases hclass with ⟨inside, hinside, hpositive, rfl, rfl⟩ | ⟨inside, hinside, rfl, rfl⟩
        · simp only [List.length_append, List.length_cons] at hrest
          exact .oneOf hinside hpositive (classReads_classItems inside) (ih (by omega) hts)
        · simp only [List.length_append, List.length_cons] at hrest
          exact .noneOf hinside (classReads_classItems inside) (ih (by omega) hts)
      · rw [parseFrom_char ⟨hquestion, hstar, hbracket⟩, map_eq_ok_iff] at h
        rcases h with ⟨ts, hts, rfl⟩
        exact .char ⟨hquestion, hstar, hbracket⟩ (ih hrest hts)

/-- What is spelled as the rules have it is read. -/
theorem Reads.parseFrom_eq_ok {before : Option Char} {cs : List Char} {p : Pattern}
    (h : Reads before cs p) {fuel position : Nat} (hfuel : cs.length ≤ fuel) :
    parseFrom fuel position before cs = .ok p := by
  -- every rule but the first takes a character, so there is fuel for it
  have hmore : ∀ {c : Char} {rest : List Char} {n : Nat}, (c :: rest).length ≤ n →
      ∃ m, n = m + 1 ∧ rest.length ≤ m := by
    intro c rest n hn
    exact ⟨n - 1, by simp only [List.length_cons] at hn; omega,
      by simp only [List.length_cons] at hn; omega⟩
  induction h generalizing fuel position with
  | done => cases fuel <;> rfl
  | anyChar rest ih =>
    rcases hmore hfuel with ⟨n, rfl, hn⟩
    rw [parseFrom_anyChar, ih hn]
    rfl
  | anyName alone rest ih =>
    rcases hmore hfuel with ⟨n, rfl, hn⟩
    rw [parseFrom_anyName alone, ih hn]
    rfl
  | lastDirectories front =>
    rcases hmore hfuel with ⟨n, rfl, hn⟩
    rw [parseFrom_lastDirectories front]
  | anyDirectories front rest ih =>
    rcases hmore hfuel with ⟨n, rfl, hn⟩
    simp only [List.length_cons] at hn
    rw [parseFrom_anyDirectories front, ih (by omega)]
    rfl
  | oneOf brackets positive spelled rest ih =>
    rcases hmore hfuel with ⟨n, rfl, hn⟩
    simp only [List.length_append, List.length_cons] at hn
    rw [parseFrom_class_eq_ok_iff]
    refine ⟨_, _, _, parseClass?_eq_some_iff.mpr (Or.inl ⟨_, brackets, positive, rfl, rfl⟩), ?_,
      ih (by omega)⟩
    rw [spelled.eq_classItems]
  | noneOf brackets spelled rest ih =>
    rcases hmore hfuel with ⟨n, rfl, hn⟩
    simp only [List.length_append, List.length_cons] at hn
    rw [parseFrom_class_eq_ok_iff]
    refine ⟨_, _, _, parseClass?_eq_some_iff.mpr (Or.inr ⟨_, brackets, rfl, rfl⟩), ?_,
      ih (by omega)⟩
    rw [spelled.eq_classItems]
  | char plain rest ih =>
    rcases hmore hfuel with ⟨n, rfl, hn⟩
    rw [parseFrom_char plain, ih hn]
    rfl

/-- The tokens of a text are those that the rules give it. -/
theorem parse_eq_ok_iff {text : String} {p : Pattern} :
    parse text = .ok p ↔ Reads none text.toList p := by
  have hfuel : text.toList.length ≤ text.length := Nat.le_of_eq String.length_toList
  exact ⟨reads_of_parseFrom hfuel, fun h => h.parseFrom_eq_ok hfuel⟩

end Pattern

/-! ## Components -/

open Files (segments splitSlash splitSlash_ne_nil splitSlash_append_slash splitSlash_of_not_mem)

/-- The text is the parts, each with a slash behind it, which may be missing behind the last. -/
inductive CutAtSlashes : List Char → List (List Char) → Prop
  | done : CutAtSlashes [] []
  | last {part : List Char} (whole : '/' ∉ part) (nonempty : part ≠ []) : CutAtSlashes part [part]
  | slash {part rest : List Char} {parts : List (List Char)} (whole : '/' ∉ part)
      (more : CutAtSlashes rest parts) : CutAtSlashes (part ++ '/' :: rest) (part :: parts)

/-- A text without the slash at its front. -/
def behindRoot : List Char → List Char
  | '/' :: cs => cs
  | cs => cs

/-- The text is a pattern made of the components. Not only the components have to be well-formed,
but also the pattern as a whole. -/
structure MadeOf (text : String) (components : List Pattern) : Prop where
  whole : ∃ tokens, Pattern.Reads none text.toList tokens
  parts : ∃ parts, CutAtSlashes (behindRoot text.toList) parts ∧
    List.Forall₂ (Pattern.Reads none) parts components

/-- Parts without an empty one at the end. -/
def trimmed (parts : List (List Char)) : List (List Char) :=
  if parts.getLast? = some [] then parts.dropLast else parts

theorem CutAtSlashes.eq_trimmed {cs : List Char} {parts : List (List Char)}
    (h : CutAtSlashes cs parts) : parts = trimmed (splitSlash cs) := by
  induction h with
  | done => rfl
  | last whole nonempty => simp [splitSlash_of_not_mem whole, trimmed, nonempty]
  | @slash part rest parts whole _ ih =>
    rw [splitSlash_append_slash, splitSlash_of_not_mem whole, List.singleton_append, ih]
    rcases hrest : splitSlash rest with _ | ⟨first, others⟩
    · exact absurd hrest (splitSlash_ne_nil rest)
    · rw [trimmed, trimmed, List.getLast?_cons_cons]
      split <;> rfl

theorem exists_cutAtSlashes (cs : List Char) : ∃ parts, CutAtSlashes cs parts := by
  induction cs with
  | nil => exact ⟨[], .done⟩
  | cons c cs ih =>
    rcases ih with ⟨parts, hparts⟩
    by_cases hc : c = '/'
    · subst hc
      exact ⟨[] :: parts, .slash (List.not_mem_nil) hparts⟩
    -- any other character belongs to the first part
    have hwhole : ∀ {part : List Char}, '/' ∉ part → '/' ∉ c :: part := by
      intro part hpart hmem
      rcases List.mem_cons.mp hmem with heq | hmem
      · exact hc heq.symm
      · exact hpart hmem
    cases hparts with
    | done => exact ⟨[[c]], .last (hwhole List.not_mem_nil) (List.cons_ne_nil c [])⟩
    | last whole nonempty => exact ⟨_, .last (hwhole whole) (List.cons_ne_nil c _)⟩
    | slash whole more => exact ⟨_, .slash (hwhole whole) more⟩

theorem cutAtSlashes_iff {cs : List Char} {parts : List (List Char)} :
    CutAtSlashes cs parts ↔ trimmed (splitSlash cs) = parts := by
  constructor
  · intro h
    exact h.eq_trimmed.symm
  · rintro rfl
    rcases exists_cutAtSlashes cs with ⟨parts, hparts⟩
    exact hparts.eq_trimmed ▸ hparts

theorem components_eq (text : String) :
    components text = (trimmed (splitSlash (behindRoot text.toList))).map String.ofList := by
  -- the root is the empty segment before the first slash
  have hroot : (if text.startsWith "/" then (segments text).tail else segments text) =
      (splitSlash (behindRoot text.toList)).map String.ofList := by
    rw [segments]
    by_cases hslash : text.startsWith "/" = true
    · rw [if_pos hslash]
      rcases String.startsWith_string_iff.mp hslash with ⟨rest, hrest⟩
      rw [← hrest]
      simp [behindRoot, splitSlash]
    · rw [if_neg hslash]
      have hbehind : behindRoot text.toList = text.toList := by
        unfold behindRoot
        split
        · rename_i rest htext
          refine absurd (String.startsWith_string_iff.mpr ?_) hslash
          rw [htext]
          exact ⟨rest, rfl⟩
        · rfl
      rw [hbehind]
  have hlast : ∀ parts : List (List Char),
      (parts.map String.ofList).getLast? = some "" ↔ parts.getLast? = some [] := by
    intro parts
    rw [List.getLast?_map, Option.map_eq_some_iff]
    constructor
    · rintro ⟨part, hpart, hempty⟩
      rw [hpart, (String.ofList_eq_empty_iff.mp hempty : part = [])]
    · intro h
      exact ⟨[], h, rfl⟩
  unfold components trimmed
  simp only [hroot, hlast]
  split
  · rw [List.map_dropLast]
  · rfl

/-- The components of a text are those that the rules make it of. -/
theorem parseComponents_eq_ok_iff {text : String} {patterns : List Pattern} :
    parseComponents text = .ok patterns ↔ MadeOf text patterns := by
  have hparts : (components text).mapM Pattern.parse = .ok patterns ↔
      ∃ parts, CutAtSlashes (behindRoot text.toList) parts ∧
        List.Forall₂ (Pattern.Reads none) parts patterns := by
    rw [components_eq, mapM_eq_ok_iff, List.forall₂_map_left_iff]
    simp only [Pattern.parse_eq_ok_iff, String.toList_ofList, cutAtSlashes_iff, exists_eq_left']
  rw [parseComponents, bind_eq_ok_iff]
  simp only [Pattern.parse_eq_ok_iff, hparts]
  constructor
  · rintro ⟨tokens, hwhole, hmade⟩
    exact ⟨⟨tokens, hwhole⟩, hmade⟩
  · rintro ⟨⟨tokens, hwhole⟩, hmade⟩
    exact ⟨tokens, hwhole, hmade⟩

/-- The components of a text are settled by the text. -/
theorem MadeOf.unique {text : String} {patterns patterns' : List Pattern}
    (h : MadeOf text patterns) (h' : MadeOf text patterns') : patterns = patterns' := by
  rw [← parseComponents_eq_ok_iff] at h h'
  exact Except.ok.inj (h.symm.trans h')

end SelectionModels.Glob
