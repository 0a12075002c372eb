import SelectionModels.Proofs.Doubles
import SelectionModels.Proofs.Tokens

/-! # Integers

A number without a fraction and without an exponent. It is held if it has at most 64 bits, and else
as a double, if that is finite; or it cannot be held at all, and this is told at its end. What comes
of it does not depend on where it stands.

* `Numeral.ofInt`: integers as they are written;
* `held`: the integer can be held;
* `Leading`: the digits of a number that fit into 64 bits, and how many others follow;
* `Reader.run_number_ofInt`: an integer is read, wherever it stands, or it is out of range;
* `held_of_natAbs_le`: integers of 64 bits are held;
* `held_eq_isSome_double?`: a larger integer is held if its leading digits, scaled by a power of ten
  for each of the others, make a double that is finite;
* `held_iff`: which integers these are.
-/

namespace SelectionModels.Json

open Reader

/-- An integer as it is written. -/
def Numeral.ofInt (z : Int) : Numeral :=
  ⟨decide (z < 0), z.natAbs, [], none⟩

/-- The leading digits of `n`, as many as fit into 64 bits, make up `significand`, and `dropped`
others follow. -/
structure Leading (n significand dropped : Nat) : Prop where
  eq_div : significand = n / 10 ^ dropped
  fits : significand ≤ maxUnsigned
  least : ∀ fewer < dropped, maxUnsigned < n / 10 ^ fewer

theorem Leading.unique {n significand dropped significand' dropped' : Nat}
    (h : Leading n significand dropped) (h' : Leading n significand' dropped') :
    significand = significand' ∧ dropped = dropped' := by
  have hdropped : dropped = dropped' := by
    rcases Nat.lt_trichotomy dropped dropped' with hlt | heq | hgt
    · exact absurd (h.eq_div ▸ h.fits) (Nat.not_le_of_lt (h'.least _ hlt))
    · exact heq
    · exact absurd (h'.eq_div ▸ h'.fits) (Nat.not_le_of_lt (h.least _ hgt))
  subst hdropped
  exact ⟨h.eq_div.trans h'.eq_div.symm, rfl⟩

/-- Nothing is dropped of what fits. -/
theorem Leading.of_le {n : Nat} (h : n ≤ maxUnsigned) : Leading n n 0 where
  eq_div := (Nat.div_one n).symm
  fits := h
  least _ hfewer := absurd hfewer (Nat.not_lt_zero _)

/-- Leading digits behind which others are dropped are as many as fit. -/
theorem Leading.div_ten_le {n significand dropped : Nat} (h : Leading n significand dropped)
    (hdropped : dropped ≠ 0) : maxUnsigned / 10 ≤ significand := by
  obtain ⟨fewer, rfl⟩ := Nat.exists_eq_succ_of_ne_zero hdropped
  rw [h.eq_div, Nat.pow_succ, ← Nat.div_div_eq_div_mul]
  exact Nat.div_le_div_right (Nat.le_of_lt (h.least fewer (Nat.lt_succ_self fewer)))

/-- A number is too large if its leading digits are, with zeros in place of the others. -/
theorem Leading.lt_leastUnheld_iff {n significand dropped : Nat}
    (h : Leading n significand dropped) (hdropped : dropped ≠ 0) :
    significand * 10 ^ dropped < leastUnheld ↔ n < leastUnheld := by
  rcases Nat.lt_or_ge dropped 290 with hfew | hmany
  · -- the limit ends in as many zeros at least
    obtain ⟨j, hj⟩ : ∃ j, 289 = j + dropped := ⟨289 - dropped, by omega⟩
    have hlimit : leastUnheld = 17976931348623156225 * 10 ^ j * 10 ^ dropped := by
      rw [leastUnheld, hj, Nat.pow_add, Nat.mul_assoc]
    have hpos : 0 < 10 ^ dropped := Nat.pow_pos (by decide)
    rw [hlimit, Nat.mul_lt_mul_right hpos, h.eq_div, Nat.div_lt_iff_lt_mul hpos]
  · have hlarge := leastUnheld_le (h.div_ten_le hdropped) hmany
    have hle : significand * 10 ^ dropped ≤ n := h.eq_div ▸ Nat.div_mul_le_self n _
    omega

/-- The integer can be held as a number. -/
def held (z : Int) : Bool :=
  match Reader.number.run (textBytes (Numeral.ofInt z).text) with
  | .done _ _ => true
  | .failed _ _ => false

/-- An integer has one text only. -/
theorem Numeral.eq_text_of_spelledAs {z : Int} {t : String} (h : (Numeral.ofInt z).SpelledAs t) :
    t = (Numeral.ofInt z).text := by
  obtain ⟨_ | _⟩ := h
  rfl

theorem Numeral.textBytes_ofInt (z : Int) : textBytes (Numeral.ofInt z).text =
    textBytes (if decide (z < 0) then "-" else "") ++ textBytes (natText z.natAbs) := by
  simp [Numeral.text, Numeral.ofInt, textBytes_append]

namespace Reader

/-! ## Digits that fit -/

theorem digitsWithinFrom_append {digits rest : Bytes} (hrest : rest.head?.any isDigit = false)
    (limit value count : Nat) :
    digitsWithinFrom limit value count (digits ++ rest) =
      ((digitsWithinFrom limit value count digits).1,
        (digitsWithinFrom limit value count digits).2.1,
        (digitsWithinFrom limit value count digits).2.2 ++ rest) := by
  induction digits generalizing value count with
  | nil =>
    cases rest with
    | nil => rfl
    | cons b rest =>
      have hb : isDigit b = false := by simpa using hrest
      simp [digitsWithinFrom, hb]
  | cons b digits ih =>
    rw [List.cons_append, digitsWithinFrom, digitsWithinFrom]
    split
    · exact ih _ _
    · rfl

/-- The number that digits spell behind those that make `value`. -/
def digitsValue (value : Nat) (digits : Bytes) : Nat :=
  digits.foldl (fun value b => value * 10 + digitValue b) value

theorem digitsValue_append (value : Nat) (digits later : Bytes) :
    digitsValue value (digits ++ later) = digitsValue (digitsValue value digits) later :=
  List.foldl_append

theorem digitValue_lt {b : UInt8} (h : isDigit b = true) : digitValue b < 10 := by
  simp only [isDigit, Bool.and_eq_true, decide_eq_true_eq, UInt8.le_iff_toNat_le] at h
  have hzero : '0'.toUInt8.toNat = '0'.toNat := by decide
  have hnine : '9'.toUInt8.toNat = '0'.toNat + 9 := by decide
  unfold digitValue
  omega

/-- A number without its last digits. -/
theorem digitsValue_div {digits : Bytes} (hdigits : ∀ b ∈ digits, isDigit b = true) (value : Nat) :
    digitsValue value digits / 10 ^ digits.length = value := by
  induction digits generalizing value with
  | nil => exact Nat.div_one value
  | cons b digits ih =>
    obtain ⟨hb, hlater⟩ := List.forall_mem_cons.mp hdigits
    have hlast : digitsValue (value * 10 + digitValue b) digits / 10 ^ digits.length =
        value * 10 + digitValue b := ih hlater _
    have hdigit := digitValue_lt hb
    show digitsValue (value * 10 + digitValue b) digits / 10 ^ (digits.length + 1) = value
    rw [Nat.pow_succ, ← Nat.div_div_eq_div_mul, hlast]
    omega

/-- Digits are taken until the next one would not fit any more. -/
theorem digitsWithinFrom_split {limit value : Nat} (hvalue : value ≤ limit) {digits : Bytes}
    (hdigits : ∀ b ∈ digits, isDigit b = true) (count : Nat) :
    ∃ taken left, digits = taken ++ left ∧ digitsValue value taken ≤ limit ∧
      (∀ b ∈ left.head?, limit < digitsValue value (taken ++ [b])) ∧
      digitsWithinFrom limit value count digits =
        (digitsValue value taken, count + taken.length, left) := by
  induction digits generalizing value count with
  | nil => exact ⟨[], [], rfl, hvalue, by simp, rfl⟩
  | cons b digits ih =>
    obtain ⟨hb, hlater⟩ := List.forall_mem_cons.mp hdigits
    by_cases hfits : value * 10 + digitValue b ≤ limit
    · obtain ⟨taken, left, rfl, hle, hnext, htaken⟩ := ih hfits hlater (count + 1)
      refine ⟨b :: taken, left, rfl, hle, hnext, ?_⟩
      rw [digitsWithinFrom, if_pos (by simp [hb, hfits]), htaken, List.length_cons,
        Nat.add_assoc, Nat.add_comm 1]
      rfl
    · refine ⟨[], b :: digits, rfl, hvalue, ?_, ?_⟩
      · rintro _ ⟨⟩
        exact Nat.lt_of_not_le hfits
      · rw [digitsWithinFrom, if_neg (by simp [hfits])]
        rfl

/-- The digits of a number spell that number. -/
theorem digitsValue_natText (n : Nat) : digitsValue 0 (textBytes (natText n)) = n := by
  have hdigit : ∀ k < 10, ∀ value, digitsValue value (textBytes (String.ofList [k.digitChar])) =
      value * 10 + k := by
    intro k hk value
    rw [textBytes_ofList]
    interval_cases k <;> rfl
  induction n using Nat.strongRecOn with
  | _ n ih =>
    rcases Nat.lt_or_ge n 10 with hlt | hle
    · rw [natText, Nat.toDigits_of_lt_base hlt, hdigit n hlt]
      omega
    · have hfront := ih (n / 10) (by omega)
      rw [natText, Nat.toDigits_of_base_le (by decide) hle, String.ofList_append, textBytes_append,
        digitsValue_append, ← natText, hfront, hdigit _ (by omega)]
      omega

/-! ## Reading integers -/

/-- An integer that has been read, or is out of range. -/
def settled (x? : Option Number) (rest : Bytes) : Outcome Number :=
  match x? with
  | some x => .done x rest
  | none => (failHere .numberOutOfRange).run rest

theorem run_withWhole (negative : Bool) (significand : Nat) :
    ∃ x, ∀ rest, Ends rest → (withWhole negative significand).run rest = .done x rest := by
  unfold withWhole
  cases negative with
  | false =>
    refine ⟨.natural significand, fun rest hrest => ?_⟩
    simp [run_bind, run_peekIs, hrest.point, hrest.exponent]
  | true =>
    by_cases hfits : 0 < significand ∧ significand ≤ 0x8000000000000000
    · refine ⟨.negative significand, fun rest hrest => ?_⟩
      simp [run_bind, run_peekIs, hrest.point, hrest.exponent, hfits]
    · refine ⟨.float (-(UInt64.ofNat significand).toFloat), fun rest hrest => ?_⟩
      simp [run_bind, run_peekIs, hrest.point, hrest.exponent, hfits]

theorem run_withLongWhole (negative : Bool) (significand : Nat) {left : Bytes}
    (hleft : ∀ b ∈ left, isDigit b = true) {rest : Bytes} (hrest : Ends rest) :
    (withLongWhole negative significand).run (left ++ rest) =
      settled ((double? negative significand left.length).map .float) rest := by
  have hdigits : digits.run (left ++ rest) = .done (left.map digitValue) rest := by
    have htake : rest.takeWhile isDigit = [] := by
      cases rest with
      | nil => rfl
      | cons b rest => exact List.takeWhile_cons_of_neg (by simpa using hrest.digit)
    have hdrop : rest.dropWhile isDigit = rest := by
      cases rest with
      | nil => rfl
      | cons b rest => exact List.dropWhile_cons_of_neg (by simpa using hrest.digit)
    simp [digits, List.takeWhile_append_of_pos hleft, List.dropWhile_append_of_pos hleft, htake,
      hdrop]
  have hdouble : (makeDouble negative significand left.length).run rest =
      settled ((double? negative significand left.length).map .float) rest := by
    rw [makeDouble]
    cases double? negative significand left.length <;> rfl
  rw [withLongWhole, run_bind_of_done hdigits, ← hdouble]
  simp [withoutMoreDigits, run_bind, run_peekIs, hrest.point, hrest.exponent]

/-- A number without a sign is read or out of range, by its leading digits. -/
theorem run_unsignedNumber (negative : Bool) {d : UInt8} {digits : Bytes}
    (hdigits : ∀ b ∈ d :: digits, isDigit b = true) (hzero : digitValue d = 0 → digits = []) :
    ∃ x? significand dropped, Leading (digitsValue 0 (d :: digits)) significand dropped ∧
      x?.isSome = (decide (dropped = 0) || (double? negative significand dropped).isSome) ∧
      ∀ rest, Ends rest →
        (unsignedNumber negative).run (d :: (digits ++ rest)) = settled x? rest := by
  obtain ⟨hd, hlater⟩ := List.forall_mem_cons.mp hdigits
  have hstart : digitsValue 0 (d :: digits) = digitsValue (digitValue d) digits := by
    simp [digitsValue]
  have hnext : ∀ rest, next.run (d :: (digits ++ rest)) = .done (some d) (digits ++ rest) :=
    fun _ => rfl
  by_cases hfirst : digitValue d = 0
  · obtain ⟨x, hx⟩ := run_withWhole negative 0
    obtain rfl := hzero hfirst
    refine ⟨some x, 0, 0, ⟨?_, Nat.zero_le _, nofun⟩, rfl, fun rest hrest => ?_⟩
    · rw [hstart, hfirst]
      rfl
    · rw [unsignedNumber, run_bind_of_done (hnext rest)]
      simp [hd, hfirst, run_bind, run_peekDigit?_of_ends hrest.digit, hx rest hrest, settled]
  · have hsmall : digitValue d ≤ maxUnsigned :=
      Nat.le_trans (Nat.le_of_lt (digitValue_lt hd)) (by decide)
    obtain ⟨taken, left, hcut, hfits, hleast, hsplit⟩ := digitsWithinFrom_split hsmall hlater 0
    obtain ⟨-, hleft⟩ := List.forall_mem_append.mp (hcut ▸ hlater)
    have htaken : ∀ rest, Ends rest → ∀ f : Nat × Nat → Reader Number,
        (digitsWithin maxUnsigned (digitValue d) >>= f).run (digits ++ rest) =
          (f (digitsValue (digitValue d) taken, 0 + taken.length)).run (left ++ rest) := by
      intro rest hrest f
      refine run_bind_of_done ?_
      simp [digitsWithin, digitsWithinFrom_append hrest.digit, hsplit]
    -- the digits that are left are those that a division by a power of ten cuts off
    have hleading : Leading (digitsValue 0 (d :: digits)) (digitsValue (digitValue d) taken)
        left.length := by
      rw [hstart, hcut]
      refine ⟨?_, hfits, fun fewer hfewer => ?_⟩
      · rw [digitsValue_append, digitsValue_div hleft]
      · cases left with
        | nil => cases hfewer
        | cons b left =>
          have hshort := digitsValue_div (List.forall_mem_cons.mp hleft).2
            (digitsValue (digitValue d) (taken ++ [b]))
          rw [← digitsValue_append, List.append_assoc, List.singleton_append] at hshort
          have hpow : 10 ^ fewer ≤ 10 ^ left.length :=
            Nat.pow_le_pow_right (by decide) (Nat.le_of_lt_succ hfewer)
          calc maxUnsigned < digitsValue (digitValue d) (taken ++ [b]) := hleast b rfl
            _ = digitsValue (digitValue d) (taken ++ b :: left) / 10 ^ left.length := hshort.symm
            _ ≤ digitsValue (digitValue d) (taken ++ b :: left) / 10 ^ fewer :=
              Nat.div_le_div_left hpow (Nat.pow_pos (by decide))
    cases left with
    | nil =>
      obtain ⟨x, hx⟩ := run_withWhole negative (digitsValue (digitValue d) taken)
      refine ⟨some x, _, _, hleading, rfl, fun rest hrest => ?_⟩
      rw [unsignedNumber, run_bind_of_done (hnext rest)]
      simp [hd, hfirst, htaken rest hrest, run_bind_of_done (run_peekDigit?_of_ends hrest.digit),
        hx rest hrest, settled]
    | cons b left =>
      refine ⟨(double? negative (digitsValue (digitValue d) taken) (b :: left).length).map .float,
        _, _, hleading, by simp, fun rest hrest => ?_⟩
      have hdigit := run_peekDigit?_of_digit (hleft b List.mem_cons_self) (left ++ rest)
      rw [unsignedNumber, run_bind_of_done (hnext rest)]
      simp [hd, hfirst, htaken rest hrest, run_bind_of_done hdigit]
      exact run_withLongWhole negative _ hleft hrest

/-- An integer is read or it is out of range, by its leading digits and whatever stands behind. -/
theorem exists_run_number_ofInt (z : Int) : ∃ x? significand dropped,
    Leading z.natAbs significand dropped ∧
      x?.isSome =
        (decide (dropped = 0) || (double? (decide (z < 0)) significand dropped).isSome) ∧
      ∀ rest, Ends rest →
        number.run (textBytes (Numeral.ofInt z).text ++ rest) = settled x? rest := by
  obtain ⟨d, digits, hbytes, hdigits, hzero⟩ := whole_cases z.natAbs
  obtain ⟨x?, significand, dropped, hleading, hsome, hx⟩ :=
    run_unsignedNumber (decide (z < 0)) hdigits hzero
  rw [← hbytes, digitsValue_natText] at hleading
  refine ⟨x?, significand, dropped, hleading, hsome, fun rest hrest => ?_⟩
  rw [Numeral.textBytes_ofInt, hbytes, List.append_assoc, List.cons_append, number]
  -- the sign is looked for first
  cases hnegative : decide (z < 0) with
  | true =>
    have hminus := run_takeIf_of_eq blank_empty (b := '-'.toUInt8) (by decide)
      (d :: (digits ++ rest))
    rw [textBytes_empty, List.nil_append] at hminus
    rw [if_pos rfl, textBytes_minus, List.singleton_append, run_bind_of_done hminus, if_pos rfl,
      ← hnegative]
    exact hx rest hrest
  | false =>
    obtain ⟨hd, -⟩ := List.forall_mem_cons.mp hdigits
    have hne : d ≠ '-'.toUInt8 := by
      rintro rfl
      revert hd
      decide
    have hdigit := run_takeIf_of_ne blank_empty (isBlank_of_isDigit hd) hne (digits ++ rest)
    rw [textBytes_empty, List.nil_append] at hdigit
    rw [if_neg (by decide), textBytes_empty, List.nil_append, run_bind_of_done hdigit,
      if_neg (by decide), ← hnegative]
    exact hx rest hrest

/-- Whether an integer is held can be told from a text in which nothing follows it. -/
theorem isSome_eq_held {z : Int} {x? : Option Number}
    (h : ∀ rest, Ends rest →
      number.run (textBytes (Numeral.ofInt z).text ++ rest) = settled x? rest) :
    x?.isSome = held z := by
  have halone := h [] ends_nil
  rw [List.append_nil] at halone
  rw [held, halone]
  cases x? <;> rfl

/-- An integer is read or it is out of range, whatever stands behind it. -/
theorem run_number_ofInt (z : Int) : ∃ x?, x?.isSome = held z ∧ ∀ rest, Ends rest →
    number.run (textBytes (Numeral.ofInt z).text ++ rest) = settled x? rest := by
  obtain ⟨x?, -, -, -, -, hx⟩ := exists_run_number_ofInt z
  exact ⟨x?, isSome_eq_held hx, hx⟩

/-- An integer whose last digits are dropped is held if the others, with as many zeros behind them,
make a finite double. -/
theorem held_eq_isSome_double? {z : Int} {significand dropped : Nat}
    (h : Leading z.natAbs significand dropped) (hdropped : dropped ≠ 0) :
    held z = (double? (decide (z < 0)) significand dropped).isSome := by
  obtain ⟨x?, significand', dropped', hleading, hsome, hx⟩ := exists_run_number_ofInt z
  obtain ⟨rfl, rfl⟩ := h.unique hleading
  rw [← isSome_eq_held hx, hsome, decide_eq_false hdropped, Bool.false_or]

/-- An integer of 64 bits is held. -/
theorem held_of_natAbs_le {z : Int} (h : z.natAbs ≤ maxUnsigned) : held z = true := by
  obtain ⟨x?, significand, dropped, hleading, hsome, hx⟩ := exists_run_number_ofInt z
  obtain ⟨-, rfl⟩ := hleading.unique (.of_le h)
  rw [← isSome_eq_held hx, hsome]
  rfl

/-- An integer is held if it is not too large for a double, as far as its leading digits tell. -/
theorem held_iff {z : Int} : held z = true ↔ z.natAbs < leastUnheld := by
  obtain ⟨-, significand, dropped, hleading, -, -⟩ := exists_run_number_ofInt z
  by_cases hdropped : dropped = 0
  · subst hdropped
    have hfits : z.natAbs ≤ maxUnsigned := by
      have hle := hleading.fits
      rwa [hleading.eq_div, Nat.pow_zero, Nat.div_one] at hle
    have hsmall : maxUnsigned < leastUnheld := by decide +kernel
    exact iff_of_true (held_of_natAbs_le hfits) (Nat.lt_of_le_of_lt hfits hsmall)
  · rw [held_eq_isSome_double? hleading hdropped,
      isSome_double?_iff _ (hleading.div_ten_le hdropped) hleading.fits,
      hleading.lt_leastUnheld_iff hdropped]

end Reader

end SelectionModels.Json
