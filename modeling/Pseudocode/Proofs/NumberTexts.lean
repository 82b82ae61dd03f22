import Pseudocode.Number.Numeral
import Pseudocode.Proofs.Rounding
import Pseudocode.Proofs.Trimming

/-!
The text of a number reads back as that number. An integer is written with its own digits. A
real number is written with digits on both sides of a point, and the reader sees only the value
of the decimal that they spell; so it is enough that the decimal found for a number is one that
the reader takes to it, and that zeros move between digits and exponent without changing it.
-/

namespace Pseudocode

namespace Text

def IsDigits (text : Text) : Prop := ∀ c ∈ text, c.isDigit = true

theorem IsDigits.append {front back : Text} (first : IsDigits front) (second : IsDigits back) :
    IsDigits (front ++ back) :=
  List.forall_mem_append.2 ⟨first, second⟩

theorem IsDigits.not_mem {text : Text} (digits : IsDigits text) {c : Char}
    (other : c.isDigit = false) : c ∉ text := by
  intro member
  rw [digits c member] at other
  contradiction

theorem digits_zeros (count : Nat) : IsDigits (List.replicate count '0') := by
  intro c member
  rw [List.eq_of_mem_replicate member]
  rfl

theorem digits_ofNat (n : Nat) : IsDigits (ofNat n) :=
  fun _ member => Nat.isDigit_of_mem_toDigits (by decide) (by decide) member

theorem plain_of_digit {c : Char} (digit : c.isDigit = true) : isPlain c = true :=
  plain_of_nameChar (nameChar_of_digit digit)

theorem ofNat_ne_nil (n : Nat) : ofNat n ≠ [] := Nat.toDigits_ne_nil

theorem digitsValue_ofNat (n : Nat) : digitsValue (ofNat n) = n :=
  Nat.ofDigitChars_toDigits (by decide) (by decide)

theorem digitsValue_append (front back : Text) :
    digitsValue (front ++ back) = digitsValue front * 10 ^ back.length + digitsValue back := by
  unfold digitsValue
  rw [Nat.ofDigitChars_append, Nat.ofDigitChars_eq_ofDigitChars_zero, Nat.mul_comm]

theorem digitsValue_zeros (count : Nat) : digitsValue (List.replicate count '0') = 0 := by
  induction count with
  | zero => rfl
  | succ count ih => exact ih

theorem digitsValue_zeros_append (count : Nat) (text : Text) :
    digitsValue (List.replicate count '0' ++ text) = digitsValue text := by
  rw [digitsValue_append, digitsValue_zeros, Nat.zero_mul, Nat.zero_add]

theorem digitsValue_append_zeros (text : Text) (count : Nat) :
    digitsValue (text ++ List.replicate count '0') = digitsValue text * 10 ^ count := by
  rw [digitsValue_append, digitsValue_zeros, List.length_replicate, Nat.add_zero]

end Text

namespace Integer

theorem splitSign_unsigned {text : Text} (minus : '-' ∉ text) (plus : '+' ∉ text) :
    splitSign text = (false, text) := by
  unfold splitSign
  split
  · exact absurd List.mem_cons_self minus
  · exact absurd List.mem_cons_self plus
  · rfl

theorem splitSign_ofNat (n : Nat) : splitSign (Text.ofNat n) = (false, Text.ofNat n) :=
  splitSign_unsigned ((Text.digits_ofNat n).not_mem rfl) ((Text.digits_ofNat n).not_mem rfl)

theorem read?_text (a : Integer) : read? a.text = some a := by
  have shown : (Text.ofNat a.val.natAbs).isEmpty = false := by
    simpa using Text.ofNat_ne_nil a.val.natAbs
  have digits : (Text.ofNat a.val.natAbs).all Char.isDigit = true :=
    List.all_eq_true.2 (Text.digits_ofNat a.val.natAbs)
  by_cases negative : a.val < 0
  · have magnitude : -(a.val.natAbs : Int) = a.val := by omega
    have split : splitSign ('-' :: Text.ofNat a.val.natAbs) = (true, Text.ofNat a.val.natAbs) := rfl
    rw [text, if_pos negative]
    simp only [read?, split, shown, digits, Bool.not_true, Bool.or_false, Bool.false_eq_true,
      ↓reduceIte, Text.digitsValue_ofNat, magnitude, ofInt?_val]
  · have magnitude : (a.val.natAbs : Int) = a.val := by omega
    rw [text, if_neg negative]
    simp only [read?, splitSign_ofNat, shown, digits, Bool.not_true, Bool.or_false,
      Bool.false_eq_true, ↓reduceIte, Text.digitsValue_ofNat, magnitude, ofInt?_val]

theorem plain_text (a : Integer) : ∀ c ∈ a.text, Text.isPlain c = true := by
  have digits : ∀ c ∈ Text.ofNat a.val.natAbs, Text.isPlain c = true := fun c member =>
    Text.plain_of_digit (Text.digits_ofNat _ c member)
  unfold text
  split
  · exact List.forall_mem_cons.2 ⟨rfl, digits⟩
  · exact digits

end Integer

namespace Decimal

theorem two_pow_le_ten_pow (count : Nat) : 2 ^ (3 * count) ≤ 10 ^ count := by
  rw [Nat.pow_mul]
  exact Nat.pow_le_pow_left (by decide) count

theorem limit_le_of_large {digits power : Nat} (some : digits ≠ 0) (large : 400 < power) :
    unitLimit ≤ digits * 10 ^ power * unitsPerOne := by
  have bits : limitBits ≤ 3 * power + unitBits := by
    unfold limitBits unitBits
    omega
  calc unitLimit
      ≤ 2 ^ (3 * power + unitBits) := Nat.pow_le_pow_right (by decide) bits
    _ = 2 ^ (3 * power) * unitsPerOne := Nat.pow_add _ _ _
    _ ≤ digits * 10 ^ power * unitsPerOne :=
        Nat.mul_le_mul_right _ (Nat.le_trans (two_pow_le_ten_pow power)
          (Nat.le_mul_of_pos_left _ (Nat.pos_of_ne_zero some)))

theorem half_unit_of_small {digits power : Nat} (small : digits.log2 + 1077 ≤ 3 * power) :
    2 * (digits * unitsPerOne) < 10 ^ power := by
  have below : digits < 2 ^ (digits.log2 + 1) := Nat.lt_log2_self
  have bits : digits.log2 + 1 + 1 + unitBits ≤ 3 * power := by
    have width : unitBits = 1074 := rfl
    omega
  calc 2 * (digits * unitsPerOne)
      < 2 * (2 ^ (digits.log2 + 1) * unitsPerOne) :=
        Nat.mul_lt_mul_of_pos_left
          (Nat.mul_lt_mul_of_pos_right below (Nat.two_pow_pos unitBits)) (by decide)
    _ = 2 ^ (digits.log2 + 1 + 1 + unitBits) := by
        rw [Nat.pow_add 2 _ unitBits, Nat.pow_succ 2 (digits.log2 + 1), Nat.mul_comm _ 2,
          Nat.mul_assoc 2, unitsPerOne]
    _ ≤ 2 ^ (3 * power) := Nat.pow_le_pow_right (by decide) bits
    _ ≤ 10 ^ power := two_pow_le_ten_pow power

/-- The tests for numbers that are far out save work and do not change the result. -/
theorem toBinary64_eq (digits : Nat) (exponent : Int) :
    toBinary64 ⟨digits, exponent⟩ =
      .nearest false (digits * 10 ^ exponent.toNat * unitsPerOne) (10 ^ (-exponent).toNat) := by
  have positive : 0 < 10 ^ (-exponent).toNat := Nat.pow_pos (by decide)
  rw [toBinary64]
  by_cases none : digits = 0
  · rw [if_pos none, none, Nat.zero_mul, Nat.zero_mul]
    exact (Binary64.nearest_finite false (Binary64.roundUnits_eq_zero positive) _).symm
  rw [if_neg none]
  by_cases large : 400 < exponent
  · have whole : (-exponent).toNat = 0 := by omega
    have far := limit_le_of_large none (show 400 < exponent.toNat by omega)
    rw [if_pos large, whole, Nat.pow_zero, Binary64.nearest_infinite]
    exact Binary64.two_pow_le_roundUnits (by decide) (by rwa [Nat.mul_one])
  rw [if_neg large]
  by_cases small : exponent * 3 + digits.log2 + 1077 ≤ 0
  · have fraction : exponent.toNat = 0 := by omega
    have near := half_unit_of_small
      (show digits.log2 + 1077 ≤ 3 * (-exponent).toNat by omega)
    rw [if_pos small, fraction, Nat.pow_zero, Nat.mul_one]
    exact (Binary64.nearest_finite false (Binary64.roundUnits_eq_zero near) _).symm
  rw [if_neg small]
  by_cases whole : 0 ≤ exponent
  · have nothing : (-exponent).toNat = 0 := by omega
    rw [if_pos whole, nothing, Nat.pow_zero]
  · have nothing : exponent.toNat = 0 := by omega
    rw [if_neg whole, nothing, Nat.pow_zero, Nat.mul_one]

/-- Zeros at the end of the digits can be moved into the exponent. -/
theorem toBinary64_shift (digits count : Nat) (exponent : Int) :
    toBinary64 ⟨digits * 10 ^ count, exponent - count⟩ = toBinary64 ⟨digits, exponent⟩ := by
  rw [toBinary64_eq, toBinary64_eq]
  have powers : count + (exponent - count).toNat + (-exponent).toNat =
      exponent.toNat + (-(exponent - count)).toNat := by omega
  apply Binary64.nearest_of_ratio false (Nat.pow_pos (by decide)) (Nat.pow_pos (by decide))
  calc digits * 10 ^ count * 10 ^ (exponent - count).toNat * unitsPerOne *
        10 ^ (-exponent).toNat
      = digits * (10 ^ count * 10 ^ (exponent - count).toNat * 10 ^ (-exponent).toNat) *
          unitsPerOne := by
        rw [Nat.mul_right_comm _ unitsPerOne, Nat.mul_assoc digits, Nat.mul_assoc digits]
    _ = digits * (10 ^ exponent.toNat * 10 ^ (-(exponent - count)).toNat) * unitsPerOne := by
        rw [← Nat.pow_add, ← Nat.pow_add, powers, Nat.pow_add]
    _ = digits * 10 ^ exponent.toNat * unitsPerOne * 10 ^ (-(exponent - count)).toNat := by
        rw [← Nat.mul_assoc digits, Nat.mul_right_comm _ _ unitsPerOne]

theorem toBinary64_exact {units : Nat} (fits : Representable units) :
    (exact units).toBinary64 = .finite false units fits := by
  have whole : (-(unitBits : Int)).toNat = 0 := by omega
  have places : (-(-(unitBits : Int))).toNat = unitBits := by omega
  rw [exact, toBinary64_eq, whole, places, ← Binary64.nearest_representable false fits]
  apply Binary64.nearest_of_ratio false (Nat.pow_pos (by decide)) (by decide)
  rw [Nat.pow_zero, Nat.mul_one, Nat.mul_one, Nat.mul_assoc, unitsPerOne, ← Nat.mul_pow]

theorem toBinary64_shortest {units : Nat} (fits : Representable units) :
    (shortest units fits).toBinary64 = .finite false units fits := by
  unfold shortest
  dsimp only
  rcases shortestCut_eq_or_accepted (Text.ofNat (exact units).digits).length with same | accepted
  · rw [same]
    exact toBinary64_exact fits
  · exact of_decide_eq_true accepted

end Decimal

structure Pointed where
  whole : Text
  fraction : Text
  wholeDigits : Text.IsDigits whole
  fractionDigits : Text.IsDigits fraction
  places : fraction ≠ []

namespace Pointed

def text (pointed : Pointed) : Text := pointed.whole ++ '.' :: pointed.fraction

/-- The decimal that the digits spell. -/
def decimal (pointed : Pointed) : Decimal :=
  ⟨Text.digitsValue (pointed.whole ++ pointed.fraction), -pointed.fraction.length⟩

theorem scan_text (pointed : Pointed) :
    Numeral.scan pointed.text = some (⟨pointed.whole, some pointed.fraction, none⟩, []) := by
  obtain ⟨whole, fraction, wholeDigits, fractionDigits, places⟩ := pointed
  have point : ∀ c, ('.' :: fraction).head? = some c → c.isDigit = false := by
    rintro c ⟨⟩
    rfl
  have taken := Text.takeWhile_run wholeDigits point
  have left := Text.dropWhile_run wholeDigits point
  have ends : ∀ c, ([] : Text).head? = some c → c.isDigit = false := by simp
  have digits := Text.takeWhile_run fractionDigits ends
  have nothing := Text.dropWhile_run fractionDigits ends
  rw [List.append_nil] at digits nothing
  simp [text, Numeral.scan, taken, left, Numeral.scanFraction, digits, nothing, places,
    Numeral.scanExponent, Exponent.scan]

theorem splitSign_text (pointed : Pointed) :
    Integer.splitSign pointed.text = (false, pointed.text) := by
  apply Integer.splitSign_unsigned
  · simp [text, pointed.wholeDigits.not_mem, pointed.fractionDigits.not_mem]
  · simp [text, pointed.wholeDigits.not_mem, pointed.fractionDigits.not_mem]

theorem plain_text (pointed : Pointed) : ∀ c ∈ pointed.text, Text.isPlain c = true := by
  unfold text
  rw [List.forall_mem_append, List.forall_mem_cons]
  exact ⟨fun c member => Text.plain_of_digit (pointed.wholeDigits c member), rfl,
    fun c member => Text.plain_of_digit (pointed.fractionDigits c member)⟩

theorem value?_of_decimal {pointed : Pointed} {units : Nat} {fits : Representable units}
    (meant : pointed.decimal.toBinary64 = .finite false units fits) :
    Numeral.value? ⟨pointed.whole, some pointed.fraction, none⟩ =
      some (.real (.finite false units fits)) := by
  have scale : (0 : Int) - pointed.fraction.length = -pointed.fraction.length := by omega
  unfold decimal at meant
  simp only [Numeral.value?, Option.getD_some, Option.map_none, Option.getD_none, scale, meant]
  rfl

theorem read?_text {pointed : Pointed} {units : Nat} {fits : Representable units}
    (meant : pointed.decimal.toBinary64 = .finite false units fits) (negative : Bool) :
    Binary64.read? (Binary64.withSign negative pointed.text) =
      some (.finite negative units fits) := by
  have value := value?_of_decimal meant
  have split : Integer.splitSign (Binary64.withSign negative pointed.text) =
      (negative, pointed.text) := by
    cases negative with
    | false => exact pointed.splitSign_text
    | true => rfl
  simp only [Binary64.read?, split, pointed.scan_text, List.all_nil, ↓reduceIte, value,
    Option.map_some]
  cases negative <;> rfl

end Pointed

namespace Decimal.Expansion

def decimal (expansion : Expansion) : Decimal :=
  ⟨Text.digitsValue expansion.digits, expansion.lead + 1 - expansion.digits.length⟩

section Forms

variable {text : Text} {lead : Int} (digits : Text.IsDigits text) (some : text ≠ [])
include digits

-- The point stands in front of all digits, behind them all, or between them.

include some in
theorem pointed_before (small : lead < 0) :
    ∃ pointed : Pointed, pointed.text = positional ⟨text, lead⟩ ∧
      pointed.decimal.toBinary64 = (decimal ⟨text, lead⟩).toBinary64 := by
  refine ⟨⟨List.replicate 1 '0', List.replicate (-lead - 1).toNat '0' ++ text,
    Text.digits_zeros 1, (Text.digits_zeros _).append digits, by simp [some]⟩, ?_, ?_⟩
  · simp [Pointed.text, positional, small]
  · have places : -((-lead - 1).toNat + text.length : Nat) = lead + 1 - text.length := by omega
    simp only [Pointed.decimal, decimal, Text.digitsValue_zeros_append, List.length_append,
      List.length_replicate, places]

theorem pointed_after (large : 0 ≤ lead) (short : text.length ≤ lead.toNat + 1) :
    ∃ pointed : Pointed, pointed.text = positional ⟨text, lead⟩ ∧
      pointed.decimal.toBinary64 = (decimal ⟨text, lead⟩).toBinary64 := by
  refine ⟨⟨text ++ List.replicate (lead.toNat + 1 - text.length) '0', List.replicate 1 '0',
    digits.append (Text.digits_zeros _), Text.digits_zeros 1, by simp⟩, ?_, ?_⟩
  · have nonnegative : ¬ lead < 0 := by omega
    simp [Pointed.text, positional, nonnegative, List.take_of_length_le short,
      List.drop_eq_nil_of_le short]
  · have zeros : List.replicate (lead.toNat + 1 - text.length) '0' ++ List.replicate 1 '0' =
        List.replicate (lead.toNat + 1 - text.length + 1) '0' := List.replicate_append_replicate
    have places : -((1 : Nat) : Int) =
        lead + 1 - text.length - (lead.toNat + 1 - text.length + 1 : Nat) := by omega
    simp only [Pointed.decimal, decimal, List.append_assoc, zeros, Text.digitsValue_append_zeros,
      List.length_replicate, places, toBinary64_shift]

theorem pointed_between (large : 0 ≤ lead) (long : lead.toNat + 1 < text.length) :
    ∃ pointed : Pointed, pointed.text = positional ⟨text, lead⟩ ∧
      pointed.decimal.toBinary64 = (decimal ⟨text, lead⟩).toBinary64 := by
  have places : text.drop (lead.toNat + 1) ≠ [] := by simpa using long
  refine ⟨⟨text.take (lead.toNat + 1), text.drop (lead.toNat + 1),
    fun c member => digits c (List.mem_of_mem_take member),
    fun c member => digits c (List.mem_of_mem_drop member), places⟩, ?_, ?_⟩
  · have nonnegative : ¬ lead < 0 := by omega
    have count : min (lead.toNat + 1) text.length = lead.toNat + 1 := by omega
    simp only [Pointed.text, positional, nonnegative, ↓reduceIte, List.length_take, count,
      Nat.sub_self, List.replicate_zero, List.append_nil, List.isEmpty_eq_false_iff.2 places]
    simp
  · have length : -((text.length - (lead.toNat + 1) : Nat) : Int) = lead + 1 - text.length := by
      omega
    simp only [Pointed.decimal, decimal, List.take_append_drop, List.length_drop, length]

end Forms

theorem positional_pointed {expansion : Expansion} (digits : Text.IsDigits expansion.digits)
    (some : expansion.digits ≠ []) :
    ∃ pointed : Pointed, pointed.text = expansion.positional ∧
      pointed.decimal.toBinary64 = expansion.decimal.toBinary64 := by
  by_cases small : expansion.lead < 0
  · exact pointed_before digits some small
  · have large : 0 ≤ expansion.lead := Int.not_lt.1 small
    by_cases short : expansion.digits.length ≤ expansion.lead.toNat + 1
    · exact pointed_after digits large short
    · exact pointed_between digits large (Nat.lt_of_not_le short)

end Decimal.Expansion

namespace Decimal

theorem expansion_zeros (decimal : Decimal) :
    ∃ count, decimal.expansion.digits ++ List.replicate count '0' = Text.ofNat decimal.digits := by
  obtain ⟨tail, whole, zeros⟩ := Text.trimTail_append (· = '0') (Text.ofNat decimal.digits)
  refine ⟨tail.length, ?_⟩
  rw [← List.eq_replicate_iff.2 ⟨rfl, fun c member => of_decide_eq_true (zeros c member)⟩]
  exact whole

theorem expansion_digits (decimal : Decimal) : Text.IsDigits decimal.expansion.digits := by
  obtain ⟨count, whole⟩ := decimal.expansion_zeros
  intro c member
  apply Text.digits_ofNat decimal.digits
  rw [← whole]
  exact List.mem_append_left _ member

theorem expansion_ne_nil {decimal : Decimal} (nonzero : decimal.digits ≠ 0) :
    decimal.expansion.digits ≠ [] := by
  obtain ⟨count, whole⟩ := decimal.expansion_zeros
  intro empty
  apply nonzero
  rw [← Text.digitsValue_ofNat decimal.digits, ← whole, empty, List.nil_append,
    Text.digitsValue_zeros]

theorem toBinary64_expansion (decimal : Decimal) :
    decimal.expansion.decimal.toBinary64 = decimal.toBinary64 := by
  obtain ⟨count, whole⟩ := decimal.expansion_zeros
  have value : Text.digitsValue decimal.expansion.digits * 10 ^ count = decimal.digits := by
    rw [← Text.digitsValue_append_zeros, whole, Text.digitsValue_ofNat]
  have length : (Text.ofNat decimal.digits).length = decimal.expansion.digits.length + count := by
    rw [← whole, List.length_append, List.length_replicate]
  have exponent : decimal.expansion.lead + 1 - decimal.expansion.digits.length - count =
      decimal.exponent := by
    have lead : decimal.expansion.lead =
        decimal.exponent + (Text.ofNat decimal.digits).length - 1 := rfl
    omega
  rw [Expansion.decimal, ← toBinary64_shift _ count, value, exponent]

end Decimal

namespace Binary64

section Shortest

variable {units : Nat} (fits : Representable units) (nonzero : units ≠ 0)
include nonzero

theorem shortest_digits : (Decimal.shortest units fits).expansion.digits ≠ [] := by
  apply Decimal.expansion_ne_nil
  intro none
  have meant := Decimal.toBinary64_shortest fits
  rw [Decimal.toBinary64, if_pos none] at meant
  cases meant
  exact nonzero rfl

theorem magnitude_pointed :
    ∃ pointed : Pointed, pointed.text = printed.magnitude units fits ∧
      pointed.decimal.toBinary64 = .finite false units fits := by
  obtain ⟨pointed, spelled, same⟩ :=
    Decimal.Expansion.positional_pointed (Decimal.expansion_digits _)
      (shortest_digits fits nonzero)
  refine ⟨pointed, ?_, ?_⟩
  · rw [spelled]
    simp [Layout.magnitude, nonzero, printed]
  · rw [same, Decimal.toBinary64_expansion, Decimal.toBinary64_shortest]

end Shortest

theorem whole_pointed {units : Nat} (fits : Representable units)
    (whole : units % unitsPerOne = 0) :
    ∃ pointed : Pointed, pointed.text = Text.ofNat (units / unitsPerOne) ++ ['.', '0'] ∧
      pointed.decimal.toBinary64 = .finite false units fits := by
  refine ⟨⟨Text.ofNat (units / unitsPerOne), List.replicate 1 '0', Text.digits_ofNat _,
    Text.digits_zeros 1, by simp⟩, rfl, ?_⟩
  have shifted := Decimal.toBinary64_shift (units / unitsPerOne) 1 0
  have count : units / unitsPerOne * unitsPerOne = units :=
    Nat.div_mul_cancel (Nat.dvd_of_mod_eq_zero whole)
  rw [Decimal.toBinary64_eq _ 0] at shifted
  simp only [Int.toNat_zero, Int.neg_zero, Nat.pow_zero, Nat.mul_one, count,
    nearest_representable false fits] at shifted
  simp only [Pointed.decimal, Text.digitsValue_append_zeros, Text.digitsValue_ofNat]
  exact shifted

theorem text_pointed (negative : Bool) {units : Nat} (fits : Representable units) :
    ∃ pointed : Pointed, text (.finite negative units fits) = withSign negative pointed.text ∧
      pointed.decimal.toBinary64 = .finite false units fits := by
  by_cases whole : units % unitsPerOne = 0
  · obtain ⟨pointed, spelled, meant⟩ := whole_pointed fits whole
    refine ⟨pointed, ?_, meant⟩
    rw [spelled]
    simp only [text, whole, ↓reduceIte]
  · have nonzero : units ≠ 0 := by
      intro zero
      rw [zero, Nat.zero_mod] at whole
      contradiction
    obtain ⟨pointed, spelled, meant⟩ := magnitude_pointed fits nonzero
    refine ⟨pointed, ?_, meant⟩
    rw [spelled]
    simp only [text, whole, ↓reduceIte]

theorem read?_text {x : Binary64} (finite : x.isFinite = true) : read? x.text = some x := by
  cases x with
  | finite negative units fits =>
      obtain ⟨pointed, spelled, meant⟩ := text_pointed negative fits
      rw [spelled]
      exact Pointed.read?_text meant negative
  | infinite | nan => contradiction

theorem plain_text (x : Binary64) : ∀ c ∈ x.text, Text.isPlain c = true := by
  cases x with
  | finite negative units fits =>
      obtain ⟨pointed, spelled, _⟩ := text_pointed negative fits
      rw [spelled]
      cases negative with
      | false => exact pointed.plain_text
      | true => exact List.forall_mem_cons.2 ⟨rfl, pointed.plain_text⟩
  | infinite negative => cases negative <;> exact List.all_eq_true.1 (by decide)
  | nan => exact List.all_eq_true.1 (by decide)

end Binary64

end Pseudocode
