import Pseudocode.Proofs.ArgumentLists
import Pseudocode.Proofs.MeaningfulLines

/-!
Parts between separators. One pass over a text, with one state of its quotes, cuts it at the open
occurrences of a separator. Nothing else about the text decides where it is cut: there is only one
way to write it as parts with the separator between them, if the separator is open in none of the
parts and each but the last leaves its quotes closed. So it makes no difference that a search for
the separator may start anew behind each cut, as one does that works with offsets in bytes; all of
its offsets lie between two characters.
-/

namespace Pseudocode.Text

variable {separator : Char} {text part rest : Text} {parts : List Text}

/-- The parts make up the text. To put no parts together gives a text as well, the empty one, but
whoever splits a text gets at least one part. -/
structure Splits (separator : Char) (text : Text) (parts : List Text) : Prop where
  filled : parts ≠ []
  joined : [separator].intercalate parts = text
  uncut : ∀ part ∈ parts, openOffset? separator part = none
  closed : ∀ part ∈ parts.dropLast, quotedAfter false none part = false

theorem openOffset?_eq_none : openOffset? separator text = none ↔
    scanOpen (fun rest => rest.head? = some separator) false text = none := by
  rw [openOffset?, cutOpen?, Option.map_eq_none_iff, Option.map_eq_none_iff]

theorem splits_single (uncut : openOffset? separator text = none) :
    Splits separator text [text] where
  filled := List.cons_ne_nil _ _
  joined := List.intercalate_singleton
  uncut := List.forall_mem_singleton.2 uncut
  closed := by simp

theorem Splits.cons (later : Splits separator rest parts)
    (uncut : openOffset? separator part = none) (closed : quotedAfter false none part = false) :
    Splits separator (part ++ separator :: rest) (part :: parts) where
  filled := List.cons_ne_nil _ _
  joined := by
    rw [List.intercalate_cons_of_ne_nil later.filled, later.joined, List.append_assoc]
    rfl
  uncut := List.forall_mem_cons.2 ⟨uncut, later.uncut⟩
  closed := by
    rw [List.dropLast_cons_of_ne_nil later.filled]
    exact List.forall_mem_cons.2 ⟨closed, later.closed⟩

/-- The first part is the whole text, or a separator follows it and the others split the rest. -/
theorem Splits.of_cons (splits : Splits separator text (part :: parts)) :
    (parts = [] ∧ text = part) ∨
      ∃ rest, text = part ++ separator :: rest ∧ quotedAfter false none part = false ∧
        Splits separator rest parts := by
  obtain ⟨_, joined, uncut, closed⟩ := splits
  by_cases single : parts = []
  · subst single
    exact .inl ⟨rfl, by rw [← joined, List.intercalate_singleton]⟩
  · rw [List.intercalate_cons_of_ne_nil single, List.append_assoc] at joined
    rw [List.dropLast_cons_of_ne_nil single, List.forall_mem_cons] at closed
    rw [List.forall_mem_cons] at uncut
    exact .inr ⟨_, joined.symm, closed.1, single, rfl, uncut.2, closed.2⟩

/-- Behind a text that leaves its quotes closed, the scan goes on as if it had started there. -/
theorem scanOpen_behind {quoted : Bool} {previous : Option Char}
    (unescaped : Unescaped quoted previous part)
    (uncut : scanOpen (fun rest => rest.head? = some separator) quoted part = none)
    (closed : quotedAfter quoted previous part = false) (rest : Text) :
    scanOpen (fun rest => rest.head? = some separator) quoted (part ++ rest) =
      (scanOpen (fun rest => rest.head? = some separator) false rest).map (extend part) := by
  induction quoted, part using scanOpen_induction (fun rest => rest.head? = some separator)
    generalizing previous with
  | ended quoted =>
      obtain rfl : quoted = false := closed
      rw [extend_nil, Option.map_id_apply, List.nil_append]
  | escaped ih =>
      rw [scanOpen_escaped, Option.map_eq_none_iff] at uncut
      rw [quotedAfter_escaped] at closed
      rw [List.cons_append, List.cons_append, scanOpen_escaped, ih (unescaped_quote _) uncut closed,
        Option.map_map, extend_comp]
      rfl
  | quote ih =>
      rw [scanOpen_quote, Option.map_eq_none_iff] at uncut
      rw [unescaped.quotedAfter_quote] at closed
      rw [List.cons_append, scanOpen_quote, ih (unescaped_quote _) uncut closed, Option.map_map,
        extend_comp]
      rfl
  | accepted other stops =>
      rw [scanOpen_accepted other stops] at uncut
      contradiction
  | @passed quoted c others other inside outside ih =>
      rw [scanOpen_passed other inside outside, Option.map_eq_none_iff] at uncut
      rw [quotedAfter_other other] at closed
      -- A backslash at the very end would leave the quotes open, so it takes no quote of the rest.
      have single : quoted = true → c = '\\' → (others ++ rest).head? ≠ some '"' := by
        intro held backslash
        cases others with
        | nil =>
            rw [quotedAfter, held] at closed
            contradiction
        | cons d more => exact inside held backslash
      rw [List.cons_append, scanOpen_passed other single outside,
        ih (unescaped_passed inside) uncut closed, Option.map_map, extend_comp]
      rfl

theorem passes_of_closed (uncut : openOffset? separator part = none)
    (closed : quotedAfter false none part = false) :
    Passes (fun rest => rest.head? = some separator) part :=
  scanOpen_behind (unescaped_none part) (openOffset?_eq_none.1 uncut) closed

/-- Where the scan finds the separator, a part ends. -/
theorem scanOpen_separator {found : Text × Text}
    (scanned : scanOpen (fun rest => rest.head? = some separator) false text = some found) :
    ∃ rest, text = found.1 ++ separator :: rest ∧ quotedAfter false none found.1 = false ∧
      openParts separator text = found.1 :: openParts separator rest := by
  obtain ⟨closed, stops⟩ := scanOpen_stops (unescaped_none text) scanned
  obtain ⟨rest, begins⟩ := List.head?_eq_some_iff.1 (of_decide_eq_true stops)
  refine ⟨rest, by rw [← begins, scanOpen_append scanned], closed, ?_⟩
  rw [openParts, splitOpen_eq, scanned]
  simp [begins, openParts]

theorem splits_openParts (separator : Char) (text : Text) :
    Splits separator text (openParts separator text) := by
  induction size : text.length using Nat.strongRecOn generalizing text with
  | _ length ih =>
  cases scanned : scanOpen (fun rest => rest.head? = some separator) false text with
  | none =>
      rw [openParts_single scanned]
      exact splits_single (openOffset?_eq_none.2 scanned)
  | some found =>
      obtain ⟨rest, whole, closed, cut⟩ := scanOpen_separator scanned
      have uncut : openOffset? separator found.1 = none :=
        openOffset?_eq_none.2 (scanOpen_part cut).1
      have shorter : rest.length < length := by
        rw [← size, whole, List.length_append, List.length_cons]
        omega
      rw [cut, whole]
      exact (ih _ shorter rest rfl).cons uncut closed

/-- A quote is no separator: to the scan it is never open, but it would join parts. -/
theorem Splits.eq_openParts (unquoted : separator ≠ '"') (splits : Splits separator text parts) :
    parts = openParts separator text := by
  induction parts generalizing text with
  | nil => exact absurd rfl splits.filled
  | cons part others ih =>
      have uncut := splits.uncut part List.mem_cons_self
      rcases splits.of_cons with ⟨rfl, rfl⟩ | ⟨rest, rfl, closed, later⟩
      · rw [openParts_single (openOffset?_eq_none.1 uncut)]
      · rw [openParts_cons unquoted (passes_of_closed uncut closed), ih later]

/-- Whether the character at an offset takes the quote behind it, as a backslash in quotes does;
`none` if the text cannot be cut one byte further on. -/
def takesQuote? (whole : Text) (quoted : Bool) (offset : Nat) (c : Char) : Option Bool :=
  if c = '\\' && quoted then
    (cutAtByte? (offset + 1) whole).map fun sides => sides.2.head? = some '"'
  else some false

/-- Goes through the rest of a text, from an offset on, to the first open `target`. -/
def offsetFrom? (target : Char) (whole : Text) :
    (quoted escaped : Bool) → (offset : Nat) → Text → Option (Option Nat)
  | _, _, _, [] => some none
  | quoted, true, offset, c :: rest =>
      offsetFrom? target whole quoted false (offset + c.utf8Size) rest
  | quoted, false, offset, c :: rest => do
      let escapes ← takesQuote? whole quoted offset c
      if escapes then offsetFrom? target whole quoted true (offset + c.utf8Size) rest
      else if c = '"' then offsetFrom? target whole (!quoted) false (offset + c.utf8Size) rest
      else if c = target && !quoted then some (some offset)
      else offsetFrom? target whole quoted false (offset + c.utf8Size) rest

/-- What stands before an offset, and what stands `width` bytes behind it. -/
def cutAround? (offset width : Nat) (text : Text) : Option (Text × Text) := do
  let (part, _) ← cutAtByte? offset text
  let (_, rest) ← cutAtByte? (offset + width) text
  some (part, rest)

theorem cutAround?_shorter {offset width : Nat} (wide : 0 < width)
    (cut : cutAround? offset width text = some (part, rest)) : rest.length < text.length := by
  obtain ⟨_, _, following⟩ := Option.bind_eq_some_iff.1 cut
  obtain ⟨⟨front, back⟩, behind, same⟩ := Option.bind_eq_some_iff.1 following
  cases same
  obtain ⟨whole, size⟩ := cutAtByte?_eq_some.1 behind
  have filled : front ≠ [] := by
    rintro rfl
    rw [byteLength_nil] at size
    omega
  rw [whole, List.length_append]
  exact Nat.lt_add_of_pos_left (List.length_pos_iff.2 filled)

/-- Cuts off one part after the other, each time with a new search in what is left. -/
def partsByOffset? (separator : Char) (text : Text) : Option (List Text) :=
  match offsetFrom? separator text false false 0 text with
  | none => none
  | some none => some [text]
  | some (some offset) =>
      match _cut : cutAround? offset separator.utf8Size text with
      | none => none
      | some (part, rest) => (partsByOffset? separator rest).map (part :: ·)
termination_by text.length
decreasing_by exact cutAround?_shorter separator.utf8Size_pos _cut

section Steps

variable {target c : Char} {quoted : Bool} (used : Text)

theorem takesQuote?_backslash (rest : Text) :
    takesQuote? (used ++ '\\' :: rest) true (byteLength used) '\\' =
      some (decide (rest.head? = some '"')) := by
  have cut : cutAtByte? (byteLength used + 1) (used ++ '\\' :: rest) =
      some (used ++ ['\\'], rest) := cutAtByte?_eq_some.2 ⟨by simp, byteLength_append ..⟩
  simp [takesQuote?, cut]

theorem takesQuote?_other {rest : Text}
    (inside : quoted = true → c = '\\' → rest.head? ≠ some '"') :
    takesQuote? (used ++ c :: rest) quoted (byteLength used) c = some false := by
  by_cases escapes : quoted = true ∧ c = '\\'
  · obtain ⟨rfl, rfl⟩ := escapes
    rw [takesQuote?_backslash, decide_eq_false (inside rfl rfl)]
  · have other : ¬ (c = '\\' && quoted) = true := by
      rw [Bool.and_eq_true, decide_eq_true_eq, and_comm]
      exact escapes
    rw [takesQuote?, if_neg other]

theorem offsetFrom?_escaped (rest : Text) :
    offsetFrom? target (used ++ '\\' :: '"' :: rest) true false (byteLength used)
        ('\\' :: '"' :: rest) =
      offsetFrom? target (used ++ '\\' :: '"' :: rest) true false
        (byteLength (used ++ ['\\', '"'])) rest := by
  have next : byteLength (used ++ ['\\', '"']) =
      byteLength used + '\\'.utf8Size + '"'.utf8Size := by
    rw [Nat.add_assoc]
    exact byteLength_append ..
  simp [offsetFrom?, takesQuote?_backslash, next]

theorem offsetFrom?_quote (rest : Text) :
    offsetFrom? target (used ++ '"' :: rest) quoted false (byteLength used) ('"' :: rest) =
      offsetFrom? target (used ++ '"' :: rest) (!quoted) false (byteLength (used ++ ['"']))
        rest := by
  rw [offsetFrom?, takesQuote?_other used (by simp)]
  simp

theorem offsetFrom?_accepted (unquoted : target ≠ '"') (rest : Text) :
    offsetFrom? target (used ++ target :: rest) false false (byteLength used) (target :: rest) =
      some (some (byteLength used)) := by
  rw [offsetFrom?, takesQuote?_other used (by simp)]
  simp [unquoted]

theorem offsetFrom?_passed {rest : Text} (other : c ≠ '"')
    (inside : quoted = true → c = '\\' → rest.head? ≠ some '"')
    (outside : quoted = false → c ≠ target) :
    offsetFrom? target (used ++ c :: rest) quoted false (byteLength used) (c :: rest) =
      offsetFrom? target (used ++ c :: rest) quoted false (byteLength (used ++ [c])) rest := by
  have kept : (c = target && !quoted) = false := by
    cases quoted with
    | true => exact Bool.and_false _
    | false => rw [decide_eq_false (outside rfl), Bool.false_and]
  rw [offsetFrom?, takesQuote?_other used inside]
  simp [other, kept]

end Steps

theorem offsetFrom?_eq (target : Char) (used text : Text) (quoted : Bool) :
    offsetFrom? target (used ++ text) quoted false (byteLength used) text =
      some ((scanOpen (fun rest => rest.head? = some target) quoted text).map fun found =>
        byteLength (used ++ found.1)) := by
  induction quoted, text using scanOpen_induction (fun rest => rest.head? = some target)
    generalizing used with
  | ended quoted => rfl
  | escaped ih =>
      have later := ih (used ++ ['\\', '"'])
      rw [List.append_assoc] at later
      rw [offsetFrom?_escaped, scanOpen_escaped, map_extend]
      exact later
  | quote ih =>
      have later := ih (used ++ ['"'])
      rw [List.append_assoc] at later
      rw [offsetFrom?_quote, scanOpen_quote, map_extend]
      exact later
  | accepted other stops =>
      obtain ⟨rest, shape⟩ := List.head?_eq_some_iff.1 (of_decide_eq_true stops)
      cases shape
      rw [scanOpen_accepted other stops, offsetFrom?_accepted used other, Option.map_some,
        List.append_nil]
  | @passed quoted c rest other inside outside ih =>
      have later := ih (used ++ [c])
      rw [List.append_assoc] at later
      have kept : quoted = false → c ≠ target := by
        intro open_ same
        have refused := of_decide_eq_false (outside open_)
        exact refused (by rw [same]; rfl)
      rw [offsetFrom?_passed used other inside kept, scanOpen_passed other inside outside,
        map_extend]
      exact later

theorem cutAround?_append (front : Text) (c : Char) (back : Text) :
    cutAround? (byteLength front) c.utf8Size (front ++ c :: back) = some (front, back) := by
  have before : cutAtByte? (byteLength front) (front ++ c :: back) = some (front, c :: back) :=
    cutAtByte?_eq_some.2 ⟨rfl, rfl⟩
  have behind : cutAtByte? (byteLength front + c.utf8Size) (front ++ c :: back) =
      some (front ++ [c], back) :=
    cutAtByte?_eq_some.2 ⟨by simp, by simp⟩
  rw [cutAround?, before]
  change (do let (_, rest) ← cutAtByte? _ _; some (front, rest)) = _
  rw [behind]
  rfl

/-- Every cut is possible, and the parts are those of the single pass. -/
theorem partsByOffset?_cut {separator : Char} {text part rest : Text} {offset : Nat}
    (searched : offsetFrom? separator text false false 0 text = some (some offset))
    (cut : cutAround? offset separator.utf8Size text = some (part, rest)) :
    partsByOffset? separator text = (partsByOffset? separator rest).map (part :: ·) := by
  rw [partsByOffset?, searched]
  grind

theorem partsByOffset?_eq (separator : Char) (text : Text) :
    partsByOffset? separator text = some (openParts separator text) := by
  induction size : text.length using Nat.strongRecOn generalizing text with
  | _ length ih =>
  have searched := offsetFrom?_eq separator [] text false
  rw [List.nil_append, byteLength_nil] at searched
  cases scanned : scanOpen (fun rest => rest.head? = some separator) false text with
  | none => rw [partsByOffset?, searched, scanned, openParts_single scanned, Option.map_none]
  | some found =>
      obtain ⟨rest, whole, _, cut⟩ := scanOpen_separator scanned
      have around : cutAround? (byteLength found.1) separator.utf8Size text =
          some (found.1, rest) := by
        rw [whole]
        exact cutAround?_append found.1 separator rest
      have shorter : rest.length < length := by
        rw [← size, whole, List.length_append, List.length_cons]
        omega
      rw [partsByOffset?_cut (by rw [searched, scanned]; rfl) around, ih _ shorter rest rfl, cut]
      rfl

/-- The parts of a text between the open occurrences of a separator are the only parts that make it
up, and they are found one after the other by a search that starts anew behind each separator and
cuts at offsets in bytes, always between two characters. -/
theorem openParts_only_split (unquoted : separator ≠ '"') (text : Text) :
    (∀ parts, Splits separator text parts ↔ parts = openParts separator text) ∧
      partsByOffset? separator text = some (openParts separator text) := by
  refine ⟨fun parts => ⟨Splits.eq_openParts unquoted, ?_⟩, partsByOffset?_eq separator text⟩
  rintro rfl
  exact splits_openParts separator text

def backslashed : Text := "é\\\"b\\\"c\\\"\\d\"e\\".toList

-- Outside quotes the backslash is the separator, inside it may take a quote or stand for itself.
theorem backslashed_split :
    openParts '\\' backslashed = ["é".toList, "\"b\\\"c\\\"\\d\"e".toList, []] ∧
      Splits '\\' backslashed ["é".toList, "\"b\\\"c\\\"\\d\"e".toList, []] ∧
      partsByOffset? '\\' backslashed =
        some ["é".toList, "\"b\\\"c\\\"\\d\"e".toList, []] := by
  have split : openParts '\\' backslashed =
      ["é".toList, "\"b\\\"c\\\"\\d\"e".toList, []] := by decide
  obtain ⟨only, found⟩ := openParts_only_split (by decide : '\\' ≠ '"') backslashed
  rw [split] at only found
  exact ⟨split, (only _).2 rfl, found⟩

end Pseudocode.Text
