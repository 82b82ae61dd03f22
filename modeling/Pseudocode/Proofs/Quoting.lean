import Pseudocode.Text.Literal
import Pseudocode.Text.Quotes

/-!
Literals inside a line. A literal denotes the text it was made from, whatever that text is, and
every text with quotes at both ends, whose inner quotes all follow a backslash, is such a literal.
The scan for open characters does not always see the literal's last quote as its end: when the text
ends with a backslash, that quote looks like one inside the text, and the rest of the line counts
as quoted.
-/

namespace Pseudocode.Text

section Escaping

theorem escape_head (text : Text) : (escape text).head? ≠ some '"' := by
  cases text with
  | nil => simp [escape]
  | cons c rest =>
      by_cases quote : c = '"'
      · simp [escape, quote]
      · simp [escape, quote]

theorem mem_of_escape {text : Text} {c : Char} (member : c ∈ escape text) :
    c ∈ text ∨ c = '\\' := by
  induction text with
  | nil => contradiction
  | cons d rest ih =>
      by_cases quote : d = '"'
      · simp only [escape, quote, ↓reduceIte, List.mem_cons] at member ⊢
        rcases member with backslash | same | later
        · exact .inr backslash
        · exact .inl (.inl same)
        · exact (ih later).imp_left .inr
      · simp only [escape, quote, ↓reduceIte, List.mem_cons] at member ⊢
        rcases member with same | later
        · exact .inl (.inl same)
        · exact (ih later).imp_left .inr

theorem unescape?_cons {c : Char} {rest : Text} (other : c ≠ '"') (next : rest.head? ≠ some '"') :
    unescape? (c :: rest) = (unescape? rest).map (c :: ·) := by
  rw [unescape?]
  · simp [other]
  · rintro tail - rfl
    exact next rfl

theorem unescape?_escape (text : Text) : unescape? (escape text) = some text := by
  induction text with
  | nil => rfl
  | cons c rest ih =>
      by_cases quote : c = '"'
      · simp [escape, quote, unescape?, ih]
      · simp [escape, quote, unescape?_cons quote (escape_head rest), ih]

theorem unquote?_quote (text : Text) : unquote? (quote text) = some text := by
  have closed : before? '"' (escape text ++ ['"']) = some (escape text) := before?_eq_some.2 rfl
  simp [unquote?, quote, closed, unescape?_escape]

theorem eq_escape_of_unescape? {text meant : Text} (found : unescape? text = some meant) :
    text = escape meant := by
  fun_induction unescape? text generalizing meant with
  | case1 =>
      cases found
      rfl
  | case2 rest ih =>
      obtain ⟨others, read, rfl⟩ := Option.map_eq_some_iff.1 found
      simp [escape, ih read]
  | case3 => contradiction
  | case4 c rest _ other ih =>
      obtain ⟨others, read, rfl⟩ := Option.map_eq_some_iff.1 found
      simp [escape, other, ih read]

theorem eq_quote_of_unquote? {literal meant : Text} (found : unquote? literal = some meant) :
    literal = quote meant := by
  unfold unquote? at found
  split at found
  · obtain ⟨inner, closed, read⟩ := Option.bind_eq_some_iff.1 found
    rw [before?_eq_some.1 closed, eq_escape_of_unescape? read]
    rfl
  · contradiction

theorem mem_of_unescape? {text meant : Text} (found : unescape? text = some meant) :
    ∀ c ∈ meant, c ∈ text := by
  fun_induction unescape? text generalizing meant with
  | case1 =>
      cases found
      simp
  | case2 rest ih =>
      obtain ⟨others, read, rfl⟩ := Option.map_eq_some_iff.1 found
      have members := ih read
      grind
  | case3 => contradiction
  | case4 c rest _ _ ih =>
      obtain ⟨others, read, rfl⟩ := Option.map_eq_some_iff.1 found
      have members := ih read
      grind

theorem mem_of_unquote? {literal meant : Text} (found : unquote? literal = some meant) :
    ∀ c ∈ meant, c ∈ literal := by
  unfold unquote? at found
  split at found
  · obtain ⟨inner, closed, read⟩ := Option.bind_eq_some_iff.1 found
    intro c member
    rw [before?_eq_some.1 closed]
    simp [mem_of_unescape? read c member]
  · contradiction

end Escaping

section LiteralTexts

/-- Every quote comes right after a backslash. -/
def Escaped (text : Text) : Prop :=
  ∀ front back, text = front ++ '"' :: back → front.getLast? = some '\\'

theorem getLast?_of_cons {c d : Char} {front : Text} (last : front.getLast? = some c) :
    (d :: front).getLast? = some c := by
  rw [List.getLast?_cons, last]
  rfl

theorem escaped_escape (text : Text) : Escaped (escape text) := by
  intro front back shape
  induction text generalizing front with
  | nil => simp [escape] at shape
  | cons c rest ih =>
      by_cases quote : c = '"'
      · simp only [escape, quote, ↓reduceIte] at shape
        match front with
        | [] => simp at shape
        | [d] =>
            cases shape
            rfl
        | d :: e :: others =>
            simp only [List.cons_append, List.cons.injEq] at shape
            exact getLast?_of_cons (getLast?_of_cons (ih others shape.2.2))
      · simp only [escape, quote, ↓reduceIte] at shape
        match front with
        | [] => simp [quote] at shape
        | d :: others =>
            simp only [List.cons_append, List.cons.injEq] at shape
            exact getLast?_of_cons (ih others shape.2)

theorem Escaped.suffix {lead rest : Text} (escaped : Escaped (lead ++ rest))
    (apart : lead.getLast? = some '\\' → rest.head? ≠ some '"') : Escaped rest := by
  intro front back shape
  have last := escaped (lead ++ front) back (by rw [shape, List.append_assoc])
  rw [List.getLast?_append, Option.or_eq_some_iff] at last
  rcases last with found | ⟨nothing, before⟩
  · exact found
  · rw [List.getLast?_eq_none_iff.1 nothing] at shape
    exact absurd (by rw [shape]; rfl) (apart before)

theorem unescape?_of_escaped {text : Text} (escaped : Escaped text) :
    (unescape? text).isSome = true := by
  fun_induction unescape? text with
  | case1 => rfl
  | case2 rest ih =>
      rw [Option.isSome_map]
      exact ih (Escaped.suffix (show Escaped (['\\', '"'] ++ rest) from escaped) (by simp))
  | case3 rest => exact absurd (escaped [] rest rfl) (by simp)
  | case4 c rest single other ih =>
      rw [Option.isSome_map]
      apply ih
      apply Escaped.suffix (show Escaped ([c] ++ rest) from escaped)
      rintro ⟨⟩ next
      obtain ⟨others, rfl⟩ := List.head?_eq_some_iff.1 next
      exact single others rfl rfl

/-- The form of a literal: quotes at both ends, and none between them without a backslash. -/
structure IsLiteral (literal : Text) : Prop where
  long : 2 ≤ literal.length
  opens : literal.head? = some '"'
  closes : literal.getLast? = some '"'
  escapes : ∀ front back, literal = front ++ '"' :: back → front ≠ [] → back ≠ [] →
    front.getLast? = some '\\'

theorem IsLiteral.inner {literal : Text} (isLiteral : IsLiteral literal) :
    ∃ inner, literal = '"' :: (inner ++ ['"']) ∧ Escaped inner := by
  obtain ⟨long, opens, closes, escapes⟩ := isLiteral
  obtain ⟨rest, rfl⟩ := List.head?_eq_some_iff.1 opens
  cases rest with
  | nil => contradiction
  | cons c others =>
      rw [List.getLast?_cons_cons] at closes
      obtain ⟨inner, shape⟩ := List.getLast?_eq_some_iff.1 closes
      refine ⟨inner, by rw [shape], ?_⟩
      intro front back found
      have last := escapes ('"' :: front) (back ++ ['"']) (by simp [shape, found]) (by simp)
        (by simp)
      cases front with
      | nil => contradiction
      | cons d more => rwa [List.getLast?_cons_cons] at last

theorem isLiteral_quote (text : Text) : IsLiteral (quote text) where
  long := by simp [quote]
  opens := rfl
  closes := by rw [quote, List.getLast?_concat]
  escapes := by
    intro front back shape begun continued
    obtain ⟨d, lead, rfl⟩ := List.exists_cons_of_ne_nil begun
    obtain ⟨inner, e, rfl⟩ := (List.eq_nil_or_concat back).resolve_left continued
    rw [quote, List.cons_append, List.cons_append, List.cons.injEq, List.concat_eq_append,
      ← List.cons_append, ← List.append_assoc] at shape
    exact getLast?_of_cons (escaped_escape text lead inner (List.append_inj_left' shape.2 rfl))

theorem isSome_unquote?_iff {literal : Text} :
    (unquote? literal).isSome = true ↔ IsLiteral literal := by
  constructor
  · intro found
    obtain ⟨text, meant⟩ := Option.isSome_iff_exists.1 found
    rw [eq_quote_of_unquote? meant]
    exact isLiteral_quote text
  · intro isLiteral
    obtain ⟨inner, rfl, escaped⟩ := isLiteral.inner
    have closed : before? '"' (inner ++ ['"']) = some inner := before?_eq_some.2 rfl
    rw [unquote?, closed]
    exact unescape?_of_escaped escaped

/-- Quoting a text and taking a literal for its text are inverse to each other, between all texts
and the literals. -/
theorem quote_inverse_of_unquote? (text literal : Text) :
    unquote? (quote text) = some text ∧
      (unquote? literal = some text → quote text = literal) ∧
      ((unquote? literal).isSome = true ↔ IsLiteral literal) :=
  ⟨unquote?_quote text, fun meant => (eq_quote_of_unquote? meant).symm, isSome_unquote?_iff⟩

end LiteralTexts

section LineScan

variable {stop : Text → Bool}

def extend (lead : Text) (found : Text × Text) : Text × Text := (lead ++ found.1, found.2)

theorem extend_comp (front back : Text) :
    extend front ∘ extend back = extend (front ++ back) := by
  funext found
  simp [extend]

theorem extend_nil : extend [] = id := rfl

theorem scanOpen_quote (quoted : Bool) (rest : Text) :
    scanOpen stop quoted ('"' :: rest) = (scanOpen stop (!quoted) rest).map (extend ['"']) := by
  rw [scanOpen]
  · rfl
  · simp

theorem scanOpen_escaped (rest : Text) :
    scanOpen stop true ('\\' :: '"' :: rest) =
      (scanOpen stop true rest).map (extend ['\\', '"']) := rfl

theorem scanOpen_open {c : Char} {rest : Text} (other : c ≠ '"') (kept : stop (c :: rest) = false) :
    scanOpen stop false (c :: rest) = (scanOpen stop false rest).map (extend [c]) := by
  rw [scanOpen]
  · simp [other, kept]
    rfl
  · simp

theorem scanOpen_accepted {c : Char} {rest : Text} (other : c ≠ '"')
    (accepted : stop (c :: rest) = true) :
    scanOpen stop false (c :: rest) = some ([], c :: rest) := by
  rw [scanOpen]
  · simp [other, accepted]
  · simp

theorem scanOpen_inside {c : Char} {rest : Text} (other : c ≠ '"')
    (single : c = '\\' → rest.head? ≠ some '"') :
    scanOpen stop true (c :: rest) = (scanOpen stop true rest).map (extend [c]) := by
  rw [scanOpen]
  · simp [other]
    rfl
  · rintro tail - rfl rfl
    exact single rfl rfl

theorem scanOpen_passed {quoted : Bool} {c : Char} {rest : Text}
    (other : c ≠ '"') (inside : quoted = true → c = '\\' → rest.head? ≠ some '"')
    (outside : quoted = false → stop (c :: rest) = false) :
    scanOpen stop quoted (c :: rest) = (scanOpen stop quoted rest).map (extend [c]) := by
  cases quoted with
  | false => exact scanOpen_open other (outside rfl)
  | true => exact scanOpen_inside other (inside rfl)

/-- The steps of the scan, for what is shown along it. -/
theorem scanOpen_induction (stop : Text → Bool) {motive : Bool → Text → Prop} (quoted : Bool)
    (text : Text) (ended : ∀ quoted, motive quoted [])
    (escaped : ∀ {rest}, motive true rest → motive true ('\\' :: '"' :: rest))
    (quote : ∀ {quoted rest}, motive (!quoted) rest → motive quoted ('"' :: rest))
    (accepted : ∀ {c rest}, c ≠ '"' → stop (c :: rest) = true → motive false (c :: rest))
    (passed : ∀ {quoted c rest}, c ≠ '"' → (quoted = true → c = '\\' → rest.head? ≠ some '"') →
      (quoted = false → stop (c :: rest) = false) → motive quoted rest →
        motive quoted (c :: rest)) :
    motive quoted text := by
  fun_induction scanOpen stop quoted text with
  | case1 => exact ended _
  | case2 rest ih => exact escaped ih
  | case3 quoted rest _ ih => exact quote ih
  | case4 quoted c rest _ other stops =>
      rw [Bool.and_eq_true, Bool.not_eq_true'] at stops
      obtain ⟨rfl, stops⟩ := stops
      exact accepted other stops
  | case5 quoted c rest unescaped other refused ih =>
      refine passed other ?_ ?_ ih
      · intro inside backslash head
        obtain ⟨more, shape⟩ := List.head?_eq_some_iff.1 head
        exact unescaped more inside backslash shape
      · rintro rfl
        simpa using refused

/-- The scan finds nothing in `front` and is open behind it. -/
def Passes (stop : Text → Bool) (front : Text) : Prop :=
  ∀ rest, scanOpen stop false (front ++ rest) = (scanOpen stop false rest).map (extend front)

theorem Passes.append {front back : Text} (first : Passes stop front) (second : Passes stop back) :
    Passes stop (front ++ back) := by
  intro rest
  rw [List.append_assoc, first, second, Option.map_map, extend_comp]

theorem Passes.finds_none {front : Text} (passes : Passes stop front) :
    scanOpen stop false front = none := by
  have whole := passes []
  rw [List.append_nil] at whole
  rw [whole]
  rfl

/-- Only a text that begins with `target` is accepted. -/
def AcceptsOnly (target : Char) (stop : Text → Bool) : Prop :=
  ∀ c rest, c ≠ target → stop (c :: rest) = false

theorem acceptsOnly_head (target : Char) :
    AcceptsOnly target (fun rest => rest.head? = some target) := by
  intro c rest other
  simp [other]

/-- A comment begins here. -/
def opensComment (rest : Text) : Bool := startsWith rest ['/', '/']

theorem acceptsOnly_slash : AcceptsOnly '/' opensComment := by
  intro c rest other
  simp [opensComment, startsWith, after?, Ne.symm other]

theorem passes_of_absent {front : Text} {target : Char} (only : AcceptsOnly target stop)
    (unquoted : '"' ∉ front) (absent : target ∉ front) : Passes stop front := by
  intro rest
  induction front with
  | nil => rw [extend_nil, Option.map_id_apply, List.nil_append]
  | cons c others ih =>
      rw [List.mem_cons, not_or] at unquoted absent
      rw [List.cons_append, scanOpen_open (Ne.symm unquoted.1) (only c _ (Ne.symm absent.1)),
        ih unquoted.2 absent.2, Option.map_map, extend_comp]
      rfl

theorem scanOpen_unclosed {rest : Text} (unquoted : '"' ∉ rest) :
    scanOpen stop true rest = none := by
  induction rest with
  | nil => rfl
  | cons c others ih =>
      rw [List.mem_cons, not_or] at unquoted
      have next : others.head? ≠ some '"' := fun head => unquoted.2 (List.mem_of_mem_head? head)
      rw [scanOpen_inside (Ne.symm unquoted.1) (fun _ => next), ih unquoted.2]
      rfl

/-- After a literal's last quote the scan is outside again, unless a backslash precedes it. -/
theorem scanOpen_escape (text rest : Text) :
    scanOpen stop true (escape text ++ '"' :: rest) =
      (scanOpen stop (text.getLast? = some '\\') rest).map (extend (escape text ++ ['"'])) := by
  induction text with
  | nil => exact scanOpen_quote true rest
  | cons c tail ih =>
      by_cases quote : c = '"'
      · subst quote
        have last : ('"' :: tail).getLast? = some '\\' ↔ tail.getLast? = some '\\' := by
          cases tail <;> simp
        simp only [last, escape, ↓reduceIte, List.cons_append, scanOpen_escaped, ih,
          Option.map_map, extend_comp, List.nil_append]
      · simp only [escape, quote, ↓reduceIte, List.cons_append]
        cases tail with
        | nil =>
            by_cases backslash : c = '\\'
            · subst backslash
              -- The backslash and the closing quote are taken for one escaped quote.
              exact scanOpen_escaped rest
            · have open_ : decide ([c].getLast? = some '\\') = false := by simp [backslash]
              rw [scanOpen_inside quote (fun same => absurd same backslash), ih, open_,
                Option.map_map, extend_comp]
              rfl
        | cons d others =>
            have head : (escape (d :: others) ++ '"' :: rest).head? ≠ some '"' := by
              by_cases inner : d = '"'
              · simp [escape, inner]
              · simp [escape, inner]
            rw [scanOpen_inside quote (fun _ => head), ih, List.getLast?_cons_cons,
              Option.map_map, extend_comp]
            rfl

theorem scanOpen_literal (text rest : Text) :
    scanOpen stop false (quote text ++ rest) =
      (scanOpen stop (text.getLast? = some '\\') rest).map (extend (quote text)) := by
  have shape : quote text ++ rest = '"' :: (escape text ++ '"' :: rest) := by simp [quote]
  rw [shape, scanOpen_quote, Bool.not_false, scanOpen_escape, Option.map_map, extend_comp]
  rfl

theorem passes_literal {text : Text} (closed : text.getLast? ≠ some '\\') :
    Passes stop (quote text) := by
  intro rest
  rw [scanOpen_literal, decide_eq_false closed]

theorem scanOpen_append {quoted : Bool} {text : Text} {found : Text × Text}
    (scanned : scanOpen stop quoted text = some found) : found.1 ++ found.2 = text := by
  fun_induction scanOpen stop quoted text generalizing found with
  | case1 => contradiction
  | case2 rest ih =>
      obtain ⟨later, read, rfl⟩ := Option.map_eq_some_iff.1 scanned
      simp [ih read]
  | case3 quoted rest _ ih =>
      obtain ⟨later, read, rfl⟩ := Option.map_eq_some_iff.1 scanned
      simp [ih read]
  | case4 =>
      cases scanned
      rfl
  | case5 quoted c rest _ _ _ ih =>
      obtain ⟨later, read, rfl⟩ := Option.map_eq_some_iff.1 scanned
      simp [ih read]

theorem mem_of_cutOpen? {target c : Char} {text left right : Text}
    (cut : cutOpen? target text = some (left, right)) (member : c ∈ left) : c ∈ text := by
  obtain ⟨found, scanned, sides⟩ := Option.map_eq_some_iff.1 cut
  cases sides
  rw [← scanOpen_append scanned]
  exact List.mem_append_left _ member

theorem withoutComment_of_none {text : Text} (absent : scanOpen opensComment false text = none) :
    withoutComment text = text := by
  unfold opensComment at absent
  rw [withoutComment, absent]

theorem mem_of_withoutComment {text : Text} {c : Char} (member : c ∈ withoutComment text) :
    c ∈ text := by
  unfold withoutComment at member
  cases scanned : scanOpen (fun rest => startsWith rest ['/', '/']) false text with
  | none => rwa [scanned] at member
  | some found =>
      rw [scanned] at member
      rw [← scanOpen_append scanned]
      exact List.mem_append_left _ member

end LineScan

end Pseudocode.Text
