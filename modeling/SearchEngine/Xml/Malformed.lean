/-
This file proves what the parser does with markup that is cut off: where a text
with a `'<'` in it is followed by the tags of a document.

A tag that is not closed by a `'>'` of its own runs into the next `'<'`. It gets
past it only inside the quotes of an attribute, so it ends behind a later quote.
A comment or a CDATA section gets past it too, and ends behind its own end tag.
-/

import SearchEngine.Xml.Lengths

namespace SearchEngine

namespace Tinyxml2

/-! ### Cutting lists -/

/-- A part without a symbol that stands at the beginning of a list is before the symbol. -/
theorem append_eq_cons {symbol : UInt8} {pattern later s t : Bytes} (absent : symbol ∉ pattern)
    (same : pattern ++ later = s ++ symbol :: t) :
    ∃ c, s = pattern ++ c ∧ later = c ++ symbol :: t := by
  rcases List.append_eq_append_iff.mp same with ⟨c, inside, rest⟩ | ⟨c, inside, rest⟩
  · exact ⟨c, inside, rest⟩
  · cases c with
    | nil =>
      refine ⟨[], ?_, ?_⟩
      · simpa using inside.symm
      · simpa using rest.symm
    | cons first c =>
      obtain ⟨rfl, -⟩ := List.cons.inj rest
      exact absurd (inside ▸ List.mem_append_right _ List.mem_cons_self) absent

/-- What is behind a pattern: it ends before a `'<'`, or it stands behind it. -/
theorem later_or_behind_of_append_eq {front pattern later s t : Bytes}
    (absent : lessThan ∉ pattern) (nonempty : pattern ≠ [])
    (same : s ++ lessThan :: t = front ++ (pattern ++ later)) :
    (∃ c, c <:+ s ∧ later = c ++ lessThan :: t) ∨ ∃ c, t = c ++ (pattern ++ later) := by
  rcases List.append_eq_append_iff.mp same with ⟨c, inside, rest⟩ | ⟨c, inside, rest⟩
  · -- the pattern begins behind `s`
    cases c with
    | nil =>
      cases pattern with
      | nil => exact absurd rfl nonempty
      | cons first pattern =>
        obtain ⟨rfl, -⟩ := List.cons.inj rest
        exact absurd List.mem_cons_self absent
    | cons second c => exact Or.inr ⟨c, (List.cons.inj rest).2⟩
  · -- it begins in `s`
    obtain ⟨c, split, ends⟩ := append_eq_cons absent rest
    exact Or.inl ⟨c, ⟨front ++ pattern, by rw [inside, split, List.append_assoc]⟩, ends⟩

/-- What is behind a pattern that ends before the last `'<'` in question. -/
theorem later_of_append_eq {first : UInt8} {front pattern later s t : Bytes}
    (absent : lessThan ∉ first :: pattern) (missing : first ∉ t)
    (same : s ++ lessThan :: t = front ++ (first :: pattern ++ later)) :
    ∃ c, c <:+ s ∧ later = c ++ lessThan :: t := by
  rcases later_or_behind_of_append_eq absent (List.cons_ne_nil _ _) same with before | ⟨c, rfl⟩
  · exact before
  · exact absurd (by simp) missing

theorem dropWhile_append_stop {stops : UInt8 → Bool} (stop : stops lessThan = false) (r t : Bytes) :
    (r ++ lessThan :: t).dropWhile stops = r.dropWhile stops ++ lessThan :: t := by
  induction r with
  | nil => exact List.dropWhile_cons_of_neg (by simp [stop])
  | cons byte r inductionHypothesis =>
    rw [List.cons_append, List.dropWhile_cons, List.dropWhile_cons]
    split_ifs
    · exact inductionHypothesis
    · rfl

theorem skipWhiteSpace_append_lessThan (r t : Bytes) :
    skipWhiteSpace (r ++ lessThan :: t) = skipWhiteSpace r ++ lessThan :: t :=
  dropWhile_append_stop rfl r t

/-! ### Tags -/

/-- Where the parser is that was before a `'<'`: still before it, or behind a quote that is behind
it. -/
def Crosses (r t rest : Bytes) : Prop :=
  (∃ inside, inside <:+ r ∧ rest = inside ++ lessThan :: t) ∨
    ∃ u quote v, t = u ++ quote :: v ∧ isQuote quote = true ∧ rest = v

theorem parseName_append_lessThan {r t name rest : Bytes}
    (reads : parseName (r ++ lessThan :: t) = some (name, rest)) :
    ∃ inside, inside <:+ r ∧ rest = inside ++ lessThan :: t := by
  cases r with
  | nil => cases reads
  | cons byte r =>
    rw [List.cons_append, parseName] at reads
    split_ifs at reads
    cases reads
    refine ⟨r.dropWhile isNameChar, ?_, dropWhile_append_stop rfl r t⟩
    exact (List.dropWhile_suffix _).trans (List.suffix_cons _ _)

/-- A byte other than a `'<'` that the parser finds behind blanks stands before the `'<'`. -/
theorem found_before_lessThan {r t later : Bytes} {byte : UInt8} (different : byte ≠ lessThan)
    (found : skipWhiteSpace (r ++ lessThan :: t) = byte :: later) :
    ∃ inside, inside <:+ r ∧ later = inside ++ lessThan :: t := by
  have skipped := skipWhiteSpace_suffix r
  rw [skipWhiteSpace_append_lessThan] at found
  cases shape : skipWhiteSpace r with
  | nil =>
    rw [shape] at found
    exact absurd (List.cons.inj found).1.symm different
  | cons first inside =>
    rw [shape, List.cons_append] at found
    rw [shape] at skipped
    exact ⟨inside, (List.suffix_cons _ _).trans skipped, (List.cons.inj found).2.symm⟩

theorem isQuote_ne_lessThan {quote : UInt8} (quoted : isQuote quote = true) : quote ≠ lessThan := by
  rintro rfl
  exact absurd quoted (by decide)

theorem parseAttribute_append_lessThan {r t name rest : Bytes}
    (reads : parseAttribute (r ++ lessThan :: t) = some (name, rest)) : Crosses r t rest := by
  obtain ⟨behindName, behindEquality, quote, behindQuote, value, named, equality, quotation, quoted,
    ends⟩ := parseAttribute_eq_some reads
  have different := isQuote_ne_lessThan quoted
  obtain ⟨second, secondInside, rfl⟩ := parseName_append_lessThan named
  obtain ⟨third, thirdInside, rfl⟩ := found_before_lessThan (by decide) equality
  obtain ⟨fourth, fourthInside, rfl⟩ := found_before_lessThan different quotation
  have inside := fourthInside.trans (thirdInside.trans secondInside)
  have plain : lessThan ∉ [quote] := fun member => different (List.mem_singleton.mp member).symm
  -- the closing quote is before the `'<'` or behind it
  rcases later_or_behind_of_append_eq plain (List.cons_ne_nil _ _) (Text.append_of_cut ends) with
    ⟨c, suffix, rfl⟩ | ⟨c, behind⟩
  · exact Or.inl ⟨c, suffix.trans inside, rfl⟩
  · exact Or.inr ⟨c, quote, rest, behind, quoted, rfl⟩

/-- Where the parser is behind a tag that began before a `'<'`: behind a `'>'` that is before the
`'<'`, or behind a quote that is behind it. -/
def Ends (r t rest : Bytes) : Prop :=
  (∃ before inside, r = before ++ greaterThan :: inside ∧ rest = inside ++ lessThan :: t) ∨
    ∃ u quote v, t = u ++ quote :: v ∧ isQuote quote = true ∧ rest <:+ v

theorem Ends.of_suffix {inside r t rest : Bytes} (suffix : inside <:+ r)
    (ends : Ends inside t rest) : Ends r t rest := by
  rcases ends with ⟨before, later, rfl, same⟩ | crossed
  · obtain ⟨first, rfl⟩ := suffix
    exact Or.inl ⟨first ++ before, later, by rw [List.append_assoc], same⟩
  · exact Or.inr crossed

theorem attributesLoop_append_lessThan {rounds : Nat} {names : List Bytes} {r t : Bytes}
    {result : Bool × Bytes}
    (reads : attributesLoop rounds names (r ++ lessThan :: t) = some result) :
    Ends r t result.2 := by
  induction rounds generalizing names r with
  | zero => cases reads
  | succ rounds inductionHypothesis =>
    have skipped := skipWhiteSpace_suffix r
    cases attributeRound_of_attributesLoop reads with
    | reads name later _ found goesOn =>
      rw [skipWhiteSpace_append_lessThan] at found
      rcases parseAttribute_append_lessThan found with
        ⟨inside, suffix, rfl⟩ | ⟨u, quote, v, split, quoted, rfl⟩
      · exact (inductionHypothesis goesOn).of_suffix (suffix.trans skipped)
      · exact Or.inr ⟨u, quote, _, split, quoted, (attributesLoop_suffix goesOn).1⟩
    | ends later found =>
      rw [skipWhiteSpace_append_lessThan] at found
      have same : [greaterThan] ++ later = skipWhiteSpace r ++ lessThan :: t := found.symm
      obtain ⟨inside, split, rfl⟩ := append_eq_cons (by decide) same
      rw [split] at skipped
      exact Ends.of_suffix skipped (Or.inl ⟨[], inside, rfl, rfl⟩)
    | closes later found =>
      rw [skipWhiteSpace_append_lessThan] at found
      have same : [slash, greaterThan] ++ later = skipWhiteSpace r ++ lessThan :: t := found.symm
      obtain ⟨inside, split, rfl⟩ := append_eq_cons (by decide) same
      rw [split] at skipped
      exact Ends.of_suffix skipped (Or.inl ⟨[slash], inside, rfl, rfl⟩)

/-- A tag that begins before a `'<'`. -/
theorem parseTag_append_lessThan {r t name rest : Bytes} {kind : ClosingType}
    (reads : parseTag (r ++ lessThan :: t) = some (name, kind, rest)) : Ends r t rest := by
  have skipped := skipWhiteSpace_suffix r
  obtain ⟨behind, closed, named, ended⟩ := parseTag_eq_some reads
  rw [skipWhiteSpace_append_lessThan] at named
  obtain ⟨inside, suffix, rfl⟩ : ∃ inside, inside <:+ r ∧ behind = inside ++ lessThan :: t := by
    split_ifs at named with closing
    · cases shape : skipWhiteSpace r with
      | nil =>
        rw [shape] at closing
        exact absurd (Option.some.inj closing) (by decide)
      | cons first later =>
        rw [shape, List.cons_append, List.tail_cons] at named
        obtain ⟨inside, suffix, same⟩ := parseName_append_lessThan named
        rw [shape] at skipped
        exact ⟨inside, suffix.trans ((List.suffix_cons _ _).trans skipped), same⟩
    · obtain ⟨inside, suffix, same⟩ := parseName_append_lessThan named
      exact ⟨inside, suffix.trans skipped, same⟩
  exact (attributesLoop_append_lessThan ended).of_suffix suffix

/-- A `'>'` right behind the `'<'` is no tag. -/
theorem parseTag_greaterThan (p : Bytes) : parseTag (greaterThan :: p) = none := by
  rw [parseTag, skipWhiteSpace_cons rfl]
  rfl

/-- A tag that runs past a `'<'` ends where the quote that it is closed by can be. -/
theorem later_of_parseTag {r z s t name later : Bytes} {kind : ClosingType}
    (unclosed : greaterThan ∉ r.tail) (quietBetween : ∀ byte ∈ z, isQuote byte = false)
    (quietBehind : ∀ byte ∈ t, isQuote byte = false)
    (reads : parseTag (r ++ lessThan :: (z ++ (s ++ lessThan :: t))) = some (name, kind, later)) :
    ∃ c, c <:+ s ∧ later = c ++ lessThan :: t := by
  have loud {quote : UInt8} (quoted : isQuote quote = true) {text : Bytes}
      (quiet : ∀ byte ∈ text, isQuote byte = false) : quote ∉ text := by
    intro member
    rw [quiet quote member] at quoted
    cases quoted
  have absent : greaterThan ∉ r := by
    cases r with
    | nil => exact List.not_mem_nil
    | cons first r =>
      rw [List.mem_cons, not_or]
      refine ⟨fun same => ?_, unclosed⟩
      rw [← same, List.cons_append, parseTag_greaterThan] at reads
      cases reads
  -- a quote behind the `'<'` is closed in `s`
  obtain ⟨c, inside, suffix⟩ : ∃ c, c <:+ s ∧ later <:+ c ++ lessThan :: t := by
    rcases parseTag_append_lessThan reads with
      ⟨before, behind, rfl, -⟩ | ⟨u, quote, v, split, quoted, suffix⟩
    · exact absurd (List.mem_append_right _ List.mem_cons_self) absent
    · obtain ⟨c, -, rest⟩ := append_eq_cons (loud quoted quietBetween) split
      have plain : lessThan ∉ [quote] := by
        rw [List.mem_singleton]
        rintro rfl
        exact absurd quoted (by decide)
      obtain ⟨d, inside, rfl⟩ := later_of_append_eq plain (loud quoted quietBehind) rest
      exact ⟨d, inside, suffix⟩
  -- and the tag ends before `t`
  have whole : r ++ lessThan :: (z ++ (s ++ lessThan :: t)) =
      (r ++ lessThan :: (z ++ s)) ++ lessThan :: t := by simp
  rw [whole] at reads
  rcases parseTag_append_lessThan reads with ⟨-, d, -, rfl⟩ | ⟨u, quote, v, rfl, quoted, -⟩
  · obtain ⟨front, same⟩ := suffix
    rw [← List.append_assoc] at same
    exact ⟨d, List.IsSuffix.trans ⟨front, List.append_cancel_right same⟩ inside, rfl⟩
  · exact absurd (List.mem_append_right _ List.mem_cons_self) (loud quoted quietBehind)

/-! ### Markup -/

/-- What a `'<'` begins, by what is behind it. -/
theorem identify_lessThan {q later : Bytes} {kind : NodeKind}
    (found : identify (lessThan :: q) = some (kind, later)) :
    kind = .declaration ∨ kind = .comment ∧ q = ascii "!--" ++ later ∨
      kind = .cData ∧ q = ascii "![CDATA[" ++ later ∨
      kind = .unknown ∧ q = exclamationMark :: later ∨ kind = .element ∧ q = later := by
  have behind {pattern : Bytes} (begins : pattern <+: lessThan :: q) :
      lessThan :: q = pattern ++ (lessThan :: q).drop pattern.length := by
    obtain ⟨rest, same⟩ := begins
    rw [← same, List.drop_left]
  rw [identify, skipWhiteSpace_cons rfl, if_neg (List.cons_ne_nil _ _)] at found
  split_ifs at found with declaration comment cData unknown markup
  · cases found
    exact Or.inl rfl
  · cases found
    exact Or.inr (Or.inl ⟨rfl, (List.cons.inj (behind comment)).2⟩)
  · cases found
    exact Or.inr (Or.inr (Or.inl ⟨rfl, (List.cons.inj (behind cData)).2⟩))
  · cases found
    exact Or.inr (Or.inr (Or.inr (Or.inl ⟨rfl, (List.cons.inj (behind unknown)).2⟩)))
  · cases found
    exact Or.inr (Or.inr (Or.inr (Or.inr ⟨rfl, rfl⟩)))
  · exact absurd ⟨q, rfl⟩ markup

theorem identify_lessThan_ne_none (q : Bytes) : identify (lessThan :: q) ≠ none := by
  have markup : ascii "<" <+: lessThan :: q := ⟨q, rfl⟩
  rw [identify, skipWhiteSpace_cons rfl, if_neg (List.cons_ne_nil _ _)]
  split_ifs <;> exact Option.some_ne_none _

/-- A tag without a `'>'` of its own fails where no quote follows. -/
theorem parseTag_eq_none {s t : Bytes} (unclosed : greaterThan ∉ s.tail)
    (quiet : ∀ byte ∈ t, isQuote byte = false) : parseTag (s ++ lessThan :: t) = none := by
  by_cases closed : s.head? = some greaterThan
  · cases s with
    | nil => cases closed
    | cons first s =>
      rw [Option.some.inj closed]
      exact parseTag_greaterThan _
  · have absent : greaterThan ∉ s := by
      cases s with
      | nil => exact List.not_mem_nil
      | cons first s =>
        rw [List.mem_cons, not_or]
        exact ⟨fun same => closed (by rw [same]; rfl), unclosed⟩
    cases reads : parseTag (s ++ lessThan :: t) with
    | none => rfl
    | some tag =>
      obtain ⟨name, kind, rest⟩ := tag
      rcases parseTag_append_lessThan reads with
        ⟨before, inside, rfl, -⟩ | ⟨u, quote, v, rfl, quoted, -⟩
      · exact absurd (List.mem_append_right _ List.mem_cons_self) absent
      · have silent := quiet quote (List.mem_append_right _ List.mem_cons_self)
        rw [silent] at quoted
        cases quoted

/-- What markup in an element is that does not fail, by what is behind its `'<'`. -/
inductive Markup (rounds depth : Nat) (nodes : List XMLNode) (q : Bytes) : Parsed → Prop
  | comment (c value later : Bytes) (result : Parsed) (begins : q = ascii "!--" ++ c)
      (ends : Text.cut (ascii "-->") c = some (value, later))
      (goesOn : parseDeep false rounds depth later (nodes ++ [.comment]) = some result) :
      Markup rounds depth nodes q result
  | cData (c value later : Bytes) (result : Parsed) (begins : q = ascii "![CDATA[" ++ c)
      (ends : Text.cut (ascii "]]>") c = some (value, later))
      (goesOn : parseDeep false rounds depth later (nodes ++ [.text (getStr false value)]) =
        some result) :
      Markup rounds depth nodes q result
  | unknown (c value later : Bytes) (result : Parsed) (begins : q = exclamationMark :: c)
      (ends : Text.cut [greaterThan] c = some (value, later))
      (goesOn : parseDeep false rounds depth later (nodes ++ [.unknown]) = some result) :
      Markup rounds depth nodes q result
  | closes (name later : Bytes) (tag : parseTag q = some (name, .closing, later)) :
      Markup rounds depth nodes q (nodes, some (name, later))
  | closed (name later : Bytes) (result : Parsed)
      (tag : parseTag q = some (name, .closed, later))
      (goesOn : parseDeep false rounds depth later (nodes ++ [.element name []]) = some result) :
      Markup rounds depth nodes q result
  | element (name behind later : Bytes) (children : List XMLNode) (result : Parsed)
      (tag : parseTag q = some (name, .opens, behind))
      (content : parseDeep false rounds (depth + 1) behind [] =
        some (children, some (name, later)))
      (goesOn : parseDeep false rounds depth later (nodes ++ [.element name children]) =
        some result) :
      Markup rounds depth nodes q result

theorem markup_of_parseDeep {rounds depth : Nat} {nodes : List XMLNode} {q : Bytes}
    {result : Parsed}
    (reads : parseDeep false (rounds + 1) depth (lessThan :: q) nodes = some result) :
    Markup rounds depth nodes q result := by
  -- the kind of the node says how the markup begins
  have begins {kind : NodeKind} {c : Bytes} (found : identify (lessThan :: q) = some (kind, c)) :=
    identify_lessThan found
  cases round_of_parseDeep reads with
  | ended nothing => exact absurd nothing (identify_lessThan_ne_none q)
  | closes c name later kind tag =>
    obtain rfl : q = c := by simpa using begins kind
    exact .closes name later tag
  | inserts node later _ inserted goesOn =>
    cases inserted with
    | declaration c value _ kind ends located => cases located
    | comment c value _ kind ends =>
      exact .comment c value later result (by simpa using begins kind) ends goesOn
    | cData c value _ kind ends =>
      exact .cData c value later result (by simpa using begins kind) ends goesOn
    | unknown c value _ kind ends =>
      exact .unknown c value later result (by simpa using begins kind) ends goesOn
    | text c value _ kind ends more => simpa using begins kind
    | closed c name _ kind tag =>
      obtain rfl : q = c := by simpa using begins kind
      exact .closed name later result tag goesOn
    | element c name behind _ children kind tag shallow content =>
      obtain rfl : q = c := by simpa using begins kind
      exact .element name behind later children result tag content goesOn

/-- Behind a text without markup, the parser is at the `'<'`. -/
theorem parseDeep_behind_text {document : Bool} {rounds depth : Nat} {nodes : List XMLNode}
    {text q : Bytes} {result : Parsed} (absent : lessThan ∉ text) (nonempty : q ≠ [])
    (reads : parseDeep document rounds depth (text ++ lessThan :: q) nodes = some result) :
    ∃ left, parseDeep document (left + 1) depth (lessThan :: q) (nodes ++ textNodes text) =
      some result := by
  cases rounds with
  | zero => cases reads
  | succ rounds =>
    obtain ⟨left, -, same⟩ : ∃ left, rounds ≤ left ∧
        parseDeep document (rounds + 1) depth (text ++ lessThan :: q) nodes =
          parseDeep document left depth (lessThan :: q) (nodes ++ textNodes text) :=
      parseDeep_textNodes absent nonempty
    rw [same] at reads
    cases left with
    | zero => cases reads
    | succ left => exact ⟨left, reads⟩

/-! ### Sections -/

/-- The end tag of a section, `"-->"` or `"]]>"`, does not begin in a text without a `'>'`, nor
behind it where its first byte does not occur. -/
theorem cut_section {first : UInt8} (different : first ≠ lessThan) {x z : Bytes}
    (unclosed : greaterThan ∉ x) (absent : first ∉ z) (rest : Bytes) :
    Text.cut [first, first, greaterThan] (x ++ lessThan :: z ++ rest) =
      (Text.cut [first, first, greaterThan] rest).map fun (front, back) =>
        (x ++ lessThan :: z ++ front, back) := by
  refine Text.cut_append fun front back split nonempty begins => ?_
  rcases List.append_eq_append_iff.mp split with ⟨c, rfl, inside⟩ | ⟨c, rfl, rfl⟩
  · -- behind the text
    cases back with
    | nil => exact nonempty rfl
    | cons byte back =>
      rw [List.cons_append, List.cons_prefix_cons] at begins
      cases c with
      | nil =>
        rw [List.nil_append] at inside
        exact different (begins.1.trans (List.cons.inj inside).1.symm)
      | cons second c =>
        rw [List.cons_append] at inside
        refine absent ?_
        rw [(List.cons.inj inside).2, begins.1]
        exact List.mem_append_right _ List.mem_cons_self
  · -- inside the text, where the `'<'` is reached before the `'>'`
    match c with
    | [] => exact different (List.cons_prefix_cons.mp begins).1
    | [_] =>
      have second := (List.cons_prefix_cons.mp begins).2
      exact different (List.cons_prefix_cons.mp second).1
    | [_, _] =>
      have second := (List.cons_prefix_cons.mp begins).2
      have third := (List.cons_prefix_cons.mp second).2
      exact absurd (List.cons_prefix_cons.mp third).1 (by decide)
    | _ :: _ :: byte :: _ =>
      have second := (List.cons_prefix_cons.mp begins).2
      have third := (List.cons_prefix_cons.mp second).2
      rw [(List.cons_prefix_cons.mp third).1] at unclosed
      exact unclosed (by simp)

/-- A section is not closed where its end tag does not follow. -/
theorem cut_section_eq_none {first : UInt8} (different : first ≠ lessThan) {x z : Bytes}
    (unclosed : greaterThan ∉ x) (absent : first ∉ z) :
    Text.cut [first, first, greaterThan] (x ++ lessThan :: z) = none := by
  have cut := cut_section different unclosed absent []
  rw [List.append_nil] at cut
  rw [cut]
  rfl

theorem lessThan_notMem_endTag {first : UInt8} (different : first ≠ lessThan) :
    lessThan ∉ [first, first, greaterThan] := by
  simp only [List.mem_cons, List.not_mem_nil, or_false, not_or]
  exact ⟨different.symm, different.symm, by decide⟩

/-- Markup that begins behind a `'<'` of an unclosed text begins in the text, and has no `'>'` up to
the next `'<'`. -/
theorem begins_inside {begin behind c q : Bytes} (plain : lessThan ∉ begin) (nonempty : begin ≠ [])
    (unclosed : greaterThan ∉ behind.tail) (begins : behind ++ lessThan :: q = begin ++ c) :
    ∃ x, behind = begin ++ x ∧ c = x ++ lessThan :: q ∧ greaterThan ∉ x := by
  obtain ⟨x, rfl, rfl⟩ := append_eq_cons plain begins.symm
  refine ⟨x, rfl, rfl, ?_⟩
  cases begin with
  | nil => exact absurd rfl nonempty
  | cons byte begin => exact fun member => unclosed (List.mem_append_right _ member)

/-- A section ends in the part of the text where its end tag can be. -/
theorem later_of_cut_section {first : UInt8} (different : first ≠ lessThan) {x z s t : Bytes}
    (unclosed : greaterThan ∉ x) (absent : first ∉ z) (missing : first ∉ t)
    {front later : Bytes}
    (found : Text.cut [first, first, greaterThan] (x ++ lessThan :: z ++ (s ++ lessThan :: t)) =
      some (front, later)) : ∃ c, c <:+ s ∧ later = c ++ lessThan :: t := by
  rw [cut_section different unclosed absent] at found
  obtain ⟨⟨before, behind⟩, ends, same⟩ := Option.map_eq_some_iff.mp found
  cases same
  exact later_of_append_eq (lessThan_notMem_endTag different) missing (Text.append_of_cut ends)

/-- A section ends in one of the two parts of the text where its end tag can be. -/
theorem later_of_cut_section_two {first : UInt8} (different : first ≠ lessThan)
    {x z s y u t : Bytes} (unclosed : greaterThan ∉ x) (absent : first ∉ z)
    (between : first ∉ y) (missing : first ∉ t) {front later : Bytes}
    (found : Text.cut [first, first, greaterThan]
        (x ++ lessThan :: z ++ (s ++ lessThan :: (y ++ (u ++ lessThan :: t)))) =
      some (front, later)) :
    (∃ c, c <:+ s ∧ later = c ++ lessThan :: (y ++ (u ++ lessThan :: t))) ∨
      ∃ c, c <:+ u ∧ later = c ++ lessThan :: t := by
  rw [cut_section different unclosed absent] at found
  obtain ⟨⟨before, behind⟩, ends, same⟩ := Option.map_eq_some_iff.mp found
  cases same
  have plain := lessThan_notMem_endTag different
  rcases later_or_behind_of_append_eq plain (List.cons_ne_nil _ _) (Text.append_of_cut ends)
    with inside | ⟨c, split⟩
  · exact Or.inl inside
  · obtain ⟨d, -, rest⟩ := append_eq_cons between split
    exact Or.inr (later_of_append_eq plain missing rest)

end Tinyxml2

end SearchEngine
