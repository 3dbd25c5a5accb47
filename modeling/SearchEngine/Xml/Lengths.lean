/-
This file proves how far the parser gets in a round.

What is left of the buffer is a suffix of it, which becomes shorter with every
tag, attribute and node. So the rounds that the loops are given suffice, and no
text that is read is longer than the buffer.
-/

import SearchEngine.Xml.Document
import SearchEngine.Library.Fuel

namespace SearchEngine

namespace Tinyxml2

/-! ### Tags -/

theorem skipWhiteSpace_suffix (r : Bytes) : skipWhiteSpace r <:+ r := List.dropWhile_suffix _

theorem parseName_suffix {p name rest : Bytes} (reads : parseName p = some (name, rest)) :
    rest <:+ p ∧ rest.length < p.length := by
  cases p with
  | nil => cases reads
  | cons byte p =>
    rw [parseName] at reads
    split_ifs at reads
    cases reads
    have suffix := List.dropWhile_suffix isNameChar (l := p)
    exact ⟨suffix.trans (List.suffix_cons _ _), Nat.lt_succ_of_le suffix.length_le⟩

/-- What an attribute that is read consists of. -/
theorem parseAttribute_eq_some {p name rest : Bytes}
    (reads : parseAttribute p = some (name, rest)) :
    ∃ behindName behindEquality quote behindQuote value,
      parseName p = some (name, behindName) ∧
      skipWhiteSpace behindName = equalsSign :: behindEquality ∧
      skipWhiteSpace behindEquality = quote :: behindQuote ∧ isQuote quote = true ∧
      parseText [quote] behindQuote = some (value, rest) := by
  rw [parseAttribute] at reads
  split at reads
  · cases reads
  next word behindName named =>
  split at reads
  · cases reads
  next first behindEquality equality =>
  split_ifs at reads with same
  split at reads
  · cases reads
  next quote behindQuote quotation =>
  split_ifs at reads with quoted
  obtain ⟨⟨value, later⟩, ends, taken⟩ := Option.map_eq_some_iff.mp reads
  cases taken
  exact ⟨behindName, behindEquality, quote, behindQuote, value, named, same ▸ equality, quotation,
    quoted, ends⟩

theorem parseAttribute_suffix {p name rest : Bytes}
    (reads : parseAttribute p = some (name, rest)) : rest <:+ p ∧ rest.length < p.length := by
  obtain ⟨behindName, behindEquality, quote, behindQuote, value, named, equality, quotation, -,
    ends⟩ := parseAttribute_eq_some reads
  obtain ⟨suffix, shorter⟩ := parseName_suffix named
  have equalityInside := (List.suffix_cons _ _).trans (equality ▸ skipWhiteSpace_suffix behindName)
  have quoteInside :=
    (List.suffix_cons _ _).trans (quotation ▸ skipWhiteSpace_suffix behindEquality)
  have split : behindQuote = value ++ quote :: rest := Text.append_of_cut ends
  have ending : rest <:+ behindName := by
    refine List.IsSuffix.trans ?_ (quoteInside.trans equalityInside)
    rw [split]
    exact (List.suffix_cons _ _).trans (List.suffix_append _ _)
  exact ⟨ending.trans suffix, lt_of_le_of_lt ending.length_le shorter⟩

/-- What a round of `ParseAttributes` does that does not fail. -/
inductive AttributeRound (rounds : Nat) (names : List Bytes) (p : Bytes) : Bool × Bytes → Prop
  | reads (name later : Bytes) (result : Bool × Bytes)
      (found : parseAttribute (skipWhiteSpace p) = some (name, later))
      (goesOn : attributesLoop rounds (name :: names) later = some result) :
      AttributeRound rounds names p result
  | ends (later : Bytes) (found : skipWhiteSpace p = greaterThan :: later) :
      AttributeRound rounds names p (false, later)
  | closes (later : Bytes) (found : skipWhiteSpace p = slash :: greaterThan :: later) :
      AttributeRound rounds names p (true, later)

theorem attributeRound_of_attributesLoop {rounds : Nat} {names : List Bytes} {p : Bytes}
    {result : Bool × Bytes} (reads : attributesLoop (rounds + 1) names p = some result) :
    AttributeRound rounds names p result := by
  rw [attributesLoop] at reads
  cases shape : skipWhiteSpace p with
  | nil =>
    rw [shape] at reads
    cases reads
  | cons byte behind =>
    rw [shape] at reads
    dsimp only at reads
    split_ifs at reads with starts ends closes
    · split at reads
      · cases reads
      · next name later found =>
        split_ifs at reads
        exact .reads name later result (shape ▸ found) reads
    · cases reads
      exact .ends behind (ends ▸ shape)
    · cases reads
      refine .closes behind.tail ?_
      obtain ⟨rfl, next⟩ := closes
      rw [shape]
      cases behind with
      | nil => cases next
      | cons second behind => rw [Option.some.inj next, List.tail_cons]

theorem attributesLoop_suffix {rounds : Nat} {names : List Bytes} {p : Bytes}
    {result : Bool × Bytes} (reads : attributesLoop rounds names p = some result) :
    result.2 <:+ p ∧ result.2.length < p.length := by
  induction rounds generalizing names p with
  | zero => cases reads
  | succ rounds inductionHypothesis =>
    have skipped := skipWhiteSpace_suffix p
    cases attributeRound_of_attributesLoop reads with
    | reads name later _ found goesOn =>
      obtain ⟨suffix, shorter⟩ := parseAttribute_suffix found
      obtain ⟨laterSuffix, laterShorter⟩ := inductionHypothesis goesOn
      refine ⟨laterSuffix.trans (suffix.trans skipped), ?_⟩
      exact laterShorter.trans (lt_of_lt_of_le shorter skipped.length_le)
    | ends later found =>
      rw [found] at skipped
      have shorter := skipped.length_le
      rw [List.length_cons] at shorter
      exact ⟨(List.suffix_cons _ _).trans skipped, shorter⟩
    | closes later found =>
      rw [found] at skipped
      have shorter := skipped.length_le
      rw [List.length_cons, List.length_cons] at shorter
      exact ⟨((List.suffix_cons _ _).trans (List.suffix_cons _ _)).trans skipped,
        (Nat.lt_succ_self _).trans shorter⟩

/-- What a tag that is read consists of. -/
theorem parseTag_eq_some {p name rest : Bytes} {kind : ClosingType}
    (reads : parseTag p = some (name, kind, rest)) :
    ∃ behind closed,
      parseName (if (skipWhiteSpace p).head? = some slash then (skipWhiteSpace p).tail
        else skipWhiteSpace p) = some (name, behind) ∧
      parseAttributes behind = some (closed, rest) := by
  simp only [parseTag] at reads
  split at reads
  · cases reads
  next word behind named =>
  split at reads
  · cases reads
  next closed later ended =>
  cases reads
  exact ⟨behind, closed, named, ended⟩

theorem parseTag_suffix {p name rest : Bytes} {kind : ClosingType}
    (reads : parseTag p = some (name, kind, rest)) : rest <:+ p ∧ rest.length < p.length := by
  obtain ⟨behind, closed, named, ended⟩ := parseTag_eq_some reads
  obtain ⟨ending, -⟩ := attributesLoop_suffix ended
  obtain ⟨suffix, shorter⟩ := parseName_suffix named
  have skipped := skipWhiteSpace_suffix p
  have inside : (if (skipWhiteSpace p).head? = some slash then (skipWhiteSpace p).tail
      else skipWhiteSpace p) <:+ p := by
    split_ifs
    · exact (List.tail_suffix _).trans skipped
    · exact skipped
  exact ⟨ending.trans (suffix.trans inside),
    lt_of_le_of_lt ending.length_le (lt_of_lt_of_le shorter inside.length_le)⟩

/-! ### Nodes -/

theorem identify_suffix {p q : Bytes} {kind : NodeKind} (found : identify p = some (kind, q)) :
    q <:+ p := by
  have skipped := skipWhiteSpace_suffix p
  rw [identify] at found
  split_ifs at found
  · cases found
    exact (List.drop_suffix _ _).trans skipped
  · cases found
    exact (List.drop_suffix _ _).trans skipped
  · cases found
    exact (List.drop_suffix _ _).trans skipped
  · cases found
    exact (List.drop_suffix _ _).trans skipped
  · cases found
    exact (List.drop_suffix _ _).trans skipped
  · cases found
    exact List.suffix_rfl

theorem length_of_parseText {endTag p value later : Bytes}
    (found : parseText endTag p = some (value, later)) :
    value.length + endTag.length + later.length = p.length := by
  have split : p = value ++ (endTag ++ later) := Text.append_of_cut found
  rw [split, List.length_append, List.length_append, Nat.add_assoc]

/-- A text node does not begin with a `'<'`. -/
theorem value_ne_nil_of_identify {p q value later : Bytes} (kind : identify p = some (.text, q))
    (ends : parseText [lessThan] q = some (value, later)) : value ≠ [] := by
  rintro rfl
  have split : q = lessThan :: later := Text.append_of_cut ends
  have markup : ascii "<" <+: skipWhiteSpace q := by
    rw [split, skipWhiteSpace_cons rfl]
    exact ⟨later, rfl⟩
  rw [identify] at kind
  split_ifs at kind <;> cases kind
  exact absurd markup ‹_›

/-- The next round begins further on. -/
theorem Inserts.shorter {document : Bool} {rounds depth : Nat} {nodes : List XMLNode}
    {p later : Bytes} {node : XMLNode} (inserted : Inserts document rounds depth nodes p node later)
    (content : ∀ p children name later, parseDeep false rounds (depth + 1) p [] =
      some (children, some (name, later)) → later.length < p.length) :
    later.length < p.length := by
  cases inserted with
  | declaration q value _ kind ends located =>
    have inside := (identify_suffix kind).length_le
    have lengths := length_of_parseText ends
    have tag : (ascii "?>").length = 2 := rfl
    omega
  | comment q value _ kind ends =>
    have inside := (identify_suffix kind).length_le
    have lengths := length_of_parseText ends
    have tag : (ascii "-->").length = 3 := rfl
    omega
  | cData q value _ kind ends =>
    have inside := (identify_suffix kind).length_le
    have lengths := length_of_parseText ends
    have tag : (ascii "]]>").length = 3 := rfl
    omega
  | unknown q value _ kind ends =>
    have inside := (identify_suffix kind).length_le
    have lengths := length_of_parseText ends
    rw [List.length_singleton] at lengths
    omega
  | text q value later kind ends more =>
    have inside := (identify_suffix kind).length_le
    have lengths := length_of_parseText ends
    have nonempty := List.length_pos_iff.mpr (value_ne_nil_of_identify kind ends)
    rw [List.length_singleton] at lengths
    rw [List.length_cons]
    omega
  | closed q name _ kind tag =>
    have inside := (identify_suffix kind).length_le
    exact lt_of_lt_of_le (parseTag_suffix tag).2 inside
  | element q name behind _ children kind tag shallow inner =>
    have inside := (identify_suffix kind).length_le
    have behindTag := (parseTag_suffix tag).2
    have behindContent := content _ _ _ _ inner
    omega

/-- An element ends further on. -/
theorem length_lt_of_parseDeep {document : Bool} {rounds depth : Nat} {nodes : List XMLNode}
    {p : Bytes} {children : List XMLNode} {name later : Bytes}
    (reads : parseDeep document rounds depth p nodes = some (children, some (name, later))) :
    later.length < p.length := by
  induction rounds generalizing document depth p nodes children name later with
  | zero => cases reads
  | succ rounds inductionHypothesis =>
    cases round_of_parseDeep reads with
    | closes q _ _ kind tag =>
      exact lt_of_lt_of_le (parseTag_suffix tag).2 (identify_suffix kind).length_le
    | inserts node next _ inserted goesOn =>
      have shorter := inserted.shorter fun _ _ _ _ inner => inductionHypothesis inner
      exact (inductionHypothesis goesOn).trans shorter

theorem Inserts.length_lt {document : Bool} {rounds depth : Nat} {nodes : List XMLNode}
    {p later : Bytes} {node : XMLNode}
    (inserted : Inserts document rounds depth nodes p node later) : later.length < p.length :=
  inserted.shorter fun _ _ _ _ inner => length_lt_of_parseDeep inner

/-! ### Enough rounds -/

theorem getStrLoop_succ {processEntities : Bool} {start : Bytes} {rounds : Nat} {p written : Bytes}
    (enough : p.length ≤ rounds) :
    getStrLoop processEntities start (rounds + 1) p written =
      getStrLoop processEntities start rounds p written := by
  induction rounds generalizing p written with
  | zero =>
    obtain rfl : p = [] := List.length_eq_zero_iff.mp (Nat.le_zero.mp enough)
    rfl
  | succ rounds inductionHypothesis =>
    cases p with
    | nil => rfl
    | cons byte p =>
      rw [List.length_cons, Nat.add_le_add_iff_right] at enough
      have behindEnd (ending : UInt8) :
          (if p.head? = some ending then p.tail else p).length ≤ rounds := by
        split_ifs
        · exact (List.tail_suffix p).length_le.trans enough
        · exact enough
      rw [getStrLoop, getStrLoop, inductionHypothesis (behindEnd newline),
        inductionHypothesis (behindEnd carriageReturn), inductionHypothesis enough,
        inductionHypothesis enough]
      cases decoded p with
      | none => rfl
      | some result =>
        dsimp only
        rw [inductionHypothesis ((List.drop_suffix _ _).length_le.trans enough)]

/-- `GetStr` has enough rounds. -/
theorem getStrLoop_eq {processEntities : Bool} {start : Bytes} {rounds : Nat} {p : Bytes}
    (enough : p.length ≤ rounds) :
    getStrLoop processEntities start rounds p [] =
      getStrLoop processEntities start p.length p [] :=
  Fuel.eq_of_enough (fun rounds p => getStrLoop processEntities start rounds p []) List.length
    (fun _ _ enough => getStrLoop_succ enough) enough

theorem attributesLoop_succ {rounds : Nat} {names : List Bytes} {p : Bytes}
    (enough : p.length < rounds) :
    attributesLoop (rounds + 1) names p = attributesLoop rounds names p := by
  induction rounds generalizing names p with
  | zero => cases enough
  | succ rounds inductionHypothesis =>
    rw [attributesLoop, attributesLoop]
    have skipped := (skipWhiteSpace_suffix p).length_le
    split
    · rfl
    · next byte behind shape =>
      split_ifs with starts
      · split
        · rfl
        · next name later found =>
          have shorter := (parseAttribute_suffix found).2
          rw [shape] at skipped
          rw [inductionHypothesis (by omega)]
      · rfl
      · rfl
      · rfl

/-- The loop over the attributes of a tag has enough rounds. -/
theorem attributesLoop_eq_parseAttributes {rounds : Nat} {p : Bytes} (enough : p.length < rounds) :
    attributesLoop rounds [] p = parseAttributes p :=
  Fuel.eq_of_enough (fun rounds p => attributesLoop rounds [] p) (fun p => p.length + 1)
    (fun _ _ enough => attributesLoop_succ enough) enough

theorem parseDeep_succ {document : Bool} {rounds depth : Nat} {p : Bytes} {nodes : List XMLNode}
    (enough : p.length < rounds) :
    parseDeep document (rounds + 1) depth p nodes = parseDeep document rounds depth p nodes := by
  induction rounds generalizing document depth p nodes with
  | zero => cases enough
  | succ rounds inductionHypothesis =>
    -- whatever is inserted, the loop goes on with enough rounds
    have goesOn {node : XMLNode} {later : Bytes}
        (inserted : Inserts document rounds depth nodes p node later) :
        parseDeep document (rounds + 1) depth later (nodes ++ [node]) =
          parseDeep document rounds depth later (nodes ++ [node]) := by
      have shorter := inserted.length_lt
      exact inductionHypothesis (by omega)
    rw [parseDeep, parseDeep]
    split
    · rfl
    · next q kind =>
      split
      · rfl
      · next value later ends =>
        split_ifs with located
        · exact goesOn (.declaration q value later kind ends located)
        · rfl
    · next q kind =>
      split
      · rfl
      · next value later ends => exact goesOn (.comment q value later kind ends)
    · next q kind =>
      split
      · rfl
      · next value later ends => exact goesOn (.cData q value later kind ends)
    · next q kind =>
      split
      · rfl
      · next value later ends => exact goesOn (.unknown q value later kind ends)
    · next q kind =>
      split
      · rfl
      · next value later ends =>
        split_ifs with more
        · rfl
        · exact goesOn (.text q value later kind ends more)
    · next q kind =>
      split
      · rfl
      · rfl
      · next name later tag => exact goesOn (.closed q name later kind tag)
      · next name behind tag =>
        have inside := (identify_suffix kind).length_le
        have shorter := (parseTag_suffix tag).2
        split_ifs with shallow
        · rfl
        · rw [inductionHypothesis (by omega)]
          split
          · next children endTag later content =>
            split_ifs with same
            · subst same
              exact goesOn (.element q _ behind later children kind tag shallow content)
            · rfl
          · rfl

/-- The parser has enough rounds. -/
theorem parseDeep_eq {document : Bool} {rounds depth : Nat} {p : Bytes} {nodes : List XMLNode}
    (enough : p.length < rounds) :
    parseDeep document rounds depth p nodes =
      parseDeep document (p.length + 1) depth p nodes :=
  Fuel.eq_of_enough (fun rounds p => parseDeep document rounds depth p nodes)
    (fun p => p.length + 1) (fun _ _ enough => parseDeep_succ enough) enough

/-! ### The lengths of texts -/

/-- No text in a node is longer than this. -/
inductive XMLNode.Within (bound : Nat) : XMLNode → Prop
  | declaration : Within bound .declaration
  | comment : Within bound .comment
  | unknown : Within bound .unknown
  | text (value : Bytes) (short : value.length ≤ bound) : Within bound (.text value)
  | element (name : Bytes) (children : List XMLNode)
      (inside : ∀ node ∈ children, Within bound node) : Within bound (.element name children)

theorem Inserts.within {document : Bool} {rounds depth bound : Nat} {nodes : List XMLNode}
    {p later : Bytes} {node : XMLNode}
    (inserted : Inserts document rounds depth nodes p node later) (short : p.length ≤ bound)
    (content : ∀ p result, p.length ≤ bound →
      parseDeep false rounds (depth + 1) p [] = some result →
      ∀ node ∈ result.1, node.Within bound) : node.Within bound := by
  cases inserted with
  | declaration q value _ kind ends located => exact .declaration
  | comment q value _ kind ends => exact .comment
  | cData q value _ kind ends =>
    have inside := (identify_suffix kind).length_le
    have lengths := length_of_parseText ends
    have shorter := length_getStr false value
    exact .text _ (by omega)
  | unknown q value _ kind ends => exact .unknown
  | text q value later kind ends more =>
    have inside := (identify_suffix kind).length_le
    have lengths := length_of_parseText ends
    have shorter := length_getStr true value
    exact .text _ (by omega)
  | closed q name _ kind tag => exact .element name [] (List.forall_mem_nil _)
  | element q name behind _ children kind tag shallow inner =>
    have inside := (identify_suffix kind).length_le
    have behindTag := (parseTag_suffix tag).2
    exact .element name children (content behind _ (by omega) inner)

/-- No text that is read is longer than the buffer. -/
theorem within_of_parseDeep {document : Bool} {rounds depth bound : Nat} {nodes : List XMLNode}
    {p : Bytes} {result : Parsed} (short : p.length ≤ bound)
    (before : ∀ node ∈ nodes, node.Within bound)
    (reads : parseDeep document rounds depth p nodes = some result) :
    ∀ node ∈ result.1, node.Within bound := by
  induction rounds generalizing document depth p nodes result with
  | zero => cases reads
  | succ rounds inductionHypothesis =>
    cases round_of_parseDeep reads with
    | ended nothing => exact before
    | closes q name later kind tag => exact before
    | inserts node later _ inserted goesOn =>
      have within := inserted.within short fun _ _ short inner =>
        inductionHypothesis short (List.forall_mem_nil _) inner
      have shorter := inserted.length_lt
      refine inductionHypothesis (by omega) (fun other listed => ?_) goesOn
      rcases List.mem_append.mp listed with earlier | new
      · exact before other earlier
      · rw [List.mem_singleton.mp new]
        exact within

theorem length_of_getText {bound : Nat} {children : List XMLNode} {text : Bytes}
    (within : ∀ node ∈ children, node.Within bound) (found : getText children = some text) :
    text.length ≤ bound := by
  rw [getText] at found
  split at found
  · next value others shape =>
    cases found
    have listed : XMLNode.text text ∈ children :=
      (List.dropWhile_suffix _).subset (shape ▸ List.mem_cons_self)
    cases within _ listed with
    | text _ short => exact short
  · cases found

/-- No text that `GetText` returns is longer than the buffer. -/
theorem length_of_parse {buf : Bytes} {children : List XmlElement}
    (parsed : parse buf = some children) {element : XmlElement} (listed : element ∈ children)
    {text : Bytes} (found : element.text = some text) : text.length ≤ buf.length := by
  rw [parse] at parsed
  split_ifs at parsed
  split at parsed
  · cases parsed
  · next nodes ending reads =>
    obtain ⟨inside, root, rfl⟩ := Option.map_eq_some_iff.mp parsed
    have begins : (readBOM (skipWhiteSpace buf)).length ≤ buf.length := by
      have skipped := (skipWhiteSpace_suffix buf).length_le
      rw [readBOM]
      split_ifs
      · exact (List.drop_suffix _ _).length_le.trans skipped
      · exact skipped
    have within : ∀ node ∈ nodes, node.Within buf.length :=
      within_of_parseDeep begins (List.forall_mem_nil _) reads
    obtain ⟨rootNode, rootListed, rootChildren⟩ := List.exists_of_findSome?_eq_some root
    cases rootNode with
    | element name children =>
      cases rootChildren
      obtain ⟨node, nodeListed, same⟩ := List.mem_filterMap.mp listed
      cases within _ rootListed with
      | element _ _ insideRoot =>
        cases node with
        | element name children =>
          cases same
          cases insideRoot _ nodeListed with
          | element _ _ insideNode => exact length_of_getText insideNode found
        | _ => cases same
    | _ => cases rootChildren

end Tinyxml2

end SearchEngine
