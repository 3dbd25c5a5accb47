/-
This file models the file of the inverted index: how `PagePreProcessor::store`
writes it, how `WebPageSearcher::initInvertIndex` reads it, and when the index
survives.

A line has the keyword and then its postings, each ended by a `','`. The decoder
drops every `','` of a line and clears three of its flags there. In front of the
first space these flags are clear anyway, so the only effect of a `','` in a
keyword is that it is lost, and the postings are filed under another keyword. A
keyword without postings is read and never inserted. How weights are printed and
read is a parameter.
-/

import SearchEngine.PageDump.InvertedIndex

namespace SearchEngine

open Containers

/-! ### Printed weights -/

/-- How weights are printed and read. Some weights are printed as decimal tokens. Such a token has
no separator, the number it is read as is printed as the same token, and tokens that are read as
equal numbers are equal or were printed for equal numbers, as `0` and `-0` are. -/
structure WeightFormat (Weight : Type) [Arithmetic Weight] where
  print : Weight → Bytes
  stod : Bytes → Except Fault Weight
  IsDecimal : Weight → Prop
  token : ∀ weight, IsDecimal weight →
    space ∉ print weight ∧ newline ∉ print weight ∧ comma ∉ print weight
  readBack : ∀ weight, IsDecimal weight →
    ∃ back, stod (print weight) = .ok back ∧ print back = print weight
  apart : ∀ first second firstBack secondBack, IsDecimal first → IsDecimal second →
    stod (print first) = .ok firstBack → stod (print second) = .ok secondBack →
    ¬ Comparable Arithmetic.less firstBack secondBack →
    print first = print second ∨ ¬ Comparable Arithmetic.less first second

variable {Weight : Type} [Arithmetic Weight] (format : WeightFormat Weight)

/-- A posting as it is printed. -/
def WeightFormat.printed (posting : Posting Weight) : Int × Bytes × Int :=
  (posting.id, format.print posting.weight, posting.position)

/-! ### Writing the file -/

/-- What `PagePreProcessor::store` writes for a posting. -/
def encodePosting (posting : Posting Weight) : Bytes :=
  Text.decimalInt posting.id ++ [space] ++ format.print posting.weight ++ [space] ++
    Text.decimalInt posting.position ++ [space, comma]

/-- The line `PagePreProcessor::store` writes for a keyword, without its newline. -/
def invertIndexLine (entry : Sigma fun _ : Bytes => List (Posting Weight)) : Bytes :=
  entry.1 ++ [space] ++ entry.2.flatMap (encodePosting format)

/-- `PagePreProcessor::store` -/
def PagePreProcessor.store (processor : PagePreProcessor Weight) : Bytes :=
  processor.invertIndexTable.entries.flatMap fun entry =>
    invertIndexLine format entry ++ [newline]

/-! ### Reading the file -/

/-- `_invertIndexTable[key].insert(posting)` -/
def insertPosting (table : InvertIndexTable Weight) (key : Bytes) (posting : Posting Weight) :
    InvertIndexTable Weight :=
  addUnder PagePreProcessor.postingLess table key posting

/-- The local variables of the loop over the bytes of a line. -/
structure LineReader (Weight : Type) where
  keyFlag : Bool
  idFlag : Bool
  wFlag : Bool
  posFlag : Bool
  key : Bytes
  id : Int
  w : Weight
  pos : Int
  tmp : Bytes

namespace WebPageSearcher

/-- The local variables at the start of a line. -/
def lineStart : LineReader Weight :=
  ⟨false, false, false, false, [], 0, Arithmetic.ofInt 0, 0, []⟩

/-- The loop over the bytes of a line. -/
def initInvertIndexInner :
    Bytes → LineReader Weight → InvertIndexTable Weight → Except Fault (InvertIndexTable Weight)
  | [], _, table => .ok table
  | byte :: line, reader, table =>
    if byte = comma then
      initInvertIndexInner line { reader with idFlag := false, wFlag := false, posFlag := false }
        table
    else if byte = space ∧ reader.keyFlag = false then
      initInvertIndexInner line { reader with key := reader.tmp, tmp := [], keyFlag := true } table
    else if byte = space ∧ reader.idFlag = false then do
      let id ← stoi reader.tmp
      initInvertIndexInner line { reader with id, tmp := [], idFlag := true } table
    else if byte = space ∧ reader.wFlag = false then do
      let w ← format.stod reader.tmp
      initInvertIndexInner line { reader with w, tmp := [], wFlag := true } table
    else if byte = space ∧ reader.posFlag = false then do
      let pos ← stoi reader.tmp
      initInvertIndexInner line { reader with pos, tmp := [], posFlag := true }
        (insertPosting table reader.key ⟨reader.id, reader.w, pos⟩)
    else initInvertIndexInner line { reader with tmp := reader.tmp ++ [byte] } table

/-- The loop over the lines, which an empty line ends. -/
def initInvertIndexLoop :
    List Bytes → InvertIndexTable Weight → Except Fault (InvertIndexTable Weight)
  | [], table => .ok table
  | line :: lines, table =>
    if line.length = 0 then .ok table
    else do
      let table ← initInvertIndexInner format line lineStart table
      initInvertIndexLoop lines table

/-- `WebPageSearcher::initInvertIndex`, on the content of the file. -/
def initInvertIndex (file : Bytes) : Except Fault (InvertIndexTable Weight) :=
  initInvertIndexLoop format (Text.lines newline file) ∅

end WebPageSearcher

/-- The number that a printed weight is read as. -/
def WeightFormat.round (weight : Weight) : Weight :=
  match format.stod (format.print weight) with
  | .ok back => back
  | .error _ => weight

/-- A posting as it is read back. -/
def WeightFormat.roundPosting (posting : Posting Weight) : Posting Weight :=
  { posting with weight := format.round posting.weight }

/-- A posting that is printed without a sign, and with a decimal token. -/
structure PlainPosting (posting : Posting Weight) : Prop where
  id : 0 ≤ posting.id ∧ posting.id < 2 ^ 31
  position : 0 ≤ posting.position ∧ posting.position < 2 ^ 31
  weight : format.IsDecimal posting.weight

section Round

variable {format} {weight : Weight} (decimal : format.IsDecimal weight)
include decimal

theorem WeightFormat.stod_print : format.stod (format.print weight) = .ok (format.round weight) := by
  obtain ⟨back, read, _⟩ := format.readBack weight decimal
  rw [WeightFormat.round, read]

theorem WeightFormat.print_round : format.print (format.round weight) = format.print weight := by
  obtain ⟨back, read, same⟩ := format.readBack weight decimal
  rw [WeightFormat.round, read]
  exact same

end Round

theorem PlainPosting.printed_roundPosting {format : WeightFormat Weight} {posting : Posting Weight}
    (plain : PlainPosting format posting) :
    format.printed (format.roundPosting posting) = format.printed posting := by
  rw [WeightFormat.printed, WeightFormat.printed, WeightFormat.roundPosting,
    WeightFormat.print_round plain.weight]

/-! ### Reading a line -/

theorem comma_notMem_decimalInt {number : Int} (nonneg : 0 ≤ number) :
    comma ∉ Text.decimalInt number :=
  fun member => absurd (isDigit_of_mem_decimalInt nonneg member) (by decide)

/-- A keyword without its `','`. -/
def withoutCommas (key : Bytes) : Bytes := key.filter (· ≠ comma)

theorem withoutCommas_eq_iff {key : Bytes} : withoutCommas key = key ↔ comma ∉ key := by
  rw [withoutCommas, List.filter_eq_self]
  constructor
  · intro clean member
    simpa using clean comma member
  · intro clean byte member
    simpa using fun same : byte = comma => clean (same ▸ member)

theorem comma_notMem_withoutCommas (key : Bytes) : comma ∉ withoutCommas key := by
  simp [withoutCommas]

/-- What is inserted for an entry of the index. -/
def readPairs (entry : Sigma fun _ : Bytes => List (Posting Weight)) :
    List (Bytes × Posting Weight) :=
  entry.2.map fun posting => (withoutCommas entry.1, format.roundPosting posting)

namespace WebPageSearcher

variable {format}

/-- The local variables behind the keyword, in front of a posting. -/
def between (key : Bytes) (id : Int) (w : Weight) (pos : Int) : LineReader Weight :=
  ⟨true, false, false, false, key, id, w, pos, []⟩

theorem inner_comma (rest : Bytes) (reader : LineReader Weight) (table : InvertIndexTable Weight) :
    initInvertIndexInner format (comma :: rest) reader table =
      initInvertIndexInner format rest
        { reader with idFlag := false, wFlag := false, posFlag := false } table := by
  rw [initInvertIndexInner, if_pos rfl]

theorem inner_byte {byte : UInt8} (notComma : byte ≠ comma) (notSpace : byte ≠ space)
    (rest : Bytes) (reader : LineReader Weight) (table : InvertIndexTable Weight) :
    initInvertIndexInner format (byte :: rest) reader table =
      initInvertIndexInner format rest { reader with tmp := reader.tmp ++ [byte] } table := by
  simp only [initInvertIndexInner, notComma, notSpace, false_and, if_false]

/-- In a keyword, only its `','` are lost. -/
theorem inner_key {key : Bytes} (unbroken : space ∉ key) (rest start : Bytes)
    (table : InvertIndexTable Weight) :
    initInvertIndexInner format (key ++ rest) { lineStart with tmp := start } table =
      initInvertIndexInner format rest { lineStart with tmp := start ++ withoutCommas key }
        table := by
  induction key generalizing start with
  | nil => rw [withoutCommas, List.filter_nil, List.nil_append, List.append_nil]
  | cons byte key inductionHypothesis =>
    have different : byte ≠ space := fun same => unbroken (by simp [same])
    have later : space ∉ key := fun member => unbroken (List.mem_cons_of_mem _ member)
    by_cases isComma : byte = comma
    · rw [List.cons_append, isComma, inner_comma]
      refine (inductionHypothesis later start).trans ?_
      rw [withoutCommas, withoutCommas, List.filter_cons_of_neg (by simp)]
    · rw [List.cons_append, inner_byte isComma different]
      refine (inductionHypothesis later (start ++ [byte])).trans ?_
      rw [withoutCommas, withoutCommas, List.filter_cons_of_pos (by simp [isComma]),
        List.append_assoc, List.singleton_append]

/-- A number is collected in `tmp`. -/
theorem inner_token {token : Bytes} (noComma : comma ∉ token) (noSpace : space ∉ token)
    (rest : Bytes) (reader : LineReader Weight) (table : InvertIndexTable Weight) :
    initInvertIndexInner format (token ++ rest) reader table =
      initInvertIndexInner format rest { reader with tmp := reader.tmp ++ token } table := by
  induction token generalizing reader with
  | nil => rw [List.nil_append, List.append_nil]
  | cons byte token inductionHypothesis =>
    rw [List.mem_cons, not_or] at noComma noSpace
    rw [List.cons_append, inner_byte (Ne.symm noComma.1) (Ne.symm noSpace.1),
      inductionHypothesis noComma.2 noSpace.2, List.append_assoc, List.singleton_append]

/-- The space behind the keyword. -/
theorem inner_keySpace (rest tmp : Bytes) (table : InvertIndexTable Weight) :
    initInvertIndexInner format (space :: rest) { lineStart with tmp := tmp } table =
      initInvertIndexInner format rest (between tmp 0 (Arithmetic.ofInt 0) 0) table := rfl

theorem stoi_printed {number : Int} (range : 0 ≤ number ∧ number < 2 ^ 31) :
    stoi (Text.decimalInt number) = .ok number := by
  have read := stoi_decimalInt range.1 range.2 (List.forall_mem_nil fun byte => byte = space)
  rwa [List.nil_append] at read

/-- The id of a posting. -/
theorem inner_id {number : Int} (range : 0 ≤ number ∧ number < 2 ^ 31) (rest key : Bytes)
    (id : Int) (w : Weight) (pos : Int) (table : InvertIndexTable Weight) :
    initInvertIndexInner format (Text.decimalInt number ++ space :: rest) (between key id w pos)
        table =
      initInvertIndexInner format rest { between key number w pos with idFlag := true } table := by
  rw [inner_token (comma_notMem_decimalInt range.1) (space_notMem_decimalInt range.1)]
  show (stoi (Text.decimalInt number) >>= fun id => initInvertIndexInner format rest
    { between key id w pos with idFlag := true } table) = _
  rw [stoi_printed range, ok_bind]

/-- The weight of a posting. -/
theorem inner_w {weight : Weight} (decimal : format.IsDecimal weight) (rest key : Bytes)
    (id : Int) (w : Weight) (pos : Int) (table : InvertIndexTable Weight) :
    initInvertIndexInner format (format.print weight ++ space :: rest)
        { between key id w pos with idFlag := true } table =
      initInvertIndexInner format rest
        { between key id (format.round weight) pos with idFlag := true, wFlag := true } table := by
  obtain ⟨noSpace, _, noComma⟩ := format.token weight decimal
  rw [inner_token noComma noSpace]
  show (format.stod (format.print weight) >>= fun w => initInvertIndexInner format rest
    { between key id w pos with idFlag := true, wFlag := true } table) = _
  rw [WeightFormat.stod_print decimal, ok_bind]

/-- The position of a posting, which is inserted, and the `','` behind it. -/
theorem inner_pos {number : Int} (range : 0 ≤ number ∧ number < 2 ^ 31) (rest key : Bytes)
    (id : Int) (w : Weight) (pos : Int) (table : InvertIndexTable Weight) :
    initInvertIndexInner format (Text.decimalInt number ++ space :: comma :: rest)
        { between key id w pos with idFlag := true, wFlag := true } table =
      initInvertIndexInner format rest (between key id w number)
        (insertPosting table key ⟨id, w, number⟩) := by
  rw [inner_token (comma_notMem_decimalInt range.1) (space_notMem_decimalInt range.1)]
  show (stoi (Text.decimalInt number) >>= fun pos => initInvertIndexInner format rest
    (between key id w pos) (insertPosting table key ⟨id, w, pos⟩)) = _
  rw [stoi_printed range, ok_bind]

/-- A posting is read and inserted, with its weight as it is read. -/
theorem inner_posting {posting : Posting Weight} (plain : PlainPosting format posting)
    (rest key : Bytes) (id : Int) (w : Weight) (pos : Int) (table : InvertIndexTable Weight) :
    initInvertIndexInner format (encodePosting format posting ++ rest) (between key id w pos)
        table =
      initInvertIndexInner format rest
        (between key posting.id (format.round posting.weight) posting.position)
        (insertPosting table key (format.roundPosting posting)) := by
  have text : encodePosting format posting ++ rest = Text.decimalInt posting.id ++ space ::
      (format.print posting.weight ++ space ::
        (Text.decimalInt posting.position ++ space :: comma :: rest)) := by
    simp [encodePosting]
  rw [text, inner_id plain.id, inner_w plain.weight, inner_pos plain.position]
  rfl

/-- The postings of a line are inserted under the keyword. -/
theorem inner_postings {postings : List (Posting Weight)}
    (plain : ∀ posting ∈ postings, PlainPosting format posting) (key : Bytes)
    (id : Int) (w : Weight) (pos : Int) (table : InvertIndexTable Weight) :
    initInvertIndexInner format (postings.flatMap (encodePosting format)) (between key id w pos)
        table =
      .ok (addAllUnder PagePreProcessor.postingLess
        (postings.map fun posting => (key, format.roundPosting posting)) table) := by
  induction postings generalizing id w pos table with
  | nil => rfl
  | cons posting postings inductionHypothesis =>
    have later : ∀ other ∈ postings, PlainPosting format other :=
      fun other member => plain other (List.mem_cons_of_mem _ member)
    rw [List.flatMap_cons, inner_posting (plain posting List.mem_cons_self),
      inductionHypothesis later]
    rfl

/-- A line is read as its keyword, less the `','` of this, with the postings. -/
theorem inner_line {entry : Sigma fun _ : Bytes => List (Posting Weight)}
    (unbroken : space ∉ entry.1) (plain : ∀ posting ∈ entry.2, PlainPosting format posting)
    (table : InvertIndexTable Weight) :
    initInvertIndexInner format (invertIndexLine format entry) lineStart table =
      .ok (addAllUnder PagePreProcessor.postingLess (readPairs format entry) table) := by
  rw [invertIndexLine, List.append_assoc, List.singleton_append]
  refine (inner_key unbroken _ [] table).trans ?_
  rw [List.nil_append, inner_keySpace, inner_postings plain]
  rfl

/-- The lines of a file are read one after the other. -/
theorem loop_lines {entries : List (Sigma fun _ : Bytes => List (Posting Weight))}
    (unbroken : ∀ entry ∈ entries, space ∉ entry.1)
    (plain : ∀ entry ∈ entries, ∀ posting ∈ entry.2, PlainPosting format posting)
    (table : InvertIndexTable Weight) :
    initInvertIndexLoop format (entries.map (invertIndexLine format)) table =
      .ok (addAllUnder PagePreProcessor.postingLess (entries.flatMap (readPairs format)) table) := by
  induction entries generalizing table with
  | nil => rfl
  | cons entry entries inductionHypothesis =>
    have written : (invertIndexLine format entry).length ≠ 0 := by
      simp [invertIndexLine]
    rw [List.map_cons, initInvertIndexLoop, if_neg written,
      inner_line (unbroken entry List.mem_cons_self) (plain entry List.mem_cons_self), ok_bind,
      inductionHypothesis (fun other member => unbroken other (List.mem_cons_of_mem _ member))
        (fun other member => plain other (List.mem_cons_of_mem _ member)),
      List.flatMap_cons, addAllUnder_append]

/-! ### The file -/

/-- The table that `initInvertIndex` loads from the lines of entries. -/
def readTable (format : WeightFormat Weight)
    (entries : List (Sigma fun _ : Bytes => List (Posting Weight))) : InvertIndexTable Weight :=
  addAllUnder PagePreProcessor.postingLess (entries.flatMap (readPairs format)) ∅

theorem newline_notMem_encodePosting {posting : Posting Weight}
    (plain : PlainPosting format posting) : newline ∉ encodePosting format posting := by
  have weight := (format.token _ plain.weight).2.1
  have separators : newline ≠ space ∧ newline ≠ comma := by decide
  simp [encodePosting, newline_notMem_decimalInt, weight, separators]

/-- `initInvertIndex` reads the file that `store` wrote. -/
theorem initInvertIndex_store (processor : PagePreProcessor Weight)
    (keys : ∀ entry ∈ processor.invertIndexTable.entries, space ∉ entry.1 ∧ newline ∉ entry.1)
    (plain : ∀ entry ∈ processor.invertIndexTable.entries,
      ∀ posting ∈ entry.2, PlainPosting format posting) :
    initInvertIndex format (processor.store format) =
      .ok (readTable format processor.invertIndexTable.entries) := by
  have unbroken : ∀ line ∈ processor.invertIndexTable.entries.map (invertIndexLine format),
      newline ∉ line := by
    intro line member
    obtain ⟨entry, listed, rfl⟩ := List.mem_map.mp member
    have postings : newline ∉ entry.2.flatMap (encodePosting format) := by
      intro inside
      obtain ⟨posting, among, inside⟩ := List.mem_flatMap.mp inside
      exact newline_notMem_encodePosting (plain entry listed posting among) inside
    have apart : newline ≠ space := by decide
    simp [invertIndexLine, (keys entry listed).2, postings, apart]
  have file : processor.store format =
      (processor.invertIndexTable.entries.map (invertIndexLine format)).flatMap
        fun line => line ++ [newline] := by
    rw [PagePreProcessor.store, List.flatMap_map]
  rw [initInvertIndex, file, Text.lines_flatMap unbroken,
    loop_lines (fun entry listed => (keys entry listed).1) plain]
  rfl

theorem mem_readTable (entries : List (Sigma fun _ : Bytes => List (Posting Weight)))
    (key : Bytes) :
    key ∈ readTable format entries ↔
      ∃ entry ∈ entries, withoutCommas entry.1 = key ∧ entry.2 ≠ [] := by
  rw [readTable, mem_addAllUnder, or_iff_left (AList.notMem_empty key)]
  constructor
  · rintro ⟨posting, member⟩
    obtain ⟨entry, listed, inside⟩ := List.mem_flatMap.mp member
    obtain ⟨original, among, same⟩ := List.mem_map.mp inside
    exact ⟨entry, listed, congrArg Prod.fst same, List.ne_nil_of_mem among⟩
  · rintro ⟨entry, listed, rfl, some⟩
    obtain ⟨posting, among⟩ := List.exists_mem_of_ne_nil _ some
    exact ⟨format.roundPosting posting,
      List.mem_flatMap.mpr ⟨entry, listed, List.mem_map_of_mem among⟩⟩

/-- The postings that are inserted under a keyword. -/
def readUnder (format : WeightFormat Weight)
    (entries : List (Sigma fun _ : Bytes => List (Posting Weight))) (key : Bytes) :
    List (Posting Weight) :=
  ((entries.flatMap (readPairs format)).filter fun pair => pair.1 = key).map Prod.snd

theorem mem_readUnder {entries : List (Sigma fun _ : Bytes => List (Posting Weight))}
    {key : Bytes} {posting : Posting Weight} :
    posting ∈ readUnder format entries key ↔
      ∃ entry ∈ entries, withoutCommas entry.1 = key ∧
        ∃ original ∈ entry.2, format.roundPosting original = posting := by
  simp only [readUnder, readPairs, List.mem_map, List.mem_filter, List.mem_flatMap,
    decide_eq_true_eq]
  constructor
  · rintro ⟨_, ⟨⟨entry, listed, original, among, rfl⟩, same⟩, rfl⟩
    exact ⟨entry, listed, same, original, among, rfl⟩
  · rintro ⟨entry, listed, same, original, among, rfl⟩
    exact ⟨_, ⟨⟨entry, listed, original, among, rfl⟩, same⟩, rfl⟩

/-- Without `','` in the keywords, the postings of an entry are inserted under its keyword. -/
theorem mem_readUnder_of_clean {entries : List (Sigma fun _ : Bytes => List (Posting Weight))}
    (distinct : entries.NodupKeys) (clean : ∀ entry ∈ entries, comma ∉ entry.1)
    {entry : Sigma fun _ : Bytes => List (Posting Weight)} (listed : entry ∈ entries)
    {posting : Posting Weight} :
    posting ∈ readUnder format entries entry.1 ↔
      ∃ original ∈ entry.2, format.roundPosting original = posting := by
  refine mem_readUnder.trans ⟨?_, fun original => ?_⟩
  · rintro ⟨other, among, same, original⟩
    rw [withoutCommas_eq_iff.mpr (clean other among)] at same
    rwa [distinct.eq_of_fst_eq among listed same] at original
  · exact ⟨entry, listed, withoutCommas_eq_iff.mpr (clean entry listed), original⟩

/-! ### The round trip -/

/-- The same keywords, each with the same ids, positions and printed weights. -/
def SamePrinted (format : WeightFormat Weight) (loaded table : InvertIndexTable Weight) : Prop :=
  ∀ key, (key ∈ loaded ↔ key ∈ table) ∧
    ∀ printed, printed ∈ (value loaded key).map format.printed ↔
      printed ∈ (value table key).map format.printed

/-- Postings that do not compare have one id and one position, and their weights do not compare. -/
theorem eq_of_not_comparable {first second : Posting Weight}
    (equal : ¬ Comparable PagePreProcessor.postingLess first second) :
    first.id = second.id ∧ first.position = second.position ∧
      ¬ Comparable Arithmetic.less first.weight second.weight := by
  have sameId : first.id = second.id := by
    by_contra different
    exact equal (PagePreProcessor.comparable_of_id_ne different)
  simp only [Comparable, PagePreProcessor.postingLess, sameId, lt_irrefl, decide_false,
    Bool.false_or, Bool.not_false, Bool.true_and, Bool.or_eq_true, Bool.and_eq_true,
    Bool.not_eq_true', decide_eq_true_eq, not_or, not_and] at equal
  obtain ⟨⟨notLess, positions⟩, notGreater, positions'⟩ := equal
  simp only [Bool.not_eq_true] at notLess notGreater
  refine ⟨sameId, ?_, ?_⟩
  · exact le_antisymm (not_lt.mp (positions' notLess)) (not_lt.mp (positions notGreater))
  · simp [Comparable, notLess, notGreater]

/-- Postings that are read as equal were printed alike. -/
theorem printed_eq_of_not_comparable {postings : List (Posting Weight)}
    (plain : ∀ posting ∈ postings, PlainPosting format posting)
    (ordered : Ordered PagePreProcessor.postingLess postings) {first second : Posting Weight}
    (firstListed : first ∈ postings) (secondListed : second ∈ postings)
    (equal : ¬ Comparable PagePreProcessor.postingLess (format.roundPosting first)
      (format.roundPosting second)) :
    format.printed first = format.printed second := by
  obtain ⟨sameId, samePosition, weights⟩ := eq_of_not_comparable equal
  have firstPlain := (plain first firstListed).weight
  have secondPlain := (plain second secondListed).weight
  rcases format.apart _ _ _ _ firstPlain secondPlain (WeightFormat.stod_print firstPlain)
    (WeightFormat.stod_print secondPlain) weights with same | incomparable
  · exact Prod.ext sameId (Prod.ext same samePosition)
  · by_cases same : first = second
    · rw [same]
    · have compare := ordered.pairwise_comparable.forall firstListed secondListed same
      have sameId : first.id = second.id := sameId
      have samePosition : first.position = second.position := samePosition
      rw [Comparable, not_or, Bool.not_eq_true, Bool.not_eq_true] at incomparable
      simp [Comparable, PagePreProcessor.postingLess, sameId, samePosition, incomparable] at compare

/-- Without `','` in the keywords, the postings of a keyword are read as they were printed. -/
theorem mem_printed_readTable {entries : List (Sigma fun _ : Bytes => List (Posting Weight))}
    (distinct : entries.NodupKeys) (clean : ∀ entry ∈ entries, comma ∉ entry.1)
    {entry : Sigma fun _ : Bytes => List (Posting Weight)} (listed : entry ∈ entries)
    (plain : ∀ posting ∈ entry.2, PlainPosting format posting)
    (ordered : Ordered PagePreProcessor.postingLess entry.2) (printed : Int × Bytes × Int) :
    printed ∈ (value (readTable format entries) entry.1).map format.printed ↔
      printed ∈ entry.2.map format.printed := by
  have members {posting : Posting Weight} : posting ∈ readUnder format entries entry.1 ↔
      ∃ original ∈ entry.2, format.roundPosting original = posting :=
    mem_readUnder_of_clean distinct clean listed
  have alike : ∀ first ∈ readUnder format entries entry.1,
      ∀ second ∈ readUnder format entries entry.1,
      ¬ Comparable PagePreProcessor.postingLess first second →
        format.printed first = format.printed second := by
    intro first firstRead second secondRead equal
    obtain ⟨firstOriginal, firstListed, rfl⟩ := members.mp firstRead
    obtain ⟨secondOriginal, secondListed, rfl⟩ := members.mp secondRead
    rw [(plain _ firstListed).printed_roundPosting, (plain _ secondListed).printed_roundPosting]
    exact printed_eq_of_not_comparable plain ordered firstListed secondListed equal
  rw [readTable, value_addAllUnder]
  refine (mem_map_placeAll alike printed).trans ?_
  rw [List.mem_map, List.mem_map]
  constructor
  · rintro ⟨posting, read, rfl⟩
    obtain ⟨original, among, rfl⟩ := members.mp read
    exact ⟨original, among, (plain original among).printed_roundPosting.symm⟩
  · rintro ⟨original, among, rfl⟩
    exact ⟨format.roundPosting original, members.mpr ⟨original, among, rfl⟩,
      (plain original among).printed_roundPosting⟩

/-- The file of an index is read back as the same index exactly when no keyword has a `','` and every
keyword has a posting. -/
theorem initInvertIndex_store_iff (format : WeightFormat Weight)
    (processor : PagePreProcessor Weight)
    (keys : ∀ entry ∈ processor.invertIndexTable.entries, space ∉ entry.1 ∧ newline ∉ entry.1)
    (plain : ∀ entry ∈ processor.invertIndexTable.entries,
      ∀ posting ∈ entry.2, PlainPosting format posting)
    (ordered : ∀ entry ∈ processor.invertIndexTable.entries,
      Ordered PagePreProcessor.postingLess entry.2) :
    (∃ loaded, initInvertIndex format (processor.store format) = .ok loaded ∧
        SamePrinted format loaded processor.invertIndexTable) ↔
      ∀ entry ∈ processor.invertIndexTable.entries, comma ∉ entry.1 ∧ entry.2 ≠ [] := by
  set table := processor.invertIndexTable
  have distinct : table.entries.NodupKeys := table.nodupKeys
  have isKey {entry : Sigma fun _ : Bytes => List (Posting Weight)} (listed : entry ∈ table.entries) :
      entry.1 ∈ table := AList.mem_keys.mpr (List.mem_keys_of_mem listed)
  rw [initInvertIndex_store processor keys plain]
  constructor
  · rintro ⟨loaded, ended, same⟩
    obtain rfl := Except.ok.inj ended
    intro entry listed
    obtain ⟨other, among, read, some⟩ :=
      (mem_readTable table.entries entry.1).mp ((same entry.1).1.mpr (isKey listed))
    have clean : comma ∉ other.1 := by
      obtain ⟨another, amongAnother, readAnother, _⟩ :=
        (mem_readTable table.entries other.1).mp ((same other.1).1.mpr (isKey among))
      rw [← readAnother]
      exact comma_notMem_withoutCommas another.1
    have equal : other = entry :=
      distinct.eq_of_fst_eq among listed ((withoutCommas_eq_iff.mpr clean).symm.trans read)
    rw [← equal]
    exact ⟨clean, some⟩
  · intro holds
    have clean : ∀ entry ∈ table.entries, comma ∉ entry.1 := fun entry listed =>
      (holds entry listed).1
    have sameKeys (key : Bytes) : key ∈ readTable format table.entries ↔ key ∈ table := by
      rw [mem_readTable]
      constructor
      · rintro ⟨entry, listed, rfl, _⟩
        rw [withoutCommas_eq_iff.mpr (clean entry listed)]
        exact isKey listed
      · intro member
        obtain ⟨postings, listed⟩ := List.exists_of_mem_keys (AList.mem_keys.mp member)
        exact ⟨_, listed, withoutCommas_eq_iff.mpr (clean _ listed), (holds _ listed).2⟩
    refine ⟨_, rfl, fun key => ⟨sameKeys key, fun printed => ?_⟩⟩
    by_cases member : key ∈ table
    · obtain ⟨postings, listed⟩ := List.exists_of_mem_keys (AList.mem_keys.mp member)
      rw [value_of_mem_entries listed]
      exact mem_printed_readTable distinct clean listed (plain _ listed) (ordered _ listed) printed
    · have absent : key ∉ readTable format table.entries := fun read => member ((sameKeys key).mp read)
      rw [value, value, AList.lookup_eq_none.mpr member, AList.lookup_eq_none.mpr absent]

/-! ### Whole weights -/

/-- The weights are whole numbers, and those below a million are printed with all their digits. -/
def wholeFormat : @WeightFormat Nat wholeNumbers :=
  letI := wholeNumbers
  have scanned (number : Nat) : Text.scanInt (Text.decimal number) = some (number : Int) :=
    Text.scanInt_decimal (List.forall_mem_nil _) number
  { print := Text.decimal
    stod := fun text => (orFault .invalidArgument (Text.scanInt text)).map Int.toNat
    IsDecimal := fun number => number < 1000000
    token := fun number _ => by
      have digits (byte : UInt8) (noDigit : Text.isDigit byte = false) :
          byte ∉ Text.decimal number := fun member =>
        absurd (Text.isDigit_of_mem_decimal member) (by simp [noDigit])
      exact ⟨digits space rfl, digits newline rfl, digits comma rfl⟩
    readBack := fun number _ => ⟨number, by rw [scanned]; rfl, rfl⟩
    apart := fun first second firstBack secondBack _ _ readFirst readSecond equal => by
      rw [scanned] at readFirst readSecond
      obtain rfl : first = firstBack := Except.ok.inj readFirst
      obtain rfl : second = secondBack := Except.ok.inj readSecond
      exact Or.inr equal }

/-- An index of two keywords. -/
theorem initInvertIndex_store_iff_sample :
    letI := wholeNumbers
    let table : InvertIndexTable Nat :=
      AList.insert [33] [⟨1, 3, 5⟩, ⟨2, 0, 7⟩] (AList.insert [63, 97] [⟨4, 1, 0⟩] ∅)
    ∃ loaded, initInvertIndex wholeFormat (PagePreProcessor.store wholeFormat ⟨table, ∅, ∅, ∅⟩) =
      .ok loaded ∧ SamePrinted wholeFormat loaded table := by
  let := wholeNumbers
  let table : InvertIndexTable Nat :=
    AList.insert [33] [⟨1, 3, 5⟩, ⟨2, 0, 7⟩] (AList.insert [63, 97] [⟨4, 1, 0⟩] ∅)
  have plain : ∀ entry ∈ table.entries, ∀ posting ∈ entry.2,
      (0 ≤ posting.id ∧ posting.id < 2 ^ 31) ∧ (0 ≤ posting.position ∧ posting.position < 2 ^ 31) ∧
        posting.weight < 1000000 := by decide
  have ordered : ∀ entry ∈ table.entries, entry.2.Pairwise fun first second =>
      PagePreProcessor.postingLess first second = true := by decide
  exact (initInvertIndex_store_iff wholeFormat ⟨table, ∅, ∅, ∅⟩ (by decide)
    (fun entry listed posting member =>
      let ⟨id, position, weight⟩ := plain entry listed posting member
      ⟨id, position, weight⟩) ordered).mpr (by decide)

/-- A posting of the keyword `,` is loaded under the empty keyword, and a keyword without postings is
not loaded. -/
theorem store_drops_comma :
    letI := wholeNumbers
    let comma : InvertIndexTable Nat := AList.insert [44] [⟨1, 1, 0⟩] ∅
    let empty : InvertIndexTable Nat := AList.insert [33] [] ∅
    (¬ ∃ loaded, initInvertIndex wholeFormat (PagePreProcessor.store wholeFormat ⟨comma, ∅, ∅, ∅⟩) =
        .ok loaded ∧ SamePrinted wholeFormat loaded comma) ∧
      ¬ ∃ loaded, initInvertIndex wholeFormat
        (PagePreProcessor.store wholeFormat ⟨empty, ∅, ∅, ∅⟩) = .ok loaded ∧
          SamePrinted wholeFormat loaded empty := by
  let := wholeNumbers
  refine ⟨?_, ?_⟩
  · rintro ⟨loaded, ended, same⟩
    obtain rfl := Except.ok.inj ended
    exact absurd ((same [44]).1.mpr (by decide)) (by decide)
  · rintro ⟨loaded, ended, same⟩
    obtain rfl := Except.ok.inj ended
    exact absurd ((same [33]).1.mpr (by decide)) (by decide)

end WebPageSearcher

end SearchEngine
