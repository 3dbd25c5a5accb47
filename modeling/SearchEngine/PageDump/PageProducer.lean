/-
This file models how `PageProducer` writes the page library, and how the server
reads the offsets of its pages.

`buildripepage` takes the tags out of the texts of an RSS item with a regular
expression. `store` writes each item into the page file between tags, and a line
with its id and its range into the offset file. `WebPageSearcher::initOffset`
reads these lines byte by byte. A position goes through `std::stoi` or
`std::stod`, and is kept as an `int`.
-/

import SearchEngine.Xml.Document
import SearchEngine.Library.Fuel
import SearchEngine.Library.Segments

namespace SearchEngine

open Containers Tinyxml2

/-! ### Items -/

/-- `RssItem` -/
structure RssItem where
  title : Bytes
  link : Bytes
  description : Bytes
deriving DecidableEq

/-- The texts of an item that are written. -/
def RssItem.fields (item : RssItem) : List Bytes := [item.title, item.link, item.description]

theorem RssItem.forall_fields {property : Bytes → Prop} (item : RssItem) :
    (∀ text ∈ item.fields, property text) ↔
      property item.title ∧ property item.link ∧ property item.description := by
  simp [RssItem.fields]

namespace PageProducer

/-- The characters that `.` does not match. -/
def isLineEnd (byte : UInt8) : Bool := byte == 10 || byte == 13

/-- What is behind the first `'>'`, where no line ends before it. -/
def behindTag : Bytes → Option Bytes
  | [] => none
  | byte :: text =>
    if byte = greaterThan then some text else if isLineEnd byte then none else behindTag text

/-- What is behind a match of `.+?\/?>`: a character, and then everything up to the first `'>'`. -/
def matchRest : Bytes → Option Bytes
  | [] => none
  | byte :: text => if isLineEnd byte then none else behindTag text

/-- What is behind a match of `<\/?.+?\/?>`, from behind its `'<'` on. The first `'/'` is matched by
`\/?` where the rest can be matched then, and by `.+?` otherwise. -/
def matchTag (text : Bytes) : Option Bytes :=
  if text.head? = some slash then (matchRest text.tail).orElse fun _ => matchRest text
  else matchRest text

/-- The loop of `regex_replace`, which reads at least one byte in a round. -/
def removeTagsLoop : Nat → Bytes → Bytes
  | 0, _ => []
  | _ + 1, [] => []
  | rounds + 1, byte :: text =>
    if byte = lessThan then
      match matchTag text with
      | some later => removeTagsLoop rounds later
      | none => byte :: removeTagsLoop rounds text
    else byte :: removeTagsLoop rounds text

/-- `regex_replace(text, reg, "")` of `PageProducer::buildripepage`. -/
def removeTags (text : Bytes) : Bytes := removeTagsLoop text.length text

/-- Nothing but what is up to a `'>'` is taken out, on one line. -/
theorem append_of_behindTag {text later : Bytes} (found : behindTag text = some later) :
    ∃ front, text = front ++ greaterThan :: later ∧ ∀ byte ∈ front, isLineEnd byte = false := by
  induction text with
  | nil => cases found
  | cons byte text inductionHypothesis =>
    rw [behindTag] at found
    split_ifs at found with ends broken
    · cases found
      exact ⟨[], by rw [ends]; rfl, List.forall_mem_nil _⟩
    · obtain ⟨front, rfl, unbroken⟩ := inductionHypothesis found
      refine ⟨byte :: front, rfl, List.forall_mem_cons.mpr ⟨?_, unbroken⟩⟩
      exact Bool.eq_false_of_not_eq_true broken

theorem append_of_matchRest {text later : Bytes} (found : matchRest text = some later) :
    ∃ front, text = front ++ greaterThan :: later ∧ front ≠ [] ∧
      ∀ byte ∈ front, isLineEnd byte = false := by
  cases text with
  | nil => cases found
  | cons byte text =>
    rw [matchRest] at found
    split_ifs at found with broken
    obtain ⟨front, rfl, unbroken⟩ := append_of_behindTag found
    refine ⟨byte :: front, rfl, List.cons_ne_nil _ _, List.forall_mem_cons.mpr ⟨?_, unbroken⟩⟩
    exact Bool.eq_false_of_not_eq_true broken

theorem append_of_matchTag {text later : Bytes} (found : matchTag text = some later) :
    ∃ front, text = front ++ greaterThan :: later ∧ front ≠ [] ∧
      ∀ byte ∈ front, isLineEnd byte = false := by
  rw [matchTag] at found
  split_ifs at found with closing
  · cases text with
    | nil => cases closing
    | cons first text =>
      cases inner : matchRest text with
      | none =>
        rw [List.tail_cons, inner] at found
        exact append_of_matchRest found
      | some behind =>
        rw [List.tail_cons, inner] at found
        cases found
        obtain ⟨front, rfl, -, unbroken⟩ := append_of_matchRest inner
        refine ⟨first :: front, rfl, List.cons_ne_nil _ _,
          List.forall_mem_cons.mpr ⟨?_, unbroken⟩⟩
        rw [Option.some.inj closing]
        rfl
  · exact append_of_matchRest found

/-- Every `'>'` stands behind the end of a line. -/
def Unended (text : Bytes) : Prop :=
  ∀ inner later, text = inner ++ greaterThan :: later → ∃ byte ∈ inner, isLineEnd byte = true

/-- Every `'>'`, other than the first character, stands behind the end of a line. -/
def Unmatched (text : Bytes) : Prop :=
  ∀ inner later, text = inner ++ greaterThan :: later →
    inner = [] ∨ ∃ byte ∈ inner, isLineEnd byte = true

theorem unended_of_cons {byte : UInt8} {text : Bytes} (unended : Unended (byte :: text))
    (same : isLineEnd byte = false) : Unended text := by
  rintro inner later rfl
  obtain ⟨other, member, ending⟩ := unended (byte :: inner) later rfl
  rcases List.mem_cons.mp member with rfl | among
  · rw [same] at ending
    cases ending
  · exact ⟨other, among, ending⟩

theorem unmatched_of_unended {text : Bytes} (unended : Unended text) (byte : UInt8) :
    Unmatched (byte :: text) := by
  intro inner later split
  cases inner with
  | nil => exact Or.inl rfl
  | cons first inner =>
    obtain ⟨other, member, ending⟩ := unended inner later (List.cons.inj split).2
    exact Or.inr ⟨other, List.mem_cons_of_mem _ member, ending⟩

theorem unended_of_behindTag {text : Bytes} (missing : behindTag text = none) : Unended text := by
  induction text with
  | nil =>
    intro inner later split
    simp at split
  | cons byte text inductionHypothesis =>
    rw [behindTag] at missing
    split_ifs at missing with ends broken
    · intro inner later split
      cases inner with
      | nil => exact absurd (List.cons.inj split).1 ends
      | cons first inner =>
        obtain ⟨rfl, -⟩ := List.cons.inj split
        exact ⟨byte, List.mem_cons_self, broken⟩
    · intro inner later split
      cases inner with
      | nil => exact absurd (List.cons.inj split).1 ends
      | cons first inner =>
        obtain ⟨other, member, ending⟩ :=
          inductionHypothesis missing inner later (List.cons.inj split).2
        exact ⟨other, List.mem_cons_of_mem _ member, ending⟩

/-- A `'<'` is left only where no tag begins. -/
theorem unmatched_of_matchTag {text : Bytes} (missing : matchTag text = none) : Unmatched text := by
  have rest : matchRest text = none := by
    rw [matchTag] at missing
    split_ifs at missing
    · cases inner : matchRest text.tail with
      | none =>
        rw [inner] at missing
        exact missing
      | some behind =>
        rw [inner] at missing
        cases missing
    · exact missing
  cases text with
  | nil =>
    intro inner later split
    simp at split
  | cons byte text =>
    rw [matchRest] at rest
    split_ifs at rest with broken
    · intro inner later split
      cases inner with
      | nil => exact Or.inl rfl
      | cons first inner =>
        obtain ⟨rfl, -⟩ := List.cons.inj split
        exact Or.inr ⟨byte, List.mem_cons_self, broken⟩
    · exact unmatched_of_unended (unended_of_behindTag rest) byte

theorem removeTagsLoop_succ {rounds : Nat} {text : Bytes} (enough : text.length ≤ rounds) :
    removeTagsLoop (rounds + 1) text = removeTagsLoop rounds text := by
  induction rounds generalizing text with
  | zero =>
    obtain rfl : text = [] := List.length_eq_zero_iff.mp (Nat.le_zero.mp enough)
    rfl
  | succ rounds inductionHypothesis =>
    cases text with
    | nil => rfl
    | cons byte text =>
      rw [List.length_cons, Nat.add_le_add_iff_right] at enough
      rw [removeTagsLoop, removeTagsLoop, inductionHypothesis enough]
      cases found : matchTag text with
      | none => rfl
      | some later =>
        obtain ⟨front, rfl, -, -⟩ := append_of_matchTag found
        rw [List.length_append, List.length_cons] at enough
        have inside : later.length ≤ rounds := by omega
        dsimp only
        rw [inductionHypothesis inside]

/-- The removal has enough rounds. -/
theorem removeTagsLoop_eq {rounds : Nat} {text : Bytes} (enough : text.length ≤ rounds) :
    removeTagsLoop rounds text = removeTags text :=
  Fuel.eq_of_enough removeTagsLoop List.length (fun _ _ enough => removeTagsLoop_succ enough) enough

/-- A text that the tag removal can leave, without control characters. -/
structure Stripped (text : Bytes) : Prop where
  left : ∃ raw, removeTags raw = text
  printable : ∀ byte ∈ text, 32 ≤ byte

/-- Behind a `'<'` that is left, a `'>'` stands at most right behind it. -/
def Unclosed (text : Bytes) : Prop :=
  ∀ before behind, text = before ++ lessThan :: behind → greaterThan ∉ behind.tail

theorem Unclosed.of_suffix {text later : Bytes} (unclosed : Unclosed text)
    (suffix : later <:+ text) : Unclosed later := by
  obtain ⟨first, rfl⟩ := suffix
  rintro before behind rfl
  exact unclosed (first ++ before) behind (by rw [List.append_assoc])

/-- Removal brings no `'>'` in front of the end of a line. -/
theorem unended_removeTagsLoop (rounds : Nat) {text : Bytes} (unended : Unended text) :
    Unended (removeTagsLoop rounds text) := by
  induction rounds generalizing text with
  | zero =>
    intro inner later split
    simp [removeTagsLoop] at split
  | succ rounds inductionHypothesis =>
    cases text with
    | nil => exact unended
    | cons byte text =>
      have kept : Unended (byte :: removeTagsLoop rounds text) := by
        intro inner later split
        cases inner with
        | nil =>
          obtain ⟨rfl, -⟩ := List.cons.inj split
          obtain ⟨other, member, -⟩ := unended [] text rfl
          cases member
        | cons first inner =>
          obtain ⟨rfl, rest⟩ := List.cons.inj split
          cases ending : isLineEnd byte with
          | true => exact ⟨byte, List.mem_cons_self, ending⟩
          | false =>
            obtain ⟨other, member, ends⟩ :=
              inductionHypothesis (unended_of_cons unended ending) inner later rest
            exact ⟨other, List.mem_cons_of_mem _ member, ends⟩
      rw [removeTagsLoop]
      split_ifs with begins
      · cases found : matchTag text with
        | none => exact kept
        | some later =>
          obtain ⟨front, rfl, -, unbroken⟩ := append_of_matchTag found
          obtain ⟨other, member, ending⟩ := unended (byte :: front) later rfl
          rcases List.mem_cons.mp member with rfl | among
          · rw [begins] at ending
            cases ending
          · rw [unbroken other among] at ending
            cases ending
      · exact kept

theorem unmatched_removeTagsLoop (rounds : Nat) {text : Bytes} (unmatched : Unmatched text) :
    Unmatched (removeTagsLoop rounds text) := by
  cases rounds with
  | zero =>
    intro inner later split
    simp [removeTagsLoop] at split
  | succ rounds =>
    cases text with
    | nil => exact unmatched
    | cons byte text =>
      have kept : Unmatched (byte :: removeTagsLoop rounds text) := by
        cases ending : isLineEnd byte with
        | true =>
          intro inner later split
          cases inner with
          | nil => exact Or.inl rfl
          | cons first inner =>
            obtain ⟨rfl, -⟩ := List.cons.inj split
            exact Or.inr ⟨byte, List.mem_cons_self, ending⟩
        | false =>
          refine unmatched_of_unended (unended_removeTagsLoop rounds ?_) byte
          rintro inner later rfl
          rcases unmatched (byte :: inner) later rfl with empty | ⟨other, member, ends⟩
          · cases empty
          · rcases List.mem_cons.mp member with rfl | among
            · rw [ending] at ends
              cases ends
            · exact ⟨other, among, ends⟩
      rw [removeTagsLoop]
      split_ifs with begins
      · cases found : matchTag text with
        | none => exact kept
        | some later =>
          obtain ⟨front, rfl, -, unbroken⟩ := append_of_matchTag found
          rcases unmatched (byte :: front) later rfl with empty | ⟨other, member, ending⟩
          · cases empty
          · rcases List.mem_cons.mp member with rfl | among
            · rw [begins] at ending
              cases ending
            · rw [unbroken other among] at ending
              cases ending
      · exact kept

/-- No tag is left: behind a `'<'`, there is no `'>'` on its line other than right behind it. -/
def Untagged (text : Bytes) : Prop :=
  ∀ before behind, text = before ++ lessThan :: behind → Unmatched behind

theorem untagged_removeTagsLoop (rounds : Nat) (text : Bytes) :
    Untagged (removeTagsLoop rounds text) := by
  induction rounds generalizing text with
  | zero => exact fun before behind split => absurd split (by simp [removeTagsLoop])
  | succ rounds inductionHypothesis =>
    cases text with
    | nil => exact fun before behind split => absurd split (by simp [removeTagsLoop])
    | cons byte text =>
      rw [removeTagsLoop]
      split_ifs with begins
      · cases found : matchTag text with
        | some later => exact inductionHypothesis later
        | none =>
          rintro before behind split
          cases before with
          | nil =>
            obtain ⟨-, rfl⟩ := List.cons.inj split
            exact unmatched_removeTagsLoop rounds (unmatched_of_matchTag found)
          | cons first before =>
            exact inductionHypothesis text before behind (List.cons.inj split).2
      · rintro before behind split
        cases before with
        | nil => exact absurd (List.cons.inj split).1 begins
        | cons first before =>
          exact inductionHypothesis text before behind (List.cons.inj split).2

/-- The removal leaves no tag. -/
theorem untagged_removeTags (text : Bytes) : Untagged (removeTags text) :=
  untagged_removeTagsLoop _ text

theorem isLineEnd_of_printable {byte : UInt8} (printable : 32 ≤ byte) : isLineEnd byte = false := by
  rw [isLineEnd, Bool.or_eq_false_iff, beq_eq_false_iff_ne, beq_eq_false_iff_ne]
  constructor
  · rintro rfl
    exact absurd printable (by decide)
  · rintro rfl
    exact absurd printable (by decide)

theorem Stripped.unclosed {text : Bytes} (stripped : Stripped text) : Unclosed text := by
  obtain ⟨⟨raw, rfl⟩, printable⟩ := stripped
  intro before behind split member
  have unmatched := untagged_removeTags raw before behind split
  obtain ⟨byte, rest, rfl⟩ := List.exists_cons_of_ne_nil (l := behind) (by
    rintro rfl
    cases member)
  obtain ⟨inner, later, rfl⟩ := List.append_of_mem member
  rcases unmatched (byte :: inner) later rfl with empty | ⟨other, among, ending⟩
  · cases empty
  · have inside : other ∈ removeTags raw := by
      rw [split]
      exact List.mem_append_right _ (List.mem_cons_of_mem _ (List.mem_append_left _ among))
    rw [isLineEnd_of_printable (printable other inside)] at ending
    cases ending

/-! ### Writing -/

/-- What `PageProducer::store` writes of an item into the page file. -/
def page (id : Nat) (item : RssItem) : Bytes :=
  ascii "<doc>\n" ++ ascii "\t<docid>" ++ Text.decimal id ++ ascii "</docid>\n" ++
    ascii "\t<title>" ++ item.title ++ ascii "</title>\n" ++
    ascii "\t<link>" ++ item.link ++ ascii "</link>\n" ++
    ascii "\t<description>" ++ item.description ++ ascii "</description>\n" ++ ascii "</doc>\n"

/-- `Offset` -/
structure Offset where
  idx : Nat
  startPos : Nat
  endPos : Nat
deriving DecidableEq

/-- The first loop of `PageProducer::store`, with what the page file holds. -/
def storeLoop : Nat → Bytes → List RssItem → Bytes × List Offset
  | _, ofs, [] => (ofs, [])
  | i, ofs, item :: rss =>
    let stored := ofs ++ page (i + 1) item
    let (file, offset) := storeLoop (i + 1) stored rss
    (file, ⟨i + 1, ofs.length, stored.length⟩ :: offset)

/-- What the second loop of `PageProducer::store` writes of an offset, without the line end. -/
def offsetLine (offset : Offset) : Bytes :=
  Text.decimal offset.idx ++ [space] ++ Text.decimal offset.startPos ++ [space] ++
    Text.decimal offset.endPos ++ [space]

/-- The pages of items one after the other, the first of which has an index. -/
def written : Nat → List RssItem → Bytes
  | _, [] => []
  | i, item :: rss => page (i + 1) item ++ written (i + 1) rss

/-- Where the page with an index begins, and the one before it ends. -/
def position (rss : List RssItem) (i : Nat) : Nat := (written 0 (rss.take i)).length

/-- `PageProducer::store`: the page file and the offset file. -/
def store (rss : List RssItem) : Bytes × Bytes :=
  let (file, offset) := storeLoop 0 [] rss
  (file, offset.flatMap fun entry => offsetLine entry ++ [newline])

theorem storeLoop_fst (i : Nat) (ofs : Bytes) (rss : List RssItem) :
    (storeLoop i ofs rss).1 = ofs ++ written i rss := by
  induction rss generalizing i ofs with
  | nil => rw [storeLoop, written, List.append_nil]
  | cons item rss inductionHypothesis =>
    rw [storeLoop, written, ← List.append_assoc]
    exact inductionHypothesis (i + 1) _

/-- The offsets that the loop collects. -/
theorem storeLoop_snd (i : Nat) (ofs : Bytes) (rss : List RssItem) (k : Nat) :
    (storeLoop i ofs rss).2[k]? = rss[k]?.map fun _ =>
      ⟨i + k + 1, ofs.length + (written i (rss.take k)).length,
        ofs.length + (written i (rss.take (k + 1))).length⟩ := by
  induction rss generalizing i ofs k with
  | nil => rfl
  | cons item rss inductionHypothesis =>
    rw [storeLoop]
    cases k with
    | zero => simp [written]
    | succ k =>
      have rest := inductionHypothesis (i + 1) (ofs ++ page (i + 1) item) k
      simp only [List.getElem?_cons_succ, rest, List.take_succ_cons, written, List.length_append,
        Nat.add_assoc, Nat.add_comm 1]

/-- What `store` puts into `_offset`. -/
def offsets (rss : List RssItem) : List Offset := (storeLoop 0 [] rss).2

theorem offsets_getElem? (rss : List RssItem) (k : Nat) :
    (offsets rss)[k]? = rss[k]?.map fun _ => ⟨k + 1, position rss k, position rss (k + 1)⟩ := by
  rw [offsets, storeLoop_snd]
  simp only [Nat.zero_add, List.length_nil]
  rfl

theorem map_idx_storeLoop (i : Nat) (ofs : Bytes) (rss : List RssItem) :
    (storeLoop i ofs rss).2.map Offset.idx = List.range' (i + 1) rss.length := by
  induction rss generalizing i ofs with
  | nil => rfl
  | cons item rss inductionHypothesis =>
    rw [storeLoop, List.length_cons, List.range'_succ]
    exact congrArg (List.cons (i + 1)) (inductionHypothesis (i + 1) _)

theorem nodup_idx_offsets (rss : List RssItem) : ((offsets rss).map Offset.idx).Nodup := by
  rw [offsets, map_idx_storeLoop]
  exact List.nodup_range'

/-- The pages of the page file. -/
def pages (rss : List RssItem) : List Bytes := rss.mapIdx fun i item => page (i + 1) item

@[simp] theorem length_pages (rss : List RssItem) : (pages rss).length = rss.length :=
  List.length_mapIdx

theorem pages_getElem? (rss : List RssItem) (i : Nat) :
    (pages rss)[i]? = rss[i]?.map (page (i + 1)) :=
  List.getElem?_mapIdx

theorem listed_pages {rss : List RssItem} {i : Nat} {item : RssItem}
    (stored : rss[i]? = some item) :
    (pages rss)[i]? = some (page (i + 1) item) := by
  rw [pages_getElem?, stored, Option.map_some]

theorem written_eq_flatten (i : Nat) (rss : List RssItem) :
    written i rss = (rss.mapIdx fun k item => page (i + k + 1) item).flatten := by
  induction rss generalizing i with
  | nil => rfl
  | cons item rss inductionHypothesis =>
    have later (k : Nat) : i + 1 + k = i + (k + 1) := by omega
    rw [written, inductionHypothesis, List.mapIdx_cons, List.flatten_cons]
    simp only [later, Nat.add_zero]

theorem written_zero (rss : List RssItem) : written 0 rss = (pages rss).flatten := by
  rw [written_eq_flatten, pages]
  simp only [Nat.zero_add]

/-- The page file is the pages. -/
theorem store_fst (rss : List RssItem) : (store rss).1 = (pages rss).flatten := by
  have file : (store rss).1 = written 0 rss := storeLoop_fst 0 [] rss
  rw [file, written_zero]

/-- A position is where a page starts. -/
theorem position_eq_start (rss : List RssItem) (i : Nat) :
    position rss i = Segments.start (pages rss) i := by
  have taken : pages (rss.take i) = (pages rss).take i := by
    refine List.ext_getElem? fun k => ?_
    rw [pages_getElem?, List.getElem?_take, List.getElem?_take, pages_getElem?]
    split_ifs <;> rfl
  rw [position, written_zero, taken, Segments.start]

/-- A page stands at its position. -/
theorem drop_position {rss : List RssItem} {i : Nat} {item : RssItem}
    (stored : rss[i]? = some item) :
    ∃ rest, (store rss).1.drop (position rss i) = page (i + 1) item ++ rest := by
  rw [store_fst, position_eq_start]
  exact ⟨_, Segments.drop_start (listed_pages stored)⟩

theorem position_succ {rss : List RssItem} {i : Nat} {item : RssItem}
    (stored : rss[i]? = some item) :
    position rss (i + 1) = position rss i + (page (i + 1) item).length := by
  rw [position_eq_start, position_eq_start, Segments.start_succ (listed_pages stored)]

/-- Pages take up more bytes than they have numbers. -/
theorem le_position {rss : List RssItem} {i : Nat} (inside : i ≤ rss.length) :
    2 * i ≤ position rss i := by
  induction i with
  | zero => exact Nat.zero_le _
  | succ i inductionHypothesis =>
    have stored : rss[i]? = some rss[i] := List.getElem?_eq_getElem inside
    have nonempty : 2 ≤ (page (i + 1) rss[i]).length := by
      rw [page]
      simp only [List.append_assoc, List.length_append]
      exact Nat.le_add_right_of_le (by decide)
    rw [position_succ stored, Nat.mul_succ]
    exact Nat.add_le_add (inductionHypothesis (Nat.le_of_succ_le inside)) nonempty

theorem newline_notMem_offsetLine (entry : Offset) : newline ∉ offsetLine entry := by
  have digits (number : Nat) : newline ∉ Text.decimal number :=
    fun member => absurd (Text.isDigit_of_mem_decimal member) (by decide)
  have notSpace : newline ≠ space := by decide
  simp [offsetLine, digits, notSpace]

end PageProducer

/-! ### Reading the offsets -/

/-- The `double` next to a natural number, ties to even. -/
def nearestDouble (number : Nat) : Nat :=
  let unit := 2 ^ (Nat.log2 number - 52)
  let quotient := number / unit
  let rest := number % unit
  if 2 * rest < unit ∨ 2 * rest = unit ∧ quotient % 2 = 0 then quotient * unit
  else (quotient + 1) * unit

/-- `std::stod` of a text without a fraction or an exponent, as a `size_t`. -/
def stodSize (text : Bytes) : Except Fault Nat := do
  let value ← orFault .invalidArgument (Text.scanInt text)
  return nearestDouble value.toNat

/-- The local variables of the loop over the bytes of a line. -/
structure OffsetReader where
  idFlag : Bool
  begFlag : Bool
  id : Int
  begPos : Int
  endPos : Nat
  tmp : Bytes

namespace WebPageSearcher

/-- The local variables at the start of a line. -/
def offsetStart : OffsetReader := ⟨false, false, 0, 0, 0, []⟩

/-- The loop over the bytes of a line, which ends with the third number. -/
def initOffsetInner : Bytes → OffsetReader → Except Fault OffsetReader
  | [], reader => .ok reader
  | byte :: line, reader =>
    if byte = space then
      if reader.idFlag = false then do
        let id ← stoi reader.tmp
        initOffsetInner line { reader with id, tmp := [], idFlag := true }
      else if reader.begFlag = false then do
        let begPos ← stoi reader.tmp
        initOffsetInner line { reader with begPos, tmp := [], begFlag := true }
      else do
        let endPos ← stodSize reader.tmp
        return { reader with endPos, tmp := [] }
    else initOffsetInner line { reader with tmp := reader.tmp ++ [byte] }

/-- The loop over the lines, which an empty line ends. -/
def initOffsetLoop :
    List Bytes → (AList fun _ : Int => Int × Int) → Except Fault (AList fun _ : Int => Int × Int)
  | [], offset => .ok offset
  | line :: lines, offset =>
    if line.length = 0 then .ok offset
    else do
      let reader ← initOffsetInner line offsetStart
      initOffsetLoop lines (offset.insert reader.id (reader.begPos, toInt reader.endPos))

/-- `WebPageSearcher::initOffset`, on the content of the file. -/
def initOffset (file : Bytes) : Except Fault (AList fun _ : Int => Int × Int) :=
  initOffsetLoop (Text.lines newline file) ∅

/-- A number is collected in `tmp`. -/
theorem offset_token {token : Bytes} (unbroken : space ∉ token) (rest : Bytes)
    (reader : OffsetReader) :
    initOffsetInner (token ++ rest) reader =
      initOffsetInner rest { reader with tmp := reader.tmp ++ token } := by
  induction token generalizing reader with
  | nil => rw [List.nil_append, List.append_nil]
  | cons byte token inductionHypothesis =>
    rw [List.mem_cons, not_or] at unbroken
    rw [List.cons_append, initOffsetInner, if_neg (Ne.symm unbroken.1),
      inductionHypothesis unbroken.2, List.append_assoc, List.singleton_append]

theorem space_notMem_decimal (number : Nat) : space ∉ Text.decimal number :=
  fun member => absurd (Text.isDigit_of_mem_decimal member) (by decide)

theorem stoi_decimal (number : Nat) :
    stoi (Text.decimal number) = if number < 2 ^ 31 then .ok number else .error .outOfRange := by
  have scanned : Text.scanInt (Text.decimal number) = some (number : Int) :=
    Text.scanInt_decimal (List.forall_mem_nil _) number
  split_ifs with small
  · exact stoi_eq_ok scanned (by omega) (by omega)
  · have outside : ¬ (-2 ^ 31 ≤ (number : Int) ∧ (number : Int) < 2 ^ 31) := by omega
    rw [stoi, scanned, orFault_some, ok_bind, if_neg outside]

theorem nearestDouble_of_lt {number : Nat} (small : number < 2 ^ 53) :
    nearestDouble number = number := by
  have exact : Nat.log2 number - 52 = 0 := by
    by_cases zero : number = 0
    · rw [zero]
      rfl
    · have bounded := (Nat.log2_lt zero).mpr small
      omega
  rw [nearestDouble, exact]
  simp [Nat.mod_one]

theorem stodSize_decimal (number : Nat) :
    stodSize (Text.decimal number) = .ok (nearestDouble number) := by
  have scanned : Text.scanInt (Text.decimal number) = some (number : Int) :=
    Text.scanInt_decimal (List.forall_mem_nil _) number
  rw [stodSize, scanned]
  rfl

/-- What is kept of an offset. -/
def kept (entry : PageProducer.Offset) : Int × Int :=
  (entry.startPos, toInt (nearestDouble entry.endPos))

/-- The space behind the id. -/
theorem offset_id (rest tmp : Bytes) :
    initOffsetInner (space :: rest) ⟨false, false, 0, 0, 0, tmp⟩ =
      stoi tmp >>= fun id => initOffsetInner rest ⟨true, false, id, 0, 0, []⟩ := rfl

/-- The space behind the first position. -/
theorem offset_begPos (rest tmp : Bytes) (id : Int) :
    initOffsetInner (space :: rest) ⟨true, false, id, 0, 0, tmp⟩ =
      stoi tmp >>= fun begPos => initOffsetInner rest ⟨true, true, id, begPos, 0, []⟩ := rfl

/-- The space behind the second position. -/
theorem offset_endPos (rest tmp : Bytes) (id begPos : Int) :
    initOffsetInner (space :: rest) ⟨true, true, id, begPos, 0, tmp⟩ =
      stodSize tmp >>= fun endPos => .ok ⟨true, true, id, begPos, endPos, []⟩ := rfl

/-- The line of an offset is read where its numbers fit into an `int`. -/
theorem initOffsetInner_offsetLine (entry : PageProducer.Offset) :
    initOffsetInner (PageProducer.offsetLine entry) offsetStart =
      if entry.idx < 2 ^ 31 ∧ entry.startPos < 2 ^ 31 then
        .ok ⟨true, true, entry.idx, entry.startPos, nearestDouble entry.endPos, []⟩
      else .error .outOfRange := by
  have line : PageProducer.offsetLine entry = Text.decimal entry.idx ++ space ::
      (Text.decimal entry.startPos ++ space :: (Text.decimal entry.endPos ++ [space])) := by
    simp [PageProducer.offsetLine]
  rw [line, offset_token (space_notMem_decimal _)]
  refine (offset_id _ _).trans ?_
  rw [offsetStart, List.nil_append, stoi_decimal]
  by_cases idx : entry.idx < 2 ^ 31
  · rw [if_pos idx, ok_bind, offset_token (space_notMem_decimal _), offset_begPos,
      List.nil_append, stoi_decimal]
    by_cases startPos : entry.startPos < 2 ^ 31
    · rw [if_pos startPos, ok_bind, offset_token (space_notMem_decimal _), offset_endPos,
        List.nil_append, stodSize_decimal, ok_bind, if_pos ⟨idx, startPos⟩]
    · rw [if_neg startPos, error_bind, if_neg fun both => startPos both.2]
  · rw [if_neg idx, error_bind, if_neg fun both => idx both.1]

/-- `_offset` behind the lines of offsets. -/
def insertOffsets (entries : List PageProducer.Offset) (offset : AList fun _ : Int => Int × Int) :
    AList fun _ : Int => Int × Int :=
  entries.foldl (fun offset entry => offset.insert entry.idx (kept entry)) offset

theorem initOffsetLoop_offsetLines (entries : List PageProducer.Offset)
    (offset result : AList fun _ : Int => Int × Int) :
    initOffsetLoop (entries.map PageProducer.offsetLine) offset = .ok result ↔
      (∀ entry ∈ entries, entry.idx < 2 ^ 31 ∧ entry.startPos < 2 ^ 31) ∧
        result = insertOffsets entries offset := by
  induction entries generalizing offset with
  | nil =>
    rw [List.map_nil, initOffsetLoop]
    constructor
    · intro ended
      exact ⟨List.forall_mem_nil _, (Except.ok.inj ended).symm⟩
    · rintro ⟨-, rfl⟩
      rfl
  | cons entry entries inductionHypothesis =>
    have nonempty : (PageProducer.offsetLine entry).length ≠ 0 := by
      simp [PageProducer.offsetLine]
    rw [List.map_cons, initOffsetLoop, if_neg nonempty, initOffsetInner_offsetLine,
      List.forall_mem_cons]
    by_cases fits : entry.idx < 2 ^ 31 ∧ entry.startPos < 2 ^ 31
    · rw [if_pos fits, ok_bind, inductionHypothesis, and_iff_right fits]
      rfl
    · rw [if_neg fits, error_bind]
      exact iff_of_false (by simp) fun both => fits both.1.1

theorem value_insertOffsets_of_notMem {entries : List PageProducer.Offset} {key : Int}
    (absent : ∀ entry ∈ entries, (entry.idx : Int) ≠ key)
    (offset : AList fun _ : Int => Int × Int) :
    value (insertOffsets entries offset) key = value offset key := by
  induction entries generalizing offset with
  | nil => rfl
  | cons entry entries inductionHypothesis =>
    obtain ⟨different, rest⟩ := List.forall_mem_cons.mp absent
    refine (inductionHypothesis rest _).trans ?_
    rw [value_insert, if_neg (Ne.symm different)]

/-- Every offset is found under its id. -/
theorem value_insertOffsets {entries : List PageProducer.Offset}
    (distinct : (entries.map PageProducer.Offset.idx).Nodup) {entry : PageProducer.Offset}
    (member : entry ∈ entries) (offset : AList fun _ : Int => Int × Int) :
    value (insertOffsets entries offset) entry.idx = kept entry := by
  induction entries generalizing offset with
  | nil => cases member
  | cons first entries inductionHypothesis =>
    rw [List.map_cons, List.nodup_cons] at distinct
    rcases List.mem_cons.mp member with rfl | later
    · have absent : ∀ other ∈ entries, (other.idx : Int) ≠ entry.idx := fun other listed same =>
        distinct.1 (List.mem_map.mpr ⟨other, listed, Int.ofNat_inj.mp same⟩)
      show value (insertOffsets entries (offset.insert entry.idx (kept entry))) entry.idx = _
      rw [value_insertOffsets_of_notMem absent, value_insert, if_pos rfl]
    · exact inductionHypothesis distinct.2 later _

/-- The offset file is read where every page begins within the range of `int`. -/
theorem initOffset_store (rss : List RssItem) (result : AList fun _ : Int => Int × Int) :
    initOffset (PageProducer.store rss).2 = .ok result ↔
      (∀ i < rss.length, PageProducer.position rss i < 2 ^ 31) ∧
        result = insertOffsets (PageProducer.offsets rss) ∅ := by
  have lines : Text.lines newline (PageProducer.store rss).2 =
      (PageProducer.offsets rss).map PageProducer.offsetLine := by
    have file : (PageProducer.store rss).2 =
        ((PageProducer.offsets rss).map PageProducer.offsetLine).flatMap
          fun line => line ++ [newline] := by
      rw [List.flatMap_map]
      rfl
    rw [file]
    refine Text.lines_flatMap fun line listed => ?_
    obtain ⟨entry, -, rfl⟩ := List.mem_map.mp listed
    exact PageProducer.newline_notMem_offsetLine entry
  rw [initOffset, lines, initOffsetLoop_offsetLines]
  refine and_congr_left fun _ => ⟨fun fits i inside => ?_, fun fits entry listed => ?_⟩
  · have found := PageProducer.offsets_getElem? rss i
    rw [List.getElem?_eq_getElem inside, Option.map_some] at found
    exact (fits _ (List.mem_of_getElem? found)).2
  · obtain ⟨i, found⟩ := List.getElem?_of_mem listed
    rw [PageProducer.offsets_getElem?] at found
    obtain ⟨item, stored, rfl⟩ := Option.map_eq_some_iff.mp found
    obtain ⟨inside, -⟩ := List.getElem?_eq_some_iff.mp stored
    have start := fits i inside
    have index := PageProducer.le_position inside.le
    refine ⟨?_, start⟩
    dsimp only
    omega

/-- What is kept of the offset of a page. -/
theorem value_offsets {rss : List RssItem} {i : Nat} (inside : i < rss.length) :
    value (insertOffsets (PageProducer.offsets rss) ∅) ((i + 1 : Nat) : Int) =
      ((PageProducer.position rss i : Int),
        toInt (nearestDouble (PageProducer.position rss (i + 1)))) := by
  have found := PageProducer.offsets_getElem? rss i
  rw [List.getElem?_eq_getElem inside, Option.map_some] at found
  exact value_insertOffsets (PageProducer.nodup_idx_offsets rss) (List.mem_of_getElem? found) ∅

end WebPageSearcher

end SearchEngine
