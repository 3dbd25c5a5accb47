/-
This file puts the segmenter under the index: `SplitTool::cut`, and the index
`invertProcess` builds with it.

What was asked of the segmenter so far, that it concatenates to the text, now
follows for every dictionary and every model, and more with it. In the index of
valid descriptions every posting points at a place between two characters where
its word stands, so the window that is cut there when the word is searched for
is well formed, too.
-/

import SearchEngine.PageDump.InvertedIndex
import SearchEngine.Searcher.SnippetWindows
import SearchEngine.Segmenter.MixSegment

namespace SearchEngine

open Containers Arithmetic Utf8 Cppjieba

/-- What `SplitTool::cut` loads: the dictionary and the model. -/
structure SplitTool (Number : Type) where
  dictTrie : DictTrie Number
  model : HMMModel Number

namespace SplitTool

variable {Number : Type} [LogArithmetic Number] (tool : SplitTool Number)

/-- `SplitTool::cut` -/
def cut (str : Bytes) : Except Fault (List Bytes) :=
  MixSegment.cut tool.dictTrie tool.model specialSymbols true str

/-- The words of a text; the segmenter does not fail. -/
def words (str : Bytes) : List Bytes := (tool.cut str).toOption.getD []

theorem cut_eq_ok (str : Bytes) : tool.cut str = .ok (tool.words str) := by
  obtain ⟨words, ended⟩ := MixSegment.exists_cut tool.dictTrie tool.model specialSymbols true str
  have ended : tool.cut str = .ok words := ended
  rw [SplitTool.words, ended]
  rfl

/-- The words of a valid text are valid, and together they are the text. -/
theorem words_valid {str : Bytes} (valid : Valid str) :
    (tool.words str).flatten = str ∧ ∀ word ∈ tool.words str, word ≠ [] ∧ Valid word := by
  obtain ⟨words, ended, partition⟩ :=
    MixSegment.cut_valid tool.dictTrie tool.model specialSymbols true valid
  have same : tool.words str = words := Except.ok.inj ((tool.cut_eq_ok str).symm.trans ended)
  rw [same]
  exact partition

theorem valid_flatten {words : List Bytes} (valid : ∀ word ∈ words, Valid word) :
    Valid words.flatten := by
  induction words with
  | nil => exact ⟨[], rfl⟩
  | cons word words inductionHypothesis =>
    rw [List.flatten_cons]
    exact (valid word List.mem_cons_self).append
      (inductionHypothesis fun other member => valid other (List.mem_cons_of_mem _ member))

end SplitTool

/-- A segmenter without words in its dictionary, which cuts a text into characters. -/
def plainTool : SplitTool Int :=
  letI := integers
  ⟨.ofUnits [] 0 [], ⟨fun _ => 0, fun _ _ => 0, fun _ _ => none⟩⟩

/-- `"好"` -/
def good : Bytes := [229, 165, 189]

/-- `"人"` -/
def person : Bytes := [228, 186, 186]

/-! ### The index -/

/-- A word of a list has a last occurrence. -/
theorem exists_lastOccurrence {tokens : List Bytes} {word : Bytes} (member : word ∈ tokens) :
    ∃ offset, LastOccurrence tokens word offset := by
  obtain ⟨after, before, split, absent⟩ :=
    List.eq_append_cons_of_mem (List.mem_reverse.mpr member)
  have tokens_eq := congrArg List.reverse split
  rw [List.reverse_reverse, List.reverse_append, List.reverse_cons, List.append_assoc,
    List.singleton_append] at tokens_eq
  exact ⟨_, before.reverse, after.reverse, tokens_eq, mt List.mem_reverse.mp absent, rfl⟩

namespace PagePreProcessor

variable {Number Weight : Type} [LogArithmetic Number] [Arithmetic Weight]

/-- A posting points at its word: the word stands at the position in the description, between two
characters, and the window that is cut around the position is valid and has the whole word if this
is not longer than 30 bytes. -/
structure PointsAt (letters : List Char) (word : Bytes) (position : Int) : Prop where
  stored : 0 ≤ position ∧ position < 2 ^ 31
  boundary : Boundary letters position.toNat
  occurs : word <+: (encode letters).drop position.toNat
  window : WindowAround letters position.toNat
    (byteRange (encode letters) (UInt64.ofInt position))
  shows : ∃ window, snippet (encode letters) (UInt64.ofInt position) = .ok window ∧
    Valid window ∧ (word.length ≤ 30 → word <:+: window)

/-- A word that stands between the ends of a window is in it. -/
theorem infix_of_window {text word : Bytes} {first position last : Nat}
    (occurs : word <+: text.drop position) (before : first ≤ position)
    (behind : position + word.length ≤ last) : word <:+: (text.take last).drop first := by
  have stands : Segments.between text position (position + word.length) = word := by
    rw [Segments.between, Nat.add_sub_cancel_left]
    exact (List.prefix_iff_eq_take.mp occurs).symm
  have window : (text.take last).drop first = Segments.between text first last :=
    List.drop_take ..
  rw [window, ← Segments.between_append text before (by omega),
    ← Segments.between_append text (Nat.le_add_right position word.length) behind, stands]
  exact ⟨_, _, List.append_assoc ..⟩

/-- A word of a description of less than 2^31 bytes that stands between two characters. -/
theorem pointsAt_of_split {letters : List Char} {front word back : Bytes}
    (split : encode letters = front ++ (word ++ back)) (frontValid : Valid front)
    (backValid : Valid (word ++ back)) (nonempty : word ≠ [])
    (short : (encode letters).length < 2 ^ 31) :
    PointsAt letters word front.length := by
  have positive := List.length_pos_iff.mpr nonempty
  have size := congrArg List.length split
  rw [List.length_append, List.length_append] at size
  have stored : 0 ≤ (front.length : Int) ∧ (front.length : Int) < 2 ^ 31 := by omega
  have same := toNat_ofInt stored
  rw [Int.toNat_natCast] at same
  have fits : (UInt64.ofInt front.length).toNat + 30 < 2 ^ 64 := by omega
  have around := (@byteRange_windowAround letters) fits (by omega)
  have copied : snippet (encode letters) (UInt64.ofInt front.length) =
      .ok (((encode letters).take (byteRange (encode letters) (UInt64.ofInt front.length)).2).drop
        (byteRange (encode letters) (UInt64.ofInt front.length)).1) := by
    rw [snippet_eq, if_pos (Or.inr (around.inside.trans (Nat.le_succ _))),
      List.take_append_of_le_length around.inside]
  have occurs : word <+: (encode letters).drop front.length := by
    rw [split, List.drop_left]
    exact List.prefix_append _ _
  obtain ⟨-, -, far⟩ := getD_firstStop_encode letters (front.length + 30)
  rw [same] at around
  refine ⟨stored, ?_, occurs, around, _, copied, valid_snippet ⟨letters, rfl⟩ copied, ?_⟩
  · exact boundary_of_append split frontValid backValid
  · intro narrow
    refine infix_of_window occurs around.contains.1 ?_
    rw [byteRange_eq]
    dsimp only
    rw [toNat_add_thirty fits, same]
    omega

/-- In the index of documents with different ids and valid descriptions shorter than 2^31 bytes, a
word has exactly one posting for every document it is an indexed word of, and the posting points at
the word in the description of its document. -/
theorem invertProcess_pointsAt (tool : SplitTool Number) {stopFile : Bytes}
    {stopWords : List Bytes} (stops : readStopWords stopFile = .ok stopWords)
    {docs : List DocElement} {documents : List Document}
    (reads : List.Forall₂ DocElement.Reads docs documents)
    (distinct : (documents.map Document.id).Nodup)
    (valid : ∀ document ∈ documents, ∀ content, document.description = some content →
      Valid content)
    (short : ∀ document ∈ documents, ∀ content, document.description = some content →
      content.length < 2 ^ 31) :
    ∃ next, (create : PagePreProcessor Weight).invertProcess tool.words stopFile (some docs) =
        .ok next ∧
      ∀ word, ((value next.invertIndexTable word).map Posting.id).Perm
          ((documents.filter fun document => decide (word ∈ document.tokens tool.words) &&
            !skipped stopWords word).map Document.id) ∧
        ∀ posting ∈ value next.invertIndexTable word, ∃ document ∈ documents, ∃ letters,
          posting.id = document.id ∧ document.description = some (encode letters) ∧
            Valid word ∧ PointsAt letters word posting.position := by
  obtain ⟨next, ended, index⟩ := invertProcess_spec Weight tool.words stops reads distinct
  refine ⟨next, ended, fun word => ⟨?_, fun posting listed => ?_⟩⟩
  · have once : ((documents.filter fun document => decide (word ∈ document.tokens tool.words) &&
        !skipped stopWords word).map Document.id).Nodup :=
      distinct.sublist (List.filter_sublist.map _)
    refine (List.perm_ext_iff_of_nodup (index word).1 once).mpr fun id => ?_
    rw [List.mem_map, List.mem_map]
    constructor
    · rintro ⟨posting, listed, rfl⟩
      obtain ⟨document, member, ⟨among, kept⟩, same, -⟩ := ((index word).2 posting).mp listed
      exact ⟨document, List.mem_filter.mpr ⟨member, by simp [among, kept]⟩, same.symm⟩
    · rintro ⟨document, filtered, rfl⟩
      obtain ⟨member, indexed⟩ := List.mem_filter.mp filtered
      rw [Bool.and_eq_true, decide_eq_true_eq, Bool.not_eq_true'] at indexed
      obtain ⟨offset, last⟩ := exists_lastOccurrence indexed.1
      generalize narrowed : toInt offset = position
      have listed := ((index word).2
        ⟨document.id, tfIdfWeight tool.words stopWords documents document word, position⟩).mpr
          ⟨document, member, indexed, rfl, rfl, offset, last, narrowed.symm⟩
      exact ⟨_, listed, rfl⟩
  · obtain ⟨document, member, ⟨among, -⟩, same, -, offset, last, position⟩ :=
      ((index word).2 posting).mp listed
    obtain ⟨before, after, split, -, behind⟩ := last
    cases described : document.description with
    | none =>
      rw [Document.tokens, described] at among
      exact absurd among List.not_mem_nil
    | some content =>
      obtain ⟨letters, rfl⟩ := valid document member content described
      have small := short document member _ described
      obtain ⟨flatten, words⟩ := tool.words_valid ⟨letters, rfl⟩
      have tokens : document.tokens tool.words = tool.words (encode letters) := by
        rw [Document.tokens, described] at among ⊢
        dsimp only at among ⊢
        split_ifs at among ⊢ with nonempty
        · rfl
        · exact absurd among List.not_mem_nil
      rw [tokens] at split among
      have whole : encode letters = before.flatten ++ (word ++ after.flatten) := by
        rw [← flatten, split, List.flatten_append, List.flatten_cons]
      have size := congrArg List.length whole
      rw [List.length_append] at size
      have pieces (words' : List Bytes) (part : words' ⊆ tool.words (encode letters)) :
          Valid words'.flatten :=
        SplitTool.valid_flatten fun other inside => (words other (part inside)).2
      refine ⟨document, member, letters, same, described, (words word among).2, ?_⟩
      rw [position, behind, toInt_of_lt (by omega)]
      refine pointsAt_of_split whole (pieces before ?_) ?_ (words word among).1 small
      · rw [split]
        exact List.subset_append_left _ _
      · rw [← List.flatten_cons]
        refine pieces (word :: after) ?_
        rw [split]
        exact List.subset_append_right _ _

end PagePreProcessor

end SearchEngine
