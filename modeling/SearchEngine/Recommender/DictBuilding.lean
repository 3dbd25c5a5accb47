/-
This file models `DictProducer::buildCnDict`, which makes the dictionary of the
recommender from the feeds, and follows the dictionary through its files into a
query.

The words of the titles and of the descriptions are counted in one map, and the
entries of the map are pushed in the order of their keys. A feed that cannot be
parsed ends the run before anything is pushed. The words a query is answered with
are then the words of the feeds that share a character with it, and the number a
word has is how often it occurs there. It is an `int` in the program and has no bound
here: it is the same as long as no word occurs 2^31 times.
-/

import SearchEngine.PageDump.Feeds
import SearchEngine.PageDump.SplitTool
import SearchEngine.Recommender.Candidates
import SearchEngine.Segmenter.WordKinds

namespace SearchEngine

open Containers Tinyxml2 Utf8 Cppjieba Arithmetic

/-! ### The program -/

namespace DictProducer

section Counting

variable (jieba : Bytes → List Bytes) (stopWords : List Bytes)

/-- The loop of `DictProducer::buildCnDict` over the words of a text. -/
def countWords : List Bytes → (AList fun _ : Bytes => Int) → AList fun _ : Bytes => Int
  | [], map => map
  | word :: cutWords, map =>
    if skipped stopWords word then countWords cutWords map
    else countWords cutWords (map.insert word (value map word + 1))

/-- The body of the loop over the items. -/
def countItem (item : XMLElement) (map : AList fun _ : Bytes => Int) :
    Except Fault (AList fun _ : Bytes => Int) :=
  match item.firstChildElement (some (ascii "title")) with
  | none => .ok map
  | some itemChild => do
    let contextTitle ← PageProducer.strippedText itemChild
    let map := countWords stopWords (jieba contextTitle) map
    let itemChild ← orFault .nullPointer (itemChild.nextSiblingElement (some (ascii "description")))
    let contextDescription ← PageProducer.strippedText itemChild
    return countWords stopWords (jieba contextDescription) map

/-- The loop over the items of a feed. -/
def countItems : List XMLElement → (AList fun _ : Bytes => Int) →
    Except Fault (AList fun _ : Bytes => Int)
  | [], map => .ok map
  | item :: items, map => do
    let map ← countItem jieba stopWords item map
    countItems items map

/-- The loop over the files, on their contents; nothing where it returns. -/
def countFiles : List (Option Bytes) → (AList fun _ : Bytes => Int) →
    Except Fault (Option (AList fun _ : Bytes => Int))
  | [], map => .ok (some map)
  | file :: files, map =>
    match file.bind loadFile with
    | none => .ok none
    | some nodes => do
      let items ← feedItems nodes
      let map ← countItems jieba stopWords items map
      countFiles files map

end Counting

/-- The entries of a map in iteration order. -/
def entriesInOrder (map : AList fun _ : Bytes => Int) : List (Bytes × Int) :=
  (map.entries.insertionSort fun first second =>
    first.1.map UInt8.toNat ≤ second.1.map UInt8.toNat).map fun entry => (entry.1, entry.2)

/-- `DictProducer::buildCnDict`: the words in `_dict` after it. -/
def buildCnDict (jieba : Bytes → List Bytes) (stopFile : Bytes) (files : List (Option Bytes))
    (dict : List (Bytes × Int)) : Except Fault (List (Bytes × Int)) := do
  let stopWords ← readStopWords stopFile
  match ← countFiles jieba stopWords files ∅ with
  | none => return dict
  | some map => return dict ++ entriesInOrder map

/-- The program that calls `buildCnDict`, `createIndex` and `store`: the contents of its files. -/
def produce (jieba : Bytes → List Bytes) (stopFile : Bytes) (files : List (Option Bytes)) :
    Except Fault (Bytes × Bytes) := do
  let dict ← buildCnDict jieba stopFile files []
  let index ← createIndex dict
  return store dict index

/-! ### The texts of the feeds -/

/-- The texts of an element that are counted: none without a title, and otherwise those of the first
title and of the first description behind it. -/
inductive CountedTexts (children : List XMLNode) : List Bytes → Prop where
  | untitled (noTitle : Lacks (some (ascii "title")) children) : CountedTexts children []
  | titled {before between after title description : List XMLNode} {first second : Bytes}
      (split : children = before ++ .element (ascii "title") title ::
        (between ++ .element (ascii "description") description :: after))
      (noTitle : Lacks (some (ascii "title")) before)
      (noDescription : Lacks (some (ascii "description")) between)
      (titleText : getText title = some first)
      (descriptionText : getText description = some second) :
      CountedTexts children [PageProducer.removeTags first, PageProducer.removeTags second]

/-- The texts of feeds that are counted, where every feed can be parsed. -/
def CountedFeeds (files : List (Option Bytes)) (texts : List Bytes) : Prop :=
  ∃ counted, List.Forall₂ (FeedGathers CountedTexts) files counted ∧ texts = counted.flatten

theorem countedFeeds_nil {texts : List Bytes} : CountedFeeds [] texts ↔ texts = [] := by
  constructor
  · rintro ⟨counted, gathers, rfl⟩
    cases gathers
    rfl
  · rintro rfl
    exact ⟨[], .nil, rfl⟩

theorem countedFeeds_cons {file : Option Bytes} {files : List (Option Bytes)} {texts : List Bytes} :
    CountedFeeds (file :: files) texts ↔
      ∃ first later, FeedGathers CountedTexts file first ∧ CountedFeeds files later ∧
        texts = first ++ later := by
  constructor
  · rintro ⟨counted, gathers, rfl⟩
    cases gathers with
    | cons here later => exact ⟨_, _, here, ⟨_, later, rfl⟩, rfl⟩
  · rintro ⟨first, _, here, ⟨counted, later, rfl⟩, rfl⟩
    exact ⟨first :: counted, .cons here later, rfl⟩

section Counting

variable {jieba : Bytes → List Bytes} {stopWords : List Bytes}
  {map next : AList fun _ : Bytes => Int}

/-- The loop counts the words that are kept. -/
theorem countWords_eq (words : List Bytes) (map : AList fun _ : Bytes => Int) :
    countWords stopWords words map = tally (keep stopWords words) map := by
  induction words generalizing map with
  | nil => rfl
  | cons word words inductionHypothesis =>
    rw [countWords, keep]
    cases skip : skipped stopWords word with
    | true =>
      rw [List.filter_cons_of_neg (by simp [skip]), ← keep, if_pos rfl, inductionHypothesis]
    | false =>
      rw [List.filter_cons_of_pos (by simp [skip]), ← keep, if_neg (by decide),
        inductionHypothesis]
      rfl

theorem keep_append (first second : List Bytes) :
    keep stopWords (first ++ second) = keep stopWords first ++ keep stopWords second :=
  List.filter_append _ _

theorem countItem_eq_ok {element : XMLElement} :
    countItem jieba stopWords element map = .ok next ↔
      ∃ texts, CountedTexts element.children texts ∧
        next = tally (keep stopWords (texts.flatMap jieba)) map := by
  rw [countItem]
  constructor
  · intro counts
    cases titled : element.firstChildElement (some (ascii "title")) with
    | none =>
      rw [titled] at counts
      obtain rfl := Except.ok.inj counts
      exact ⟨[], .untitled (seekElement_eq_none.mp titled), rfl⟩
    | some titleElement =>
      rw [titled] at counts
      obtain ⟨first, titleText, counts⟩ := bind_eq_ok.mp counts
      obtain ⟨descriptionElement, described, counts⟩ := bind_eq_ok.mp counts
      obtain ⟨second, descriptionText, counts⟩ := bind_eq_ok.mp counts
      obtain rfl := Except.ok.inj counts
      obtain ⟨before, split, noTitle⟩ := seekElement_named.mp titled
      obtain ⟨between, behind, noDescription⟩ := seekElement_named.mp (orFault_eq_ok.mp described)
      rw [behind] at split
      obtain ⟨title, titleRead, rfl⟩ := PageProducer.strippedText_eq_ok.mp titleText
      obtain ⟨description, descriptionRead, rfl⟩ :=
        PageProducer.strippedText_eq_ok.mp descriptionText
      refine ⟨_, .titled split noTitle noDescription titleRead descriptionRead, ?_⟩
      rw [countWords_eq, countWords_eq, ← tally_append, ← keep_append, List.flatMap_cons,
        List.flatMap_singleton]
  · rintro ⟨texts, counted, rfl⟩
    cases counted with
    | untitled noTitle =>
      rw [XMLElement.firstChildElement, seekElement_eq_none.mpr noTitle]
      rfl
    | @titled before between after title description first second split noTitle noDescription
        titleText descriptionText =>
      rw [XMLElement.firstChildElement, split, seekElement_append noTitle, seekElement_self]
      dsimp only
      rw [PageProducer.strippedText_eq_ok.mpr ⟨first, titleText, rfl⟩, ok_bind,
        XMLElement.nextSiblingElement, seekElement_append noDescription, seekElement_self,
        orFault_some, ok_bind, PageProducer.strippedText_eq_ok.mpr ⟨second, descriptionText, rfl⟩,
        ok_bind, countWords_eq, countWords_eq, ← tally_append, ← keep_append, List.flatMap_cons,
        List.flatMap_singleton]
      rfl

theorem countItems_eq_ok {found : List XMLElement} :
    countItems jieba stopWords found map = .ok next ↔
      ∃ counted, List.Forall₂ CountedTexts (found.map XMLElement.children) counted ∧
        next = tally (keep stopWords (counted.flatten.flatMap jieba)) map := by
  induction found generalizing map with
  | nil =>
    rw [countItems, List.map_nil]
    constructor
    · intro ended
      obtain rfl := Except.ok.inj ended
      exact ⟨[], .nil, rfl⟩
    · rintro ⟨counted, each, rfl⟩
      cases each
      rfl
  | cons element found inductionHypothesis =>
    rw [countItems, bind_eq_ok, List.map_cons]
    constructor
    · rintro ⟨middle, first, ended⟩
      obtain ⟨texts, here, rfl⟩ := countItem_eq_ok.mp first
      obtain ⟨others, each, rfl⟩ := inductionHypothesis.mp ended
      refine ⟨texts :: others, .cons here each, ?_⟩
      rw [List.flatten_cons, List.flatMap_append, keep_append, tally_append]
    · rintro ⟨counted, each, rfl⟩
      cases each with
      | @cons _ first _ others here each =>
        refine ⟨_, countItem_eq_ok.mpr ⟨first, here, rfl⟩,
          inductionHypothesis.mpr ⟨others, each, ?_⟩⟩
        rw [List.flatten_cons, List.flatMap_append, keep_append, tally_append]

/-- A feed that is parsed is counted as its items. -/
theorem feed_eq_ok {file : Option Bytes} {nodes : List XMLNode}
    (parses : file.bind loadFile = some nodes) :
    (∃ found, feedItems nodes = .ok found ∧ countItems jieba stopWords found map = .ok next) ↔
      ∃ texts, FeedGathers CountedTexts file texts ∧
        next = tally (keep stopWords (texts.flatMap jieba)) map := by
  constructor
  · rintro ⟨found, feed, ended⟩
    obtain ⟨counted, each, rfl⟩ := countItems_eq_ok.mp ended
    exact ⟨_, ⟨nodes, _, counted, parses, feedItems_iff.mp ⟨found, feed, rfl⟩, each, rfl⟩, rfl⟩
  · rintro ⟨_, ⟨other, items, counted, same, feed, each, rfl⟩, rfl⟩
    obtain rfl := Option.some.inj (same.symm.trans parses)
    obtain ⟨found, reads, rfl⟩ := feedItems_iff.mpr feed
    exact ⟨found, reads, countItems_eq_ok.mpr ⟨counted, each, rfl⟩⟩

/-- The loop over files that can all be parsed. -/
theorem countFiles_eq_some {files : List (Option Bytes)} :
    countFiles jieba stopWords files map = .ok (some next) ↔
      ∃ texts, CountedFeeds files texts ∧
        next = tally (keep stopWords (texts.flatMap jieba)) map := by
  induction files generalizing map with
  | nil =>
    rw [countFiles]
    simp only [countedFeeds_nil, exists_eq_left, Except.ok.injEq, Option.some.injEq]
    exact eq_comm
  | cons file files inductionHypothesis =>
    rw [countFiles]
    simp only [countedFeeds_cons]
    cases parses : file.bind loadFile with
    | none =>
      refine iff_of_false nofun ?_
      rintro ⟨texts, ⟨first, later, ⟨nodes, items, counted, same, -⟩, -⟩, -⟩
      cases parses.symm.trans same
    | some nodes =>
      dsimp only
      constructor
      · intro ended
        obtain ⟨found, feed, ended⟩ := bind_eq_ok.mp ended
        obtain ⟨middle, counts, ended⟩ := bind_eq_ok.mp ended
        obtain ⟨first, here, rfl⟩ := (feed_eq_ok parses).mp ⟨found, feed, counts⟩
        obtain ⟨later, others, rfl⟩ := inductionHypothesis.mp ended
        refine ⟨first ++ later, ⟨first, later, here, others, rfl⟩, ?_⟩
        rw [List.flatMap_append, keep_append, tally_append]
      · rintro ⟨_, ⟨first, later, here, others, rfl⟩, rfl⟩
        obtain ⟨found, feed, counts⟩ := (feed_eq_ok parses).mpr ⟨first, here, rfl⟩
        refine bind_eq_ok.mpr ⟨found, feed, bind_eq_ok.mpr ⟨_, counts, ?_⟩⟩
        refine inductionHypothesis.mpr ⟨later, others, ?_⟩
        rw [List.flatMap_append, keep_append, tally_append]

/-- The loop over files returns at the first one that cannot be parsed. -/
theorem countFiles_eq_none {files : List (Option Bytes)} :
    countFiles jieba stopWords files map = .ok none ↔
      ∃ before file after texts, files = before ++ file :: after ∧ CountedFeeds before texts ∧
        file.bind loadFile = none := by
  induction files generalizing map with
  | nil =>
    rw [countFiles]
    refine iff_of_false nofun ?_
    rintro ⟨before, file, after, texts, split, -⟩
    simp at split
  | cons file files inductionHypothesis =>
    rw [countFiles]
    cases parses : file.bind loadFile with
    | none => exact iff_of_true rfl ⟨[], file, files, [], rfl, countedFeeds_nil.mpr rfl, parses⟩
    | some nodes =>
      dsimp only
      constructor
      · intro ended
        obtain ⟨found, feed, ended⟩ := bind_eq_ok.mp ended
        obtain ⟨middle, counts, ended⟩ := bind_eq_ok.mp ended
        obtain ⟨first, here, rfl⟩ := (feed_eq_ok parses).mp ⟨found, feed, counts⟩
        obtain ⟨before, broken, after, later, rfl, others, unparsed⟩ :=
          inductionHypothesis.mp ended
        exact ⟨file :: before, broken, after, first ++ later, rfl,
          countedFeeds_cons.mpr ⟨first, later, here, others, rfl⟩, unparsed⟩
      · rintro ⟨before, broken, after, texts, split, counted, unparsed⟩
        cases before with
        | nil =>
          obtain ⟨rfl, rfl⟩ := List.cons.inj split
          cases parses.symm.trans unparsed
        | cons other before =>
          obtain ⟨rfl, rfl⟩ := List.cons.inj split
          obtain ⟨first, later, here, rest, -⟩ := countedFeeds_cons.mp counted
          obtain ⟨found, feed, counts⟩ := (feed_eq_ok parses).mpr ⟨first, here, rfl⟩
          refine bind_eq_ok.mpr ⟨found, feed, bind_eq_ok.mpr ⟨_, counts, ?_⟩⟩
          exact inductionHypothesis.mpr ⟨before, broken, after, later, rfl, rest, unparsed⟩

end Counting

/-! ### The dictionary -/

/-- A dictionary of words with their numbers, in the order of the words. -/
structure Counts (words : List Bytes) (dict : List (Bytes × Int)) : Prop where
  ordered : dict.Pairwise fun first second => bytesLess first.1 second.1
  entries : ∀ word fre, (word, fre) ∈ dict ↔ word ∈ words ∧ fre = words.count word

theorem Counts.nodup {words : List Bytes} {dict : List (Bytes × Int)} (counts : Counts words dict) :
    (dict.map Prod.fst).Nodup := by
  refine List.pairwise_map.mpr (counts.ordered.imp fun {first second} before same => ?_)
  rw [same] at before
  exact bytesLess_irrefl _ before

/-- There is one such dictionary. -/
theorem Counts.unique {words : List Bytes} {dict other : List (Bytes × Int)}
    (left : Counts words dict) (right : Counts words other) : dict = other := by
  have same : dict.Perm other :=
    (List.perm_ext_iff_of_nodup left.nodup.of_map right.nodup.of_map).mpr fun entry =>
      (left.entries entry.1 entry.2).trans (right.entries entry.1 entry.2).symm
  refine same.eq_of_pairwise (fun first second _ _ before behind => ?_) left.ordered right.ordered
  exact absurd (bytesLess_trans _ _ _ before behind) (bytesLess_irrefl _)

/-- The entries of a tally. -/
theorem counts_entriesInOrder (words : List Bytes) :
    Counts words (entriesInOrder (tally words ∅)) := by
  have order : ((tally words ∅).entries.insertionSort fun first second =>
      first.1.map UInt8.toNat ≤ second.1.map UInt8.toNat).Perm (tally words ∅).entries :=
    List.perm_insertionSort _ _
  constructor
  · refine List.pairwise_map.mpr ?_
    have distinct : ((tally words ∅).entries.insertionSort fun first second =>
        first.1.map UInt8.toNat ≤ second.1.map UInt8.toNat).Pairwise
          fun first second => first.1 ≠ second.1 := by
      refine (List.Perm.pairwise_iff (fun different => different.symm) order).mpr ?_
      exact List.pairwise_map.mp (tally words ∅).nodupKeys
    have total : Std.Total fun first second : Sigma fun _ : Bytes => Int =>
        first.1.map UInt8.toNat ≤ second.1.map UInt8.toNat := ⟨fun _ _ => le_total _ _⟩
    have trans : IsTrans _ fun first second : Sigma fun _ : Bytes => Int =>
        first.1.map UInt8.toNat ≤ second.1.map UInt8.toNat := ⟨fun _ _ _ => le_trans⟩
    refine ((List.pairwise_insertionSort _ _).and distinct).imp fun {first second} ordered => ?_
    by_contra notBefore
    have behind : ¬ bytesLess second.1 first.1 := by
      rw [bytesLess, decide_eq_true_eq, not_lt]
      exact ordered.1
    exact ordered.2 (bytesLess_total _ _ notBefore behind)
  · intro word fre
    have listed : ⟨word, fre⟩ ∈ (tally words ∅).entries ↔ word ∈ words ∧ fre = words.count word :=
      mem_entries_tally words ⟨word, fre⟩
    rw [← listed, entriesInOrder, List.mem_map, ← order.mem_iff]
    constructor
    · rintro ⟨entry, member, same⟩
      obtain ⟨rfl, rfl⟩ := Prod.mk.inj same
      exact member
    · exact fun member => ⟨_, member, rfl⟩

/-- Where all feeds can be parsed, the words of their texts are pushed. -/
theorem buildCnDict_of_counted {jieba : Bytes → List Bytes} {stopFile : Bytes}
    {files : List (Option Bytes)} {stopWords texts : List Bytes} {dict : List (Bytes × Int)}
    (stops : readStopWords stopFile = .ok stopWords) (feeds : CountedFeeds files texts)
    (counts : Counts (keep stopWords (texts.flatMap jieba)) dict) :
    buildCnDict jieba stopFile files [] = .ok dict := by
  rw [buildCnDict, bind_eq_ok]
  refine ⟨stopWords, stops, bind_eq_ok.mpr ⟨_, countFiles_eq_some.mpr ⟨texts, feeds, rfl⟩, ?_⟩⟩
  dsimp only
  rw [List.nil_append, (counts_entriesInOrder _).unique counts]
  rfl

/-- `buildCnDict` pushes the words of all feeds that are kept, with the numbers of their occurrences
and in order, or nothing where a feed cannot be parsed. -/
theorem buildCnDict_eq_ok {jieba : Bytes → List Bytes} {stopFile : Bytes}
    {files : List (Option Bytes)} {dict : List (Bytes × Int)} :
    buildCnDict jieba stopFile files [] = .ok dict ↔
      ∃ stopWords texts, readStopWords stopFile = .ok stopWords ∧
        (CountedFeeds files texts ∧ Counts (keep stopWords (texts.flatMap jieba)) dict ∨
          dict = [] ∧ ∃ before file after, files = before ++ file :: after ∧
            CountedFeeds before texts ∧ file.bind loadFile = none) := by
  constructor
  · intro ended
    rw [buildCnDict, bind_eq_ok] at ended
    obtain ⟨stopWords, stops, ended⟩ := ended
    obtain ⟨counted, counts, ended⟩ := bind_eq_ok.mp ended
    cases counted with
    | none =>
      obtain ⟨before, file, after, texts, split, feeds, unparsed⟩ := countFiles_eq_none.mp counts
      exact ⟨stopWords, texts, stops, .inr ⟨(Except.ok.inj ended).symm, before, file, after, split,
        feeds, unparsed⟩⟩
    | some map =>
      obtain ⟨texts, feeds, rfl⟩ := countFiles_eq_some.mp counts
      obtain rfl := Except.ok.inj ended
      exact ⟨stopWords, texts, stops, .inl ⟨feeds, counts_entriesInOrder _⟩⟩
  · rintro ⟨stopWords, texts, stops, ⟨feeds, counts⟩ |
      ⟨rfl, before, file, after, split, feeds, unparsed⟩⟩
    · exact buildCnDict_of_counted stops feeds counts
    · rw [buildCnDict, bind_eq_ok]
      exact ⟨stopWords, stops, bind_eq_ok.mpr ⟨_,
        countFiles_eq_none.mpr ⟨before, file, after, texts, split, feeds, unparsed⟩, rfl⟩⟩

end DictProducer

/-! ### From the feeds to a query -/

theorem isalnum_eq (byte : UInt8) :
    isalnum byte = (HMMSegment.isLetter byte.toNat || HMMSegment.isDigit byte.toNat) := by
  have letter : HMMSegment.isLetter byte.toNat =
      ((97 ≤ byte && byte ≤ 122) || (65 ≤ byte && byte ≤ 90)) := rfl
  have digit : HMMSegment.isDigit byte.toNat = Text.isDigit byte := rfl
  rw [letter, digit, isalnum]
  cases Text.isDigit byte <;> simp [Bool.or_comm]

/-- What is known of a word that is kept. -/
theorem skipped_eq_false {stopWords : List Bytes} {word : Bytes} :
    skipped stopWords word = false ↔ word ∉ stopWords ∧ isalnum (word.headD 0) = false ∧
      Text.isSpace (word.headD 0) = false := by
  simp [skipped, and_assoc]

section Pipeline

variable {Number : Type} {dictTrie : DictTrie Number}

/-- The words of the dictionary of the segmenter have neither blanks nor digits, but for those that
are skipped anyway. -/
def PlainWords (dictTrie : DictTrie Number) : Prop :=
  ∀ letters unit, dictTrie.root.find (letters.map Char.toNat) = some unit →
    skipped [] (encode letters) = false → ∀ letter ∈ letters, FileLetter letter

/-- The letters of a word of the segmenter that is kept can be written into the files. -/
theorem fileLetter_of_letterKind (plain : PlainWords dictTrie) {letters : List Char}
    (kind : MixSegment.LetterKind dictTrie letters) {stopWords : List Bytes}
    (kept : skipped stopWords (encode letters) = false) : ∀ letter ∈ letters, FileLetter letter := by
  obtain ⟨-, noAlnum, noSpace⟩ := skipped_eq_false.mp kept
  cases kind with
  | known unit found =>
    exact plain letters unit found (skipped_eq_false.mpr ⟨List.not_mem_nil, noAlnum, noSpace⟩)
  | high large => exact fun letter member => fileLetter_of_large (large letter member)
  | single letter alone =>
    rw [alone, List.forall_mem_singleton]
    by_cases small : letter.toNat < 0x80
    · have head := headD_encode_of_ascii small []
      rw [alone] at noAlnum noSpace
      refine ⟨?_, ?_, fun digit => ?_⟩
      · rintro rfl
        exact absurd noSpace (by decide)
      · rintro rfl
        exact absurd noSpace (by decide)
      · have isDigit : HMMSegment.isDigit letter.toNat = true :=
          Bool.and_eq_true_iff.mpr ⟨decide_eq_true digit.1, decide_eq_true digit.2⟩
        rw [isalnum_eq, head, isDigit, Bool.or_true] at noAlnum
        cases noAlnum
    · exact fileLetter_of_large (Nat.le_of_not_lt small)
  | ascii run =>
    obtain ⟨first, rest, rfl, alphanumeric⟩ : ∃ first rest, letters = first :: rest ∧
        (HMMSegment.isLetter first.toNat || HMMSegment.isDigit first.toNat) = true := by
      cases letters with
      | nil => cases run
      | cons first rest =>
        refine ⟨first, rest, rfl, ?_⟩
        cases run with
        | letters starts => rw [starts, Bool.true_or]
        | digits starts => rw [starts, Bool.or_true]
    have small : first.toNat < 0x80 := by
      rcases Bool.or_eq_true_iff.mp alphanumeric with letter | digit
      · rcases Bool.or_eq_true_iff.mp letter with lower | upper
        · exact (of_decide_eq_true (Bool.and_eq_true_iff.mp lower).2).trans_lt (by decide)
        · exact (of_decide_eq_true (Bool.and_eq_true_iff.mp upper).2).trans_lt (by decide)
      · exact (of_decide_eq_true (Bool.and_eq_true_iff.mp digit).2).trans_lt (by decide)
    rw [isalnum_eq, headD_encode_of_ascii small rest, alphanumeric] at noAlnum
    cases noAlnum

/-- A dictionary of fewer than 2^31 such words can be written into the files. -/
theorem DictProducer.Counts.exists_entries {words : List Bytes} {dict : List (Bytes × Int)}
    (counts : DictProducer.Counts words dict)
    (letters : ∀ word ∈ words, ∃ letters, encode letters = word ∧
      ∀ letter ∈ letters, FileLetter letter) (few : words.length < 2 ^ 31) :
    ∃ entries : List (List Char × Int), entries.map encodeEntry = dict ∧
      (∀ entry ∈ entries, FileEntry entry) ∧ entries.length ≤ 2 ^ 31 := by
  have spelled : ∀ entry ∈ dict, entry ∈ Set.range encodeEntry := by
    intro entry member
    obtain ⟨listed, -⟩ := (counts.entries entry.1 entry.2).mp member
    obtain ⟨text, same, -⟩ := letters _ listed
    exact ⟨(text, entry.2), Prod.ext same rfl⟩
  obtain ⟨entries, rfl⟩ : dict ∈ Set.range (List.map encodeEntry) := by
    rw [Set.range_list_map]
    exact spelled
  refine ⟨entries, rfl, fun entry member => ?_, ?_⟩
  · obtain ⟨listed, number⟩ :=
      (counts.entries (encode entry.1) entry.2).mp (List.mem_map_of_mem member)
    obtain ⟨text, same, plain⟩ := letters _ listed
    have positive := List.count_pos_iff.mpr listed
    have small : words.count (encode entry.1) ≤ words.length := List.count_le_length
    refine ⟨?_, by omega, by omega⟩
    rw [← encode_injective same]
    exact plain
  · have within : (entries.map encodeEntry).map Prod.fst ⊆ words := by
      intro word member
      obtain ⟨entry, among, rfl⟩ := List.mem_map.mp member
      exact ((counts.entries entry.1 entry.2).mp among).1
    have size := (counts.nodup.subperm within).length_le
    rw [List.length_map, List.length_map] at size
    omega

variable [LogArithmetic Number]

/-- The words of the texts that are kept can be written into the files. -/
theorem letters_of_kept (tool : SplitTool Number) (plain : PlainWords tool.dictTrie)
    {stopWords texts : List Bytes} (valid : ∀ text ∈ texts, Valid text) :
    ∀ word ∈ keep stopWords (texts.flatMap tool.words), ∃ letters, encode letters = word ∧
      ∀ letter ∈ letters, FileLetter letter := by
  intro word member
  obtain ⟨among, kept⟩ := List.mem_filter.mp member
  obtain ⟨text, listed, token⟩ := List.mem_flatMap.mp among
  obtain ⟨letters, rfl⟩ := valid text listed
  have cuts := MixSegment.cut_eq tool.dictTrie tool.model specialSymbols true
    (decodeRunesInString_encode letters) (pieces_encode letters)
  rw [Except.ok.inj ((tool.cut_eq_ok (encode letters)).symm.trans cuts)] at token
  obtain ⟨range, within, rfl⟩ := List.mem_map.mp token
  have kind := MixSegment.letterKind_of_range within
  rw [textOf_map_pieceOf letters range.span] at kept ⊢
  exact ⟨_, rfl, fileLetter_of_letterKind plain kind (by simpa using kept)⟩

/-- From the feeds through the files to a query: where the lines of the files are short enough to be
counted by an `int`, the dictionary that is loaded has the words of the titles and the descriptions
with the numbers of their occurrences, and the candidates of every query are exactly those words that
share a character with it, each with this number and its edit distance. -/
theorem produce_candidates (tool : SplitTool Number) (plain : PlainWords tool.dictTrie)
    {stopFile : Bytes} {stopWords : List Bytes} (stops : readStopWords stopFile = .ok stopWords)
    {files : List (Option Bytes)} {texts : List Bytes}
    (feeds : DictProducer.CountedFeeds files texts) (valid : ∀ text ∈ texts, Valid text)
    (few : (keep stopWords (texts.flatMap tool.words)).length < 2 ^ 31) :
    ∃ stored, DictProducer.produce tool.words stopFile files = .ok stored ∧
      (ShortLines stored → ∃ dictionary, Dictionary.load stored = .ok dictionary ∧
        DictProducer.Counts (keep stopWords (texts.flatMap tool.words)) dictionary.dict ∧
        ∀ sought : List Char, ∃ next pushed,
          dictionary.candidates (encode sought) = (next, .ok pushed) ∧
          ∀ candidate, candidate ∈ pushed ↔ ∃ letters,
            encode letters ∈ keep stopWords (texts.flatMap tool.words) ∧
            (∃ letter ∈ sought, letter ∈ letters) ∧
            candidate = ⟨encode letters,
              (keep stopWords (texts.flatMap tool.words)).count (encode letters),
              EditDistance.distance sought letters⟩) := by
  have counts :=
    DictProducer.counts_entriesInOrder (keep stopWords (texts.flatMap tool.words))
  have built := DictProducer.buildCnDict_of_counted stops feeds counts
  obtain ⟨entries, same, fileEntries, size⟩ :=
    counts.exists_entries (letters_of_kept tool plain valid) few
  rw [← same] at counts built
  obtain ⟨index, created, loads⟩ := load_store fileEntries size
  refine ⟨DictProducer.store (entries.map encodeEntry) index, ?_, fun short => ?_⟩
  · rw [DictProducer.produce, built, ok_bind, created, ok_bind]
    rfl
  · obtain ⟨loaded, stored, indexes⟩ := loads short
    refine ⟨⟨entries.map encodeEntry, loaded⟩, stored, counts, fun sought => ?_⟩
    obtain ⟨next, pushed, ended, -, members⟩ := candidates_spec size sought
      (show (⟨entries.map encodeEntry, loaded⟩ : Dictionary).dict = _ from rfl) indexes
    refine ⟨next, pushed, ended, fun candidate => ?_⟩
    rw [members]
    constructor
    · rintro ⟨entry, member, shared, rfl⟩
      obtain ⟨listed, number⟩ :=
        (counts.entries (encode entry.1) entry.2).mp (List.mem_map_of_mem member)
      refine ⟨entry.1, listed, shared, ?_⟩
      rw [candidateOf, number]
    · rintro ⟨letters, listed, shared, rfl⟩
      obtain ⟨entry, member, spelled⟩ :=
        List.mem_map.mp ((counts.entries (encode letters) _).mpr ⟨listed, rfl⟩)
      obtain ⟨sameWord, number⟩ := Prod.mk.inj spelled
      have letters_eq := encode_injective sameWord
      refine ⟨entry, member, ?_, ?_⟩
      · rw [letters_eq]
        exact shared
      · rw [candidateOf, letters_eq, number]

end Pipeline

/-- A feed of one item, with the same word in its title and in its description. -/
def sampleFeed : Bytes :=
  ascii "<r><c><item><title>" ++ good ++ ascii "</title><description>" ++ good ++
    ascii "</description></item></c></r>"

theorem countedFeeds_sampleFeed : DictProducer.CountedFeeds [some sampleFeed] [good, good] :=
  ⟨[[good, good]], .cons ⟨_, _, [[good, good]], rfl, feedItems_iff.mp ⟨_, rfl, rfl⟩,
    .cons (@DictProducer.CountedTexts.titled _ [] [] [] _ _ good good rfl (lacks_nil _) (lacks_nil _)
      rfl rfl) .nil, rfl⟩ .nil, rfl⟩

theorem plainWords_plainTool :
    letI := integers
    PlainWords plainTool.dictTrie := by
  intro letters unit found
  have nothing : letters.map Char.toNat = [] := by
    by_contra nonempty
    have missing := find_createTrie ([] : List (DictUnit Int)) nonempty
    cases missing.symm.trans found
  rw [List.map_eq_nil_iff.mp nothing]
  exact fun _ => List.forall_mem_nil _

theorem produce_candidates_sample :
    letI := integers
    ∃ stored dictionary,
      DictProducer.produce plainTool.words [] [some sampleFeed] = .ok stored ∧
      Dictionary.load stored = .ok dictionary ∧
      DictProducer.Counts (keep [] ([good, good].flatMap plainTool.words)) dictionary.dict ∧
      ∀ sought : List Char, ∃ next pushed,
        dictionary.candidates (encode sought) = (next, .ok pushed) ∧
        ∀ candidate, candidate ∈ pushed ↔ ∃ letters,
          encode letters ∈ keep [] ([good, good].flatMap plainTool.words) ∧
          (∃ letter ∈ sought, letter ∈ letters) ∧
          candidate = ⟨encode letters,
            (keep [] ([good, good].flatMap plainTool.words)).count (encode letters),
            EditDistance.distance sought letters⟩ := by
  let := integers
  have valid : ∀ text ∈ [good, good], Valid text :=
    List.forall_mem_cons.mpr ⟨by decide, List.forall_mem_singleton.mpr (by decide)⟩
  have produces : DictProducer.produce plainTool.words [] [some sampleFeed] =
      .ok (good ++ ascii " 2\n", good ++ ascii " 0 \n") := by
    decide +kernel
  obtain ⟨stored, produced, loads⟩ := @produce_candidates _ _ plainTool plainWords_plainTool [] [] rfl
    [some sampleFeed] [good, good] countedFeeds_sampleFeed valid (by decide +kernel)
  obtain rfl := Except.ok.inj (produces.symm.trans produced)
  obtain ⟨dictionary, loaded⟩ := loads ⟨by decide, by decide⟩
  exact ⟨_, dictionary, produced, loaded⟩

end SearchEngine
