/-
This file determines which snippets of a response are those of one keyword alone.

One string stream serves all keywords of a page and is not emptied between them:
the text written for a keyword is what the stream holds, which begins with the
windows of all keywords in front of it. The main theorem compares two runs over
lists that share a keyword, and states exactly when both write the keyword's own
window: when the windows in front of it are empty in both. A window is empty where
the description is, and where the position lies behind the end of the description
by so much that the window begins with its end.
-/

import SearchEngine.Searcher.SnippetWindows

namespace SearchEngine

open Containers Utf8 Widths

/-! ### Empty windows -/

/-- Where the last character of a description begins. -/
def lastStart (description : Bytes) : Nat :=
  ((leads nBytesCode description).dropLast.map nBytesCode).sum

/-- The window around the position is empty: the description is, or 30 bytes in front of the
position its last character has begun and not ended. -/
def Vanishes (description : Bytes) (idx : UInt64) : Prop :=
  description = [] ∨ Inner idx ∧ lastStart description + 30 ≤ idx.toNat ∧
    idx.toNat < extent nBytesCode description + 30

instance (description : Bytes) (idx : UInt64) : Decidable (Vanishes description idx) :=
  inferInstanceAs (Decidable (_ ∨ _ ∧ _ ∧ _))

theorem snippet_eq_nil_iff {description window : Bytes} {idx : UInt64}
    (cut : snippet description idx = .ok window) :
    window = [] ↔ (byteRange description idx).2 ≤ (byteRange description idx).1 := by
  rw [snippet_eq] at cut
  split_ifs at cut with bounded
  obtain rfl := Except.ok.inj cut
  rw [← List.length_eq_zero_iff, List.length_drop, List.length_take, List.length_append,
    List.length_singleton]
  omega

/-- Without a first stop the window begins with the description. -/
theorem getD_le_zero_iff (description : Bytes) (bound : Nat) :
    (firstStop nBytesCode bound 0 (leads nBytesCode description)).getD description.length ≤ 0 ↔
      description = [] := by
  cases found : firstStop nBytesCode bound 0 (leads nBytesCode description) with
  | none => rw [Option.getD_none, Nat.le_zero, List.length_eq_zero_iff]
  | some stop =>
    obtain ⟨_, _, _, _, _, long, _⟩ := firstStop_eq_some nBytesCode (Nat.zero_le bound) found
    rw [Option.getD_some]
    refine iff_of_false (by omega) ?_
    rintro rfl
    cases found

/-- The last character reaches over the lower bound: nothing is left behind it. -/
theorem range_empty_of_last {description before : Bytes} {lead : UInt8}
    (split : leads nBytesCode description = before ++ [lead]) {low : Nat}
    (short : (before.map nBytesCode).sum ≤ low) :
    (firstStop nBytesCode (low + 60) 0 (leads nBytesCode description)).getD description.length ≤
      (before.map nBytesCode).sum + nBytesCode lead := by
  have width := nBytesCode_le lead
  have total : ((leads nBytesCode description).map nBytesCode).sum =
      (before.map nBytesCode).sum + nBytesCode lead := by
    rw [split, List.map_append, List.sum_append, List.map_singleton, List.sum_singleton]
  have ended : firstStop nBytesCode (low + 60) 0 (leads nBytesCode description) = none :=
    (firstStop_eq_none nBytesCode (Nat.zero_le _)).mpr (by omega)
  have longer := length_le_extent nBytesCode_pos description
  rw [extent] at longer
  rw [ended, Option.getD_none]
  omega

/-- Another character reaches over the lower bound: the next one is in the window. -/
theorem range_nonempty_of_inside {description before after : Bytes} {lead second : UInt8}
    (split : leads nBytesCode description = before ++ lead :: second :: after) {low : Nat}
    (short : (before.map nBytesCode).sum ≤ low) :
    (before.map nBytesCode).sum + nBytesCode lead <
      (firstStop nBytesCode (low + 60) 0 (leads nBytesCode description)).getD
        description.length := by
  have width := nBytesCode_le lead
  cases found : firstStop nBytesCode (low + 60) 0 (leads nBytesCode description) with
  | none =>
    have shifted : leads nBytesCode description = (before ++ [lead]) ++ second :: after := by
      rw [split, List.append_assoc, List.singleton_append]
    have inside := sum_lt_of_leads nBytesCode shifted
    rw [List.map_append, List.sum_append, List.map_singleton, List.sum_singleton] at inside
    exact inside
  | some stop =>
    obtain ⟨_, _, _, _, _, long, _⟩ := firstStop_eq_some nBytesCode (Nat.zero_le _) found
    rw [Option.getD_some]
    omega

theorem range_empty_iff (description : Bytes) (idx : UInt64) :
    (byteRange description idx).2 ≤ (byteRange description idx).1 ↔ Vanishes description idx := by
  by_cases inner : Inner idx
  swap
  · rw [byteRange_of_not_inner description inner, getD_le_zero_iff, Vanishes]
    exact (or_iff_left fun behind => inner behind.1).symm
  obtain ⟨low, lower⟩ : ∃ low, idx.toNat = low + 30 := ⟨idx.toNat - 30, by have := inner.1; omega⟩
  rw [byteRange_of_inner description inner, lower, Nat.add_sub_cancel, Nat.add_assoc]
  cases found : firstStop nBytesCode low 0 (leads nBytesCode description) with
  | none =>
    have ended := (firstStop_eq_none nBytesCode (Nat.zero_le low)).mp found
    rw [Option.getD_none, getD_le_zero_iff, Vanishes, extent]
    refine (or_iff_left fun behind => ?_).symm
    omega
  | some stop =>
    obtain ⟨before, lead, after, split, short, long, sum⟩ :=
      firstStop_eq_some nBytesCode (Nat.zero_le low) found
    rw [Nat.zero_add] at short sum
    have nonempty : description ≠ [] := by
      rintro rfl
      cases found
    rw [Option.getD_some, sum, Vanishes, or_iff_right nonempty]
    cases after with
    | nil =>
      refine iff_of_true (range_empty_of_last split short) ⟨inner, ?_, ?_⟩
      · rw [lastStart, split, List.dropLast_concat, lower]
        omega
      · rw [extent, split, List.map_append, List.sum_append, List.map_singleton,
          List.sum_singleton, lower]
        omega
    | cons second after =>
      refine iff_of_false (not_le.mpr (range_nonempty_of_inside split short)) ?_
      rintro ⟨-, begun, -⟩
      rw [lastStart, split, List.dropLast_append_of_ne_nil (List.cons_ne_nil _ _),
        List.dropLast_cons_cons, List.map_append, List.sum_append, List.map_cons,
        List.sum_cons] at begun
      omega

/-- Nothing is written for a position exactly when its window vanishes. -/
theorem window_eq_nil_iff {description window : Bytes} {idx : UInt64}
    (cut : snippet description idx = .ok window) : window = [] ↔ Vanishes description idx :=
  (snippet_eq_nil_iff cut).trans (range_empty_iff description idx)

/-! ### What the stream holds -/

section Stream

variable {Weight : Type}

/-- The position of a keyword on a page, as `outRes` looks it up. -/
def keywordIndex (table : InvertIndexTable Weight) (page : Page) (key : Bytes) : UInt64 :=
  match (value table key).find? (·.id = page.id) with
  | some posting => UInt64.ofInt posting.position
  | none => 0

/-- The window of a keyword on a page. -/
def keywordWindow (table : InvertIndexTable Weight) (page : Page) (key : Bytes) :
    Except Fault Bytes :=
  snippet page.description (keywordIndex table page key)

theorem keywordIndex_congr {searcher other : WebPageSearcher Weight}
    (reads : searcher.ReadsAs other) :
    keywordIndex searcher.invertIndexTable = keywordIndex other.invertIndexTable := by
  funext page key
  rw [keywordIndex, keywordIndex, reads.table]

/-- The windows of the keywords on a page. -/
def Windows (table : InvertIndexTable Weight) (page : Page) : List Bytes → List Bytes → Prop :=
  List.Forall₂ fun key window => keywordWindow table page key = .ok window

/-- Each text is what the stream held before, and the windows up to its own. -/
def Streams (text : Bytes) (windows texts : List Bytes) : Prop :=
  ∀ i window, windows[i]? = some window →
    texts[i]? = some (text ++ (windows.take i).flatten ++ window)

theorem snippets_streams {page : WebPage Weight} {searcher next : WebPageSearcher Weight}
    {keys texts : List Bytes} {text : Bytes}
    (written : searcher.snippets page keys text = .ok (next, texts)) :
    next.ReadsAs searcher ∧ ∃ windows,
      Windows searcher.invertIndexTable page.toPage keys windows ∧ Streams text windows texts := by
  induction keys generalizing searcher next text texts with
  | nil =>
    obtain ⟨rfl, rfl⟩ := Prod.mk.inj (Except.ok.inj written)
    exact ⟨⟨rfl, rfl⟩, [], List.Forall₂.nil, fun i window found => by cases found⟩
  | cons key keys inductionHypothesis =>
    rw [WebPageSearcher.snippets] at written
    obtain ⟨window, cut, written⟩ := bind_eq_ok.mp written
    obtain ⟨⟨last, later⟩, rest, written⟩ := bind_eq_ok.mp written
    obtain ⟨rfl, rfl⟩ := Prod.mk.inj (Except.ok.inj written)
    obtain ⟨reads, windows, own, streams⟩ := inductionHypothesis
      (show (searcher.postings key).1.snippets page keys _ = _ from rest)
    have same := postings_readsAs searcher key
    refine ⟨reads.trans same, window :: windows, List.Forall₂.cons ?_ ?_, ?_⟩
    · rw [keywordWindow, keywordIndex, ← postings_snd]
      exact cut
    · unfold Windows keywordWindow at own
      rw [keywordIndex_congr same] at own
      exact own
    · intro i other found
      cases i with
      | zero =>
        obtain rfl := Option.some.inj found
        rw [List.take_zero, List.flatten_nil, List.append_nil]
        rfl
      | succ i =>
        rw [List.getElem?_cons_succ, streams i other found, List.take_succ_cons, List.flatten_cons,
          List.append_assoc text]

/-- The windows in front of a keyword are all empty exactly when the stream is. -/
theorem Windows.flatten_eq_nil {table : InvertIndexTable Weight} {page : Page}
    {keys windows : List Bytes} (own : Windows table page keys windows) :
    windows.flatten = [] ↔
      ∀ key ∈ keys, Vanishes page.description (keywordIndex table page key) := by
  induction own with
  | nil => exact iff_of_true rfl (List.forall_mem_nil _)
  | cons cut _ inductionHypothesis =>
    rw [List.flatten_cons, List.append_eq_nil_iff, inductionHypothesis, List.forall_mem_cons,
      window_eq_nil_iff cut]

/-- What is written for a keyword is its own window exactly when the windows in front vanish. -/
theorem snippets_own_iff {page : WebPage Weight} {searcher next : WebPageSearcher Weight}
    {keys texts : List Bytes} (written : searcher.snippets page keys [] = .ok (next, texts))
    {i : Nat} {key : Bytes} (at_key : keys[i]? = some key) :
    ∃ window text, keywordWindow searcher.invertIndexTable page.toPage key = .ok window ∧
      texts[i]? = some text ∧ (text = window ↔ ∀ front ∈ keys.take i,
        Vanishes page.description (keywordIndex searcher.invertIndexTable page.toPage front)) := by
  obtain ⟨-, windows, own, streams⟩ := snippets_streams written
  obtain ⟨inside, found⟩ := List.getElem?_eq_some_iff.mp at_key
  have within : i < windows.length := own.length_eq ▸ inside
  have cut := own.get inside within
  rw [List.get_eq_getElem, List.get_eq_getElem, found] at cut
  refine ⟨windows[i], _, cut, streams i _ (List.getElem?_eq_getElem within), ?_⟩
  have front : Windows searcher.invertIndexTable page.toPage (keys.take i) (windows.take i) :=
    List.forall₂_take i own
  rw [← front.flatten_eq_nil, List.nil_append, List.append_left_eq_self]

/-- The text written for the keyword `i` of the page `p`. -/
def written (jSum : List PageObject) (p i : Nat) : Option Bytes :=
  jSum[p]?.bind fun object => object.description[i]?

theorem outResLoop_own_iff {searcher next : WebPageSearcher Weight} {keys : List Bytes}
    {webPageSet : List (WebPage Weight)} {jSum : List PageObject}
    (looped : searcher.outResLoop keys webPageSet = .ok (next, jSum)) {p : Nat}
    {page : WebPage Weight} (at_page : webPageSet[p]? = some page) {i : Nat} {key : Bytes}
    (at_key : keys[i]? = some key) :
    ∃ window text, keywordWindow searcher.invertIndexTable page.toPage key = .ok window ∧
      written jSum p i = some text ∧ (text = window ↔ ∀ front ∈ keys.take i,
        Vanishes page.description (keywordIndex searcher.invertIndexTable page.toPage front)) := by
  induction webPageSet generalizing searcher next jSum p with
  | nil => cases at_page
  | cons first webPageSet inductionHypothesis =>
    rw [WebPageSearcher.outResLoop] at looped
    obtain ⟨⟨middle, description⟩, cut, looped⟩ := bind_eq_ok.mp looped
    obtain ⟨⟨last, later⟩, rest, looped⟩ := bind_eq_ok.mp looped
    obtain ⟨-, rfl⟩ := Prod.mk.inj (Except.ok.inj looped)
    cases p with
    | zero =>
      obtain rfl := Option.some.inj at_page
      exact snippets_own_iff cut at_key
    | succ p =>
      obtain ⟨reads, -⟩ := snippets_streams cut
      have found := inductionHypothesis rest at_page
      unfold keywordWindow at found
      rw [keywordIndex_congr reads] at found
      exact found

theorem outRes_looped {searcher next : WebPageSearcher Weight}
    {dump : List PageObject → Except Fault Bytes} {keys : List Bytes}
    {webPageSet : List (WebPage Weight)} {jSum : List PageObject} {res : Bytes}
    (run : searcher.outRes dump keys webPageSet = .ok (next, jSum, res)) :
    searcher.outResLoop keys webPageSet = .ok (next, jSum) := by
  obtain ⟨⟨last, objects⟩, looped, run⟩ := bind_eq_ok.mp run
  obtain ⟨response, -, run⟩ := bind_eq_ok.mp run
  obtain ⟨rfl, pair⟩ := Prod.mk.inj (Except.ok.inj run)
  obtain ⟨rfl, -⟩ := Prod.mk.inj pair
  exact looped

/-! ### Two runs -/

/-- Two responses that contain a page are written for lists that contain a keyword. Both show the
keyword's own window there exactly when the windows of the keywords in front of it vanish. -/
theorem outRes_ownWindow_iff {searcher next next' : WebPageSearcher Weight}
    {dump dump' : List PageObject → Except Fault Bytes} {keys keys' : List Bytes}
    {webPageSet webPageSet' : List (WebPage Weight)} {jSum jSum' : List PageObject}
    {res res' : Bytes} (run : searcher.outRes dump keys webPageSet = .ok (next, jSum, res))
    (run' : searcher.outRes dump' keys' webPageSet' = .ok (next', jSum', res')) {p p' : Nat}
    {page : Page} (at_page : webPageSet[p]?.map WebPage.toPage = some page)
    (at_page' : webPageSet'[p']?.map WebPage.toPage = some page) {i i' : Nat} {key : Bytes}
    (at_key : keys[i]? = some key) (at_key' : keys'[i']? = some key) :
    ∃ window text text', keywordWindow searcher.invertIndexTable page key = .ok window ∧
      written jSum p i = some text ∧ written jSum' p' i' = some text' ∧
      (text = window ∧ text' = text ↔ ∀ front ∈ keys.take i ++ keys'.take i',
        Vanishes page.description (keywordIndex searcher.invertIndexTable page front)) := by
  obtain ⟨scored, at_scored, rfl⟩ := Option.map_eq_some_iff.mp at_page
  obtain ⟨scored', at_scored', same⟩ := Option.map_eq_some_iff.mp at_page'
  obtain ⟨window, text, cut, shown, own⟩ := outResLoop_own_iff (outRes_looped run) at_scored at_key
  obtain ⟨window', text', cut', shown', own'⟩ :=
    outResLoop_own_iff (outRes_looped run') at_scored' at_key'
  rw [same] at cut' own'
  obtain rfl := Except.ok.inj (cut.symm.trans cut')
  refine ⟨window, text, text', cut, shown, shown', ?_⟩
  rw [List.forall_mem_append, ← own, ← own']
  exact and_congr_right fun equal => by rw [equal]

/-- A page with the words `a` and `b`. -/
def wordsPage : WebPage Nat := ⟨⟨1, [116], [117], [97, 32, 98]⟩, 0⟩

/-- The keyword `b` in a query for `a b` and alone. -/
theorem outRes_ownWindow_sharedDocument :
    ∃ next next' jSum jSum' res res' window text text',
      sharedDocument.outRes writePages [[97], [98]] [wordsPage] = .ok (next, jSum, res) ∧
      sharedDocument.outRes writePages [[98]] [wordsPage] = .ok (next', jSum', res') ∧
      keywordWindow sharedDocument.invertIndexTable wordsPage.toPage [98] = .ok window ∧
      written jSum 0 1 = some text ∧ written jSum' 0 0 = some text' ∧
      (text = window ∧ text' = text ↔ ∀ front ∈ [[97]],
        Vanishes wordsPage.description
          (keywordIndex sharedDocument.invertIndexTable wordsPage.toPage front)) := by
  have run : ∃ next jSum res, sharedDocument.outRes writePages [[97], [98]] [wordsPage] =
      .ok (next, jSum, res) := ⟨_, _, _, rfl⟩
  have run' : ∃ next jSum res, sharedDocument.outRes writePages [[98]] [wordsPage] =
      .ok (next, jSum, res) := ⟨_, _, _, rfl⟩
  obtain ⟨next, jSum, res, run⟩ := run
  obtain ⟨next', jSum', res', run'⟩ := run'
  have at_page : [wordsPage][0]?.map WebPage.toPage = some wordsPage.toPage := rfl
  have at_key : ([[97], [98]] : List Bytes)[1]? = some [98] := rfl
  have at_key' : ([[98]] : List Bytes)[0]? = some [98] := rfl
  obtain ⟨window, text, text', result⟩ :=
    outRes_ownWindow_iff run run' at_page at_page at_key at_key'
  exact ⟨next, next', jSum, jSum', res, res', window, text, text', run, run', result⟩

/-- Behind the keyword `a`, the snippet of `b` is not its window, and not what it is alone. -/
theorem secondSnippet_accumulates :
    ∃ next next' jSum jSum' res res' window,
      sharedDocument.outRes writePages [[97], [98]] [wordsPage] = .ok (next, jSum, res) ∧
      sharedDocument.outRes writePages [[98]] [wordsPage] = .ok (next', jSum', res') ∧
      keywordWindow sharedDocument.invertIndexTable wordsPage.toPage [98] = .ok window ∧
      written jSum' 0 0 = some window ∧ written jSum 0 1 = some (window ++ window) ∧
      window ++ window ≠ window :=
  ⟨_, _, _, _, _, _, [97, 32, 98], rfl, rfl, rfl, rfl, rfl, by decide⟩

end Stream

end SearchEngine
