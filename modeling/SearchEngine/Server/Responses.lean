/-
This file follows the responses of `MyTask::process` to the client, which reads
them with the parser of the same JSON library.

Every response is parsed as the value its handler built, with the words, the
pages and the strings unchanged: the writer has escaped what the parser would
take for something else, the names of the objects are in order, and the ids of
pages have been read by `stoi`, so that they fit into the numbers of the parser.
-/

import SearchEngine.Json.RoundTrip
import SearchEngine.Server.TaskProcessing

namespace SearchEngine

open Utf8

/-! ### What the client reads -/

/-- The value of a recommendation. -/
def recommendValue (msgContent : Bytes) (res : List Bytes) : Value :=
  .object ((ascii "key", .string msgContent) ::
    if res = [] then [] else [(ascii "values", .array (res.map .string))])

/-- The value of random words or of a word chain. -/
def keysValue (keys : List Bytes) : Value :=
  if keys = [] then .null else .object [(ascii "keys", .array (keys.map .string))]

/-- The value of a page. -/
def pageValue (object : PageObject) : Value :=
  .object [(ascii "description", .array (object.description.map .string)),
    (ascii "id", if 0 ≤ object.id then .unsigned object.id.toNat else .integer object.id),
    (ascii "link", .string object.link), (ascii "title", .string object.title)]

/-- The value of a search. -/
def pagesValue (jSum : List PageObject) : Value :=
  if jSum = [] then .null else .array (jSum.map pageValue)

namespace Json

theorem parsedElements_eq_map (elements : List Json) :
    parsedElements elements = elements.map parsed := by
  induction elements with
  | nil => rfl
  | cons element elements inductionHypothesis =>
    rw [parsedElements, inductionHypothesis, List.map_cons]

theorem parsed_strings (texts : List Bytes) :
    (Json.array (texts.map .string)).parsed = .array (texts.map .string) := by
  rw [parsed, parsedElements_eq_map, List.map_map]
  rfl

theorem proper_strings (texts : List Bytes) : (Json.array (texts.map .string)).Proper := by
  refine .array fun element member => ?_
  obtain ⟨text, -, rfl⟩ := List.mem_map.mp member
  exact .string text

end Json

namespace MyTask

theorem proper_recommendJson (msgContent : Bytes) (res : List Bytes) :
    (recommendJson msgContent res).Proper := by
  rw [recommendJson]
  split_ifs with empty
  · exact .object (List.pairwise_singleton _ _) (List.forall_mem_singleton.mpr (.string _))
  · have before : bytesLess (ascii "key") (ascii "values") = true := by decide
    refine .object (List.pairwise_pair.mpr before) (List.forall_mem_cons.mpr ⟨.string _, ?_⟩)
    exact List.forall_mem_singleton.mpr (Json.proper_strings res)

theorem parsed_recommendJson (msgContent : Bytes) (res : List Bytes) :
    (recommendJson msgContent res).parsed = recommendValue msgContent res := by
  rw [recommendJson, recommendValue]
  split_ifs with empty
  · rfl
  · rw [← Json.parsed_strings]
    rfl

theorem proper_keysJson (keys : List Bytes) : (keysJson keys).Proper := by
  rw [keysJson]
  split_ifs with empty
  · exact .null
  · exact .object (List.pairwise_singleton _ _)
      (List.forall_mem_singleton.mpr (Json.proper_strings keys))

theorem parsed_keysJson (keys : List Bytes) : (keysJson keys).parsed = keysValue keys := by
  rw [keysJson, keysValue]
  split_ifs with empty
  · rfl
  · rw [← Json.parsed_strings]
    rfl

end MyTask

/-! ### Pages -/

theorem PageObject.proper_toJson {object : PageObject} (least : -2 ^ 63 ≤ object.id)
    (bound : object.id < 2 ^ 64) : object.toJson.Proper := by
  have names : [ascii "description", ascii "id", ascii "link", ascii "title"].Pairwise
      fun first second => bytesLess first second := by decide
  have ordered : [(ascii "description", Json.array (object.description.map .string)),
      (ascii "id", .number object.id), (ascii "link", .string object.link),
      (ascii "title", .string object.title)].Pairwise
        fun first second => bytesLess first.1 second.1 :=
    (@List.pairwise_map _ _ Prod.fst (fun first second => bytesLess first second = true) _).mp names
  refine .object ordered ?_
  simp only [List.forall_mem_cons]
  exact ⟨Json.proper_strings _, .number least bound, .string _, .string _, List.forall_mem_nil _⟩

theorem PageObject.parsed_toJson (object : PageObject) :
    object.toJson.parsed = pageValue object := by
  rw [pageValue, ← Json.parsed_strings]
  rfl

theorem parsed_pages (jSum : List PageObject) :
    (Json.pushed (jSum.map PageObject.toJson)).parsed = pagesValue jSum := by
  rw [Json.pushed, pagesValue]
  simp only [List.map_eq_nil_iff]
  split_ifs with empty
  · rfl
  · rw [Json.parsed, Json.parsedElements_eq_map, List.map_map]
    congr 2
    funext object
    exact object.parsed_toJson

theorem proper_pages {jSum : List PageObject}
    (ids : ∀ object ∈ jSum, -2 ^ 63 ≤ object.id ∧ object.id < 2 ^ 64) :
    (Json.pushed (jSum.map PageObject.toJson)).Proper := by
  rw [Json.pushed]
  split_ifs with empty
  · exact .null
  · refine .array fun element member => ?_
    obtain ⟨object, listed, rfl⟩ := List.mem_map.mp member
    exact PageObject.proper_toJson (ids object listed).1 (ids object listed).2

section Searches

variable {Weight : Type} {source : PageSource} {searcher next : WebPageSearcher Weight}

theorem stoi_range {text : Bytes} {value : Int} (accepted : stoi text = .ok value) :
    -2 ^ 31 ≤ value ∧ value < 2 ^ 31 := by
  obtain ⟨scanned, -, accepted⟩ := bind_eq_ok.mp accepted
  split_ifs at accepted with inRange
  obtain rfl := Except.ok.inj accepted
  exact inRange

/-- The id of a page is one that `stoi` returns. -/
theorem id_of_readPage {range : Int × Int} {page : Page}
    (reads : readPage source range = .ok page) :
    -2 ^ 31 ≤ page.id ∧ page.id < 2 ^ 31 := by
  obtain ⟨buf, -, reads⟩ := bind_eq_ok.mp reads
  obtain ⟨children, -, reads⟩ := bind_eq_ok.mp reads
  obtain ⟨docid, -, reads⟩ := bind_eq_ok.mp reads
  obtain ⟨id, accepted, reads⟩ := bind_eq_ok.mp reads
  obtain ⟨title, -, reads⟩ := bind_eq_ok.mp reads
  obtain ⟨link, -, reads⟩ := bind_eq_ok.mp reads
  obtain ⟨description, -, reads⟩ := bind_eq_ok.mp reads
  obtain rfl := Except.ok.inj reads
  exact stoi_range accepted

variable [Arithmetic Weight]

/-- The pages of an answer have ids in the range of `int`, and are what is written. -/
theorem doQuery_writes {query : Bytes} {answer : Answer}
    (ended : searcher.doQuery source writePages query = .ok (next, answer)) :
    writePages answer.jSum = .ok answer.res ∧
      ∀ object ∈ answer.jSum, -2 ^ 31 ≤ object.id ∧ object.id < 2 ^ 31 := by
  obtain ⟨-, stored, ids⟩ := doQuery_spec ended
  constructor
  · obtain ⟨collected, -, ended⟩ := bind_eq_ok.mp ended
    obtain ⟨gathered, -, ended⟩ := bind_eq_ok.mp ended
    obtain ⟨written, outputs, ended⟩ := bind_eq_ok.mp ended
    obtain ⟨looped, -, outputs⟩ := bind_eq_ok.mp outputs
    obtain ⟨res, dumps, outputs⟩ := bind_eq_ok.mp outputs
    obtain rfl := Except.ok.inj outputs
    obtain ⟨-, rfl⟩ := Prod.mk.inj (Except.ok.inj ended)
    exact dumps
  · intro object member
    have listed := List.mem_map_of_mem (f := PageObject.id) member
    rw [ids, List.map_map] at listed
    obtain ⟨call, kept, same⟩ := List.mem_map.mp listed
    have among : call.1 ∈ collectedIds searcher.invertIndexTable query := by
      rw [← map_fst_scored]
      exact List.mem_map_of_mem (mem_of_mem_keptCalls kept)
    rw [← same]
    exact id_of_readPage (stored call.1 among)

end Searches

/-! ### Responses -/

namespace MyTask

section Responses

variable {Weight : Type} [Arithmetic Weight] (que : PriorityQueue CandidateResult.less)
  (source : PageSource) (rand : Fin 5 → Nat)

/-- The values that a handler answers with. -/
inductive Answers (bag : DataBag Weight) (msgContent : Bytes) : Handler → Value → Prop where
  | recommend {res : List Bytes}
      (found : (bag.keyRecommander.doQuery que msgContent bag.threadIdx).2 = .ok res) :
      Answers bag msgContent .recommend (recommendValue msgContent res)
  | search {next : WebPageSearcher Weight} {answer : Answer}
      (found : bag.webPageSearcher.doQuery source writePages msgContent = .ok (next, answer)) :
      Answers bag msgContent .search (pagesValue answer.jSum)
  | randDict {keys : List Bytes} (found : bag.keyRecommander.getRandDict rand [] = .ok keys) :
      Answers bag msgContent .randDict (keysValue keys)
  | solitaire {keys : List Bytes}
      (found : bag.keyRecommander.getSolitaireKeys msgContent [] = .ok keys) :
      Answers bag msgContent .solitaire (keysValue keys)

variable {que source rand} {bag next : DataBag Weight} {msgContent response : Bytes}

/-- The response of a handler is parsed as its value. -/
theorem parse_of_handle (isfinite : Bytes → Bool) {handler : Handler}
    (ended : handle que source rand bag msgContent handler = .ok (next, response)) :
    ∃ value, Answers que source rand bag msgContent handler value ∧
      Parser.parse isfinite response = .ok value := by
  cases handler with
  | recommend =>
    obtain ⟨res, found, ended⟩ := bind_eq_ok.mp ended
    obtain ⟨written, dumps, ended⟩ := bind_eq_ok.mp ended
    obtain ⟨-, rfl⟩ := Prod.mk.inj (Except.ok.inj ended)
    refine ⟨_, .recommend found, ?_⟩
    rw [← parsed_recommendJson]
    exact Parser.parse_dump isfinite (proper_recommendJson msgContent res) dumps
  | search =>
    obtain ⟨⟨searcher, answer⟩, found, ended⟩ := bind_eq_ok.mp ended
    obtain ⟨-, rfl⟩ := Prod.mk.inj (Except.ok.inj ended)
    obtain ⟨dumps, ids⟩ := doQuery_writes found
    refine ⟨_, .search found, ?_⟩
    rw [← parsed_pages]
    refine Parser.parse_dump isfinite (proper_pages fun object member => ?_) dumps
    obtain ⟨least, bound⟩ := ids object member
    omega
  | randDict =>
    obtain ⟨keys, found, ended⟩ := bind_eq_ok.mp ended
    obtain ⟨written, dumps, ended⟩ := bind_eq_ok.mp ended
    obtain ⟨-, rfl⟩ := Prod.mk.inj (Except.ok.inj ended)
    refine ⟨_, .randDict found, ?_⟩
    rw [← parsed_keysJson]
    exact Parser.parse_dump isfinite (proper_keysJson keys) dumps
  | solitaire =>
    obtain ⟨keys, found, ended⟩ := bind_eq_ok.mp ended
    obtain ⟨written, dumps, ended⟩ := bind_eq_ok.mp ended
    obtain ⟨-, rfl⟩ := Prod.mk.inj (Except.ok.inj ended)
    refine ⟨_, .solitaire found, ?_⟩
    rw [← parsed_keysJson]
    exact Parser.parse_dump isfinite (proper_keysJson keys) dumps

/-- Every response that is sent is parsed by the client as the value the handler of the operator id
has built. -/
theorem response_parsed (isfinite : Bytes → Bool) {request : Bytes}
    (sent : process que source rand bag request = .ok (next, some response)) :
    ∃ handler value, dispatch (operatorField request) = some handler ∧
      Answers que source rand bag (contentField request) handler value ∧
      Parser.parse isfinite response = .ok value := by
  have fits : Fits request := by
    obtain ⟨processed, parsed, -⟩ := bind_eq_ok.mp sent
    exact fits_of_process parsed
  obtain ⟨handler, dispatched, handled⟩ := handle_of_process fits sent
  obtain ⟨value, answers, parses⟩ := parse_of_handle isfinite handled
  exact ⟨handler, value, dispatched, answers, parses⟩

end Responses

/-- The response to a request for random words, where every draw is the first word. -/
theorem response_parsed_sample :
    letI := wholeNumbers
    let request : Bytes := [0, 0, 0, 0, 3, 0, 0, 0, 10]
    let response := ascii "\x7b\"keys\":[\"a\",\"a\",\"a\",\"a\",\"a\"]\x7d"
    process orderedQueue noPages (fun _ => 0) sampleBag request = .ok (sampleBag, some response) ∧
      ∃ handler value, dispatch (operatorField request) = some handler ∧
        Answers orderedQueue noPages (fun _ => 0) sampleBag (contentField request) handler value ∧
        Parser.parse (fun _ => true) response = .ok value := by
  let := wholeNumbers
  intro request response
  have fits : Fits request := ⟨by decide, by decide, by decide⟩
  have sent : process orderedQueue noPages (fun _ => 0) sampleBag request =
      .ok (sampleBag, some response) := by
    rw [process_of_fits fits rfl]
    rfl
  exact ⟨sent, response_parsed _ sent⟩

end MyTask

end SearchEngine
