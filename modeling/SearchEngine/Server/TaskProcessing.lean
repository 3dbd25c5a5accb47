/-
This file models `MyTask::process` with its four handlers, and determines for
which requests it returns.

Nothing between `process` and the thread function of a worker catches an
exception, so one that leaves `process` ends the program. The splitter of the
dictionary throws on a query that is not UTF-8, and so does the JSON writer on
any string. Besides exceptions a handler can read outside of a container, ask an
empty queue, or divide by the size of an empty dictionary. These are faults of the
model too, and a request is answered only if none of them happens.
-/

import SearchEngine.Recommender.Completion
import SearchEngine.Searcher.Completion
import SearchEngine.Server.ParseBounds

namespace SearchEngine

open Containers Utf8 Widths

/-! ### `MyTask::process` -/

/-- `DataBag` -/
structure DataBag (Weight : Type) where
  threadIdx : Fin 4
  keyRecommander : KeyRecommander
  webPageSearcher : WebPageSearcher Weight

namespace MyTask

/-- The value with the words of a recommendation. -/
def recommendJson (msgContent : Bytes) (res : List Bytes) : Json :=
  .object ((ascii "key", .string msgContent) ::
    if res = [] then [] else [(ascii "values", .array (res.map .string))])

/-- The value with the words of `getRandDict` or `getSolitaireKeys`. -/
def keysJson (keys : List Bytes) : Json :=
  if keys = [] then .null else .object [(ascii "keys", .array (keys.map .string))]

section Process

variable {Weight : Type} [Arithmetic Weight] (que : PriorityQueue CandidateResult.less)
  (source : PageSource) (rand : Fin 5 → Nat)

/-- The handlers: the shared objects after a call, and the response. -/
def handle (bag : DataBag Weight) (msgContent : Bytes) :
    Handler → Except Fault (DataBag Weight × Bytes)
  | .recommend => do
    let (keyRecommander, res) := bag.keyRecommander.doQuery que msgContent bag.threadIdx
    let res ← res
    let response ← Serializer.dump (recommendJson msgContent res)
    return ({ bag with keyRecommander }, response)
  | .search => do
    let (webPageSearcher, answer) ← bag.webPageSearcher.doQuery source writePages msgContent
    return ({ bag with webPageSearcher }, answer.res)
  | .randDict => do
    let keys ← bag.keyRecommander.getRandDict rand []
    let response ← Serializer.dump (keysJson keys)
    return (bag, response)
  | .solitaire => do
    let keys ← bag.keyRecommander.getSolitaireKeys msgContent []
    let response ← Serializer.dump (keysJson keys)
    return (bag, response)

/-- `MyTask::process`: the shared objects after it, and the response that is sent. -/
def process (bag : DataBag Weight) (request : Bytes) :
    Except Fault (DataBag Weight × Option Bytes) := do
  let (message, handler) ← SearchEngine.process request
  match handler with
  | none => return (bag, none)
  | some handler =>
    let (bag, response) ← handle que source rand bag message.msgContent handler
    return (bag, some response)

/-! ### Strings that are written -/

/-- The data that is loaded is UTF-8: the words of the dictionary and of the caches, and the texts
of the pages that can be read. -/
structure Sound (source : PageSource) (words : List (List Char × Int)) (bag : DataBag Weight) :
    Prop where
  dict : bag.keyRecommander.dic.dict = words.map encodeEntry
  caches : CacheManager.Holds (fun _ value => ∀ word ∈ value, Valid word)
    bag.keyRecommander.cachemanager.caches
  pages : ∀ id page, storedPage source bag.webPageSearcher id = .ok page → ValidPage page

omit [Arithmetic Weight] in
theorem Sound.words {source : PageSource} {words : List (List Char × Int)} {bag : DataBag Weight}
    (sound : Sound source words bag) : ∀ entry ∈ bag.keyRecommander.dic.dict, Valid entry.1 := by
  rw [sound.dict, List.forall_mem_map]
  exact fun entry _ => ⟨entry.1, rfl⟩

variable {que source rand} {words : List (List Char × Int)} {bag : DataBag Weight}
  {msgContent : Bytes}

/-! ### Handlers that return -/

/-- A request that fits is answered by its handler. -/
theorem process_of_fits {request : Bytes} (fits : Fits request) {handler : Handler}
    (dispatched : dispatch (operatorField request) = some handler) :
    process que source rand bag request = (do
      let (bag, response) ← handle que source rand bag (contentField request) handler
      return (bag, some response)) := by
  rw [process, process_eq_of_fits fits, ok_bind, dispatched]

/-- A request without a handler is dropped. -/
theorem process_of_undispatched {request : Bytes} (fits : Fits request)
    (dispatched : dispatch (operatorField request) = none) :
    process que source rand bag request = .ok (bag, none) := by
  rw [process, process_eq_of_fits fits, ok_bind, dispatched]
  rfl

/-- A response is that of its handler. -/
theorem handle_of_process {request response : Bytes} {next : DataBag Weight} (fits : Fits request)
    (sent : process que source rand bag request = .ok (next, some response)) :
    ∃ handler, dispatch (operatorField request) = some handler ∧
      handle que source rand bag (contentField request) handler = .ok (next, response) := by
  cases dispatched : dispatch (operatorField request) with
  | none =>
    rw [process_of_undispatched fits dispatched] at sent
    cases sent
  | some handler =>
    rw [process_of_fits fits dispatched] at sent
    obtain ⟨⟨after, written⟩, handled, ended⟩ := bind_eq_ok.mp sent
    obtain ⟨rfl, same⟩ := Prod.mk.inj (Except.ok.inj ended)
    obtain rfl := Option.some.inj same
    exact ⟨handler, rfl, handled⟩

end Process

/-! ### Samples -/

/-- The words `a` and `b` with a cached answer for `a`, and no pages. -/
def sampleBag : DataBag Nat := ⟨1, KeyRecommander.sampleRecommander, ⟨∅, ∅⟩⟩

def noPages : PageSource := ⟨fun _ => none, []⟩

end MyTask

end SearchEngine
