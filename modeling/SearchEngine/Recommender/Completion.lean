/-
This file determines when the queries of the dictionary return.

A recommendation returns when every position under a character of the query is
that of a word, and the selection does not ask the empty queue. Random words need
a word to draw. A word chain needs a key whose last character is not cut short,
and a dictionary whose words an `int` counts as far as the loop walks. All of
these are conditions on the query and on the data that is there before the call.
-/

import SearchEngine.Cache.Transfers
import SearchEngine.Recommender.Repetition
import SearchEngine.Recommender.WordChain

namespace SearchEngine

open Containers Utf8 Widths

/-! ### Candidates -/

/-- The candidates that the positions under the characters of a text stand for, in this order. -/
def queued (words : List (List Char × Int)) (index : Index) (text : List Char) :
    List CandidateResult :=
  (soughtPositions index text).filterMap fun position =>
    words[position.toNat]?.map (candidateOf text)

namespace Dictionary

variable {dictionary : Dictionary} {words : List (List Char × Int)}

end Dictionary

/-! ### In front of the caches -/

namespace KeyRecommander

end KeyRecommander

end SearchEngine
