import AbstractDomains.Heap.Site

/-!
# Errors

What can go wrong in an analysis. Imprecision is no error, nor is an undefined operation: the first
is an answer of top and the second one of bottom.
-/

namespace AbstractDomains

/-- A breach of contract by a domain or by the user of a table of sites. -/
inductive AnalysisError where
  /-- A reduction turned the second pair into the first, which is not below it. -/
  | inconsistentReduction (reduced given : String × String)
  /-- The location of a key is not in the table. -/
  | unknownSite (key : SiteKey)
deriving DecidableEq

namespace AnalysisError

/-- The error in words. -/
def message : AnalysisError → String
  | inconsistentReduction reduced given =>
    s!"Reduction produced an inconsistent pair: ({reduced.1}, {reduced.2}) from " ++
      s!"({given.1}, {given.2})"
  | unknownSite key => s!"Unknown allocation site: {key}"

end AnalysisError

/-- The outcome of a step of the analysis. -/
abbrev Analysis := Except AnalysisError

/-- How a value is named in an error. -/
class Describe (α : Type) where
  describe : α → String

export Describe (describe)

end AbstractDomains
