/-! # Conversion errors

The errors that the modelled operations return. -/

namespace IntoMarkdown.Core

/-- What `checkpoint` returns when cancellation, the deadline or a missing
deadline timer wins. -/
inductive Interruption where
  | cancelled | timeout | componentUnavailable
  deriving DecidableEq, Repr

inductive ConversionError where
  | interrupted (interruption : Interruption)
  | resourceLimit (limit : String) (detail : String)
  | recovery (reason : String) (detail : String)
  | internal (detail : String)
  deriving DecidableEq, Repr

end IntoMarkdown.Core
