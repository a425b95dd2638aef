/-!
# Tags

The tags of the handlers of the library. The part before the stroke names
the family of the handler.
-/

namespace ProgramGraph.Tag

/-- The tag of constants. -/
def literal : String := "core/literal"

/-- The tag of lists. -/
def list : String := "core/list"

/-- The tag of records. -/
def record : String := "core/record"

/-- The tag of lambda applications. -/
def apply : String := "core/apply"

/-- The tag of parallel maps. -/
def parMap : String := "async/par_map"

/-- The tag of races. -/
def race : String := "async/race"

/-- The tag of timeouts. -/
def timeout : String := "async/timeout"

/-- The tag of retries. -/
def retry : String := "async/retry"

/-- The tag of failures. -/
def fail : String := "error/fail"

/-- The tag of recoveries. -/
def tryCatch : String := "error/try"

/-- The tag of attempts. -/
def attempt : String := "error/attempt"

/-- The tag of guards. -/
def guard : String := "error/guard"

/-- The tag of settlements. -/
def settle : String := "error/settle"

end ProgramGraph.Tag
