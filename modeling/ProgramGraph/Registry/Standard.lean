import ProgramGraph.Registry.Basic
import ProgramGraph.Tag
/-!
# The registries of the library

Three families of handlers and their unions. The standard registry starts
the elements of a parallel map as jobs; the reference registry evaluates
them one at a time. Races and timeouts are volatile: how they end may hang
on time alone.
-/

namespace ProgramGraph

variable {P : Plugins}

namespace Registry

/-- The structural handlers. -/
def core : Registry P :=
  empty.register Tag.literal (.builtin .literal)
    |>.register Tag.list (.builtin .list)
    |>.register Tag.record (.builtin .record)
    |>.register Tag.apply (.builtin .apply)

/-- The concurrency handlers, the parallel map as given. -/
def concurrencyWith (concurrent : Bool) : Registry P :=
  empty.registerVolatile Tag.race (.builtin .race)
    |>.registerVolatile Tag.timeout (.builtin .timeout)
    |>.register Tag.retry (.builtin .retry)
    |>.register Tag.parMap (.builtin (.parMap concurrent))

/-- The concurrency handlers. -/
def concurrency : Registry P := concurrencyWith true

/-- The concurrency handlers, with the sequential parallel map. -/
def concurrencySequential : Registry P := concurrencyWith false

/-- The error handlers. -/
def errors : Registry P :=
  empty.register Tag.fail (.builtin .fail)
    |>.register Tag.tryCatch (.builtin .tryCatch)
    |>.register Tag.attempt (.builtin .attempt)
    |>.register Tag.guard (.builtin .guard)
    |>.register Tag.settle (.builtin .settle)

/-- All handlers of the library. -/
def standard : Registry P := (core.union concurrency).union errors

/-- All handlers of the library, with the sequential parallel map. -/
def standardSequential : Registry P := (core.union concurrencySequential).union errors

end Registry

end ProgramGraph
