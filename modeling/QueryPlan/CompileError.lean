import QueryPlan.Catalog.Build

namespace QueryPlan

inductive CompileError where
  | unknownField (model field : String)
  | catalog (cause : CatalogError)
  | malformedArgument (argument reason : String)
  | depthLimitExceeded (limit : UInt64)
  | conflictingJoin (aliasName : String)
deriving DecidableEq

def CompileError.message : CompileError → String
  | .unknownField model field => s!"Unknown field `{field}` on model `{model}`"
  | .catalog cause => s!"Catalog lookup failed: {cause.message}"
  | .malformedArgument argument reason => s!"Malformed argument `{argument}`: {reason}"
  | .depthLimitExceeded limit =>
    s!"Query nesting exceeds the configured depth limit of {limit.toNat.repr}"
  | .conflictingJoin aliasName =>
    s!"Association `{aliasName}` is selected more than once with different arguments"

end QueryPlan
