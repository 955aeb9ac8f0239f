/-! Names and identifiers shared by every part of the library. Names are compared by their code
points, which is also the order of their UTF-8 bytes. Identifiers are indices, and there is a limit
to them. -/

namespace Monadize

/-- Names of functions, procedures, variables, state components and constants. -/
abbrev Name := String

/-- Indices are 32 bits wide. What is said of constants, placeholders, measures and clusters is said
of at most this many of each. -/
def indexLimit : Nat := 4294967296

/-- Index of a callee placeholder within one compiled function. -/
abbrev PlaceholderId := Nat

/-- Index of a constant in the definition store. -/
abbrev ConstId := Nat

/-- Index of the measure variable of a function within its cluster. -/
abbrev MeasureId := Nat

/-- Index of a cluster of mutually recursive functions, in dependency order. -/
abbrev ClusterId := Nat

end Monadize
