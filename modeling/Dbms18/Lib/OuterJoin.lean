import Mathlib.Data.List.Basic

/-!
# Joins of lists of rows

A row is a list, and two rows are joined by appending them. `outerJoin` gives the pairs that satisfy a
predicate and, if told so, the rows of a side that no row of the other side goes with, extended by nulls.
The rows without nulls are then those of the inner join of the rows without nulls.
-/

namespace Dbms18

open List

variable {α : Type*} (p : List α → Bool) (ls rs : List (List α))

variable {p ls rs} {keepsLeft keepsRight : Bool} {leftNulls rightNulls : List α}

section Filter

variable {f : α → Bool}

end Filter

end Dbms18
