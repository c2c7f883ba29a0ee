import Mathlib.Data.List.Forall2

/-!
# The product of lists in lexicographic order

`lexProduct [l₁, …, lₙ]` lists the combinations of one element of each list, ordered by the position of
the first element in `l₁`, then of the second in `l₂`, and so on.
-/

namespace Dbms18

variable {α : Type*}

def lexProduct : List (List α) → List (List α)
  | [] => [[]]
  | l :: ls => l.flatMap fun a => (lexProduct ls).map (a :: ·)

theorem mem_lexProduct {ls : List (List α)} {c : List α} : c ∈ lexProduct ls ↔ List.Forall₂ (· ∈ ·) c ls := by
  induction ls generalizing c with
  | nil => simp [lexProduct]
  | cons l ls ih =>
    simp only [lexProduct, List.mem_flatMap, List.mem_map, ih, List.forall₂_cons_right_iff]
    constructor
    · rintro ⟨a, ha, c', hc', rfl⟩
      exact ⟨a, c', ha, hc', rfl⟩
    · rintro ⟨a, c', ha, hc', rfl⟩
      exact ⟨a, ha, c', hc', rfl⟩

@[simp] theorem lexProduct_singleton (l : List α) : lexProduct [l] = l.map fun a => [a] := by
  simp [lexProduct, List.map_eq_flatMap]

theorem lexProduct_concat (ls : List (List α)) (l : List α) :
    lexProduct (ls ++ [l]) = (lexProduct ls).flatMap fun c => l.map fun a => c ++ [a] := by
  induction ls with
  | nil => simp [lexProduct, List.map_eq_flatMap]
  | cons l' ls ih =>
    simp only [List.cons_append, lexProduct, ih, List.flatMap_assoc, List.map_flatMap, List.flatMap_map,
      List.map_map, Function.comp_def]

end Dbms18
