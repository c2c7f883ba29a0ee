import Mathlib.Data.List.Nodup

/-!
# Overlaying a map with a list of writes

A write puts or deletes one key. `overlay m ops` performs `ops` on `m` in order, so for every key the
last write to it decides (`getElem?_overlay`). Performing a prefix of `ops` beforehand changes
nothing (`overlay_overlay_absorb`): every key the prefix wrote is written again.
-/

namespace Dbms18.Overlay

open Std

inductive Op (K V : Type*)
  | put (k : K) (v : V)
  | delete (k : K)
deriving DecidableEq, Repr

variable {K V : Type*}

namespace Op

def key : Op K V → K
  | put k _ => k
  | delete k => k

def value : Op K V → Option V
  | put _ v => some v
  | delete _ => none

end Op

variable {cmp : K → K → Ordering} [TransCmp cmp]

def apply (m : ExtTreeMap K V cmp) : Op K V → ExtTreeMap K V cmp
  | .put k v => m.insert k v
  | .delete k => m.erase k

def overlay (m : ExtTreeMap K V cmp) (ops : List (Op K V)) : ExtTreeMap K V cmp :=
  ops.foldl apply m

@[simp] theorem overlay_cons (m : ExtTreeMap K V cmp) (op : Op K V) (ops : List (Op K V)) :
    overlay m (op :: ops) = overlay (apply m op) ops := rfl

theorem overlay_append (m : ExtTreeMap K V cmp) (ops ops' : List (Op K V)) :
    overlay m (ops ++ ops') = overlay (overlay m ops) ops' := by
  simp [overlay]

theorem nodup_toList (m : ExtTreeMap K V cmp) : m.toList.Nodup := by
  refine List.Nodup.of_map Prod.fst ?_
  rw [ExtTreeMap.map_fst_toList_eq_keys]
  exact ExtTreeMap.nodup_keys

variable [LawfulEqCmp cmp] [DecidableEq K]

theorem getElem?_apply (m : ExtTreeMap K V cmp) (op : Op K V) (k : K) :
    (apply m op)[k]? = if op.key = k then op.value else m[k]? := by
  cases op with
  | put k' v => by_cases h : k' = k <;> simp [apply, Op.key, Op.value, ExtTreeMap.getElem?_insert, h]
  | delete k' => by_cases h : k' = k <;> simp [apply, Op.key, Op.value, ExtTreeMap.getElem?_erase, h]

def last (k : K) : List (Op K V) → Option (Option V)
  | [] => none
  | op :: ops => (last k ops).or (if op.key = k then some op.value else none)

theorem last_append (k : K) (ops ops' : List (Op K V)) :
    last k (ops ++ ops') = (last k ops').or (last k ops) := by
  induction ops with
  | nil => simp [last]
  | cons op ops ih => simp [last, ih, Option.or_assoc]

variable {ops : List (Op K V)}

theorem last_eq_none_iff {k : K} : last k ops = none ↔ k ∉ ops.map Op.key := by
  induction ops with
  | nil => simp [last]
  | cons op ops ih => by_cases h : op.key = k <;> simp_all [last, eq_comm]

theorem exists_of_last_eq_some {k : K} {v : Option V} (h : last k ops = some v) :
    ∃ op ∈ ops, op.key = k ∧ op.value = v := by
  induction ops with
  | nil => cases h
  | cons op ops ih =>
    rw [last] at h
    rcases Option.or_eq_some_iff.1 h with h | ⟨-, h⟩
    · obtain ⟨op', hmem, h'⟩ := ih h
      exact ⟨op', List.mem_cons_of_mem _ hmem, h'⟩
    · split at h
      · next heq => exact ⟨op, List.mem_cons_self, heq, Option.some.inj h⟩
      · cases h

theorem getElem?_overlay (m : ExtTreeMap K V cmp) (ops : List (Op K V)) (k : K) :
    (overlay m ops)[k]? = (last k ops).getD m[k]? := by
  induction ops generalizing m with
  | nil => rfl
  | cons op ops ih =>
    rw [overlay_cons, ih, getElem?_apply, last]
    cases last k ops with
    | some v => rfl
    | none => by_cases h : op.key = k <;> simp [h]

variable {m : ExtTreeMap K V cmp}

theorem getElem?_overlay_eq_none_iff {k : K} (hputs : ∀ op ∈ ops, op.value ≠ none) (hm : m[k]? = none) :
    (overlay m ops)[k]? = none ↔ k ∉ ops.map Op.key := by
  rw [getElem?_overlay, ← last_eq_none_iff]
  cases hlast : last k ops with
  | none => simp [hm]
  | some v =>
    obtain ⟨op, hmem, -, hv⟩ := exists_of_last_eq_some hlast
    simpa [hv] using hputs op hmem

theorem toList_insert_perm {k : K} {v : V} (hk : m[k]? = none) :
    (m.insert k v).toList.Perm ((k, v) :: m.toList) := by
  have hnotin : ∀ v', (k, v') ∉ m.toList := fun v' hmem => by
    rw [ExtTreeMap.mem_toList_iff_getElem?_eq_some, hk] at hmem
    cases hmem
  refine (List.perm_ext_iff_of_nodup (nodup_toList _) (List.nodup_cons.2 ⟨hnotin v, nodup_toList m⟩)).2 ?_
  rintro ⟨k', v'⟩
  rw [ExtTreeMap.mem_toList_iff_getElem?_eq_some, ExtTreeMap.getElem?_insert, List.mem_cons]
  by_cases hkk : k = k'
  · subst hkk
    rw [if_pos ReflCmp.compare_self]
    simpa [hnotin v'] using eq_comm
  · simp [hkk, ExtTreeMap.mem_toList_iff_getElem?_eq_some, Ne.symm hkk]

theorem toList_overlay_perm {new : List (K × V)} (hnodup : (new.map Prod.fst).Nodup) (hfresh : ∀ r ∈ new, m[r.1]? = none) :
    (overlay m (new.map fun r => .put r.1 r.2)).toList.Perm (m.toList ++ new) := by
  induction new generalizing m with
  | nil => simp [overlay]
  | cons r new ih =>
    rw [List.map_cons, List.nodup_cons] at hnodup
    have hrest : ∀ r' ∈ new, (m.insert r.1 r.2)[r'.1]? = none := by
      intro r' hr'
      have hne : r.1 ≠ r'.1 := fun heq => hnodup.1 (heq ▸ List.mem_map_of_mem hr')
      rw [ExtTreeMap.getElem?_insert, if_neg (by simpa using hne)]
      exact hfresh r' (List.mem_cons_of_mem _ hr')
    calc (overlay (m.insert r.1 r.2) (new.map fun r => .put r.1 r.2)).toList
        |>.Perm ((m.insert r.1 r.2).toList ++ new) := ih hnodup.2 hrest
      _ |>.Perm (r :: m.toList ++ new) := (toList_insert_perm (hfresh r List.mem_cons_self)).append_right new
      _ |>.Perm (m.toList ++ r :: new) := List.perm_middle.symm

theorem overlay_overlay_absorb (m : ExtTreeMap K V cmp) {ops ops' : List (Op K V)}
    (h : ops <+: ops') : overlay (overlay m ops) ops' = overlay m ops' := by
  obtain ⟨rest, rfl⟩ := h
  refine ExtTreeMap.ext_getElem? fun k => ?_
  rw [getElem?_overlay, getElem?_overlay, getElem?_overlay, last_append]
  cases last k rest with
  | some v => rfl
  | none => cases last k ops <;> rfl

end Dbms18.Overlay
