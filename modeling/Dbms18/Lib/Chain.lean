import Mathlib.Data.List.Induction
import Mathlib.Data.List.Nodup
import Dbms18.Lib.Loop

/-!
# Doubly linked chains

A heap of nodes with two links each. `Chain h p xs n` says that the nodes `xs` are linked one behind the
other, with `p` before the first and `n` behind the last. A chain may be cut and joined anywhere
(`chain_append`), a change of other nodes leaves it (`Chain.congr`), and its ends may be linked anew
(`Chain.setLast`, `Chain.setFirst`); what a program does to its links is a few such steps. Following the
links lists the nodes (`Chain.walk_next`, `Chain.walk_prev`), and a loop that follows them ends at the
last node (`loop_follow`).
-/

namespace Dbms18

open List

structure Links (α : Type) where
  prev : Option α
  next : Option α
deriving DecidableEq

def Links.null {α : Type} : Links α := ⟨none, none⟩

abbrev LinkHeap (α : Type) := α → Links α

namespace LinkHeap

variable {α : Type} [DecidableEq α]

def setNext (h : LinkHeap α) (a : α) (next : Option α) : LinkHeap α := Function.update h a { h a with next := next }

def setPrev (h : LinkHeap α) (a : α) (prev : Option α) : LinkHeap α := Function.update h a { h a with prev := prev }

/-- `if (p != NULL) p->next_ = next`. -/
def setNext? (h : LinkHeap α) (p : Option α) (next : Option α) : LinkHeap α := p.elim h (h.setNext · next)

/-- `if (p != NULL) p->prev_ = prev`. -/
def setPrev? (h : LinkHeap α) (p : Option α) (prev : Option α) : LinkHeap α := p.elim h (h.setPrev · prev)

variable {h : LinkHeap α} {a b : α} {p v : Option α}

@[simp] theorem setNext_self : h.setNext a v a = ⟨(h a).prev, v⟩ := Function.update_self ..

@[simp] theorem setPrev_self : h.setPrev a v a = ⟨v, (h a).next⟩ := Function.update_self ..

theorem setNext_of_ne (hne : b ≠ a) : h.setNext a v b = h b := Function.update_of_ne hne ..

theorem setPrev_of_ne (hne : b ≠ a) : h.setPrev a v b = h b := Function.update_of_ne hne ..

theorem setNext_setPrev_comm {w : Option α} : (h.setPrev a v).setNext b w = (h.setNext b w).setPrev a v := by
  funext c
  by_cases hb : c = b <;> by_cases ha : c = a <;> simp [setNext, setPrev, Function.update, hb, ha] <;> split <;> simp_all

theorem setNext?_of_ne (hne : p ≠ some b) : h.setNext? p v b = h b := by
  cases p with
  | none => rfl
  | some a => exact setNext_of_ne fun heq => hne (congrArg some heq.symm)

theorem setPrev?_of_ne (hne : p ≠ some b) : h.setPrev? p v b = h b := by
  cases p with
  | none => rfl
  | some a => exact setPrev_of_ne fun heq => hne (congrArg some heq.symm)

end LinkHeap

/-! ## Following links -/

section Walk

variable {α : Type}

/-- Following `f` from the pointer `o` lists `xs`, and then there is a null pointer. -/
def Walk (f : α → Option α) : Option α → List α → Prop
  | o, [] => o = none
  | o, x :: xs => o = some x ∧ Walk f (f x) xs

/-- A pass of the loop that follows `f` from `p` while it can. -/
def followStep (f : α → Option α) (p : α) : Res (α ⊕ α) := .ok ((f p).elim (.inr p) .inl)

variable {f : α → Option α}

theorem loop_follow {x y : α} {xs : List α} (h : Walk f (some x) xs) (hy : xs.getLast? = some y) :
    Res.loop (followStep f) xs.length x = .ok y := by
  induction xs generalizing x with
  | nil => cases h
  | cons z xs ih =>
    obtain ⟨hz, h⟩ := h
    obtain rfl := Option.some.inj hz
    cases xs with
    | nil =>
      obtain rfl := Option.some.inj hy
      have hend : f x = none := h
      exact Res.loop_of_return (by rw [followStep, hend]; rfl)
    | cons w ws =>
      rw [length_cons, Res.loop_of_continue (by rw [followStep, h.1]; rfl)]
      refine ih ?_ (by simpa using hy)
      rwa [h.1] at h

theorem walk_of_loop_follow {fuel : Nat} {x y : α} (h : Res.loop (followStep f) fuel x = .ok y) :
    ∃ xs, Walk f (some x) xs ∧ xs.getLast? = some y := by
  induction fuel generalizing x with
  | zero => cases h
  | succ fuel ih =>
    rcases Res.loop_eq_ok h with ⟨z, hz, h⟩ | hx
    · obtain ⟨xs, hwalk, hlast⟩ := ih h
      have hnext : f x = some z := by
        cases hfx : f x with
        | none => simp [followStep, hfx] at hz
        | some w => simpa [followStep, hfx] using hz
      refine ⟨x :: xs, ⟨rfl, hnext ▸ hwalk⟩, ?_⟩
      rw [getLast?_cons, hlast]
      rfl
    · have hend : f x = none ∧ x = y := by
        cases hfx : f x with
        | none => simpa [followStep, hfx] using hx
        | some w => simp [followStep, hfx] at hx
      exact ⟨[x], ⟨rfl, hend.1⟩, congrArg some hend.2⟩

/-- A pass of the loop that goes through a list by `f` and puts what `g` makes of each node into a vector. -/
def collectStep {β : Type} (f : α → Option α) (g : α → Res β) (s : Option α × List β) :
    Res ((Option α × List β) ⊕ List β) :=
  match s.1 with
  | none => .ok (.inr s.2)
  | some p => do
    let b ← g p
    return .inl (f p, s.2 ++ [b])

theorem loop_collect {β : Type} {g : α → Res β} {o : Option α} {xs : List α} {acc bs : List β} (h : Walk f o xs)
    (hg : List.Forall₂ (fun x b => g x = .ok b) xs bs) {fuel : Nat} (hfuel : xs.length < fuel) :
    Res.loop (collectStep f g) fuel (o, acc) = .ok (acc ++ bs) := by
  obtain ⟨fuel, rfl⟩ := Nat.exists_eq_add_one_of_ne_zero (Nat.ne_zero_of_lt hfuel)
  induction hg generalizing o acc fuel with
  | nil =>
    obtain rfl : o = none := h
    rw [append_nil]
    exact Res.loop_of_return rfl
  | @cons x b xs bs hb _ ih =>
    obtain ⟨rfl, h⟩ := h
    rw [length_cons] at hfuel
    obtain ⟨fuel, rfl⟩ := Nat.exists_eq_add_one_of_ne_zero (show fuel ≠ 0 by omega)
    rw [Res.loop_of_continue (by simp [collectStep, hb]; rfl), ih h _ (by omega), append_assoc]
    rfl

theorem loop_collect_error {β : Type} {g : α → Res β} {x : α} {e : Fault} (hx : g x = .error e) (fuel : Nat) (acc : List β) :
    Res.loop (collectStep f g) (fuel + 1) (some x, acc) = .error e := by
  simp [Res.loop, collectStep, hx]

end Walk

/-! ## Chains -/

section Chain

variable {α : Type} {h h' : LinkHeap α} {p n : Option α} {x : α} {xs ys : List α}

/-- The nodes `xs` are linked one behind the other, the first one to `p` before it and the last one to
`n` behind it. -/
def Chain (h : LinkHeap α) : Option α → List α → Option α → Prop
  | _, [], _ => True
  | p, x :: xs, n => h x = ⟨p, xs.head?.or n⟩ ∧ Chain h (some x) xs n

theorem chain_cons : Chain h p (x :: xs) n ↔ h x = ⟨p, xs.head?.or n⟩ ∧ Chain h (some x) xs n := Iff.rfl

theorem chain_append :
    Chain h p (xs ++ ys) n ↔ Chain h p xs (ys.head?.or n) ∧ Chain h (xs.getLast?.or p) ys n := by
  induction xs generalizing p with
  | nil => exact ⟨fun h => ⟨trivial, h⟩, fun h => h.2⟩
  | cons x xs ih =>
    have hhead : (xs ++ ys).head?.or n = xs.head?.or (ys.head?.or n) := by
      cases xs <;> rfl
    have hlast : ((x :: xs).getLast?).or p = xs.getLast?.or (some x) := by
      cases xs <;> simp [getLast?_cons]
    rw [cons_append, chain_cons, chain_cons, ih, hhead, hlast, and_assoc]

theorem Chain.congr (hxs : ∀ x ∈ xs, h' x = h x) (hchain : Chain h p xs n) : Chain h' p xs n := by
  induction xs generalizing p with
  | nil => trivial
  | cons x xs ih =>
    obtain ⟨hx, hchain⟩ := hchain
    exact ⟨(hxs x mem_cons_self).trans hx, ih (fun y hy => hxs y (mem_cons_of_mem _ hy)) hchain⟩

theorem Chain.walk_next (hchain : Chain h p xs none) : Walk (fun a => (h a).next) xs.head? xs := by
  induction xs generalizing p with
  | nil => rfl
  | cons x xs ih =>
    obtain ⟨hx, hchain⟩ := hchain
    refine ⟨rfl, ?_⟩
    simp only [hx, Option.or_none]
    exact ih hchain

theorem Chain.walk_prev (hchain : Chain h none xs n) : Walk (fun a => (h a).prev) xs.getLast? xs.reverse := by
  induction xs using List.reverseRecOn generalizing n with
  | nil => rfl
  | append_singleton xs x ih =>
    obtain ⟨hchain, hx, -⟩ := chain_append.1 hchain
    rw [reverse_concat, getLast?_concat]
    refine ⟨rfl, ?_⟩
    simp only [hx, Option.or_none]
    exact ih hchain

theorem Chain.walk_next_of_mem (hchain : Chain h p xs none) (hx : x ∈ xs) :
    ∃ ys, ys <:+ xs ∧ ys.getLast? = xs.getLast? ∧ Walk (fun a => (h a).next) (some x) ys := by
  obtain ⟨before, behind, rfl⟩ := append_of_mem hx
  refine ⟨x :: behind, suffix_append _ _, ?_, (chain_append.1 hchain).2.walk_next⟩
  rw [getLast?_append_of_ne_nil _ (cons_ne_nil _ _)]

/-- No node occurs twice in a chain that begins without a node before it: two occurrences would have the
same nodes before them. -/
theorem Chain.nodup (hchain : Chain h none xs n) : xs.Nodup := by
  induction xs using List.reverseRecOn generalizing n with
  | nil => exact nodup_nil
  | append_singleton xs x ih =>
    obtain ⟨hinit, hx, -⟩ := chain_append.1 hchain
    refine nodup_append.2 ⟨ih hinit, nodup_singleton x, ?_⟩
    rintro y hy _ hmem rfl
    obtain rfl := mem_singleton.1 hmem
    obtain ⟨before, behind, rfl⟩ := append_of_mem hy
    obtain ⟨-, hy', -⟩ := chain_append.1 hinit
    -- the node before both occurrences would be the last one of two lists of different length
    have hprev : before.getLast? = (before ++ y :: behind).getLast? := by
      simpa using congrArg Links.prev (hy'.symm.trans hx)
    have hnodup := ih hinit
    rw [getLast?_append_of_ne_nil _ (cons_ne_nil _ _)] at hprev
    obtain ⟨z, hz⟩ := Option.isSome_iff_exists.1 (getLast?_isSome.2 (cons_ne_nil y behind))
    exact disjoint_of_nodup_append hnodup (mem_of_getLast? (hprev.trans hz)) (mem_of_getLast? hz)

variable [DecidableEq α]

theorem Chain.setLast (hnodup : xs.Nodup) (hchain : Chain h p xs n) (n' : Option α) :
    Chain (h.setNext? xs.getLast? n') p xs n' := by
  cases xs using List.reverseRecOn with
  | nil => trivial
  | append_singleton xs x =>
    have hnot : ∀ y ∈ xs, y ≠ x := by
      rintro y hy rfl
      exact disjoint_of_nodup_append hnodup hy mem_cons_self
    obtain ⟨hchain, hx, -⟩ := chain_append.1 hchain
    rw [getLast?_concat]
    refine chain_append.2 ⟨hchain.congr fun y hy => LinkHeap.setNext_of_ne (hnot y hy), ?_, trivial⟩
    simp [LinkHeap.setNext?, hx]

theorem Chain.setFirst (hnodup : xs.Nodup) (hchain : Chain h p xs n) (p' : Option α) :
    Chain (h.setPrev? xs.head? p') p' xs n := by
  cases xs with
  | nil => trivial
  | cons x xs =>
    have hnot : ∀ y ∈ xs, y ≠ x := by
      rintro y hy rfl
      exact (nodup_cons.1 hnodup).1 hy
    obtain ⟨hx, hchain⟩ := hchain
    refine ⟨?_, hchain.congr fun y hy => LinkHeap.setPrev_of_ne (hnot y hy)⟩
    simp [LinkHeap.setPrev?, hx]

theorem Chain.join {last first : α} (hxs : Chain h p xs none) (hys : Chain h none ys n) (hnodup : (xs ++ ys).Nodup)
    (hlast : xs.getLast? = some last) (hfirst : ys.head? = some first) :
    Chain ((h.setPrev first (some last)).setNext last (some first)) p (xs ++ ys) n := by
  have hdisjoint := disjoint_of_nodup_append hnodup
  have hfirst' := hys.setFirst hnodup.of_append_right (some last)
  have hlast' := hxs.setLast hnodup.of_append_left (some first)
  rw [hfirst] at hfirst'
  rw [hlast] at hlast'
  refine chain_append.2 ⟨?_, ?_⟩
  · rw [LinkHeap.setNext_setPrev_comm, hfirst]
    refine hlast'.congr fun x hx => LinkHeap.setPrev_of_ne ?_
    rintro rfl
    exact hdisjoint hx (mem_of_head? hfirst)
  · rw [hlast]
    refine hfirst'.congr fun y hy => LinkHeap.setNext_of_ne ?_
    rintro rfl
    exact hdisjoint (mem_of_getLast? hlast) hy

theorem Chain.concat {node tail : α} (hchain : Chain h p xs none) (hnodup : xs.Nodup) (hnull : h node = Links.null)
    (hnot : node ∉ xs) (htail : xs.getLast? = some tail) :
    Chain ((h.setNext tail (some node)).setPrev node (some tail)) p (xs ++ [node]) none := by
  rw [← LinkHeap.setNext_setPrev_comm]
  exact hchain.join ⟨hnull, trivial⟩ (concat_eq_append ▸ hnodup.concat hnot) htail rfl

end Chain

end Dbms18
