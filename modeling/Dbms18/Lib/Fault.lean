import Mathlib.Data.List.Forall2

/-!
# Results of code that can fault

`Res α` is the result of code with undefined or aborting behaviour made explicit: an access outside
its block, through a null pointer, to freed memory or to memory that was never written, a number that
is no value of its enumeration, a failed assertion, the end of a connection that is read from, or (for
loops, which are modelled with fuel) no result within the fuel given.
-/

namespace Dbms18

open List

inductive Fault
  | outOfBounds
  | nullPointer
  | useAfterFree
  | uninitialized
  | invalidEnum
  | assertion
  | disconnected
  | outOfFuel
deriving DecidableEq, Repr

abbrev Res (α : Type) := Except Fault α

namespace Res

variable {α β : Type} {x : Res α} {f : α → Res β} {b : β} {e : Fault}

@[simp] theorem ok_bind (a : α) (f : α → Res β) : (Except.ok a >>= f) = f a := rfl

@[simp] theorem error_bind (e : Fault) (f : α → Res β) : (Except.error e >>= f) = .error e := rfl

@[simp] theorem pure_eq (a : α) : (pure a : Res α) = .ok a := rfl

@[simp] theorem map_ok (g : α → β) (a : α) : g <$> (Except.ok a : Res α) = .ok (g a) := rfl

@[simp] theorem bind_ok (x : Res α) : (x >>= Except.ok) = x := by
  cases x <;> rfl

theorem bind_eq_ok : (x >>= f) = .ok b ↔ ∃ a, x = .ok a ∧ f a = .ok b := by
  cases x with
  | ok a => simp
  | error e => simp

theorem map_eq_ok {g : α → β} : g <$> x = .ok b ↔ ∃ a, x = .ok a ∧ g a = b := by
  cases x with
  | ok a => simp
  | error e => simp [Functor.map, Except.map]

def check (c : Prop) [Decidable c] (e : Fault) : Res Unit := if c then .ok () else .error e

variable {c : Prop} [Decidable c]

theorem check_of (h : c) : check c e = .ok () := if_pos h

theorem check_eq_ok {u : Unit} : check c e = .ok u ↔ c := by
  unfold check
  split <;> simp_all

def getD (x : Option α) (e : Fault) : Res α := x.elim (.error e) .ok

@[simp] theorem getD_some (a : α) : getD (some a) e = .ok a := rfl

@[simp] theorem getD_none : getD (none : Option α) e = .error e := rfl

theorem getD_eq_ok {o : Option α} {a : α} : getD o e = .ok a ↔ o = some a := by
  cases o <;> simp

/-! ## Loops -/

section Loops

variable {P : β → Prop} {g : β → α → Res β} {l : List α} {b' : β}

theorem foldlM_keeps (hstep : ∀ b, ∀ a ∈ l, ∀ b', P b → g b a = .ok b' → P b') (hb : P b)
    (h : l.foldlM g b = .ok b') : P b' := by
  induction l generalizing b with
  | nil =>
    obtain rfl := Except.ok.inj h
    exact hb
  | cons a l ih =>
    rw [foldlM_cons, bind_eq_ok] at h
    obtain ⟨b₁, hb₁, h⟩ := h
    refine ih (fun b a ha => hstep b a (mem_cons_of_mem _ ha)) ?_ h
    exact hstep b a mem_cons_self b₁ hb hb₁

theorem foldlM_exists (hstep : ∀ b, ∀ a ∈ l, P b → ∃ b', g b a = .ok b' ∧ P b') (hb : P b) :
    ∃ b', l.foldlM g b = .ok b' ∧ P b' := by
  induction l generalizing b with
  | nil => exact ⟨b, rfl, hb⟩
  | cons a l ih =>
    obtain ⟨b₁, hb₁, hP⟩ := hstep b a mem_cons_self hb
    obtain ⟨b', hb', hP'⟩ := ih (fun b a ha => hstep b a (mem_cons_of_mem _ ha)) hP
    exact ⟨b', by rw [foldlM_cons, hb₁]; exact hb', hP'⟩

variable {f : α → Res β} {l : List α}

theorem mapM_eq_ok {l' : List β} :
    l.mapM f = .ok l' ↔ List.Forall₂ (fun a b => f a = .ok b) l l' := by
  induction l generalizing l' with
  | nil =>
    rw [mapM_nil, forall₂_nil_left_iff]
    exact ⟨fun h => (Except.ok.inj h).symm, fun h => h ▸ rfl⟩
  | cons a l ih =>
    rw [mapM_cons, bind_eq_ok, forall₂_cons_left_iff]
    constructor
    · rintro ⟨b, hb, h⟩
      obtain ⟨bs, hbs, h⟩ := bind_eq_ok.1 h
      exact ⟨b, bs, hb, ih.1 hbs, (Except.ok.inj h).symm⟩
    · rintro ⟨b, bs, hb, hbs, rfl⟩
      exact ⟨b, hb, by rw [ih.2 hbs]; rfl⟩

theorem exists_mapM (h : ∀ a ∈ l, ∃ b, f a = .ok b) : ∃ l', l.mapM f = .ok l' := by
  induction l with
  | nil => exact ⟨[], rfl⟩
  | cons a l ih =>
    obtain ⟨b, hb⟩ := h a mem_cons_self
    obtain ⟨l', hl'⟩ := ih fun a ha => h a (mem_cons_of_mem _ ha)
    exact ⟨b :: l', mapM_eq_ok.2 (.cons hb (mapM_eq_ok.1 hl'))⟩

theorem exists_mapM_getElem? {Q : Nat → β → Prop} (h : ∀ i a, l[i]? = some a → ∃ b, f a = .ok b ∧ Q i b) :
    ∃ l', l.mapM f = .ok l' ∧ l'.length = l.length ∧ ∀ i b, l'[i]? = some b → Q i b := by
  induction l generalizing Q with
  | nil => exact ⟨[], rfl, rfl, by simp⟩
  | cons a l ih =>
    obtain ⟨b, hb, hQ⟩ := h 0 a rfl
    obtain ⟨l', hl', hlen, hrest⟩ := ih (Q := fun i => Q (i + 1)) fun i a' ha' => h (i + 1) a' ha'
    refine ⟨b :: l', by rw [mapM_cons, hb, ok_bind, hl', ok_bind]; rfl, by simp [hlen], fun i b' hb' => ?_⟩
    cases i with
    | zero =>
      obtain rfl := Option.some.inj hb'
      exact hQ
    | succ i => exact hrest i b' hb'

theorem exists_of_mem_mapM {l' : List β} (h : l.mapM f = .ok l') {b : β} (hb : b ∈ l') : ∃ a ∈ l, f a = .ok b := by
  have h := mapM_eq_ok.1 h
  induction h with
  | nil => cases hb
  | cons hab _ ih =>
    rcases mem_cons.1 hb with rfl | hb
    · exact ⟨_, mem_cons_self, hab⟩
    · obtain ⟨a, ha, hR⟩ := ih (mapM_eq_ok.2 ‹_›) hb
      exact ⟨a, mem_cons_of_mem _ ha, hR⟩

end Loops

end Res

end Dbms18
