import Dbms18.Lib.Loop

/-!
# What a computation ensures if it returns

`x.Ensures Q` says that a result of `x` satisfies `Q`; a fault is allowed. The rules follow the way a
computation is put together.
-/

namespace Dbms18.Res

variable {α β σ : Type} {x : Res α} {P Q : α → Prop}

def Ensures (x : Res α) (Q : α → Prop) : Prop := ∀ a, x = .ok a → Q a

theorem ensures_ok {a : α} (h : Q a) : Ensures (.ok a) Q := by
  rintro _ ⟨⟩
  exact h

theorem ensures_error {e : Fault} : Ensures (.error e) Q := nofun

theorem Ensures.bind {f : α → Res β} {R : β → Prop} (hx : x.Ensures Q) (hf : ∀ a, Q a → Ensures (f a) R) :
    Ensures (x >>= f) R := by
  intro b h
  obtain ⟨a, ha, hb⟩ := bind_eq_ok.1 h
  exact hf a (hx a ha) b hb

theorem Ensures.of_bind {f : α → Res β} {R : β → Prop} (hf : ∀ a, Ensures (f a) R) : Ensures (x >>= f) R :=
  Ensures.bind (Q := fun _ => True) (fun _ _ => trivial) fun a _ => hf a

theorem ensures_loop {body : σ → Res (σ ⊕ β)} {I : σ → Prop} {R : β → Prop}
    (hbody : ∀ s, I s → Ensures (body s) (Sum.elim I R)) {s : σ} (hs : I s) (fuel : Nat) :
    Ensures (loop body fuel s) R := by
  induction fuel generalizing s with
  | zero => exact ensures_error
  | succ fuel ih =>
    refine (hbody s hs).bind ?_
    rintro (s' | b) h
    · exact ih h
    · exact ensures_ok h

end Dbms18.Res
