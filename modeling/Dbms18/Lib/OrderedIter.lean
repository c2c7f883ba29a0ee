import Mathlib.Data.List.TakeWhile
import Dbms18.Lib.Fault

/-!
# Iterators over sorted entries

`Iter σ K V` is the interface of an iterator with states `σ`: where it is valid it has a key and a value, and
it can be moved; `accepts` says which targets it can be sought with. A position among the entries `es` is a
number, `es.length` when the iterator is on no entry. `Walks it cmp es At` says that the operations move the
iterator among `es` as they should, for the states and positions that `At` relates; `StandsAt it cmp es s i` that
the state `s` behaves from now on as the position `i`. An iterator that is built from others is shown to walk by
relating its states to theirs.
-/

namespace Dbms18

open List

structure Iter (σ K V : Type) where
  valid : σ → Bool
  key : σ → Res K
  value : σ → Res V
  seekToFirst : σ → Res σ
  seekToLast : σ → Res σ
  accepts : K → Prop
  seek : K → σ → Res σ
  next : σ → Res σ
  prev : σ → Res σ

inductive Direction
  | forward
  | reverse
deriving DecidableEq, Repr

namespace Iter

variable {σ K V : Type}

/-- The position of the first entry that is not before `target`. -/
def lowerBound (cmp : K → K → Ordering) (target : K) (es : List (K × V)) : Nat :=
  (es.takeWhile fun e => cmp e.1 target = .lt).length

def before (es : List (K × V)) (i : Nat) : Nat := if i = 0 then es.length else i - 1

structure Walks (it : Iter σ K V) (cmp : K → K → Ordering) (es : List (K × V)) (At : σ → Nat → Prop) : Prop where
  valid : ∀ {s i}, At s i → it.valid s = decide (i < es.length)
  key : ∀ {s i e}, At s i → es[i]? = some e → it.key s = .ok e.1
  value : ∀ {s i e}, At s i → es[i]? = some e → it.value s = .ok e.2
  seekToFirst : ∀ {s i}, At s i → ∃ s', it.seekToFirst s = .ok s' ∧ At s' 0
  seekToLast : ∀ {s i}, At s i → ∃ s', it.seekToLast s = .ok s' ∧ At s' (before es es.length)
  seek : ∀ {s i}, At s i → ∀ target, it.accepts target → ∃ s', it.seek target s = .ok s' ∧ At s' (lowerBound cmp target es)
  next : ∀ {s i}, At s i → i < es.length → ∃ s', it.next s = .ok s' ∧ At s' (i + 1)
  prev : ∀ {s i}, At s i → i < es.length → ∃ s', it.prev s = .ok s' ∧ At s' (before es i)

def StandsAt (it : Iter σ K V) (cmp : K → K → Ordering) (es : List (K × V)) (s : σ) (i : Nat) : Prop :=
  ∃ At, it.Walks cmp es At ∧ At s i

variable {it : Iter σ K V} {cmp : K → K → Ordering} {es : List (K × V)}

theorem walks_standsAt : it.Walks cmp es (it.StandsAt cmp es) where
  valid := fun ⟨_, hw, h⟩ => hw.valid h
  key := fun ⟨_, hw, h⟩ => hw.key h
  value := fun ⟨_, hw, h⟩ => hw.value h
  seekToFirst := fun ⟨At, hw, h⟩ =>
    let ⟨s', hs', h'⟩ := hw.seekToFirst h
    ⟨s', hs', At, hw, h'⟩
  seekToLast := fun ⟨At, hw, h⟩ =>
    let ⟨s', hs', h'⟩ := hw.seekToLast h
    ⟨s', hs', At, hw, h'⟩
  seek := fun ⟨At, hw, h⟩ target ht =>
    let ⟨s', hs', h'⟩ := hw.seek h target ht
    ⟨s', hs', At, hw, h'⟩
  next := fun ⟨At, hw, h⟩ hi =>
    let ⟨s', hs', h'⟩ := hw.next h hi
    ⟨s', hs', At, hw, h'⟩
  prev := fun ⟨At, hw, h⟩ hi =>
    let ⟨s', hs', h'⟩ := hw.prev h hi
    ⟨s', hs', At, hw, h'⟩

/-! ## Positions between two parts of the entries -/

theorem before_append_singleton (A : List (K × V)) (e : K × V) : before es (A ++ [e]).length = A.length := by
  simp [before]

theorem lowerBound_append {target : K} {L R : List (K × V)} (hL : ∀ r ∈ L, cmp r.1 target = .lt)
    (hR : ∀ r ∈ R, cmp r.1 target ≠ .lt) : lowerBound cmp target (L ++ R) = L.length := by
  have hstop : R.takeWhile (fun e => decide (cmp e.1 target = .lt)) = [] := by
    cases R with
    | nil => rfl
    | cons r R => rw [takeWhile_cons_of_neg (by simpa using hR r mem_cons_self)]
  rw [lowerBound, takeWhile_append_of_pos (by simpa using hL), hstop, append_nil]

theorem exists_cut_lowerBound (hsorted : es.Pairwise fun a b => cmp a.1 b.1 = .lt) [Std.TransCmp cmp] (target : K) :
    ∃ A B, es = A ++ B ∧ lowerBound cmp target es = A.length ∧ (∀ a ∈ A, cmp a.1 target = .lt) ∧
      ∀ b ∈ B, cmp b.1 target ≠ .lt := by
  refine ⟨es.takeWhile fun e => cmp e.1 target = .lt, es.dropWhile fun e => cmp e.1 target = .lt,
    takeWhile_append_dropWhile.symm, rfl, fun a ha => by simpa using mem_takeWhile_imp ha, fun b hb => ?_⟩
  have hdrop := hsorted.sublist (dropWhile_sublist fun e => decide (cmp e.1 target = .lt))
  cases hB : es.dropWhile fun e => decide (cmp e.1 target = .lt) with
  | nil =>
    rw [hB] at hb
    cases hb
  | cons c B =>
    have hc : cmp c.1 target ≠ .lt := by
      have := head?_dropWhile_not (fun e : K × V => decide (cmp e.1 target = .lt)) es
      rw [hB] at this
      simpa using this
    rw [hB] at hb hdrop
    rcases mem_cons.1 hb with rfl | hb
    · exact hc
    · exact fun hlt => hc (Std.TransCmp.lt_trans ((pairwise_cons.1 hdrop).1 b hb) hlt)

theorem before_nil : before es 0 = es.length := if_pos rfl

section Cut

variable {At : σ → Nat → Prop} {s : σ} {A B : List (K × V)} {e : K × V}

section Walks

variable (hw : it.Walks cmp es At)

include hw

theorem Walks.valid_of_cons (hes : es = A ++ e :: B) (h : At s A.length) : it.valid s = true := by
  rw [hw.valid h]
  simp [hes]

theorem Walks.not_valid (h : At s es.length) : it.valid s = false := by
  rw [hw.valid h]
  simp

theorem Walks.key_of_cons (hes : es = A ++ e :: B) (h : At s A.length) : it.key s = .ok e.1 :=
  hw.key h (by simp [hes])

theorem Walks.value_of_cons (hes : es = A ++ e :: B) (h : At s A.length) :
    it.value s = .ok e.2 :=
  hw.value h (by simp [hes])

theorem Walks.next_of_cons (hes : es = A ++ e :: B) (h : At s A.length) :
    ∃ s', it.next s = .ok s' ∧ At s' (A ++ [e]).length := by
  have hlt : A.length < es.length := by simp [hes]
  simpa using hw.next h hlt

theorem Walks.prev_of_cons (hes : es = A ++ e :: B) (h : At s A.length) :
    ∃ s', it.prev s = .ok s' ∧ At s' (before es A.length) :=
  hw.prev h (by simp [hes])

end Walks

end Cut

/-! ## Runs -/

inductive Call (K : Type)
  | seekToFirst
  | seekToLast
  | seek (target : K)
  | next
  | prev

def call (it : Iter σ K V) (s : σ) : Call K → Res σ
  | .seekToFirst => it.seekToFirst s
  | .seekToLast => it.seekToLast s
  | .seek target => it.seek target s
  | .next => it.next s
  | .prev => it.prev s

/-- The iterator can be sought with the target of the call, if it has one. -/
def Admits (it : Iter σ K V) : Call K → Prop
  | .seek target => it.accepts target
  | _ => True

/-- Where a call leads; `next` and `prev` must not be called off the entries. -/
def move (cmp : K → K → Ordering) (es : List (K × V)) (i : Nat) : Call K → Option Nat
  | .seekToFirst => some 0
  | .seekToLast => some (before es es.length)
  | .seek target => some (lowerBound cmp target es)
  | .next => if i < es.length then some (i + 1) else none
  | .prev => if i < es.length then some (before es i) else none

theorem StandsAt.call {s : σ} {i j : Nat} (h : it.StandsAt cmp es s i) {c : Call K} (hadmits : it.Admits c)
    (hc : move cmp es i c = some j) : ∃ s', it.call s c = .ok s' ∧ it.StandsAt cmp es s' j := by
  cases c with
  | seekToFirst =>
    obtain rfl := Option.some.inj hc
    exact walks_standsAt.seekToFirst h
  | seekToLast =>
    obtain rfl := Option.some.inj hc
    exact walks_standsAt.seekToLast h
  | seek target =>
    obtain rfl := Option.some.inj hc
    exact walks_standsAt.seek h target hadmits
  | next =>
    obtain ⟨hlt, hj⟩ := Option.ite_none_right_eq_some.1 hc
    obtain rfl := Option.some.inj hj
    exact walks_standsAt.next h hlt
  | prev =>
    obtain ⟨hlt, hj⟩ := Option.ite_none_right_eq_some.1 hc
    obtain rfl := Option.some.inj hj
    exact walks_standsAt.prev h hlt

theorem StandsAt.run {s : σ} {i j : Nat} {calls : List (Call K)} (h : it.StandsAt cmp es s i)
    (hadmits : ∀ c ∈ calls, it.Admits c) (hc : calls.foldlM (move cmp es) i = some j) :
    ∃ s', calls.foldlM it.call s = .ok s' ∧ it.StandsAt cmp es s' j := by
  induction calls generalizing s i with
  | nil =>
    obtain rfl := Option.some.inj hc
    exact ⟨s, rfl, h⟩
  | cons c calls ih =>
    rw [foldlM_cons, Option.bind_eq_bind, Option.bind_eq_some_iff] at hc
    obtain ⟨i', hi', hrest⟩ := hc
    obtain ⟨hfirst, hadmits⟩ := forall_mem_cons.1 hadmits
    obtain ⟨s', hs', h'⟩ := h.call hfirst hi'
    obtain ⟨s'', hs'', h''⟩ := ih h' hadmits hrest
    exact ⟨s'', by rw [foldlM_cons, hs', Res.ok_bind, hs''], h''⟩

theorem StandsAt.run_shows {s : σ} {i j : Nat} {calls : List (Call K)} (h : it.StandsAt cmp es s i)
    (hadmits : ∀ c ∈ calls, it.Admits c) (hc : calls.foldlM (move cmp es) i = some j) :
    ∃ s', calls.foldlM it.call s = .ok s' ∧ it.valid s' = decide (j < es.length) ∧
      ∀ e, es[j]? = some e → it.key s' = .ok e.1 ∧ it.value s' = .ok e.2 := by
  obtain ⟨s', hs', h'⟩ := h.run hadmits hc
  exact ⟨s', hs', walks_standsAt.valid h', fun e he => ⟨walks_standsAt.key h' he, walks_standsAt.value h' he⟩⟩

/-- The entries from the current one to the last: `for (; iter->Valid(); iter->Next())`. -/
def collect (it : Iter σ K V) : Nat → σ → Res (List (K × V))
  | 0, _ => .error .outOfFuel
  | fuel + 1, s => do
    if it.valid s then
      let k ← it.key s
      let v ← it.value s
      let rest ← it.collect fuel (← it.next s)
      return (k, v) :: rest
    else
      return []

theorem StandsAt.collect_eq {s : σ} {i fuel : Nat} (h : it.StandsAt cmp es s i) (hfuel : es.length - i < fuel) :
    it.collect fuel s = .ok (es.drop i) := by
  induction fuel generalizing s i with
  | zero => exact absurd hfuel (Nat.not_lt_zero _)
  | succ fuel ih =>
    have hvalid := walks_standsAt.valid h
    by_cases hi : i < es.length
    · obtain ⟨s', hs', h'⟩ := walks_standsAt.next h hi
      have hget : es[i]? = some es[i] := getElem?_eq_getElem hi
      rw [collect, hvalid, decide_eq_true hi, if_pos rfl, walks_standsAt.key h hget, walks_standsAt.value h hget, hs',
        Res.ok_bind, Res.ok_bind, Res.ok_bind, ih h' (by omega), drop_eq_getElem_cons hi]
      rfl
    · rw [collect, hvalid, decide_eq_false hi, drop_eq_nil_of_le (Nat.le_of_not_lt hi)]
      rfl

/-- An iterator over lists: its state is a list and a position in it. -/
def ofList (cmp : K → K → Ordering) : Iter (List (K × V) × Nat) K V where
  valid s := s.2 < s.1.length
  key s := (Res.getD s.1[s.2]? .assertion).map Prod.fst
  value s := (Res.getD s.1[s.2]? .assertion).map Prod.snd
  seekToFirst s := .ok (s.1, 0)
  seekToLast s := .ok (s.1, before s.1 s.1.length)
  accepts _ := True
  seek target s := .ok (s.1, lowerBound cmp target s.1)
  next s := .ok (s.1, s.2 + 1)
  prev s := .ok (s.1, before s.1 s.2)

theorem standsAt_ofList (cmp : K → K → Ordering) (es : List (K × V)) (i : Nat) :
    (ofList cmp).StandsAt cmp es (es, i) i := by
  refine ⟨fun s i => s = (es, i), ⟨?_, ?_, ?_, ?_, ?_, ?_, ?_, ?_⟩, rfl⟩
  · rintro _ _ rfl
    rfl
  · rintro _ _ e rfl he
    simp [ofList, he, Except.map]
  · rintro _ _ e rfl he
    simp [ofList, he, Except.map]
  · rintro _ _ rfl
    exact ⟨_, rfl, rfl⟩
  · rintro _ _ rfl
    exact ⟨_, rfl, rfl⟩
  · rintro _ _ rfl target -
    exact ⟨_, rfl, rfl⟩
  · rintro _ _ rfl -
    exact ⟨_, rfl, rfl⟩
  · rintro _ _ rfl -
    exact ⟨_, rfl, rfl⟩

theorem forall₂_standsAt_ofList (cmp : K → K → Ordering) (Ls : List (List (K × V))) :
    List.Forall₂ (fun s L => ∃ i, (ofList cmp).StandsAt cmp L s i) (Ls.map fun L => (L, 0)) Ls :=
  forall₂_map_left_iff.2 (forall₂_same.2 fun L _ => ⟨0, standsAt_ofList cmp L 0⟩)

/-! ## Either of two iterators -/

section Sum

variable {τ : Type}

def sum (it : Iter σ K V) (it' : Iter τ K V) : Iter (σ ⊕ τ) K V where
  valid := Sum.elim it.valid it'.valid
  key := Sum.elim it.key it'.key
  value := Sum.elim it.value it'.value
  seekToFirst := Sum.elim (fun s => (it.seekToFirst s).map .inl) fun s => (it'.seekToFirst s).map .inr
  seekToLast := Sum.elim (fun s => (it.seekToLast s).map .inl) fun s => (it'.seekToLast s).map .inr
  accepts target := it.accepts target ∧ it'.accepts target
  seek target := Sum.elim (fun s => (it.seek target s).map .inl) fun s => (it'.seek target s).map .inr
  next := Sum.elim (fun s => (it.next s).map .inl) fun s => (it'.next s).map .inr
  prev := Sum.elim (fun s => (it.prev s).map .inl) fun s => (it'.prev s).map .inr

/-- The states of `it` are states of `it'`, and `it'` does on them what `it` does. -/
structure Embeds (f : σ → τ) (it : Iter σ K V) (it' : Iter τ K V) : Prop where
  valid : ∀ s, it'.valid (f s) = it.valid s
  key : ∀ s, it'.key (f s) = it.key s
  value : ∀ s, it'.value (f s) = it.value s
  accepts : ∀ k, it'.accepts k → it.accepts k
  call : ∀ c s, it'.call (f s) c = (it.call s c).map f

theorem embeds_inl (it : Iter σ K V) (it' : Iter τ K V) : Embeds Sum.inl it (it.sum it') :=
  ⟨fun _ => rfl, fun _ => rfl, fun _ => rfl, fun _ => And.left, fun c _ => by cases c <;> rfl⟩

theorem embeds_inr (it : Iter σ K V) (it' : Iter τ K V) : Embeds Sum.inr it' (it.sum it') :=
  ⟨fun _ => rfl, fun _ => rfl, fun _ => rfl, fun _ => And.right, fun c _ => by cases c <;> rfl⟩

theorem StandsAt.embed {f : σ → τ} {it' : Iter τ K V} {s : σ} {i : Nat} (he : Embeds f it it')
    (h : it.StandsAt cmp es s i) : it'.StandsAt cmp es (f s) i := by
  have hcall : ∀ {s i j} (c : Call K), it.StandsAt cmp es s i → it.Admits c → move cmp es i c = some j →
      ∃ t, it'.call (f s) c = .ok t ∧ ∃ s', f s' = t ∧ it.StandsAt cmp es s' j := by
    intro s i j c h hadmits hc
    obtain ⟨s', hs', h'⟩ := h.call hadmits hc
    exact ⟨f s', by rw [he.call, hs']; rfl, s', rfl, h'⟩
  refine ⟨fun t i => ∃ s, f s = t ∧ it.StandsAt cmp es s i, ⟨?_, ?_, ?_, ?_, ?_, ?_, ?_, ?_⟩, s, rfl, h⟩
  · rintro _ i ⟨s, rfl, h⟩
    rw [he.valid, walks_standsAt.valid h]
  · rintro _ i e ⟨s, rfl, h⟩ hi
    rw [he.key, walks_standsAt.key h hi]
  · rintro _ i e ⟨s, rfl, h⟩ hi
    rw [he.value, walks_standsAt.value h hi]
  · rintro _ i ⟨s, rfl, h⟩
    exact hcall .seekToFirst h trivial rfl
  · rintro _ i ⟨s, rfl, h⟩
    exact hcall .seekToLast h trivial rfl
  · rintro _ i ⟨s, rfl, h⟩ target htarget
    exact hcall (.seek target) h (he.accepts target htarget) rfl
  · rintro _ i ⟨s, rfl, h⟩ hi
    exact hcall .next h trivial (if_pos hi)
  · rintro _ i ⟨s, rfl, h⟩ hi
    exact hcall .prev h trivial (if_pos hi)

end Sum

end Iter

end Dbms18
