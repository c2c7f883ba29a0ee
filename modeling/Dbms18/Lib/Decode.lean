import Dbms18.Lib.Endian

/-!
# Decoders

A decoder takes what it needs from the front of a list of bytes and leaves the rest. `Reads d bs a` says
that `d` takes exactly `bs`, whatever follows, and gives `a`; the rules below follow a decoder through
its steps.
-/

namespace Dbms18

abbrev Decoder := StateT Bytes Option

namespace Decoder

variable {α β : Type}

def bytes (n : Nat) : Decoder Bytes := fun s => if n ≤ s.length then some (s.take n, s.drop n) else none

def number (w : Nat) : Decoder Nat := ofBE <$> bytes w

/-- The bytes up to a zero byte, which is taken as well. -/
def cstring : Decoder Bytes := fun s =>
  match s.dropWhile (· ≠ 0) with
  | [] => none
  | _ :: rest => some (s.takeWhile (· ≠ 0), rest)

def times (d : Decoder α) : Nat → Decoder (List α)
  | 0 => pure []
  | n + 1 => do
    let a ← d
    return a :: (← d.times n)

/-- What the decoder gives if it comes to the end of the bytes. -/
def decode (d : Decoder α) (bs : Bytes) : Option α :=
  match d.run bs with
  | some (a, []) => some a
  | _ => none

def Reads (d : Decoder α) (bs : Bytes) (a : α) : Prop := ∀ rest, d.run (bs ++ rest) = some (a, rest)

variable {d : Decoder α} {f : α → Decoder β} {bs bs' : Bytes} {a : α} {b : β}

theorem Reads.decode (h : d.Reads bs a) : d.decode bs = some a := by
  have hrun := h []
  rw [List.append_nil] at hrun
  rw [Decoder.decode, hrun]

theorem Reads.pure (a : α) : Reads (Pure.pure a) [] a := fun _ => rfl

theorem Reads.bind (h : d.Reads bs a) (hf : (f a).Reads bs' b) : (d >>= f).Reads (bs ++ bs') b := by
  intro rest
  rw [StateT.run_bind, List.append_assoc, h]
  exact hf rest

theorem Reads.map (h : d.Reads bs a) (g : α → β) : (g <$> d).Reads bs (g a) := by
  intro rest
  rw [StateT.run_map, h]
  rfl

theorem reads_bytes (bs : Bytes) : (bytes bs.length).Reads bs bs := by
  intro rest
  simp [bytes, StateT.run]

theorem reads_number (w n : Nat) : (number w).Reads (beBytes w n) (n % 256 ^ w) := by
  have h := (reads_bytes (beBytes w n)).map ofBE
  rwa [length_beBytes, ofBE_beBytes] at h

theorem reads_number_of_lt {w n : Nat} (h : n < 256 ^ w) : (number w).Reads (beBytes w n) n := by
  have hread := reads_number w n
  rwa [Nat.mod_eq_of_lt h] at hread

theorem reads_cstring {s : Bytes} (h : ∀ x ∈ s, x ≠ 0) : cstring.Reads (s ++ [0]) s := by
  intro rest
  have htake : (s ++ 0 :: rest).takeWhile (· ≠ 0) = s := by
    rw [List.takeWhile_append_of_pos (by simpa using h)]
    simp
  have hdrop : (s ++ 0 :: rest).dropWhile (· ≠ 0) = 0 :: rest := by
    rw [List.dropWhile_append_of_pos (by simpa using h)]
    simp
  rw [List.append_assoc, List.singleton_append]
  show cstring (s ++ 0 :: rest) = _
  rw [cstring, htake, hdrop]

theorem reads_times {ι : Type} {enc : ι → Bytes} {g : ι → α} {is : List ι} (h : ∀ i ∈ is, d.Reads (enc i) (g i)) :
    (d.times is.length).Reads (is.flatMap enc) (is.map g) := by
  induction is with
  | nil => exact Reads.pure []
  | cons i is ih =>
    have hrest := ih fun j hj => h j (List.mem_cons_of_mem _ hj)
    have htail := hrest.bind (f := fun as => Pure.pure (g i :: as)) (Reads.pure _)
    rw [List.append_nil] at htail
    rw [List.flatMap_cons]
    exact (h i List.mem_cons_self).bind htail

/-! ## What a decoder has read -/

theorem bind_eq_some {s s' : Bytes} : (d >>= f).run s = some (b, s') ↔
    ∃ a s₁, d.run s = some (a, s₁) ∧ (f a).run s₁ = some (b, s') := by
  rw [StateT.run_bind, Option.bind_eq_bind, Option.bind_eq_some_iff]
  exact Prod.exists

theorem bytes_eq_some {n : Nat} {s s' bs : Bytes} :
    (bytes n).run s = some (bs, s') ↔ n ≤ s.length ∧ s.take n = bs ∧ s.drop n = s' := by
  simp only [bytes, StateT.run]
  split
  · next h => simp [h]
  · next h => simp [h]

theorem number_eq_some {w n : Nat} {s s' : Bytes} (h : (number w).run s = some (n, s')) :
    s.length = w + s'.length ∧ n < 256 ^ w := by
  rw [number, StateT.run_map, Option.map_eq_map, Option.map_eq_some_iff] at h
  obtain ⟨⟨bs, s₁⟩, hbytes, heq⟩ := h
  obtain ⟨rfl, rfl⟩ := Prod.mk.inj heq
  obtain ⟨hle, rfl, rfl⟩ := bytes_eq_some.1 hbytes
  have hlt := ofBE_lt (s.take w)
  rw [List.length_take_of_le hle] at hlt
  exact ⟨by rw [List.length_drop]; omega, hlt⟩

theorem decode_eq_some {s : Bytes} (h : d.decode s = some a) : d.run s = some (a, []) := by
  unfold decode at h
  split at h
  · next heq => rw [heq, Option.some.inj h]
  · cases h

end Decoder

end Dbms18
