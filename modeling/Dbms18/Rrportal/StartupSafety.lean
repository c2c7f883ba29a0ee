import Mathlib.Data.List.TakeWhile
import Dbms18.Rrportal.Startup

/-!
# Malformed startup packets (`Session::ProcessStartupPacket`, `rrportal/session.cpp`)

`ProcessStartupPacket` should refuse every packet that is not well formed without looking at anything but the packet.
But the version is read from packets that have none, and `strlen` does not stop at the end of the packet: the comment
over the scan speaks of an extra zero byte that nothing writes. So the call stays inside exactly if every packet has a
version and every string that the scan comes to ends in the packet (`startupSafe_iff`).

The last byte of what it accepts need not be the zero byte that ends a well formed packet: where a zero byte of an
earlier packet is left behind it, any byte will do (`accepted_of_lastByte`).

To say what is read, the call is run on a block that is cut off behind the packet, where a read outside the packet is
a fault (`processWithin`).
-/

namespace Dbms18

open Res List

namespace Startup

/-- The session with the block of `read_msg_` cut off behind the packet. -/
def cut (s : Startup) : Startup :=
  { s with readMsg := { s.readMsg with data := s.readMsg.data.take s.readMsg.getSize } }

/-- `ProcessStartupPacket`, with a fault for every read outside the packet that was received. -/
def processWithin (fuel : Nat) (sslDone : Bool) (s : Startup) : Res (Bool × Startup) := do
  let (len, proto, s) ← s.receivePacket
  Res.check (4 ≤ len.toNat) .outOfBounds
  if proto = cancelRequestCode then return (false, s)
  if _h : proto = negotiateSslCode ∧ sslDone = false then
    processWithin fuel true { s with sent := s.sent ++ [0x4e] }
  else s.cut.acceptPacket fuel len proto
termination_by (!sslDone).toNat
decreasing_by simp [_h.2]

/-! ## What the client sends -/

/-- The body of the first packet of a stream, as long as its length word says, and what follows. -/
def firstPacket (stream : Bytes) : Option (Bytes × Bytes) :=
  let size := ((ofBE (stream.take 4)).toUInt32 - 4).toNat
  let stream' := stream.drop 4
  if 4 ≤ stream.length ∧ size ≤ stream'.length then some (stream'.take size, stream'.drop size) else none

def version (body : Bytes) : UInt32 := (ofBE (body.take 4)).toUInt32

/-- The bodies of the packets that a call receives: two if the first is a request for SSL. -/
def packets (sslDone : Bool) (stream : Bytes) : List Bytes :=
  match firstPacket stream with
  | none => []
  | some (body, rest) =>
    if _h : version body = negotiateSslCode ∧ sslDone = false then body :: packets true rest else [body]
termination_by (!sslDone).toNat
decreasing_by simp [_h.2]

/-- Version 3.0, complete options and one zero byte. -/
def WellFormed (body : Bytes) : Prop := ∃ options, (∀ o ∈ options, Encodable o) ∧ body = packetBody options

/-- What is read stays inside the packets, and the call accepts a well-formed packet or refuses the client, by its
result or because the client has not sent all of a packet. -/
def StartupSafe (sslDone : Bool) (s : Startup) : Prop :=
  ∃ N, ∀ fuel ≥ N, processWithin fuel sslDone s ≠ .error .outOfBounds ∧
    (processStartupPacket fuel sslDone s = .error .disconnected ∨
      ∃ accepted s', processStartupPacket fuel sslDone s = .ok (accepted, s') ∧
        (accepted = true → ∃ body, (packets sslDone s.stream).getLast? = some body ∧ WellFormed body))

/-- From offset `k` on, where `rest` is left of the packet, every string that the scan comes to ends in the packet.
Offsets from `2 ^ 31` on are negative. -/
inductive Scannable : Nat → Bytes → Prop
  | done (k : Nat) : Scannable k []
  | terminator {k : Nat} (rest : Bytes) (hk : k < 2 ^ 31) : Scannable k (0 :: rest)
  | missing {k : Nat} {name : Bytes} (hk : k < 2 ^ 31) (hne : name ≠ []) (hname : ∀ b ∈ name, b ≠ 0) :
    Scannable k (name ++ [0])
  | option {k : Nat} {o : Bytes × Bytes} {rest : Bytes} (hk : k + o.1.length + 1 < 2 ^ 31) (ho : Encodable o)
    (hrest : Scannable (k + (encodeOption o).length) rest) : Scannable k (encodeOption o ++ rest)

/-- The packet has a version, and can be scanned if it is 3.0. -/
structure Contained (body : Bytes) : Prop where
  versioned : 4 ≤ body.length
  scannable : version body = 196608 → Scannable 4 (body.drop 4)

variable {s s' : Startup} {data : Bytes} {len proto : UInt32} {fuel k : Nat} {rest : Bytes}

/-! ## The cut only adds faults -/

theorem cStringAt_take {n : Nat} {offset : Int32} {string : Bytes} (h : cStringAt (data.take n) offset = .ok string) :
    cStringAt data offset = .ok string := by
  obtain ⟨_, hpos, h⟩ := bind_eq_ok.1 h
  obtain ⟨_, hend, h⟩ := bind_eq_ok.1 h
  obtain rfl := Except.ok.inj h
  have hlt := check_eq_ok.1 hend
  rw [drop_take] at hlt ⊢
  -- the string ends before the cut, so it is found in front of what was cut off
  have hstring : (data.drop offset.toNatClampNeg).takeWhile (· ≠ 0) =
      ((data.drop offset.toNatClampNeg).take (n - offset.toNatClampNeg)).takeWhile (· ≠ 0) := by
    conv_lhs => rw [← take_append_drop (n - offset.toNatClampNeg) (data.drop offset.toNatClampNeg)]
    rw [takeWhile_append, if_neg (Nat.ne_of_lt hlt)]
  have hlt' := hlt.trans_le (length_take_le' _ _)
  simp only [cStringAt, hpos, ok_bind, hstring, check_of hlt']
  rfl

theorem cut_setOption (s : Startup) (name value : Bytes) : (s.setOption name value).cut = s.cut.setOption name value := by
  unfold setOption
  dsimp only
  split_ifs <;> rfl

/-- The state of the scan is that of a scan with the block cut off. -/
def IsCut (t t' : Int32 × Startup) : Prop := t = (t'.1, t'.2.cut)

theorem scanStep_cut {t t' : Int32 × Startup} {r : Int32 × Startup ⊕ Int32 × Startup} (ht : IsCut t t')
    (h : scanStep len t = .ok r) : ∃ r', scanStep len t' = .ok r' ∧ Sum.LiftRel IsCut IsCut r r' := by
  obtain rfl := ht
  simp only [scanStep] at h ⊢
  split at h
  · next hend =>
    obtain rfl := Except.ok.inj h
    exact ⟨.inr t', if_pos hend, .inr rfl⟩
  next hin =>
  obtain ⟨name, hname, h⟩ := bind_eq_ok.1 h
  rw [if_neg hin, cStringAt_take hname, ok_bind]
  split at h
  · next hnil =>
    obtain rfl := Except.ok.inj h
    exact ⟨.inr t', if_pos hnil, .inr rfl⟩
  next hne =>
  rw [if_neg hne]
  split at h
  · next hend =>
    obtain rfl := Except.ok.inj h
    exact ⟨.inr t', if_pos hend, .inr rfl⟩
  next hin' =>
  obtain ⟨value, hvalue, h⟩ := bind_eq_ok.1 h
  obtain rfl := Except.ok.inj h
  rw [if_neg hin', cStringAt_take hvalue, ok_bind]
  exact ⟨_, rfl, .inl (by rw [IsCut, cut_setOption])⟩

theorem sendAuthRequest_cut {b : Bool} {t : Startup} (h : s.cut.sendAuthRequest = .ok (b, t)) :
    ∃ t', s.sendAuthRequest = .ok (b, t') := by
  obtain ⟨b₁, h₁, h⟩ := bind_eq_ok.1 h
  obtain ⟨b₂, h₂, h⟩ := bind_eq_ok.1 h
  obtain ⟨b₃, h₃, h⟩ := bind_eq_ok.1 h
  obtain ⟨rfl, -⟩ := Prod.mk.inj (Except.ok.inj h)
  refine ⟨{ s with writeMsg := b₃, sent := s.sent ++ Block.read b₃.data 0 b₃.getSize }, ?_⟩
  have h₁ : (s.writeMsg.setSize 0).append [0x52] = .ok b₁ := h₁
  simp only [sendAuthRequest, h₁, h₂, h₃, ok_bind, pure_eq]

theorem acceptPacket_cut {b : Bool} {t : Startup} (h : s.cut.acceptPacket fuel len proto = .ok (b, t)) :
    ∃ t', s.acceptPacket fuel len proto = .ok (b, t') := by
  unfold acceptPacket at h ⊢
  split at h
  · next hrefused =>
    obtain ⟨rfl, -⟩ := Prod.mk.inj (Except.ok.inj h)
    exact ⟨s, if_pos hrefused⟩
  next hsupported =>
  obtain ⟨⟨offset, u⟩, hscan, h⟩ := bind_eq_ok.1 h
  obtain ⟨⟨offset', u'⟩, hscan', hcut⟩ := loop_sim (R := IsCut) (fun _ _ _ => scanStep_cut) (t := (4, s)) rfl hscan
  obtain ⟨rfl, rfl⟩ := Prod.mk.inj hcut
  rw [if_neg hsupported, hscan', ok_bind]
  dsimp only at h ⊢
  split at h
  · next hrefused =>
    obtain ⟨rfl, -⟩ := Prod.mk.inj (Except.ok.inj h)
    exact ⟨u', if_pos hrefused⟩
  next hend =>
  rw [if_neg hend]
  exact sendAuthRequest_cut (s := { u' with protoVersion := proto }) h

/-! ## Scanning a block that ends with the packet -/

theorem cStringAt_fault (hk : k < 2 ^ 32) (h : k < 2 ^ 31 → ∀ b ∈ data.drop k, b ≠ 0) :
    cStringAt data (Int32.ofNat k) = .error .outOfBounds := by
  by_cases hpos : k < 2 ^ 31
  · have hall : (data.drop k).takeWhile (· ≠ 0) = data.drop k := takeWhile_eq_self_iff.2 (by simpa using h hpos)
    have hcheck : Res.check ((data.drop k).length < (data.drop k).length) .outOfBounds = .error .outOfBounds :=
      if_neg (Nat.lt_irrefl _)
    simp only [cStringAt, check_of (Offset.nonneg hpos), ok_bind, Int32.toNatClampNeg_ofNat_of_lt hpos, hall, hcheck]
    rfl
  · exact cStringAt_negative data (Nat.not_lt.1 hpos) hk

theorem scanStep_done (hk : k = len.toNat) : scanStep len (Int32.ofNat k, s) = .ok (.inr (Int32.ofNat k, s)) := by
  have hend : ¬ (Int32.ofNat k).toUInt32 < len := by
    rw [Offset.lt_iff (hk ▸ len.toNat_lt), hk]
    exact Nat.lt_irrefl _
  simp only [scanStep, hend, not_false_eq_true, if_true]
  rfl

theorem scanStep_missing {name : Bytes} (hdata : s.readMsg.data.drop k = name ++ [0]) (hk : k < 2 ^ 31)
    (hlen : k + (name ++ [0]).length = len.toNat) (hne : name ≠ []) (hname : ∀ b ∈ name, b ≠ 0) :
    scanStep len (Int32.ofNat k, s) = .ok (.inr (Int32.ofNat k, s)) := by
  have hbound := len.toNat_lt
  rw [length_append, length_singleton] at hlen
  rw [scanStep_name hdata hk (by omega) (by omega) hne hname, if_neg (by omega)]

theorem scan_of_scannable (h : Scannable k rest) (hdata : s.readMsg.data.drop k = rest)
    (hlen : k + rest.length = len.toNat) (hfuel : rest.length < fuel) :
    ∃ k' s', Res.loop (scanStep len) fuel (Int32.ofNat k, s) = .ok (Int32.ofNat k', s') ∧ k' ≤ len.toNat ∧
      s'.writeMsg = s.writeMsg ∧
      (k' + 1 = len.toNat →
        ∃ options : List (Bytes × Bytes), (∀ o ∈ options, Encodable o) ∧ rest = options.flatMap encodeOption ++ [0]) := by
  induction h generalizing s fuel with
  | done k =>
    rw [length_nil, Nat.add_zero] at hlen
    exact ⟨k, s, loop_return hfuel (scanStep_done hlen), by omega, rfl, fun hend => by omega⟩
  | @terminator k rest hk =>
    rw [length_cons] at hlen
    refine ⟨k, s, loop_return (Nat.zero_lt_of_lt hfuel) (scanStep_end hdata hk), by omega, rfl, fun hend => ⟨[], ?_, ?_⟩⟩
    · simp
    · have hnil : rest = [] := length_eq_zero_iff.1 (by omega)
      rw [hnil]
      rfl
  | @missing k name hk hne hname =>
    have hpos := length_pos_of_ne_nil hne
    have hreturn := scanStep_missing hdata hk hlen hne hname
    refine ⟨k, s, loop_return (Nat.zero_lt_of_lt hfuel) hreturn, by omega, rfl, fun hend => ?_⟩
    rw [length_append, length_singleton] at hlen
    omega
  | @option k o rest hk ho hrest ih =>
    obtain ⟨fuel, rfl⟩ := Nat.exists_eq_succ_of_ne_zero (Nat.ne_zero_of_lt hfuel)
    have hsize := length_encodeOption o
    rw [length_append] at hlen hfuel
    have hdata' : (s.setOption o.1 o.2).readMsg.data.drop (k + (encodeOption o).length) = rest := by
      rw [readMsg_setOption, ← drop_drop, hdata, drop_left]
    obtain ⟨k', s', hloop, hk', hwrite, hend⟩ := ih hdata' (by omega) (by omega : rest.length < fuel)
    rw [loop_of_continue (scanStep_option hdata (by omega) hk ho)]
    refine ⟨k', s', hloop, hk', hwrite.trans (chosen_setOption s o).buffers.2, fun hk' => ?_⟩
    obtain ⟨options, hoptions, rfl⟩ := hend hk'
    exact ⟨o :: options, forall_mem_cons.2 ⟨ho, hoptions⟩, by rw [flatMap_cons, append_assoc]⟩

theorem scanStep_fault (hlen : k < len.toNat) (h : k < 2 ^ 31 → ∀ b ∈ s.readMsg.data.drop k, b ≠ 0) :
    scanStep len (Int32.ofNat k, s) = .error .outOfBounds := by
  have hk := hlen.trans len.toNat_lt
  have hin : (Int32.ofNat k).toUInt32 < len := (Offset.lt_iff hk).2 hlen
  simp only [scanStep, hin, not_true_eq_false, if_false, cStringAt_fault hk h, error_bind]

theorem scanStep_cases (hdata : s.readMsg.data.drop k = rest) (hlen : k + rest.length = len.toNat) :
    Scannable k rest ∨ scanStep len (Int32.ofNat k, s) = .error .outOfBounds ∨
      ∃ o rest', k + o.1.length + 1 < 2 ^ 31 ∧ Encodable o ∧ rest = encodeOption o ++ rest' := by
  by_cases hnil : rest = []
  · exact .inl (hnil ▸ .done k)
  have hpos := length_pos_of_ne_nil hnil
  by_cases hstring : k < 2 ^ 31 ∧ 0 ∈ rest
  swap
  · refine .inr (.inl (scanStep_fault (by omega) fun hk b hb => ?_))
    rintro rfl
    exact hstring ⟨hk, hdata ▸ hb⟩
  obtain ⟨name, tail, rfl, hzero⟩ := eq_append_cons_of_mem hstring.2
  have hname : ∀ b ∈ name, b ≠ 0 := fun b hb h => hzero (h ▸ hb)
  by_cases hne : name = []
  · exact .inl (hne ▸ .terminator tail hstring.1)
  by_cases htail : tail = []
  · exact .inl (htail ▸ .missing hstring.1 hne hname)
  have hpos' := length_pos_of_ne_nil htail
  rw [length_append, length_cons] at hlen
  have hbound := len.toNat_lt
  have hdrop : s.readMsg.data.drop (k + name.length + 1) = tail := by
    rw [Nat.add_assoc, ← drop_drop, hdata]
    simp
  by_cases hvalue : k + name.length + 1 < 2 ^ 31 ∧ 0 ∈ tail
  swap
  · have hfault : cStringAt s.readMsg.data (Int32.ofNat (k + name.length + 1)) = .error .outOfBounds := by
      refine cStringAt_fault (by omega) fun hk b hb => ?_
      rintro rfl
      exact hvalue ⟨hk, hdrop ▸ hb⟩
    refine .inr (.inl ?_)
    rw [scanStep_name hdata hstring.1 (by omega) (by omega) hne hname, if_pos (by omega), hfault]
    rfl
  obtain ⟨value, rest', rfl, hzero'⟩ := eq_append_cons_of_mem hvalue.2
  refine .inr (.inr ⟨(name, value), rest', hvalue.1, ⟨hne, hname, fun b hb h => hzero' (h ▸ hb)⟩, ?_⟩)
  simp [encodeOption]

theorem scannable_or_fault (hdata : s.readMsg.data.drop k = rest) (hlen : k + rest.length = len.toNat)
    (hfuel : rest.length < fuel) :
    Scannable k rest ∨ Res.loop (scanStep len) fuel (Int32.ofNat k, s) = .error .outOfBounds := by
  induction fuel generalizing k rest s with
  | zero => cases hfuel
  | succ fuel ih =>
    rcases scanStep_cases hdata hlen with hscan | hfault | ⟨o, rest, hk, ho, rfl⟩
    · exact .inl hscan
    · exact .inr (loop_of_fault hfault)
    · have hsize := length_encodeOption o
      rw [length_append] at hlen hfuel
      have hdata' : (s.setOption o.1 o.2).readMsg.data.drop (k + (encodeOption o).length) = rest := by
        rw [readMsg_setOption, ← drop_drop, hdata, drop_left]
      rw [loop_of_continue (scanStep_option hdata (by omega) hk ho)]
      exact (ih hdata' (by omega) (by omega)).imp_left (.option hk ho)

/-! ## One packet -/

variable {body : Bytes}

theorem eq_of_supported (h : ¬ (!supported proto || decide (pgProtocolMajor proto < 3)) = true) : proto = 196608 := by
  have hmajor : (pgProtocolMajor proto).toNat = proto.toNat / 65536 := by
    rw [pgProtocolMajor, UInt32.toNat_shiftRight]
    exact Nat.shiftRight_eq_div_pow _ _
  have hminor : (pgProtocolMinor proto).toNat = proto.toNat % 65536 := by
    rw [pgProtocolMinor, UInt32.toNat_and]
    exact Nat.and_two_pow_sub_one_eq_mod _ 16
  have hlatest : (pgProtocolMajor pgProtocolLatest).toNat = 3 ∧ (pgProtocolMinor pgProtocolLatest).toNat = 0 := by decide
  simp only [supported, Bool.not_not, Bool.or_eq_true, Bool.and_eq_true, decide_eq_true_eq, not_or, not_and, gt_iff_lt,
    UInt32.lt_iff_toNat_lt, ← UInt32.toNat_inj, hmajor, hminor, hlatest] at h
  rw [← UInt32.toNat_inj]
  obtain ⟨⟨⟨-, hle⟩, hzero⟩, hge⟩ := h
  have hthree : ¬ proto.toNat / 65536 < 3 := hge
  have := hzero (by omega)
  change proto.toNat = 196608
  omega

theorem take_of_version (hbody : 4 ≤ body.length) (h : version body = 196608) : body.take 4 = beBytes 4 196608 := by
  have hlen : (body.take 4).length = 4 := length_take_of_le hbody
  have hlt := ofBE_lt (body.take 4)
  have hof : ofBE (body.take 4) = 196608 := by
    have := congrArg UInt32.toNat h
    rw [hlen] at hlt
    rwa [version, UInt32.toNat_ofNat_of_lt' hlt] at this
  have hbytes := beBytes_ofBE (body.take 4)
  rw [hlen, hof] at hbytes
  exact hbytes.symm

theorem wellFormed_of_drop (hbody : 4 ≤ body.length) (hversion : version body = 196608) {options : List (Bytes × Bytes)}
    (hoptions : ∀ o ∈ options, Encodable o) (hdrop : body.drop 4 = options.flatMap encodeOption ++ [0]) :
    WellFormed body := by
  refine ⟨options, hoptions, ?_⟩
  rw [packetBody, ← take_of_version hbody hversion, ← hdrop, take_append_drop]

/-- The packet that is decided on, on a block that ends with it. -/
structure Holds (s : Startup) (len : UInt32) (body : Bytes) : Prop where
  len : len.toNat = body.length
  data : s.readMsg.data.drop 4 = body.drop 4
  room : 9 ≤ s.writeMsg.data.length

theorem Holds.length_drop (h : Holds s len body) (hbody : 4 ≤ body.length) : 4 + (body.drop 4).length = len.toNat := by
  rw [List.length_drop, h.len]
  omega

theorem Holds.length_drop_lt (_ : Holds s len body) (hfuel : body.length < fuel) : (body.drop 4).length < fuel := by
  rw [List.length_drop]
  omega

theorem acceptPacket_of_contained (h : Holds s len body) (hbody : Contained body) (hfuel : body.length < fuel) :
    ∃ accepted s', s.acceptPacket fuel len (version body) = .ok (accepted, s') ∧ (accepted = true → WellFormed body) := by
  have hversioned := hbody.versioned
  unfold acceptPacket
  split
  · exact ⟨false, s, rfl, by rintro ⟨⟩⟩
  next hsupported =>
  have hversion := eq_of_supported hsupported
  obtain ⟨k', s', hscan, hk', hwrite, hend⟩ :=
    scan_of_scannable (hbody.scannable hversion) h.data (h.length_drop hversioned) (h.length_drop_lt hfuel)
  rw [show ((4 : Int32), s) = (Int32.ofNat 4, s) from rfl, hscan, ok_bind]
  dsimp only
  split
  · exact ⟨false, s', rfl, by rintro ⟨⟩⟩
  next heq =>
  obtain ⟨writeMsg, sent, hsend⟩ :=
    sendAuthRequest_eq (s := { s' with protoVersion := version body }) (by rw [hwrite]; exact h.room)
  refine ⟨true, _, hsend, fun _ => ?_⟩
  have hk : k' + 1 = len.toNat := by
    have hbound := len.toNat_lt
    have := congrArg UInt32.toNat (not_not.1 heq)
    rw [Offset.toNat_toUInt32 (by omega), UInt32.toNat_sub] at this
    simp at this
    omega
  obtain ⟨options, hoptions, hrest⟩ := hend hk
  exact wellFormed_of_drop hversioned hversion hoptions hrest

theorem contained_or_fault (h : Holds s len body) (hbody : 4 ≤ body.length) (hfuel : body.length < fuel) :
    Contained body ∨ s.acceptPacket fuel len (version body) = .error .outOfBounds := by
  by_cases hversion : version body = 196608
  swap
  · exact .inl ⟨hbody, fun h => absurd h hversion⟩
  have hsupported : ¬ (!supported 196608 || decide (pgProtocolMajor 196608 < 3)) = true := by decide
  refine (scannable_or_fault h.data (h.length_drop hbody) (h.length_drop_lt hfuel)).imp
    (fun hscan => ⟨hbody, fun _ => hscan⟩) fun hfault => ?_
  rw [acceptPacket, hversion, if_neg hsupported, show ((4 : Int32), s) = (Int32.ofNat 4, s) from rfl, hfault]
  rfl

/-! ## The whole call -/

variable {stream : Bytes}

theorem firstPacket_eq_some (h : firstPacket stream = some (body, rest)) :
    ∃ word, stream = word ++ (body ++ rest) ∧ word.length = 4 ∧ ((ofBE word).toUInt32 - 4).toNat = body.length := by
  unfold firstPacket at h
  dsimp only at h
  split at h
  · next hsize =>
    obtain ⟨rfl, rfl⟩ := Prod.mk.inj (Option.some.inj h)
    refine ⟨stream.take 4, ?_, length_take_of_le hsize.1, (length_take_of_le hsize.2).symm⟩
    rw [take_append_drop, take_append_drop]
  · cases h

theorem receivePacket_of_none (h : firstPacket s.stream = none) : s.receivePacket = .error .disconnected := by
  by_cases hword : s.stream.length < 4
  · rw [receivePacket, s.socket.read_of_lt hword]
    rfl
  have hread := s.socket.read_of_le (Nat.not_lt.1 hword)
  have hbody : (s.stream.drop 4).length < ((ofBE (s.stream.take 4)).toUInt32 - 4).toNat := by
    by_contra hsize
    rw [firstPacket, if_pos ⟨Nat.not_lt.1 hword, Nat.not_lt.1 hsize⟩] at h
    cases h
  rw [receivePacket, hread, ok_bind]
  dsimp only [MessageBuffer.getSize, MessageBuffer.setSize]
  rw [s.socket.read_of_lt hbody]
  rfl

variable {sslDone : Bool}

theorem processWithin_of_short (hread : s.readMsg.capacity ≤ s.readMsg.data.length)
    (h : firstPacket s.stream = some (body, rest)) (hbody : body.length < 4) :
    processWithin fuel sslDone s = .error .outOfBounds := by
  obtain ⟨word, hstream, hword, hlen⟩ := firstPacket_eq_some h
  have hreadWord : s.socket.read 4 s.stream = .ok (word, body ++ rest) := by
    rw [hstream, ← hword]
    exact s.socket.read_append word (body ++ rest)
  have hcheck : Res.check (4 ≤ ((ofBE word).toUInt32 - 4).toNat) .outOfBounds = .error .outOfBounds :=
    if_neg (by omega)
  obtain ⟨hdata, -⟩ := MessageBuffer.reAlloc_fits hread body.length
  rw [processWithin, receivePacket, hreadWord, ok_bind]
  dsimp only [MessageBuffer.getSize, MessageBuffer.setSize]
  rw [hlen, s.socket.read_append, ok_bind]
  dsimp only
  rw [check_of hdata, ok_bind]
  by_cases hblock : 4 ≤ (Block.write (s.readMsg.reAlloc body.length).data 0 body).length
  · rw [check_of hblock, ok_bind, pure_eq, ok_bind]
    dsimp only
    rw [hcheck]
    rfl
  · rw [Res.check, if_neg hblock]
    rfl

/-- What a session has before it receives a packet: the capacity of the one block is allocated, and the other has room
for the answer. -/
structure Ready (s : Startup) : Prop where
  read : s.readMsg.capacity ≤ s.readMsg.data.length
  room : 9 ≤ s.writeMsg.data.length

theorem Ready.receive (hs : Ready s) (h : firstPacket s.stream = some (body, rest)) (hbody : 4 ≤ body.length) :
    ∃ len s', s.receivePacket = .ok (len, version body, s') ∧ 4 ≤ len.toNat ∧ Holds s'.cut len body ∧
      s'.stream = rest ∧ Ready s' ∧
      s'.readMsg.data.drop 4 = body.drop 4 ++ (s.readMsg.reAlloc body.length).data.drop body.length ∧
      s'.readMsg.data.length ≤ max s.readMsg.data.length body.length := by
  obtain ⟨word, hstream, hword, hlen⟩ := firstPacket_eq_some h
  obtain ⟨readMsg, hreceive, hsize, hcapacity, hdata⟩ := receivePacket_body hs.read hstream hword hlen hbody
  have hdrop : readMsg.data.drop 4 = body.drop 4 ++ (s.readMsg.reAlloc body.length).data.drop body.length := by
    rw [hdata, drop_left' (length_leBytes 4 _)]
  have hblock : readMsg.data.length = (s.readMsg.reAlloc body.length).data.length := by
    have hfits := (MessageBuffer.reAlloc_fits hs.read body.length).1
    rw [hdata]
    simp only [length_append, length_leBytes, List.length_drop]
    omega
  refine ⟨_, { s with stream := rest, readMsg }, hreceive, by omega, ⟨hlen, ?_, hs.room⟩, rfl, ⟨hcapacity, hs.room⟩, hdrop,
    hblock ▸ s.readMsg.length_reAlloc_le body.length⟩
  change (readMsg.data.take readMsg.getSize).drop 4 = body.drop 4
  rw [hsize, drop_take, hdrop, ← List.length_drop, take_left]

theorem processWithin_of_receive (h : s.receivePacket = .ok (len, proto, s')) (hlen : 4 ≤ len.toNat) :
    processWithin fuel sslDone s =
      if proto = cancelRequestCode then .ok (false, s')
      else if proto = negotiateSslCode ∧ sslDone = false then
        processWithin fuel true { s' with sent := s'.sent ++ [0x4e] }
      else s'.cut.acceptPacket fuel len proto := by
  rw [processWithin, h, ok_bind]
  dsimp only
  rw [check_of hlen, ok_bind]
  rfl

theorem processStartupPacket_of_receive (h : s.receivePacket = .ok (len, proto, s')) :
    processStartupPacket fuel sslDone s =
      if proto = cancelRequestCode then .ok (false, s')
      else if proto = negotiateSslCode ∧ sslDone = false then
        processStartupPacket fuel true { s' with sent := s'.sent ++ [0x4e] }
      else s'.acceptPacket fuel len proto := by
  rw [processStartupPacket, h, ok_bind]
  rfl

theorem packets_of_some (sslDone : Bool) (h : firstPacket stream = some (body, rest)) :
    packets sslDone stream =
      if version body = negotiateSslCode ∧ sslDone = false then body :: packets true rest else [body] := by
  rw [packets, h]
  rfl

theorem packets_of_none (h : firstPacket stream = none) : packets sslDone stream = [] := by
  rw [packets, h]

theorem length_of_firstPacket (h : firstPacket stream = some (body, rest)) :
    body.length ≤ stream.length ∧ rest.length ≤ stream.length := by
  obtain ⟨word, rfl, -⟩ := firstPacket_eq_some h
  simp only [length_append]
  omega

/-- A call is followed by at most one more, behind the answer to a request for SSL. -/
theorem retry_induction {P : Bool → Startup → Prop}
    (call : ∀ sslDone s, (sslDone = false → ∀ s', P true s') → P sslDone s) (sslDone : Bool) (s : Startup) :
    P sslDone s := by
  have hdone : ∀ s, P true s := fun s => call true s (by rintro ⟨⟩)
  exact call sslDone s fun _ => hdone

theorem contained_of_within (hs : Ready s) (hfuel : s.stream.length < fuel)
    (h : processWithin fuel sslDone s ≠ .error .outOfBounds) : ∀ body ∈ packets sslDone s.stream, Contained body := by
  induction sslDone, s using retry_induction with
  | call sslDone s ih =>
    rcases hfirst : firstPacket s.stream with _ | ⟨body, rest⟩
    · simp [packets_of_none hfirst]
    obtain ⟨hbodyLen, hrestLen⟩ := length_of_firstPacket hfirst
    by_cases hbody : body.length < 4
    · exact absurd (processWithin_of_short hs.read hfirst hbody) h
    have hbody := Nat.not_lt.1 hbody
    obtain ⟨len, s', hreceive, hlen, hholds, rfl, hs', -⟩ := hs.receive hfirst hbody
    rw [processWithin_of_receive hreceive hlen] at h
    rw [packets_of_some sslDone hfirst]
    split_ifs at h with hcancel hssl
    · have hcodes : cancelRequestCode ≠ negotiateSslCode ∧ cancelRequestCode ≠ 196608 := by decide
      simp only [hcancel, hcodes, false_and, if_false, mem_singleton, forall_eq]
      exact ⟨hbody, fun h => absurd (hcancel.symm.trans h) hcodes.2⟩
    · have hcodes : negotiateSslCode ≠ 196608 := by decide
      rw [if_pos hssl, forall_mem_cons]
      exact ⟨⟨hbody, fun h => absurd (hssl.1.symm.trans h) hcodes⟩,
        ih hssl.2 { s' with sent := s'.sent ++ [0x4e] } ⟨hs'.read, hs'.room⟩ (hrestLen.trans_lt hfuel) h⟩
    · simp only [hssl, if_false, mem_singleton, forall_eq]
      exact (contained_or_fault hholds hbody (hbodyLen.trans_lt hfuel)).resolve_right h

theorem safe_of_contained (hs : Ready s) (hfuel : s.stream.length < fuel)
    (h : ∀ body ∈ packets sslDone s.stream, Contained body) :
    processWithin fuel sslDone s ≠ .error .outOfBounds ∧
      (processStartupPacket fuel sslDone s = .error .disconnected ∨
        ∃ accepted s', processStartupPacket fuel sslDone s = .ok (accepted, s') ∧
          (accepted = true → ∃ body, (packets sslDone s.stream).getLast? = some body ∧ WellFormed body)) := by
  induction sslDone, s using retry_induction with
  | call sslDone s ih =>
    rcases hfirst : firstPacket s.stream with _ | ⟨body, rest⟩
    · have hnone := receivePacket_of_none hfirst
      refine ⟨?_, .inl ?_⟩
      · rw [processWithin, hnone]
        rintro ⟨⟩
      · rw [processStartupPacket, hnone]
        rfl
    obtain ⟨hbodyLen, hrestLen⟩ := length_of_firstPacket hfirst
    rw [packets_of_some sslDone hfirst] at h ⊢
    have hbody : Contained body := by
      split_ifs at h
      · exact h body mem_cons_self
      · exact h body mem_cons_self
    obtain ⟨len, s', hreceive, hlen, hholds, rfl, hs', -⟩ := hs.receive hfirst hbody.versioned
    rw [processWithin_of_receive hreceive hlen, processStartupPacket_of_receive hreceive]
    by_cases hcancel : version body = cancelRequestCode
    · rw [if_pos hcancel, if_pos hcancel]
      exact ⟨by rintro ⟨⟩, .inr ⟨false, s', rfl, by rintro ⟨⟩⟩⟩
    rw [if_neg hcancel, if_neg hcancel]
    by_cases hssl : version body = negotiateSslCode ∧ sslDone = false
    · rw [if_pos hssl] at h
      simp only [if_pos hssl]
      obtain ⟨hwithin, hresult⟩ := ih hssl.2 { s' with sent := s'.sent ++ [0x4e] } ⟨hs'.read, hs'.room⟩
        (hrestLen.trans_lt hfuel) (forall_mem_cons.1 h).2
      refine ⟨hwithin, hresult.imp_right ?_⟩
      rintro ⟨accepted, t, hok, haccepted⟩
      refine ⟨accepted, t, hok, fun htrue => ?_⟩
      obtain ⟨last, hlast, hwell⟩ := haccepted htrue
      exact ⟨last, by rw [getLast?_cons, hlast]; rfl, hwell⟩
    · simp only [if_neg hssl]
      obtain ⟨accepted, t, hwithin, hwell⟩ := acceptPacket_of_contained hholds hbody (hbodyLen.trans_lt hfuel)
      obtain ⟨t', hok⟩ := acceptPacket_cut hwithin
      refine ⟨?_, .inr ⟨accepted, t', hok, fun htrue => ⟨body, rfl, hwell htrue⟩⟩⟩
      rw [hwithin]
      rintro ⟨⟩

theorem scanStep_lastByte {c : UInt8} {stale : Bytes} (hdata : s.readMsg.data.drop k = c :: stale)
    (hsmall : s.readMsg.data.length < 2 ^ 32) (hk : k + 1 = len.toNat) (hlt : len.toNat < 2 ^ 31)
    (hzero : c = 0 ∨ 0 ∈ stale) : scanStep len (Int32.ofNat k, s) = .ok (.inr (Int32.ofNat k, s)) := by
  by_cases hc : c = 0
  · rw [hc] at hdata
    exact scanStep_end hdata (by omega)
  obtain ⟨name, more, rfl, hname⟩ := eq_append_cons_of_mem (hzero.resolve_left hc)
  have hname' : ∀ b ∈ c :: name, b ≠ 0 := forall_mem_cons.2 ⟨hc, fun b hb h => hname (h ▸ hb)⟩
  have hsize := congrArg List.length hdata
  rw [List.length_drop, length_cons, length_append, length_cons] at hsize
  rw [← cons_append] at hdata
  rw [scanStep_name hdata (by omega) (by omega) (by rw [length_cons]; omega) (cons_ne_nil _ _) hname',
    if_neg (by rw [length_cons]; omega)]

/-- A packet that ends in any byte instead of the terminator is accepted, if a zero byte is left behind it in the
block. -/
theorem accepted_of_lastByte {options : List (Bytes × Bytes)} {c : UInt8} (hs : Ready s)
    (hsmall : s.readMsg.data.length < 2 ^ 32) (hfirst : firstPacket s.stream = some (body, rest))
    (hbody : body = beBytes 4 196608 ++ (options.flatMap encodeOption ++ [c])) (hoptions : ∀ o ∈ options, Encodable o)
    (hlt : body.length < 2 ^ 31) (hzero : c = 0 ∨ 0 ∈ (s.readMsg.reAlloc body.length).data.drop body.length) :
    ∃ N, ∀ fuel ≥ N, ∃ s', processStartupPacket fuel sslDone s = .ok (true, s') := by
  have hlength : body.length = 4 + (options.flatMap encodeOption).length + 1 := by
    rw [hbody]
    simp only [length_append, length_beBytes, length_singleton]
    omega
  have hversion : version body = 196608 := by
    rw [version, hbody, take_left' (length_beBytes 4 _), ofBE_beBytes]
    rfl
  have hdrop : body.drop 4 = options.flatMap encodeOption ++ [c] := by
    rw [hbody, drop_left' (length_beBytes 4 _)]
  obtain ⟨len, t, hreceive, hlen, hholds, -, ht, hdata, hblock⟩ := hs.receive hfirst (by omega)
  have hsize := hholds.len
  rw [hdrop, append_assoc] at hdata
  rw [hversion] at hreceive
  refine ⟨options.length + 1, fun fuel hfuel => ?_⟩
  obtain ⟨fuel, rfl⟩ := Nat.exists_eq_add_of_le (Nat.le_of_lt hfuel)
  have hend : (options.foldl (fun s o => s.setOption o.1 o.2) t).readMsg.data.drop
      (4 + (options.flatMap encodeOption).length) = c :: (s.readMsg.reAlloc body.length).data.drop body.length := by
    rw [readMsg_foldl, ← drop_drop, hdata, drop_left, singleton_append]
  have hscan : Res.loop (scanStep len) (options.length + fuel) (Int32.ofNat 4, t) = _ :=
    scan_options hdata (by omega) (by omega) hoptions fuel
  rw [loop_return (by omega) (scanStep_lastByte hend (by rw [readMsg_foldl]; omega) (by omega) (by omega) hzero)] at hscan
  obtain ⟨writeMsg, sent, haccept⟩ := acceptPacket_eq hscan (by omega)
    (by rw [(chosen_foldl t options).buffers.2]; exact ht.room)
  have hcodes : (196608 : UInt32) ≠ cancelRequestCode ∧ (196608 : UInt32) ≠ negotiateSslCode := by decide
  rw [processStartupPacket_of_receive hreceive, if_neg hcodes.1, if_neg fun h => hcodes.2 h.1]
  exact ⟨_, haccept⟩

theorem WellFormed.getLast? (h : WellFormed body) : body.getLast? = some 0 := by
  obtain ⟨options, -, rfl⟩ := h
  simp [packetBody]

def letter : Bytes := beBytes 4 196608 ++ [0x78]

/-- In a session whose block holds 512 zero bytes of an earlier packet, the letter passes for the terminator. -/
theorem accepted_letter : ¬ WellFormed letter ∧
    ∃ N, ∀ fuel ≥ N, ∃ s', processStartupPacket fuel true
      { stream := beBytes 4 9 ++ letter, readMsg := ⟨List.replicate 512 0, 512, 512⟩ } = .ok (true, s') := by
  refine ⟨fun h => absurd h.getLast? (by decide), ?_⟩
  have hkept : (MessageBuffer.mk (List.replicate 512 0) 512 512).reAlloc letter.length =
      ⟨List.replicate 512 0, 512, 512⟩ := by
    rw [MessageBuffer.reAlloc, if_neg (by decide)]
  have hletter : letter = beBytes 4 196608 ++ (([] : List (Bytes × Bytes)).flatMap encodeOption ++ [0x78]) := rfl
  refine accepted_of_lastByte ⟨?_, room_new⟩ ?_ (by decide : _ = some (letter, [])) hletter
    (by simp) (by decide) (.inr ?_)
  · rw [MessageBuffer.capacity, length_replicate]
  · rw [length_replicate]
    decide
  · rw [hkept, drop_replicate]
    exact mem_replicate.2 ⟨by decide, rfl⟩

theorem StartupSafe.contained (hs : Ready s) (h : StartupSafe sslDone s) :
    ∀ body ∈ packets sslDone s.stream, Contained body := by
  obtain ⟨fuel, ⟨hwithin, -⟩, hfuel⟩ := exists_fuel h ⟨s.stream.length + 1, fun _ hfuel => hfuel⟩
  exact contained_of_within hs hfuel hwithin

theorem startupSafe_iff (hs : Ready s) (sslDone : Bool) :
    StartupSafe sslDone s ↔ ∀ body ∈ packets sslDone s.stream, Contained body :=
  ⟨StartupSafe.contained hs, fun h => ⟨s.stream.length + 1, fun _ hfuel => safe_of_contained hs hfuel h⟩⟩

theorem ready_new (stream : Bytes) : Ready { stream } := ⟨MessageBuffer.fits_new.capacity, room_new⟩

/-- Version 3.0 and the name `user`, with its zero byte but without a value. -/
def userOnly : Bytes := beBytes 4 196608 ++ (ascii "user" ++ [0])

theorem startupSafe_iff_userOnly :
    Ready { stream := beBytes 4 13 ++ userOnly } ∧ StartupSafe false { stream := beBytes 4 13 ++ userOnly } := by
  have hready := ready_new (beBytes 4 13 ++ userOnly)
  refine ⟨hready, (startupSafe_iff hready false).2 ?_⟩
  have hfirst : firstPacket (beBytes 4 13 ++ userOnly) = some (userOnly, []) := by decide
  have hversion : ¬ (version userOnly = negotiateSslCode ∧ false = false) := by decide
  rw [packets_of_some false hfirst, if_neg hversion]
  simp only [mem_singleton, forall_eq]
  exact ⟨by decide, fun _ => .missing (by decide) (by decide) (by simp [ascii])⟩

theorem Scannable.zero_mem (h : Scannable k rest) : rest = [] ∨ 0 ∈ rest := by
  cases h with
  | done => exact .inl rfl
  | terminator => exact .inr mem_cons_self
  | missing => simp
  | option => simp [encodeOption]

def ReadsOutside (stream : Bytes) : Prop :=
  ∃ N, ∀ fuel ≥ N, processWithin fuel false { stream } = .error .outOfBounds

theorem readsOutside_of_not_contained (hfirst : firstPacket stream = some (body, []))
    (hversion : version body ≠ negotiateSslCode) (hbody : ¬ Contained body) : ReadsOutside stream := by
  refine ⟨stream.length + 1, fun fuel hfuel => by_contra fun h => ?_⟩
  have hpackets := contained_of_within (ready_new stream) hfuel h
  rw [packets_of_some false hfirst, if_neg fun hssl => hversion hssl.1] at hpackets
  exact hbody (hpackets body mem_cons_self)

theorem ReadsOutside.not_startupSafe (h : ReadsOutside stream) : ¬ StartupSafe false { stream } := by
  intro hsafe
  obtain ⟨fuel, ⟨hwithin, -⟩, hfault⟩ := exists_fuel hsafe h
  exact hwithin hfault

/-- Version 3.0 and the name `user` without its zero byte. -/
def unterminated : Bytes := beBytes 4 196608 ++ ascii "user"

theorem not_contained_unterminated : ¬ Contained unterminated := by
  intro h
  rcases (h.scannable (by decide)).zero_mem with hnil | hzero
  · revert hnil
    decide
  · revert hzero
    decide

theorem not_contained_of_lt (h : body.length < 4) : ¬ Contained body :=
  fun hbody => Nat.not_le.2 h hbody.versioned

/-- A name without its zero byte, and a packet of two bytes. -/
theorem readsOutside_unterminated :
    ReadsOutside (beBytes 4 12 ++ unterminated) ∧ ¬ StartupSafe false { stream := beBytes 4 12 ++ unterminated } ∧
      ReadsOutside (beBytes 4 6 ++ [0, 3]) ∧ ¬ StartupSafe false { stream := beBytes 4 6 ++ [0, 3] } := by
  have hname : ReadsOutside (beBytes 4 12 ++ unterminated) :=
    readsOutside_of_not_contained (by decide) (by decide) not_contained_unterminated
  have hfirst : firstPacket (beBytes 4 6 ++ [0, 3]) = some ([0, 3], []) := by decide
  have hshort : ReadsOutside (beBytes 4 6 ++ [0, 3]) :=
    readsOutside_of_not_contained hfirst (by decide) (not_contained_of_lt (by decide))
  exact ⟨hname, hname.not_startupSafe, hshort, hshort.not_startupSafe⟩

end Startup

end Dbms18
