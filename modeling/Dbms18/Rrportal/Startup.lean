import Dbms18.Lib.Loop
import Dbms18.Lib.Offset
import Dbms18.Lib.Text
import Dbms18.Rrportal.Reader

/-!
# The startup packet (`Session::ProcessStartupPacket`, `rrportal/session.cpp`)

A client begins with a packet that has no type: a length word, the version of the protocol, and options,
each a name and a value that end in a zero byte. The scan of the options goes by offsets into `read_msg_`
and must come out at the last byte of the packet. The offsets are signed: it does so for every list of options
whose packet has no offset of `2 ^ 31` or more, and reads in front of the buffer otherwise (`decodes_iff`).
-/

namespace Dbms18

open Res List

/-- What a session has while it starts: its socket, its buffers and what the client has asked for. -/
structure Startup where
  stream : Bytes
  socket : Socket := .blocking
  sent : Bytes := []
  readMsg : MessageBuffer := .new
  writeMsg : MessageBuffer := .new
  databaseName : Bytes := []
  userName : Bytes := []
  cmdlineOptions : Bytes := []
  gucOptions : List (Bytes × Bytes) := []
  protoVersion : UInt32 := 0

namespace Startup

def pgProtocolMajor (v : UInt32) : UInt32 := v >>> 16
def pgProtocolMinor (v : UInt32) : UInt32 := v &&& 0xffff
def pgProtocol (m n : UInt32) : UInt32 := (m <<< 16) ||| n

def pgProtocolEarliest : UInt32 := pgProtocol 2 0
def pgProtocolLatest : UInt32 := pgProtocol 3 0
def cancelRequestCode : UInt32 := pgProtocol 1234 5678
def negotiateSslCode : UInt32 := pgProtocol 1234 5679

def supported (proto : UInt32) : Bool :=
  !(pgProtocolMajor proto < pgProtocolMajor pgProtocolEarliest ||
    pgProtocolMajor proto > pgProtocolMajor pgProtocolLatest ||
    (pgProtocolMajor proto = pgProtocolMajor pgProtocolLatest &&
      pgProtocolMinor proto > pgProtocolMinor pgProtocolLatest))

/-- `SendAuthRequest`: AuthenticationOk. `boost::asio::write` writes all of it. -/
def sendAuthRequest (s : Startup) : Res (Bool × Startup) := do
  let writeMsg := s.writeMsg.setSize 0
  let writeMsg ← writeMsg.append [0x52]
  let writeMsg ← writeMsg.append (beBytes 4 8)
  let writeMsg ← writeMsg.append (beBytes 4 0)
  return (true, { s with writeMsg, sent := s.sent ++ Block.read writeMsg.data 0 writeMsg.getSize })

/-- The C string at an offset of the buffer, which ends inside the buffer's block. -/
def cStringAt (data : Bytes) (offset : Int32) : Res Bytes := do
  Res.check (0 ≤ offset) .outOfBounds
  let bytes := data.drop offset.toNatClampNeg
  let string := bytes.takeWhile (· ≠ 0)
  Res.check (string.length < bytes.length) .outOfBounds
  return string

/-- An option of the client. The session keeps three of them under names of their own. -/
def setOption (s : Startup) (name value : Bytes) : Startup :=
  let s :=
    if name = ascii "database" then { s with databaseName := value }
    else if name = ascii "user" then { s with userName := value }
    else if name = ascii "options" then { s with cmdlineOptions := value }
    else s
  { s with gucOptions := s.gucOptions ++ [(name, value)] }

/-- One pass of the loop over the options. `offset` is signed and compared with `len` as unsigned. -/
def scanStep (len : UInt32) (os : Int32 × Startup) : Res (Int32 × Startup ⊕ Int32 × Startup) := do
  let (offset, s) := os
  if ¬ offset.toUInt32 < len then return .inr os
  let name ← cStringAt s.readMsg.data offset
  if name = [] then return .inr os
  let valoffset := offset + Int32.ofNat name.length + 1
  if ¬ valoffset.toUInt32 < len then return .inr os
  let value ← cStringAt s.readMsg.data valoffset
  return .inl (valoffset + Int32.ofNat value.length + 1, s.setOption name value)

/-- The part of `ProcessStartupPacket` behind the request codes. -/
def acceptPacket (fuel : Nat) (len proto : UInt32) (s : Startup) : Res (Bool × Startup) := do
  if !supported proto || pgProtocolMajor proto < 3 then return (false, s)
  let (offset, s) ← Res.loop (scanStep len) fuel (4, s)
  if offset.toUInt32 ≠ len - 1 then return (false, s)
  { s with protoVersion := proto }.sendAuthRequest

/-- The packet is read into `read_msg_`, and its version turned into the host's byte order. -/
def receivePacket (s : Startup) : Res (UInt32 × UInt32 × Startup) := do
  let (word, stream) ← s.socket.read 4 s.stream
  let len := (ofBE word).toUInt32 - 4
  let readMsg := (s.readMsg.reAlloc len.toNat).setSize len.toNat
  let (body, stream) ← s.socket.read readMsg.getSize stream
  Res.check (body.length ≤ readMsg.data.length) .outOfBounds
  let data := Block.write readMsg.data 0 body
  Res.check (4 ≤ data.length) .outOfBounds
  let proto := (ofBE (Block.read data 0 4)).toUInt32
  let data := Block.write data 0 (leBytes 4 proto.toNat)
  return (len, proto, { s with stream, readMsg := { readMsg with data } })

/-- A request for SSL is answered with the letter N, and another packet read. -/
def processStartupPacket (fuel : Nat) (sslDone : Bool) (s : Startup) : Res (Bool × Startup) := do
  let (len, proto, s) ← s.receivePacket
  if proto = cancelRequestCode then return (false, s)
  if _h : proto = negotiateSslCode ∧ sslDone = false then
    processStartupPacket fuel true { s with sent := s.sent ++ [0x4e] }
  else s.acceptPacket fuel len proto
termination_by (!sslDone).toNat
decreasing_by simp [_h.2]

/-! ## The packet of a list of options -/

def encodeOption (o : Bytes × Bytes) : Bytes := o.1 ++ 0 :: (o.2 ++ [0])

/-- The packet behind its length word: version 3.0, the options, and a zero byte. -/
def packetBody (options : List (Bytes × Bytes)) : Bytes := beBytes 4 196608 ++ (options.flatMap encodeOption ++ [0])

def startupPacket (options : List (Bytes × Bytes)) : Bytes :=
  beBytes 4 ((packetBody options).length + 4) ++ packetBody options

/-- An option that can stand in a packet: its name is not empty, and nothing has a zero byte inside. -/
structure Encodable (o : Bytes × Bytes) : Prop where
  name_ne_nil : o.1 ≠ []
  name : ∀ b ∈ o.1, b ≠ 0
  value : ∀ b ∈ o.2, b ≠ 0

/-- A list of options that a packet can carry: names are not empty, nothing has a zero byte inside, and
the length fits into the length word. -/
structure Sendable (options : List (Bytes × Bytes)) : Prop where
  name_ne_nil : ∀ o ∈ options, o.1 ≠ []
  name : ∀ o ∈ options, ∀ b ∈ o.1, b ≠ 0
  value : ∀ o ∈ options, ∀ b ∈ o.2, b ≠ 0
  framed : (packetBody options).length + 4 < 2 ^ 32

theorem Sendable.encodable {options : List (Bytes × Bytes)} (h : Sendable options) : ∀ o ∈ options, Encodable o :=
  fun o ho => ⟨h.name_ne_nil o ho, h.name o ho, h.value o ho⟩

def lastValue (name : Bytes) (options : List (Bytes × Bytes)) : Option Bytes :=
  (options.reverse.find? fun o => o.1 = name).map Prod.snd

/-! ## Scanning -/

variable {k : Nat}

theorem cStringAt_eq {data string rest : Bytes} (hk : k < 2 ^ 31) (hdata : data.drop k = string ++ 0 :: rest)
    (hstring : ∀ b ∈ string, b ≠ 0) : cStringAt data (Int32.ofNat k) = .ok string := by
  have htake : (string ++ 0 :: rest).takeWhile (· ≠ 0) = string := by
    rw [takeWhile_append_of_pos (by simpa using hstring)]
    simp
  simp only [cStringAt, Int32.toNatClampNeg_ofNat_of_lt hk, hdata, htake, check_of (Offset.nonneg hk),
    ok_bind]
  rw [check_of (by simp)]
  rfl

theorem length_encodeOption (o : Bytes × Bytes) : (encodeOption o).length = o.1.length + o.2.length + 2 := by
  simp [encodeOption]
  omega

@[simp] theorem readMsg_setOption (s : Startup) (name value : Bytes) : (s.setOption name value).readMsg = s.readMsg := by
  unfold setOption
  dsimp only
  split_ifs <;> rfl

theorem readMsg_foldl (options : List (Bytes × Bytes)) (s : Startup) :
    (options.foldl (fun s o => s.setOption o.1 o.2) s).readMsg = s.readMsg := by
  induction options generalizing s with
  | nil => rfl
  | cons o options ih => rw [foldl_cons, ih, readMsg_setOption]

variable {len : UInt32} {s : Startup}

theorem scanStep_name {name rest : Bytes}
    (hdata : s.readMsg.data.drop k = name ++ 0 :: rest) (hk : k < 2 ^ 31) (hlen : k < len.toNat)
    (hbound : k + name.length + 1 < 2 ^ 32) (hne : name ≠ []) (hname : ∀ b ∈ name, b ≠ 0) :
    scanStep len (Int32.ofNat k, s) =
      if k + name.length + 1 < len.toNat then do
        let value ← cStringAt s.readMsg.data (Int32.ofNat (k + name.length + 1))
        return .inl (Int32.ofNat (k + name.length + 1) + Int32.ofNat value.length + 1, s.setOption name value)
      else .ok (.inr (Int32.ofNat k, s)) := by
  have hin : (Int32.ofNat k).toUInt32 < len := (Offset.lt_iff (by omega)).2 hlen
  have hiff : (Int32.ofNat (k + name.length + 1)).toUInt32 < len ↔ k + name.length + 1 < len.toNat :=
    Offset.lt_iff hbound
  by_cases hval : k + name.length + 1 < len.toNat
  · have hin' := hiff.2 hval
    simp only [scanStep, hin, not_true_eq_false, if_false, cStringAt_eq hk hdata hname, ok_bind, hne,
      Offset.add_succ, hin', hval, if_true]
  · have hend : ¬ (Int32.ofNat (k + name.length + 1)).toUInt32 < len := fun hlt => hval (hiff.1 hlt)
    simp only [scanStep, hin, not_true_eq_false, if_false, cStringAt_eq hk hdata hname, ok_bind, hne,
      Offset.add_succ, hend, hval, not_false_eq_true, if_true]
    rfl

variable {rest : Bytes}

theorem scanStep_option {o : Bytes × Bytes}
    (hdata : s.readMsg.data.drop k = encodeOption o ++ rest) (hlen : k + (encodeOption o).length ≤ len.toNat)
    (hlt : k + o.1.length + 1 < 2 ^ 31) (ho : Encodable o) :
    scanStep len (Int32.ofNat k, s) =
      .ok (.inl (Int32.ofNat (k + (encodeOption o).length), s.setOption o.1 o.2)) := by
  have hsize := length_encodeOption o
  have hdrop : s.readMsg.data.drop (k + o.1.length + 1) = o.2 ++ 0 :: rest := by
    rw [Nat.add_assoc, ← drop_drop, hdata]
    simp [encodeOption]
  have hvalueAt : cStringAt s.readMsg.data (Int32.ofNat (k + o.1.length + 1)) = .ok o.2 :=
    cStringAt_eq hlt hdrop ho.value
  have hdata' : s.readMsg.data.drop k = o.1 ++ 0 :: (o.2 ++ [0] ++ rest) := by
    rw [hdata, encodeOption, append_assoc, cons_append]
  have hnext : k + o.1.length + 1 + o.2.length + 1 = k + (encodeOption o).length := by omega
  rw [scanStep_name hdata' (by omega) (by omega) (by omega) ho.name_ne_nil ho.name, if_pos (by omega), hvalueAt,
    ok_bind, Offset.add_succ, hnext]
  rfl

theorem scanStep_end (hdata : s.readMsg.data.drop k = 0 :: rest)
    (hk : k < 2 ^ 31) : scanStep len (Int32.ofNat k, s) = .ok (.inr (Int32.ofNat k, s)) := by
  have hnameAt : cStringAt s.readMsg.data (Int32.ofNat k) = .ok [] := cStringAt_eq hk hdata (by simp)
  simp [scanStep, hnameAt]

variable {options : List (Bytes × Bytes)}

theorem scan_options (hdata : s.readMsg.data.drop k = options.flatMap encodeOption ++ rest)
    (hlen : k + (options.flatMap encodeOption).length ≤ len.toNat) (hlt : k + (options.flatMap encodeOption).length < 2 ^ 31)
    (ho : ∀ o ∈ options, Encodable o) (fuel : Nat) :
    Res.loop (scanStep len) (options.length + fuel) (Int32.ofNat k, s) =
      Res.loop (scanStep len) fuel (Int32.ofNat (k + (options.flatMap encodeOption).length),
        options.foldl (fun s o => s.setOption o.1 o.2) s) := by
  induction options generalizing s k with
  | nil => rw [length_nil, Nat.zero_add, flatMap_nil, length_nil, Nat.add_zero, foldl_nil]
  | cons o options ih =>
    rw [forall_mem_cons] at ho
    rw [flatMap_cons, append_assoc] at hdata
    rw [flatMap_cons, length_append] at hlen hlt ⊢
    have hsize := length_encodeOption o
    have hdata' : (s.setOption o.1 o.2).readMsg.data.drop (k + (encodeOption o).length) =
        options.flatMap encodeOption ++ rest := by
      rw [readMsg_setOption, ← drop_drop, hdata, drop_left]
    rw [length_cons, Nat.succ_add,
      loop_of_continue (scanStep_option hdata (by omega) (by omega) ho.1),
      ih hdata' (by omega) (by omega) ho.2, Nat.add_assoc, foldl_cons]

theorem scan_eq {k fuel : Nat} (hdata : s.readMsg.data.drop k = options.flatMap encodeOption ++ 0 :: rest)
    (hlen : k + (options.flatMap encodeOption).length < len.toNat) (hlt : len.toNat ≤ 2 ^ 31)
    (ho : ∀ o ∈ options, Encodable o) (hfuel : options.length < fuel) :
    Res.loop (scanStep len) fuel (Int32.ofNat k, s) =
      .ok (Int32.ofNat (k + (options.flatMap encodeOption).length),
        options.foldl (fun s o => s.setOption o.1 o.2) s) := by
  obtain ⟨fuel, rfl⟩ := Nat.exists_eq_add_of_le (Nat.le_of_lt hfuel)
  have hend : (options.foldl (fun s o => s.setOption o.1 o.2) s).readMsg.data.drop
      (k + (options.flatMap encodeOption).length) = 0 :: rest := by
    rw [readMsg_foldl, ← drop_drop, hdata, drop_left]
  rw [scan_options hdata (by omega) (by omega) ho, loop_return (by omega) (scanStep_end hend (by omega))]

theorem cStringAt_negative (data : Bytes) (hk : 2 ^ 31 ≤ k) (hlt : k < 2 ^ 32) :
    cStringAt data (Int32.ofNat k) = .error .outOfBounds := by
  rw [cStringAt, Res.check, if_neg (Offset.not_nonneg hk hlt)]
  rfl

theorem scanStep_negative (hk : 2 ^ 31 ≤ k) (hlen : k < len.toNat) :
    scanStep len (Int32.ofNat k, s) = .error .outOfBounds := by
  have hlt : k < 2 ^ 32 := hlen.trans len.toNat_lt
  simp only [scanStep, (Offset.lt_iff hlt).2 hlen, not_true_eq_false, if_false, cStringAt_negative _ hk hlt]
  rfl

theorem scan_fault (hdata : s.readMsg.data.drop k = options.flatMap encodeOption ++ rest)
    (hlen : k + (options.flatMap encodeOption).length < len.toNat) (hbig : 2 ^ 31 ≤ k + (options.flatMap encodeOption).length)
    (ho : ∀ o ∈ options, Encodable o) (fuel : Nat) :
    ∃ e, Res.loop (scanStep len) fuel (Int32.ofNat k, s) = .error e := by
  have hword := len.toNat_lt
  induction options generalizing s k fuel with
  | nil =>
    cases fuel with
    | zero => exact ⟨_, rfl⟩
    | succ fuel => exact ⟨_, loop_of_fault (scanStep_negative (by simpa using hbig) (by simpa using hlen))⟩
  | cons o options ih =>
    rw [forall_mem_cons] at ho
    rw [flatMap_cons, append_assoc] at hdata
    rw [flatMap_cons, length_append] at hlen hbig
    have hsize := length_encodeOption o
    cases fuel with
    | zero => exact ⟨_, rfl⟩
    | succ fuel =>
      by_cases hk : 2 ^ 31 ≤ k
      · exact ⟨_, loop_of_fault (scanStep_negative hk (by omega))⟩
      by_cases hval : 2 ^ 31 ≤ k + o.1.length + 1
      · -- the name is read, and its value is out of reach
        have hdata' : s.readMsg.data.drop k = o.1 ++ 0 :: (o.2 ++ [0] ++ (options.flatMap encodeOption ++ rest)) := by
          rw [hdata, encodeOption, append_assoc, cons_append]
        refine ⟨.outOfBounds, loop_of_fault ?_⟩
        rw [scanStep_name hdata' (by omega) (by omega) (by omega) ho.1.name_ne_nil ho.1.name, if_pos (by omega),
          cStringAt_negative _ hval (by omega)]
        rfl
      · have hdata' : (s.setOption o.1 o.2).readMsg.data.drop (k + (encodeOption o).length) =
            options.flatMap encodeOption ++ rest := by
          rw [readMsg_setOption, ← drop_drop, hdata, drop_left]
        rw [loop_of_continue (scanStep_option hdata (by omega) (by omega) ho.1)]
        exact ih hdata' (by omega) (by omega) ho.2 fuel

/-! ## What the options set -/

theorem lastValue_singleton (name : Bytes) (o : Bytes × Bytes) :
    lastValue name [o] = if o.1 = name then some o.2 else none := by
  by_cases ho : o.1 = name <;> simp [lastValue, ho]

theorem getD_lastValue_append (name : Bytes) (options options' : List (Bytes × Bytes)) (default : Bytes) :
    (lastValue name (options ++ options')).getD default =
      (lastValue name options').getD ((lastValue name options).getD default) := by
  rw [lastValue, reverse_append, find?_append, Option.map_or, Option.getD_or]
  rfl

/-- What is left of a session by its options. -/
structure Chosen (s : Startup) (options : List (Bytes × Bytes)) (s' : Startup) : Prop where
  gucOptions : s'.gucOptions = s.gucOptions ++ options
  databaseName : s'.databaseName = (lastValue (ascii "database") options).getD s.databaseName
  userName : s'.userName = (lastValue (ascii "user") options).getD s.userName
  cmdlineOptions : s'.cmdlineOptions = (lastValue (ascii "options") options).getD s.cmdlineOptions
  buffers : s'.readMsg = s.readMsg ∧ s'.writeMsg = s.writeMsg
  socket : s'.stream = s.stream ∧ s'.sent = s.sent

theorem chosen_setOption (s : Startup) (o : Bytes × Bytes) : Chosen s [o] (s.setOption o.1 o.2) := by
  have hdatabase : ascii "user" ≠ ascii "database" ∧ ascii "options" ≠ ascii "database" := by decide
  have huser : ascii "options" ≠ ascii "user" := by decide
  obtain ⟨name, value⟩ := o
  refine ⟨?_, ?_, ?_, ?_, ?_, ?_⟩ <;>
    simp only [setOption, lastValue_singleton] <;> split_ifs <;> simp_all

theorem Chosen.trans {s s' s'' : Startup} {options options' : List (Bytes × Bytes)} (h : Chosen s options s')
    (h' : Chosen s' options' s'') : Chosen s (options ++ options') s'' where
  gucOptions := by rw [h'.gucOptions, h.gucOptions, append_assoc]
  databaseName := by rw [h'.databaseName, h.databaseName, getD_lastValue_append]
  userName := by rw [h'.userName, h.userName, getD_lastValue_append]
  cmdlineOptions := by rw [h'.cmdlineOptions, h.cmdlineOptions, getD_lastValue_append]
  buffers := ⟨h'.buffers.1.trans h.buffers.1, h'.buffers.2.trans h.buffers.2⟩
  socket := ⟨h'.socket.1.trans h.socket.1, h'.socket.2.trans h.socket.2⟩

theorem chosen_foldl (s : Startup) (options : List (Bytes × Bytes)) :
    Chosen s options (options.foldl (fun s o => s.setOption o.1 o.2) s) := by
  induction options generalizing s with
  | nil => exact ⟨(append_nil _).symm, rfl, rfl, rfl, ⟨rfl, rfl⟩, ⟨rfl, rfl⟩⟩
  | cons o options ih => exact (chosen_setOption s o).trans (ih _)

/-! ## The whole packet -/

variable {options : List (Bytes × Bytes)}

theorem length_packetBody (options : List (Bytes × Bytes)) :
    (packetBody options).length = 4 + (options.flatMap encodeOption).length + 1 := by
  simp [packetBody]
  omega

theorem receivePacket_body (hread : s.readMsg.capacity ≤ s.readMsg.data.length) {word body rest : Bytes}
    (hstream : s.stream = word ++ (body ++ rest)) (hword : word.length = 4)
    (hlen : ((ofBE word).toUInt32 - 4).toNat = body.length) (hbody : 4 ≤ body.length) :
    ∃ readMsg,
      s.receivePacket = .ok ((ofBE word).toUInt32 - 4, (ofBE (body.take 4)).toUInt32, { s with stream := rest, readMsg }) ∧
      readMsg.getSize = body.length ∧ readMsg.capacity ≤ readMsg.data.length ∧
      readMsg.data = leBytes 4 (ofBE (body.take 4)).toUInt32.toNat ++
        (body.drop 4 ++ (s.readMsg.reAlloc body.length).data.drop body.length) := by
  obtain ⟨hdata, hcapacity⟩ := MessageBuffer.reAlloc_fits hread body.length
  have hreadWord : s.socket.read 4 s.stream = .ok (word, body ++ rest) := by
    rw [hstream, ← hword]
    exact s.socket.read_append word (body ++ rest)
  let stale := (s.readMsg.reAlloc body.length).data.drop body.length
  have hwrite : Block.write (s.readMsg.reAlloc body.length).data 0 body = body ++ stale := by
    simp [Block.write, stale]
  have hversion : Block.read (body ++ stale) 0 4 = body.take 4 := by
    rw [Block.read, drop_zero, take_append_of_le_length hbody]
  have hhost : ∀ proto, Block.write (body ++ stale) 0 (leBytes 4 proto) = leBytes 4 proto ++ (body.drop 4 ++ stale) := by
    intro proto
    simp [Block.write, drop_append_of_le_length hbody]
  refine ⟨{ (s.readMsg.reAlloc body.length).setSize body.length with
    data := leBytes 4 (ofBE (body.take 4)).toUInt32.toNat ++ (body.drop 4 ++ stale) }, ?_, rfl, ?_, rfl⟩
  · simp only [receivePacket, hreadWord, ok_bind, hlen, MessageBuffer.getSize, MessageBuffer.setSize,
      s.socket.read_append, check_of hdata, hwrite, hversion, hhost]
    rw [check_of (by rw [length_append]; omega)]
    rfl
  · refine hcapacity.trans (Nat.le_of_eq ?_)
    simp [stale]
    omega

theorem receivePacket_eq (hread : s.readMsg.capacity ≤ s.readMsg.data.length)
    (hframed : (packetBody options).length + 4 < 2 ^ 32) (hstream : s.stream = startupPacket options ++ rest) :
    ∃ len readMsg stale, s.receivePacket = .ok (len, 196608, { s with stream := rest, readMsg }) ∧
      len.toNat = (packetBody options).length ∧
      readMsg.data.drop 4 = options.flatMap encodeOption ++ 0 :: stale := by
  have hlen : ((ofBE (beBytes 4 ((packetBody options).length + 4))).toUInt32 - 4).toNat = (packetBody options).length := by
    rw [ofBE_beBytes, Nat.mod_eq_of_lt (by omega), UInt32.toNat_sub]
    simp
    omega
  have hsize := length_packetBody options
  have hversion : (ofBE ((packetBody options).take 4)).toUInt32 = 196608 := by
    rw [packetBody, take_append_of_le_length (by simp), take_of_length_le (by simp), ofBE_beBytes]
    rfl
  obtain ⟨readMsg, hreceive, -, -, hdata⟩ := receivePacket_body hread
    (by rw [hstream, startupPacket, append_assoc]) (length_beBytes 4 _) hlen (by omega)
  rw [hversion] at hreceive hdata
  refine ⟨_, readMsg, (s.readMsg.reAlloc (packetBody options).length).data.drop (packetBody options).length, hreceive,
    hlen, ?_⟩
  rw [hdata]
  simp [packetBody]

theorem sendAuthRequest_eq (hwrite : 9 ≤ s.writeMsg.data.length) :
    ∃ writeMsg sent, s.sendAuthRequest = .ok (true, { s with writeMsg, sent }) := by
  have hfirst : (s.writeMsg.setSize 0).dataLength = 0 ∧ (s.writeMsg.setSize 0).data.length = s.writeMsg.data.length :=
    ⟨rfl, rfl⟩
  obtain ⟨b₁, h₁⟩ := MessageBuffer.exists_append (s.writeMsg.setSize 0) [0x52] (by simp [hfirst]; omega)
  obtain ⟨-, hdata₁, hsize₁, -⟩ := MessageBuffer.append_eq_ok h₁
  obtain ⟨b₂, h₂⟩ := MessageBuffer.exists_append b₁ (beBytes 4 8) (by simp [hdata₁, hsize₁, hfirst, sizeT]; omega)
  obtain ⟨-, hdata₂, hsize₂, -⟩ := MessageBuffer.append_eq_ok h₂
  obtain ⟨b₃, h₃⟩ := MessageBuffer.exists_append b₂ (beBytes 4 0)
    (by simp [hdata₂, hsize₂, hdata₁, hsize₁, hfirst, sizeT]; omega)
  exact ⟨b₃, s.sent ++ Block.read b₃.data 0 b₃.getSize, by simp [sendAuthRequest, h₁, h₂, h₃]⟩

theorem room_new : 9 ≤ MessageBuffer.new.data.length := by
  rw [MessageBuffer.new, length_replicate]
  decide

theorem acceptPacket_eq {s s' : Startup} {k fuel : Nat}
    (hscan : Res.loop (scanStep len) fuel (4, s) = .ok (Int32.ofNat k, s')) (hk : k + 1 = len.toNat)
    (hwrite : 9 ≤ s'.writeMsg.data.length) :
    ∃ writeMsg sent, s.acceptPacket fuel len 196608 = .ok (true, { s' with protoVersion := 196608, writeMsg, sent }) := by
  obtain ⟨writeMsg, sent, hsend⟩ := sendAuthRequest_eq (s := { s' with protoVersion := 196608 }) hwrite
  have hsupported : (!supported 196608 || decide (pgProtocolMajor 196608 < 3)) = false := by decide
  have hend : (Int32.ofNat k).toUInt32 = len - 1 := by
    have hlen := len.toNat_lt
    rw [← UInt32.toNat_inj, Offset.toNat_toUInt32 (by omega), UInt32.toNat_sub]
    simp
    omega
  refine ⟨writeMsg, sent, ?_⟩
  simp only [acceptPacket, hsupported, hscan, ok_bind, hend]
  simpa using hsend

theorem processStartupPacket_of_receive_version {s s' : Startup} (h : s.receivePacket = .ok (len, 196608, s'))
    (fuel : Nat) (sslDone : Bool) : processStartupPacket fuel sslDone s = s'.acceptPacket fuel len 196608 := by
  have hcodes : (196608 : UInt32) ≠ cancelRequestCode ∧ (196608 : UInt32) ≠ negotiateSslCode := by decide
  rw [processStartupPacket, h]
  simp [hcodes]

/-- A new session accepts the packet of the options, and keeps the options as they were sent. -/
def Decodes (options : List (Bytes × Bytes)) (rest : Bytes) (sslDone : Bool) : Prop :=
  ∀ socket, ∃ N, ∀ fuel ≥ N, ∃ s',
    processStartupPacket fuel sslDone { stream := startupPacket options ++ rest, socket } = .ok (true, s') ∧
    s'.gucOptions = options ∧
    s'.databaseName = (lastValue (ascii "database") options).getD [] ∧
    s'.userName = (lastValue (ascii "user") options).getD [] ∧
    s'.cmdlineOptions = (lastValue (ascii "options") options).getD [] ∧ s'.stream = rest

theorem decodes_of_le (h : Sendable options) (hle : (packetBody options).length ≤ 2 ^ 31) (rest : Bytes) (sslDone : Bool) :
    Decodes options rest sslDone := by
  refine fun socket => ⟨options.length + 1, fun fuel hfuel => ?_⟩
  obtain ⟨len, readMsg, stale, hreceive, hlen, hdata⟩ :=
    receivePacket_eq (s := { stream := startupPacket options ++ rest, socket }) MessageBuffer.fits_new.capacity h.framed rfl
  have hbody := length_packetBody options
  have hscan : Res.loop (scanStep len) fuel (Int32.ofNat 4, ({ stream := rest, socket, readMsg } : Startup)) = _ :=
    scan_eq hdata (by omega) (by omega) h.encodable hfuel
  have hchosen := chosen_foldl { stream := rest, socket, readMsg } options
  obtain ⟨writeMsg, sent, haccept⟩ := acceptPacket_eq hscan (by omega) (by rw [hchosen.buffers.2]; exact room_new)
  exact ⟨_, (processStartupPacket_of_receive_version hreceive fuel sslDone).trans haccept, hchosen.gucOptions,
    hchosen.databaseName, hchosen.userName, hchosen.cmdlineOptions, hchosen.socket.1⟩

theorem not_decodes_of_lt (h : Sendable options) (hlt : 2 ^ 31 < (packetBody options).length) (rest : Bytes) (sslDone : Bool) :
    ¬ Decodes options rest sslDone := by
  intro hdecodes
  obtain ⟨N, hN⟩ := hdecodes .blocking
  obtain ⟨s', hs', -⟩ := hN N (Nat.le_refl N)
  obtain ⟨len, readMsg, stale, hreceive, hlen, hdata⟩ :=
    receivePacket_eq (s := { stream := startupPacket options ++ rest }) MessageBuffer.fits_new.capacity h.framed rfl
  have hbody := length_packetBody options
  obtain ⟨e, hscan⟩ : ∃ e, Res.loop (scanStep len) N (Int32.ofNat 4, ({ stream := rest, readMsg } : Startup)) = .error e :=
    scan_fault hdata (by omega) (by omega) h.encodable N
  have hsupported : (!supported 196608 || decide (pgProtocolMajor 196608 < 3)) = false := by decide
  rw [processStartupPacket_of_receive_version hreceive, acceptPacket, hsupported] at hs'
  obtain ⟨t, hloop, -⟩ := bind_eq_ok.1 hs'
  cases hloop.symm.trans hscan

/-- The packet of a list of options is decoded exactly if its last byte is at an offset below `2 ^ 31`. -/
theorem decodes_iff {options : List (Bytes × Bytes)} (h : Sendable options) (rest : Bytes) (sslDone : Bool) :
    Decodes options rest sslDone ↔ (packetBody options).length ≤ 2 ^ 31 := by
  refine ⟨fun hdecodes => ?_, fun hle => decodes_of_le h hle rest sslDone⟩
  by_contra hlt
  exact not_decodes_of_lt h (Nat.lt_of_not_le hlt) rest sslDone hdecodes

def userTwice : List (Bytes × Bytes) := [(ascii "user", ascii "a"), (ascii "user", [])]

theorem decodes_userTwice : Decodes userTwice [] false := by
  have hsendable : Sendable userTwice := ⟨by decide, by simp [userTwice, ascii], by simp [userTwice, ascii], by decide⟩
  exact (decodes_iff hsendable [] false).2 (by decide)

def longValue (n : Nat) : List (Bytes × Bytes) := [(ascii "options", List.replicate n 0x78)]

theorem length_packetBody_longValue (n : Nat) : (packetBody (longValue n)).length = n + 14 := by
  have hname : (ascii "options").length = 7 := by decide
  simp [length_packetBody, longValue, length_encodeOption, hname]
  omega

theorem sendable_longValue {n : Nat} (hn : n + 18 < 2 ^ 32) : Sendable (longValue n) := by
  refine ⟨?_, ?_, ?_, by rw [length_packetBody_longValue]; exact hn⟩
  · simp [longValue, ascii]
  · simp [longValue, ascii]
  · intro o ho b hb
    obtain rfl := mem_singleton.1 ho
    rw [eq_of_mem_replicate hb]
    decide

/-- A value of `2 ^ 31` bytes. -/
theorem not_decodes_longValue : Sendable (longValue (2 ^ 31)) ∧ ¬ Decodes (longValue (2 ^ 31)) [] false := by
  have hsendable : Sendable (longValue (2 ^ 31)) := sendable_longValue (by decide)
  exact ⟨hsendable, not_decodes_of_lt hsendable (by rw [length_packetBody_longValue]; decide) [] false⟩

end Startup

end Dbms18
