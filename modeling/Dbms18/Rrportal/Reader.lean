import Dbms18.Common.MessageBuffer
import Dbms18.Lib.Endian

/-!
# Receiving messages (`Session::RecvCommand` and `ReadBody`, `rrportal/session.cpp`)

A client's message is a type byte, a length word that counts itself, and the body. `RecvCommand` reads
one message from the socket into `read_msg_`, which is reused for every message: `ReAlloc` grows and
shrinks its block. On a stream of messages it returns them one after the other (`recvCommands_eq`).
-/

namespace Dbms18

/-- A message of the client. The length word is a positive `int32_t`. -/
structure FrontendMsg where
  type : UInt8
  body : Bytes
  framed : body.length + 4 < 2 ^ 31
deriving DecidableEq

def FrontendMsg.serialise (m : FrontendMsg) : Bytes := m.type :: (beBytes 4 (m.body.length + 4) ++ m.body)

/-- A socket, by what is assumed of `boost::asio::read` on it: for a number of bytes and the stream that the client has
still to send, `read` returns the bytes and the rest of the stream. It waits for all of the bytes, and throws if the
stream ends before. -/
structure Socket where
  read : Nat → Bytes → Res (Bytes × Bytes)
  read_append : ∀ bytes rest, read bytes.length (bytes ++ rest) = .ok (bytes, rest)
  read_of_lt : ∀ {n stream}, stream.length < n → read n stream = .error .disconnected

namespace Socket

theorem read_of_le (socket : Socket) {n : Nat} {stream : Bytes} (h : n ≤ stream.length) :
    socket.read n stream = .ok (stream.take n, stream.drop n) := by
  have hread := socket.read_append (stream.take n) (stream.drop n)
  rwa [List.take_append_drop, List.length_take_of_le h] at hread

def blocking : Socket where
  read n stream := if n ≤ stream.length then .ok (stream.take n, stream.drop n) else .error .disconnected
  read_append _ _ := by simp
  read_of_lt h := if_neg (Nat.not_le.2 h)

end Socket

/-- The socket with what it has still to give, and the buffer that messages are read into. -/
structure Reader where
  socket : Socket
  stream : Bytes
  readMsg : MessageBuffer

namespace Reader

def new (stream : Bytes) : Reader := ⟨.blocking, stream, .new⟩

def readBody (r : Reader) : Res (Bool × Reader) := do
  let (word, stream) ← r.socket.read 4 r.stream
  let len := (ofBE word).toUInt32.toInt32 - 4
  if len < 0 then return (false, { r with stream })
  let readMsg := (r.readMsg.reAlloc len.toNatClampNeg).setSize len.toNatClampNeg
  let (body, stream) ← r.socket.read readMsg.getSize stream
  Res.check (body.length ≤ readMsg.data.length) .outOfBounds
  return (true, { r with stream, readMsg := { readMsg with data := Block.write readMsg.data 0 body } })

/-- The type of the message, zero if its length is wrong. -/
def recvCommand (r : Reader) : Res (UInt8 × Reader) := do
  let (qtype, stream) ← r.socket.read 1 r.stream
  let (ok, r) ← { r with stream }.readBody
  return (if ok then qtype.headD 0 else 0, r)

def message (r : Reader) : Bytes := Block.read r.readMsg.data 0 r.readMsg.getSize

def Fits (r : Reader) : Prop := r.readMsg.capacity ≤ r.readMsg.data.length

theorem fits_new (stream : Bytes) : (new stream).Fits := MessageBuffer.fits_new.capacity

/-! ## Reading a stream of messages -/

variable {r : Reader} {m : FrontendMsg} {rest : Bytes}

structure Received (r : Reader) (m : FrontendMsg) (rest : Bytes) : Prop where
  message : r.message = m.body
  size : r.readMsg.getSize = m.body.length
  block : m.body.length ≤ r.readMsg.data.length
  stream : r.stream = rest
  fits : r.Fits

theorem length_of_word (m : FrontendMsg) :
    ¬ (ofBE (beBytes 4 (m.body.length + 4))).toUInt32.toInt32 - 4 < 0 ∧
      ((ofBE (beBytes 4 (m.body.length + 4))).toUInt32.toInt32 - 4).toNatClampNeg = m.body.length := by
  have hframed := m.framed
  have hword : (ofBE (beBytes 4 (m.body.length + 4))).toUInt32.toInt32 - 4 = Int32.ofNat m.body.length := by
    rw [ofBE_beBytes, Nat.mod_eq_of_lt (by omega)]
    show Int32.ofNat (m.body.length + 4) - Int32.ofNat 4 = _
    rw [Int32.ofNat_add, Int32.add_sub_cancel]
  have hlen : m.body.length < 2 ^ 31 := by omega
  rw [hword, Int32.lt_iff_toInt_lt, Int32.toInt_ofNat_of_lt hlen, Int32.toNatClampNeg_ofNat_of_lt hlen]
  exact ⟨by simp, rfl⟩

theorem readBody_eq (hr : r.Fits) (hstream : r.stream = beBytes 4 (m.body.length + 4) ++ (m.body ++ rest)) :
    ∃ r', r.readBody = .ok (true, r') ∧ r'.Received m rest := by
  obtain ⟨hpositive, hlen⟩ := length_of_word m
  obtain ⟨hdata, hcapacity⟩ := MessageBuffer.reAlloc_fits hr m.body.length
  have hword : r.socket.read 4 r.stream = .ok (beBytes 4 (m.body.length + 4), m.body ++ rest) := by
    have hread := r.socket.read_append (beBytes 4 (m.body.length + 4)) (m.body ++ rest)
    rwa [length_beBytes, ← hstream] at hread
  have hwrite : 0 + m.body.length ≤ (r.readMsg.reAlloc m.body.length).data.length := by rwa [Nat.zero_add]
  refine ⟨⟨r.socket, rest, { (r.readMsg.reAlloc m.body.length).setSize m.body.length with
    data := Block.write (r.readMsg.reAlloc m.body.length).data 0 m.body }⟩, ?_, ?_, rfl, ?_, rfl, ?_⟩
  · simp only [readBody, hword, Res.ok_bind, if_neg hpositive, hlen]
    simp [MessageBuffer.getSize, MessageBuffer.setSize, r.socket.read_append, Res.check, hdata]
  · exact Block.read_write_self hwrite
  · simpa only [Block.length_write hwrite] using hdata
  · rw [Fits, Block.length_write hwrite]
    exact hcapacity

theorem recvCommand_eq (hr : r.Fits) (hstream : r.stream = m.serialise ++ rest) :
    ∃ r', r.recvCommand = .ok (m.type, r') ∧ r'.Received m rest := by
  have htype : r.socket.read 1 r.stream = .ok ([m.type], beBytes 4 (m.body.length + 4) ++ (m.body ++ rest)) := by
    rw [hstream, FrontendMsg.serialise, List.cons_append, List.append_assoc]
    exact r.socket.read_append [m.type] _
  obtain ⟨r', hbody, hreceived⟩ := readBody_eq (r := { r with stream := beBytes 4 (m.body.length + 4) ++ (m.body ++ rest) })
    hr rfl
  exact ⟨r', by simp [recvCommand, htype, hbody], hreceived⟩

def recvCommands : Nat → Reader → Res (List (UInt8 × Reader))
  | 0, _ => .ok []
  | n + 1, r => do
    let (qtype, r) ← r.recvCommand
    return (qtype, r) :: (← recvCommands n r)

/-- On the stream of a list of messages every call returns the next one and stops at its end. -/
theorem recvCommands_eq (hr : r.Fits) {ms : List FrontendMsg} (hstream : r.stream = ms.flatMap FrontendMsg.serialise ++ rest) :
    ∃ rs, recvCommands ms.length r = .ok rs ∧ rs.length = ms.length ∧ ∀ i (m : FrontendMsg), ms[i]? = some m →
      ∃ r' : Reader, rs[i]? = some (m.type, r') ∧ r'.Received m ((ms.drop (i + 1)).flatMap FrontendMsg.serialise ++ rest) := by
  induction ms generalizing r with
  | nil => exact ⟨[], rfl, rfl, by simp⟩
  | cons m ms ih =>
    rw [List.flatMap_cons, List.append_assoc] at hstream
    obtain ⟨r', hfirst, hreceived⟩ := recvCommand_eq hr hstream
    obtain ⟨rs, hrest, hlen, hrs⟩ := ih hreceived.fits hreceived.stream
    refine ⟨(m.type, r') :: rs, by simp [recvCommands, hfirst, hrest], by simp [hlen], fun i m' hi => ?_⟩
    cases i with
    | zero =>
      obtain rfl := Option.some.inj hi
      exact ⟨r', rfl, hreceived⟩
    | succ i => exact hrs i m' hi

def syncTerminate : List FrontendMsg := [⟨0x53, [1, 2, 3], by decide⟩, ⟨0x58, [], by decide⟩]

theorem recvCommands_syncTerminate : ∃ rs,
    recvCommands 2 (new (syncTerminate.flatMap FrontendMsg.serialise)) = .ok rs ∧ rs.map Prod.fst = [0x53, 0x58] := by
  have hstream : (new (syncTerminate.flatMap FrontendMsg.serialise)).stream =
      syncTerminate.flatMap FrontendMsg.serialise ++ [] := (List.append_nil _).symm
  obtain ⟨rs, hrs, hlen, hreceived⟩ := recvCommands_eq (fits_new _) hstream
  obtain ⟨r₀, h₀, -⟩ := hreceived 0 _ rfl
  obtain ⟨r₁, h₁, -⟩ := hreceived 1 _ rfl
  refine ⟨rs, hrs, ?_⟩
  match rs, hlen, h₀, h₁ with
  | [_, _], _, rfl, rfl => rfl

end Reader

end Dbms18
