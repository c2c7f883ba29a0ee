import Mathlib.Algebra.Order.BigOperators.Group.List
import Dbms18.Lib.Ensures
import Dbms18.Rrportal.RowDecoding
import Dbms18.Rrportal.Startup

/-!
# Reporting the startup options (`Session::SendParameterStatus`, `rrportal/session.cpp`)

After the startup packet the session sends a ParameterStatus message for each option, all of them built in
`write_msg_` and written at once. Where the value should stand, the code takes the name again; and `Append`
does not make the buffer larger than the 512 bytes that it starts with. So the options are reported as they
were received only if each has its name for a value and all the messages fit (`reportsOptions_iff`).
-/

namespace Dbms18

open Res List

namespace MessageBuffer

def content (b : MessageBuffer) : Bytes := Block.read b.data 0 b.dataLength

variable {b b' : MessageBuffer} {bytes : Bytes}

theorem content_append (hsize : b.data.length < 2 ^ 64) (h : b.append bytes = .ok b') :
    b'.content = b.content ++ bytes ∧ b'.dataLength = b.dataLength + bytes.length := by
  obtain ⟨hlen, -, hlength, -⟩ := append_eq_ok h
  have hlength' : b'.dataLength = b.dataLength + bytes.length := by
    rw [hlength]
    exact Nat.mod_eq_of_lt (by omega)
  refine ⟨?_, hlength'⟩
  simp only [append, grow_data, grow_dataLength, if_pos hlen] at h
  obtain rfl := Except.ok.inj h
  rw [content, hlength']
  simp [Block.read, Block.write, content, take_append, Nat.min_eq_left (show b.dataLength ≤ b.data.length by omega)]

theorem append_eq_error (h : b.data.length < b.dataLength + bytes.length) : b.append bytes = .error .outOfBounds := by
  simp only [append, grow_data, grow_dataLength, if_neg (Nat.not_le.2 h)]

theorem foldlM_append (hsize : b.data.length < 2 ^ 64) (hfits : b.dataLength ≤ b.data.length) (parts : List Bytes) :
    (∃ b', parts.foldlM append b = .ok b' ∧ b'.content = b.content ++ parts.flatten) ∧
        b.dataLength + parts.flatten.length ≤ b.data.length ∨
      parts.foldlM append b = .error .outOfBounds ∧ b.data.length < b.dataLength + parts.flatten.length := by
  induction parts generalizing b with
  | nil => exact .inl ⟨⟨b, rfl, (append_nil _).symm⟩, hfits⟩
  | cons part parts ih =>
    rw [foldlM_cons, flatten_cons, length_append, ← Nat.add_assoc]
    by_cases hlen : b.dataLength + part.length ≤ b.data.length
    · obtain ⟨b₁, hb₁⟩ := exists_append b part hlen
      obtain ⟨hcontent, hlength⟩ := content_append hsize hb₁
      have hdata := (append_eq_ok hb₁).2.1
      have hrest := ih (b := b₁) (hdata ▸ hsize) (by omega)
      rwa [hdata, hlength, hcontent, append_assoc, ← ok_bind b₁ fun b => parts.foldlM append b, ← hb₁] at hrest
    · rw [append_eq_error (Nat.not_le.1 hlen)]
      exact .inr ⟨rfl, by omega⟩

end MessageBuffer

namespace Startup

/-- `PARAMETER_STATUS`, the letter S. -/
def parameterStatusId : UInt8 := 0x53

/-- What is appended for an option. Both `name` and `value` are its first component. -/
def statusParts (o : Bytes × Bytes) : List Bytes :=
  let name := o.1
  let value := o.1
  [[parameterStatusId], beBytes 4 (4 + name.length + 1 + value.length + 1), name ++ [0], value ++ [0]]

def sendParameterStatus (s : Startup) : Res (Bool × Startup) := do
  let writeMsg := s.writeMsg.setSize 0
  let writeMsg ← (s.gucOptions.flatMap statusParts).foldlM MessageBuffer.append writeMsg
  return (true, { s with writeMsg, sent := s.sent ++ Block.read writeMsg.data 0 writeMsg.getSize })

end Startup

/-- A ParameterStatus message as a client reads it. -/
def Decoder.parameterStatus : Decoder (Bytes × Bytes) :=
  message Startup.parameterStatusId do
    let name ← cstring
    let value ← cstring
    return (name, value)

namespace Startup

/-- What the session sends is one ParameterStatus message for each option, with its name and its value. -/
def Reports (s : Startup) : Prop :=
  ∃ s' bytes, s.sendParameterStatus = .ok (true, s') ∧ s'.sent = s.sent ++ bytes ∧
    (Decoder.parameterStatus.times s.gucOptions.length).decode bytes = some s.gucOptions

/-! ## What an accepted packet leaves -/

/-- The block of `write_msg_` is the one it was made with, and the options are C strings. -/
structure Started (s : Startup) : Prop where
  block : s.writeMsg.data.length = 512
  options : ∀ o ∈ s.gucOptions, (∀ b ∈ o.1, b ≠ 0) ∧ ∀ b ∈ o.2, b ≠ 0

theorem cStringAt_ensures (data : Bytes) (offset : Int32) : (cStringAt data offset).Ensures fun s => ∀ b ∈ s, b ≠ 0 := by
  refine Res.Ensures.of_bind fun _ => Res.Ensures.of_bind fun _ => ensures_ok fun b hb => ?_
  simpa using mem_takeWhile_imp hb

variable {s : Startup}

theorem Started.setOption (h : s.Started) {name value : Bytes} (hname : ∀ b ∈ name, b ≠ 0)
    (hvalue : ∀ b ∈ value, b ≠ 0) : (s.setOption name value).Started := by
  have hchosen := chosen_setOption s (name, value)
  refine ⟨hchosen.buffers.2 ▸ h.block, ?_⟩
  rw [hchosen.gucOptions]
  exact forall_mem_append.2 ⟨h.options, forall_mem_singleton.2 ⟨hname, hvalue⟩⟩

theorem scanStep_ensures {len : UInt32} (os : Int32 × Startup) (h : os.2.Started) :
    (scanStep len os).Ensures (Sum.elim (fun os => os.2.Started) fun os => os.2.Started) := by
  unfold scanStep
  dsimp only
  split
  · exact ensures_ok h
  · refine (cStringAt_ensures _ _).bind fun name hname => ?_
    split
    · exact ensures_ok h
    · split
      · exact ensures_ok h
      · exact (cStringAt_ensures _ _).bind fun value hvalue => ensures_ok (h.setOption hname hvalue)

theorem sendAuthRequest_ensures (h : s.Started) : s.sendAuthRequest.Ensures fun r => r.2.Started := by
  intro r hr
  obtain ⟨b₁, h₁, hr⟩ := bind_eq_ok.1 hr
  obtain ⟨b₂, h₂, hr⟩ := bind_eq_ok.1 hr
  obtain ⟨b₃, h₃, hr⟩ := bind_eq_ok.1 hr
  obtain rfl := Except.ok.inj hr
  refine ⟨?_, h.options⟩
  have hblock : b₃.data.length = s.writeMsg.data.length := (MessageBuffer.append_eq_ok h₃).2.1.trans
    ((MessageBuffer.append_eq_ok h₂).2.1.trans (MessageBuffer.append_eq_ok h₁).2.1)
  exact hblock.trans h.block

theorem acceptPacket_ensures {fuel : Nat} {len proto : UInt32} (h : s.Started) :
    (s.acceptPacket fuel len proto).Ensures fun r => r.2.Started := by
  unfold acceptPacket
  split
  · exact ensures_ok h
  · refine (ensures_loop (I := fun os : Int32 × Startup => os.2.Started) scanStep_ensures h fuel).bind ?_
    rintro ⟨offset, s'⟩ hos
    dsimp only
    split
    · exact ensures_ok hos
    · exact sendAuthRequest_ensures ⟨hos.block, hos.options⟩

theorem receivePacket_ensures (h : s.Started) : s.receivePacket.Ensures fun r => r.2.2.Started :=
  Res.Ensures.of_bind fun _ => Res.Ensures.of_bind fun _ => Res.Ensures.of_bind fun _ => Res.Ensures.of_bind fun _ =>
    ensures_ok ⟨h.block, h.options⟩

theorem processStartupPacket_ensures {fuel : Nat} {sslDone : Bool} (h : s.Started) :
    (processStartupPacket fuel sslDone s).Ensures fun r => r.2.Started := by
  have hpacket : ∀ sslDone s, Started s → (∀ s', Started s' → sslDone = false →
      (processStartupPacket fuel true s').Ensures fun r => r.2.Started) →
      (processStartupPacket fuel sslDone s).Ensures fun r => r.2.Started := by
    intro sslDone s h hagain
    rw [processStartupPacket]
    refine (receivePacket_ensures h).bind ?_
    rintro ⟨len, proto, s'⟩ h'
    dsimp only
    split
    · exact ensures_ok h'
    · split
      · next hssl => exact hagain _ ⟨h'.block, h'.options⟩ hssl.2
      · exact acceptPacket_ensures h'
  exact hpacket sslDone s h fun s' h' _ => hpacket true s' h' fun _ _ hfalse => by cases hfalse

theorem started_new (stream : Bytes) : Started { stream } := ⟨MessageBuffer.length_new, by simp⟩

/-! ## The messages -/

theorem flatten_statusParts (o : Bytes × Bytes) :
    (statusParts o).flatten = Session.backendMsg parameterStatusId (o.1 ++ [0] ++ (o.1 ++ [0])) := by
  have hlen : 4 + o.1.length + 1 + o.1.length + 1 = 4 + (o.1 ++ [0] ++ (o.1 ++ [0])).length := by
    simp only [length_append, length_singleton]
    omega
  simp [statusParts, Session.backendMsg, hlen]

theorem length_flatten_statusParts (options : List (Bytes × Bytes)) :
    (options.flatMap statusParts).flatten.length = (options.map fun o => 2 * o.1.length + 7).sum := by
  induction options with
  | nil => rfl
  | cons o options ih =>
    rw [flatMap_cons, flatten_append, length_append, ih, map_cons, sum_cons, flatten_statusParts]
    simp [Session.backendMsg]
    omega

theorem reads_statusParts {o : Bytes × Bytes} (hname : ∀ b ∈ o.1, b ≠ 0) (hlen : 2 * o.1.length + 7 ≤ 512) :
    Decoder.parameterStatus.Reads (statusParts o).flatten (o.1, o.1) := by
  rw [flatten_statusParts]
  refine Decoder.reads_message _ ?_ (by simp; omega)
  have htwo := (Decoder.reads_cstring hname).bind (f := fun name => do
    let value ← Decoder.cstring
    return (name, value)) ((Decoder.reads_cstring hname).bind (Decoder.Reads.pure (o.1, o.1)))
  rwa [append_nil] at htwo

theorem sendParameterStatus_eq (h : s.Started) :
    (∃ s', s.sendParameterStatus = .ok (true, s') ∧ s'.sent = s.sent ++ (s.gucOptions.flatMap statusParts).flatten) ∧
        (s.gucOptions.map fun o => 2 * o.1.length + 7).sum ≤ 512 ∨
      s.sendParameterStatus = .error .outOfBounds ∧ 512 < (s.gucOptions.map fun o => 2 * o.1.length + 7).sum := by
  have hblock : (s.writeMsg.setSize 0).data.length = 512 := h.block
  have hempty : (s.writeMsg.setSize 0).content = [] ∧ (s.writeMsg.setSize 0).dataLength = 0 := ⟨rfl, rfl⟩
  have hfold := MessageBuffer.foldlM_append (b := s.writeMsg.setSize 0) (by omega) (by omega) (s.gucOptions.flatMap statusParts)
  rw [hblock, hempty.1, hempty.2, Nat.zero_add, nil_append, length_flatten_statusParts] at hfold
  rcases hfold with ⟨⟨writeMsg, hwrite, hcontent⟩, hlen⟩ | ⟨hwrite, hlen⟩
  · refine .inl ⟨⟨_, by rw [sendParameterStatus, hwrite]; rfl, ?_⟩, hlen⟩
    exact congrArg (s.sent ++ ·) hcontent
  · exact .inr ⟨by rw [sendParameterStatus, hwrite]; rfl, hlen⟩

theorem decode_statusParts {options : List (Bytes × Bytes)} (hname : ∀ o ∈ options, ∀ b ∈ o.1, b ≠ 0)
    (hlen : (options.map fun o => 2 * o.1.length + 7).sum ≤ 512) :
    (Decoder.parameterStatus.times options.length).decode (options.flatMap statusParts).flatten =
      some (options.map fun o => (o.1, o.1)) := by
  have hone : ∀ o ∈ options, 2 * o.1.length + 7 ≤ 512 := fun o ho =>
    (le_sum_of_mem (mem_map_of_mem ho)).trans hlen
  have hreads : (Decoder.parameterStatus.times options.length).Reads (options.flatMap fun o => (statusParts o).flatten)
      (options.map fun o => (o.1, o.1)) :=
    Decoder.reads_times fun o ho => reads_statusParts (hname o ho) (hone o ho)
  have hflat : (options.flatMap statusParts).flatten = options.flatMap fun o => (statusParts o).flatten := by
    simp [List.flatMap, flatten_flatten, Function.comp_def]
  rw [hflat]
  exact hreads.decode

theorem Started.reportsOptions_iff_sum (hstarted : s.Started) :
    s.Reports ↔ (∀ o ∈ s.gucOptions, o.2 = o.1) ∧ (s.gucOptions.map fun o => 2 * o.1.length + 7).sum ≤ 512 := by
  have hname : ∀ o ∈ s.gucOptions, ∀ b ∈ o.1, b ≠ 0 := fun o ho => (hstarted.options o ho).1
  rcases sendParameterStatus_eq hstarted with ⟨⟨s', hsend, hsent⟩, hlen⟩ | ⟨hsend, hlen⟩
  · have hdecode := decode_statusParts hname hlen
    have hsame : s.gucOptions.map (fun o => (o.1, o.1)) = s.gucOptions ↔ ∀ o ∈ s.gucOptions, o.2 = o.1 := by
      constructor
      · intro heq o ho
        rw [← heq] at ho
        obtain ⟨o', -, rfl⟩ := mem_map.1 ho
        rfl
      · intro hvalues
        have hid : s.gucOptions.map (fun o => (o.1, o.1)) = s.gucOptions.map id :=
          map_congr_left fun o ho => Prod.ext rfl (hvalues o ho).symm
        rw [hid, map_id]
    rw [← hsame, and_iff_left hlen]
    constructor
    · rintro ⟨s'', bytes, hok, hbytes, hread⟩
      obtain ⟨-, rfl⟩ := Prod.mk.inj (Except.ok.inj (hsend.symm.trans hok))
      obtain rfl := append_cancel_left (hsent.symm.trans hbytes)
      exact Option.some.inj (hdecode.symm.trans hread)
    · exact fun heq => ⟨s', _, hsend, hsent, hdecode.trans (congrArg some heq)⟩
  · refine iff_of_false ?_ fun hcond => absurd hcond.2 (Nat.not_le.2 hlen)
    rintro ⟨s', bytes, hok, -⟩
    cases hsend.symm.trans hok

/-- The options of an accepted packet are reported exactly if every value is its name and the messages
together have at most 512 bytes. -/
theorem reportsOptions_iff {fuel : Nat} {sslDone : Bool} {stream : Bytes} {s : Startup}
    (h : processStartupPacket fuel sslDone { stream } = .ok (true, s)) :
    s.Reports ↔ (∀ o ∈ s.gucOptions, o.2 = o.1) ∧ (s.gucOptions.map fun o => 2 * o.1.length + 7).sum ≤ 512 :=
  Started.reportsOptions_iff_sum (processStartupPacket_ensures (started_new stream) _ h)

/-- A packet with the option `user`, whose value is `user`. -/
theorem reportsOptions_iff_user : ∃ fuel s, processStartupPacket fuel false
      { stream := startupPacket [(ascii "user", ascii "user")] ++ [] } = .ok (true, s) ∧
    s.gucOptions = [(ascii "user", ascii "user")] ∧ s.Reports := by
  have hsendable : Sendable [(ascii "user", ascii "user")] :=
    ⟨by decide, by simp [ascii], by simp [ascii], by decide⟩
  obtain ⟨N, h⟩ := decodes_of_le hsendable (by decide) [] false .blocking
  obtain ⟨s, hs, hoptions, -⟩ := h N le_rfl
  refine ⟨N, s, hs, hoptions, (reportsOptions_iff hs).2 ?_⟩
  rw [hoptions]
  exact ⟨by decide, by decide⟩

/-- For the user `bob` the session sends that the user is `user`. -/
theorem not_reports_bob : ∃ fuel s, processStartupPacket fuel false
      { stream := startupPacket [(ascii "user", ascii "bob")] ++ [] } = .ok (true, s) ∧
    s.gucOptions = [(ascii "user", ascii "bob")] ∧
    (∃ s', s.sendParameterStatus = .ok (true, s') ∧ s'.sent = s.sent ++ Session.backendMsg 0x53 (ascii "user\x00user\x00")) ∧
    ¬ s.Reports := by
  have hsendable : Sendable [(ascii "user", ascii "bob")] :=
    ⟨by decide, by simp [ascii], by simp [ascii], by decide⟩
  obtain ⟨N, h⟩ := decodes_of_le hsendable (by decide) [] false .blocking
  obtain ⟨s, hs, hoptions, -⟩ := h N le_rfl
  have hstarted : s.Started := processStartupPacket_ensures (started_new _) _ hs
  refine ⟨N, s, hs, hoptions, ?_, fun hreports => ?_⟩
  · rcases sendParameterStatus_eq hstarted with ⟨⟨s', hsend, hsent⟩, -⟩ | ⟨-, hlen⟩
    · rw [hoptions] at hsent
      exact ⟨s', hsend, hsent⟩
    · rw [hoptions] at hlen
      exact absurd hlen (by decide)
  · have hvalues := (hstarted.reportsOptions_iff_sum.1 hreports).1
    rw [hoptions] at hvalues
    exact absurd hvalues (by decide)

end Startup

end Dbms18
