import Mathlib.Tactic.Cases
import AtomOs.Lib.Run

/-!
# Receiving from a stream socket

`recv_fromsock_stream` takes bytes from the packets queued at a socket. A packet holds its data as one
block or as the list of frames it came in, and a call may stop anywhere inside of a frame: where to go
on is `pkt_rcv_offset`, in the first frame that is left at that offset modulo the size of a frame.

The calls are followed by two sums. What was returned and what the queue still has to offer are
together the data of all packets, and what was freed and what the queue still holds are together all
their blocks of memory: **`stream_received`**. A close is looked at before the queue, and so hides what
is in it (`close_loses_data`). The buffer of the caller is mapped, so that
`phys2vmcopy` copies all it is given.

The runs are those of the receiving socket: packets come to the end of its queue, calls take bytes from
the front, and a close clears the address of the peer. What the other end does is one of these steps at
the receiver. For two sockets of one host this is proved (`LocalPair.atReceiver`): `sock_send` queues its
packet at the peer itself, with the data in one block, and `decrement_sockref_count` sends a
`PKTTYPE_CONNECTCLOSE` in the same way. Between hosts `deliver_packet` queues the frames of a packet
when the last of them has arrived, and `assemble` handles the close with the same two stores.
-/

namespace AtomOs.Net

open Lib List

def maxProtocolFrsize : Nat := 1438

def econnectionClosed : Int := -92

/-- A frame buffer: where it is, and the `len1 - FRAMEDATA_OFFSET` bytes behind the header. -/
structure FrameBuffer where
  addr : Nat
  data : List UInt8
deriving DecidableEq

/-- What receiving needs of a `struct packet`. `pktData` is the address and contents of the data
    block, `none` for `NULL`; `frames` is the list from `pkt_rcvframe_head` on. -/
structure Packet where
  addr : Nat
  pktLength : Nat
  rcvOffset : Nat
  pktData : Option (Nat × List UInt8)
  frames : List FrameBuffer
deriving DecidableEq

/-- A connected socket with the packets queued at it, and everything that was freed, in order. -/
structure StreamSock where
  peerPort : Nat
  rcvpkt : List Packet
  freed : List Nat
deriving DecidableEq

/-- The packet after `n` more bytes, with the frames that are left. -/
def Packet.advance (pkt : Packet) (n : Nat) (frames : List FrameBuffer) : Packet :=
  { pkt with rcvOffset := pkt.rcvOffset + n, frames := frames }

/-- The loop over the frames of a packet: the bytes copied, the frames freed, the packet. It goes
    through a null pointer if there are too few frames, and behind a frame that is too short. -/
def readFrames : Nat → Nat → Packet → Option (List UInt8 × List Nat × Packet)
  | _, 0, pkt => some ([], [], pkt)
  | 0, _ + 1, _ => none
  | fuel + 1, len + 1, pkt =>
    match pkt.frames with
    | [] => none
    | frbuf :: rest =>
      let froffset := pkt.rcvOffset % maxProtocolFrsize
      if frbuf.data.length < froffset then none
      else
        let len2 := min (frbuf.data.length - froffset) (len + 1)
        let emptied := froffset + len2 = frbuf.data.length
        (readFrames fuel (len + 1 - len2)
          (pkt.advance len2 (if emptied then rest else pkt.frames))).map fun r =>
            ((frbuf.data.drop froffset).take len2 ++ r.1,
              (if emptied then [frbuf.addr] else []) ++ r.2.1, r.2.2)

/-- What is copied from the first packet, if `want` more bytes are wanted. -/
def readPacket (want : Nat) (pkt : Packet) : Option (List UInt8 × List Nat × Packet) :=
  let len := min (pkt.pktLength - pkt.rcvOffset) want
  match pkt.pktData with
  | some block =>
    if block.2.length < pkt.rcvOffset + len then none
    else some ((block.2.drop pkt.rcvOffset).take len, [], pkt.advance len pkt.frames)
  | none => readFrames len len pkt

/-- `kfree` of an emptied packet and its block. -/
def Packet.blocks (pkt : Packet) : List Nat := (pkt.pktData.map Prod.fst).toList ++ [pkt.addr]

/-- The loop over the packets: the bytes copied, what was freed, the queue. -/
def readPackets : Nat → Nat → List Packet → Option (List UInt8 × List Nat × List Packet)
  | _, _, [] => some ([], [], [])
  | 0, _, _ :: _ => none
  | fuel + 1, want, pkt :: queue =>
    if want = 0 then some ([], [], pkt :: queue)
    else
      match readPacket want pkt with
      | none => none
      | some (bytes, freed, pkt) =>
        let emptied := pkt.rcvOffset = pkt.pktLength
        (readPackets fuel (want - bytes.length) (if emptied then queue else pkt :: queue)).map fun r =>
          (bytes ++ r.1, freed ++ (if emptied then pkt.blocks else []) ++ r.2.1, r.2.2)

/-- `recv_fromsock_stream`: what it returns, what it has put into the buffer, the socket. It does
    not return while it sleeps. -/
def recvFromsockStream (s : StreamSock) (maxlen : Int) (dontwait : Bool) :
    Option (Int × List UInt8 × StreamSock) :=
  if s.peerPort ≠ 0 ∧ s.rcvpkt = [] then if dontwait then some (0, [], s) else none
  else if s.peerPort = 0 then some (econnectionClosed, [], s)
  else (readPackets (s.rcvpkt.length + 1) maxlen.toNat s.rcvpkt).map fun r =>
    (r.1.length, r.1, { s with rcvpkt := r.2.2, freed := s.freed ++ r.2.1 })

/-! ## Packets -/

/-- Frames as `psock_send_pkt` cuts them: all but the last are full, and the last is not empty. -/
def Cut : List FrameBuffer → Prop
  | [] => True
  | [f] => 0 < f.data.length ∧ f.data.length ≤ maxProtocolFrsize
  | f :: fs => f.data.length = maxProtocolFrsize ∧ Cut fs

def Packet.unread (pkt : Packet) : List UInt8 :=
  match pkt.pktData with
  | some block => block.2.drop pkt.rcvOffset
  | none => (pkt.frames.flatMap FrameBuffer.data).drop (pkt.rcvOffset % maxProtocolFrsize)

/-- The blocks of memory a packet still holds, in the order in which they are freed. -/
def Packet.holds (pkt : Packet) : List Nat := pkt.frames.map FrameBuffer.addr ++ pkt.blocks

/-- A packet in a queue, read up to some place: it is one block, or each of its frames has a byte
    that was not read. -/
structure Packet.Ok (pkt : Packet) : Prop where
  length : pkt.pktLength = pkt.rcvOffset + pkt.unread.length
  block : ∀ b ∈ pkt.pktData, pkt.frames = [] ∧ pkt.rcvOffset ≤ b.2.length
  cut : Cut pkt.frames
  first : ∀ f ∈ pkt.frames.head?, pkt.rcvOffset % maxProtocolFrsize < f.data.length

theorem Cut.tail : ∀ {f : FrameBuffer} {fs : List FrameBuffer}, Cut (f :: fs) → Cut fs
  | _, [], _ => trivial
  | _, _ :: _, h => h.2

theorem Cut.full : ∀ {f : FrameBuffer} {fs : List FrameBuffer}, Cut (f :: fs) → fs ≠ [] →
    f.data.length = maxProtocolFrsize
  | _, [], _, hne => absurd rfl hne
  | _, _ :: _, h, _ => h.1

theorem Cut.pos : ∀ {f : FrameBuffer} {fs : List FrameBuffer}, Cut (f :: fs) → 0 < f.data.length
  | _, [], h => h.1
  | _, _ :: _, h => by
    rw [h.1]
    decide

theorem Packet.unread_frames (pkt : Packet) (h : pkt.pktData = none) :
    pkt.unread = (pkt.frames.flatMap FrameBuffer.data).drop (pkt.rcvOffset % maxProtocolFrsize) := by
  unfold Packet.unread
  rw [h]

section frames

variable {pkt : Packet} {frbuf : FrameBuffer} {rest : List FrameBuffer} (h : pkt.Ok)
  (hnone : pkt.pktData = none) (hframes : pkt.frames = frbuf :: rest)
include h hnone hframes

theorem Packet.Ok.unread_cons : pkt.rcvOffset % maxProtocolFrsize < frbuf.data.length ∧ pkt.unread =
    frbuf.data.drop (pkt.rcvOffset % maxProtocolFrsize) ++ rest.flatMap FrameBuffer.data := by
  have hoff := h.first frbuf (by simp [hframes])
  refine ⟨hoff, ?_⟩
  rw [pkt.unread_frames hnone, hframes, flatMap_cons, drop_append_of_le_length (by omega)]

theorem Packet.Ok.within {n : Nat} (hn : pkt.rcvOffset % maxProtocolFrsize + n < frbuf.data.length) :
    (pkt.advance n pkt.frames).Ok ∧ (pkt.advance n pkt.frames).unread = pkt.unread.drop n := by
  have hcut := h.cut
  have hlength := h.length
  obtain ⟨hoff, hunread⟩ := h.unread_cons hnone hframes
  have hle : frbuf.data.length ≤ maxProtocolFrsize := by
    rw [hframes] at hcut
    cases rest with
    | nil => exact hcut.2
    | cons g gs => exact Nat.le_of_eq hcut.1
  have hmod : (pkt.rcvOffset + n) % maxProtocolFrsize = pkt.rcvOffset % maxProtocolFrsize + n := by
    rw [Nat.add_mod, Nat.mod_eq_of_lt (show n < maxProtocolFrsize by omega)]
    exact Nat.mod_eq_of_lt (by omega)
  have hrest : (pkt.advance n pkt.frames).unread = pkt.unread.drop n := by
    rw [pkt.unread_frames hnone, drop_drop, ← hmod]
    exact Packet.unread_frames _ hnone
  have hlen := congrArg List.length hunread
  rw [length_append, length_drop] at hlen
  refine ⟨⟨?_, fun _ hb => (nomatch hnone.symm.trans hb), hcut, ?_⟩, hrest⟩
  · rw [hrest, length_drop]
    simp only [Packet.advance]
    omega
  · intro f hf
    cases by simpa [Packet.advance, hframes] using hf
    exact hmod ▸ hn

theorem Packet.Ok.past {n : Nat} (hn : pkt.rcvOffset % maxProtocolFrsize + n = frbuf.data.length) :
    (pkt.advance n rest).Ok ∧ (pkt.advance n rest).unread = pkt.unread.drop n := by
  have hcut := h.cut
  have hlength := h.length
  rw [hframes] at hcut
  obtain ⟨hoff, hunread⟩ := h.unread_cons hnone hframes
  have hdrop : pkt.unread.drop n = rest.flatMap FrameBuffer.data := by
    rw [hunread, drop_append, drop_drop, hn, drop_length, length_drop,
      show n - (frbuf.data.length - pkt.rcvOffset % maxProtocolFrsize) = 0 by omega]
    rfl
  -- behind a full frame the next one starts at a multiple of the frame size
  have hmod : rest ≠ [] → (pkt.rcvOffset + n) % maxProtocolFrsize = 0 := by
    intro hne
    rw [← Nat.mod_add_div pkt.rcvOffset maxProtocolFrsize, Nat.add_right_comm, hn, hcut.full hne,
      Nat.add_mul_mod_self_left, Nat.mod_self]
  have hrest : (pkt.advance n rest).unread = pkt.unread.drop n := by
    rw [hdrop, (pkt.advance n rest).unread_frames hnone]
    simp only [Packet.advance]
    cases rest with
    | nil => exact drop_nil
    | cons g gs =>
      rw [hmod (by simp)]
      rfl
  have hlen := congrArg List.length hunread
  rw [length_append, length_drop] at hlen
  refine ⟨⟨?_, fun _ hb => (nomatch hnone.symm.trans hb), hcut.tail, ?_⟩, hrest⟩
  · rw [hrest, length_drop]
    simp only [Packet.advance]
    omega
  · intro f hf
    cases rest with
    | nil => cases hf
    | cons g gs =>
      cases hf
      exact (hmod (by simp)).symm ▸ hcut.tail.pos

end frames

/-- **The loop over frames** copies what is unread, and frees the frames it comes to the end of. -/
theorem readFrames_spec : ∀ {fuel len : Nat} {pkt : Packet}, pkt.pktData = none → pkt.Ok →
    len ≤ pkt.unread.length → len ≤ fuel →
    ∃ freed pkt', readFrames fuel len pkt = some (pkt.unread.take len, freed, pkt') ∧ pkt'.Ok ∧
      pkt'.unread = pkt.unread.drop len ∧ pkt.holds = freed ++ pkt'.holds ∧
      pkt'.pktLength = pkt.pktLength
  | fuel, 0, pkt, _, h, _, _ => ⟨[], pkt, by cases fuel <;> rfl, h, rfl, rfl, rfl⟩
  | 0, len + 1, _, _, _, _, hfuel => absurd hfuel (by simp)
  | fuel + 1, len + 1, pkt, hnone, h, hlen, hfuel => by
    cases hframes : pkt.frames with
    | nil =>
      rw [pkt.unread_frames hnone, hframes] at hlen
      simp at hlen
    | cons frbuf rest =>
      obtain ⟨hoff, hunread⟩ := h.unread_cons hnone hframes
      generalize hr : pkt.rcvOffset % maxProtocolFrsize = r at hoff hunread
      by_cases hin : r + (len + 1) < frbuf.data.length
      · -- the wanted bytes end inside of the frame
        obtain ⟨hok, hrest⟩ := h.within hnone hframes (hr ▸ hin)
        refine ⟨[], _, ?_, hok, hrest, rfl, rfl⟩
        simp only [readFrames, hframes, hr]
        rw [if_neg (by omega), show min (frbuf.data.length - r) (len + 1) = len + 1 by omega,
          if_neg (by omega), if_neg (by omega), Nat.sub_self, hunread,
          take_append_of_le_length (by rw [length_drop]; omega)]
        cases fuel <;> simp [readFrames]
      · -- the frame is read to its end
        obtain ⟨n, hn⟩ := Nat.exists_eq_add_of_lt hoff
        obtain ⟨hok, hrest⟩ := h.past hnone hframes (n := n + 1) (by omega)
        have hnone' : (pkt.advance (n + 1) rest).pktData = none := hnone
        obtain ⟨freed, pkt', hrun, hok', hrest', hholds, hlength⟩ := readFrames_spec hnone' hok
          (show len - n ≤ _ by rw [hrest, length_drop]; omega) (show len - n ≤ fuel by omega)
        have hhead : pkt.holds = frbuf.addr :: (pkt.advance (n + 1) rest).holds := by
          simp only [Packet.holds, hframes]
          rfl
        refine ⟨frbuf.addr :: freed, pkt', ?_, hok', ?_, by rw [hhead, hholds]; rfl, hlength⟩
        · simp only [readFrames, hframes, hr]
          rw [if_neg (by omega), show min (frbuf.data.length - r) (len + 1) = n + 1 by omega,
            if_pos (by omega), if_pos (by omega), Nat.add_sub_add_right, hrun, hrest]
          have hhere : pkt.unread.take (n + 1) = (frbuf.data.drop r).take (n + 1) := by
            rw [hunread, take_append_of_le_length (by rw [length_drop]; omega)]
          have hall : pkt.unread.take (len + 1) =
              (frbuf.data.drop r).take (n + 1) ++ (pkt.unread.drop (n + 1)).take (len - n) := by
            rw [← hhere, ← take_add]
            congr 1
            omega
          rw [hall]
          rfl
        · rw [hrest', hrest, drop_drop]
          congr 1
          omega

theorem readPacket_spec {pkt : Packet} (h : pkt.Ok) (want : Nat) :
    ∃ freed pkt', readPacket want pkt = some (pkt.unread.take want, freed, pkt') ∧ pkt'.Ok ∧
      pkt'.unread = pkt.unread.drop want ∧ pkt.holds = freed ++ pkt'.holds ∧
      pkt'.pktLength = pkt.pktLength := by
  have hlength := h.length
  have hactlen : pkt.pktLength - pkt.rcvOffset = pkt.unread.length := by omega
  have htake : pkt.unread.take (min pkt.unread.length want) = pkt.unread.take want := by
    rw [Nat.min_comm, ← take_eq_take_min]
  have hdrop : pkt.unread.drop (min pkt.unread.length want) = pkt.unread.drop want := by
    rw [Nat.min_comm, ← drop_eq_drop_min]
  unfold readPacket
  rw [hactlen, ← htake, ← hdrop]
  generalize hlen : min pkt.unread.length want = len
  have hle : len ≤ pkt.unread.length := hlen ▸ Nat.min_le_left _ _
  cases hdata : pkt.pktData with
  | none => exact readFrames_spec hdata h hle (Nat.le_refl len)
  | some block =>
    have hunread : pkt.unread = block.2.drop pkt.rcvOffset := by
      simp only [Packet.unread, hdata]
    have hrest : (pkt.advance len pkt.frames).unread = pkt.unread.drop len := by
      simp only [drop_drop, Packet.unread, Packet.advance, hdata]
    obtain ⟨hnil, hoff⟩ := h.block block hdata
    have hsum := congrArg List.length hunread
    rw [length_drop] at hsum
    refine ⟨[], pkt.advance len pkt.frames, ?_, ⟨?_, ?_, h.cut, ?_⟩, hrest, rfl, rfl⟩
    · rw [hunread]
      refine if_neg ?_
      omega
    · rw [hrest, length_drop]
      simp only [Packet.advance]
      omega
    · intro b hb
      cases hdata.symm.trans hb
      refine ⟨hnil, ?_⟩
      simp only [Packet.advance]
      omega
    · simp [Packet.advance, hnil]

/-! ## The queue -/

/-- A packet that was delivered and not read from. -/
def Packet.Fresh (pkt : Packet) : Prop := pkt.Ok ∧ pkt.rcvOffset = 0

/-- A packet between two calls: it has an unread byte, unless it never had one. -/
def Packet.Waits (pkt : Packet) : Prop := pkt.Ok ∧ (pkt.unread = [] → pkt.pktLength = 0)

theorem Packet.Fresh.waits {pkt : Packet} (h : pkt.Fresh) : pkt.Waits :=
  ⟨h.1, fun hnil => by rw [h.1.length, h.2, hnil]; rfl⟩

theorem Packet.Ok.holds_emptied {pkt : Packet} (h : pkt.Ok) (hend : pkt.unread = []) :
    pkt.holds = pkt.blocks := by
  cases hframes : pkt.frames with
  | nil => simp only [Packet.holds, hframes, map_nil, nil_append]
  | cons f fs =>
    cases hdata : pkt.pktData with
    | some b => exact nomatch hframes.symm.trans (h.block b hdata).1
    | none =>
      obtain ⟨hoff, hunread⟩ := h.unread_cons hdata hframes
      have hlen := congrArg List.length (hunread.symm.trans hend)
      rw [length_append, length_drop, length_nil] at hlen
      omega

/-- **The loop over packets** copies what is unread in the queue, as far as there is room, and
    frees what it empties. -/
theorem readPackets_spec : ∀ {queue : List Packet} {fuel want : Nat}, (∀ p ∈ queue, p.Waits) →
    queue.length < fuel →
    ∃ freed queue', readPackets fuel want queue =
        some ((queue.flatMap Packet.unread).take want, freed, queue') ∧
      queue'.flatMap Packet.unread = (queue.flatMap Packet.unread).drop want ∧
      queue.flatMap Packet.holds = freed ++ queue'.flatMap Packet.holds ∧ ∀ p ∈ queue', p.Waits
  | [], fuel, want, h, _ => ⟨[], [], by cases fuel <;> simp [readPackets], by simp, rfl, h⟩
  | _ :: _, 0, _, _, hfuel => absurd hfuel (by simp)
  | pkt :: queue, fuel + 1, 0, h, _ => ⟨[], pkt :: queue, rfl, rfl, rfl, h⟩
  | pkt :: queue, fuel + 1, want + 1, h, hfuel => by
    have hok := (h pkt mem_cons_self).1
    have hqueue : ∀ p ∈ queue, p.Waits := fun p hp => h p (mem_cons_of_mem pkt hp)
    obtain ⟨freed, pkt', hrun, hok', hrest, hholds, hlength⟩ := readPacket_spec hok (want + 1)
    have hsum := hok'.length
    simp only [readPackets, hrun, Nat.succ_ne_zero, if_false, flatMap_cons]
    by_cases hend : pkt'.unread = []
    · -- the packet is emptied and the next one is taken
      obtain ⟨freed', queue', hrun', hrest', hholds', hwaits⟩ := @readPackets_spec queue fuel
        (want + 1 - pkt.unread.length) hqueue (Nat.lt_of_succ_lt_succ hfuel)
      have hle : pkt.unread.length ≤ want + 1 := drop_eq_nil_iff.mp (hrest ▸ hend)
      have hemptied : pkt'.rcvOffset = pkt'.pktLength := by
        rw [hsum, hend]
        rfl
      refine ⟨freed ++ pkt'.blocks ++ freed', queue', ?_, ?_, ?_, hwaits⟩
      · simp only [if_pos hemptied, take_of_length_le hle, hrun', take_append]
        rfl
      · rw [hrest', drop_append, drop_eq_nil_of_le hle, nil_append]
      · rw [hholds, hok'.holds_emptied hend, hholds', append_assoc, append_assoc,
          append_assoc]
    · -- the room is used up inside of the packet
      have hlt : want + 1 < pkt.unread.length := by
        rw [hrest] at hend
        exact Nat.lt_of_not_le (mt drop_eq_nil_of_le hend)
      have hleft : pkt'.rcvOffset ≠ pkt'.pktLength := by
        have := length_pos_iff.mpr hend
        omega
      refine ⟨freed, pkt' :: queue, ?_, ?_, ?_, ?_⟩
      · simp only [if_neg hleft, length_take, Nat.min_eq_left (Nat.le_of_lt hlt),
          Nat.sub_self]
        rw [take_append_of_le_length (Nat.le_of_lt hlt)]
        obtain ⟨fuel, rfl⟩ := Nat.exists_eq_succ_of_ne_zero (Nat.ne_zero_of_lt (Nat.lt_of_succ_lt_succ hfuel))
        simp [readPackets]
      · rw [flatMap_cons, hrest, drop_append_of_le_length (Nat.le_of_lt hlt)]
      · rw [flatMap_cons, hholds, append_assoc]
      · intro p hp
        obtain rfl | hp := mem_cons.mp hp
        · exact ⟨hok', fun hnil => absurd hnil hend⟩
        · exact hqueue p hp

/-- **A call** returns what is unread, as far as there is room, and leaves the rest. -/
theorem recvFromsockStream_spec {s : StreamSock} (hpeer : s.peerPort ≠ 0)
    (h : ∀ p ∈ s.rcvpkt, p.Waits) (maxlen : Int) {dontwait : Bool}
    (hwait : s.rcvpkt ≠ [] ∨ dontwait) :
    ∃ freed queue, recvFromsockStream s maxlen dontwait =
        some (Int.ofNat ((s.rcvpkt.flatMap Packet.unread).take maxlen.toNat).length,
          (s.rcvpkt.flatMap Packet.unread).take maxlen.toNat,
          { s with rcvpkt := queue, freed := s.freed ++ freed }) ∧
      queue.flatMap Packet.unread = (s.rcvpkt.flatMap Packet.unread).drop maxlen.toNat ∧
      s.rcvpkt.flatMap Packet.holds = freed ++ queue.flatMap Packet.holds ∧
      ∀ p ∈ queue, p.Waits := by
  unfold recvFromsockStream
  by_cases hnil : s.rcvpkt = []
  · obtain ⟨peerPort, rcvpkt, freed⟩ := s
    obtain rfl : rcvpkt = [] := hnil
    rw [if_pos ⟨hpeer, rfl⟩, if_pos (hwait.resolve_left (not_not_intro rfl))]
    exact ⟨[], [], by simp, by simp, rfl, by simp⟩
  obtain ⟨freed, queue, hrun, hrest, hholds, hwaits⟩ := readPackets_spec h
    (Nat.lt_succ_self s.rcvpkt.length)
  refine ⟨freed, queue, ?_, hrest, hholds, hwaits⟩
  rw [if_neg (fun hc => hnil hc.2), if_neg hpeer, hrun]
  rfl

/-! ## Runs -/

inductive StreamOp where
  | deliver (pkt : Packet)
  | recv (maxlen : Int) (dontwait : Bool)

/-- The socket, all packets that were delivered to it, and all bytes that were returned. -/
structure StreamRun where
  sock : StreamSock
  sent : List Packet
  got : List UInt8

def streamStep (r : StreamRun) : StreamOp → Option StreamRun
  | .deliver pkt => some { r with
      sock := { r.sock with rcvpkt := r.sock.rcvpkt ++ [pkt] }, sent := r.sent ++ [pkt] }
  | .recv maxlen dontwait => (recvFromsockStream r.sock maxlen dontwait).map fun x =>
      { r with sock := x.2.2, got := r.got ++ x.2.1 }

/-- What is delivered was not read before. -/
def StreamAllowed (_ : StreamRun) : StreamOp → Prop
  | .deliver pkt => pkt.Fresh
  | .recv _ _ => True

/-- A connected socket with a queue of packets. -/
def streamInit (peerPort : Nat) (queue : List Packet) : StreamRun :=
  ⟨⟨peerPort, queue, []⟩, queue, []⟩

/-- The two sums. -/
structure StreamRun.Ok (r : StreamRun) : Prop where
  peer : r.sock.peerPort ≠ 0
  waits : ∀ p ∈ r.sock.rcvpkt, p.Waits
  bytes : r.got ++ r.sock.rcvpkt.flatMap Packet.unread = r.sent.flatMap Packet.unread
  blocks : r.sock.freed ++ r.sock.rcvpkt.flatMap Packet.holds = r.sent.flatMap Packet.holds

theorem StreamRun.Ok.step {r r' : StreamRun} {op : StreamOp} (h : r.Ok) (hok : StreamAllowed r op)
    (hstep : streamStep r op = some r') : r'.Ok := by
  cases op with
  | deliver pkt =>
    cases hstep
    refine ⟨h.peer, ?_, ?_, ?_⟩
    · intro p hp
      obtain hp | hp := mem_append.mp hp
      · exact h.waits p hp
      · obtain rfl := mem_singleton.mp hp
        exact hok.waits
    · simp only [flatMap_append, ← append_assoc, h.bytes]
    · simp only [flatMap_append, ← append_assoc, h.blocks]
  | recv maxlen dontwait =>
    obtain ⟨x, hx, rfl⟩ := Option.map_eq_some_iff.mp hstep
    have hwait : r.sock.rcvpkt ≠ [] ∨ dontwait := by
      by_cases hnil : r.sock.rcvpkt = []
      · rw [recvFromsockStream, if_pos ⟨h.peer, hnil⟩] at hx
        cases dontwait with
        | true => exact .inr rfl
        | false => cases hx
      · exact .inl hnil
    obtain ⟨freed, queue, hrun, hrest, hholds, hwaits⟩ :=
      recvFromsockStream_spec h.peer h.waits maxlen hwait
    cases hrun.symm.trans hx
    refine ⟨h.peer, hwaits, ?_, ?_⟩
    · simp only [hrest, append_assoc, take_append_drop, h.bytes]
    · simp only [append_assoc, ← hholds, h.blocks]

/-- **Receiving from a stream socket.** However the calls cut the stream, what they return is a prefix
    of the data of the packets, in order, and each returns as much as there is room for. What was freed
    is a prefix of the frames and packets, in order: each of those that are left has an unread byte,
    apart from a packet that never had one, and none that was freed has. -/
theorem stream_received {peerPort : Nat} {queue : List Packet} {r : StreamRun} (hpeer : peerPort ≠ 0)
    (hqueue : ∀ p ∈ queue, p.Fresh)
    (h : Reaches streamStep StreamAllowed (streamInit peerPort queue) r) :
    r.got ++ r.sock.rcvpkt.flatMap Packet.unread = r.sent.flatMap Packet.unread ∧
    r.sock.freed ++ r.sock.rcvpkt.flatMap Packet.holds = r.sent.flatMap Packet.holds ∧
    (∀ p ∈ r.sock.rcvpkt, (p.unread = [] → p.pktLength = 0) ∧
      ∀ f ∈ p.frames.head?, p.rcvOffset % maxProtocolFrsize < f.data.length) ∧
    ∀ (maxlen : Int) (dontwait : Bool), r.sock.rcvpkt ≠ [] ∨ dontwait →
      ∃ s, recvFromsockStream r.sock maxlen dontwait =
        some (Int.ofNat (min maxlen.toNat (r.sock.rcvpkt.flatMap Packet.unread).length),
          (r.sock.rcvpkt.flatMap Packet.unread).take maxlen.toNat, s) := by
  have hr : r.Ok := h.invariant StreamRun.Ok
    ⟨hpeer, fun p hp => (hqueue p hp).waits, rfl, rfl⟩ fun hi hok hstep => hi.step hok hstep
  refine ⟨hr.bytes, hr.blocks, fun p hp => ⟨(hr.waits p hp).2, (hr.waits p hp).1.first⟩, ?_⟩
  intro maxlen dontwait hwait
  obtain ⟨freed, queue, hrun, _⟩ := recvFromsockStream_spec hr.peer hr.waits maxlen hwait
  rw [length_take] at hrun
  exact ⟨_, hrun⟩

/-- A frame and a block, read in two calls that both stop inside of a packet. -/
theorem stream_received_two : let frame : Packet := ⟨1, 3, 0, none, [⟨2, [7, 8, 9]⟩]⟩
    let block : Packet := ⟨3, 2, 0, some (4, [5, 6]), []⟩
    ∃ r, Reaches streamStep StreamAllowed (streamInit 9 [frame, block]) r ∧ r.got = [7, 8, 9, 5] ∧
      r.sock.freed = [2, 1] ∧
      r.got ++ r.sock.rcvpkt.flatMap Packet.unread = r.sent.flatMap Packet.unread := by
  have hcalls : ∃ r₁ ∈ streamStep (streamInit 9 [⟨1, 3, 0, none, [⟨2, [7, 8, 9]⟩]⟩,
        ⟨3, 2, 0, some (4, [5, 6]), []⟩]) (.recv 2 false),
      ∃ r₂ ∈ streamStep r₁ (.recv 2 false), r₂.got = [7, 8, 9, 5] ∧ r₂.sock.freed = [2, 1] := by
    decide +kernel
  intro frame block
  have hfresh : ∀ p ∈ [frame, block], p.Fresh := by
    intro p hp
    simp only [mem_cons, not_mem_nil, or_false] at hp
    obtain rfl | rfl := hp
    · exact ⟨⟨rfl, by simp [frame], by simp [frame, Cut, maxProtocolFrsize], by simp [frame]⟩, rfl⟩
    · exact ⟨⟨rfl, by simp [block], trivial, by simp [block]⟩, rfl⟩
  obtain ⟨r₁, h₁, r₂, h₂, hgot, hfreed⟩ := hcalls
  have hrun : Reaches streamStep StreamAllowed (streamInit 9 [frame, block]) r₂ :=
    ((Reaches.refl _).snoc (a := StreamOp.recv 2 false) trivial h₁).snoc (a := StreamOp.recv 2 false)
      trivial h₂
  exact ⟨r₂, hrun, hgot, hfreed, (stream_received (by decide) hfresh hrun).1⟩

/-! ## Closing -/

/-- `PKTTYPE_CONNECTCLOSE`, as `assemble` handles it and `sock_send` at a local peer. -/
def StreamSock.connectClose (s : StreamSock) : StreamSock := { s with peerPort := 0 }

/-- The steps above, or the arrival of the peer's close (`none`). -/
def closeStep (r : StreamRun) : Option StreamOp → Option StreamRun
  | none => some { r with sock := r.sock.connectClose }
  | some op => streamStep r op

/-- The close comes after all packets, and finds them read. -/
def CloseAllowed (r : StreamRun) : Option StreamOp → Prop
  | none => r.sock.rcvpkt = []
  | some (.deliver pkt) => pkt.Fresh ∧ r.sock.peerPort ≠ 0
  | some (.recv _ _) => True

theorem CloseAllowed.stream {r : StreamRun} : ∀ {op : StreamOp}, CloseAllowed r (some op) →
    StreamAllowed r op
  | .deliver _, h => h.1
  | .recv _ _, _ => trivial

theorem recvFromsockStream_closed {s : StreamSock} (h : s.peerPort = 0) (maxlen : Int)
    (dontwait : Bool) :
    recvFromsockStream s maxlen dontwait = some (econnectionClosed, [], s) := by
  rw [recvFromsockStream, if_neg fun hp => hp.1 h, if_pos h]

/-- The socket is connected and the sums hold, or it is closed and all was read. -/
def StreamRun.Drained (r : StreamRun) : Prop :=
  r.Ok ∨ r.sock.peerPort = 0 ∧ r.sock.rcvpkt = [] ∧ r.got = r.sent.flatMap Packet.unread

theorem StreamRun.Drained.step {r r' : StreamRun} {op : Option StreamOp} (h : r.Drained)
    (hok : CloseAllowed r op) (hstep : closeStep r op = some r') : r'.Drained := by
  cases op with
  | none =>
    cases hstep
    refine .inr ⟨rfl, hok, ?_⟩
    cases h with
    | inl h => simpa [show r.sock.rcvpkt = [] from hok] using h.bytes
    | inr h => exact h.2.2
  | some op =>
    cases h with
    | inl h => exact .inl (h.step hok.stream hstep)
    | inr h =>
      cases op with
      | deliver pkt => exact absurd h.1 hok.2
      | recv maxlen dontwait =>
        simp only [closeStep, streamStep, recvFromsockStream_closed h.1, Option.map_some,
          append_nil] at hstep
        cases hstep
        exact .inr h

/-- **A close that finds the queue read** loses nothing: until then each call returns what there is, and
    `ECONNECTIONCLOSED` is returned with all of it read. -/
theorem close_keeps_data {peerPort : Nat} {queue : List Packet} {r : StreamRun}
    (hpeer : peerPort ≠ 0) (hqueue : ∀ p ∈ queue, p.Fresh)
    (h : Reaches closeStep CloseAllowed (streamInit peerPort queue) r) :
    r.got ++ r.sock.rcvpkt.flatMap Packet.unread = r.sent.flatMap Packet.unread ∧
    ∀ (maxlen : Int) (dontwait : Bool),
      (r.sock.rcvpkt ≠ [] → ∃ s, recvFromsockStream r.sock maxlen dontwait =
        some (Int.ofNat ((r.sock.rcvpkt.flatMap Packet.unread).take maxlen.toNat).length,
          (r.sock.rcvpkt.flatMap Packet.unread).take maxlen.toNat, s)) ∧
      ∀ x, recvFromsockStream r.sock maxlen dontwait = some x → x.1 = econnectionClosed →
        r.sock.rcvpkt = [] := by
  have hr : r.Drained := h.invariant StreamRun.Drained
    (.inl ⟨hpeer, fun p hp => (hqueue p hp).waits, rfl, rfl⟩) fun hi hok hstep => hi.step hok hstep
  cases hr with
  | inr hr => exact ⟨by simp [hr.2], fun _ _ => ⟨fun hne => absurd hr.2.1 hne, fun _ _ _ => hr.2.1⟩⟩
  | inl hr =>
    refine ⟨hr.bytes, fun maxlen dontwait => ?_⟩
    have hread := fun hne => @recvFromsockStream_spec _ hr.peer hr.waits maxlen dontwait (.inl hne)
    refine ⟨fun hne => ?_, fun x hx hclosed => Decidable.byContradiction fun hne => ?_⟩
    · obtain ⟨_, _, hrun, -⟩ := hread hne
      exact ⟨_, hrun⟩
    · obtain ⟨_, _, hrun, -⟩ := hread hne
      cases hrun.symm.trans hx
      exact absurd (hclosed ▸ Int.natCast_nonneg _ : 0 ≤ econnectionClosed) (by decide)

/-! ## Two ends on one host -/

/-- `pkt_type`, as far as `sock_send` looks at it. -/
inductive PktType where
  | data
  | connectClose

/-- `sock_send` to the socket `s1` of the same host, with a new packet and its data block. A close is
    not queued; its packet is freed at once. -/
def StreamSock.sockSend (s1 : StreamSock) (addr block : Nat) (data : List UInt8) : PktType → StreamSock
  | .data => { s1 with rcvpkt := s1.rcvpkt ++ [⟨addr, data.length, 0, some (block, data), []⟩] }
  | .connectClose => s1.connectClose

/-- A connection inside of one host: whether the one end is open, and the other with what it got. -/
structure LocalPair where
  isOpen : Bool
  receiver : StreamRun

/-- `syscall_send` and the last `syscall_close` at the one end, and `syscall_recv` at the other. -/
inductive PairOp where
  | send (addr block : Nat) (data : List UInt8)
  | close (addr block : Nat) (msg : List UInt8)
  | recv (maxlen : Int) (dontwait : Bool)

def pairStep (p : LocalPair) : PairOp → Option LocalPair
  | .send addr block data =>
    if p.isOpen then
      some { p with receiver := { p.receiver with
        sock := p.receiver.sock.sockSend addr block data .data
        sent := p.receiver.sent ++ [⟨addr, data.length, 0, some (block, data), []⟩] } }
    else none
  | .close addr block msg =>
    if p.isOpen then
      some ⟨false, { p.receiver with sock := p.receiver.sock.sockSend addr block msg .connectClose }⟩
    else none
  | .recv maxlen dontwait => (streamStep p.receiver (.recv maxlen dontwait)).map (⟨p.isOpen, ·⟩)

/-- The close finds the queue read. -/
def PairAllowed (p : LocalPair) : PairOp → Prop
  | .close _ _ _ => p.receiver.sock.rcvpkt = []
  | _ => True

theorem fresh_of_block (addr block : Nat) (data : List UInt8) :
    Packet.Fresh ⟨addr, data.length, 0, some (block, data), []⟩ := by
  refine ⟨⟨?_, fun b _ => ⟨rfl, Nat.zero_le _⟩, trivial, nofun⟩, rfl⟩
  simp [Packet.unread]

theorem recvFromsockStream_peerPort {s : StreamSock} {maxlen : Int} {dontwait : Bool}
    {x : Int × List UInt8 × StreamSock} (h : recvFromsockStream s maxlen dontwait = some x) :
    x.2.2.peerPort = s.peerPort := by
  unfold recvFromsockStream at h
  split at h
  · split at h
    · cases h
      rfl
    · cases h
  split at h
  · cases h
    rfl
  · obtain ⟨r, -, rfl⟩ := Option.map_eq_some_iff.mp h
    rfl

/-- **The receiver's side of a connection inside of one host** is a run of the socket: a send is a
    delivery and the close is the arrival of the close. The receiver is connected while the other end is
    open, so nothing is delivered after the close. -/
theorem LocalPair.atReceiver {peerPort : Nat} {queue : List Packet} {p : LocalPair} (hpeer : peerPort ≠ 0)
    (h : Reaches pairStep PairAllowed ⟨true, streamInit peerPort queue⟩ p) :
    Reaches closeStep CloseAllowed (streamInit peerPort queue) p.receiver ∧
      (p.isOpen = true → p.receiver.sock.peerPort ≠ 0) := by
  refine h.invariant (fun p => Reaches closeStep CloseAllowed (streamInit peerPort queue) p.receiver ∧
    (p.isOpen = true → p.receiver.sock.peerPort ≠ 0)) ⟨Reaches.refl _, fun _ => hpeer⟩ ?_
  rintro p p' op ⟨hrun, hconn⟩ hok hstep
  cases op with
  | send addr block data =>
    obtain ⟨hopen, rfl⟩ := Option.ite_none_right_eq_some.mp hstep |>.imp_right Option.some.inj
    exact ⟨hrun.snoc (a := some (.deliver _)) ⟨fresh_of_block addr block data, hconn hopen⟩ rfl, hconn⟩
  | close addr block msg =>
    obtain ⟨-, rfl⟩ := Option.ite_none_right_eq_some.mp hstep |>.imp_right Option.some.inj
    exact ⟨hrun.snoc (a := none) hok rfl, nofun⟩
  | recv maxlen dontwait =>
    obtain ⟨r, hr, rfl⟩ := Option.map_eq_some_iff.mp hstep
    obtain ⟨x, hx, rfl⟩ := Option.map_eq_some_iff.mp hr
    refine ⟨hrun.snoc (a := some (.recv maxlen dontwait)) trivial hr, fun hopen => ?_⟩
    rw [recvFromsockStream_peerPort hx]
    exact hconn hopen

def oneByte : Packet := ⟨1, 1, 0, some (2, [7]), []⟩

theorem close_keeps_data_read : ∃ r, Reaches closeStep CloseAllowed (streamInit 9 [oneByte]) r ∧
    r.got = [7] ∧ r.sock.peerPort = 0 ∧
    r.got ++ r.sock.rcvpkt.flatMap Packet.unread = r.sent.flatMap Packet.unread := by
  have hfresh : oneByte.Fresh := ⟨⟨rfl, by simp [oneByte], trivial, by simp [oneByte]⟩, rfl⟩
  have hstart : Reaches closeStep CloseAllowed (streamInit 9 [oneByte]) _ := Reaches.refl _
  have hrun := (hstart.snoc (a := some (StreamOp.recv 1 false)) trivial rfl).snoc (a := none) rfl rfl
  exact ⟨_, hrun, rfl, rfl, (close_keeps_data (by decide) (forall_mem_singleton.mpr hfresh) hrun).1⟩

/-- **A close that comes first** takes the byte from the reader, however often it calls. -/
theorem close_loses_data : ∃ r, closeStep (streamInit 9 [oneByte]) none = some r ∧
    r.sock.rcvpkt.flatMap Packet.unread = [7] ∧ ∀ maxlen dontwait,
      recvFromsockStream r.sock maxlen dontwait = some (econnectionClosed, [], r.sock) :=
  ⟨_, rfl, rfl, recvFromsockStream_closed rfl⟩

end AtomOs.Net
