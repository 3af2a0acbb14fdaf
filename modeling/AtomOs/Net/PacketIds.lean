import AtomOs.Lib.Run
import AtomOs.Lib.Word

/-!
# Packet ids

A socket numbers its packets with `psk_sndseqid`, and a host takes a new packet from a socket only if
its id is greater than that of the last one it completed. `sock_send` advances the counter before each
packet. For a broadcast `internal_tsend` computes the next id, but it advances the counter only if the
broadcast is to a parallel process; after one to a port it leaves that to the `sock_send` to its own
host. `sock_broadcast` broadcasts to the port it sends from, and then there is no such `sock_send`: the
next packet has the same id and is dropped (`broadcast_id_again`). In all other runs the ids are fresh:
**`packet_ids_fresh`**.

Packets are in the order of the calls; whether a call waits does not matter for their ids.
-/

namespace AtomOs.Net

open Lib List

/-- What a `struct isockaddr` says about where a packet goes. -/
structure SockAddr where
  host : Int
  port : Int

/-- `psk_sndseqid`, and the packets that were queued for transmission or at a local socket: where they
    go, and their ids. -/
structure Sender where
  sndseqid : Nat
  sent : List (SockAddr × Nat)

/-- `sock_send` on the host `this`, if there is memory for the packet. One to the host itself may find
    no socket (`peer`), and is freed. -/
def sockSend (this : Int) (dest : SockAddr) (memory peer : Bool) (s : Sender) : Sender :=
  if memory then
    let id := u32 (s.sndseqid + 1)
    ⟨id, s.sent ++ if dest.host = this ∧ !peer then [] else [(dest, id)]⟩
  else s

/-- `internal_tsend` from the port `src`. At the ports `group`, `local_broadcast` queues a packet;
    `again` is whether there is memory for the packet of the last `sock_send`. -/
def internalTsend (this src : Int) (dest : SockAddr) (group : List Int) (memory again peer : Bool)
    (s : Sender) : Sender :=
  if 0 ≤ dest.host then sockSend this dest memory peer s
  else
    let seqno := u32 (s.sndseqid + 1)
    let s := if dest.port < -65535 then
        ⟨seqno, s.sent ++ group.map fun port => (⟨this, port⟩, seqno)⟩
      else s
    if memory then
      let s := { s with sent := s.sent ++ [(dest, seqno)] }
      if 0 < dest.port ∧ dest.port ≠ src then sockSend this ⟨this, dest.port⟩ again peer s else s
    else s

/-- The new packets a host takes from a socket in `packet_type_data`, by their ids; `nextSeqno` is the
    id of the last one it completed. -/
def packetTypeData : Nat → List Nat → List Nat
  | _, [] => []
  | nextSeqno, id :: ids =>
    if nextSeqno ≥ id then packetTypeData nextSeqno ids else id :: packetTypeData id ids

/-! ## Runs -/

inductive SendOp where
  | sockSend (dest : SockAddr) (memory peer : Bool)
  | tsend (dest : SockAddr) (group : List Int) (memory again peer : Bool)

def sendStep (this src : Int) (s : Sender) : SendOp → Option Sender
  | .sockSend dest memory peer => some (sockSend this dest memory peer s)
  | .tsend dest group memory again peer => some (internalTsend this src dest group memory again peer s)

/-- The counter does not wrap, the threads of a process have ports of their own, and a broadcast to a
    port is followed by a packet to that port of the own host. -/
def SendOpOk (src : Int) (s : Sender) : SendOp → Prop
  | .sockSend _ _ _ => s.sndseqid + 1 < 4294967296
  | .tsend dest group memory again _ => s.sndseqid + 1 < 4294967296 ∧ group.Nodup ∧
      (dest.host < 0 ∧ -65535 ≤ dest.port ∧ memory → 0 < dest.port ∧ dest.port ≠ src ∧ again)

instance (src : Int) (s : Sender) : ∀ op, Decidable (SendOpOk src s op)
  | .sockSend _ _ _ => inferInstanceAs (Decidable (_ < _))
  | .tsend _ _ _ _ _ => inferInstanceAs (Decidable (_ ∧ _ ∧ (_ → _)))

/-- What is sent there comes to the port of the host itself, or to any port of another host, which
    looks at the ids of a socket together. A broadcast does not come to the host it is from. -/
def SockAddr.ComesTo (this host port : Int) (a : SockAddr) : Prop :=
  if host = this then a.host = this ∧ a.port = port else a.host = host ∨ a.host < 0

instance (this host port : Int) (a : SockAddr) : Decidable (a.ComesTo this host port) :=
  inferInstanceAs (Decidable (ite _ _ _))

/-- The ids of the packets that come to a destination. -/
def Sender.ids (s : Sender) (this host port : Int) : List Nat :=
  (s.sent.filter fun k => k.1.ComesTo this host port).map Prod.snd

/-! ## Ids go up -/

/-- No destination gets what is sent to both. -/
def SockAddr.Apart (this : Int) (a b : SockAddr) : Prop :=
  ∀ host port, a.ComesTo this host port → ¬ b.ComesTo this host port

/-- Ids are positive, not above the counter, and go up for every destination. -/
structure Sender.Fresh (this : Int) (s : Sender) : Prop where
  bound : ∀ k ∈ s.sent, 0 < k.2 ∧ k.2 ≤ s.sndseqid
  order : s.sent.Pairwise fun x y => x.1.Apart this y.1 ∨ x.2 < y.2

section step

variable {this src : Int} {s : Sender} (h : s.Fresh this)
include h

/-- Packets with the next id, at most one for each destination. -/
theorem Sender.Fresh.extend {new : List (SockAddr × Nat)} (hid : ∀ k ∈ new, k.2 = s.sndseqid + 1)
    (hone : new.Pairwise fun x y => x.1.Apart this y.1) :
    Sender.Fresh this ⟨s.sndseqid + 1, s.sent ++ new⟩ := by
  refine ⟨forall_mem_append.mpr ⟨fun k hk => ?_, fun k hk => ?_⟩, pairwise_append.mpr ⟨h.order,
    hone.imp .inl, fun x hx y hy => .inr ?_⟩⟩
  · have := h.bound k hk
    exact ⟨this.1, Nat.le_succ_of_le this.2⟩
  · rw [hid k hk]
    exact ⟨Nat.succ_pos _, Nat.le_refl _⟩
  · rw [hid y hy]
    exact Nat.lt_succ_of_le (h.bound x hx).2

variable (hlt : s.sndseqid + 1 < 4294967296)
include hlt

theorem Sender.Fresh.sockSend (dest : SockAddr) (memory peer : Bool) :
    (sockSend this dest memory peer s).Fresh this := by
  have hid : u32 (s.sndseqid + 1) = s.sndseqid + 1 := u32_of_lt hlt
  rw [Net.sockSend, hid]
  split
  · refine h.extend ?_ ?_ <;> split <;> simp
  · exact h

theorem Sender.Fresh.tsend (hthis : 0 ≤ this) {dest : SockAddr} {group : List Int}
    {memory again peer : Bool} (hok : SendOpOk src s (.tsend dest group memory again peer)) :
    (internalTsend this src dest group memory again peer s).Fresh this := by
  obtain ⟨-, hnd, hnext⟩ := hok
  have hid : u32 (s.sndseqid + 1) = s.sndseqid + 1 := u32_of_lt hlt
  rw [internalTsend, hid]
  split
  · exact h.sockSend hlt dest memory peer
  have hout : ∀ port, SockAddr.Apart this ⟨this, port⟩ dest := by
    grind [SockAddr.Apart, SockAddr.ComesTo]
  by_cases hgroup : dest.port < -65535
  · have hlocal : (group.map fun port => ((⟨this, port⟩ : SockAddr), s.sndseqid + 1)).Pairwise
        fun x y => x.1.Apart this y.1 :=
      pairwise_map.mpr (hnd.imp fun hne => by grind [SockAddr.Apart, SockAddr.ComesTo])
    have hport : ¬ (0 < dest.port ∧ dest.port ≠ src) := by omega
    simp only [if_pos hgroup, if_neg hport, append_assoc]
    split
    · refine h.extend (forall_mem_append.mpr ⟨forall_mem_map.mpr fun _ _ => rfl, by simp⟩)
        (pairwise_append.mpr ⟨hlocal, pairwise_singleton _ _, ?_⟩)
      exact forall_mem_map.mpr fun port _ => forall_mem_singleton.mpr (hout port)
    · exact h.extend (forall_mem_map.mpr fun _ _ => rfl) hlocal
  · simp only [if_neg hgroup]
    split
    · obtain ⟨hpos, hne, rfl⟩ := hnext ⟨by omega, by omega, by assumption⟩
      rw [if_pos ⟨hpos, hne⟩, Net.sockSend, if_pos rfl]
      simp only [hid, append_assoc]
      refine h.extend ?_ ?_
      · split <;> simp
      · split
        · simp
        · exact pairwise_pair.mpr fun host port ha hb => hout _ host port hb ha
    · exact h

end step

/-- A receiver takes all packets if their ids go up. -/
theorem packetTypeData_eq : ∀ {ids : List Nat} {next : Nat}, ids.Pairwise (· < ·) →
    (∀ id ∈ ids, next < id) → packetTypeData next ids = ids
  | [], _, _, _ => rfl
  | id :: ids, next, hup, hgt => by
    obtain ⟨hid, hup⟩ := pairwise_cons.mp hup
    rw [packetTypeData, if_neg (Nat.not_le.mpr (hgt id mem_cons_self)), packetTypeData_eq hup hid]

/-- **Packet ids are fresh.** Let a socket send packets and broadcasts in any order. If a broadcast to a
    port is always followed by the packet to the own host, the ids of the packets that come to any
    destination go up, and no receiver drops one. -/
theorem packet_ids_fresh {this src : Int} (hthis : 0 ≤ this) {n : Nat} {s : Sender}
    (hrun : Reaches (sendStep this src) (SendOpOk src) ⟨n, []⟩ s) (host port : Int) :
    (s.ids this host port).Pairwise (· < ·) ∧
      packetTypeData 0 (s.ids this host port) = s.ids this host port := by
  have hs : s.Fresh this := by
    refine hrun.invariant (Sender.Fresh this) ⟨by simp, List.Pairwise.nil⟩ ?_
    intro s t op hs hok hstep
    cases op with
    | sockSend dest memory peer =>
      cases hstep
      exact hs.sockSend hok dest memory peer
    | tsend dest group memory again peer =>
      cases hstep
      exact hs.tsend hok.1 hthis hok
  have hup : (s.ids this host port).Pairwise (· < ·) := by
    refine pairwise_map.mpr (pairwise_filter.mpr (hs.order.imp fun hxy hx hy => ?_))
    exact hxy.resolve_left fun hap => hap host port (of_decide_eq_true hx) (of_decide_eq_true hy)
  refine ⟨hup, packetTypeData_eq hup (forall_mem_map.mpr fun k hk => ?_)⟩
  exact (hs.bound k (mem_of_mem_filter hk)).1

/-- A packet to host 1, a broadcast to port 500, and one to a process with two threads on this host. -/
theorem packet_ids_fresh_three : ∃ s, Reaches (sendStep 0 131072) (SendOpOk 131072) ⟨0, []⟩ s ∧
    s.ids 0 1 500 = [1, 2, 3] ∧ packetTypeData 0 [1, 2, 3] = [1, 2, 3] := by
  obtain ⟨s, hrun, hids⟩ : ∃ s ∈ runOps (sendStep 0 131072) (SendOpOk 131072) ⟨0, []⟩
      [.sockSend ⟨1, 70000⟩ true false, .tsend ⟨-1, 500⟩ [] true true true,
        .tsend ⟨-1, -131072⟩ [131073, 131074] true false false],
      s.ids 0 1 500 = [1, 2, 3] := by decide +kernel
  have hreach := reaches_of_runOps hrun
  exact ⟨s, hreach, hids, hids ▸ (packet_ids_fresh (Int.le_refl 0) hreach 1 500).2⟩

/-- **Two calls of `sock_broadcast`**: their packets have the same id, and the second one is dropped. -/
theorem broadcast_id_again : ∃ s, runOps (sendStep 0 131072) (fun _ _ => True) ⟨0, []⟩
      [.tsend ⟨-1, 131072⟩ [] true true true, .tsend ⟨-1, 131072⟩ [] true true true] = some s ∧
    s.ids 0 1 131072 = [1, 1] ∧ packetTypeData 0 [1, 1] = [1] := by
  obtain ⟨s, hrun, hids⟩ : ∃ s ∈ runOps (sendStep 0 131072) (fun _ _ => True) ⟨0, []⟩
      [.tsend ⟨-1, 131072⟩ [] true true true, .tsend ⟨-1, 131072⟩ [] true true true],
      s.ids 0 1 131072 = [1, 1] := by decide +kernel
  exact ⟨s, hrun, hids, rfl⟩

end AtomOs.Net
