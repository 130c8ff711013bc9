import LgMagic.Evdev.Frames

/-!
# Queues of packets

What a driver has sent and a reader has not read yet is a queue of whole packets. A call of
`evdev_read_frame_ext` takes the first of them, also when signals come in between.

* `IsQueue`: the packets of a queue;
* `IsQueue.concat`, `IsQueue.read`: a packet is sent, a frame is read;
* `drain`: the frames that a queue still holds.
-/

namespace Evdev

open InputCore Pointer

/-- The events are these packets, each with its `EV_SYN`. -/
inductive IsQueue : List (List ReadEvent) → List ReadEvent → Prop
  | nil : IsQueue [] []
  | cons {packet : List ReadEvent} {syn : ReadEvent} {packets : List (List ReadEvent)}
      {queue : List ReadEvent} (hpacket : ∀ ev ∈ packet, ev.type ≠ evSyn) (hsyn : syn.type = evSyn)
      (hqueue : IsQueue packets queue) : IsQueue (packet :: packets) (packet ++ syn :: queue)

section

variable {packets : List (List ReadEvent)} {packet queue : List ReadEvent} {syn : ReadEvent}

/-- With nothing in the queue no packet waits. -/
theorem IsQueue.eq_nil (h : IsQueue packets queue) (hempty : queue = []) : packets = [] := by
  cases h with
  | nil => rfl
  | cons => simp at hempty

/-- A packet is sent. -/
theorem IsQueue.concat (h : IsQueue packets queue) (hpacket : ∀ ev ∈ packet, ev.type ≠ evSyn)
    (hsyn : syn.type = evSyn) : IsQueue (packets ++ [packet]) (queue ++ (packet ++ [syn])) := by
  induction h with
  | nil => simpa using IsQueue.cons hpacket hsyn .nil
  | cons hfirst hend _ ih => simpa using IsQueue.cons hfirst hend ih

/-- The first packet of a queue is the part before the first `EV_SYN`. -/
theorem IsQueue.of_append (h : IsQueue packets (packet ++ syn :: queue))
    (hpacket : ∀ ev ∈ packet, ev.type ≠ evSyn) (hsyn : syn.type = evSyn) :
    ∃ packets', packets = packet :: packets' ∧ IsQueue packets' queue := by
  generalize hall : packet ++ syn :: queue = all at h
  cases h with
  | nil => simp at hall
  | @cons packet' syn' packets' queue' hpacket' hsyn' hqueue =>
    have hsplit : packet = packet' ∧ syn = syn' ∧ queue = queue' := by
      induction packet generalizing packet' with
      | nil =>
        cases packet' with
        | nil => simpa using hall
        | cons ev packet' =>
          obtain ⟨rfl, -⟩ := List.cons.inj hall
          exact absurd hsyn (hpacket' _ List.mem_cons_self)
      | cons ev packet ih =>
        cases packet' with
        | nil =>
          obtain ⟨rfl, -⟩ := List.cons.inj hall
          exact absurd hsyn' (hpacket _ List.mem_cons_self)
        | cons ev' packet' =>
          obtain ⟨rfl, hrest⟩ := List.cons.inj hall
          obtain ⟨rfl, hends⟩ := ih (fun e he => hpacket e (List.mem_cons_of_mem _ he))
            (fun e he => hpacket' e (List.mem_cons_of_mem _ he)) hrest
          exact ⟨rfl, hends⟩
    obtain ⟨rfl, -, rfl⟩ := hsplit
    exact ⟨packets', rfl, hqueue⟩

/-- The frame of a packet. -/
def framePacket (dev : ImuDev) (packet : List ReadEvent) : ImuDev × Frame :=
  closeFrame (packet.foldl takeEvent (dev, .zero))

/-- A frame that is read is that of the first packet. -/
theorem IsQueue.read {reads rest : List ReadResult} {dev dev' : ImuDev} {f : Frame}
    (h : IsQueue packets (delivered reads))
    (hread : evdevReadFrameExt dev reads = .frame dev' f rest) :
    ∃ packet packets', packets = packet :: packets' ∧ IsQueue packets' (delivered rest) ∧
      framePacket dev packet = (dev', f) := by
  obtain ⟨packet, syn, rest', dev'', f', hpacket, hsyn, hreads, hclose, hloop⟩ | ⟨-, hnone⟩ :=
    readLoop_cases (dev, .zero) reads
  · cases hloop.symm.trans hread
    obtain ⟨packets', hpackets, hqueue⟩ := (hreads ▸ h).of_append hpacket hsyn
    exact ⟨packet, packets', hpackets, hqueue, hclose⟩
  · exact absurd hread (hnone _ _ _)

theorem delivered_map_whole (queue : List ReadEvent) : delivered (queue.map .whole) = queue := by
  induction queue with
  | nil => rfl
  | cons ev queue ih => exact congrArg (ev :: ·) ih

/-- What waits can be read. -/
theorem IsQueue.exists_frame (h : IsQueue packets queue) (hne : queue ≠ []) (dev : ImuDev) :
    ∃ dev' f rest, evdevReadFrameExt dev (queue.map .whole) = .frame dev' f rest := by
  obtain ⟨packet, syn, rest, dev', f, -, -, -, -, hloop⟩ | ⟨hnone, -⟩ :=
    readLoop_cases (dev, .zero) (queue.map .whole)
  · exact ⟨dev', f, rest, hloop⟩
  · rw [delivered_map_whole] at hnone
    cases h with
    | nil => exact absurd rfl hne
    | @cons packet syn packets queue _ hsyn _ => exact absurd hsyn (hnone syn (by simp))

end

/-! ## Draining a queue -/

/-- The frames that are still to be read, and the device after them. -/
def drain (dev : ImuDev) : List (List ReadEvent) → ImuDev × List Frame
  | [] => (dev, [])
  | packet :: packets =>
    let r := framePacket dev packet
    let r' := drain r.1 packets
    (r'.1, r.2 :: r'.2)

theorem drain_concat (dev : ImuDev) (packets : List (List ReadEvent)) (packet : List ReadEvent) :
    drain dev (packets ++ [packet]) =
      ((framePacket (drain dev packets).1 packet).1,
        (drain dev packets).2 ++ [(framePacket (drain dev packets).1 packet).2]) := by
  induction packets generalizing dev with
  | nil => rfl
  | cons p packets ih => simp only [List.cons_append, drain, ih]

theorem length_drain (dev : ImuDev) (packets : List (List ReadEvent)) :
    (drain dev packets).2.length = packets.length := by
  induction packets generalizing dev with
  | nil => rfl
  | cons p packets ih => simp only [drain, List.length_cons, ih]

end Evdev
