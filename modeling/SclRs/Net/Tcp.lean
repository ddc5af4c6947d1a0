import Mathlib.Data.List.Forall2
import SclRs.Lib.LengthDelimited
import SclRs.Net.Packet

/-!
# Packets on a socket

`PeerWriter` and `split_socket` of `net/tcp.rs`. A writer puts the length of an encoded packet before it
in eight bytes; the reader is a `FramedRead` with a `LengthDelimitedCodec`, whose maximal frame length is
left at its default of 8 MiB. So the packets arrive just when none is encoded in more bytes than that
(`framing_lossless_iff`), while the loop-back channel takes packets of any size (`loopBack_lossless`).
`tokio-util` and `postcard` are parameters: `Reads` and `WireSized` say what the code relies on.
-/

namespace SclRs

open Lib

/-- The packets are equal in Rust: their elements have the same bytes. -/
def Packet.Equal (p q : Packet) : Prop := p.elements.map Element.bytes = q.elements.map Element.bytes

/-- The length of `postcard`'s encoding: varints for the number of elements and their lengths, and the
elements' bytes. -/
def Packet.wireSize (p : Packet) : Nat :=
  Codec.varintSize p.elements.length +
    (p.elements.map fun e => Codec.varintSize e.bytes.length + e.bytes.length).sum

/-- `PeerWriter`, with what has been written to it. -/
inductive PeerWriter
  | loopBack (channel : List Packet)
  | socket (stream : List UInt8)

/-- The options that `split_socket` gives to `LengthDelimitedCodec::builder`. -/
def socketCodec : LengthDelimited.Builder where
  littleEndian := true
  fieldLength := 8

section
variable (codec : Postcard (List (List UInt8)))

/-- `postcard::to_allocvec`: an element's label is skipped. -/
def Packet.toAllocvec (packet : Packet) : List UInt8 := codec.toAllocvec (packet.elements.map Element.bytes)

def PeerWriter.send (packet : Packet) : PeerWriter → PeerWriter × Nat
  | .loopBack channel => (.loopBack (channel ++ [packet]), packet.size)
  | .socket stream =>
    let bytes := packet.toAllocvec codec
    let lenMessage := Codec.writeFixed 8 bytes.length
    (.socket (stream ++ lenMessage ++ bytes), packet.size)

def PeerWriter.sendAll (writer : PeerWriter) (packets : List Packet) : PeerWriter :=
  packets.foldl (fun writer packet => (writer.send codec packet).1) writer

/-- `split_socket`'s reader, for the bytes that arrive in chunks; `framedRead` is `FramedRead::new` on the
codec that the builder makes. -/
def packetStream
    (framedRead : LengthDelimited.Builder → List (List UInt8) → List (Except NetworkError (List UInt8)))
    (chunks : List (List UInt8)) : List (Except NetworkError Packet) :=
  (framedRead socketCodec chunks).map fun frame => do
    let bytes ← frame
    match codec.fromBytes bytes with
    | none => .error .serializationError
    | some innerBytes => .ok ⟨innerBytes.map fun bytes => ⟨bytes, none⟩⟩

/-- `create_loopback`'s reader. -/
def loopBackStream (channel : List Packet) : List (Except NetworkError Packet) := channel.map .ok

/-- Sequences and byte vectors are encoded after their lengths. -/
def WireSized : Prop := ∀ payloads : List (List UInt8),
  (codec.toAllocvec payloads).length = Codec.varintSize payloads.length +
    (payloads.map fun bytes => Codec.varintSize bytes.length + bytes.length).sum

end

section
variable {codec : Postcard (List (List UInt8))} {packets : List Packet}
  {framedRead : LengthDelimited.Builder → List (List UInt8) → List (Except NetworkError (List UInt8))}

theorem length_toAllocvec (hwire : WireSized codec) (packet : Packet) :
    (packet.toAllocvec codec).length = packet.wireSize := by
  rw [Packet.toAllocvec, hwire, List.length_map, List.map_map]
  rfl

theorem sendAll_socket (stream : List UInt8) :
    (PeerWriter.socket stream).sendAll codec packets =
      .socket (stream ++ (packets.map (Packet.toAllocvec codec)).flatMap socketCodec.frame) := by
  induction packets generalizing stream with
  | nil => rw [List.map_nil, List.flatMap_nil, List.append_nil]; rfl
  | cons packet packets ih =>
    rw [List.map_cons, List.flatMap_cons, ← List.append_assoc]
    refine (ih _).trans ?_
    rw [List.append_assoc stream]
    rfl

theorem sendAll_loopBack (channel : List Packet) :
    (PeerWriter.loopBack channel).sendAll codec packets = .loopBack (channel ++ packets) := by
  induction packets generalizing channel with
  | nil => rw [List.append_nil]; rfl
  | cons packet packets ih =>
    refine (ih _).trans ?_
    rw [List.append_assoc, List.singleton_append]

/-- The loop-back channel carries packets of any size. -/
theorem loopBack_lossless : ∃ channel,
    (PeerWriter.loopBack []).sendAll codec packets = .loopBack channel ∧
      loopBackStream channel = packets.map .ok :=
  ⟨packets, sendAll_loopBack [], rfl⟩

/-- The packet as it arrives: without labels. -/
def Packet.received (packet : Packet) : Packet := ⟨packet.elements.map fun e => ⟨e.bytes, none⟩⟩

theorem Packet.received_equal (packet : Packet) : packet.Equal packet.received := by
  rw [Packet.Equal, Packet.received, List.map_map]
  rfl

theorem packetStream_eq {chunks : List (List UInt8)}
    (h : framedRead socketCodec chunks = (packets.map (Packet.toAllocvec codec)).map .ok) :
    packetStream codec framedRead chunks = packets.map fun packet => .ok packet.received := by
  rw [packetStream, h, List.map_map, List.map_map]
  refine List.map_congr_left fun packet _ => ?_
  simp only [Function.comp_apply, Packet.toAllocvec, bind, Except.bind, codec.fromBytes_toAllocvec,
    Packet.received, List.map_map]
  rfl

theorem exists_frames {chunks : List (List UInt8)} {received : List Packet}
    (h : packetStream codec framedRead chunks = received.map .ok) :
    ∃ oks : List (List UInt8), framedRead socketCodec chunks = oks.map .ok := by
  rw [packetStream] at h
  generalize framedRead socketCodec chunks = frames at h ⊢
  induction frames generalizing received with
  | nil => exact ⟨[], rfl⟩
  | cons frame frames ih =>
    obtain ⟨packet, received, rfl, hpacket, hrest⟩ := List.map_eq_cons_iff.mp h.symm
    obtain ⟨oks, rfl⟩ := ih hrest.symm
    cases frame with
    | error e => cases hpacket
    | ok bytes => exact ⟨bytes :: oks, rfl⟩

/-- What a socket delivers. -/
def Lossless (codec : Postcard (List (List UInt8)))
    (framedRead : LengthDelimited.Builder → List (List UInt8) → List (Except NetworkError (List UInt8)))
    (packets : List Packet) : Prop :=
  ∀ chunks : List (List UInt8),
    (PeerWriter.socket []).sendAll codec packets = .socket chunks.flatten →
      ∃ received : List Packet, packetStream codec framedRead chunks = received.map .ok ∧
        List.Forall₂ Packet.Equal packets received

/-- **Packets that fit arrive.** -/
theorem lossless_of_fits (hwire : WireSized codec)
    (hread : LengthDelimited.Reads socketCodec (framedRead socketCodec))
    (hfits : ∀ packet ∈ packets, packet.wireSize ≤ 8 * 1024 * 1024) :
    Lossless codec framedRead packets := by
  intro chunks hchunks
  rw [sendAll_socket, List.nil_append, PeerWriter.socket.injEq] at hchunks
  have hframes := hread.read_eq (List.forall_mem_map.mpr fun packet hpacket => ?_) hchunks.symm
  · refine ⟨packets.map Packet.received, ?_, ?_⟩
    · rw [packetStream_eq hframes, List.map_map]
      rfl
    · rw [List.forall₂_map_right_iff, List.forall₂_same]
      exact fun packet _ => packet.received_equal
  · have hfit : packet.wireSize ≤ socketCodec.maxLength := hfits packet hpacket
    have hmax : socketCodec.maxLength < 256 ^ socketCodec.fieldLength := by decide
    rw [length_toAllocvec hwire]
    exact ⟨Nat.lt_of_le_of_lt hfit hmax, hfit⟩

/-- **Packets that arrive fit.** -/
theorem fits_of_lossless (hwire : WireSized codec)
    (hread : LengthDelimited.Reads socketCodec (framedRead socketCodec))
    (hmemory : ∀ packet ∈ packets, packet.wireSize < 2 ^ 64)
    (h : Lossless codec framedRead packets) :
    ∀ packet ∈ packets, packet.wireSize ≤ 8 * 1024 * 1024 := by
  let stream := (packets.map (Packet.toAllocvec codec)).flatMap socketCodec.frame
  have hstream : [stream].flatten = stream := List.append_nil _
  obtain ⟨received, hreceived, -⟩ := h [stream] (by rw [sendAll_socket, List.nil_append, hstream])
  obtain ⟨oks, hoks⟩ := exists_frames hreceived
  have hfits := hread.le_of_read_eq (List.forall_mem_map.mpr fun packet hpacket => ?_) hstream hoks
  · intro packet hpacket
    rw [← length_toAllocvec hwire]
    exact hfits _ (List.mem_map_of_mem hpacket)
  · rw [length_toAllocvec hwire]
    exact hmemory packet hpacket

/-- **Framing is lossless** just for the packets that are encoded in at most 8 MiB. -/
theorem framing_lossless_iff (hwire : WireSized codec)
    (hread : LengthDelimited.Reads socketCodec (framedRead socketCodec))
    (hmemory : ∀ packet ∈ packets, packet.wireSize < 2 ^ 64) :
    Lossless codec framedRead packets ↔ ∀ packet ∈ packets, packet.wireSize ≤ 8 * 1024 * 1024 :=
  ⟨fits_of_lossless hwire hread hmemory, lossless_of_fits hwire hread⟩

end

/-! ### A codec and a reader -/

/-- `postcard`'s encoding of a sequence of byte vectors. -/
def packetCodec : Postcard (List (List UInt8)) := .ofCodec (Codec.list (Codec.list Codec.byte))

theorem wireSized_packetCodec : WireSized packetCodec := by
  have hbytes : ∀ bytes : List UInt8, ((Codec.list Codec.byte).write bytes).length =
      Codec.varintSize bytes.length + bytes.length := by
    intro bytes
    change (Codec.writeVarint bytes.length ++ bytes.flatMap fun b => [b]).length = _
    rw [List.length_append, Codec.length_writeVarint, List.flatMap_singleton']
  intro payloads
  change (Codec.writeVarint payloads.length ++
    payloads.flatMap (Codec.list Codec.byte).write).length = _
  rw [List.length_append, Codec.length_writeVarint, List.length_flatMap]
  simp only [hbytes]

/-- A reader that ends with an error where a frame is too long or incomplete. -/
def frameReader (b : LengthDelimited.Builder) (chunks : List (List UInt8)) :
    List (Except NetworkError (List UInt8)) :=
  LengthDelimited.decode b .ioError .ioError chunks.flatten

theorem reads_frameReader : LengthDelimited.Reads socketCodec (frameReader socketCodec) :=
  LengthDelimited.reads_decode NetworkError.ioError NetworkError.ioError (by decide)

theorem framing_lossless_two :
    Lossless packetCodec frameReader [⟨[⟨[1, 2, 3], some "field elem."⟩, ⟨[], none⟩]⟩, ⟨[]⟩] ↔
      ∀ packet ∈ [(⟨[⟨[1, 2, 3], some "field elem."⟩, ⟨[], none⟩]⟩ : Packet), ⟨[]⟩],
        packet.wireSize ≤ 8 * 1024 * 1024 :=
  framing_lossless_iff wireSized_packetCodec reads_frameReader (by decide +kernel)

theorem wireSize_replicate (n : Nat) : (⟨[⟨List.replicate n 0, none⟩]⟩ : Packet).wireSize =
    Codec.varintSize 1 + (Codec.varintSize n + n) := by
  simp [Packet.wireSize]

theorem not_lossless_replicate {n : Nat} (hn : 8 * 1024 * 1024 ≤ n)
    (hmemory : Codec.varintSize 1 + (Codec.varintSize n + n) < 2 ^ 64) :
    ¬ Lossless packetCodec frameReader [⟨[⟨List.replicate n 0, none⟩]⟩] := by
  intro h
  rw [← wireSize_replicate] at hmemory
  have hfits := fits_of_lossless wireSized_packetCodec reads_frameReader
    (List.forall_mem_singleton.mpr hmemory) h _ (List.mem_singleton_self _)
  have hone : Codec.varintSize 1 = 1 := by decide +kernel
  rw [wireSize_replicate, hone] at hfits
  omega

/-- **A packet of more than 8 MiB** is not delivered. -/
theorem framing_tooLong :
    ¬ Lossless packetCodec frameReader [⟨[⟨List.replicate (8 * 1024 * 1024) 0, none⟩]⟩] := by
  have hmemory : Codec.varintSize 1 + (Codec.varintSize (8 * 1024 * 1024) + 8 * 1024 * 1024) < 2 ^ 64 := by
    have hone : Codec.varintSize 1 = 1 := by decide +kernel
    have hlen : Codec.varintSize (8 * 1024 * 1024) = 4 := by decide +kernel
    rw [hone, hlen]
    omega
  exact not_lossless_replicate (Nat.le_refl _) hmemory

end SclRs
