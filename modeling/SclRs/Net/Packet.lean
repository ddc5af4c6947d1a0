import Mathlib.Data.List.Induction
import SclRs.Lib.Codec

/-!
# Parties and packets

`PartyId`, `Packet` and the errors of `net/mod.rs`. `postcard` is a third-party crate: what the
code relies on is the codec `Postcard` of a type, whose decoding inverts its encoding.
-/

namespace SclRs

/-- `PartyId(usize)`; nothing below depends on the width. -/
abbrev PartyId := Nat

/-- The `NetworkError`s the modelled operations return. -/
inductive NetworkError
  | connectionClosed (party : Option PartyId)
  | ioError
  | serializationError
  | partyNotFound (party : PartyId)
  | expectedTwoNodeNet (nodes : Nat)
  | emptyPacket
  | wrongPacketIdx (idx : Nat)
  | sendError
  | timeout (party : Option PartyId)
deriving DecidableEq

theorem mapM_range_eq {m : Type → Type} [Monad m] [LawfulMonad m] {β : Type} {f : Nat → m β} {l : List β}
    (h : ∀ i b, l[i]? = some b → f i = pure b) : (List.range l.length).mapM f = pure l := by
  induction l using List.reverseRecOn with
  | nil => rfl
  | append_singleton l b ih =>
    have hl : ∀ i a, l[i]? = some a → f i = pure a := fun i a ha =>
      h i a (by rw [List.getElem?_append_left (List.getElem?_eq_some_iff.mp ha).1, ha])
    have hb : f l.length = pure b := h _ b List.getElem?_concat_length
    rw [List.length_append, List.length_singleton, List.range_succ, List.mapM_append, ih hl,
      List.mapM_cons, hb]
    simp

/-- `postcard`'s encoding of a type; `fromBytes` answers `none` for a `postcard::Error`. -/
structure Postcard (α : Type) where
  toAllocvec : α → List UInt8
  fromBytes : List UInt8 → Option α
  fromBytes_toAllocvec : ∀ a, fromBytes (toAllocvec a) = some a

/-- The codec of the bytes that `codec` writes. -/
def Postcard.ofCodec {α : Type} (codec : Lib.Codec α) : Postcard α where
  toAllocvec := codec.write
  fromBytes bytes := (codec.read bytes).map Prod.fst
  fromBytes_toAllocvec a := by
    have h := codec.read_write a []
    rw [List.append_nil] at h
    rw [h]
    rfl

class Abbreviate (α : Type) where
  abbreviation : String

/-- One serialized object of a packet; `label` is display-only. -/
structure Element where
  bytes : List UInt8
  label : Option String
deriving DecidableEq

structure Packet where
  elements : List Element
deriving DecidableEq

namespace Packet

def empty : Packet := ⟨[]⟩

def size (p : Packet) : Nat := p.elements.foldl (fun total obj => total + obj.bytes.length) 0

/-- One more element labelled `label`, at the place where the label first appeared. -/
def countLabel (counts : List (String × Nat)) (label : String) : List (String × Nat) :=
  match counts with
  | [] => [(label, 1)]
  | (l, n) :: rest => if l = label then (l, n + 1) :: rest else (l, n) :: countLabel rest label

/-- How many elements carry each label, in order of first appearance. -/
def composition (p : Packet) : List (String × Nat) :=
  p.elements.foldl (fun counts e => countLabel counts (e.label.getD "unknown elem.")) []

variable {α : Type} (codec : Postcard α)

/-- `write_labeled`: appends `obj` with its type's abbreviation. -/
def writeLabeled (p : Packet) (obj : α) (abbreviation : String) : Packet :=
  ⟨p.elements ++ [⟨codec.toAllocvec obj, some abbreviation⟩]⟩

def writeManyLabeled (p : Packet) (objs : List α) (abbreviation : String) : Packet :=
  ⟨p.elements ++ objs.map fun obj => ⟨codec.toAllocvec obj, some abbreviation⟩⟩

/-- A packet with one labelled object. -/
def labeled [Abbreviate α] (obj : α) : Packet :=
  empty.writeLabeled codec obj (Abbreviate.abbreviation α)

/-- A packet with labelled objects of one type. -/
def manyLabeled [Abbreviate α] (objs : List α) : Packet :=
  empty.writeManyLabeled codec objs (Abbreviate.abbreviation α)

/-- `read`: decodes the element at an index. -/
def read (p : Packet) (objIdx : Nat) : Except NetworkError α :=
  match p.elements[objIdx]? with
  | none => .error (.wrongPacketIdx objIdx)
  | some e =>
    match codec.fromBytes e.bytes with
    | none => .error .serializationError
    | some obj => .ok obj

/-- The loop that reads the first `n` objects. -/
def readAll (n : Nat) (p : Packet) : Except NetworkError (List α) := (List.range n).mapM (p.read codec)

/-- `pop`: decodes and removes the last element. -/
def pop (p : Packet) : Except NetworkError α :=
  match p.elements.getLast? with
  | none => .error .emptyPacket
  | some e =>
    match codec.fromBytes e.bytes with
    | none => .error .serializationError
    | some obj => .ok obj

@[simp] theorem pop_writeLabeled (p : Packet) (obj : α) (abbreviation : String) :
    (p.writeLabeled codec obj abbreviation).pop codec = .ok obj := by
  simp [pop, writeLabeled, codec.fromBytes_toAllocvec]

@[simp] theorem pop_labeled [Abbreviate α] (obj : α) : (labeled codec obj).pop codec = .ok obj :=
  pop_writeLabeled codec _ _ _

theorem read_writeManyLabeled {objs : List α} {i : Nat} {obj : α} (h : objs[i]? = some obj)
    (abbreviation : String) :
    (empty.writeManyLabeled codec objs abbreviation).read codec i = .ok obj := by
  simp [read, writeManyLabeled, empty, h, codec.fromBytes_toAllocvec]

theorem read_manyLabeled [Abbreviate α] {objs : List α} {i : Nat} {obj : α} (h : objs[i]? = some obj) :
    (manyLabeled codec objs).read codec i = .ok obj :=
  read_writeManyLabeled codec h _

theorem readAll_manyLabeled [Abbreviate α] (objs : List α) :
    (manyLabeled codec objs).readAll codec objs.length = .ok objs :=
  mapM_range_eq fun _ _ h => read_manyLabeled codec h

end Packet

end SclRs
