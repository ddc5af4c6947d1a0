import SclRs.Lib.Codec

/-!
# Length-delimited streams

A frame is a length field of fixed width and as many bytes. A reader gets the bytes of a stream in chunks
that need not respect the frames. `Reads` says what it yields whatever the chunks are: the payload of a
frame, unless that is longer than the reader takes. So it yields all payloads of a stream just when none
is too long (`Reads.read_eq`, `Reads.le_of_read_eq`). `decode` is such a reader. `Feeds` says what a reader
makes of the bytes that have arrived so far.
-/

namespace SclRs.Lib.LengthDelimited

structure Builder where
  littleEndian : Bool := false
  fieldLength : Nat := 4
  maxLength : Nat := 8 * 1024 * 1024

namespace Builder

variable (b : Builder)

def head (n : Nat) : List UInt8 :=
  if b.littleEndian then Codec.writeFixed b.fieldLength n
  else (Codec.writeFixed b.fieldLength n).reverse

def frame (payload : List UInt8) : List UInt8 := b.head payload.length ++ payload

/-- The length in a length field, and the bytes after it. -/
def readHead (bytes : List UInt8) : Option (Nat × List UInt8) :=
  let field := bytes.take b.fieldLength
  (Codec.readFixed b.fieldLength (if b.littleEndian then field else field.reverse)).map
    fun (n, _) => (n, bytes.drop b.fieldLength)

end Builder

/-- What a reader yields for the chunks that arrive. -/
structure Reads {ε : Type} (b : Builder) (read : List (List UInt8) → List (Except ε (List UInt8))) :
    Prop where
  nil {chunks : List (List UInt8)} : chunks.flatten = [] → read chunks = []
  frame {chunks : List (List UInt8)} {payload rest : List UInt8} :
    chunks.flatten = b.frame payload ++ rest → payload.length < 256 ^ b.fieldLength →
    payload.length ≤ b.maxLength →
    ∃ chunks' : List (List UInt8), chunks'.flatten = rest ∧ read chunks = .ok payload :: read chunks'
  tooLong {chunks : List (List UInt8)} {n : Nat} {rest : List UInt8} :
    chunks.flatten = b.head n ++ rest → n < 256 ^ b.fieldLength → b.maxLength < n →
    ∃ e more, read chunks = .error e :: more

section
variable {ε : Type} {b : Builder} {read : List (List UInt8) → List (Except ε (List UInt8))}
  {payloads : List (List UInt8)} {chunks : List (List UInt8)}

/-- **A stream of frames that fit is read as its payloads.** -/
theorem Reads.read_eq (h : Reads b read)
    (hfits : ∀ payload ∈ payloads, payload.length < 256 ^ b.fieldLength ∧ payload.length ≤ b.maxLength)
    (hchunks : chunks.flatten = payloads.flatMap b.frame) : read chunks = payloads.map .ok := by
  induction payloads generalizing chunks with
  | nil => exact h.nil hchunks
  | cons payload payloads ih =>
    obtain ⟨⟨hfield, hmax⟩, hfits⟩ := List.forall_mem_cons.mp hfits
    obtain ⟨chunks', hchunks', hread⟩ := h.frame hchunks hfield hmax
    rw [hread, ih hfits hchunks', List.map_cons]

/-- **A reader that reports no error has met no frame that is too long.** -/
theorem Reads.le_of_read_eq (h : Reads b read)
    (hfield : ∀ payload ∈ payloads, payload.length < 256 ^ b.fieldLength)
    (hchunks : chunks.flatten = payloads.flatMap b.frame) {oks : List (List UInt8)}
    (hread : read chunks = oks.map .ok) : ∀ payload ∈ payloads, payload.length ≤ b.maxLength := by
  induction payloads generalizing chunks oks with
  | nil => exact fun _ hmem => absurd hmem List.not_mem_nil
  | cons payload payloads ih =>
    obtain ⟨hpayload, hfield⟩ := List.forall_mem_cons.mp hfield
    rw [List.flatMap_cons] at hchunks
    by_cases hmax : payload.length ≤ b.maxLength
    · obtain ⟨chunks', hchunks', hcons⟩ := h.frame hchunks hpayload hmax
      rw [hcons] at hread
      obtain ⟨ok, oks, rfl, -, hrest⟩ := List.map_eq_cons_iff.mp hread.symm
      exact List.forall_mem_cons.mpr ⟨hmax, ih hfield hchunks' hrest.symm⟩
    · rw [Builder.frame, List.append_assoc] at hchunks
      obtain ⟨e, more, herror⟩ := h.tooLong hchunks hpayload (Nat.lt_of_not_le hmax)
      rw [herror] at hread
      obtain ⟨ok, oks, -, hok, -⟩ := List.map_eq_cons_iff.mp hread.symm
      cases hok

end

/-! ### A reader -/

section
variable {ε : Type} (b : Builder) (tooLong incomplete : ε)

/-- The payloads of the frames, up to an error. -/
def decode (bytes : List UInt8) : List (Except ε (List UInt8)) :=
  if bytes = [] then []
  else match b.readHead bytes with
    | none => [.error incomplete]
    | some (n, rest) =>
      if b.maxLength < n then [.error tooLong]
      else if rest.length < n then [.error incomplete]
      else if (rest.drop n).length < bytes.length then .ok (rest.take n) :: decode (rest.drop n)
      else [.error incomplete]
termination_by bytes.length
decreasing_by assumption

variable {b}

theorem length_writeFixed (width n : Nat) : (Codec.writeFixed width n).length = width := by
  induction width generalizing n with
  | zero => rfl
  | succ width ih => rw [Codec.writeFixed, List.length_cons, ih]

theorem length_head (n : Nat) : (b.head n).length = b.fieldLength := by
  rw [Builder.head]
  split_ifs
  · exact length_writeFixed _ _
  · rw [List.length_reverse, length_writeFixed]

theorem readHead_head {n : Nat} (h : n < 256 ^ b.fieldLength) (rest : List UInt8) :
    b.readHead (b.head n ++ rest) = some (n, rest) := by
  have hfield : (if b.littleEndian then b.head n else (b.head n).reverse) =
      Codec.writeFixed b.fieldLength n := by
    rw [Builder.head]
    split_ifs
    · rfl
    · exact List.reverse_reverse _
  have hread := Codec.readFixed_writeFixed b.fieldLength h []
  rw [List.append_nil] at hread
  rw [Builder.readHead, List.take_left' (length_head n), List.drop_left' (length_head n)]
  simp only [hfield, hread, Option.map_some]

theorem reads_decode (hfield : 0 < b.fieldLength) :
    Reads b fun chunks => decode b tooLong incomplete chunks.flatten where
  nil hchunks := by rw [hchunks, decode, if_pos rfl]
  frame {chunks payload rest} hchunks hlt hmax := by
    refine ⟨[rest], by simp, ?_⟩
    have hhead := readHead_head hlt (payload ++ rest)
    have hlength := length_head (b := b) payload.length
    have hne : b.head payload.length ++ (payload ++ rest) ≠ [] := by
      refine List.ne_nil_of_length_pos ?_
      rw [List.length_append]
      omega
    have hshorter : ((payload ++ rest).drop payload.length).length <
        (b.head payload.length ++ (payload ++ rest)).length := by
      rw [List.drop_left, List.length_append, List.length_append]
      omega
    rw [hchunks, Builder.frame, List.append_assoc, decode, if_neg hne]
    simp only [hhead]
    rw [if_neg (by omega), if_neg (by rw [List.length_append]; omega), if_pos hshorter,
      List.take_left, List.drop_left, List.flatten_cons, List.flatten_nil, List.append_nil]
  tooLong {chunks n rest} hchunks hlt hmax := by
    have hhead := readHead_head hlt rest
    have hne : b.head n ++ rest ≠ [] := by
      refine List.ne_nil_of_length_pos ?_
      rw [List.length_append, length_head]
      omega
    refine ⟨tooLong, [], ?_⟩
    rw [hchunks, decode, if_neg hne]
    simp only [hhead]
    rw [if_pos hmax]

end

/-! ### Bytes that arrive -/

/-- A frame of the payload is taken by a reader. -/
def Builder.Fits (b : Builder) (payload : List UInt8) : Prop :=
  payload.length < 256 ^ b.fieldLength ∧ payload.length ≤ b.maxLength

/-- What a reader makes of the bytes that it has: the payloads of the frames that are complete, and the bytes
that it keeps. -/
structure Feeds {ε : Type} (b : Builder)
    (feed : List UInt8 → List (Except ε (List UInt8)) × List UInt8) : Prop where
  nil : feed [] = ([], [])
  frame {payload rest : List UInt8} : b.Fits payload →
    feed (b.frame payload ++ rest) = (.ok payload :: (feed rest).1, (feed rest).2)
  incomplete {payload bytes more : List UInt8} : b.Fits payload → b.frame payload = bytes ++ more →
    more ≠ [] → feed bytes = ([], bytes)

section
variable {ε : Type} {b : Builder} {feed : List UInt8 → List (Except ε (List UInt8)) × List UInt8}
  {payloads : List (List UInt8)} {bytes more : List UInt8}

/-- **Some frames are complete**, and the bytes that the reader keeps begin those of the others. -/
theorem Feeds.feed_eq (h : Feeds b feed) (hfits : ∀ payload ∈ payloads, b.Fits payload)
    (hbytes : bytes ++ more = payloads.flatMap b.frame) :
    ∃ done left rest, payloads = done ++ left ∧ feed bytes = (done.map .ok, rest) ∧
      feed rest = ([], rest) ∧ rest ++ more = left.flatMap b.frame ∧ (more = [] → left = []) := by
  induction payloads generalizing bytes with
  | nil =>
    obtain ⟨rfl, rfl⟩ := List.append_eq_nil_iff.mp hbytes
    exact ⟨[], [], [], rfl, h.nil, h.nil, rfl, fun _ => rfl⟩
  | cons payload payloads ih =>
    obtain ⟨hpayload, hfits⟩ := List.forall_mem_cons.mp hfits
    -- the first frame is complete or not
    obtain ⟨c, rfl, hc⟩ | ⟨a, ha, hmore, hne⟩ : (∃ c, bytes = b.frame payload ++ c ∧
        c ++ more = payloads.flatMap b.frame) ∨
        ∃ a, b.frame payload = bytes ++ a ∧ more = a ++ payloads.flatMap b.frame ∧ a ≠ [] := by
      obtain ⟨a, ha, hmore⟩ | ⟨c, hc, hrest⟩ := List.append_eq_append_iff.mp hbytes
      · by_cases hne : a = []
        · subst hne
          rw [List.append_nil] at ha
          exact .inl ⟨[], by rw [ha, List.append_nil], hmore⟩
        · exact .inr ⟨a, ha, hmore, hne⟩
      · exact .inl ⟨c, hc, hrest.symm⟩
    · obtain ⟨done, left, rest, rfl, hfeed, hrest, hleft, hend⟩ := ih hfits hc
      refine ⟨payload :: done, left, rest, rfl, ?_, hrest, hleft, hend⟩
      rw [h.frame hpayload, hfeed]
      rfl
    · have hfeed := h.incomplete hpayload ha hne
      refine ⟨[], payload :: payloads, bytes, rfl, hfeed, hfeed, hbytes, fun hnil => ?_⟩
      rw [hnil] at hmore
      exact absurd (List.append_eq_nil_iff.mp hmore.symm).1 hne

end

section
variable {ε : Type} (b : Builder) (tooLong : ε)

/-- The payloads of the complete frames, up to one that is too long. -/
def feed (bytes : List UInt8) : List (Except ε (List UInt8)) × List UInt8 :=
  match b.readHead bytes with
  | none => ([], bytes)
  | some (n, rest) =>
    if b.maxLength < n then ([.error tooLong], [])
    else if rest.length < n then ([], bytes)
    else if (rest.drop n).length < bytes.length then
      (.ok (rest.take n) :: (feed (rest.drop n)).1, (feed (rest.drop n)).2)
    else ([], bytes)
termination_by bytes.length
decreasing_by all_goals assumption

variable {b}

theorem readHead_eq_none {bytes : List UInt8} (h : bytes.length < b.fieldLength) : b.readHead bytes = none := by
  have hfield : ∀ (width : Nat) (field : List UInt8), field.length < width →
      Codec.readFixed width field = none := by
    intro width
    induction width with
    | zero => exact fun field hlt => absurd hlt (Nat.not_lt_zero _)
    | succ width ih =>
      intro field hlt
      cases field with
      | nil => rfl
      | cons byte field => rw [Codec.readFixed, ih field (Nat.lt_of_succ_lt_succ hlt), Option.map_none]
  rw [Builder.readHead, hfield]
  · rfl
  · split_ifs
    · rwa [List.take_of_length_le (Nat.le_of_lt h)]
    · rwa [List.length_reverse, List.take_of_length_le (Nat.le_of_lt h)]

theorem feeds_feed (hfield : 0 < b.fieldLength) : Feeds b (feed b tooLong) where
  nil := by
    have hnone : b.readHead [] = none := readHead_eq_none hfield
    rw [feed, hnone]
  frame {payload rest} hfits := by
    have hhead := readHead_head hfits.1 (payload ++ rest)
    have hlength := length_head (b := b) payload.length
    have hshorter : ((payload ++ rest).drop payload.length).length <
        (b.head payload.length ++ (payload ++ rest)).length := by
      rw [List.drop_left, List.length_append, List.length_append]
      omega
    rw [Builder.frame, List.append_assoc, feed]
    simp only [hhead]
    rw [if_neg (Nat.not_lt.mpr hfits.2), if_neg (by rw [List.length_append]; omega), if_pos hshorter,
      List.take_left, List.drop_left]
  incomplete {payload bytes more} hfits hframe hne := by
    rw [feed]
    by_cases hlt : bytes.length < b.fieldLength
    · rw [readHead_eq_none hlt]
    · -- the length field is there, but not the whole payload
      have hlength := length_head (b := b) payload.length
      obtain ⟨rest, rfl⟩ : ∃ rest, bytes = b.head payload.length ++ rest := by
        have hhead : b.head payload.length <+: b.frame payload := List.prefix_append _ payload
        have hbytes : bytes <+: b.frame payload := ⟨more, hframe.symm⟩
        obtain ⟨rest, hrest⟩ := List.prefix_of_prefix_length_le hhead hbytes (by omega)
        exact ⟨rest, hrest.symm⟩
      have hmore : rest ++ more = payload := by
        rw [Builder.frame, List.append_assoc] at hframe
        exact (List.append_cancel_left hframe).symm
      have hshort : rest.length < payload.length := by
        have hpos := List.length_pos_of_ne_nil hne
        rw [← hmore, List.length_append]
        omega
      have hhead := readHead_head hfits.1 rest
      simp only [hhead]
      rw [if_neg (Nat.not_lt.mpr hfits.2), if_pos hshort]

end

end SclRs.Lib.LengthDelimited
