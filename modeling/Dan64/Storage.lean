/-
Dan64/Storage.lean

The tape format of `storage/storage.c`, byte by byte.

The encoder writes magic, length, header parity, the data and the data parity
(`encode_eq`).  `decode` is a machine that is fed these bytes one at a time; a
call returns its value, the control state it leaves and the bytes it passes to
`write`.  The data counter is tested after it has been incremented, so a frame
with data is read back exactly (`feed_frame`) and one without data is not: its
parity byte is taken for data.
-/
import Dan64.Mealy
import Dan64.VmBits

namespace Dan64

open Mealy

/-! ### The decoder -/

abbrev C_MAGIC : ℤ := 1
abbrev C_LEN0 : ℤ := 2
abbrev C_LEN1 : ℤ := 3
abbrev C_PAR0 : ℤ := 4
abbrev C_DATA : ℤ := 5
abbrev C_PAR1 : ℤ := 6
abbrev C_END : ℤ := 7

/-- `struct decoder_struct`, without the callback. -/
structure Decoder where
  control : ℤ
  length : Word
  parity : Byte
  count : Word
  deriving DecidableEq

/-- What one call of `decode` returns, leaves in `control`, and writes. -/
structure Decoded where
  ret : ℤ
  control : ℤ
  written : List Byte
  deriving DecidableEq

/-- `init_decoder` -/
def initDecoder : Decoder := ⟨1, 0, 0, 0⟩

/-- The call returns 0. -/
def Decoder.ok (dec : Decoder) (written : List Byte) : Decoded × Decoder :=
  (⟨0, dec.control, written⟩, dec)

/-- `control *= -1`, and the call returns it. -/
def Decoder.fail (dec : Decoder) : Decoded × Decoder :=
  let dec := { dec with control := dec.control * -1 }
  (⟨dec.control, dec.control, []⟩, dec)

/-- `decode` -/
def decode (dec : Decoder) (byte : Byte) : Decoded × Decoder :=
  if dec.control = C_MAGIC then
    if byte ≠ 0xff then dec.fail
    else { dec with control := dec.control + 1 }.ok []
  else if dec.control = C_LEN0 then
    { dec with
      length := byte.setWidth 16
      parity := dec.parity ^^^ byte
      control := dec.control + 1 }.ok []
  else if dec.control = C_LEN1 then
    { dec with
      length := dec.length <<< 8 ||| byte.setWidth 16
      parity := dec.parity ^^^ byte
      control := dec.control + 1 }.ok []
  else if dec.control = C_PAR0 then
    if byte ≠ dec.parity then dec.fail
    else { dec with parity := 0, control := dec.control + 1 }.ok []
  else if dec.control = C_DATA then
    let dec := { dec with count := dec.count + 1, parity := dec.parity ^^^ byte }
    if dec.count = dec.length then { dec with control := dec.control + 1 }.ok [byte]
    else dec.ok [byte]
  else if dec.control = C_PAR1 then
    if byte ≠ dec.parity then dec.fail
    else { dec with control := dec.control + 1 }.ok []
  else if dec.control = C_END then dec.ok []
  else dec.fail

/-! ### The encoder -/

/-- `struct encoder_struct`, as far as the bytes depend on it. -/
structure Encoder where
  parity : Byte

/-- `encode_byte`: the byte goes through `_encode_byte`. -/
def encodeByte (enc : Encoder) (byte : Byte) : List Byte × Encoder :=
  ([byte], { enc with parity := enc.parity ^^^ byte })

/-- `encode_header`; neither the magic nor the parity is summed up. -/
def encodeHeader (enc : Encoder) (length : Word) : List Byte × Encoder :=
  let enc := { enc with parity := 0 }
  let (h, enc) := encodeByte enc ((length >>> 8).setWidth 8)
  let (l, enc) := encodeByte enc ((length &&& 0xff#16).setWidth 8)
  ([0xff] ++ h ++ l ++ [enc.parity], { enc with parity := 0 })

/-- `encode_end` -/
def encodeEnd (enc : Encoder) : List Byte := [enc.parity]

/-- A payload as `save` and the tools encode it: the header, every byte, the end. -/
def encode (enc : Encoder) (payload : List Byte) : List Byte :=
  let (header, enc) := encodeHeader enc (BitVec.ofNat 16 payload.length)
  let (data, enc) := feed encodeByte enc payload
  header ++ data.flatten ++ encodeEnd enc

/-! ### Frames -/

/-- The exclusive or of bytes. -/
def xorAll (ds : List Byte) : Byte := ds.foldl (· ^^^ ·) 0

/-- The bytes of a frame, as the data format describes them. -/
def frame (payload : List Byte) : List Byte :=
  let n := BitVec.ofNat 16 payload.length
  let h : Byte := n.extractLsb' 8 8
  let l : Byte := n.setWidth 8
  [0xff, h, l, h ^^^ l] ++ payload ++ [xorAll payload]

theorem feed_encodeByte (enc : Encoder) (ds : List Byte) :
    (feed encodeByte enc ds).1.flatten = ds ∧
      (feed encodeByte enc ds).2.parity = ds.foldl (· ^^^ ·) enc.parity := by
  induction ds generalizing enc with
  | nil => exact ⟨rfl, rfl⟩
  | cons d ds ih =>
    obtain ⟨hdata, hparity⟩ := ih (encodeByte enc d).2
    rw [feed_cons]
    exact ⟨congrArg (d :: ·) hdata, hparity⟩

/-- **The encoder writes frames.** -/
theorem encode_eq (enc : Encoder) (payload : List Byte) : encode enc payload = frame payload := by
  have hlow (n : Word) : (n &&& 0xff#16).setWidth 8 = n.setWidth 8 := by
    rw [BitVec.setWidth_and]
    exact BitVec.and_allOnes
  have hhigh (n : Word) : (n >>> 8).setWidth 8 = n.extractLsb' 8 8 :=
    BitVec.setWidth_ushiftRight_eq_extractLsb
  obtain ⟨hdata, hparity⟩ := feed_encodeByte ⟨0⟩ payload
  have hzero (b : Byte) : 0 ^^^ b = b := BitVec.zero_xor
  simp only [encode, encodeHeader, encodeByte, encodeEnd, hlow, hhigh, hdata, hparity, hzero]
  rfl

/-! ### Reading frames -/

/-- A call that returns 0 and does not end the frame. -/
def Decoded.Busy (o : Decoded) : Prop := o.ret = 0 ∧ o.control ≠ C_END

/-- The header leaves the decoder waiting for as many bytes as it says. -/
theorem feed_header (n : Word) :
    let h : Byte := n.extractLsb' 8 8
    let l : Byte := n.setWidth 8
    feed decode initDecoder [0xff, h, l, h ^^^ l]
      = ([⟨0, C_LEN0, []⟩, ⟨0, C_LEN1, []⟩, ⟨0, C_PAR0, []⟩, ⟨0, C_DATA, []⟩],
          ⟨C_DATA, n, 0, 0⟩) := by
  intro h l
  have hn : h.setWidth 16 <<< 8 ||| l.setWidth 16 = n := by
    rw [BitVec.or_comm]
    refine (addr16_word l h).trans ?_
    rw [← append_bytes n, BitVec.setWidth_ushiftRight_eq_extractLsb]
  simp [feed_cons, decode, initDecoder, Decoder.ok, hn]

/-- One byte of data. -/
theorem decode_data (n : Word) (p : Byte) (k : Word) (d : Byte) :
    decode ⟨C_DATA, n, p, k⟩ d =
      if k + 1 = n then (⟨0, C_PAR1, [d]⟩, ⟨C_PAR1, n, p ^^^ d, k + 1⟩)
      else (⟨0, C_DATA, [d]⟩, ⟨C_DATA, n, p ^^^ d, k + 1⟩) := rfl

/-- How many bytes of data are still to come: the count is tested after it has been
incremented, so that it goes round once when it has reached the length already. -/
def remaining (n k : Word) : ℕ := (n - k - 1).toNat + 1

/-- A length of 65536 is stored as 0, which the count meets after as many bytes. -/
theorem remaining_ofNat {m : ℕ} (hpos : 0 < m) (hle : m ≤ 65536) :
    remaining (BitVec.ofNat 16 m) 0 = m := by
  rw [remaining]
  bv_omega

/-- The last byte of data. -/
theorem add_one_eq_iff (n k : Word) : k + 1 = n ↔ remaining n k = 1 := by
  rw [remaining]
  bv_omega

theorem remaining_add_one {n k : Word} (hne : k + 1 ≠ n) :
    remaining n (k + 1) + 1 = remaining n k := by
  rw [remaining, remaining]
  bv_omega

/-- The data, cut off: induction on the bytes, with the count. -/
theorem feed_data_short {n : Word} {ds : List Byte} {p : Byte} {k : Word}
    (hk : ds.length < remaining n k) :
    let r := feed decode ⟨C_DATA, n, p, k⟩ ds
    (∀ o ∈ r.1, o.Busy) ∧ r.1.flatMap Decoded.written = ds ∧
      r.2 = ⟨C_DATA, n, ds.foldl (· ^^^ ·) p, k + BitVec.ofNat 16 ds.length⟩ := by
  induction ds generalizing p k with
  | nil => exact ⟨nofun, rfl, by simp⟩
  | cons d ds ih =>
    rw [List.length_cons] at hk
    have hne : k + 1 ≠ n := by
      rw [Ne, add_one_eq_iff]
      omega
    have hstep := remaining_add_one hne
    obtain ⟨hbusy, hwritten, hdec⟩ := @ih (p ^^^ d) (k + 1) (by omega)
    rw [feed_cons, decode_data, if_neg hne]
    refine ⟨?_, congrArg (d :: ·) hwritten, hdec.trans ?_⟩
    · rintro o (_ | ⟨_, ho⟩)
      · exact ⟨rfl, (by decide : C_DATA ≠ C_END)⟩
      · exact hbusy o ho
    · rw [BlockMem.add_one_add_ofNat]
      rfl

/-- The data, complete. -/
theorem feed_data {n : Word} {ds : List Byte} {p : Byte} {k : Word}
    (hk : ds.length = remaining n k) :
    let r := feed decode ⟨C_DATA, n, p, k⟩ ds
    (∀ o ∈ r.1, o.Busy) ∧ r.1.flatMap Decoded.written = ds ∧
      r.2 = ⟨C_PAR1, n, ds.foldl (· ^^^ ·) p, n⟩ := by
  induction ds generalizing p k with
  | nil => exact absurd hk (Nat.succ_ne_zero _).symm
  | cons d ds ih =>
    rw [List.length_cons] at hk
    rw [feed_cons, decode_data]
    by_cases hlast : k + 1 = n
    · -- the count is the length
      rw [(add_one_eq_iff n k).mp hlast] at hk
      obtain rfl := List.eq_nil_of_length_eq_zero (Nat.succ.inj hk)
      rw [if_pos hlast, hlast]
      refine ⟨?_, rfl, rfl⟩
      intro o ho
      rw [List.mem_singleton.mp ho]
      exact ⟨rfl, (by decide : C_PAR1 ≠ C_END)⟩
    · have hstep := remaining_add_one hlast
      obtain ⟨hbusy, hwritten, hdec⟩ := @ih (p ^^^ d) (k + 1) (by omega)
      rw [if_neg hlast]
      refine ⟨?_, congrArg (d :: ·) hwritten, hdec⟩
      rintro o (_ | ⟨_, ho⟩)
      · exact ⟨rfl, (by decide : C_DATA ≠ C_END)⟩
      · exact hbusy o ho

/-- **A frame with data is read back**: no call fails, the last one and no other
ends it, and the payload is written. -/
theorem feed_frame {payload : List Byte} (hne : payload ≠ []) (hlen : payload.length ≤ 65536) :
    let r := feed decode initDecoder (frame payload)
    (∃ os, r.1 = os ++ [⟨0, C_END, []⟩] ∧ ∀ o ∈ os, o.Busy) ∧
      r.1.flatMap Decoded.written = payload := by
  have hn : payload.length = remaining (BitVec.ofNat 16 payload.length) 0 :=
    (remaining_ofNat (List.length_pos_iff.mpr hne) hlen).symm
  obtain ⟨hbusy, hwritten, hdec⟩ := @feed_data _ payload 0 0 hn
  have hheader := feed_header (BitVec.ofNat 16 payload.length)
  -- only the last byte ends the frame
  have hparity : ∀ (n : Word) (p : Byte),
      feed decode ⟨C_PAR1, n, p, n⟩ [p] = ([⟨0, C_END, []⟩], ⟨C_END, n, p, n⟩) := by
    simp [feed_cons, decode, Decoder.ok, C_PAR1, C_END]
  have hdec' : (feed decode ⟨C_DATA, BitVec.ofNat 16 payload.length, 0, 0⟩ payload).2
      = ⟨C_PAR1, BitVec.ofNat 16 payload.length, xorAll payload,
          BitVec.ofNat 16 payload.length⟩ := hdec
  intro r
  have hr : r.1 = [⟨0, C_LEN0, []⟩, ⟨0, C_LEN1, []⟩, ⟨0, C_PAR0, []⟩, ⟨0, C_DATA, []⟩] ++
      (feed decode ⟨C_DATA, BitVec.ofNat 16 payload.length, 0, 0⟩ payload).1 ++
      [⟨0, C_END, []⟩] := by
    show (feed decode initDecoder (frame payload)).1 = _
    rw [frame, feed_append, feed_append, hheader, hdec', hparity]
  refine ⟨⟨_, hr, ?_⟩, ?_⟩
  · intro o ho
    rcases List.mem_append.mp ho with ho | ho
    · have hall : ∀ o ∈ [(⟨0, C_LEN0, []⟩ : Decoded), ⟨0, C_LEN1, []⟩, ⟨0, C_PAR0, []⟩,
          ⟨0, C_DATA, []⟩], o.Busy := by
        simp [Decoded.Busy]
      exact hall o ho
    · exact hbusy o ho
  · rw [hr, List.flatMap_append, List.flatMap_append, hwritten]
    exact List.append_nil payload

/-! ### The round trip -/

/-- Encoding a payload and feeding the bytes to a fresh decoder: every call
returns 0, the last one and no other ends the frame, and `write` is called with
the payload. -/
def RoundTrip (enc : Encoder) (payload : List Byte) : Prop :=
  let outs := (feed decode initDecoder (encode enc payload)).1
  (∀ o ∈ outs, o.ret = 0) ∧
    (∃ os o, outs = os ++ [o] ∧ o.control = C_END ∧ ∀ o' ∈ os, o'.control ≠ C_END) ∧
    outs.flatMap Decoded.written = payload

/-- **The round trip** holds exactly for payloads that are not empty. -/
theorem roundTrip_iff (enc : Encoder) {payload : List Byte} (hlen : payload.length ≤ 65535) :
    RoundTrip enc payload ↔ payload ≠ [] := by
  constructor
  · rintro ⟨-, -, hwritten⟩ rfl
    -- the parity byte is written
    rw [encode_eq] at hwritten
    exact absurd hwritten (by decide)
  · intro hne
    obtain ⟨⟨os, hos, hbusy⟩, hwritten⟩ := feed_frame hne (hlen.trans (by decide))
    rw [← encode_eq enc] at hos hwritten
    refine ⟨?_, ⟨os, _, hos, rfl, fun o ho => (hbusy o ho).2⟩, hwritten⟩
    rw [hos]
    intro o ho
    rcases List.mem_append.mp ho with ho | ho
    · exact (hbusy o ho).1
    · rw [List.mem_singleton.mp ho]

theorem roundTrip_iff_two : RoundTrip ⟨0x55⟩ [0xff, 0x00] ↔ [0xff, 0x00] ≠ ([] : List Byte) :=
  roundTrip_iff ⟨0x55⟩ (by decide)

/-- The empty payload: five bytes, the last of which is written, and the decoder
still waits for data. -/
theorem empty_not_read_back :
    ¬ RoundTrip ⟨0⟩ [] ∧ encode ⟨0⟩ [] = [0xff, 0, 0, 0, 0] ∧
      feed decode initDecoder [0xff, 0, 0, 0, 0]
        = ([⟨0, C_LEN0, []⟩, ⟨0, C_LEN1, []⟩, ⟨0, C_PAR0, []⟩, ⟨0, C_DATA, []⟩,
            ⟨0, C_DATA, [0]⟩], ⟨C_DATA, 0, 0, 1⟩) :=
  ⟨fun h => absurd h.2.2 (by decide), by decide, by decide⟩

end Dan64
