/-
Dan64/TapeSignal.lean

From the samples back to the bytes.

The encoder turns the level over after every half pulse, also where a byte or a
section ends, so the signal of a frame is a sequence of blocks of samples with one
sign, one for each bit and two to close the last one (`encode_eq_blocks`), and its
maximal runs are the blocks (`runs_encode`).  With the fractions cut off the blocks
are still on the right side of the threshold of the pin change interrupt, at both
sample rates and with ten ticks of jitter (`long_iff`).  Eight edges are a byte,
least significant bit first (`feed_bits`), so that the interrupt stores the frame.
-/
import Dan64.AudioIn
import Dan64.Tape
import Mathlib.Data.List.SplitBy

namespace Dan64

open Mealy

namespace Signal

/-! ### Blocks -/

/-- `half_pulse` turns the level over. -/
def turn (level : ℤ) : ℤ := if level > 0 then -1 else 1

variable (avr : Bool)

/-- The samples of every half pulse. -/
def blocks (volume : Word) : ℤ → List Bool → List (List Word)
  | _, [] => []
  | level, bit :: bs =>
    List.replicate (freqs avr bit) (BitVec.ofInt 16 (volume.toInt * level)) ::
      blocks volume (turn level) bs

theorem feed_halfPulse (enc : Encoder) (bs : List Bool) :
    feed (halfPulse avr) enc bs
      = (blocks avr enc.volume enc.level bs, { enc with level := turn^[bs.length] enc.level }) := by
  induction bs generalizing enc with
  | nil => rfl
  | cons bit bs ih =>
    rw [feed_cons, ih]
    rfl

theorem blocks_append (volume : Word) (level : ℤ) (as bs : List Bool) :
    blocks avr volume level (as ++ bs)
      = blocks avr volume level as ++ blocks avr volume (turn^[as.length] level) bs := by
  induction as generalizing level with
  | nil => rfl
  | cons a as ih =>
    rw [List.cons_append, blocks, ih]
    rfl

@[simp] theorem length_bits (byte : Byte) : (bits byte).length = 8 := by
  rw [bits, List.length_map, List.length_range]

/-- A byte leaves the level where it was. -/
theorem blocks_byte (volume : Word) (byte : Byte) (bs : List Bool) :
    blocks avr volume 1 (bits byte ++ bs)
      = blocks avr volume 1 (bits byte) ++ blocks avr volume 1 bs := by
  rw [blocks_append, length_bits]
  rfl

theorem blocks_bytes (volume : Word) (bytes : List Byte) (bs : List Bool) :
    blocks avr volume 1 (bytes.flatMap bits ++ bs)
      = blocks avr volume 1 (bytes.flatMap bits) ++ blocks avr volume 1 bs := by
  induction bytes with
  | nil => rfl
  | cons byte bytes ih =>
    rw [List.flatMap_cons, List.append_assoc, blocks_byte, blocks_byte, ih, List.append_assoc]

theorem encodeByte'_eq (volume : Word) (parity byte : Byte) :
    encodeByte' avr ⟨volume, parity, 1⟩ byte
      = ((blocks avr volume 1 (bits byte)).flatten, ⟨volume, parity, 1⟩) := by
  rw [encodeByte', feed_halfPulse, length_bits]
  rfl

theorem encodeByte_eq (volume : Word) (parity byte : Byte) :
    encodeByte avr ⟨volume, parity, 1⟩ byte
      = ((blocks avr volume 1 (bits byte)).flatten, ⟨volume, parity ^^^ byte, 1⟩) := by
  rw [encodeByte, encodeByte'_eq]

theorem feed_encodeByte_eq (volume : Word) (parity : Byte) (bytes : List Byte) :
    (feed (encodeByte avr) ⟨volume, parity, 1⟩ bytes).1.flatten
        = (blocks avr volume 1 (bytes.flatMap bits)).flatten ∧
      (feed (encodeByte avr) ⟨volume, parity, 1⟩ bytes).2
        = ⟨volume, bytes.foldl (· ^^^ ·) parity, 1⟩ := by
  induction bytes generalizing parity with
  | nil => exact ⟨rfl, rfl⟩
  | cons byte bytes ih =>
    obtain ⟨hdata, henc⟩ := ih (parity ^^^ byte)
    rw [feed_cons, encodeByte_eq]
    refine ⟨?_, henc⟩
    rw [List.flatten_cons, hdata, List.flatMap_cons, blocks_byte, List.flatten_append]

/-- The level of the sync, and its half pulses. -/
def syncLevel : ℤ := if avr then -1 else 1

def syncBits : List Bool := if avr then [true] else [true, true]

theorem encodeSync_eq (enc : Encoder) :
    encodeSync avr enc
      = ((blocks avr enc.volume (syncLevel avr) (syncBits avr)).flatten, ⟨enc.volume, 0, 1⟩) := by
  cases avr
  · simp [encodeSync, halfPulse, blocks, syncLevel, syncBits, turn]
  · simp [encodeSync, halfPulse, blocks, syncLevel, syncBits]

theorem encodeEnd_eq (volume : Word) (parity : Byte) :
    encodeEnd avr ⟨volume, parity, 1⟩
      = (blocks avr volume 1 (bits parity ++ [false, false])).flatten := by
  rw [encodeEnd, encodeByte'_eq, blocks_byte, List.flatten_append]
  simp [halfPulse, blocks, turn]

/-- The bits of a signal: the sync, those of the bytes, and two to close the last one. -/
def tapeBits (bytes : List Byte) : List Bool := syncBits avr ++ bytes.flatMap bits ++ [false, false]

theorem blocks_tapeBits (volume : Word) (bytes : List Byte) :
    blocks avr volume (syncLevel avr) (tapeBits avr bytes)
      = blocks avr volume (syncLevel avr) (syncBits avr) ++
        (blocks avr volume 1 (bytes.flatMap bits) ++ blocks avr volume 1 [false, false]) := by
  have hsync : turn^[(syncBits avr).length] (syncLevel avr) = 1 := by
    cases avr
    · rfl
    · rfl
  rw [tapeBits, List.append_assoc, blocks_append, hsync, blocks_bytes]

/-- **The signal of a payload is the signal of its frame**, the encoder of bytes bit by
bit. -/
theorem encode_eq_blocks (enc : Encoder) (payload : List Byte) :
    encode avr enc payload
      = (blocks avr enc.volume (syncLevel avr) (tapeBits avr (frame payload))).flatten := by
  obtain ⟨hbytes, hparity⟩ := feed_encodeByte ⟨0⟩ payload
  obtain ⟨hdata, henc⟩ := feed_encodeByte_eq avr enc.volume 0 payload
  simp only [encode, encodeHeader, encodeSync_eq, encodeByte'_eq, encodeByte_eq, hdata, henc,
    encodeEnd_eq, blocks_tapeBits, ← encode_eq ⟨0⟩ payload, Dan64.encode, Dan64.encodeHeader,
    Dan64.encodeByte, Dan64.encodeEnd, hbytes, hparity]
  simp only [List.flatMap_append, List.flatMap_cons, List.flatMap_nil, blocks_bytes, blocks_byte,
    List.append_nil, List.cons_append, List.nil_append, List.append_assoc, List.flatten_append]

/-! ### Runs -/

/-- Two samples are on the same side. -/
def sameSign (a b : Word) : Bool := a.toInt.sign == b.toInt.sign

/-- How many samples there are from edge to edge. -/
def runs (samples : List Word) : List ℕ := (samples.splitBy sameSign).map List.length

theorem freqs_pos (bit : Bool) : 0 < freqs avr bit := by
  cases avr <;> cases bit <;> decide

theorem sign_sample {volume : Word} (hvolume : 0 < volume.toInt) {level : ℤ}
    (hlevel : level = 1 ∨ level = -1) :
    (BitVec.ofInt 16 (volume.toInt * level)).toInt.sign = level := by
  have hlt : 2 * volume.toInt < 2 ^ 16 := BitVec.two_mul_toInt_lt
  rcases hlevel with rfl | rfl
  · rw [mul_one, BitVec.ofInt_toInt]
    exact Int.sign_eq_one_of_pos hvolume
  · rw [BitVec.toInt_ofInt_eq_self (by decide) (by omega) (by omega)]
    exact Int.sign_eq_neg_one_of_neg (by omega)

theorem turn_level {level : ℤ} (hlevel : level = 1 ∨ level = -1) :
    turn level = -level ∧ (turn level = 1 ∨ turn level = -1) := by
  rcases hlevel with rfl | rfl
  · exact ⟨rfl, .inr rfl⟩
  · exact ⟨rfl, .inl rfl⟩

theorem mem_blocks {volume : Word} {level : ℤ} {bs : List Bool} {block : List Word}
    (h : block ∈ blocks avr volume level bs) :
    ∃ bit sample, block = List.replicate (freqs avr bit) sample := by
  induction bs generalizing level with
  | nil => exact absurd h List.not_mem_nil
  | cons bit bs ih =>
    rcases List.mem_cons.mp h with rfl | h
    · exact ⟨bit, _, rfl⟩
    · exact ih h

/-- The next block begins on the other side. -/
theorem blocks_alternate {volume : Word} (hvolume : 0 < volume.toInt) {level : ℤ}
    (hlevel : level = 1 ∨ level = -1) (bs : List Bool) :
    (blocks avr volume level bs).IsChain
      fun as bs => ∃ ha hb, sameSign (as.getLast ha) (bs.head hb) = false := by
  induction bs generalizing level with
  | nil => exact .nil
  | cons bit bs ih =>
    obtain ⟨hturn, hturn'⟩ := turn_level hlevel
    rw [blocks, List.isChain_cons]
    refine ⟨?_, ih hturn'⟩
    rcases bs with - | ⟨bit', bs⟩
    · exact nofun
    · rintro _ ⟨⟩
      have hne : ∀ (b : Bool) (w : Word), List.replicate (freqs avr b) w ≠ [] := by
        intro b w
        rw [Ne, List.replicate_eq_nil_iff]
        exact (freqs_pos avr b).ne'
      -- the last sample of a block and the first of the next
      refine ⟨hne bit _, hne bit' _, ?_⟩
      rw [List.getLast_replicate, List.head_replicate, sameSign, sign_sample hvolume hlevel,
        sign_sample hvolume hturn', hturn]
      rcases hlevel with rfl | rfl
      · rfl
      · rfl

/-- The blocks are the maximal runs. -/
theorem splitBy_blocks {volume : Word} (hvolume : 0 < volume.toInt) {level : ℤ}
    (hlevel : level = 1 ∨ level = -1) (bs : List Bool) :
    (blocks avr volume level bs).flatten.splitBy sameSign = blocks avr volume level bs := by
  apply List.splitBy_flatten
  · intro hnil
    obtain ⟨bit, sample, heq⟩ := mem_blocks avr hnil
    exact (freqs_pos avr bit).ne' (List.replicate_eq_nil_iff _ |>.mp heq.symm)
  · intro block hblock
    obtain ⟨bit, sample, rfl⟩ := mem_blocks avr hblock
    apply List.isChain_replicate_of_rel
    exact beq_self_eq_true _
  · exact blocks_alternate avr hvolume hlevel bs

theorem length_blocks (volume : Word) (level : ℤ) (bs : List Bool) :
    (blocks avr volume level bs).map List.length = bs.map (freqs avr) := by
  induction bs generalizing level with
  | nil => rfl
  | cons bit bs ih => rw [blocks, List.map_cons, List.map_cons, ih, List.length_replicate]

/-- **Edge to edge there is one half pulse.** -/
theorem runs_encode {enc : Encoder} (hvolume : 0 < enc.volume.toInt) (payload : List Byte) :
    runs (encode avr enc payload) = (tapeBits avr (frame payload)).map (freqs avr) := by
  have hlevel : syncLevel avr = 1 ∨ syncLevel avr = -1 := by
    cases avr
    · exact .inl rfl
    · exact .inr rfl
  rw [runs, encode_eq_blocks, splitBy_blocks avr hvolume hlevel, length_blocks]

/-! ### Timing -/

/-- The time of some samples in ticks of timer 2, of which there are 62500 a second, at
most ten off; less than eleven with the rounding to whole ticks. -/
def Jitter (samples : ℕ) (ticks : Byte) : Prop :=
  |(ticks.toNat * SAMPLERATE avr : ℤ) - samples * 62500| < 11 * SAMPLERATE avr

instance (samples : ℕ) (ticks : Byte) : Decidable (Jitter avr samples ticks) :=
  inferInstanceAs (Decidable (_ < _))

theorem long_iff_le {ticks : Byte} : AudioIn.Long ticks ↔ 39 ≤ ticks.toNat := by
  rw [AudioIn.Long, SHORT_PULSE]
  omega

/-- The margins: a long half pulse has 49 ticks at least, a short one 28 at most. -/
theorem margins : 49 * SAMPLERATE avr ≤ freqs avr false * 62500 ∧
    freqs avr true * 62500 ≤ 28 * SAMPLERATE avr := by
  cases avr <;> decide

/-- A half pulse is measured as long if it was sent for 0. -/
theorem long_iff {bit : Bool} {ticks : Byte} (h : Jitter avr (freqs avr bit) ticks) :
    AudioIn.Long ticks ↔ bit = false := by
  obtain ⟨hlow, hhigh⟩ := abs_lt.mp h
  obtain ⟨hlong, hshort⟩ := margins avr
  rw [long_iff_le]
  cases bit
  · refine iff_of_true ?_ rfl
    -- a long half pulse measures more than 49 - 11 ticks
    have hlt : 38 * SAMPLERATE avr < ticks.toNat * SAMPLERATE avr := by omega
    exact Nat.lt_of_mul_lt_mul_right hlt
  · refine iff_of_false ?_ Bool.noConfusion
    -- and a short one less than 28 + 11
    have hlt : ticks.toNat * SAMPLERATE avr < 39 * SAMPLERATE avr := by omega
    exact (Nat.lt_of_mul_lt_mul_right hlt).not_ge

theorem map_long {bs : List Bool} {ticks : List Byte}
    (h : List.Forall₂ (Jitter avr) (bs.map (freqs avr)) ticks) :
    ticks.map (fun t => decide (AudioIn.Long t)) = bs.map not := by
  induction bs generalizing ticks with
  | nil =>
    cases h
    rfl
  | cons bit bs ih =>
    rw [List.map_cons, List.forall₂_cons_left_iff] at h
    obtain ⟨t, ts, ht, hts, rfl⟩ := h
    rw [List.map_cons, List.map_cons, ih hts]
    congr 1
    rw [decide_eq_decide.mpr (long_iff avr ht)]
    cases bit <;> rfl

end Signal

/-! ### Bytes -/

namespace AudioIn

open Signal

/-- `Capture.edge`, with the bit that the edge is taken for. -/
def Capture.push (c : Capture) (long : Bool) : Option Byte × Capture :=
  if c.sync < 4 then (none, ⟨c.sync + 1, 0, 0⟩)
  else
    let byte := if long then c.byte ||| 1#8 <<< c.bit else c.byte
    if c.bit + 1 = 8 then (some byte, { c with bit := 0, byte := 0 })
    else (none, { c with bit := c.bit + 1, byte })

theorem feed_edge (c : Capture) (ticks : List Byte) :
    feed Capture.edge c ticks = feed Capture.push c (ticks.map fun t => decide (Long t)) := by
  induction ticks generalizing c with
  | nil => rfl
  | cons t ticks ih =>
    have hedge : c.edge t = c.push (decide (Long t)) := by simp [Capture.edge, Capture.push]
    rw [List.map_cons, feed_cons, feed_cons, ih, hedge]

/-- **Eight edges are a byte**, least significant bit first. -/
theorem feed_bits : ∀ byte : Byte, feed Capture.push ⟨4, 0, 0⟩ ((bits byte).map not)
    = (List.replicate 7 none ++ [some byte], ⟨4, 0, 0⟩) := by
  decide +kernel

theorem feed_bytes (bytes : List Byte) :
    (feed Capture.push ⟨4, 0, 0⟩ ((bytes.flatMap bits).map not)).1.reduceOption = bytes ∧
      (feed Capture.push ⟨4, 0, 0⟩ ((bytes.flatMap bits).map not)).2 = ⟨4, 0, 0⟩ := by
  induction bytes with
  | nil => exact ⟨rfl, rfl⟩
  | cons byte bytes ih =>
    obtain ⟨hbytes, hcapture⟩ := ih
    rw [List.flatMap_cons, List.map_append, feed_append, feed_bits]
    refine ⟨?_, hcapture⟩
    rw [List.reduceOption_append, hbytes]
    rfl

/-- The bits of some bytes, and the edges of the closing pulses, which complete nothing. -/
theorem feed_closed {bytes : List Byte} {closing : List Bool}
    (hclosing : closing = [false, false] ∨ closing = [false]) {ticks : List Byte}
    (hlong : (ticks.map fun t => decide (Long t)) = (bytes.flatMap bits ++ closing).map not) :
    (feed Capture.edge ⟨4, 0, 0⟩ ticks).1.reduceOption = bytes := by
  obtain ⟨hbytes, hcapture⟩ := feed_bytes bytes
  have hclosed : (feed Capture.push ⟨4, 0, 0⟩ (closing.map not)).1.reduceOption = [] := by
    rcases hclosing with rfl | rfl
    · rfl
    · rfl
  rw [feed_edge, hlong, List.map_append, feed_append, hcapture, List.reduceOption_append, hbytes,
    hclosed, List.append_nil]

/-- Four edges are discarded, whatever they measure. -/
theorem feed_sync (c : Capture) (hsync : c.sync = 0) {first : List Byte}
    (hfirst : first.length = 4) :
    (feed Capture.edge c first).1.reduceOption = [] ∧
      (feed Capture.edge c first).2 = ⟨4, 0, 0⟩ := by
  obtain ⟨a, b, d, e, rfl⟩ := List.length_eq_four.mp hfirst
  obtain ⟨sync, bit, byte⟩ := c
  obtain rfl : sync = 0 := hsync
  exact ⟨rfl, rfl⟩

/-- The runs behind the sync. -/
theorem runs_drop_sync (avr : Bool) {enc : Signal.Encoder} (hvolume : 0 < enc.volume.toInt)
    (payload : List Byte) :
    (runs (Signal.encode avr enc payload)).drop (syncBits avr).length
      = ((frame payload).flatMap bits ++ [false, false]).map (freqs avr) := by
  rw [runs_encode avr hvolume, tapeBits, List.append_assoc, List.map_append,
    ← List.length_map (freqs avr), List.drop_left]

/-- **The round trip at signal level**: the edges of a frame, each with its jitter, in
any interleaving with the reader; the end of the signal may be an edge or not.  The
handler stores the frame, and the decoder accepts it and passes on the payload. -/
theorem round_trip (avr : Bool) {enc : Signal.Encoder} (hvolume : 0 < enc.volume.toInt)
    {payload : List Byte} (hne : payload ≠ []) (hlen : payload.length ≤ 65535)
    (ring : RingBuf Byte 32) (bit : ℕ) (byte : Byte) {first ticks : List Byte}
    (hfirst : first.length = 4)
    (hticks : List.Forall₂ (Jitter avr)
      ((runs (Signal.encode avr enc payload)).drop (syncBits avr).length) ticks)
    {events : List Event}
    (hheard : heard (ainOn ring bit byte) events = first ++ ticks ∨
      heard (ainOn ring bit byte) events = first ++ ticks.dropLast)
    (hspace : Along step (fun s event => behind (step s event) ≤ 31) (ainOn ring bit byte) events) :
    let s := run (ainOn ring bit byte) events
    s.received = frame payload ∧ s.returned ++ s.ring.contents = frame payload ∧
      (drive initDecoder (s.returned ++ s.ring.contents)).1 = payload ∧
      (drive initDecoder (s.returned ++ s.ring.contents)).2.control = C_END := by
  intro s
  rw [runs_drop_sync avr hvolume] at hticks
  have hlong := map_long avr hticks
  -- the edge at the end of the signal completes nothing
  have hbytes : ∀ pulses, pulses = ticks ∨ pulses = ticks.dropLast →
      (feed Capture.edge ⟨4, 0, 0⟩ pulses).1.reduceOption = frame payload := by
    rintro pulses (rfl | rfl)
    · exact feed_closed (.inl rfl) hlong
    · apply feed_closed (.inr rfl)
      rw [List.map_dropLast, hlong, ← List.map_dropLast, List.dropLast_append_cons]
      rfl
  have hreceived : s.received = frame payload := by
    obtain ⟨pulses, hpulses, hheard⟩ : ∃ pulses, (pulses = ticks ∨ pulses = ticks.dropLast) ∧
        heard (ainOn ring bit byte) events = first ++ pulses := by
      rcases hheard with hheard | hheard
      · exact ⟨_, .inl rfl, hheard⟩
      · exact ⟨_, .inr rfl, hheard⟩
    obtain ⟨hfirst', hcapture⟩ := feed_sync ⟨0, bit, byte⟩ rfl hfirst
    have hrun := run_received (ainOn ring bit byte) events
    rw [hheard, feed_append, List.reduceOption_append] at hrun
    show (run (ainOn ring bit byte) events).received = _
    rw [hrun]
    show [] ++ ((feed Capture.edge ⟨0, bit, byte⟩ first).1.reduceOption ++
      (feed Capture.edge (feed Capture.edge ⟨0, bit, byte⟩ first).2 pulses).1.reduceOption) = _
    rw [hfirst', hcapture, hbytes pulses hpulses]
    rfl
  have hlossless : s.returned ++ s.ring.contents = s.received :=
    lossless_run (fresh_ainOn ring bit byte) (RingBuf.contents_clear ring) hspace
  rw [hlossless, hreceived]
  have hdrive := drive_frame hne (hlen.trans (by decide)) []
  rw [List.append_nil] at hdrive
  exact ⟨rfl, rfl, hdrive⟩

/-- One byte at 44100 samples per second, the long half pulses measured too short and the
short ones too long, and a reader that takes the first byte at the end. -/
theorem round_trip_one :
    let ticks : List Byte := ((frame [0x41]).flatMap bits ++ [false, false]).map
      fun bit => if bit then 31 else 42
    let events : List Event := ([7, 200, 0, 90] ++ ticks).map .edge ++
      [.reader ⟨[], by decide⟩, .reader ⟨[], by decide⟩, .reader ⟨[], by decide⟩]
    let s := run (ainOn ⟨fun _ => 0, 5, 9, by decide, by decide⟩ 3 0x55) events
    s.received = frame [0x41] ∧ s.returned ++ s.ring.contents = frame [0x41] ∧
      (drive initDecoder (s.returned ++ s.ring.contents)).1 = [0x41] ∧
      (drive initDecoder (s.returned ++ s.ring.contents)).2.control = C_END := by
  intro ticks events
  have hticks : List.Forall₂ (Jitter false)
      ((runs (Signal.encode false ⟨16000, 0, 0⟩ [0x41])).drop (syncBits false).length) ticks := by
    rw [runs_drop_sync false (by decide), List.forall₂_map_left_iff, List.forall₂_map_right_iff,
      List.forall₂_same]
    rintro bit -
    cases bit <;> decide
  exact round_trip false (by decide) (List.cons_ne_nil 0x41 []) (by decide) _ 3 0x55
    (rfl : ([7, 200, 0, 90] : List Byte).length = 4) hticks (.inl (by decide +kernel))
    (by decide +kernel)

end AudioIn

end Dan64
