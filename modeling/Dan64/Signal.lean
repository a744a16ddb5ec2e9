/-
Dan64/Signal.lean

The signal of the tape: the encoder of `storage/storage.c` down to its samples.

`half_pulse` writes half a period of a square wave, long for 0 and short for 1, and
turns the level over; the bits of a byte are sent complemented, so that a 1 is
long.  There are two builds: the AVR plays 15625 samples per second, the tools
write 44100 and start with a half pulse more.
-/
import Dan64.Storage

namespace Dan64

open Mealy

namespace Signal

/-! ### Pulses -/

def SAMPLERATE (avr : Bool) : ℕ := if avr then 15625 else 44100

abbrev LONG_PULSE : ℕ := 1200

/-- `LONG_PULSE * 2.3` -/
abbrev SHORT_PULSE : ℕ := 2760

/-- `_freqs`: how many samples half a pulse has; the fractions are cut off. -/
def freqs (avr : Bool) (bit : Bool) : ℕ :=
  if bit then SAMPLERATE avr / SHORT_PULSE else SAMPLERATE avr / LONG_PULSE

/-- `struct encoder_struct`, without the callback. -/
structure Encoder where
  volume : Word
  parity : Byte
  level : ℤ

/-! ### The encoder -/

variable (avr : Bool)

/-- `half_pulse`: the samples, and the level turned over. -/
def halfPulse (enc : Encoder) (bit : Bool) : List Word × Encoder :=
  (List.replicate (freqs avr bit) (BitVec.ofInt 16 (enc.volume.toInt * enc.level)),
    { enc with level := if enc.level > 0 then -1 else 1 })

/-- The bits of a byte as `_encode_byte` shifts them out. -/
def bits (byte : Byte) : List Bool := (List.range 8).map fun bit => !byte.getLsbD bit

/-- `_encode_byte` -/
def encodeByte' (enc : Encoder) (byte : Byte) : List Word × Encoder :=
  let (samples, enc) := feed (halfPulse avr) enc (bits byte)
  (samples.flatten, enc)

/-- `encode_byte` -/
def encodeByte (enc : Encoder) (byte : Byte) : List Word × Encoder :=
  let (samples, enc) := encodeByte' avr enc byte
  (samples, { enc with parity := enc.parity ^^^ byte })

/-- `encode_header` up to the magic number: the level, and the sync. -/
def encodeSync (enc : Encoder) : List Word × Encoder :=
  let enc := { enc with parity := 0 }
  if avr then halfPulse avr { enc with level := -1 } true
  else
    let (start, enc) := halfPulse avr { enc with level := 1 } true
    let (sync, enc) := halfPulse avr enc true
    (start ++ sync, enc)

/-- `encode_header` -/
def encodeHeader (enc : Encoder) (length : Word) : List Word × Encoder :=
  let (sync, enc) := encodeSync avr enc
  let (magic, enc) := encodeByte' avr enc 0xff
  let (h, enc) := encodeByte avr enc ((length >>> 8).setWidth 8)
  let (l, enc) := encodeByte avr enc ((length &&& 0xff#16).setWidth 8)
  let (parity, enc) := encodeByte' avr enc enc.parity
  (sync ++ magic ++ h ++ l ++ parity, { enc with parity := 0 })

/-- `encode_end`: the parity, and a pulse to close the last half pulse. -/
def encodeEnd (enc : Encoder) : List Word :=
  let (parity, enc) := encodeByte' avr enc enc.parity
  let (high, enc) := halfPulse avr enc false
  let (low, _) := halfPulse avr { enc with level := -1 } false
  parity ++ high ++ low

/-- A payload as `save` and the tools encode it. -/
def encode (enc : Encoder) (payload : List Byte) : List Word :=
  let (header, enc) := encodeHeader avr enc (BitVec.ofNat 16 payload.length)
  let (data, enc) := feed (encodeByte avr) enc payload
  header ++ data.flatten ++ encodeEnd avr enc

end Signal

end Dan64
