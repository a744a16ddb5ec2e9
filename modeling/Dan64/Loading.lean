/-
Dan64/Loading.lean

`load` as it runs: the prompt, the loop that polls for bytes, its timeout, and the
messages.

The interrupt assembles bytes while the loop runs, so a step is one of the loop's or an
edge, as in the queue it reads from.  The loop is done after so many of its own steps,
whatever arrives (`loading_ends`): the timeout bounds the steps for a byte, and the
header the number of bytes.  What it has done by then is what `Session.load` does with
the bytes that `ain_get` returned (`load_returns`).
-/
import Dan64.Syscall
import Dan64.TapeSignal

namespace Dan64

open Mealy CText

namespace Loading

open AudioIn

/-! ### The loop -/

def LOAD_TIMEOUT : ℕ := 0x1fffff

/-- The ways out of the loop. -/
inductive End
  | time
  | io
  | ready
  deriving DecidableEq

structure State where
  audio : AudioIn.State
  timeout : ℕ
  dec : Decoder
  /-- the memory, and `addr` -/
  memory : Session × Word
  /-- nothing while the loop goes on -/
  result : Option End

/-- `load` behind `ain_on`. -/
def start (s : Session) (destAddr : Word) (ring : RingBuf Byte 32) (bit : ℕ) (byte : Byte) :
    State :=
  ⟨ainOn ring bit byte, LOAD_TIMEOUT, initDecoder, (s, destAddr), none⟩

/-- The loop behind `ain_get`. -/
def decodeByte (s : State) (byte : Byte) : State :=
  let (o, dec) := decode s.dec byte
  { s with
    dec := dec
    memory := o.written.foldl Session.loadDataWrite s.memory
    result :=
      if o.ret ≠ 0 then some .io else if dec.control = C_END then some .ready else none }

/-- A step of the loop; edges may come between the two loads of a test. -/
def reader (s : State) (between : Between) : State :=
  let audio := AudioIn.reader s.audio between
  match s.audio.stage, audio.stage with
  -- `while (!ain_ready() && timeout)`: a byte that comes with the timeout is too late
  | .poll, .poll =>
    if s.timeout = 0 then { s with audio, result := some .time }
    else { s with audio, timeout := s.timeout - 1 }
  | .poll, _ =>
    if s.timeout = 0 then { s with audio, result := some .time }
    else { s with audio, timeout := LOAD_TIMEOUT }
  | .get, .take => { s with audio }
  -- `ain_get` finds nothing
  | .get, _ => decodeByte { s with audio } 0
  | .take, _ => decodeByte { s with audio } s.audio.ring.head

/-- A step; what comes behind the loop, `ain_on` discards before the next. -/
def step (s : State) (event : Event) : State :=
  if s.result = none then
    match event with
    | .edge pulseLength => { s with audio := pcint1 s.audio pulseLength }
    | .reader between => reader s between
  else s

/-- A run. -/
def run (s : State) (events : List Event) : State := events.foldl step s

/-- The queue in a step of the loop, and the byte that `ain_get` returned. -/
theorem audio_reader (a : AudioIn.State) (between : Between) :
    a.stage = .poll ∧ (AudioIn.reader a between).returned = a.returned ∧
        ((AudioIn.reader a between).stage = .poll ∨ (AudioIn.reader a between).stage = .get) ∨
      a.stage = .get ∧ (AudioIn.reader a between).returned = a.returned ∧
        (AudioIn.reader a between).stage = .take ∨
      a.stage = .get ∧ (AudioIn.reader a between).returned = a.returned ++ [0] ∧
        (AudioIn.reader a between).stage = .poll ∨
      a.stage = .take ∧ (AudioIn.reader a between).returned = a.returned ++ [a.ring.head] ∧
        (AudioIn.reader a between).stage = .poll := by
  obtain ⟨hreturned, -⟩ := frame_edges a between.1
  rcases hstage : a.stage with - | - | -
  · refine .inl ⟨rfl, ?_⟩
    rcases hready : (ainReady a between).1 with - | -
    · simp only [AudioIn.reader, hstage, hready]
      exact ⟨hreturned, .inl rfl⟩
    · simp only [AudioIn.reader, hstage, hready]
      exact ⟨hreturned, .inr rfl⟩
  · rcases hready : (ainReady a between).1 with - | -
    · refine .inr (.inr (.inl ⟨rfl, ?_⟩))
      simp only [AudioIn.reader, hstage, hready]
      exact ⟨congrArg (· ++ [0]) hreturned, rfl⟩
    · refine .inr (.inl ⟨rfl, ?_⟩)
      simp only [AudioIn.reader, hstage, hready]
      exact ⟨hreturned, rfl⟩
  · refine .inr (.inr (.inr ⟨rfl, ?_⟩))
    rw [AudioIn.reader, hstage]
    exact ⟨rfl, rfl⟩

/-- The ways a step of the loop goes. -/
theorem reader_cases (s : State) (between : Between) :
    let audio := AudioIn.reader s.audio between
    (audio.returned = s.audio.returned ∧ s.audio.stage = .poll ∧
      (reader s between = { s with audio, result := some .time } ∨
        audio.stage = .poll ∧ 0 < s.timeout ∧
          reader s between = { s with audio, timeout := s.timeout - 1 } ∨
        audio.stage = .get ∧ reader s between = { s with audio, timeout := LOAD_TIMEOUT })) ∨
    (audio.returned = s.audio.returned ∧ s.audio.stage = .get ∧ audio.stage = .take ∧
      reader s between = { s with audio }) ∨
    (s.audio.stage ≠ .poll ∧ audio.stage = .poll ∧ ∃ byte,
      audio.returned = s.audio.returned ++ [byte] ∧
        reader s between = decodeByte { s with audio } byte) := by
  intro audio
  rcases audio_reader s.audio between with
    ⟨hold, hreturned, hnew⟩ | ⟨hold, hreturned, hnew⟩ | ⟨hold, hreturned, hnew⟩ |
    ⟨hold, hreturned, hnew⟩
  · refine .inl ⟨hreturned, hold, ?_⟩
    by_cases htime : s.timeout = 0
    · left
      rcases hnew with hnew | hnew <;> simp only [reader, hold, hnew, if_pos htime] <;> rfl
    · rcases hnew with hnew | hnew <;> simp only [reader, hold, hnew, if_neg htime]
      · exact .inr (.inl ⟨hnew, Nat.pos_of_ne_zero htime, rfl⟩)
      · exact .inr (.inr ⟨hnew, rfl⟩)
  · refine .inr (.inl ⟨hreturned, hold, hnew, ?_⟩)
    simp only [reader, hold, hnew]
    rfl
  · refine .inr (.inr ⟨?_, hnew, 0, hreturned, ?_⟩)
    · rw [hold]
      exact Stage.noConfusion
    · simp only [reader, hold, hnew]
      rfl
  · refine .inr (.inr ⟨?_, hnew, _, hreturned, ?_⟩)
    · rw [hold]
      exact Stage.noConfusion
    · simp only [reader, hold]
      rfl

end Loading

/-! ### The decoder's rank -/

namespace Decoder

/-- It waits for a byte. -/
def Reads (dec : Decoder) : Prop := C_MAGIC ≤ dec.control ∧ dec.control < C_END

/-- How many bytes it takes at most. -/
def left (dec : Decoder) : ℕ :=
  if dec.control = C_PAR1 then 1
  else if dec.control = C_DATA then remaining dec.length dec.count + 1
  else (65542 - dec.control).toNat

theorem left_pos {dec : Decoder} (h : dec.Reads) : 0 < dec.left := by
  have hhigh : dec.control < 7 := h.2
  rw [left]
  split_ifs <;> omega

theorem left_initDecoder : initDecoder.left = 65541 := by decide

theorem remaining_le (n k : Word) : remaining n k ≤ 65536 := (n - k - 1).isLt

/-- The data counter is on its way to the length. -/
theorem left_data (n k : Word) (p : Byte) :
    (if k + 1 = n then (⟨C_PAR1, n, p, k + 1⟩ : Decoder) else ⟨C_DATA, n, p, k + 1⟩).left + 1
      ≤ remaining n k + 1 := by
  by_cases hlast : k + 1 = n
  · rw [if_pos hlast, (add_one_eq_iff n k).mp hlast]
    exact le_rfl
  · rw [if_neg hlast, ← remaining_add_one hlast]
    exact le_rfl

/-- A byte is refused, or is the last one, or is one less to come. -/
def Takes (dec : Decoder) (r : Decoded × Decoder) : Prop :=
  (r.1.ret ≠ 0 ∧ r.2.control < 0) ∨ (r.1.ret = 0 ∧ r.2.control = C_END) ∨
    (r.1.ret = 0 ∧ r.2.control ≠ C_END ∧ r.2.Reads ∧ r.2.left + 1 ≤ dec.left)

theorem takes_ok {dec dec' : Decoder} (hlow : C_MAGIC ≤ dec'.control) (hhigh : dec'.control < C_END)
    (hleft : dec'.left + 1 ≤ dec.left) (written : List Byte) : dec.Takes (dec'.ok written) :=
  .inr (.inr ⟨rfl, hhigh.ne, ⟨hlow, hhigh⟩, hleft⟩)

theorem takes_fail {dec dec' : Decoder} (hlow : C_MAGIC ≤ dec'.control) : dec.Takes dec'.fail := by
  have hpos : 1 ≤ dec'.control := hlow
  have hneg : dec'.control * -1 < 0 := by omega
  exact .inl ⟨hneg.ne, hneg⟩

theorem takes_decode {dec : Decoder} (h : dec.Reads) (byte : Byte) :
    dec.Takes (decode dec byte) := by
  obtain ⟨control, length, parity, count⟩ := dec
  obtain ⟨hlow, hhigh⟩ : 1 ≤ control ∧ control < 7 := h
  obtain rfl | rfl | rfl | rfl | rfl | rfl :
      control = C_MAGIC ∨ control = C_LEN0 ∨ control = C_LEN1 ∨ control = C_PAR0 ∨
        control = C_DATA ∨ control = C_PAR1 := by
    show control = 1 ∨ control = 2 ∨ control = 3 ∨ control = 4 ∨ control = 5 ∨ control = 6
    omega
  · rw [show decode _ _ = if byte ≠ 0xff then (⟨C_MAGIC, length, parity, count⟩ : Decoder).fail
      else (⟨C_LEN0, length, parity, count⟩ : Decoder).ok [] from rfl]
    split
    · exact takes_fail (by decide : C_MAGIC ≤ C_MAGIC)
    · exact takes_ok (by decide : C_MAGIC ≤ C_LEN0) (by decide : C_LEN0 < C_END) (le_refl 65541) []
  · exact takes_ok (by decide : C_MAGIC ≤ C_LEN1) (by decide : C_LEN1 < C_END) (le_refl 65540) []
  · exact takes_ok (by decide : C_MAGIC ≤ C_PAR0) (by decide : C_PAR0 < C_END) (le_refl 65539) []
  · rw [show decode _ _ = if byte ≠ parity then (⟨C_PAR0, length, parity, count⟩ : Decoder).fail
      else (⟨C_DATA, length, 0, count⟩ : Decoder).ok [] from rfl]
    split
    · exact takes_fail (by decide : C_MAGIC ≤ C_PAR0)
    · have hle := remaining_le length count
      have hleft : (⟨C_DATA, length, 0, count⟩ : Decoder).left + 1 ≤ 65538 :=
        Nat.succ_le_succ (Nat.succ_le_succ hle)
      exact takes_ok (by decide : C_MAGIC ≤ C_DATA) (by decide : C_DATA < C_END) hleft []
  · have hleft := left_data length count (parity ^^^ byte)
    rw [decode_data]
    split
    · next hlast =>
      rw [if_pos hlast] at hleft
      exact takes_ok (by decide : C_MAGIC ≤ C_PAR1) (by decide : C_PAR1 < C_END) hleft [byte]
    · next hlast =>
      rw [if_neg hlast] at hleft
      exact takes_ok (by decide : C_MAGIC ≤ C_DATA) (by decide : C_DATA < C_END) hleft [byte]
  · rw [show decode _ _ = if byte ≠ parity then (⟨C_PAR1, length, parity, count⟩ : Decoder).fail
      else (⟨C_END, length, parity, count⟩ : Decoder).ok [] from rfl]
    split
    · exact takes_fail (by decide : C_MAGIC ≤ C_PAR1)
    · exact .inr (.inl ⟨rfl, rfl⟩)

end Decoder

namespace Loading

open AudioIn

/-! ### The loop ends -/

/-- The decoder waits while the loop goes on. -/
structure Sound (s : State) : Prop where
  timeout : s.timeout ≤ LOAD_TIMEOUT
  reads : s.result = none ∨ s.result = some .time → s.dec.Reads

/-- How many steps the loop takes at most until `ain_get` returns. -/
def wait (s : State) : ℕ :=
  match s.audio.stage with
  | .poll => s.timeout + 3
  | .get => 2
  | .take => 1

/-- How many steps it takes at most. -/
def rank (s : State) : ℕ := (s.dec.left - 1) * (LOAD_TIMEOUT + 3) + wait s

theorem wait_pos (s : State) : 0 < wait s := by
  rw [wait]
  split <;> omega

theorem stage_pcint1 (a : AudioIn.State) (pulseLength : Byte) :
    (pcint1 a pulseLength).stage = a.stage := by
  rcases pcint1_cases a pulseLength with ⟨capture, heq⟩ | ⟨capture, byte, heq⟩ <;> rw [heq]

def isReader : Event → Bool
  | .edge _ => false
  | .reader _ => true

theorem decodeByte_cases {s : State} (h : s.dec.Reads) (byte : Byte) :
    (decodeByte s byte).result ≠ none ∧ (decodeByte s byte).result ≠ some .time ∨
      (decodeByte s byte).result = none ∧ (decodeByte s byte).dec.Reads ∧
        (decodeByte s byte).dec.left + 1 ≤ s.dec.left := by
  have hresult : (decodeByte s byte).result = if (decode s.dec byte).1.ret ≠ 0 then some .io
      else if (decode s.dec byte).2.control = C_END then some .ready else none := rfl
  rw [hresult]
  rcases Decoder.takes_decode h byte with ⟨hret, -⟩ | ⟨hret, hend⟩ | ⟨hret, hend, hgo⟩
  · rw [if_pos hret]
    exact .inl ⟨nofun, nofun⟩
  · rw [if_neg (not_not.mpr hret), if_pos hend]
    exact .inl ⟨nofun, nofun⟩
  · rw [if_neg (not_not.mpr hret), if_neg hend]
    exact .inr ⟨rfl, hgo⟩

/-- **Step.**  Every step of the loop is one less to come, unless it is the last. -/
theorem reader_rank {s : State} (h : Sound s) (hrun : s.result = none) (between : Between) :
    Sound (reader s between) ∧
      ((reader s between).result = none → rank (reader s between) + 1 ≤ rank s) := by
  have hreads := h.reads (.inl hrun)
  rcases reader_cases s between with ⟨-, hold, hnew⟩ | ⟨-, hold, hnew, heq⟩ |
    ⟨hold, hnew, byte, -, heq⟩
  · rcases hnew with heq | ⟨hnew, htime, heq⟩ | ⟨hnew, heq⟩ <;> rw [heq]
    · exact ⟨⟨h.timeout, fun _ => hreads⟩, nofun⟩
    · refine ⟨⟨(Nat.sub_le _ _).trans h.timeout, fun _ => hreads⟩, fun _ => ?_⟩
      simp only [rank, wait, hold, hnew]
      omega
    · refine ⟨⟨le_rfl, fun _ => hreads⟩, fun _ => ?_⟩
      simp only [rank, wait, hold, hnew]
      omega
  · rw [heq]
    refine ⟨⟨h.timeout, fun _ => hreads⟩, fun _ => ?_⟩
    simp only [rank, wait, hold, hnew]
    omega
  · rw [heq]
    have hcases := @decodeByte_cases { s with audio := AudioIn.reader s.audio between } hreads byte
    have htimeout : (decodeByte { s with audio := AudioIn.reader s.audio between } byte).timeout
        = s.timeout := rfl
    have hstage : (decodeByte { s with audio := AudioIn.reader s.audio between } byte).audio.stage
        = .poll := hnew
    generalize decodeByte { s with audio := AudioIn.reader s.audio between } byte = t at *
    rcases hcases with ⟨hended, hended'⟩ | ⟨-, hreads', hless⟩
    · refine ⟨⟨htimeout.trans_le h.timeout, ?_⟩, fun hnone => absurd hnone hended⟩
      rintro (hnone | htime)
      · exact absurd hnone hended
      · exact absurd htime hended'
    · refine ⟨⟨htimeout.trans_le h.timeout, fun _ => hreads'⟩, fun _ => ?_⟩
      -- a byte less makes up for the whole timeout
      have hpos := Decoder.left_pos hreads'
      have hwait : wait t ≤ LOAD_TIMEOUT + 3 := by
        rw [wait, hstage, htimeout]
        exact Nat.add_le_add_right h.timeout 3
      have hwait' := wait_pos s
      calc rank t + 1
          ≤ (t.dec.left - 1) * (LOAD_TIMEOUT + 3) + (LOAD_TIMEOUT + 3) + 1 := by
            rw [rank]
            omega
        _ = t.dec.left * (LOAD_TIMEOUT + 3) + 1 := by
            rw [← Nat.succ_mul, Nat.succ_eq_add_one, Nat.sub_add_cancel hpos]
        _ ≤ (s.dec.left - 1) * (LOAD_TIMEOUT + 3) + wait s :=
            Nat.add_le_add (Nat.mul_le_mul_right _ (Nat.le_sub_one_of_lt hless)) hwait'

theorem sound_start (s : Session) (destAddr : Word) (ring : RingBuf Byte 32) (bit : ℕ)
    (byte : Byte) : Sound (start s destAddr ring bit byte) :=
  ⟨le_rfl, fun _ => ⟨(by decide : C_MAGIC ≤ initDecoder.control),
    (by decide : initDecoder.control < C_END)⟩⟩

theorem step_running {s : State} (h : s.result = none) (event : Event) :
    step s event = match event with
      | .edge pulseLength => { s with audio := pcint1 s.audio pulseLength }
      | .reader between => reader s between := if_pos h

theorem step_ended {s : State} (h : s.result ≠ none) (event : Event) : step s event = s := if_neg h

/-- Edges are no steps of the loop. -/
theorem step_rank {s : State} (h : Sound s) (hrun : s.result = none) (event : Event) :
    Sound (step s event) ∧ ((step s event).result = none →
      rank (step s event) + (if isReader event then 1 else 0) ≤ rank s) := by
  rw [step_running hrun]
  cases event with
  | edge pulseLength =>
    have hrank : rank { s with audio := pcint1 s.audio pulseLength } = rank s := by
      simp only [rank, wait, stage_pcint1]
    refine ⟨⟨h.timeout, h.reads⟩, fun _ => ?_⟩
    simp [hrank, isReader]
  | reader between => exact reader_rank h hrun between

/-- The loop takes so many steps at most. -/
def STEPS : ℕ := 65541 * (LOAD_TIMEOUT + 3)

/-- **The loop ends**, whatever arrives and whenever. -/
theorem run_ends (s : Session) (destAddr : Word) (ring : RingBuf Byte 32) (bit : ℕ) (byte : Byte)
    {events : List Event} (hlong : STEPS ≤ events.countP isReader) :
    (run (start s destAddr ring bit byte) events).result ≠ none := by
  refine @done_of_rank _ _ step Sound (fun t => t.result ≠ none) isReader rank ?_ ?_ ?_ ?_ _
    (sound_start s destAddr ring bit byte) events ?_
  · intro t event ht
    by_cases hrun : t.result = none
    · exact (step_rank ht hrun event).1
    · rwa [step_ended hrun]
  · intro t event ht
    rwa [step_ended ht]
  · intro t event ht hrun hrun'
    exact (step_rank ht (not_not.mp hrun) event).2 (not_not.mp hrun')
  · intro t ht hrun
    have hpos := wait_pos t
    rw [rank]
    omega
  · refine le_trans (le_of_eq ?_) hlong
    show (initDecoder.left - 1) * (LOAD_TIMEOUT + 3) + (LOAD_TIMEOUT + 3)
      = 65541 * (LOAD_TIMEOUT + 3)
    rw [Decoder.left_initDecoder, ← Nat.succ_mul]

/-! ### What the loop has done -/

/-- How a decoder ends the loop. -/
def End.of (dec : Decoder) : End :=
  if dec.control = C_END then .ready else if dec.control < 0 then .io else .time

/-- What is done so far is what `load` does with the bytes that `ain_get` returned. -/
structure Replays (m : Session × Word) (s : State) : Prop where
  sound : Sound s
  going : s.result = none → ∀ rest,
    Session.loadLoop m initDecoder (s.audio.returned ++ rest) = Session.loadLoop s.memory s.dec rest
  ended : s.result ≠ none →
    Session.loadLoop m initDecoder s.audio.returned = (s.memory.1, s.dec) ∧
      s.result = some (End.of s.dec)

theorem End.of_reads {dec : Decoder} (h : dec.Reads) : End.of dec = .time := by
  obtain ⟨hlow, hhigh⟩ : 1 ≤ dec.control ∧ dec.control < 7 := h
  rw [End.of, if_neg (ne_of_lt hhigh), if_neg (by omega)]

/-- Nothing is done without a byte. -/
theorem Replays.quiet {m : Session × Word} {s t : State} (h : Replays m s) (hrun : s.result = none)
    (hsound : Sound t) (hresult : t.result = none) (hreturned : t.audio.returned = s.audio.returned)
    (hmemory : t.memory = s.memory) (hdec : t.dec = s.dec) : Replays m t := by
  refine ⟨hsound, fun _ => ?_, fun hended => absurd hresult hended⟩
  rw [hreturned, hmemory, hdec]
  exact h.going hrun

/-- A byte is decoded. -/
theorem Replays.byte {m : Session × Word} {s t : State} (h : Replays m s) (hrun : s.result = none)
    {byte : Byte} (hreturned : t.audio.returned = s.audio.returned ++ [byte])
    (hmemory : t.memory = s.memory) (hdec : t.dec = s.dec) (hsound : Sound (decodeByte t byte)) :
    Replays m (decodeByte t byte) := by
  have hreads := h.sound.reads (.inl hrun)
  have hresult : (decodeByte t byte).result = if (decode s.dec byte).1.ret ≠ 0 then some .io
      else if (decode s.dec byte).2.control = C_END then some .ready else none := by
    rw [← hdec]
    rfl
  have hdec' : (decodeByte t byte).dec = (decode s.dec byte).2 := by
    rw [← hdec]
    rfl
  have hmemory' : (decodeByte t byte).memory
      = (decode s.dec byte).1.written.foldl Session.loadDataWrite s.memory := by
    rw [← hdec, ← hmemory]
    rfl
  have hbytes : (decodeByte t byte).audio.returned = s.audio.returned ++ [byte] := hreturned
  have hgoing := h.going hrun
  refine ⟨hsound, fun hnone rest => ?_, fun hended => ?_⟩
  · rw [hbytes, List.append_assoc, hgoing, List.singleton_append, Session.loadLoop_cons,
      hmemory', hdec']
    rw [hresult] at hnone
    split at hnone
    · exact absurd hnone nofun
    · next hret =>
      split at hnone
      · exact absurd hnone nofun
      · next hend => rw [if_neg hret, if_neg hend]
  · rw [hbytes, hgoing, Session.loadLoop_cons, hmemory', hdec', hresult]
    rcases Decoder.takes_decode hreads byte with ⟨hret, hneg⟩ | ⟨hret, hend⟩ | ⟨hret, hend, hgo⟩
    · have hne : (decode s.dec byte).2.control ≠ C_END := (hneg.trans (by decide)).ne
      rw [if_pos hret, if_pos hret, End.of, if_neg hne, if_pos hneg]
      exact ⟨rfl, rfl⟩
    · rw [if_neg (not_not.mpr hret), if_pos hend, if_neg (not_not.mpr hret), if_pos hend, End.of,
        if_pos hend]
      exact ⟨rfl, rfl⟩
    · rw [hresult, if_neg (not_not.mpr hret), if_neg hend] at hended
      exact absurd rfl hended

theorem replays_step {m : Session × Word} {s : State} (h : Replays m s) (event : Event) :
    Replays m (step s event) := by
  by_cases hrun : s.result = none
  swap
  · rwa [step_ended hrun]
  have hsound := (step_rank h.sound hrun event).1
  rw [step_running hrun] at hsound ⊢
  cases event with
  | edge pulseLength =>
    exact h.quiet hrun hsound hrun (frame_edges s.audio [pulseLength]).1 rfl rfl
  | reader between =>
    simp only at hsound ⊢
    rcases reader_cases s between with ⟨hreturned, -, hnew⟩ | ⟨hreturned, -, -, heq⟩ |
      ⟨-, -, byte, hreturned, heq⟩
    · rcases hnew with heq | ⟨-, -, heq⟩ | ⟨-, heq⟩ <;> rw [heq] at hsound ⊢
      · refine ⟨hsound, nofun, fun _ => ?_⟩
        have hgoing := h.going hrun []
        rw [List.append_nil, ← hreturned] at hgoing
        exact ⟨hgoing, congrArg some (End.of_reads (h.sound.reads (.inl hrun))).symm⟩
      · exact h.quiet hrun hsound hrun hreturned rfl rfl
      · exact h.quiet hrun hsound hrun hreturned rfl rfl
    · rw [heq] at hsound ⊢
      exact h.quiet hrun hsound hrun hreturned rfl rfl
    · rw [heq] at hsound ⊢
      exact h.byte hrun hreturned rfl rfl hsound

theorem replays_run (s : Session) (destAddr : Word) (ring : RingBuf Byte 32) (bit : ℕ) (byte : Byte)
    (events : List Event) :
    Replays (s, destAddr) (run (start s destAddr ring bit byte) events) := by
  have hstart : Replays (s, destAddr) (start s destAddr ring bit byte) :=
    ⟨sound_start s destAddr ring bit byte, fun _ _ => rfl, fun hended => absurd rfl hended⟩
  exact List.foldlRecOn events step hstart fun t ht event _ => replays_step ht event

/-! ### The queue up to the end of the loop -/

/-- The events up to the end of the loop. -/
def active : State → List Event → List Event
  | _, [] => []
  | s, event :: events => if s.result = none then event :: active (step s event) events else []

theorem audio_step {s : State} (hrun : s.result = none) (event : Event) :
    (step s event).audio = AudioIn.step s.audio event := by
  rw [step_running hrun]
  cases event with
  | edge pulseLength => rfl
  | reader between =>
    rcases reader_cases s between with ⟨-, -, heq | ⟨-, -, heq⟩ | ⟨-, heq⟩⟩ | ⟨-, -, -, heq⟩ |
      ⟨-, -, byte, -, heq⟩
    all_goals
      simp only [heq]
      rfl

theorem run_ended {s : State} (h : s.result ≠ none) (events : List Event) : run s events = s := by
  induction events with
  | nil => rfl
  | cons event events ih =>
    rw [run, List.foldl_cons, step_ended h]
    exact ih

theorem audio_run (s : State) (events : List Event) :
    (run s events).audio = AudioIn.run s.audio (active s events) := by
  induction events generalizing s with
  | nil => rfl
  | cons event events ih =>
    rw [active]
    by_cases hrun : s.result = none
    · rw [if_pos hrun]
      show (run (step s event) events).audio = AudioIn.run (AudioIn.step s.audio event) _
      rw [ih, audio_step hrun]
    · rw [if_neg hrun, run_ended hrun]
      rfl

/-! ### `load` -/

def textPress : List Char := "Press <ENTER> when ready,\n<ESC> to cancel...\n".toList
def textErrTime : List Char := "ERR: TIME %02x\n".toList
def textErrIo : List Char := "ERR: IO %02x\n".toList
def textBytesReady : List Char := "%i bytes\nReady\n".toList

section Load

variable {R : Type} (font : ℕ → Byte)

/-- `put_string` of the last text, with a length; an `int` has 16 bits. -/
def putCount (k : Kernel R) (length : Word) : Kernel R :=
  (chars ((toString length.toInt).toList ++ textBytesReady.drop 2)).foldl (Kernel.putChar font)
    { k with buffer := fill k.buffer (chars textBytesReady ++ [0]) }

/-- What is printed unless the call is quiet. -/
def report (k : Kernel R) (dec : Decoder) : End → Kernel R
  | .time => k.putText font textErrTime dec.control.toNat
  | .io => k.putText font textErrIo (dec.control * -1).toNat
  | .ready => putCount font k dec.length

/-- `load`, past the prompt: nothing while the loop goes on. -/
def receive (k : Kernel R) (destAddr : Word) (quiet : Bool) (ring : RingBuf Byte 32) (bit : ℕ)
    (byte : Byte) (events : List Event) : Option (Byte × Kernel R) :=
  let s := run (start ⟨k.fw, []⟩ destAddr ring bit byte) events
  s.result.map fun e =>
    let k := k.withFw s.memory.1.fw
    (if s.dec.control = C_END then 0 else BitVec.ofInt 8 s.dec.control,
      if quiet then k else report font k s.dec e)

/-- The key that ends the prompt. -/
def answer (keys : List Byte) : Option Byte := keys.find? fun c => c = 0x0a ∨ c = 0x1b

/-- `load` -/
def load (k : Kernel R) (destAddr : Word) (quiet : Bool) (keys : List Byte)
    (ring : RingBuf Byte 32) (bit : ℕ) (byte : Byte) (events : List Event) :
    Option (Byte × Kernel R) :=
  if quiet then receive font k destAddr quiet ring bit byte events
  else
    let k := k.putText font textPress 0
    (answer keys).bind fun c =>
      if c = 0x1b then some (1, k) else receive font k destAddr quiet ring bit byte events

/-- `load` as a function of the bytes that arrive. -/
def loadBytes (k : Kernel R) (destAddr : Word) (quiet : Bool) (audio : List Byte) :
    Byte × Kernel R :=
  let dec := (drive initDecoder audio).2
  let r := k.load destAddr audio
  (r.1, if quiet then r.2 else report font r.2 dec (End.of dec))

theorem receive_returns (k : Kernel R) (destAddr : Word) (quiet : Bool) (ring : RingBuf Byte 32)
    (bit : ℕ) (byte : Byte) {events : List Event} (hlong : STEPS ≤ events.countP isReader) :
    let heard := active (start ⟨k.fw, []⟩ destAddr ring bit byte) events
    receive font k destAddr quiet ring bit byte events
      = some (loadBytes font k destAddr quiet
          (AudioIn.run (ainOn ring bit byte) heard).returned) := by
  intro heard
  have hended := run_ends ⟨k.fw, []⟩ destAddr ring bit byte hlong
  obtain ⟨hloop, hresult⟩ := (replays_run ⟨k.fw, []⟩ destAddr ring bit byte events).ended hended
  have haudio := audio_run (start ⟨k.fw, []⟩ destAddr ring bit byte) events
  have hdrive := loadLoop_eq_drive (⟨k.fw, []⟩, destAddr) initDecoder
    (AudioIn.run (ainOn ring bit byte) heard).returned
  rw [haudio] at hloop
  have hload : Session.load ⟨k.fw, []⟩ destAddr (AudioIn.run (ainOn ring bit byte) heard).returned
      = _ := congrArg (fun r : Session × Decoder =>
        (if r.2.control = C_END then 0 else BitVec.ofInt 8 r.2.control, r.1)) hloop
  have hdec := congrArg Prod.snd (hdrive.symm.trans hloop)
  simp only [receive, loadBytes, Kernel.load, hload, hresult, Option.map_some] at hdec ⊢
  rw [hdec]

/-- **`load` returns**, whatever arrives: it is cancelled, or does what it does with the
bytes that `ain_get` returned up to the end of the loop. -/
theorem load_returns (k : Kernel R) (destAddr : Word) (quiet : Bool) {keys : List Byte}
    (hkey : quiet = true ∨ (answer keys).isSome) (ring : RingBuf Byte 32) (bit : ℕ) (byte : Byte)
    {events : List Event} (hlong : STEPS ≤ events.countP isReader) :
    let k' := if quiet then k else k.putText font textPress 0
    let heard := active (start ⟨k'.fw, []⟩ destAddr ring bit byte) events
    load font k destAddr quiet keys ring bit byte events = some
      (if quiet = false ∧ answer keys = some 0x1b then (1, k')
      else loadBytes font k' destAddr quiet
        (AudioIn.run (ainOn ring bit byte) heard).returned) := by
  cases quiet with
  | true => exact receive_returns font k destAddr true ring bit byte hlong
  | false =>
    obtain ⟨c, hc⟩ := Option.isSome_iff_exists.mp (hkey.resolve_left Bool.false_ne_true)
    intro k' heard
    rw [load, if_neg Bool.false_ne_true, hc]
    by_cases hesc : c = 0x1b
    · rw [if_pos ⟨rfl, congrArg some hesc⟩]
      exact if_pos hesc
    · rw [if_neg fun h => hesc (Option.some.inj h.2)]
      exact (if_neg hesc).trans (receive_returns font k' destAddr false ring bit byte hlong)

/-- A key that is no answer, and then no signal. -/
theorem load_returns_silence :
    let k : Kernel Unit :=
      ⟨fun _ => 0, ⟨0, 0, false, fun _ => 0, []⟩, fun _ => 0, false, ()⟩
    let ring : RingBuf Byte 32 := ⟨fun _ => 0, 5, 9, by decide, by decide⟩
    let events : List Event := List.replicate STEPS (.reader ⟨[], by decide⟩)
    let k' := if false then k else k.putText (fun _ => 0) textPress 0
    let heard := active (start ⟨k'.fw, []⟩ PROG_START ring 3 0x55) events
    load (fun _ => 0) k PROG_START false [0x41, 0x0a] ring 3 0x55 events = some
      (if false = false ∧ answer [0x41, 0x0a] = some 0x1b then (1, k')
      else loadBytes (fun _ => 0) k' PROG_START false
        (AudioIn.run (ainOn ring 3 0x55) heard).returned) := by
  intro k ring events
  refine load_returns (fun _ => 0) k PROG_START false (.inr (by decide)) ring 3 0x55 ?_
  rw [List.countP_replicate]
  exact le_rfl

end Load

end Loading

end Dan64
