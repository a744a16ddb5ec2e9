/-
Dan64/AudioIn.lean

Loading: the pin change interrupt assembles bytes and the main loop reads them.

`PCINT1_vect` measures the time between two edges; after four edges it takes
every pulse for a bit and stores every eighth one's byte in the ring, dropping
the oldest byte if the ring is full.  The main loop tests `ain_ready`, calls
`ain_get`, which tests it again, and takes the byte in an atomic block.  The
interrupt can come between any two of these, and between the two indices that a
test reads.

What is read are received bytes in order, the ring holds the latest ones, and
nothing is lost as long as the reader is not too far behind (`audio_in`).
-/
import Dan64.RingBuf
import Dan64.Signal
import Mathlib.Data.List.DropRight
import Mathlib.Data.List.ReduceOption

namespace Dan64

open Mealy

namespace AudioIn

/-! ### The interrupt -/

/-- `pulse_length > SHORT_TIME`: the threshold, 62500 / 2760 + 16, is not an
integer. -/
def Long (pulseLength : Byte) : Prop :=
  62500 + 16 * Signal.SHORT_PULSE < pulseLength.toNat * Signal.SHORT_PULSE

instance (pulseLength : Byte) : Decidable (Long pulseLength) := inferInstanceAs (Decidable (_ < _))

/-- `ain_sync` and the static variables of the handler. -/
structure Capture where
  sync : ℕ
  bit : ℕ
  byte : Byte
  deriving DecidableEq

/-- What `PCINT1_vect` makes of the time since the last edge: the byte that it
completes, if it does. -/
def Capture.edge (c : Capture) (pulseLength : Byte) : Option Byte × Capture :=
  if c.sync < 4 then (none, ⟨c.sync + 1, 0, 0⟩)
  else
    let byte := if Long pulseLength then c.byte ||| 1#8 <<< c.bit else c.byte
    if c.bit + 1 = 8 then (some byte, { c with bit := 0, byte := 0 })
    else (none, { c with bit := c.bit + 1, byte })

/-! ### The machine -/

/-- Where the main loop is. -/
inductive Stage
  /-- `while (!ain_ready() && timeout)` -/
  | poll
  /-- `ain_get`, before its test -/
  | get
  /-- `ain_get`, before the atomic block -/
  | take

structure State where
  capture : Capture
  /-- `ain_buffer`, `ain_start` and `ain_end` -/
  ring : RingBuf Byte 32
  stage : Stage
  /-- the bytes that the handler has completed -/
  received : List Byte
  /-- the bytes that `ain_get` has returned -/
  returned : List Byte
  /-- how many bytes were received up to the one returned last -/
  read : ℕ

/-- `ain_on` -/
def ainOn (ring : RingBuf Byte 32) (bit : ℕ) (byte : Byte) : State :=
  ⟨⟨0, bit, byte⟩, ring.clear, .poll, [], [], 0⟩

/-- `PCINT1_vect` -/
def pcint1 (s : State) (pulseLength : Byte) : State :=
  match s.capture.edge pulseLength with
  | (none, capture) => { s with capture }
  | (some byte, capture) =>
    { s with capture, ring := s.ring.push byte, received := s.received ++ [byte] }

/-- The edges that fall between the two loads of a test, thirty bytes at most: the
loads are a few instructions apart, and one of the main program is executed after
every interrupt. -/
abbrev Between : Type := { edges : List Byte // edges.length ≤ 240 }

/-- `ain_ready`: `ain_end` is read first. -/
def ainReady (s : State) (between : Between) : Bool × State :=
  let stop := s.ring.stop
  let s := between.1.foldl pcint1 s
  (stop ≠ s.ring.start, s)

/-- A step of the main loop; no edge falls into the atomic block. -/
def reader (s : State) (between : Between) : State :=
  match s.stage with
  | .poll =>
    let (ready, s) := ainReady s between
    { s with stage := if ready then .get else .poll }
  | .get =>
    let (ready, s) := ainReady s between
    if ready then { s with stage := .take }
    else { s with stage := .poll, returned := s.returned ++ [0] }
  | .take =>
    { s with
      stage := .poll
      ring := s.ring.pop
      returned := s.returned ++ [s.ring.head]
      read := s.received.length - s.ring.pop.length }

inductive Event
  | edge (pulseLength : Byte)
  | reader (between : Between)

def step (s : State) : Event → State
  | .edge pulseLength => pcint1 s pulseLength
  | .reader between => reader s between

/-- A run. -/
def run (s : State) (events : List Event) : State := events.foldl step s

/-- How many bytes the reader is behind. -/
def behind (s : State) : ℕ := s.received.length - s.read

/-! ### What the handler does -/

/-- A byte has eight bits. -/
def Capture.Sound (c : Capture) : Prop := 4 ≤ c.sync → c.bit < 8

/-- The bits of the byte to come. -/
def Capture.bits (c : Capture) : ℕ := if c.sync < 4 then 0 else c.bit

/-- An edge is at most one bit. -/
theorem Capture.sound_edge {c : Capture} (h : c.Sound) (pulseLength : Byte) :
    (c.edge pulseLength).2.Sound ∧
      8 * (c.edge pulseLength).1.toList.length + (c.edge pulseLength).2.bits ≤ c.bits + 1 := by
  rw [edge]
  by_cases hsync : c.sync < 4
  · rw [if_pos hsync]
    refine ⟨fun _ => Nat.zero_lt_succ 7, ?_⟩
    have hbits : (⟨c.sync + 1, 0, 0⟩ : Capture).bits = 0 := ite_self 0
    rw [hbits]
    exact Nat.zero_le _
  · have hbit : c.bit < 8 := h (not_lt.mp hsync)
    rw [if_neg hsync]
    by_cases hlast : c.bit + 1 = 8
    · simp [hlast, hsync, Sound, bits]
    · simp [hlast, hsync, Sound, bits]
      omega

/-- An edge completes a byte or does not. -/
theorem pcint1_cases (s : State) (pulseLength : Byte) :
    (∃ capture, pcint1 s pulseLength = { s with capture }) ∨
      ∃ capture byte, pcint1 s pulseLength =
        { s with capture, ring := s.ring.push byte, received := s.received ++ [byte] } := by
  rw [pcint1]
  split
  · exact .inl ⟨_, rfl⟩
  · exact .inr ⟨_, _, rfl⟩

/-- How many edges have been taken for bits. -/
def edges (s : State) : ℕ := 8 * s.received.length + s.capture.bits

theorem sound_pcint1 {s : State} (h : s.capture.Sound) (pulseLength : Byte) :
    (pcint1 s pulseLength).capture.Sound ∧ edges (pcint1 s pulseLength) ≤ edges s + 1 := by
  have hedge := Capture.sound_edge h pulseLength
  rw [pcint1]
  rcases heq : s.capture.edge pulseLength with ⟨- | byte, capture⟩ <;> rw [heq] at hedge
  · refine ⟨hedge.1, ?_⟩
    simpa [edges, Nat.add_assoc] using hedge.2
  · refine ⟨hedge.1, ?_⟩
    have hle := hedge.2
    simp only [edges, Option.toList_some, List.length_singleton, List.length_append] at hle ⊢
    omega

/-- Many edges complete few bytes. -/
theorem sound_edges {s : State} (h : s.capture.Sound) (pulses : List Byte) :
    (pulses.foldl pcint1 s).capture.Sound ∧
      edges (pulses.foldl pcint1 s) ≤ edges s + pulses.length := by
  induction pulses generalizing s with
  | nil => exact ⟨h, le_rfl⟩
  | cons pulse pulses ih =>
    obtain ⟨hsound, hle⟩ := sound_pcint1 h pulse
    obtain ⟨hsound', hle'⟩ := ih hsound
    refine ⟨hsound', hle'.trans ?_⟩
    rw [List.length_cons]
    omega

/-! ### The invariant -/

/-- The ring is the end of what was received; it is full if something was dropped
since the last byte was read, and what is returned was received before. -/
structure Fresh (s : State) : Prop where
  sound : s.capture.Sound
  suffix : s.ring.contents <:+ s.received
  unread : s.read + s.ring.length ≤ s.received.length
  full : s.read + s.ring.length < s.received.length → s.ring.length = 31
  returned : s.returned.Sublist (s.received.take s.read)
  ready : s.stage ≠ .poll → ¬ s.ring.Empty

theorem fresh_pcint1 {s : State} (h : Fresh s) (pulseLength : Byte) :
    Fresh (pcint1 s pulseLength) := by
  have hsound := (sound_pcint1 h.sound pulseLength).1
  rcases pcint1_cases s pulseLength with ⟨capture, heq⟩ | ⟨capture, byte, heq⟩ <;>
    rw [heq] at hsound ⊢
  · exact { h with sound := hsound }
  · -- a byte is stored: behind a full ring the oldest one goes, and 31 stay
    have hunread := h.unread
    have hreceived : (s.received ++ [byte]).length = s.received.length + 1 := List.length_append
    have hlength : s.ring.Full ∧ (s.ring.push byte).length = 31 ∧ s.ring.length = 31 ∨
        (s.ring.push byte).length = s.ring.length + 1 := by
      by_cases hfull : s.ring.Full
      · have hlength : s.ring.length = 31 := Nat.succ_injective (s.ring.full_iff.mp hfull)
        exact .inl ⟨hfull, (RingBuf.length_push_full hfull byte).trans hlength, hlength⟩
      · exact .inr (RingBuf.length_push hfull byte)
    refine ⟨hsound, ?_, ?_, ?_, ?_, fun _ => RingBuf.not_empty_push (by decide) _ byte⟩
    · apply (s.ring.contents_push_suffix byte).trans
      exact List.suffix_append_self_iff.mpr h.suffix
    · show s.read + (s.ring.push byte).length ≤ (s.received ++ [byte]).length
      omega
    · show s.read + (s.ring.push byte).length < (s.received ++ [byte]).length → _
      intro hlt
      have hfull := h.full
      have hmax := (s.ring.push byte).length_lt
      show (s.ring.push byte).length = 31
      omega
    · show s.returned.Sublist ((s.received ++ [byte]).take s.read)
      rw [List.take_append_of_le_length (by omega)]
      exact h.returned

theorem fresh_edges {s : State} (h : Fresh s) (pulses : List Byte) :
    Fresh (pulses.foldl pcint1 s) :=
  List.foldlRecOn pulses pcint1 h fun _ hs pulse _ => fresh_pcint1 hs pulse

theorem frame_edges (s : State) (pulses : List Byte) :
    (pulses.foldl pcint1 s).returned = s.returned ∧ (pulses.foldl pcint1 s).read = s.read := by
  induction pulses generalizing s with
  | nil => exact ⟨rfl, rfl⟩
  | cons pulse pulses ih =>
    rw [List.foldl_cons, (ih _).1, (ih _).2]
    rcases pcint1_cases s pulse with ⟨capture, heq⟩ | ⟨capture, byte, heq⟩ <;> rw [heq] <;>
      exact ⟨rfl, rfl⟩

theorem received_edges (s : State) (pulses : List Byte) :
    s.received <+: (pulses.foldl pcint1 s).received := by
  induction pulses generalizing s with
  | nil => exact List.prefix_rfl
  | cons pulse pulses ih =>
    refine List.IsPrefix.trans ?_ (ih _)
    rcases pcint1_cases s pulse with ⟨capture, heq⟩ | ⟨capture, byte, heq⟩ <;> rw [heq]
    exact List.prefix_append _ _

/-- Edges do not empty the ring. -/
theorem ring_edges (s : State) (pulses : List Byte) :
    (pulses.foldl pcint1 s).ring = s.ring ∨ ¬ (pulses.foldl pcint1 s).ring.Empty := by
  induction pulses generalizing s with
  | nil => exact .inl rfl
  | cons pulse pulses ih =>
    rcases ih (pcint1 s pulse) with hsame | hne
    · rw [List.foldl_cons, hsame]
      rcases pcint1_cases s pulse with ⟨capture, heq⟩ | ⟨capture, byte, heq⟩ <;> rw [heq]
      · exact .inl rfl
      · exact .inr (RingBuf.not_empty_push (by decide) _ byte)
    · exact .inr hne

/-! ### The readiness test -/

/-- The end that was read is inside the ring, as long as fewer than 31 bytes are
completed. -/
theorem inside_edges {s : State} {e k : ℕ} (h : s.ring.Inside e k) (pulses : List Byte)
    (hfew : k + (pulses.foldl pcint1 s).received.length ≤ s.received.length + 30) :
    ∃ k, (pulses.foldl pcint1 s).ring.Inside e k := by
  induction pulses generalizing s k with
  | nil => exact ⟨k, h⟩
  | cons pulse pulses ih =>
    have hmono := (received_edges (pcint1 s pulse) pulses).length_le
    rw [List.foldl_cons] at hfew ⊢
    rcases pcint1_cases s pulse with ⟨capture, heq⟩ | ⟨capture, byte, heq⟩ <;>
      rw [heq] at hmono hfew ⊢
    · exact ih h hfew
    · simp only [List.length_append, List.length_singleton] at hmono
      refine ih (h.push (by omega) byte) ?_
      simp only [List.length_append, List.length_singleton]
      omega

theorem Capture.bits_lt {c : Capture} (h : c.Sound) : c.bits < 8 := by
  rw [bits]
  split
  · exact Nat.zero_lt_succ 7
  · exact h (not_lt.mp ‹_›)

/-- A test finds a byte that was there when it read the end. -/
theorem ainReady_of_not_empty {s : State} (h : s.capture.Sound) (hne : ¬ s.ring.Empty)
    (between : Between) : (ainReady s between).1 = true := by
  have hle := (sound_edges h between.1).2
  have hfew : 0 + (between.1.foldl pcint1 s).received.length ≤ s.received.length + 30 := by
    have hbits := Capture.bits_lt h
    have hlength := between.2
    rw [edges, edges] at hle
    omega
  obtain ⟨k, hinside⟩ := inside_edges (RingBuf.inside_stop hne) between.1 hfew
  exact decide_eq_true hinside.ne_start

/-- A byte that a test finds is there. -/
theorem not_empty_of_ainReady {s : State} {between : Between} (h : (ainReady s between).1 = true) :
    ¬ (ainReady s between).2.ring.Empty := by
  have hne : s.ring.stop ≠ (between.1.foldl pcint1 s).ring.start := of_decide_eq_true h
  -- the start moves only if the handler stores, and then the ring is not empty
  rcases ring_edges s between.1 with hsame | hnot
  · rw [hsame] at hne
    show ¬ (between.1.foldl pcint1 s).ring.Empty
    rw [hsame]
    exact hne
  · exact hnot

/-! ### The reader -/

/-- Taking the oldest byte. -/
theorem fresh_take {s : State} (h : Fresh s) (hne : ¬ s.ring.Empty) :
    Fresh
      { s with
        stage := .poll
        ring := s.ring.pop
        returned := s.returned ++ [s.ring.head]
        read := s.received.length - s.ring.pop.length } := by
  obtain ⟨older, holder⟩ := h.suffix
  -- `older` is what was read or dropped before
  have hunread := h.unread
  have hcontents := RingBuf.contents_pop hne
  have hlength := congrArg List.length holder
  rw [hcontents] at holder
  simp only [hcontents, List.length_append, List.length_cons, RingBuf.length_contents] at hlength
  have hring : s.ring.length = s.ring.pop.length + 1 := by
    rw [← RingBuf.length_contents, hcontents, List.length_cons, RingBuf.length_contents]
  have hread : s.received.length - s.ring.pop.length = older.length + 1 := by omega
  refine ⟨h.sound, ⟨older ++ [s.ring.head], ?_⟩, ?_, ?_, ?_, fun hpoll => absurd rfl hpoll⟩
  · rw [List.append_assoc]
    exact holder
  · show s.received.length - s.ring.pop.length + s.ring.pop.length ≤ s.received.length
    omega
  · show s.received.length - s.ring.pop.length + s.ring.pop.length < s.received.length → _
    omega
  · show (s.returned ++ [s.ring.head]).Sublist
      (s.received.take (s.received.length - s.ring.pop.length))
    have htake : s.received.take (older.length + 1) = older ++ [s.ring.head] := by
      rw [← holder, List.take_length_add_append]
      rfl
    have hbefore : s.received.take s.read <+: older := by
      rw [← holder, List.take_append_of_le_length (by omega)]
      exact List.take_prefix _ _
    rw [hread, htake]
    exact (h.returned.trans hbefore.sublist).append_right _

/-- The test of `ain_get` does not fail, since the one before it did not. -/
theorem reader_get {s : State} (h : Fresh s) (hstage : s.stage = .get) (between : Between) :
    reader s between = { (ainReady s between).2 with stage := .take } := by
  have hne : ¬ s.ring.Empty := h.ready (by rw [hstage]; exact Stage.noConfusion)
  have hfound := ainReady_of_not_empty h.sound hne between
  rw [reader, hstage]
  exact if_pos hfound

theorem fresh_reader {s : State} (h : Fresh s) (between : Between) : Fresh (reader s between) := by
  have hready : Fresh (ainReady s between).2 := fresh_edges h between.1
  rcases hstage : s.stage with - | - | -
  · rw [reader, hstage]
    refine { hready with ready := ?_ }
    intro hget
    apply not_empty_of_ainReady
    by_contra hnot
    exact hget (if_neg hnot)
  · have hne : ¬ s.ring.Empty := h.ready (by rw [hstage]; exact Stage.noConfusion)
    rw [reader_get h hstage]
    exact { hready with
      ready := fun _ => not_empty_of_ainReady (ainReady_of_not_empty h.sound hne between) }
  · rw [reader, hstage]
    exact fresh_take h (h.ready (by rw [hstage]; exact Stage.noConfusion))

theorem fresh_step {s : State} (h : Fresh s) (event : Event) : Fresh (step s event) := by
  cases event with
  | edge pulseLength => exact fresh_pcint1 h pulseLength
  | reader between => exact fresh_reader h between

theorem fresh_run {s : State} (h : Fresh s) (events : List Event) : Fresh (run s events) :=
  List.foldlRecOn events step h fun _ hs event _ => fresh_step hs event

theorem fresh_ainOn (ring : RingBuf Byte 32) (bit : ℕ) (byte : Byte) :
    Fresh (ainOn ring bit byte) := by
  have hlength : ring.clear.length = 0 := ring.clear.empty_iff.mp rfl
  refine ⟨fun hsync => absurd hsync (Nat.not_succ_le_zero 3), ?_, ?_, ?_, List.nil_sublist _,
    fun hpoll => absurd rfl hpoll⟩
  · show ring.clear.contents <:+ []
    rw [RingBuf.contents_clear]
  · show 0 + ring.clear.length ≤ 0
    rw [hlength]
  · intro hlt
    exact absurd hlt (Nat.not_lt_zero _)

/-- The ring holds the latest of the bytes that are not read. -/
theorem Fresh.contents_eq {s : State} (h : Fresh s) :
    s.ring.contents = (s.received.drop s.read).rtake 31 := by
  have hunread := h.unread
  have hfull := h.full
  have hmax := s.ring.length_lt
  have hlength := s.ring.length_contents
  have hdrop : s.ring.contents = s.received.drop (s.received.length - s.ring.length) := by
    rw [← s.ring.length_contents]
    exact List.suffix_iff_eq_drop.mp h.suffix
  rw [hdrop, List.rtake, List.drop_drop, List.length_drop]
  congr 1
  omega

/-! ### Nothing is lost -/

/-- Every byte was returned or is in the ring. -/
def Lossless (s : State) : Prop := s.returned ++ s.ring.contents = s.received

theorem lossless_pcint1 {s : State} (hfresh : Fresh s) (h : Lossless s) {pulseLength : Byte}
    (hbehind : behind (pcint1 s pulseLength) ≤ 31) : Lossless (pcint1 s pulseLength) := by
  rcases pcint1_cases s pulseLength with ⟨capture, heq⟩ | ⟨capture, byte, heq⟩ <;>
    rw [heq] at hbehind ⊢
  · exact h
  · have hspace : ¬ s.ring.Full := by
      intro hfull
      have hlength := s.ring.full_iff.mp hfull
      have hunread := hfresh.unread
      simp only [behind, List.length_append, List.length_singleton] at hbehind
      omega
    show s.returned ++ (s.ring.push byte).contents = s.received ++ [byte]
    rw [RingBuf.contents_push hspace, ← List.append_assoc, h]

theorem lossless_edges {s : State} (hfresh : Fresh s) (h : Lossless s) {pulses : List Byte}
    (hbehind : behind (pulses.foldl pcint1 s) ≤ 31) : Lossless (pulses.foldl pcint1 s) := by
  induction pulses generalizing s with
  | nil => exact h
  | cons pulse pulses ih =>
    -- the reader falls behind while edges come, never the other way
    have hle : behind (pcint1 s pulse) ≤ behind (pulses.foldl pcint1 (pcint1 s pulse)) := by
      rw [behind, behind, (frame_edges _ pulses).2]
      exact Nat.sub_le_sub_right (received_edges _ pulses).length_le _
    exact ih (fresh_pcint1 hfresh pulse) (lossless_pcint1 hfresh h (hle.trans hbehind)) hbehind

theorem lossless_step {s : State} (hfresh : Fresh s) (h : Lossless s) {event : Event}
    (hbehind : behind (step s event) ≤ 31) : Lossless (step s event) := by
  cases event with
  | edge pulseLength => exact lossless_pcint1 hfresh h hbehind
  | reader between =>
    rw [step] at hbehind ⊢
    rcases hstage : s.stage with - | - | -
    · rw [reader, hstage] at hbehind ⊢
      exact lossless_edges hfresh h hbehind
    · rw [reader_get hfresh hstage] at hbehind ⊢
      exact lossless_edges hfresh h hbehind
    · rw [reader, hstage]
      have hne : ¬ s.ring.Empty := hfresh.ready (by rw [hstage]; exact Stage.noConfusion)
      show s.returned ++ [s.ring.head] ++ s.ring.pop.contents = s.received
      rw [List.append_assoc, List.singleton_append, ← RingBuf.contents_pop hne]
      exact h

theorem lossless_run {s : State} (hfresh : Fresh s) (h : Lossless s) {events : List Event}
    (hbehind : Along step (fun s event => behind (step s event) ≤ 31) s events) :
    Lossless (run s events) := by
  have hstep : ∀ s event, Fresh s ∧ Lossless s → behind (step s event) ≤ 31 →
      Fresh (step s event) ∧ Lossless (step s event) := by
    rintro s event ⟨hfresh, h⟩ hbehind
    exact ⟨fresh_step hfresh event, lossless_step hfresh h hbehind⟩
  exact (hbehind.invariant hstep ⟨hfresh, h⟩).2

/-! ### What is received -/

/-- The handler over a list of edges: it appends the bytes that they complete. -/
theorem foldl_pcint1 (s : State) (pulses : List Byte) :
    (pulses.foldl pcint1 s).received
        = s.received ++ (feed Capture.edge s.capture pulses).1.reduceOption ∧
      (pulses.foldl pcint1 s).capture = (feed Capture.edge s.capture pulses).2 := by
  induction pulses generalizing s with
  | nil => exact ⟨(List.append_nil _).symm, rfl⟩
  | cons pulse pulses ih =>
    obtain ⟨hreceived, hcapture⟩ := ih (pcint1 s pulse)
    rw [List.foldl_cons, feed_cons, hreceived, hcapture, pcint1]
    rcases s.capture.edge pulse with ⟨- | byte, capture⟩
    · exact ⟨rfl, rfl⟩
    · refine ⟨?_, rfl⟩
      rw [List.reduceOption_cons_of_some, List.append_assoc]
      rfl

/-- The edges that fall into a step; none fall into the atomic block. -/
def Event.edges (s : State) : Event → List Byte
  | .edge pulseLength => [pulseLength]
  | .reader between =>
    match s.stage with
    | .take => []
    | _ => between.1

/-- The edges of a run. -/
def heard : State → List Event → List Byte
  | _, [] => []
  | s, event :: events => event.edges s ++ heard (step s event) events

theorem step_edges (s : State) (event : Event) :
    (step s event).received = ((event.edges s).foldl pcint1 s).received ∧
      (step s event).capture = ((event.edges s).foldl pcint1 s).capture := by
  rcases event with pulse | between
  · exact ⟨rfl, rfl⟩
  · rw [step, reader, Event.edges]
    rcases s.stage with - | - | -
    · exact ⟨rfl, rfl⟩
    · rcases hready : (ainReady s between).1 with - | -
      · simp only [hready]
        exact ⟨rfl, rfl⟩
      · simp only [hready]
        exact ⟨rfl, rfl⟩
    · exact ⟨rfl, rfl⟩

/-- What a run receives depends on its edges only. -/
theorem run_received (s : State) (events : List Event) :
    (run s events).received
      = s.received ++ (feed Capture.edge s.capture (heard s events)).1.reduceOption := by
  induction events generalizing s with
  | nil => exact (List.append_nil _).symm
  | cons event events ih =>
    obtain ⟨hreceived, hcapture⟩ := step_edges s event
    obtain ⟨hfold, hfold'⟩ := foldl_pcint1 s (event.edges s)
    rw [hfold] at hreceived
    rw [hfold'] at hcapture
    have hrun : (run s (event :: events)) = run (step s event) events := rfl
    rw [hrun, ih, hreceived, hcapture, heard, feed_append, List.reduceOption_append,
      List.append_assoc]

/-- **The audio-in queue keeps order and freshness**: after any run, the bytes received are
those that the edges complete; what `ain_get` returned are bytes received before, in order;
the ring holds the latest, at most 31, of those behind the last one read; and if the reader
was never more than 31 bytes behind, nothing is lost. -/
theorem audio_in (ring : RingBuf Byte 32) (bit : ℕ) (byte : Byte) (events : List Event) :
    let s := run (ainOn ring bit byte) events
    s.received = (feed Capture.edge ⟨0, bit, byte⟩
        (heard (ainOn ring bit byte) events)).1.reduceOption ∧
      s.returned.Sublist (s.received.take s.read) ∧
      s.ring.contents = (s.received.drop s.read).rtake 31 ∧
      (Along step (fun s event => behind (step s event) ≤ 31) (ainOn ring bit byte) events →
        s.returned ++ s.ring.contents = s.received) := by
  have hfresh := fresh_ainOn ring bit byte
  have hrun := fresh_run hfresh events
  refine ⟨(run_received _ events).trans (List.nil_append _), hrun.returned, hrun.contents_eq, ?_⟩
  exact lossless_run hfresh (RingBuf.contents_clear ring)

end AudioIn

end Dan64
