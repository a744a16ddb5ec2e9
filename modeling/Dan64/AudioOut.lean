/-
Dan64/AudioOut.lean

Saving: the main loop queues samples and the overflow interrupt plays them.

The main loop is a program of the places where it meets the interrupt: a sample
to put, a test of `_aout_err`, the wait at the end.  `ain_put` takes three steps
for a sample, since the interrupt can come between the two indices that
`ain_full` reads and before the atomic store; a step of a run is one of these or
the interrupt.

The queue is a FIFO whatever the interleaving (`save_fifo`).  The error flag,
though, is set by an interrupt that finds the ring empty, and is not reset: a
sample that does not fit any more then waits for ever.  `never_hangs_iff` says
when this cannot happen.
-/
import Dan64.RingBuf
import Dan64.Signal

namespace Dan64

open Mealy

namespace AudioOut

/-! ### The main loop -/

/-- What the main loop has still to do. -/
inductive Prog
  /-- `ain_put` -/
  | put (byte : Byte) (k : Prog)
  /-- a test of `aout_err` -/
  | ifErr (t e : Prog)
  /-- `while (!aout_err())`, then `aout_off` -/
  | waitErr (k : Prog)
  | ret (code : Byte)

/-- `save_queue` as far as the sample; `ain_put` gets the byte. -/
def saveQueue (data : Word) : Byte := (data.sshiftRight 8).setWidth 8 + 128

/-- Queue samples. -/
def puts (samples : List Word) (k : Prog) : Prog :=
  samples.foldr (fun sample k => .put (saveQueue sample) k) k

/-- The end of `save`: the error state is saved before the wait. -/
def saveDone : Prog := .ifErr (.waitErr (.ret 1)) (.waitErr (.ret 0))

/-- Behind the loop of `save`: the end is not encoded if there was an error. -/
def saveEnd (enc : Signal.Encoder) : Prog :=
  .ifErr saveDone (puts (Signal.encodeEnd true enc) saveDone)

/-- The loop of `save` over the data. -/
def saveLoop (enc : Signal.Encoder) : List Byte → Prog
  | [] => saveEnd enc
  | byte :: data =>
    let (samples, enc') := Signal.encodeByte true enc byte
    .ifErr (saveEnd enc) (puts samples (saveLoop enc' data))

/-- `save` after `aout_on`; the data are what it reads from the memory. -/
def save (data : List Byte) : Prog :=
  let (header, enc) := Signal.encodeHeader true ⟨32000, 0, 0⟩ (BitVec.ofNat 16 data.length)
  puts header (saveLoop enc data)

/-! ### The machine -/

/-- Where the main loop is in `ain_put`. -/
inductive Stage
  /-- about to read `ain_end` -/
  | readEnd
  /-- `ain_end + 1` is known, about to compare it with `ain_start` -/
  | compare (next : ℕ)
  /-- there was space, about to store -/
  | store

structure State where
  /-- `ain_buffer`, `ain_start` and `ain_end` -/
  ring : RingBuf Byte 32
  /-- `_aout_err` -/
  err : Bool
  /-- the static counter of the interrupt handler -/
  cnt : ℕ
  ocr2b : Byte
  prog : Prog
  stage : Stage
  /-- the samples that `ain_put` has stored -/
  queued : List Byte
  /-- the samples that the handler has taken from the ring -/
  played : List Byte
  /-- a store took the branch that drops the oldest sample -/
  dropped : Bool

inductive Event
  | mainLoop
  | timer2Ovf

/-- `aout_on`; the counter of the handler is not reset. -/
def aoutOn (ring : RingBuf Byte 32) (cnt : ℕ) (prog : Prog) : State :=
  ⟨ring.clear, false, cnt, 0, prog, .readEnd, [], [], false⟩

/-- `TIMER2_OVF_vect` -/
def timer2Ovf (s : State) : State :=
  if s.cnt < 4 then { s with cnt := s.cnt + 1 }
  else if s.ring.Empty ∨ s.err then { s with cnt := 0, err := true, ocr2b := 0 }
  else
    { s with
      cnt := 0
      ocr2b := s.ring.head
      ring := s.ring.pop
      played := s.played ++ [s.ring.head] }

/-- A step of `ain_put`, with the sample and what follows it. -/
def ainPut (s : State) (byte : Byte) (k : Prog) : State :=
  match s.stage with
  | .readEnd => { s with stage := .compare ((s.ring.stop + 1) % 32) }
  | .compare next => { s with stage := if next = s.ring.start then .readEnd else .store }
  | .store =>
    { s with
      ring := s.ring.push byte
      prog := k
      stage := .readEnd
      queued := s.queued ++ [byte]
      dropped := s.dropped || s.ring.Full }

/-- A step of the main loop. -/
def mainLoop (s : State) : State :=
  match s.prog with
  | .put byte k => ainPut s byte k
  | .ifErr t e => { s with prog := if s.err then t else e }
  | .waitErr k => if s.err then { s with prog := k } else s
  | .ret _ => s

/-- A step; `aout_off` has disabled the interrupt when `save` returns. -/
def step (s : State) : Event → State
  | .mainLoop => mainLoop s
  | .timer2Ovf =>
    match s.prog with
    | .ret _ => s
    | _ => timer2Ovf s

/-- A run. -/
def run (s : State) (events : List Event) : State := events.foldl step s

/-! ### The queue -/

/-- What the stage says of the ring: the end is the one that was read, and where
there was space there still is. -/
def Stage.Sound (ring : RingBuf Byte 32) : Stage → Prop
  | .readEnd => True
  | .compare next => next = (ring.stop + 1) % 32
  | .store => ¬ ring.Full

/-- The samples played and those in the ring are the samples queued, and none was
dropped. -/
structure Fifo (s : State) : Prop where
  sound : s.stage.Sound s.ring
  conserved : s.played ++ s.ring.contents = s.queued
  kept : s.dropped = false

/-- The handler only takes. -/
theorem Stage.Sound.pop {ring : RingBuf Byte 32} (h : ¬ ring.Empty) {stage : Stage}
    (hsound : stage.Sound ring) : stage.Sound ring.pop := by
  cases stage with
  | readEnd => trivial
  | compare next => exact hsound
  | store => exact RingBuf.not_full_pop h

theorem fifo_timer2Ovf {s : State} (h : Fifo s) : Fifo (timer2Ovf s) := by
  rw [timer2Ovf]
  split
  · exact ⟨h.sound, h.conserved, h.kept⟩
  · split
    · exact ⟨h.sound, h.conserved, h.kept⟩
    · rename_i hplay
      have hne : ¬ s.ring.Empty := fun hempty => hplay (.inl hempty)
      refine ⟨h.sound.pop hne, ?_, h.kept⟩
      show (s.played ++ [s.ring.head]) ++ s.ring.pop.contents = s.queued
      rw [← h.conserved, RingBuf.contents_pop hne, List.append_assoc, List.singleton_append]

theorem fifo_ainPut {s : State} (h : Fifo s) (byte : Byte) (k : Prog) :
    Fifo (ainPut s byte k) := by
  have hsound := h.sound
  rcases hstage : s.stage with - | next | - <;> rw [hstage] at hsound <;> simp only [ainPut, hstage]
  · exact ⟨rfl, h.conserved, h.kept⟩
  · refine ⟨?_, h.conserved, h.kept⟩
    obtain rfl : next = (s.ring.stop + 1) % 32 := hsound
    show Stage.Sound s.ring (if s.ring.Full then .readEnd else .store)
    split
    · trivial
    · assumption
  · -- the test was made before, but the handler has only taken since
    have hspace : ¬ s.ring.Full := hsound
    refine ⟨trivial, ?_, ?_⟩
    · show s.played ++ (s.ring.push byte).contents = s.queued ++ [byte]
      rw [RingBuf.contents_push hspace, ← List.append_assoc, h.conserved]
    · show (s.dropped || decide s.ring.Full) = false
      rw [h.kept, decide_eq_false hspace]
      rfl

theorem fifo_step {s : State} (h : Fifo s) (event : Event) : Fifo (step s event) := by
  cases event with
  | mainLoop =>
    rw [step, mainLoop]
    split
    · exact fifo_ainPut h _ _
    · exact ⟨h.sound, h.conserved, h.kept⟩
    · split
      · exact ⟨h.sound, h.conserved, h.kept⟩
      · exact h
    · exact h
  | timer2Ovf =>
    rw [step]
    split
    · exact h
    · exact fifo_timer2Ovf h

theorem fifo_run {s : State} (h : Fifo s) (events : List Event) : Fifo (run s events) :=
  List.foldlRecOn events step h fun _ hs event _ => fifo_step hs event

theorem fifo_aoutOn (ring : RingBuf Byte 32) (cnt : ℕ) (prog : Prog) :
    Fifo (aoutOn ring cnt prog) := ⟨trivial, RingBuf.contents_clear ring, rfl⟩

/-! ### The samples of a save -/

/-- The samples of a save. -/
def samples (data : List Byte) : List Word := Signal.encode true ⟨32000, 0, 0⟩ data

/-- The samples that are queued if there is no error. -/
def Prog.pending : Prog → List Byte
  | put byte k => byte :: k.pending
  | ifErr _ e => e.pending
  | waitErr k => k.pending
  | ret _ => []

/-- The samples that are still queued once the error flag is set. -/
def Prog.committedSamples : Prog → List Byte
  | put byte k => byte :: k.committedSamples
  | ifErr t _ => t.committedSamples
  | waitErr k => k.committedSamples
  | ret _ => []

/-- The program queues these samples, and the first ones of them if there is an error. -/
def Prog.Queues : Prog → List Byte → Prop
  | put byte k, bytes => ∃ rest, bytes = byte :: rest ∧ k.Queues rest
  | ifErr t e, bytes => t.committedSamples <+: bytes ∧ e.Queues bytes
  | waitErr k, bytes => k.Queues bytes
  | ret _, bytes => bytes = []

theorem Prog.Queues.pending {prog : Prog} {bytes : List Byte} (h : prog.Queues bytes) :
    prog.pending = bytes := by
  induction prog generalizing bytes with
  | put byte k ih =>
    obtain ⟨rest, rfl, hk⟩ := h
    exact congrArg (byte :: ·) (ih hk)
  | ifErr t e _ ihe => exact ihe h.2
  | waitErr k ih => exact ih h
  | ret code => exact h.symm

theorem Prog.Queues.committedSamples {prog : Prog} {bytes : List Byte} (h : prog.Queues bytes) :
    prog.committedSamples <+: bytes := by
  induction prog generalizing bytes with
  | put byte k ih =>
    obtain ⟨rest, rfl, hk⟩ := h
    exact List.cons_prefix_cons.mpr ⟨rfl, ih hk⟩
  | ifErr t e => exact h.1
  | waitErr k ih => exact ih h
  | ret code => exact List.nil_prefix

theorem queues_puts {k : Prog} {bytes : List Byte} (h : k.Queues bytes) (samples : List Word) :
    (puts samples k).Queues (samples.map saveQueue ++ bytes) := by
  induction samples with
  | nil => exact h
  | cons sample samples ih => exact ⟨_, rfl, ih⟩

theorem queues_saveEnd (enc : Signal.Encoder) :
    (saveEnd enc).Queues ((Signal.encodeEnd true enc).map saveQueue) := by
  have hdone : saveDone.Queues [] := ⟨List.prefix_rfl, rfl⟩
  have h := queues_puts hdone (Signal.encodeEnd true enc)
  rw [List.append_nil] at h
  exact ⟨List.nil_prefix, h⟩

theorem queues_saveLoop (enc : Signal.Encoder) (data : List Byte) :
    (saveLoop enc data).Queues (((feed (Signal.encodeByte true) enc data).1.flatten ++
      Signal.encodeEnd true (feed (Signal.encodeByte true) enc data).2).map saveQueue) := by
  induction data generalizing enc with
  | nil => exact queues_saveEnd enc
  | cons byte data ih =>
    have h := queues_puts (ih (Signal.encodeByte true enc byte).2)
      (Signal.encodeByte true enc byte).1
    rw [feed_cons, List.flatten_cons, List.append_assoc, List.map_append]
    exact ⟨List.nil_prefix, h⟩

theorem queues_save (data : List Byte) : (save data).Queues ((samples data).map saveQueue) := by
  let header := Signal.encodeHeader true ⟨32000, 0, 0⟩ (BitVec.ofNat 16 data.length)
  have h := queues_puts (queues_saveLoop header.2 data) header.1
  have hencode : samples data = header.1 ++
      ((feed (Signal.encodeByte true) header.2 data).1.flatten ++
        Signal.encodeEnd true (feed (Signal.encodeByte true) header.2 data).2) :=
    List.append_assoc _ _ _
  rw [hencode, List.map_append]
  exact h

/-- What was queued, and what the program still queues: all of the samples, or the first ones
of them if there is an error. -/
structure Handed (all : List Byte) (s : State) : Prop where
  saving : s.err = false → s.prog.Queues s.prog.pending ∧ s.queued ++ s.prog.pending = all
  failing : s.err = true → s.queued ++ s.prog.committedSamples <+: all

theorem Handed.mainLoop {all : List Byte} {s : State} (h : Handed all s) :
    Handed all (mainLoop s) := by
  rw [AudioOut.mainLoop]
  split
  · next byte k hprog =>
    rcases hstage : s.stage with - | next | - <;> simp only [ainPut, hstage]
    · exact ⟨h.saving, h.failing⟩
    · exact ⟨h.saving, h.failing⟩
    · -- the sample goes from the program to the queue
      refine ⟨fun herr => ?_, fun herr => ?_⟩
      · obtain ⟨hqueues, hall⟩ := h.saving herr
        rw [hprog] at hqueues hall
        obtain ⟨rest, hrest, hk⟩ := hqueues
        exact ⟨hk.pending.symm ▸ hk, (List.append_assoc ..).trans hall⟩
      · have hfront := h.failing herr
        rw [hprog, Prog.committedSamples] at hfront
        rwa [List.append_assoc]
  · next t e hprog =>
    refine ⟨fun herr => ?_, fun herr => ?_⟩
    · obtain ⟨hqueues, hall⟩ := h.saving herr
      rw [hprog] at hqueues hall
      simp only [show s.err = false from herr]
      exact ⟨hqueues.2, hall⟩
    · have hfront := h.failing herr
      rw [hprog] at hfront
      simp only [show s.err = true from herr]
      exact hfront
  · next k hprog =>
    split
    · next herr =>
      refine ⟨fun hno => absurd hno (by simp [herr]), fun _ => ?_⟩
      have hfront := h.failing herr
      rwa [hprog] at hfront
    · exact h
  · exact h

theorem Handed.timer2Ovf {all : List Byte} {s : State} (h : Handed all s) :
    Handed all (timer2Ovf s) := by
  rw [AudioOut.timer2Ovf]
  split
  · exact ⟨h.saving, h.failing⟩
  · split
    · refine ⟨fun herr => absurd herr (by simp), fun _ => ?_⟩
      cases herr : s.err with
      | true => exact h.failing herr
      | false =>
        obtain ⟨hqueues, hall⟩ := h.saving herr
        rw [← hall]
        exact (List.prefix_append_right_inj _).mpr hqueues.committedSamples
    · exact ⟨h.saving, h.failing⟩

theorem handed_run {all : List Byte} {s : State} (h : Handed all s) (events : List Event) :
    Handed all (run s events) := by
  refine List.foldlRecOn events step h ?_
  intro s hs event _
  cases event with
  | mainLoop => exact hs.mainLoop
  | timer2Ovf =>
    rw [step]
    split
    · exact hs
    · exact hs.timer2Ovf

theorem handed_aoutOn (ring : RingBuf Byte 32) (cnt : ℕ) (data : List Byte) :
    Handed ((samples data).map saveQueue) (aoutOn ring cnt (save data)) := by
  have h := queues_save data
  exact ⟨fun _ => ⟨h.pending.symm ▸ h, h.pending⟩, fun herr => absurd herr (by simp [aoutOn])⟩

/-- **The audio-out queue is a lossless FIFO**: after any run of a save and the
interrupt, the samples played followed by the samples in the ring are the samples
queued, and the branch that drops a sample was not taken.  The samples queued are those
that `save` has handed to `ain_put`: with those it has still to hand over they are all
of its samples, or the first ones if there was an error. -/
theorem save_fifo (ring : RingBuf Byte 32) (cnt : ℕ) (data : List Byte) (events : List Event) :
    let s := run (aoutOn ring cnt (save data)) events
    let all := (samples data).map saveQueue
    s.played ++ s.ring.contents = s.queued ∧ s.dropped = false ∧ s.queued <+: all ∧
      (s.err = false → s.queued ++ s.prog.pending = all) ∧
      (s.err = true → s.queued ++ s.prog.committedSamples <+: all) := by
  intro s all
  have hfifo := fifo_run (fifo_aoutOn ring cnt (save data)) events
  have hhanded := handed_run (handed_aoutOn ring cnt data) events
  refine ⟨hfifo.conserved, hfifo.kept, ?_, fun herr => (hhanded.saving herr).2, hhanded.failing⟩
  cases herr : s.err with
  | true => exact (List.prefix_append _ _).trans (hhanded.failing herr)
  | false => exact ⟨_, (hhanded.saving herr).2⟩

/-! ### Waiting for space -/

/-- How many samples the main loop still queues once the error flag is set: those
up to its next test of the flag, and what it does after that. -/
def Prog.committed : Prog → ℕ
  | .put _ k => k.committed + 1
  | .ifErr t _ => t.committed
  | .waitErr k => k.committed
  | .ret _ => 0

/-- The main loop waits in `ain_put` because the ring is full. -/
def Waiting (s : State) : Prop := ∃ byte k, s.prog = .put byte k ∧ s.ring.Full

instance (s : State) : Decidable (Waiting s) :=
  match h : s.prog with
  | .put byte k => decidable_of_iff s.ring.Full (by simp [Waiting, h])
  | .ifErr _ _ | .waitErr _ | .ret _ => isFalse (by simp [Waiting, h])

/-- It waits, and the handler does not take any more. -/
def Hung (s : State) : Prop := Waiting s ∧ s.err = true

instance (s : State) : Decidable (Hung s) := inferInstanceAs (Decidable (_ ∧ _))

/-- An interrupt that is to play finds a sample, or what the main loop still queues
fits into the ring. -/
def Fed (s : State) : Event → Prop
  | .mainLoop => True
  | .timer2Ovf => 4 ≤ s.cnt → s.ring.Empty → s.prog.committed ≤ 31

/-- Once the flag is set, there is space for all samples to come. -/
def Fits (s : State) : Prop := s.err = true → s.prog.committed + s.ring.length ≤ 31

/-- The flag is set, and there is not. -/
def Overrun (s : State) : Prop := s.err = true ∧ 32 ≤ s.prog.committed + s.ring.length

/-- With the flag set, a step moves samples from the program to the ring. -/
theorem step_err {s : State} (hfifo : Fifo s) (herr : s.err = true) (event : Event) :
    (step s event).err = true ∧ (step s event).prog.committed + (step s event).ring.length
      = s.prog.committed + s.ring.length := by
  have hsound := hfifo.sound
  cases event with
  | mainLoop =>
    rw [step, mainLoop]
    split
    · rename_i byte k hprog
      -- queueing a sample takes it from the program to the ring
      rcases hstage : s.stage with - | next | - <;> rw [hstage] at hsound <;>
        simp only [ainPut, hstage, hprog]
      · exact ⟨herr, trivial⟩
      · exact ⟨herr, trivial⟩
      · rw [RingBuf.length_push hsound, Prog.committed, Nat.add_right_comm, Nat.add_assoc]
        exact ⟨herr, rfl⟩
    · -- the flag is set, so a test takes the branch that `committed` counts
      rename_i t e hprog
      rw [if_pos herr, hprog]
      exact ⟨herr, rfl⟩
    · rename_i k hprog
      rw [if_pos herr, hprog]
      exact ⟨herr, rfl⟩
    · exact ⟨herr, rfl⟩
  | timer2Ovf =>
    rw [step]
    split
    · exact ⟨herr, rfl⟩
    · rw [timer2Ovf, if_pos (Or.inr herr)]
      split
      · exact ⟨herr, rfl⟩
      · exact ⟨rfl, rfl⟩

/-- Without it, the handler sets it where the ring is empty. -/
theorem step_not_err {s : State} (herr : s.err = false) (event : Event) :
    (step s event).err = true → event = .timer2Ovf ∧ 4 ≤ s.cnt ∧ s.ring.Empty ∧
      (step s event).prog = s.prog ∧ (step s event).ring = s.ring := by
  have hfalse : ¬ s.err = true := by
    rw [herr]
    exact Bool.false_ne_true
  cases event with
  | mainLoop =>
    intro hset
    -- the main loop does not write the flag
    refine absurd ?_ hfalse
    rw [step, mainLoop] at hset
    split at hset
    · rcases hstage : s.stage with - | next | - <;> simp only [ainPut, hstage] at hset <;>
      exact hset
    · exact hset
    · rwa [if_neg hfalse] at hset
    · exact hset
  | timer2Ovf =>
    rw [step]
    split
    · exact fun hset => absurd hset hfalse
    · rw [timer2Ovf]
      split
      · exact fun hset => absurd hset hfalse
      · rename_i hcnt
        split
        · rename_i hplay
          intro
          exact ⟨rfl, not_lt.mp hcnt, hplay.resolve_right hfalse, rfl, rfl⟩
        · exact fun hset => absurd hset hfalse

theorem fits_step {s : State} (hfifo : Fifo s) (h : Fits s) {event : Event} (hfed : Fed s event) :
    Fits (step s event) := by
  intro hset
  cases herr : s.err with
  | true =>
    rw [(step_err hfifo herr event).2]
    exact h herr
  | false =>
    obtain ⟨rfl, hcnt, hempty, hprog, hring⟩ := step_not_err herr event hset
    rw [hprog, hring, s.ring.empty_iff.mp hempty]
    exact hfed hcnt hempty

theorem Fits.not_hung {s : State} (h : Fits s) : ¬ Hung s := by
  rintro ⟨⟨byte, k, hprog, hfull⟩, herr⟩
  have hle := h herr
  rw [hprog, Prog.committed] at hle
  have hlength := s.ring.full_iff.mp hfull
  omega

/-- A bad interrupt leaves too little space. -/
theorem overrun_of_not_fed {s : State} {event : Event} (h : ¬ Fed s event) :
    Overrun (step s event) := by
  cases event with
  | mainLoop => exact absurd trivial h
  | timer2Ovf =>
    simp only [Fed, not_forall, not_le] at h
    obtain ⟨hcnt, hempty, hlt⟩ := h
    have hstep : step s .timer2Ovf = { s with cnt := 0, err := true, ocr2b := 0 } := by
      rw [step]
      split
      · rename_i hprog
        rw [hprog] at hlt
        exact absurd hlt (Nat.not_lt_zero 31)
      · rw [timer2Ovf, if_neg (not_lt.mpr hcnt), if_pos (Or.inl hempty)]
    rw [hstep]
    exact ⟨rfl, Nat.le_add_right_of_le hlt⟩

theorem overrun_step {s : State} (hfifo : Fifo s) (h : Overrun s) (event : Event) :
    Overrun (step s event) := by
  obtain ⟨herr, hsum⟩ := step_err hfifo h.1 event
  refine ⟨herr, ?_⟩
  rw [hsum]
  exact h.2

theorem overrun_run {s : State} (hfifo : Fifo s) (h : Overrun s) (events : List Event) :
    Overrun (run s events) := by
  have hboth : Fifo (run s events) ∧ Overrun (run s events) := by
    refine @List.foldlRecOn _ _ (fun s => Fifo s ∧ Overrun s) events step s ⟨hfifo, h⟩ ?_
    rintro s ⟨hfifo, h⟩ event -
    exact ⟨fifo_step hfifo event, overrun_step hfifo h event⟩
  exact hboth.2

theorem run_append (s : State) (es fs : List Event) : run s (es ++ fs) = run (run s es) fs :=
  List.foldl_append

/-- Where there is space, the main loop gets a sample into the ring. -/
theorem put_done {s : State} (hfifo : Fifo s) {byte : Byte} {k : Prog}
    (hprog : s.prog = .put byte k)
    (hspace : ¬ s.ring.Full) : ∃ n, (run s (List.replicate n .mainLoop)).prog = k := by
  have hsound := hfifo.sound
  have hne : ¬ (s.ring.stop + 1) % 32 = s.ring.start := hspace
  rcases hstage : s.stage with - | next | - <;> rw [hstage] at hsound
  · refine ⟨3, ?_⟩
    simp [List.replicate, run, step, mainLoop, ainPut, hprog, hstage, hne]
  · refine ⟨2, ?_⟩
    obtain rfl : next = (s.ring.stop + 1) % 32 := hsound
    simp [List.replicate, run, step, mainLoop, ainPut, hprog, hstage, hne]
  · refine ⟨1, ?_⟩
    simp [List.replicate, run, step, mainLoop, ainPut, hprog, hstage]

/-- The main loop takes some steps, and then it comes to wait. -/
theorem hung_after {s : State} {n : ℕ} (h : ∃ m, Hung (run (run s (List.replicate n .mainLoop))
    (List.replicate m .mainLoop))) : ∃ n, Hung (run s (List.replicate n .mainLoop)) := by
  obtain ⟨m, hhung⟩ := h
  refine ⟨n + m, ?_⟩
  rw [List.replicate_add, run_append]
  exact hhung

/-- The main loop alone comes to wait: induction on what it has to do. -/
theorem hung_of_overrun {s : State} (hfifo : Fifo s) (h : Overrun s) :
    ∃ n, Hung (run s (List.replicate n .mainLoop)) := by
  obtain ⟨prog, hprog⟩ : ∃ prog, s.prog = prog := ⟨_, rfl⟩
  -- what holds after any steps
  have hfifo' := fifo_run hfifo
  have hover' := overrun_run hfifo h
  induction prog generalizing s with
  | put byte k ih =>
    by_cases hfull : s.ring.Full
    · exact ⟨0, ⟨byte, k, hprog, hfull⟩, h.1⟩
    · obtain ⟨n, hk⟩ := put_done hfifo hprog hfull
      apply hung_after
      exact ih (hfifo' _) (hover' _) hk (fifo_run (hfifo' _)) (overrun_run (hfifo' _) (hover' _))
  | ifErr t e iht ihe =>
    have ht : (run s (List.replicate 1 .mainLoop)).prog = t := by
      simp [List.replicate, run, step, mainLoop, hprog, h.1]
    apply hung_after
    exact iht (hfifo' _) (hover' _) ht (fifo_run (hfifo' _)) (overrun_run (hfifo' _) (hover' _))
  | waitErr k ih =>
    have hk : (run s (List.replicate 1 .mainLoop)).prog = k := by
      simp [List.replicate, run, step, mainLoop, hprog, h.1]
    apply hung_after
    exact ih (hfifo' _) (hover' _) hk (fifo_run (hfifo' _)) (overrun_run (hfifo' _) (hover' _))
  | ret code =>
    have hle := h.2
    rw [hprog, Prog.committed, Nat.zero_add] at hle
    exact absurd s.ring.length_lt (not_lt.mpr hle)

/-! ### Runs -/

theorem fits_run {s : State} (hfifo : Fifo s) (h : Fits s) {events : List Event}
    (hfed : Along step Fed s events) : Fits (run s events) := by
  have hstep : ∀ s event, Fifo s ∧ Fits s → Fed s event →
      Fifo (step s event) ∧ Fits (step s event) := by
    rintro s event ⟨hfifo, h⟩ hfed
    exact ⟨fifo_step hfifo event, fits_step hfifo h hfed⟩
  exact (hfed.invariant hstep ⟨hfifo, h⟩).2

theorem fed_mainLoop (s : State) (n : ℕ) : Along step Fed s (List.replicate n .mainLoop) := by
  induction n generalizing s with
  | zero => trivial
  | succ n ih => exact ⟨trivial, ih _⟩

theorem overrun_of_not_along {s : State} (hfifo : Fifo s) {events : List Event}
    (h : ¬ Along step Fed s events) : Overrun (run s events) := by
  induction events generalizing s with
  | nil => exact absurd trivial h
  | cons event events ih =>
    by_cases hfed : Fed s event
    · exact ih (fifo_step hfifo event) fun hfeds => h ⟨hfed, hfeds⟩
    · exact overrun_run (fifo_step hfifo event) (overrun_of_not_fed hfed) events

/-- What waits with the flag set stays there. -/
theorem hung_step {s : State} (hfifo : Fifo s) (h : Hung s) (event : Event) :
    Hung (step s event) ∧ (step s event).prog = s.prog := by
  obtain ⟨⟨byte, k, hprog, hfull⟩, herr⟩ := h
  have hsound := hfifo.sound
  have heq : (s.ring.stop + 1) % 32 = s.ring.start := hfull
  cases event with
  | mainLoop =>
    have hmain : step s .mainLoop = ainPut s byte k := by
      rw [step, mainLoop, hprog]
    rw [hmain]
    rcases hstage : s.stage with - | next | - <;> rw [hstage] at hsound <;>
      simp only [ainPut, hstage]
    · exact ⟨⟨⟨byte, k, hprog, hfull⟩, herr⟩, trivial⟩
    · exact ⟨⟨⟨byte, k, hprog, hfull⟩, herr⟩, trivial⟩
    · exact absurd hfull hsound
  | timer2Ovf =>
    have hovf : step s .timer2Ovf = timer2Ovf s := by
      rw [step, hprog]
    rw [hovf, timer2Ovf, if_pos (Or.inr herr)]
    split
    · exact ⟨⟨⟨byte, k, hprog, hfull⟩, herr⟩, rfl⟩
    · exact ⟨⟨⟨byte, k, hprog, hfull⟩, rfl⟩, rfl⟩

/-- **A save does not hang**, neither in a run nor in what the main loop does after
it, exactly if no interrupt of the run finds the ring empty while more samples are
to be queued without a test of the flag than the ring holds. -/
theorem never_hangs_iff (ring : RingBuf Byte 32) (cnt : ℕ) (data : List Byte)
    (events : List Event) :
    (∀ n es, es <+: events ++ List.replicate n .mainLoop →
        ¬ Hung (run (aoutOn ring cnt (save data)) es)) ↔
      Along step Fed (aoutOn ring cnt (save data)) events := by
  have hfifo := fifo_aoutOn ring cnt (save data)
  constructor
  · intro h
    by_contra hbad
    -- a bad interrupt is an overrun, and then the main loop runs into the full ring
    have hover := overrun_of_not_along hfifo hbad
    obtain ⟨n, hhung⟩ := hung_of_overrun (fifo_run hfifo events) hover
    rw [← run_append] at hhung
    exact h n _ List.prefix_rfl hhung
  · intro hfed n es hskip
    obtain ⟨fs, hes⟩ := hskip
    have hfits : Fits (aoutOn ring cnt (save data)) := nofun
    have hall : Along step Fed (aoutOn ring cnt (save data)) (es ++ fs) := by
      rw [hes, along_append]
      exact ⟨hfed, fed_mainLoop _ n⟩
    exact (fits_run hfifo hfits ((along_append step Fed _ es fs).mp hall).1).not_hung

theorem hung_run {s : State} (hfifo : Fifo s) (h : Hung s) (events : List Event) :
    Hung (run s events) ∧ (run s events).prog = s.prog := by
  induction events generalizing s with
  | nil => exact ⟨h, rfl⟩
  | cons event events ih =>
    obtain ⟨hhung, hprog⟩ := hung_step hfifo h event
    obtain ⟨hhung', hprog'⟩ := ih (fifo_step hfifo event) hhung
    exact ⟨hhung', hprog'.trans hprog⟩

/-- The first interrupt comes before the first sample: the main loop fills the ring
and waits, whatever happens next. -/
theorem save_hangs :
    let s := run (aoutOn ⟨fun _ => 0, 0, 0, by decide, by decide⟩ 4 (save [0x41]))
      (.timer2Ovf :: List.replicate 93 .mainLoop)
    Hung s ∧ ∀ events, Hung (run s events) ∧ (run s events).prog = s.prog := by
  intro s
  have hhung : Hung s := by
    decide +kernel
  exact ⟨hhung, hung_run (fifo_run (fifo_aoutOn _ _ _) _) hhung⟩

end AudioOut

end Dan64
