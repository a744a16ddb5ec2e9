/-
Dan64/AudioRate.lean

How long a sample of a save is played.

The handler of the overflow interrupt divides by a static counter that it tests before
it counts: four interrupts return at once, and the next one plays.  A `Clocked` run counts
the interrupts and notes when a sample is taken from the ring.  `Paced` is the invariant:
since the last sample as many interrupts have passed as the counter says.  So samples are
taken every fifth interrupt (`playsEvery_five`), whatever the phase that an earlier save
left behind, and a half pulse lasts five interrupts for each of its samples.

The sample rate of the encoder is a fourth of the interrupts.  A save that returns without
an error has played all its samples (`played_of_ret`), and so never at that rate
(`sample_rate_iff`).
-/
import Dan64.AudioReturn
import Dan64.TapeSignal

namespace Dan64

open Mealy Signal

namespace AudioOut

/-! ### The clock -/

/-- A run with the overflow interrupts so far, and the number of the interrupt that took
each sample. -/
structure Clocked where
  state : State
  now : ℕ
  starts : List ℕ

def tick (c : Clocked) (event : Event) : Clocked :=
  let s := step c.state event
  { state := s
    now := match event with
      | .mainLoop => c.now
      | .timer2Ovf => c.now + 1
    starts := if c.state.played.length < s.played.length then c.starts ++ [c.now] else c.starts }

def clocked (s : State) (events : List Event) : Clocked := events.foldl tick ⟨s, 0, []⟩

theorem clocked_state (s : State) (events : List Event) :
    (clocked s events).state = run s events := by
  have hfold : ∀ c : Clocked, (events.foldl tick c).state = run c.state events := by
    induction events with
    | nil => exact fun c => rfl
    | cons event events ih => exact fun c => ih (tick c event)
  exact hfold ⟨s, 0, []⟩

/-- Every sample stays for `n` interrupts before the next one. -/
def PlaysEvery (n : ℕ) (c : Clocked) : Prop := c.starts.IsChain fun i j => j = i + n

/-! ### The divider -/

/-- Nothing is played any more. -/
def Stopped (s : State) : Prop := s.err = true ∨ ∃ code, s.prog = .ret code

/-- Since the last sample the counter has counted the interrupts. -/
structure Paced (c : Clocked) : Prop where
  length : c.starts.length = c.state.played.length
  every : PlaysEvery 5 c
  phase : Stopped c.state ∨
    ∀ start ∈ c.starts.getLast?, c.state.cnt ≤ 4 ∧ c.now = start + 1 + c.state.cnt
  held : c.state.err = false → c.state.ocr2b = c.state.played.getLastD 0

theorem Stopped.mainLoop {s : State} (h : Stopped s) : Stopped (mainLoop s) := by
  rcases h with herr | ⟨code, hprog⟩
  · exact .inl ((mainLoop_kept s).2.2.1.trans herr)
  · refine .inr ⟨code, ?_⟩
    rw [AudioOut.mainLoop, hprog]
    exact hprog

/-- A step that takes no sample. -/
theorem Paced.quiet {c : Clocked} (h : Paced c) (event : Event)
    (hplayed : (step c.state event).played = c.state.played)
    (hphase : Stopped (step c.state event) ∨ ∀ start ∈ c.starts.getLast?,
      (step c.state event).cnt ≤ 4 ∧ (tick c event).now = start + 1 + (step c.state event).cnt)
    (hheld : (step c.state event).err = false →
      (step c.state event).ocr2b = c.state.played.getLastD 0) : Paced (tick c event) := by
  have hstarts : (tick c event).starts = c.starts :=
    if_neg (not_lt.mpr (congrArg List.length hplayed).le)
  refine ⟨?_, ?_, ?_, ?_⟩
  · rw [hstarts]
    exact h.length.trans (congrArg List.length hplayed).symm
  · rw [PlaysEvery, hstarts]
    exact h.every
  · rw [hstarts]
    exact hphase
  · intro hok
    exact (hheld hok).trans (congrArg (List.getLastD · 0) hplayed).symm

theorem paced_mainLoop {c : Clocked} (h : Paced c) : Paced (tick c .mainLoop) := by
  obtain ⟨hplayed, hcnt, herr, hocr⟩ := mainLoop_kept c.state
  refine h.quiet .mainLoop hplayed (h.phase.imp Stopped.mainLoop ?_) ?_
  · intro hphase start hstart
    show (mainLoop c.state).cnt ≤ 4 ∧ c.now = start + 1 + (mainLoop c.state).cnt
    rw [hcnt]
    exact hphase start hstart
  · intro hok
    exact hocr.trans (h.held (herr.symm.trans hok))

/-- The fifth interrupt. -/
theorem paced_play {c : Clocked} (h : Paced c) (hrunning : ¬ Stopped c.state)
    (hcnt : ¬ c.state.cnt < 4)
    (hstep : step c.state .timer2Ovf = { c.state with
      cnt := 0
      ocr2b := c.state.ring.head
      ring := c.state.ring.pop
      played := c.state.played ++ [c.state.ring.head] }) : Paced (tick c .timer2Ovf) := by
  have hplayed : (step c.state .timer2Ovf).played = c.state.played ++ [c.state.ring.head] :=
    congrArg State.played hstep
  have hlen : (step c.state .timer2Ovf).played.length = c.state.played.length + 1 := by
    rw [hplayed, List.length_append, List.length_singleton]
  have hstarts : (tick c .timer2Ovf).starts = c.starts ++ [c.now] :=
    if_pos (hlen ▸ Nat.lt_add_one _)
  refine ⟨?_, ?_, ?_, ?_⟩
  · rw [hstarts, List.length_append, List.length_singleton, h.length]
    exact hlen.symm
  · rw [PlaysEvery, hstarts, List.isChain_append]
    refine ⟨h.every, .singleton _, ?_⟩
    rintro start hstart _ ⟨⟩
    obtain ⟨hle, hnow⟩ := h.phase.resolve_left hrunning start hstart
    omega
  · right
    rw [hstarts, List.getLast?_concat, tick, hstep]
    rintro _ ⟨⟩
    exact ⟨Nat.zero_le 4, rfl⟩
  · rw [tick, hstep]
    intro _
    exact List.getLastD_concat.symm

theorem paced_timer2Ovf {c : Clocked} (h : Paced c) : Paced (tick c .timer2Ovf) := by
  by_cases hret : ∃ code, c.state.prog = .ret code
  · -- the interrupt is disabled
    obtain ⟨code, hprog⟩ := hret
    have hstep : step c.state .timer2Ovf = c.state := by
      rw [step, hprog]
    refine h.quiet .timer2Ovf (congrArg State.played hstep) (.inl (.inr ⟨code, ?_⟩)) ?_
    · rw [hstep]
      exact hprog
    · rw [hstep]
      exact h.held
  · have hstep : step c.state .timer2Ovf = timer2Ovf c.state := by
      rw [step]
      split
      · next code hprog => exact absurd ⟨code, hprog⟩ hret
      · rfl
    rw [timer2Ovf] at hstep
    split at hstep
    · next hcnt =>
      refine h.quiet .timer2Ovf (hstep ▸ rfl) (h.phase.imp ?_ ?_) ?_
      · rw [hstep]
        exact id
      · intro hphase start hstart
        obtain ⟨-, hnow⟩ := hphase start hstart
        rw [hstep]
        exact ⟨hcnt, congrArg (· + 1) hnow⟩
      · rw [hstep]
        exact h.held
    · next hcnt =>
      split at hstep
      · refine h.quiet .timer2Ovf (hstep ▸ rfl) (.inl (.inl ?_)) ?_
        · rw [hstep]
        · rw [hstep]
          intro hok
          cases hok
      · next hplay =>
        refine paced_play h ?_ hcnt hstep
        rintro (herr | hcode)
        · exact hplay (.inr herr)
        · exact hret hcode

theorem paced_clocked (s : State) (hplayed : s.played = []) (hocr : s.ocr2b = 0)
    (events : List Event) : Paced (clocked s events) := by
  have hstart : Paced ⟨s, 0, []⟩ := by
    refine ⟨?_, .nil, .inr nofun, fun _ => ?_⟩
    · exact (congrArg List.length hplayed).symm
    · rw [hplayed]
      exact hocr
  refine List.foldlRecOn events tick hstart ?_
  intro c hc event _
  cases event with
  | mainLoop => exact paced_mainLoop hc
  | timer2Ovf => exact paced_timer2Ovf hc

/-- From a sample to a later one. -/
theorem PlaysEvery.add {n : ℕ} {c : Clocked} (h : PlaysEvery n c) {i k a b : ℕ}
    (ha : c.starts[i]? = some a) (hb : c.starts[i + k]? = some b) : b = a + n * k := by
  induction k generalizing b with
  | zero => exact Option.some.inj (hb.symm.trans ha)
  | succ k ih =>
    obtain ⟨hlt, rfl⟩ := List.getElem?_eq_some_iff.mp hb
    have hk : i + k < c.starts.length := Nat.lt_of_succ_lt hlt
    have hprev := ih (List.getElem?_eq_getElem hk)
    have hnext : c.starts[i + k + 1] = c.starts[i + k] + n := List.isChain_iff_getElem.mp h _ hlt
    calc c.starts[i + (k + 1)]
        = c.starts[i + k] + n := hnext
      _ = a + n * (k + 1) := by rw [hprev, Nat.mul_succ, Nat.add_assoc]

/-! ### Half pulses -/

/-- The sample at edge `i`. -/
def edge (data : List Byte) (i : ℕ) : ℕ := ((runs (samples data)).take i).sum

/-- A half pulse for a bit lasts `n` interrupts for each of its samples. -/
def PulsesLast (n : ℕ) (data : List Byte) (c : Clocked) : Prop :=
  ∀ i bit a b, (tapeBits true (frame data))[i]? = some bit →
    c.starts[edge data i]? = some a → c.starts[edge data (i + 1)]? = some b →
    b = a + n * freqs true bit

theorem edge_succ {data : List Byte} {i : ℕ} {bit : Bool}
    (h : (tapeBits true (frame data))[i]? = some bit) :
    edge data (i + 1) = edge data i + freqs true bit := by
  have hruns := @runs_encode true ⟨32000, 0, 0⟩ (by decide) data
  rw [edge, edge, samples, hruns, List.take_add_one, List.getElem?_map, h, List.sum_append]
  rfl

theorem PlaysEvery.pulses {n : ℕ} {c : Clocked} (h : PlaysEvery n c) (data : List Byte) :
    PulsesLast n data c := by
  intro i bit a b hbit ha hb
  rw [edge_succ hbit] at hb
  exact h.add ha hb

/-! ### The sample rate -/

/-- The sync alone has five samples. -/
theorem one_lt_length_samples (data : List Byte) : 1 < (samples data).length := by
  have hsync : freqs true true = 5 := by decide
  rw [samples, encode_eq_blocks, tapeBits, syncBits, if_pos rfl, List.append_assoc,
    List.singleton_append, blocks, List.flatten_cons, List.length_append, List.length_replicate,
    hsync]
  omega

/-- **The sample rate** is not a fourth of the overflow interrupts but a fifth. -/
theorem sample_rate_iff (ring : RingBuf Byte 32) (cnt : ℕ) (data : List Byte)
    (events : List Event) :
    let c := clocked (aoutOn ring cnt (save data)) events
    (c.starts.length = c.state.played.length ∧ PlaysEvery 5 c ∧ PulsesLast 5 data c ∧
      (c.state.err = false → c.state.ocr2b = c.state.played.getLastD 0)) ∧
    (PlaysEvery 4 c ∧ PulsesLast 4 data c ↔ c.starts.length ≤ 1) ∧
    (c.state.prog = .ret 0 → ¬ (PlaysEvery 4 c ∧ PulsesLast 4 data c)) := by
  intro c
  have h : Paced c := paced_clocked _ rfl rfl events
  have hiff : PlaysEvery 4 c ∧ PulsesLast 4 data c ↔ c.starts.length ≤ 1 := by
    constructor
    · rintro ⟨hfour, -⟩
      by_contra hlt
      have hfour' := List.isChain_iff_getElem.mp hfour 0 (by omega)
      have hfive := List.isChain_iff_getElem.mp h.every 0 (by omega)
      omega
    · intro hle
      have hshort : PlaysEvery 4 c := by
        refine List.isChain_iff_getElem.mpr ?_
        intro i hi
        omega
      exact ⟨hshort, hshort.pulses data⟩
  refine ⟨⟨h.length, h.every, h.every.pulses data, h.held⟩, hiff, fun hret hfour => ?_⟩
  have hplayed := played_of_ret ring cnt data events
  rw [← clocked_state] at hplayed
  have hle := hiff.mp hfour
  rw [h.length, hplayed hret, List.length_map] at hle
  exact absurd hle (not_le.mpr (one_lt_length_samples data))

/-- Two samples are in the ring, and the sixth interrupt takes the second. -/
theorem five_interrupts :
    let c := clocked (aoutOn ⟨fun _ => 0, 0, 0, by decide, by decide⟩ 4 (save [0x41]))
      (List.replicate 6 .mainLoop ++ List.replicate 6 .timer2Ovf)
    c.state.err = false ∧ c.starts = [0, 5] ∧ ¬ PlaysEvery 4 c := by
  intro c
  have hstarts : c.starts = [0, 5] := by decide +kernel
  refine ⟨by decide +kernel, hstarts, ?_⟩
  rw [PlaysEvery, hstarts, List.isChain_pair]
  decide

end AudioOut

end Dan64
