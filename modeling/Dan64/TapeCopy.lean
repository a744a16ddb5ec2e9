/-
Dan64/TapeCopy.lean

From one machine to another: `save` here and `load` there.

The output of a save crosses the middle of its range where a half pulse ends, five
interrupts of timer 2 for each sample after it began, and not four
(`edgeTimes_save`).  The other machine measures the times between the edges in ticks of
its own timer 2.  Thirteen ticks off is near enough: what it receives is the frame,
or as much of it as has come, and what it has stored is as much of the saved block
(`tape_copy`).
-/
import Dan64.AudioRate
import Dan64.Loading
import Dan64.TapeLength

namespace Dan64

open Mealy Signal

namespace AudioOut

/-! ### Edges -/

/-- The half of the range that the output is in. -/
def upper (b : Byte) : Bool := decide (128 ≤ b.toNat)

/-- When the output goes from one half to the other. -/
def crossings : List (ℕ × Byte) → List ℕ
  | (_, b) :: (j, b') :: l =>
    if upper b = upper b' then crossings ((j, b') :: l) else j :: crossings ((j, b') :: l)
  | _ => []

/-- The times between. -/
def gaps : List ℕ → List ℕ
  | i :: j :: l => (j - i) :: gaps (j :: l)
  | _ => []

/-- The times from edge to edge of what was played, in interrupts. -/
def edgeTimes (c : Clocked) : List ℕ := gaps (crossings (c.starts.zip c.state.played))

/-- Samples that start five interrupts apart. -/
def timed : ℕ → List Byte → List (ℕ × Byte)
  | _, [] => []
  | s, b :: bs => (s, b) :: timed (s + 5) bs

theorem zip_eq_timed {starts : List ℕ} (h : starts.IsChain fun i j => j = i + 5)
    {played : List Byte}
    (hlength : starts.length = played.length) :
    starts.zip played = timed (starts.headD 0) played := by
  induction starts generalizing played with
  | nil =>
    obtain rfl := List.eq_nil_of_length_eq_zero hlength.symm
    rfl
  | cons i starts ih =>
    rcases played with - | ⟨b, played⟩
    · exact absurd hlength (Nat.succ_ne_zero _)
    obtain ⟨hhead, htail⟩ := List.isChain_cons.mp h
    rw [List.zip_cons_cons, ih htail (Nat.succ.inj hlength)]
    rcases starts with - | ⟨j, starts⟩
    · obtain rfl := List.eq_nil_of_length_eq_zero (Nat.succ.inj hlength).symm
      rfl
    · rw [List.headD_cons, List.headD_cons, timed, hhead j rfl]

/-- A block of one half, and the next one of the other. -/
theorem crossings_block {x y : Byte} (hne : upper x ≠ upper y) (s k : ℕ) (ys : List Byte) :
    crossings (timed s (List.replicate (k + 1) x ++ y :: ys))
      = (s + 5 * (k + 1)) :: crossings (timed (s + 5 * (k + 1)) (y :: ys)) := by
  induction k generalizing s with
  | zero => exact if_neg hne
  | succ k ih =>
    have hsame : crossings (timed s (List.replicate (k + 1 + 1) x ++ y :: ys))
        = crossings (timed (s + 5) (List.replicate (k + 1) x ++ y :: ys)) := if_pos rfl
    rw [hsame, ih]
    have hnext : s + 5 + 5 * (k + 1) = s + 5 * (k + 1 + 1) := by omega
    rw [hnext]

theorem crossings_last (x : Byte) (s k : ℕ) : crossings (timed s (List.replicate k x)) = [] := by
  induction k generalizing s with
  | zero => rfl
  | succ k ih =>
    rcases k with - | k
    · rfl
    · exact (if_pos rfl).trans (ih (s + 5))

/-- The output of a half pulse. -/
def output (level : ℤ) : Byte := saveQueue (BitVec.ofInt 16 ((32000 : Word).toInt * level))

theorem upper_output {level : ℤ} (hlevel : level = 1 ∨ level = -1) :
    upper (output level) ≠ upper (output (turn level)) := by
  rcases hlevel with rfl | rfl <;> decide

/-- The bytes of the half pulses. -/
def signal (level : ℤ) (bs : List Bool) : List Byte :=
  (blocks true 32000 level bs).flatten.map saveQueue

theorem signal_cons (level : ℤ) (bit : Bool) (bs : List Bool) :
    signal level (bit :: bs)
      = List.replicate (freqs true bit) (output level) ++ signal (turn level) bs := by
  rw [signal, blocks, List.flatten_cons, List.map_append, List.map_replicate]
  rfl

theorem exists_signal_cons (level : ℤ) (bit : Bool) (bs : List Bool) :
    ∃ bytes, signal level (bit :: bs) = output level :: bytes := by
  obtain ⟨k, hk⟩ := Nat.exists_eq_succ_of_ne_zero (freqs_pos true bit).ne'
  rw [signal_cons, hk, List.replicate_succ, List.cons_append]
  exact ⟨_, rfl⟩

/-- From edge to edge there is one half pulse: induction on the half pulses. -/
theorem gaps_signal {level : ℤ} (hlevel : level = 1 ∨ level = -1) (s : ℕ) (bit : Bool)
    (bs : List Bool) :
    gaps (s :: crossings (timed s (signal level (bit :: bs))))
      = (bit :: bs).dropLast.map fun b => 5 * freqs true b := by
  induction bs generalizing s level bit with
  | nil =>
    rw [signal_cons, signal, blocks, List.flatten_nil, List.map_nil, List.append_nil,
      crossings_last]
    rfl
  | cons bit' bs ih =>
    obtain ⟨k, hk⟩ := Nat.exists_eq_succ_of_ne_zero (freqs_pos true bit).ne'
    obtain ⟨bytes, hbytes⟩ := exists_signal_cons (turn level) bit' bs
    have hnext := ih (turn_level hlevel).2 (s + 5 * (k + 1)) bit'
    rw [hbytes] at hnext
    rw [signal_cons, hk, hbytes, crossings_block (upper_output hlevel), gaps, hnext,
      Nat.add_sub_cancel_left, ← Nat.succ_eq_add_one, ← hk]
    rfl

theorem gaps_tail {s t : ℕ} {l ts : List ℕ} (h : gaps (s :: l) = t :: ts) : gaps l = ts := by
  rcases l with - | ⟨j, l⟩
  · exact absurd h (List.cons_ne_nil t ts).symm
  · exact (List.cons.inj h).2

/-- The times from edge to edge are those of the half pulses, without the first and the
last one. -/
theorem edgeTimes_save (ring : RingBuf Byte 32) (cnt : ℕ) (data : List Byte) {events : List Event}
    (hret : (run (aoutOn ring cnt (save data)) events).prog = .ret 0) :
    edgeTimes (clocked (aoutOn ring cnt (save data)) events)
      = ((frame data).flatMap bits ++ [false]).map fun bit => 5 * freqs true bit := by
  have hpaced : Paced (clocked (aoutOn ring cnt (save data)) events) :=
    paced_clocked _ rfl rfl events
  have hplayed := played_of_ret ring cnt data events hret
  rw [← clocked_state] at hplayed
  have hsignal : (samples data).map saveQueue
      = signal (-1) (true :: ((frame data).flatMap bits ++ [false, false])) := by
    rw [samples, encode_eq_blocks]
    rfl
  have hlength := hpaced.length
  rw [hplayed, hsignal] at hlength
  rw [edgeTimes, hplayed, hsignal, zip_eq_timed hpaced.every hlength]
  have hgaps := gaps_signal (.inr rfl)
    ((clocked (aoutOn ring cnt (save data)) events).starts.headD 0) true
    ((frame data).flatMap bits ++ [false, false])
  rw [← List.cons_append, List.dropLast_append_cons] at hgaps
  exact gaps_tail hgaps

end AudioOut

/-! ### Ticks -/

namespace AudioIn

/-- A time is measured at most thirteen ticks off. -/
def Near (time : ℕ) (ticks : Byte) : Prop := time ≤ ticks.toNat + 13 ∧ ticks.toNat ≤ time + 13

instance (time : ℕ) (ticks : Byte) : Decidable (Near time ticks) :=
  inferInstanceAs (Decidable (_ ∧ _))

/-- A long half pulse takes 65 interrupts, and a short one 25. -/
theorem long_of_near {bit : Bool} {ticks : Byte} (h : Near (5 * freqs true bit) ticks) :
    decide (Long ticks) = !bit := by
  have htimes : 5 * freqs true false = 65 ∧ 5 * freqs true true = 25 := by decide
  obtain ⟨hlow, hhigh⟩ := h
  cases bit
  · refine decide_eq_true (long_iff_le.mpr ?_)
    omega
  · refine decide_eq_false fun hlong => ?_
    have hle := long_iff_le.mp hlong
    omega

theorem map_long_of_near {bs : List Bool} {ticks : List Byte}
    (h : List.Forall₂ Near (bs.map fun bit => 5 * freqs true bit) ticks) :
    (ticks.map fun t => decide (Long t)) = bs.map not := by
  induction bs generalizing ticks with
  | nil =>
    cases h
    rfl
  | cons bit bs ih =>
    rw [List.map_cons, List.forall₂_cons_left_iff] at h
    obtain ⟨t, ts, ht, hts, rfl⟩ := h
    rw [List.map_cons, List.map_cons, ih hts, long_of_near ht]

/-- The edges of a save, or the first of them, complete the frame, or the first bytes of
it. -/
theorem received_front (ring : RingBuf Byte 32) (bit : ℕ) (byte : Byte)
    {payload first ticks : List Byte}
    (hfirst : first.length = 4)
    (hticks : List.Forall₂ Near (((frame payload).flatMap bits ++ [false]).map fun bit =>
      5 * freqs true bit) ticks)
    {events : List Event} (hheard : heard (ainOn ring bit byte) events <+: first ++ ticks) :
    (run (ainOn ring bit byte) events).received <+: frame payload := by
  obtain ⟨rest, hrest⟩ := hheard
  obtain ⟨hsync, hcapture⟩ := feed_sync ⟨0, bit, byte⟩ rfl hfirst
  have hall :
      (feed Capture.edge ⟨0, bit, byte⟩ (first ++ ticks)).1.reduceOption = frame payload := by
    rw [feed_append, List.reduceOption_append, hsync, hcapture, List.nil_append]
    exact feed_closed (.inr rfl) (map_long_of_near hticks)
  have hrun : (run (ainOn ring bit byte) events).received
      = (feed Capture.edge ⟨0, bit, byte⟩ (heard (ainOn ring bit byte) events)).1.reduceOption :=
    run_received (ainOn ring bit byte) events
  rw [hrun, ← hall, ← hrest, feed_append, List.reduceOption_append]
  exact List.prefix_append _ _

end AudioIn

/-! ### The decoder on a part of a frame -/

theorem reads_feed {dec : Decoder} (h : dec.Reads) {bytes : List Byte}
    (hbusy : ∀ o ∈ (feed decode dec bytes).1, o.Busy) : (feed decode dec bytes).2.Reads := by
  induction bytes generalizing dec with
  | nil => exact h
  | cons byte bytes ih =>
    rw [feed_cons] at hbusy ⊢
    obtain ⟨hret, hcontrol⟩ := hbusy _ List.mem_cons_self
    rw [control_decode] at hcontrol
    refine ih ?_ fun o ho => hbusy o (List.mem_cons_of_mem _ ho)
    rcases Decoder.takes_decode h byte with ⟨hret', -⟩ | ⟨-, hend⟩ | ⟨-, -, hreads, -⟩
    · exact absurd hret hret'
    · exact absurd hend hcontrol
    · exact hreads

/-- Less than a frame leaves the decoder waiting, and its data are the first ones. -/
theorem drive_part {payload : List Byte} (hne : payload ≠ []) (hlen : payload.length ≤ 65535)
    {bytes : List Byte} (hpart : bytes <+: frame payload) (hproper : bytes ≠ frame payload) :
    (drive initDecoder bytes).2.Reads ∧ (drive initDecoder bytes).1 <+: payload := by
  obtain ⟨rest, hrest⟩ := hpart
  obtain ⟨⟨os, hos, hbusy⟩, hwritten⟩ := feed_frame hne (hlen.trans (by decide))
  rw [← hrest, feed_append] at hos hwritten
  -- the last call is not among those for the part
  have hbusy' : ∀ o ∈ (feed decode initDecoder bytes).1, o.Busy := by
    obtain ⟨last, hlast⟩ : ∃ last, (feed decode initDecoder bytes).1 ++ last = os := by
      rcases rest with - | ⟨b, rest⟩
      · exact absurd ((List.append_nil bytes).symm.trans hrest) hproper
      · obtain ⟨l, o, hl⟩ := (List.eq_nil_or_concat' (feed decode (feed decode initDecoder bytes).2
          (b :: rest)).1).resolve_left (List.cons_ne_nil _ _)
        rw [hl, ← List.append_assoc] at hos
        exact ⟨l, (List.append_inj' hos rfl).1⟩
    intro o ho
    exact hbusy o (hlast ▸ List.mem_append_left _ ho)
  have hdrive := drive_append hbusy' []
  rw [List.append_nil, drive_nil, List.append_nil] at hdrive
  rw [hdrive]
  rw [List.flatMap_append] at hwritten
  exact ⟨reads_feed ⟨by decide, by decide⟩ hbusy', ⟨_, hwritten⟩⟩

/-! ### Blocks -/

theorem saveLoop_eq (s : Session) (startAddr : Word) (n : ℕ) :
    (s.saveLoop startAddr n).1 = BlockMem.readBlock s.fw.sram startAddr n := by
  induction n generalizing s startAddr with
  | zero => rfl
  | succ n ih => exact congrArg (s.fw.sram startAddr :: ·) (ih _ (startAddr + 1))

/-- The block that `save` is asked for. -/
def Session.block (s : Session) (startAddr endAddr : Word) : List Byte :=
  (s.save startAddr endAddr (endAddr - startAddr).toNat).1

theorem block_eq (s : Session) (startAddr endAddr : Word) :
    s.block startAddr endAddr
      = BlockMem.readBlock s.fw.sram startAddr (endAddr - startAddr).toNat := by
  rw [Session.block, Session.save, min_self, saveLoop_eq]

theorem take_readBlock (m : Word → Byte) (a : Word) {k n : ℕ} (hk : k ≤ n) :
    (BlockMem.readBlock m a n).take k = BlockMem.readBlock m a k := by
  obtain ⟨d, rfl⟩ := Nat.exists_eq_add_of_le hk
  rw [BlockMem.readBlock_add]
  exact List.take_left' (BlockMem.length_readBlock m a k)

namespace Loading

/-- What the loop has done, running or not. -/
theorem Replays.loop {m : Session × Word} {s : State} (h : Replays m s) :
    Session.loadLoop m initDecoder s.audio.returned = (s.memory.1, s.dec) := by
  by_cases hrun : s.result = none
  · have hgoing := h.going hrun []
    rwa [List.append_nil] at hgoing
  · exact (h.ended hrun).1

/-- A part of a frame: the data are stored as far as they have come, and the loop has
found the end of the frame or nothing yet. -/
theorem Replays.part {t : Session} {destAddr : Word} {s : State} (h : Replays (t, destAddr) s)
    {payload : List Byte} (hne : payload ≠ []) (hlen : payload.length ≤ 65535)
    (hpart : s.audio.returned <+: frame payload) :
    ∃ k ≤ payload.length,
      s.memory.1.fw = ⟨t.fw.localRam, BlockMem.writeBlock t.fw.sram destAddr (payload.take k)⟩ ∧
      (s.audio.returned = frame payload ∧ s.result = some .ready ∧ k = payload.length ∨
        s.audio.returned ≠ frame payload ∧ (s.result = none ∨ s.result = some .time)) := by
  have hloop := h.loop
  rw [loadLoop_eq_drive, Prod.mk.injEq] at hloop
  obtain ⟨hmemory, hdec⟩ := hloop
  obtain ⟨-, hsram, hlocal⟩ := foldl_loadDataWrite t destAddr (drive initDecoder s.audio.returned).1
  have hfw : s.memory.1.fw = ⟨t.fw.localRam, BlockMem.writeBlock t.fw.sram destAddr
      (drive initDecoder s.audio.returned).1⟩ := by
    rw [← hmemory, ← hsram, ← hlocal]
  by_cases hall : s.audio.returned = frame payload
  · obtain ⟨hdata, hcontrol⟩ := drive_frame hne (hlen.trans (by decide)) []
    rw [List.append_nil, ← hall] at hdata hcontrol
    have hended : s.result ≠ none := by
      intro hrun
      have hreads := h.sound.reads (.inl hrun)
      rw [← hdec] at hreads
      exact absurd hcontrol hreads.2.ne
    refine ⟨payload.length, le_rfl, ?_, .inl ⟨hall, ?_, rfl⟩⟩
    · rw [hfw, hdata, List.take_length]
    · rw [(h.ended hended).2, ← hdec, End.of, if_pos hcontrol]
  · obtain ⟨hreads, hdata⟩ := drive_part hne hlen hpart hall
    rw [hdec] at hreads
    refine ⟨_, hdata.length_le, ?_, .inr ⟨hall, ?_⟩⟩
    · rw [hfw, ← List.prefix_iff_eq_take.mp hdata]
    · by_cases hrun : s.result = none
      · exact .inl hrun
      · exact .inr ((h.ended hrun).2.trans (congrArg some (End.of_reads hreads)))

end Loading

open AudioIn in
/-- **A tape carries a block from one machine to the other**: a save that returned 0, and
edges at its times, thirteen ticks off at most, behind the four that are discarded.  In
any interleaving that does not let the reader fall behind, what is stored there at any time
are the first bytes of the block; the loop ends when it has the frame, with all of them, or
too early, and never reports an error. -/
theorem tape_copy (s : Session) {startAddr endAddr : Word} (hne : startAddr ≠ endAddr)
    (ring : RingBuf Byte 32) (cnt : ℕ) {saving : List AudioOut.Event}
    (hret : (AudioOut.run (AudioOut.aoutOn ring cnt (AudioOut.save (s.block startAddr endAddr)))
      saving).prog = .ret 0)
    {first ticks : List Byte} (hfirst : first.length = 4)
    (hticks : List.Forall₂ Near (AudioOut.edgeTimes (AudioOut.clocked
      (AudioOut.aoutOn ring cnt (AudioOut.save (s.block startAddr endAddr))) saving)) ticks)
    (t : Session) (destAddr : Word) (ring' : RingBuf Byte 32) (bit : ℕ) (byte : Byte)
    {loading : List Event}
    (hheard : heard (ainOn ring' bit byte) (Loading.active (Loading.start t destAddr ring' bit byte)
      loading) <+: first ++ ticks)
    (hspace : Along step (fun a event => behind (step a event) ≤ 31) (ainOn ring' bit byte)
      (Loading.active (Loading.start t destAddr ring' bit byte) loading)) :
    let n := (endAddr - startAddr).toNat
    let l := Loading.run (Loading.start t destAddr ring' bit byte) loading
    ∃ k ≤ n, l.memory.1.fw = ⟨t.fw.localRam,
        BlockMem.writeBlock t.fw.sram destAddr (BlockMem.readBlock s.fw.sram startAddr k)⟩ ∧
      (l.audio.returned = frame (s.block startAddr endAddr) ∧ l.result = some .ready ∧ k = n ∨
        l.audio.returned ≠ frame (s.block startAddr endAddr) ∧
          (l.result = none ∨ l.result = some .time)) := by
  intro n l
  have hblock := block_eq s startAddr endAddr
  have hlength : (s.block startAddr endAddr).length = n := by
    rw [hblock, BlockMem.length_readBlock]
  have hn : n < 65536 := (endAddr - startAddr).isLt
  have hnil : s.block startAddr endAddr ≠ [] := by
    rw [← List.length_pos_iff, hlength]
    refine Nat.pos_of_ne_zero fun hzero => hne ?_
    exact (sub_eq_zero.mp (BitVec.eq_of_toNat_eq hzero : endAddr - startAddr = 0)).symm
  rw [AudioOut.edgeTimes_save ring cnt _ hret] at hticks
  -- what was returned is what was received, up to what is still in the ring
  have hpart : l.audio.returned <+: frame (s.block startAddr endAddr) := by
    have hlossless : Lossless _ :=
      lossless_run (fresh_ainOn ring' bit byte) (RingBuf.contents_clear ring') hspace
    have haudio : l.audio = _ := Loading.audio_run (Loading.start t destAddr ring' bit byte) loading
    rw [haudio]
    exact List.IsPrefix.trans ⟨_, hlossless⟩ (received_front ring' bit byte hfirst hticks hheard)
  obtain ⟨k, hk, hfw, hend⟩ := (Loading.replays_run t destAddr ring' bit byte loading).part hnil
    (by omega) hpart
  rw [hlength] at hk hend
  refine ⟨k, hk, ?_, hend⟩
  rw [hfw, hblock, take_readBlock _ _ hk]

open AudioIn in
/-- One byte, from `$1a00` to `$2000`: short half pulses are measured six ticks too long and
long ones five, and the reader takes the bytes at the end. -/
theorem tape_copy_one :
    let s : Session := ⟨⟨fun _ => 0, fun _ => 0⟩, []⟩
    let ring : RingBuf Byte 32 := ⟨fun _ => 0, 5, 9, by decide, by decide⟩
    let ticks : List Byte :=
      ((frame [0]).flatMap bits ++ [false]).map fun bit => if bit then 31 else 70
    let events : List Event := ([7, 200, 0, 90] ++ ticks).map .edge ++
      List.replicate 18 (.reader ⟨[], by decide⟩)
    let l := Loading.run (Loading.start s 0x2000 ring 3 0x55) events
    ∃ k ≤ (0x1a01 - 0x1a00 : Word).toNat, l.memory.1.fw = ⟨s.fw.localRam,
        BlockMem.writeBlock s.fw.sram 0x2000 (BlockMem.readBlock s.fw.sram 0x1a00 k)⟩ ∧
      (l.audio.returned = frame (s.block 0x1a00 0x1a01) ∧ l.result = some .ready ∧
          k = (0x1a01 - 0x1a00 : Word).toNat ∨
        l.audio.returned ≠ frame (s.block 0x1a00 0x1a01) ∧
          (l.result = none ∨ l.result = some .time)) := by
  intro s ring ticks events
  obtain ⟨saving, hret⟩ := AudioOut.exists_save ring (s.block 0x1a00 0x1a01)
  refine @tape_copy s 0x1a00 0x1a01 (by decide) ring 4 saving hret [7, 200, 0, 90] ticks rfl ?_ s
    0x2000 ring 3 0x55 events (by decide +kernel) (by decide +kernel)
  rw [AudioOut.edgeTimes_save ring 4 _ hret]
  decide +kernel

end Dan64
