/-
Dan64/TapeLength.lean

Lengths that 16 bits are too few for.

Behind a header `load` passes on as many bytes as it declares, or all that arrive
(`written_header`), and stores them from `PROG_START` on at an address that wraps:
it stays in the program area exactly if they are no more than fit
(`load_stays_iff`).  The tool `encode` takes the length of the header from `ftell`
and the data from the file: the header of a longer file declares what is left of
its length in 16 bits, and `load` ends there (`encode_lossless_iff`).
-/
import Dan64.TapeSignal

namespace Dan64

open Mealy MemHistory Session

/-! ### What is passed on -/

theorem declared_le (h l : Byte) : declared h l ≤ 65536 := by
  rw [← remaining_declared]
  exact BitVec.isLt _

/-- Behind a header the declared bytes are passed on, as far as they arrive. -/
theorem written_header (h l : Byte) (rest : List Byte) :
    (drive initDecoder (header h l ++ rest)).1 = rest.take (declared h l) := by
  have hstream : header h l ++ rest = 0xff :: h :: l :: (h ^^^ l) :: rest := rfl
  rw [hstream, drive_length, drive_par0, if_pos rfl]
  by_cases hshort : rest.length < declared h l
  · rw [drive_data_short ((remaining_declared h l).symm ▸ hshort), List.take_of_length_le hshort.le]
  · have htake : (rest.take (declared h l)).length = declared h l :=
      List.length_take_of_le (not_lt.mp hshort)
    have hdata := @drive_data _ _ 0 _ (htake.trans (remaining_declared h l).symm)
      (rest.drop (declared h l))
    rw [List.take_append_drop] at hdata
    rw [hdata]
    rcases rest.drop (declared h l) with - | ⟨q, rest'⟩
    · exact List.append_nil _
    · rw [drive_par1]
      exact List.append_nil _

/-- Without a header nothing is. -/
theorem written_nil {audio : List Byte} (hnone : ∀ h l rest, audio ≠ header h l ++ rest) :
    (drive initDecoder audio).1 = [] := by
  rcases audio with - | ⟨m, audio⟩
  · rfl
  by_cases hm : m = 0xff
  swap
  · rw [drive_magic hm]
  subst hm
  rcases audio with - | ⟨h, - | ⟨l, - | ⟨q, audio⟩⟩⟩
  · rfl
  · rfl
  · rw [drive_length]
    rfl
  · rw [drive_length, drive_par0, if_neg]
    rintro rfl
    exact hnone h l audio rfl

/-! ### `load` of the shell -/

/-- `cmd_load`, past the prompt. -/
def Session.cmdLoad (s : Session) (audio : List Byte) : Session := (s.load PROG_START audio).2

/-- The address that an event stores at. -/
def storedAt : Event Party Word Byte → Option Word
  | .read _ _ _ => none
  | .stored _ a _ => some a

/-- The addresses stored at between two sessions, in order. -/
def stores (s t : Session) : List Word := (t.log.drop s.log.length).filterMap storedAt

/-- What is stored is stored in the program area, byte by byte from its start, and
everything below is as before. -/
structure StaysInProgram (s t : Session) : Prop where
  inside : ∀ a ∈ stores s t, PROG_START.toNat ≤ a.toNat
  consecutive : ∀ i (hi : i < (stores s t).length), (stores s t)[i].toNat = PROG_START.toNat + i
  below : ∀ a : Word, a.toNat < PROG_START.toNat → t.fw.sram a = s.fw.sram a
  localRam : t.fw.localRam = s.fw.localRam

/-- More data than fit into the program area: behind a header that declares more, more
arrive. -/
def Overlong (audio : List Byte) : Prop :=
  ∃ h l rest, audio = header h l ++ rest ∧ 0xe600 < declared h l ∧ 0xe600 < rest.length

/-- Induction on the data. -/
theorem foldl_loadDataWrite (s : Session) (dest : Word) (data : List Byte) :
    let t := (data.foldl loadDataWrite (s, dest)).1
    t.log = s.log ++ blockStores .shell dest data ∧
      t.fw.sram = BlockMem.writeBlock s.fw.sram dest data ∧ t.fw.localRam = s.fw.localRam := by
  induction data generalizing s dest with
  | nil => exact ⟨(List.append_nil _).symm, rfl, rfl⟩
  | cons d data ih =>
    obtain ⟨hlog, hsram, hlocal⟩ := ih (s.sramWrite .shell dest [d]) (dest + 1)
    exact ⟨hlog.trans (List.append_assoc _ _ _), hsram, hlocal⟩

theorem storedAt_blockStores (p : Party) (a : Word) (vs : List Byte) :
    (blockStores p a vs).filterMap storedAt
      = (List.range vs.length).map fun i => a + BitVec.ofNat 16 i := by
  induction vs generalizing a with
  | nil => rfl
  | cons v vs ih =>
    rw [List.length_cons, List.range_succ_eq_map, List.map_cons, List.map_map]
    refine (congrArg (a :: ·) (ih (a + 1))).trans ?_
    refine congrArg₂ _ (by simp) (List.map_congr_left fun i _ => ?_)
    exact BlockMem.add_one_add_ofNat a i

theorem stores_cmdLoad (s : Session) (audio : List Byte) :
    stores s (s.cmdLoad audio)
      = (List.range (drive initDecoder audio).1.length).map fun i =>
          PROG_START + BitVec.ofNat 16 i := by
  obtain ⟨hlog, -, -⟩ := foldl_loadDataWrite s PROG_START (drive initDecoder audio).1
  rw [stores, cmdLoad, load_eq, hlog, List.drop_left, storedAt_blockStores]

/-- Data that fit stay in the program area, and others do not. -/
theorem staysInProgram_iff (s : Session) (audio : List Byte) :
    StaysInProgram s (s.cmdLoad audio) ↔ (drive initDecoder audio).1.length ≤ 0xe600 := by
  have hstores := stores_cmdLoad s audio
  have hwrap : ∀ i ≤ 0xe5ff, (PROG_START + BitVec.ofNat 16 i).toNat = PROG_START.toNat + i := by
    intro i hi
    rw [BitVec.toNat_add, BitVec.toNat_ofNat]
    show (0x1a00 + i % 65536) % 65536 = 0x1a00 + i
    omega
  constructor
  · intro h
    by_contra hlong
    -- the byte behind the last address
    have hmem : PROG_START + BitVec.ofNat 16 0xe600 ∈ stores s (s.cmdLoad audio) := by
      rw [hstores]
      exact List.mem_map.mpr ⟨0xe600, List.mem_range.mpr (not_le.mp hlong), rfl⟩
    exact absurd (h.inside _ hmem) (by decide)
  · intro hlen
    have hconsecutive : ∀ i (hi : i < (stores s (s.cmdLoad audio)).length),
        (stores s (s.cmdLoad audio))[i].toNat = PROG_START.toNat + i := by
      intro i hi
      rw [hstores, List.length_map, List.length_range] at hi
      simp only [hstores, List.getElem_map, List.getElem_range]
      exact hwrap i (by omega)
    obtain ⟨-, hsram, hlocal⟩ := foldl_loadDataWrite s PROG_START (drive initDecoder audio).1
    refine ⟨fun a ha => ?_, hconsecutive, fun a ha => ?_, ?_⟩
    · obtain ⟨i, hi, rfl⟩ := List.getElem_of_mem ha
      rw [hconsecutive i hi]
      exact Nat.le_add_right _ _
    · rw [cmdLoad, load_eq, hsram]
      apply BlockMem.writeBlock_of_forall_ne
      rintro i hi rfl
      rw [hwrap i (by omega)] at ha
      omega
    · rw [cmdLoad, load_eq, hlocal]

theorem length_written_le_iff (audio : List Byte) :
    (drive initDecoder audio).1.length ≤ 0xe600 ↔ ¬ Overlong audio := by
  by_cases hheader : ∃ h l rest, audio = header h l ++ rest
  · obtain ⟨h, l, rest, rfl⟩ := hheader
    rw [written_header, List.length_take, ← not_lt, lt_min_iff, not_iff_not]
    constructor
    · rintro ⟨hdecl, hrest⟩
      exact ⟨h, l, rest, rfl, hdecl, hrest⟩
    · rintro ⟨h', l', rest', heq, hdecl, hrest⟩
      obtain ⟨rfl, rfl, -, rfl⟩ : h = h' ∧ l = l' ∧ h ^^^ l = h' ^^^ l' ∧ rest = rest' := by
        simpa [header] using heq
      exact ⟨hdecl, hrest⟩
  · rw [written_nil fun h l rest heq => hheader ⟨h, l, rest, heq⟩]
    refine iff_of_true (by decide) ?_
    rintro ⟨h, l, rest, heq, -⟩
    exact hheader ⟨h, l, rest, heq⟩

/-- **`load` stays in the program area** exactly if no more data arrive and are
declared than it has room for. -/
theorem load_stays_iff (s : Session) (audio : List Byte) :
    StaysInProgram s (s.cmdLoad audio) ↔ ¬ Overlong audio :=
  (staysInProgram_iff s audio).trans (length_written_le_iff audio)

/-- A byte too many: it is stored in page zero of the serial memory. -/
theorem load_wraps :
    let s : Session := ⟨⟨fun _ => 0, fun _ => 0⟩, []⟩
    let audio := header 0xe6 0x01 ++ List.replicate 0xe601 0
    ¬ StaysInProgram s (s.cmdLoad audio) ∧ 0 ∈ stores s (s.cmdLoad audio) := by
  intro s audio
  have hlen : (drive initDecoder audio).1.length = 0xe601 := by
    rw [written_header, List.take_replicate, List.length_replicate]
    decide
  rw [staysInProgram_iff, stores_cmdLoad, hlen]
  exact ⟨by decide, List.mem_map.mpr ⟨0xe600, List.mem_range.mpr (by decide), rfl⟩⟩

/-! ### The tool `encode` -/

namespace Tool

open Signal

/-- What the samples are written to. -/
inductive Output
  | raw
  | wav

def Output.volume : Output → Word
  | .raw => 16000
  | .wav => 32000

/-- `encode`: the samples that go through `write`, or the error of a file that does not
open.  The struct `enc` is not initialised but for the volume. -/
def encode (enc : Signal.Encoder) : Option (List Byte) → Option Output → Except ℕ (List Word)
  | none, _ => .error 1
  | some _, none => .error 1
  | some file, some output =>
    let dataLen := BitVec.ofNat 16 file.length
    let enc := { enc with volume := output.volume }
    let (header, enc) := Signal.encodeHeader false enc dataLen
    let (data, enc) := feed (Signal.encodeByte false) enc file
    .ok (header ++ data.flatten ++ Signal.encodeEnd false enc)

/-- The bytes in a signal: eight half pulses behind the sync are one, and the long ones
are its ones. -/
def bytesIn (samples : List Word) : List Byte :=
  let pulses := (runs samples).drop (syncBits false).length
  (feed AudioIn.Capture.push ⟨4, 0, 0⟩
    (pulses.map fun n => decide (n = freqs false false))).1.reduceOption

/-- `load` passes on the file, and ends with the last byte of the stream. -/
structure ReadsBack (file stream : List Byte) : Prop where
  written : (drive initDecoder stream).1 = file
  ends : (drive initDecoder stream).2.control = C_END
  last : ∀ as cs, stream = as ++ cs → cs ≠ [] → (drive initDecoder as).2.control ≠ C_END

/-- What is emitted, if anything is, is read back. -/
def Lossless (file : List Byte) (result : Except ℕ (List Word)) : Prop :=
  ∀ samples, result = .ok samples → ReadsBack file (bytesIn samples)

theorem encode_eq (enc : Signal.Encoder) (file : List Byte) (output : Output) :
    encode enc (some file) (some output)
      = .ok (Signal.encode false { enc with volume := output.volume } file) := rfl

/-- The signal of a file holds its frame. -/
theorem bytesIn_encode (enc : Signal.Encoder) (file : List Byte) (output : Output) :
    bytesIn (Signal.encode false { enc with volume := output.volume } file) = frame file := by
  have hvolume : 0 < output.volume.toInt := by
    cases output <;> decide
  obtain ⟨hbytes, hcapture⟩ := AudioIn.feed_bytes (frame file)
  have hlong : ((fun n => decide (n = freqs false false)) ∘ freqs false) = not := by
    funext bit
    cases bit <;> rfl
  have hruns := @AudioIn.runs_drop_sync false { enc with volume := output.volume } hvolume file
  rw [bytesIn, hruns, List.map_map, hlong, List.map_append, feed_append,
     hcapture, List.reduceOption_append, hbytes]
  exact List.append_nil _

/-- Bytes that do not end a frame leave the decoder in it. -/
theorem control_feed {dec : Decoder} (hdec : dec.control ≠ C_END) {as : List Byte}
    (hbusy : ∀ o ∈ (feed decode dec as).1, o.Busy) : (feed decode dec as).2.control ≠ C_END := by
  induction as generalizing dec with
  | nil => exact hdec
  | cons a as ih =>
    rw [feed_cons] at hbusy
    have hcontrol := (hbusy _ List.mem_cons_self).2
    rw [control_decode] at hcontrol
    exact ih hcontrol fun o ho => hbusy o (List.mem_cons_of_mem _ ho)

theorem readsBack_frame {file : List Byte} (hne : file ≠ []) (hlen : file.length ≤ 65536) :
    ReadsBack file (frame file) := by
  have hdrive := drive_frame hne hlen []
  rw [List.append_nil] at hdrive
  refine ⟨hdrive.1, hdrive.2, fun as cs hsplit hcs => ?_⟩
  obtain ⟨⟨os, hos, hbusy⟩, -⟩ := feed_frame hne hlen
  rcases cs with - | ⟨c, cs⟩
  · exact absurd rfl hcs
  -- only the last call ends the frame
  have hskip : ∀ o ∈ (feed decode initDecoder as).1, o.Busy := by
    intro o ho
    apply hbusy
    have hall := hos
    rw [hsplit, feed_append, feed_cons] at hall
    rw [← @List.dropLast_concat _ os, ← hall, List.dropLast_append_cons]
    exact List.mem_append_left _ ho
  have hdrive := drive_append hskip []
  rw [List.append_nil] at hdrive
  rw [hdrive]
  exact control_feed (by decide) hskip

/-- The header of a longer file declares fewer bytes. -/
theorem not_readsBack_frame {file : List Byte} (hlen : 65536 < file.length) :
    ¬ ReadsBack file (frame file) := by
  rintro ⟨hwritten, -, -⟩
  obtain ⟨h, l, hframe, -⟩ := exists_frame file
  have hle := declared_le h l
  rw [hframe, List.append_assoc, written_header] at hwritten
  have hcut := congrArg List.length hwritten
  rw [List.length_take] at hcut
  omega

/-- **The tool is lossless or refuses** exactly if the file has at most 65536 bytes. -/
theorem encode_lossless_iff (enc : Signal.Encoder) {file : List Byte} (hne : file ≠ [])
    (output : Option Output) :
    Lossless file (encode enc (some file) output) ↔ output = none ∨ file.length ≤ 65536 := by
  rcases output with - | output
  · exact iff_of_true nofun (.inl rfl)
  rw [encode_eq, or_iff_right (Option.some_ne_none output)]
  constructor
  · intro hlossless
    by_contra hlong
    have hread := hlossless _ (encode_eq enc file output)
    rw [bytesIn_encode] at hread
    exact not_readsBack_frame (not_le.mp hlong) hread
  · rintro hlen _ ⟨⟩
    rw [bytesIn_encode]
    exact readsBack_frame hne hlen

theorem encode_lossless_iff_two :
    Lossless [0x41, 0x42] (encode ⟨0, 0x55, 3⟩ (some [0x41, 0x42]) (some .wav)) ↔
      some Output.wav = none ∨ [0x41, 0x42].length ≤ 65536 :=
  encode_lossless_iff ⟨0, 0x55, 3⟩ (List.cons_ne_nil 0x41 [0x42]) (some .wav)

/-- A file whose length is 1 in 16 bits: the second byte is taken for the parity. -/
theorem drive_frame_wrapped {d q : Byte} {rest : List Byte}
    (hlen : BitVec.ofNat 16 (d :: q :: rest).length = 1) :
    drive initDecoder (frame (d :: q :: rest))
      = ([d], ⟨if q = xorAll [d] then C_END else -C_PAR1, 1, xorAll [d], 1⟩) := by
  obtain ⟨h, l, hframe, hn⟩ := exists_frame (d :: q :: rest)
  rw [hlen] at hn
  obtain ⟨rfl, rfl⟩ : h = 0 ∧ l = 1 := append_byte_inj hn
  have hsplit : header 0 1 ++ d :: q :: rest ++ [xorAll (d :: q :: rest)]
      = header 0 1 ++ [d] ++ q :: (rest ++ [xorAll (d :: q :: rest)]) := rfl
  rw [hframe, hsplit, drive_body rfl]
  rfl

/-- 65537 zeros: one of them is read back, without an error. -/
theorem long_file_cut :
    let file : List Byte := 0 :: 0 :: List.replicate 65535 0
    ¬ Lossless file (encode ⟨0, 0, 0⟩ (some file) (some .wav)) ∧
      (drive initDecoder (frame file)).1 = [0] ∧
      (drive initDecoder (frame file)).2.control = C_END := by
  intro file
  have hlen : file.length = 65537 := by
    rw [List.length_cons, List.length_cons, List.length_replicate]
  refine ⟨fun hlossless => ?_, ?_⟩
  · have hread := hlossless _ (encode_eq _ file .wav)
    rw [bytesIn_encode] at hread
    exact not_readsBack_frame (by omega) hread
  · have hone : BitVec.ofNat 16 file.length = 1 := by
      rw [hlen]
      rfl
    rw [drive_frame_wrapped hone]
    exact ⟨rfl, rfl⟩

end Tool

end Dan64
